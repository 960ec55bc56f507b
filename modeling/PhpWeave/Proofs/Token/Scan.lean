import PhpWeave.Proofs.Token.Progress

set_option autoImplicit false

/-!
A scan as a run. The fuel of the scan never shows, the tokens of a text spell the text, and a scan
can be cut after any token and taken up again from what it remembers there.
-/

namespace PhpWeave.Scan

open Lexeme

/-- The tokens of a text from some point of a scan on. -/
def tokensFrom (state : State) (text : Text) : List Token := tokensWithin text.length state text

theorem token_text_length (state : State) {text : Text} (nonempty : text ≠ []) :
    (state.token text).text.length = (state.lexeme text).2 := by
  have bounds := state.lexeme_bounds nonempty
  simp only [State.token, List.length_take]
  omega

theorem token_text_ne_nil (state : State) {text : Text} (nonempty : text ≠ []) :
    (state.token text).text ≠ [] := by
  have positive := (state.lexeme_bounds nonempty).1
  rw [← token_text_length state nonempty] at positive
  exact List.ne_nil_of_length_pos positive

theorem token_text_append (state : State) {text : Text} (nonempty : text ≠ []) :
    (state.token text).text ++ text.drop (state.token text).text.length = text := by
  rw [token_text_length state nonempty]
  exact List.take_append_drop _ _

private theorem drop_token_length (state : State) {text : Text} (nonempty : text ≠ []) :
    (text.drop (state.token text).text.length).length < text.length := by
  have bounds := state.lexeme_bounds nonempty
  rw [List.length_drop, token_text_length state nonempty]
  omega

/-- Fuel beyond the number of characters changes nothing. -/
theorem tokensWithin_eq (fuel : Nat) (state : State) (text : Text) (enough : text.length ≤ fuel) :
    tokensWithin fuel state text = tokensFrom state text := by
  have any (fuel : Nat) : ∀ (other : Nat) (state : State) (text : Text), text.length ≤ fuel →
      text.length ≤ other → tokensWithin fuel state text = tokensWithin other state text := by
    induction fuel with
    | zero =>
        intro other state text none _
        rw [List.length_eq_zero_iff.mp (Nat.le_zero.mp none)]
        cases other <;> rfl
    | succ fuel ih =>
        intro other state text enough more
        cases text with
        | nil => cases other <;> rfl
        | cons c rest =>
            cases other with
            | zero => exact absurd more (Nat.not_succ_le_zero _)
            | succ other =>
                have shorter := drop_token_length state (List.cons_ne_nil c rest)
                have next := ih other (state.after (state.token (c :: rest)))
                  ((c :: rest).drop (state.token (c :: rest)).text.length) (by omega) (by omega)
                simp only [tokensWithin, next]
  exact any fuel text.length state text enough (Nat.le_refl _)

theorem tokensFrom_nil (state : State) : tokensFrom state [] = [] := rfl

theorem tokensFrom_step (state : State) {text : Text} (nonempty : text ≠ []) :
    tokensFrom state text =
      state.token text :: tokensFrom (state.after (state.token text))
        (text.drop (state.token text).text.length) := by
  have shorter := drop_token_length state nonempty
  cases text with
  | nil => exact absurd rfl nonempty
  | cons c rest =>
      simp only [tokensFrom, List.length_cons, tokensWithin]
      congr 1
      exact tokensWithin_eq _ _ _ (by simpa [Nat.lt_succ_iff] using shorter)

/-- The tokens of a text spell the text, and none of them is empty. -/
theorem tokensFrom_spells (state : State) (text : Text) :
    Token.textOf (tokensFrom state text) = text ∧
      ∀ token ∈ tokensFrom state text, token.text ≠ [] := by
  induction length : text.length using Nat.strongRecOn generalizing state text with
  | ind size ih =>
      by_cases empty : text = []
      · rw [empty, tokensFrom_nil]
        exact ⟨rfl, fun _ member => by cases member⟩
      · have shorter := drop_token_length state empty
        obtain ⟨spelled, filled⟩ := ih _ (length ▸ shorter)
          (state.after (state.token text)) (text.drop (state.token text).text.length) rfl
        rw [tokensFrom_step state empty]
        constructor
        · rw [Token.textOf_cons, spelled]
          exact token_text_append state empty
        · intro token member
          rcases List.mem_cons.mp member with rfl | later
          · exact token_text_ne_nil state empty
          · exact filled token later

/-- After some of its tokens a scan goes on with the text that they leave. -/
theorem tokensFrom_resume {state : State} {text : Text} {before after : List Token}
    (cut : tokensFrom state text = before ++ after) :
    text = Token.textOf before ++ Token.textOf after ∧
      tokensFrom (before.foldl State.after state) (Token.textOf after) = after := by
  induction before generalizing state text with
  | nil =>
      have spelled := (tokensFrom_spells state text).1
      rw [cut, List.nil_append] at spelled
      rw [spelled]
      exact ⟨rfl, cut⟩
  | cons token before ih =>
      have nonempty : text ≠ [] := by
        rintro rfl
        cases cut
      rw [tokensFrom_step state nonempty, List.cons_append, List.cons.injEq] at cut
      obtain ⟨spelled, resumed⟩ := ih cut.2
      have whole := token_text_append state nonempty
      rw [cut.1] at whole spelled resumed
      refine ⟨?_, resumed⟩
      rw [Token.textOf_cons, List.append_assoc, ← spelled, whole]

theorem tokensFrom_lexeme {state : State} {text rest : Text} {kind : TokenKind}
    (php : state.mode = .php) (filled : text ≠ [])
    (lexeme : phpLexeme state.afterArrow (text ++ rest) = (kind, text.length)) :
    tokensFrom state (text ++ rest) = ⟨kind, text, state.line⟩ ::
      tokensFrom (state.after ⟨kind, text, state.line⟩) rest := by
  have token : state.token (text ++ rest) = ⟨kind, text, state.line⟩ := by
    rw [State.token, State.lexeme, php, lexeme, List.take_left]
  rw [tokensFrom_step state (by simp [filled]), token, List.drop_left]

theorem scan_eq (mode : Mode) (text : Text) : scan mode text = tokensFrom (State.start mode) text :=
  rfl

end PhpWeave.Scan
