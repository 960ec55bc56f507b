import Mathlib.Data.List.Forall2
import PhpWeave.Proofs.Token.Scan
import PhpWeave.Proofs.Token.Search
import PhpWeave.Proofs.Token.Truncation
import PhpWeave.Token.Stream

set_option autoImplicit false

/-!
Scanning a piece of a source by itself. Between the tags a scan remembers nothing but whether an
arrow came last, and no token depends on what follows it. So a range of tokens without tags and
without an arrow before it is found again when its text is scanned alone.
-/

namespace PhpWeave

namespace Lexeme

theorem openTag?_isMarkup {text : Text} {found : TokenKind × Nat}
    (tag : openTag? text = some found) : found.1.isMarkup = true := by
  unfold openTag? at tag
  split at tag
  · split at tag
    · cases tag
      rfl
    · split at tag
      · split at tag
        · cases tag
          rfl
        · cases tag
          rfl
        · split at tag <;> cases tag
          rfl
      · split at tag
        · cases tag
          rfl
        · split at tag <;> cases tag
          rfl
  · cases tag

end Lexeme

namespace Scan

open Lexeme

theorem htmlLexeme_isMarkup (text : Text) : (htmlLexeme text).1.isMarkup = true := by
  cases text with
  | nil => rfl
  | cons c rest =>
      rw [htmlLexeme]
      cases tag : openTag? (c :: rest) with
      | none => rfl
      | some found => exact openTag?_isMarkup tag

/-- A token that is no markup comes from code. -/
theorem mode_eq_php {state : State} {text : Text}
    (code : (state.token text).kind.isMarkup = false) :
    state.mode = .php := by
  cases mode : state.mode with
  | php => rfl
  | html =>
      have kind : (state.token text).kind = (htmlLexeme text).1 := by
        simp only [State.token, State.lexeme, mode]
      rw [kind, htmlLexeme_isMarkup] at code
      cases code

theorem modeAfter_of_code (mode : Mode) {kind : TokenKind} (code : kind.isMarkup = false) :
    modeAfter mode kind = mode := by
  cases kind <;> first | rfl | cases code

/-- What a token is, without its line. -/
def shape (token : Token) : TokenKind × Text := (token.kind, token.text)

/-- The rule behind a token of code. -/
theorem rule_of_code {state : State} {text : Text} (nonempty : text ≠ [])
    (code : (state.token text).kind.isMarkup = false) :
    Rule state.afterArrow text (state.token text).kind (state.token text).text.length := by
  rw [token_text_length state nonempty]
  have lexeme : state.lexeme text = phpLexeme state.afterArrow text := by
    simp only [State.lexeme, mode_eq_php code]
  have kind : (state.token text).kind = (phpLexeme state.afterArrow text).1 := by
    rw [← lexeme]
    rfl
  rw [kind, lexeme]
  cases text with
  | nil => exact absurd rfl nonempty
  | cons c rest => exact rule_of_phpLexeme rfl

private theorem not_close_tag {state : State} {text : Text} {range after : List Token}
    (cut : tokensFrom state text = range ++ after)
    (code : ∀ token ∈ range, token.kind.isMarkup = false) (filled : range ≠ []) :
    ¬ ['?', '>'] <+: text := by
  rintro ⟨rest, rfl⟩
  cases range with
  | nil => exact filled rfl
  | cons token range =>
      change tokensFrom state ('?' :: '>' :: rest) = _ at cut
      rw [tokensFrom_step state (List.cons_ne_nil _ _), List.cons_append, List.cons.injEq] at cut
      have inCode := code token List.mem_cons_self
      rw [← cut.1] at inCode
      have rule : Rule state.afterArrow ('?' :: '>' :: rest) .closeTag (closeTag rest) :=
        .close rest
      have lexeme := rule.phpLexeme_eq
      have kind : (state.token ('?' :: '>' :: rest)).kind = .closeTag := by
        simp only [State.token, State.lexeme, mode_eq_php inCode, lexeme]
      change (state.token ('?' :: '>' :: rest)).kind.isMarkup = false at inCode
      rw [kind] at inCode
      cases inCode

/-- A token of a range and the token that a scan of the range by itself finds in its place. The scan
may have forgotten an arrow, which makes a keyword of a member name. -/
structure Alike (forgot : Bool) (token found : Token) : Prop where
  text : found.text = token.text
  kind : found.kind = token.kind ∨
    forgot = true ∧ token.kind = .identifier ∧ found.kind = TokenKind.ofWord token.text

theorem Alike.isArrow {forgot : Bool} {token found : Token} (alike : Alike forgot token found) :
    found.kind.isTrivia = token.kind.isTrivia ∧
      (found.kind == .arrow || found.kind == .nullsafeArrow) =
        (token.kind == .arrow || token.kind == .nullsafeArrow) ∧
      found.kind.isMarkup = token.kind.isMarkup := by
  rcases alike.kind with same | ⟨-, member, word⟩
  · rw [same]
    exact ⟨rfl, rfl, rfl⟩
  · have all : ∀ entry ∈ TokenKind.keywords, entry.2.isTrivia = false ∧
        (entry.2 == .arrow || entry.2 == .nullsafeArrow) = false ∧
        entry.2.isMarkup = false := by decide
    rw [member, word]
    rcases TokenKind.ofWord_cases token.text with plain | among
    · rw [plain]
      exact ⟨rfl, rfl, rfl⟩
    · exact all _ among

/-- A rule behind an arrow, where the arrow is forgotten. -/
theorem Rule.forget {afterArrow : Bool} {text : Text} {kind : TokenKind} {length : Nat}
    (rule : Rule afterArrow text kind length) (forgot : Bool) :
    ∃ other, Rule (afterArrow && !forgot) text other length ∧
      (other = kind ∨
        forgot = true ∧ kind = .identifier ∧ other = TokenKind.ofWord (text.take length)) := by
  cases rule with
  | name c rest begins =>
      refine ⟨_, .name c rest begins, ?_⟩
      cases afterArrow with
      | false => exact .inl rfl
      | true =>
          cases forgot with
          | false => exact .inl rfl
          | true =>
              unfold nameKind
              by_cases qualified :
                  ((c :: rest).takeWhile isNameChar).length < Lexeme.name (c :: rest)
              · simp only [if_pos qualified]
                exact .inl trivial
              · have length : Lexeme.name (c :: rest) = run isNameChar (c :: rest) :=
                  Nat.le_antisymm (Nat.le_of_not_lt qualified) (run_le_name (c :: rest))
                have word : (c :: rest).take (run isNameChar (c :: rest)) =
                    (c :: rest).takeWhile isNameChar :=
                  (List.prefix_iff_eq_take.mp (List.takeWhile_prefix isNameChar)).symm
                have stands : ¬ run isNameChar (c :: rest) < run isNameChar (c :: rest) :=
                  Nat.lt_irrefl _
                rw [length, word]
                exact .inr ⟨rfl, if_neg stands, if_neg stands⟩
  | space c rest isOne => exact ⟨_, .space c rest isOne, .inl rfl⟩
  | close rest => exact ⟨_, .close rest, .inl rfl⟩
  | attributeOpen rest => exact ⟨_, .attributeOpen rest, .inl rfl⟩
  | hash rest noBracket => exact ⟨_, .hash rest noBracket, .inl rfl⟩
  | slashes rest => exact ⟨_, .slashes rest, .inl rfl⟩
  | block rest => exact ⟨_, .block rest, .inl rfl⟩
  | string mark rest isOne => exact ⟨_, .string mark rest isOne, .inl rfl⟩
  | heredoc rest head found => exact ⟨_, .heredoc rest head found, .inl rfl⟩
  | variableName c rest begins => exact ⟨_, .variableName c rest begins, .inl rfl⟩
  | dollar rest noName => exact ⟨_, .dollar rest noName, .inl rfl⟩
  | number c rest begins => exact ⟨_, .number c rest begins, .inl rfl⟩
  | rooted c rest begins => exact ⟨_, .rooted c rest begins, .inl rfl⟩
  | separator rest noName => exact ⟨_, .separator rest noName, .inl rfl⟩
  | punctuation c rest kind isOne => exact ⟨_, .punctuation c rest kind isOne, .inl rfl⟩
  | operator c rest plain noOther => exact ⟨_, .operator c rest plain noOther, .inl rfl⟩

/-- A range without tags is found again token by token when it is scanned as code by itself, up to
member names when the arrow in front of it is forgotten. -/
theorem tokensFrom_alike {state : State} (other : State) {text : Text} {range after : List Token}
    (cut : tokensFrom state text = range ++ after)
    (code : ∀ token ∈ range, token.kind.isMarkup = false) (php : other.mode = .php)
    (forgot : Bool) (arrow : other.afterArrow = (state.afterArrow && !forgot)) :
    List.Forall₂ (Alike forgot) range (tokensFrom other (Token.textOf range)) := by
  induction range generalizing state other text forgot with
  | nil => exact .nil
  | cons token range ih =>
      have nonempty : text ≠ [] := by
        rintro rfl
        cases cut
      have spelled := (tokensFrom_resume cut).1
      rw [tokensFrom_step state nonempty, List.cons_append, List.cons.injEq] at cut
      obtain ⟨first, later⟩ := cut
      have inCode := code token List.mem_cons_self
      have rest : ∀ next ∈ range, next.kind.isMarkup = false := fun next member =>
        code next (List.mem_cons_of_mem token member)
      have rule := rule_of_code nonempty (first ▸ inCode)
      have filled := token_text_ne_nil state nonempty
      rw [first] at rule filled later
      have front : Token.textOf (token :: range) = token.text ++ Token.textOf range := rfl
      rw [spelled] at rule
      have cutRule := rule.front (by rw [front, List.length_append]; omega) fun less => by
        rw [← spelled]
        refine not_close_tag later rest ?_
        rintro rfl
        rw [front, Token.textOf_nil, List.append_nil] at less
        exact absurd less (Nat.succ_ne_self _)
      rw [front] at cutRule
      obtain ⟨kind, found, same⟩ := cutRule.forget forgot
      rw [List.take_left] at same
      have again : other.token (token.text ++ Token.textOf range) =
          ⟨kind, token.text, other.line⟩ := by
        simp only [State.token, State.lexeme, php, arrow, found.phpLexeme_eq, List.take_left]
      have alike : Alike forgot token ⟨kind, token.text, other.line⟩ := ⟨rfl, same⟩
      obtain ⟨trivia, arrows, markup⟩ := alike.isArrow
      have nextMode : (other.after ⟨kind, token.text, other.line⟩).mode = .php :=
        (modeAfter_of_code other.mode (markup.trans inCode)).trans php
      have frontFilled : token.text ++ Token.textOf range ≠ [] := by
        simp [filled]
      rw [front, tokensFrom_step other frontFilled, again]
      rw [show (⟨kind, token.text, other.line⟩ : Token).text = token.text from rfl, List.drop_left]
      refine .cons alike ?_
      cases isTrivia : token.kind.isTrivia with
      | true =>
          refine ih _ later rest nextMode forgot ?_
          rw [State.after, State.after, trivia, isTrivia]
          exact arrow
      | false =>
          refine (ih _ later rest nextMode false ?_).imp fun one another alike =>
            ⟨alike.text, alike.kind.imp_right fun never => absurd never.1 Bool.false_ne_true⟩
          rw [State.after, State.after, trivia, isTrivia, arrows]
          exact (Bool.and_true _).symm

theorem map_eq_of_forall₂ {α : Type} {property : Token → α} {left right : List Token}
    (same : List.Forall₂ (fun one other => property one = property other) left right) :
    left.map property = right.map property := by
  have mapped := List.forall₂_map_left_iff.mpr (List.forall₂_map_right_iff.mpr same)
  rwa [List.forall₂_eq_eq_eq] at mapped

theorem tokensFrom_range {state : State} (other : State) {text : Text} {range after : List Token}
    (cut : tokensFrom state text = range ++ after)
    (code : ∀ token ∈ range, token.kind.isMarkup = false) (php : other.mode = .php)
    (sameArrow : other.afterArrow = state.afterArrow) :
    (tokensFrom other (Token.textOf range)).map shape = range.map shape := by
  have found := tokensFrom_alike other cut code php false (by rw [sameArrow]; simp)
  have same : List.Forall₂ (fun token again => shape token = shape again) range
      (tokensFrom other (Token.textOf range)) := by
    refine found.imp fun token again alike => ?_
    have kind := alike.kind.resolve_right fun never => Bool.false_ne_true never.1
    rw [shape, shape, kind, alike.text]
  exact (map_eq_of_forall₂ same).symm

/-- The tokens at the front of a text are found again whatever of the text comes behind them, when
no tag does. -/
theorem tokensFrom_front {state other : State} {text : Text} {front more after : List Token}
    (cut : tokensFrom state text = front ++ (more ++ after))
    (code : ∀ token ∈ front, token.kind.isMarkup = false)
    (next : ∃ token rest, more = token :: rest ∧ token.kind.isMarkup = false)
    (php : other.mode = .php) (arrow : other.afterArrow = state.afterArrow) :
    ∃ found rest, tokensFrom other (Token.textOf (front ++ more)) = found ++ rest ∧
      found.map shape = front.map shape ∧ Token.textOf rest = Token.textOf more := by
  obtain ⟨word, others, rfl, plain⟩ := next
  induction front generalizing state other text with
  | nil => exact ⟨[], _, rfl, rfl, (tokensFrom_spells other _).1⟩
  | cons token front ih =>
      obtain ⟨inCode, rest⟩ := List.forall_mem_cons.mp code
      have nonempty : text ≠ [] := by
        rintro rfl
        cases cut
      have spelled := (tokensFrom_resume cut).1
      rw [tokensFrom_step state nonempty, List.cons_append, List.cons.injEq] at cut
      obtain ⟨first, later⟩ := cut
      have rule := rule_of_code nonempty (first ▸ inCode)
      rw [first] at rule later
      have filled : token.text ≠ [] := first ▸ token_text_ne_nil state nonempty
      -- What comes right behind the token is code.
      have untagged : ¬ ['?', '>'] <+: text.drop token.text.length := by
        have inRange : ∀ other ∈ front ++ [word], other.kind.isMarkup = false :=
          List.forall_mem_append.mpr ⟨rest, List.forall_mem_singleton.mpr plain⟩
        have behind : tokensFrom (state.after token) (text.drop token.text.length) =
            (front ++ [word]) ++ (others ++ after) := by
          rw [later]
          simp
        exact not_close_tag behind inRange (by simp)
      have whole : Token.textOf (token :: front) ++ Token.textOf (word :: others ++ after) =
          (token.text ++ Token.textOf (front ++ word :: others)) ++ Token.textOf after := by
        rw [← Token.textOf_append, ← List.append_assoc, Token.textOf_append, List.cons_append,
          Token.textOf_cons]
      rw [spelled, whole] at rule untagged
      have cutRule := rule.front (by rw [List.length_append]; omega) fun _ => untagged
      have again : other.token (token.text ++ Token.textOf (front ++ word :: others)) =
          ⟨token.kind, token.text, other.line⟩ := by
        simp only [State.token, State.lexeme, php, arrow, cutRule.phpLexeme_eq, List.take_left]
      have resumes : (other.after ⟨token.kind, token.text, other.line⟩).afterArrow =
          (state.after token).afterArrow := by
        simp only [State.after, arrow]
      obtain ⟨found, left, scanned, same, text⟩ := ih rest
        ((modeAfter_of_code other.mode inCode).trans php) resumes later
      refine ⟨⟨token.kind, token.text, other.line⟩ :: found, left, ?_, ?_, text⟩
      · rw [List.cons_append, Token.textOf_cons, tokensFrom_step other (by simp [filled]), again,
          List.drop_left, scanned, List.cons_append]
      · rw [List.map_cons, same]
        rfl

/-! ### Ranges of a source -/

theorem prevKind_zero (tokens : Tokens) : tokens.prevKind 0 = none := by
  simp only [Tokens.prevKind, Tokens.prevSignificant, Tokens.lastBefore, Nat.zero_min,
    Tokens.lastBelow, Option.bind_none]

theorem prevKind_succ {tokens : Tokens} {index : Nat} (inside : index < tokens.size) :
    tokens.prevKind (index + 1) =
      if tokens[index].kind.isTrivia then tokens.prevKind index else some tokens[index].kind := by
  have here : tokens[index]? = some tokens[index] := Array.getElem?_eq_getElem inside
  simp only [Tokens.prevKind, Tokens.prevSignificant, Tokens.lastBefore,
    Nat.min_eq_left (Nat.le_of_lt inside), Nat.min_eq_left (Nat.succ_le_of_lt inside),
    Tokens.lastBelow, here, Option.map_some, Option.getD_some, Tokens.isSignificant]
  cases tokens[index].kind.isTrivia with
  | true => rfl
  | false =>
      simp only [Bool.not_false, if_true, Option.bind_some, Tokens.kindAt, here, Option.map_some]
      rfl

theorem afterArrow_eq (start : State) (fresh : start.afterArrow = false) (tokens : Tokens)
    {index : Nat} (inside : index ≤ tokens.size) :
    ((tokens.toList.take index).foldl State.after start).afterArrow =
      (tokens.prevKind index == some .arrow || tokens.prevKind index == some .nullsafeArrow) := by
  induction index with
  | zero =>
      rw [prevKind_zero]
      exact fresh
  | succ index ih =>
      have here : tokens.toList.take (index + 1) = tokens.toList.take index ++ [tokens[index]] := by
        rw [List.take_succ_eq_append_getElem (by rw [Array.length_toList]; exact inside),
          Array.getElem_toList]
      rw [here, List.foldl_append, prevKind_succ inside]
      simp only [List.foldl_cons, List.foldl_nil, State.after, ih (Nat.le_of_succ_le inside)]
      split
      · rfl
      · rfl

/-- A range of tokens without tags that no arrow comes right before is found again, kind by kind and
text by text, when its text is scanned as code by itself. -/
theorem rescan_of_range {source : Text} {tokens : Tokens} (first last : Nat)
    (scanned : tokens = (TokenStream.ofText .html source).tokens)
    (code : ∀ token ∈ tokens.extract first last, token.kind.isMarkup = false)
    (noArrow : tokens.prevKind first ≠ some .arrow)
    (noNullsafeArrow : tokens.prevKind first ≠ some .nullsafeArrow) :
    (TokenStream.ofText .php (tokens.textBetween first last)).tokens.map shape =
      (tokens.extract first last).map shape := by
  have split := tokens.split_at first last
  rcases Nat.le_total tokens.size first with beyond | inside
  · have none : tokens.extract first last = #[] := Array.extract_empty_of_size_le_start beyond
    rw [Tokens.textBetween, none]
    rfl
  · have arrow := afterArrow_eq (State.start .html) rfl tokens inside
    rw [beq_eq_false_iff_ne.mpr noArrow, beq_eq_false_iff_ne.mpr noNullsafeArrow] at arrow
    have whole : tokensFrom (State.start .html) source = tokens.toList := by rw [scanned]; rfl
    rw [split] at whole
    have resumed := (tokensFrom_resume whole).2
    have found := tokensFrom_range (State.start .php) resumed
      (fun token member => code token (Array.mem_toList_iff.mp member)) rfl arrow.symm
    apply Array.toList_inj.mp
    rw [Array.toList_map, Array.toList_map]
    exact found

/-- An assignment to a property, between the tag and the end of the file. -/
theorem rescan_of_range_assignment :
    (TokenStream.ofText .php
        ((TokenStream.ofText .html "<?php $a->b = 1;".toList).tokens.textBetween 1 8)).tokens.map
        shape =
      ((TokenStream.ofText .html "<?php $a->b = 1;".toList).tokens.extract 1 8).map shape :=
  rescan_of_range 1 8 rfl (by decide) (by decide) (by decide)

end Scan
end PhpWeave
