import PhpWeave.Proofs.Token.Matching

set_option autoImplicit false

/-!
The cursor of a token stream under any moves. No move touches the tokens or leads past the place
behind the last one. A walk to some kinds ends at the nearest token of these kinds on its side, the
one under the cursor not counted, and tells the text between; a walk that finds none leaves the cursor
where it was.
-/

namespace PhpWeave

namespace Tokens

def IsOf (kinds : List TokenKind) (tokens : Tokens) (index : Nat) : Prop :=
  ∃ kind ∈ kinds, tokens.kindAt index = some kind

variable {kinds : List TokenKind} {tokens : Tokens} {index : Nat} {token : Token}

theorem isOf_iff (here : tokens[index]? = some token) :
    tokens.IsOf kinds index ↔ kinds.contains token.kind = true := by
  rw [IsOf, kindAt, here, Option.map_some, List.contains_iff_mem]
  constructor
  · rintro ⟨kind, member, same⟩
    exact Option.some.inj same ▸ member
  · exact fun member => ⟨token.kind, member, rfl⟩

theorem IsOf.exists (isOne : tokens.IsOf kinds index) :
    ∃ token, tokens[index]? = some token ∧ kinds.contains token.kind = true := by
  obtain ⟨kind, member, same⟩ := isOne
  obtain ⟨token, here, rfl⟩ := kindAt_eq_some.mp same
  exact ⟨token, here, List.contains_iff_mem.mpr member⟩

theorem IsOf.lt_size (isOne : tokens.IsOf kinds index) : index < tokens.size := by
  obtain ⟨kind, -, here⟩ := isOne
  exact lt_size_of_kindAt here

end Tokens

namespace TokenStream

variable {tokens : Tokens} {index : Nat} {stream : TokenStream}

/-! ### Walks -/

theorem walkForward_eq (kinds : List TokenKind) (tokens : Tokens) (count index : Nat)
    (walked : List Text) :
    walkForward kinds tokens count index walked =
      (tokens.firstWithin (fun token => kinds.contains token.kind) count index).map fun last =>
        (walked.reverse.flatten ++ tokens.textBetween index (last + 1), last) := by
  induction count generalizing index walked with
  | zero => rfl
  | succ count ih =>
      rw [walkForward, Tokens.firstWithin]
      cases here : tokens[index]? with
      | none => rfl
      | some token =>
          have longer : (token.text :: walked).reverse.flatten =
              walked.reverse.flatten ++ token.text := by
            rw [List.reverse_cons, List.flatten_append, List.flatten_singleton]
          simp only
          split
          · rw [Option.map_some, longer, Tokens.textBetween_single here]
          · rw [ih, longer]
            cases search :
                tokens.firstWithin (fun token => kinds.contains token.kind) count (index + 1) with
            | none => rfl
            | some last =>
                have order : index + 1 ≤ last + 1 :=
                  Nat.le_succ_of_le (Tokens.firstWithin_some search).1
                rw [Option.map_some, Option.map_some, List.append_assoc,
                  ← Tokens.textBetween_single here,
                  Tokens.textBetween_append (Nat.le_succ index) order]

theorem walkBack_eq (kinds : List TokenKind) (within : index ≤ tokens.size) (walked : List Text) :
    walkBack kinds tokens index walked =
      (tokens.lastBelow (fun token => kinds.contains token.kind) index).map fun first =>
        (tokens.textBetween first index ++ walked.flatten, first) := by
  induction index generalizing walked with
  | zero => rfl
  | succ index ih =>
      have here : tokens[index]? = some tokens[index] := Array.getElem?_eq_getElem within
      rw [walkBack, Tokens.lastBelow, here]
      simp only [Option.map_some, Option.getD_some]
      split
      · rw [Option.map_some, Tokens.textBetween_single here, List.flatten_cons]
      · rw [ih (Nat.le_of_succ_le within)]
        cases search :
            tokens.lastBelow (fun token => kinds.contains token.kind) index with
        | none => rfl
        | some first =>
            have order := Nat.le_of_lt (Tokens.lastBelow_some search).1
            rw [Option.map_some, Option.map_some, List.flatten_cons, ← List.append_assoc,
              Tokens.textBetween_succ order here]

/-- What a walk to the nearest of some positions does. The text it tells is that of the way to a
position. -/
structure Walks (stream : TokenStream) (walk : Option Text × TokenStream)
    (target : Nat → Prop) (nearer : Nat → Nat → Prop) (way : Nat → Text) : Prop where
  found : (∃ text, walk.1 = some text) ↔ ∃ index, target index
  /-- It ends at a target, and none is nearer. -/
  ended : ∀ text, walk.1 = some text → ∃ stop, target stop ∧
    (∀ index, nearer index stop → ¬ target index) ∧ walk.2 = { stream with cursor := stop } ∧
      text = way stop
  missed : walk.1 = none → walk.2 = stream

section Walks

variable {walk : Option Text × TokenStream} {target : Nat → Prop} {nearer : Nat → Nat → Prop}
  {way : Nat → Text}

theorem walks_of_none (missed : walk = (none, stream)) (never : ∀ index, ¬ target index) :
    stream.Walks walk target nearer way where
  found := by
    rw [missed]
    exact ⟨nofun, fun ⟨index, isOne⟩ => absurd isOne (never index)⟩
  ended := by
    rw [missed]
    exact nofun
  missed _ := congrArg Prod.snd missed

theorem walks_of_some {stop : Nat}
    (found : walk = (some (way stop), { stream with cursor := stop })) (isOne : target stop)
    (nearest : ∀ index, nearer index stop → ¬ target index) :
    stream.Walks walk target nearer way where
  found := by
    rw [found]
    exact ⟨fun _ => ⟨stop, isOne⟩, fun _ => ⟨way stop, rfl⟩⟩
  ended text told := by
    rw [found] at told ⊢
    exact ⟨stop, isOne, nearest, rfl, (Option.some.inj told).symm⟩
  missed none := by
    rw [found] at none
    cases none

end Walks

/-- What a walk forward does: it goes to the first token of the kinds behind the cursor, and tells
the text from the token after the cursor through that one. -/
def WalksOn (stream : TokenStream) (kinds : List TokenKind) : Prop :=
  stream.Walks (stream.nextUntil kinds)
    (fun index => stream.cursor < index ∧ stream.tokens.IsOf kinds index) (· < ·)
    fun stop => stream.tokens.textBetween (stream.cursor + 1) (stop + 1)

/-- What a walk back does: it goes to the last token of the kinds in front of the cursor, and tells
the text from that one up to the token under the cursor. -/
def WalksBack (stream : TokenStream) (kinds : List TokenKind) : Prop :=
  stream.Walks (stream.prevUntil kinds)
    (fun index => index < stream.cursor ∧ stream.tokens.IsOf kinds index) (· > ·)
    fun stop => stream.tokens.textBetween stop stream.cursor

theorem walksOn (stream : TokenStream) (kinds : List TokenKind) : stream.WalksOn kinds := by
  have walk := walkForward_eq kinds stream.tokens stream.count (stream.cursor + 1) []
  cases search : stream.tokens.firstWithin (fun token => kinds.contains token.kind) stream.count
      (stream.cursor + 1) with
  | none =>
      rw [search, Option.map_none] at walk
      refine walks_of_none (by rw [nextUntil, walk]) fun index ⟨behind, isOne⟩ => ?_
      obtain ⟨token, here, holds⟩ := isOne.exists
      have inside : index < stream.cursor + 1 + stream.count :=
        Nat.lt_add_left (stream.cursor + 1) isOne.lt_size
      rw [Tokens.firstWithin_none search behind inside here] at holds
      cases holds
  | some last =>
      rw [search, Option.map_some] at walk
      obtain ⟨behind, token, here, holds⟩ := Tokens.firstWithin_some search
      refine walks_of_some (by rw [nextUntil, walk]; rfl)
        ⟨behind, (Tokens.isOf_iff here).mpr holds⟩ fun index before ⟨since, isOne⟩ => ?_
      obtain ⟨other, there, holds⟩ := isOne.exists
      rw [Tokens.firstWithin_before search index since before other there] at holds
      cases holds

theorem walksBack (within : stream.cursor ≤ stream.count) (kinds : List TokenKind) :
    stream.WalksBack kinds := by
  have walk := walkBack_eq kinds within []
  cases search :
      stream.tokens.lastBelow (fun token => kinds.contains token.kind) stream.cursor with
  | none =>
      rw [search, Option.map_none] at walk
      refine walks_of_none (by rw [prevUntil, walk]) fun index ⟨before, isOne⟩ => ?_
      obtain ⟨token, here, holds⟩ := isOne.exists
      have found := Tokens.lastBelow_of_lt (p := fun token => kinds.contains token.kind) before here
        holds
      simp only [search, reduceCtorEq, false_and, exists_false] at found
  | some first =>
      rw [search, Option.map_some] at walk
      obtain ⟨before, ⟨token, here, holds⟩, nearest⟩ := Tokens.lastBelow_some search
      refine walks_of_some (by rw [prevUntil, walk, List.flatten_nil, List.append_nil])
        ⟨before, (Tokens.isOf_iff here).mpr holds⟩ fun index behind ⟨upto, isOne⟩ => ?_
      obtain ⟨other, there, holds⟩ := isOne.exists
      rw [nearest index behind upto other there] at holds
      cases holds

/-! ### Moves -/

/-- What moves a cursor. -/
inductive Move where
  | seek (index : Nat)
  | rewind
  | next
  | prev
  | nextUntil (kinds : List TokenKind)
  | prevUntil (kinds : List TokenKind)
  | matching (bracket : Bracket)
  deriving DecidableEq, Repr

def move (stream : TokenStream) : Move → TokenStream
  | .seek index => stream.seek index
  | .rewind => stream.rewind
  | .next => stream.next.2
  | .prev => stream.prev.2
  | .nextUntil kinds => (stream.nextUntil kinds).2
  | .prevUntil kinds => (stream.prevUntil kinds).2
  | .matching bracket => (stream.matching bracket).2

structure Stands (tokens : Tokens) (stream : TokenStream) : Prop where
  same : stream.tokens = tokens
  within : stream.cursor ≤ stream.count

theorem Stands.at (stands : Stands tokens stream) {index : Nat} (within : index ≤ stream.count) :
    Stands tokens { stream with cursor := index } :=
  ⟨stands.same, within⟩

theorem Stands.walk {walk : Option Text × TokenStream} {target : Nat → Prop}
    {nearer : Nat → Nat → Prop} {way : Nat → Text} (stands : Stands tokens stream)
    (walks : stream.Walks walk target nearer way)
    (inside : ∀ index, target index → index < stream.count) : Stands tokens walk.2 := by
  cases told : walk.1 with
  | none => exact (walks.missed told).symm ▸ stands
  | some text =>
      obtain ⟨stop, isOne, -, moved, -⟩ := walks.ended text told
      rw [moved]
      exact stands.at (Nat.le_of_lt (inside stop isOne))

theorem Stands.move (stands : Stands tokens stream) (move : Move) :
    Stands tokens (stream.move move) := by
  cases move with
  | seek index => exact stands.at (Nat.min_le_right index stream.count)
  | rewind => exact stands.at (Nat.zero_le stream.count)
  | next =>
      change Stands tokens (if stream.valid then { stream with cursor := stream.cursor + 1 }
        else stream)
      split
      · next inside => exact stands.at (of_decide_eq_true inside)
      · exact stands
  | prev =>
      change Stands tokens stream.prev.2
      unfold prev
      split
      · exact stands
      · next index here => exact stands.at (Nat.le_of_succ_le (here ▸ stands.within))
  | nextUntil kinds => exact stands.walk (walksOn stream kinds) fun _ found => found.2.lt_size
  | prevUntil kinds =>
      exact stands.walk (walksBack stands.within kinds) fun _ found => found.2.lt_size
  | matching bracket =>
      change Stands tokens (stream.matching bracket).2
      cases search : stream.tokens.closing bracket stream.cursor with
      | error fault =>
          rw [matching_of_error search]
          exact stands
      | ok last =>
          rw [matching_of_closing search]
          exact stands.at (Nat.le_of_lt (Tokens.lt_size_of_kindAt (Tokens.closing_kind search)))

theorem Stands.moves (stands : Stands tokens stream) (moves : List Move) :
    Stands tokens (moves.foldl TokenStream.move stream) := by
  induction moves generalizing stream with
  | nil => exact stands
  | cons first rest ih => exact ih (stands.move first)

theorem valid_iff_current (stream : TokenStream) :
    stream.valid = true ↔ ∃ token, stream.current? = some token := by
  rw [valid, decide_eq_true_iff, current?, count]
  constructor
  · exact fun inside => ⟨_, Array.getElem?_eq_getElem inside⟩
  · intro standing
    obtain ⟨token, here⟩ := standing
    exact (Array.getElem?_eq_some_iff.mp here).1

/-- Any moves from the first token on leave the tokens as they were and the cursor among them or
behind the last. From there a walk to some kinds goes to the nearest token of them on its side, and a
walk that fails leaves the cursor where it is. -/
theorem stands_after_moves (tokens : Tokens) (moves : List Move) :
    let stream := moves.foldl move ⟨tokens, 0⟩
    stream.tokens = tokens ∧ 0 ≤ stream.cursor ∧ stream.cursor ≤ stream.count ∧
      (stream.valid = true ↔ stream.cursor < stream.count) ∧
      (stream.valid = true ↔ ∃ token, stream.current? = some token) ∧
      (∀ kinds, stream.WalksOn kinds ∧ stream.WalksBack kinds) ∧
      ∀ bracket fault, (stream.matching bracket).1 = .error fault →
        (stream.matching bracket).2 = stream := by
  intro stream
  have start : Stands tokens ⟨tokens, 0⟩ := ⟨rfl, Nat.zero_le _⟩
  have stands : Stands tokens stream := start.moves moves
  refine ⟨stands.same, Nat.zero_le _, stands.within, decide_eq_true_iff, stream.valid_iff_current,
    fun kinds => ⟨stream.walksOn kinds, walksBack stands.within kinds⟩, ?_⟩
  intro bracket fault failed
  cases search : stream.tokens.closing bracket stream.cursor with
  | ok last =>
      rw [matching_of_closing search] at failed
      cases failed
  | error fault => rw [matching_of_error search]

end TokenStream
end PhpWeave
