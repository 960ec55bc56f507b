import PhpWeave.Proofs.Grammar.Reading

set_option autoImplicit false

/-!
The read of a file as a sequence of moves. There is one such sequence, and each move goes forward,
so what two states of it have in common can be told from where they stand.
-/

namespace PhpWeave.Reader

variable {tokens : Tokens} {reader next last : Reader}

theorem moves_unique : Relator.RightUnique (Moves tokens) := by
  rintro reader next other ⟨token, here, done⟩ ⟨token', here', done'⟩
  obtain rfl : token = token' := Option.some.inj (here.symm.trans here')
  exact Except.ok.inj (done.symm.trans done')

section Forward

variable (spelled : Spelled tokens) (tagged : Tagged tokens)
include spelled tagged

theorem Reached.sound (reached : Reached tokens reader) :
    ∃ frames, Sound tokens reader frames := by
  induction reached with
  | refl => exact ⟨[], Sound.start tokens⟩
  | tail before moves ih =>
      obtain ⟨frames, sound⟩ := ih
      obtain ⟨token, here, done⟩ := moves
      exact (advances_step spelled tagged before sound here done).2

theorem Moves.advances (moves : Moves tokens reader next) (reached : Reached tokens reader) :
    Advances tokens reader next := by
  obtain ⟨frames, sound⟩ := reached.sound spelled tagged
  obtain ⟨token, here, done⟩ := moves
  exact advances_step spelled tagged reached sound here done

theorem Reached.pos_le (reached : Reached tokens reader)
    (later : Relation.ReflTransGen (Moves tokens) reader last) : reader.pos ≤ last.pos := by
  induction later with
  | refl => exact Nat.le_refl _
  | tail before moves ih =>
      have onward := (moves.advances spelled tagged (reached.trans before)).1
      exact Nat.le_trans ih (Nat.le_of_lt onward)

/-- Of two states that a read comes to, one is the other or moves on toward it. -/
theorem Reached.total {other : Reader} (reached : Reached tokens reader)
    (otherReached : Reached tokens other) : reader = other ∨
      (∃ next, Moves tokens reader next ∧ next.pos ≤ other.pos) ∨
      ∃ next, Moves tokens other next ∧ next.pos ≤ reader.pos := by
  have toward {first second : Reader} (reached : Reached tokens first)
      (later : Relation.ReflTransGen (Moves tokens) first second) :
      first = second ∨ ∃ next, Moves tokens first next ∧ next.pos ≤ second.pos :=
    (Relation.ReflTransGen.cases_head later).imp_right fun ⟨next, moves, rest⟩ =>
      ⟨next, moves, Reached.pos_le spelled tagged (reached.tail moves) rest⟩
  rcases Relation.ReflTransGen.total_of_right_unique moves_unique reached otherReached with
    later | earlier
  · exact (toward reached later).imp_right .inl
  · exact (toward otherReached earlier).imp Eq.symm .inr

/-- A read comes to a token once at most. -/
theorem Reached.eq_of_pos {other : Reader} (reached : Reached tokens reader)
    (otherReached : Reached tokens other) (same : reader.pos = other.pos) : reader = other := by
  rcases reached.total spelled tagged otherReached with equal | ⟨next, moves, near⟩ |
    ⟨next, moves, near⟩
  · exact equal
  · have onward := (moves.advances spelled tagged reached).1
    omega
  · have onward := (moves.advances spelled tagged otherReached).1
    omega

theorem Reached.eq_of_within {other : Reader} (reached : Reached tokens reader)
    (moves : Moves tokens reader next) (otherReached : Reached tokens other)
    (behind : reader.pos ≤ other.pos) (before : other.pos < next.pos) : reader = other := by
  rcases reached.total spelled tagged otherReached with same | ⟨middle, first, near⟩ |
    ⟨middle, first, near⟩
  · exact same
  · obtain rfl := moves_unique moves first
    omega
  · have onward := (first.advances spelled tagged otherReached).1
    omega

theorem Reached.eq_of_passing {other after : Reader} {index : Nat}
    (reached : Reached tokens reader) (moves : Moves tokens reader next)
    (behind : reader.pos ≤ index) (before : index < next.pos) (otherReached : Reached tokens other)
    (otherMoves : Moves tokens other after) (otherBehind : other.pos ≤ index)
    (otherBefore : index < after.pos) : reader = other := by
  rcases Nat.le_total reader.pos other.pos with order | order
  · exact reached.eq_of_within spelled tagged moves otherReached order (by omega)
  · exact (otherReached.eq_of_within spelled tagged otherMoves reached order (by omega)).symm

theorem Enters.here {brace : Nat} (enters : Enters tokens brace) (reached : Reached tokens reader)
    (moves : Moves tokens reader next) (behind : reader.pos ≤ brace) (before : brace < next.pos) :
    tokens.kindAt reader.pos = some .kwFunction ∧ next.pos = brace + 1 := by
  obtain ⟨other, after, otherReached, isFunction, otherMoves, stands⟩ := enters
  have onward := (otherMoves.advances spelled tagged otherReached).1
  obtain rfl := reached.eq_of_passing spelled tagged moves behind before otherReached otherMoves
    (by omega) (by omega)
  obtain rfl := moves_unique moves otherMoves
  exact ⟨isFunction, stands⟩

/-- Moves that come to the end of the tokens are what a run with enough steps makes. -/
theorem runWithin_of_moves {fuel : Nat} (reached : Reached tokens reader)
    (enough : tokens.size ≤ reader.pos + fuel)
    (later : Relation.ReflTransGen (Moves tokens) reader last)
    (ends : tokens[last.pos]? = none) : runWithin tokens fuel reader = .ok last := by
  induction fuel generalizing reader with
  | zero =>
      rcases Relation.ReflTransGen.cases_head later with rfl | ⟨middle, ⟨token, here, -⟩, -⟩
      · rfl
      · have inside := (Array.getElem?_eq_some_iff.mp here).1
        omega
  | succ fuel ih =>
      rw [runWithin]
      rcases Relation.ReflTransGen.cases_head later with rfl | ⟨middle, moves, rest⟩
      · rw [ends]
      · have onward := (moves.advances spelled tagged reached).1
        have further := ih (reached.tail moves) (by omega) rest
        obtain ⟨token, here, done⟩ := moves
        rw [here]
        simp only [done]
        exact further

end Forward

end PhpWeave.Reader
