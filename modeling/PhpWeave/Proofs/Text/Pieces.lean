import PhpWeave.Text.Basic

set_option autoImplicit false

/-!
Texts cut at a mark and joined again. Joining pieces undoes cutting, and cutting undoes joining as
long as there are pieces and none of them has the mark, so a joined text tells its pieces.
-/

namespace PhpWeave.Text

theorem exists_concat {α : Type} {items : List α} (some : items ≠ []) :
    ∃ front last, items = front ++ [last] :=
  ⟨_, _, (List.dropLast_concat_getLast some).symm⟩

theorem splitAt_eq (mark : Char) (text : Text) : splitAt mark text = text.splitOn mark := by
  induction text with
  | nil => rfl
  | cons c rest ih =>
      rw [splitAt, ih, List.splitOn_cons_eq_if_modifyHead]
      by_cases isMark : c = mark
      · rw [if_pos isMark, if_pos (beq_iff_eq.mpr isMark)]
      · rw [if_neg isMark, if_neg (mt beq_iff_eq.mp isMark)]
        cases cut : rest.splitOn mark with
        | nil => exact absurd cut (List.splitOn_ne_nil mark rest)
        | cons piece pieces => rfl

theorem joinWith_eq (separator : Text) (pieces : List Text) :
    joinWith separator pieces = separator.intercalate pieces := by
  induction pieces with
  | nil => rfl
  | cons first rest ih =>
      cases rest with
      | nil => exact (List.intercalate_singleton ..).symm
      | cons second rest => rw [joinWith, ih, List.intercalate_cons_cons]; exact List.cons_ne_nil second rest

theorem splitAt_joinWith {mark : Char} {pieces : List Text} (some : pieces ≠ [])
    (unmarked : ∀ piece ∈ pieces, mark ∉ piece) :
    splitAt mark (joinWith [mark] pieces) = pieces := by
  rw [splitAt_eq, joinWith_eq]
  exact List.splitOn_intercalate mark unmarked some

theorem splitAt_of_not_mem {mark : Char} {text : Text} (unmarked : mark ∉ text) :
    splitAt mark text = [text] := by
  have cut := splitAt_joinWith (List.cons_ne_nil text [])
    (fun piece member => List.mem_singleton.mp member ▸ unmarked)
  rwa [joinWith] at cut

theorem joinWith_splitAt (mark : Char) (text : Text) :
    joinWith [mark] (splitAt mark text) = text := by
  rw [splitAt_eq, joinWith_eq, List.intercalate_splitOn]

theorem splitAt_append (mark : Char) (front rest : Text) :
    splitAt mark (front ++ mark :: rest) = splitAt mark front ++ splitAt mark rest := by
  simp only [splitAt_eq, List.splitOn_append_cons_self]

theorem mem_of_mem_splitAt {mark : Char} {text piece : Text}
    (isOne : piece ∈ splitAt mark text)
    {c : Char} (member : c ∈ piece) : c ∈ text := by
  induction text generalizing piece with
  | nil =>
      rw [List.mem_singleton.mp isOne] at member
      exact member
  | cons first rest ih =>
      rw [splitAt] at isOne
      split at isOne
      · rcases List.mem_cons.mp isOne with rfl | later
        · cases member
        · exact List.mem_cons_of_mem _ (ih later member)
      · split at isOne
        · rw [List.mem_singleton.mp isOne, List.mem_singleton] at member
          rw [member]
          exact List.mem_cons_self
        · next head pieces cut =>
            rcases List.mem_cons.mp isOne with rfl | later
            · rcases List.mem_cons.mp member with rfl | further
              · exact List.mem_cons_self
              · exact List.mem_cons_of_mem _ (ih (by rw [cut]; exact List.mem_cons_self) further)
            · exact List.mem_cons_of_mem _
                (ih (by rw [cut]; exact List.mem_cons_of_mem _ later) member)

theorem mem_joinWith {separator : Text} {pieces : List Text} {c : Char}
    (member : c ∈ joinWith separator pieces) :
    c ∈ separator ∨ ∃ piece ∈ pieces, c ∈ piece := by
  induction pieces with
  | nil => cases member
  | cons first rest ih =>
      cases rest with
      | nil => exact .inr ⟨first, List.mem_cons_self, member⟩
      | cons second rest =>
          change c ∈ first ++ separator ++ joinWith separator (second :: rest) at member
          rw [List.append_assoc, List.mem_append, List.mem_append] at member
          rcases member with here | between | later
          · exact .inr ⟨first, List.mem_cons_self, here⟩
          · exact .inl between
          · exact (ih later).imp_right fun ⟨piece, among, found⟩ =>
              ⟨piece, List.mem_cons_of_mem _ among, found⟩

theorem joinWith_cons (separator first : Text) {rest : List Text} (some : rest ≠ []) :
    joinWith separator (first :: rest) = first ++ separator ++ joinWith separator rest := by
  cases rest with
  | nil => exact absurd rfl some
  | cons second rest => rfl

theorem splitAt_joinWith_eq (mark : Char) {pieces : List Text} (some : pieces ≠ []) :
    splitAt mark (joinWith [mark] pieces) = pieces.flatMap (splitAt mark) := by
  induction pieces with
  | nil => exact absurd rfl some
  | cons first rest ih =>
      rw [List.flatMap_cons]
      by_cases last : rest = []
      · rw [last]
        exact (List.append_nil _).symm
      · rw [joinWith_cons [mark] first last, List.append_assoc, List.singleton_append,
          splitAt_append, ih last]

theorem splitAt_injective {mark : Char} {text other : Text}
    (same : splitAt mark text = splitAt mark other) : text = other := by
  rw [← joinWith_splitAt mark text, same, joinWith_splitAt]

theorem length_le_joinWith (separator : Text) {pieces : List Text} {piece : Text}
    (member : piece ∈ pieces) : piece.length ≤ (joinWith separator pieces).length := by
  induction pieces with
  | nil => cases member
  | cons first rest ih =>
      by_cases last : rest = []
      · rw [last] at member ⊢
        exact List.mem_singleton.mp member ▸ Nat.le_refl _
      · rw [joinWith_cons separator first last, List.length_append, List.length_append]
        rcases List.mem_cons.mp member with rfl | later
        · omega
        · have further := ih later
          omega

/-- Pieces behind others make a joined text longer, when one of them has something in it. -/
theorem length_joinWith_lt (separator : Text) (front : List Text) {back : List Text} {piece : Text}
    (filled : piece ≠ []) (member : piece ∈ back) :
    (joinWith separator front).length < (joinWith separator (front ++ back)).length := by
  have some := List.length_pos_iff.mpr filled
  induction front with
  | nil => exact Nat.lt_of_lt_of_le some (length_le_joinWith separator member)
  | cons first rest ih =>
      have behind : rest ++ back ≠ [] :=
        List.append_ne_nil_of_right_ne_nil rest (List.ne_nil_of_mem member)
      rw [List.cons_append, joinWith_cons separator first behind, List.length_append,
        List.length_append]
      by_cases last : rest = []
      · have within := length_le_joinWith separator member
        rw [last, List.nil_append, joinWith]
        omega
      · rw [joinWith_cons separator first last, List.length_append, List.length_append]
        omega

theorem joinWith_ne_nil {separator : Text} {pieces : List Text} (some : pieces ≠ [])
    (filled : ∀ piece ∈ pieces, piece ≠ []) : joinWith separator pieces ≠ [] := by
  cases pieces with
  | nil => exact absurd rfl some
  | cons first rest =>
      have nonempty := filled first List.mem_cons_self
      cases rest with
      | nil => exact nonempty
      | cons second rest => simp [joinWith, nonempty]

/-- No piece has the mark. -/
theorem not_mem_of_mem_splitAt {mark : Char} {text piece : Text}
    (member : piece ∈ splitAt mark text) : mark ∉ piece := by
  induction text generalizing piece with
  | nil =>
      rw [List.mem_singleton.mp member]
      exact List.not_mem_nil
  | cons c rest ih =>
      rw [splitAt] at member
      split at member
      · rcases List.mem_cons.mp member with rfl | later
        · exact List.not_mem_nil
        · exact ih later
      · next other =>
          have begins (piece : Text) (unmarked : mark ∉ piece) : mark ∉ c :: piece := by
            rw [List.mem_cons, not_or]
            exact ⟨Ne.symm other, unmarked⟩
          split at member
          · rw [List.mem_singleton.mp member]
            exact begins [] List.not_mem_nil
          · next head pieces cut =>
              rcases List.mem_cons.mp member with rfl | later
              · exact begins head (ih (by rw [cut]; exact List.mem_cons_self))
              · exact ih (by rw [cut]; exact List.mem_cons_of_mem head later)

theorem joinWith_injective {mark : Char} {pieces others : List Text}
    (plain : ∀ piece ∈ pieces, piece ≠ [] ∧ mark ∉ piece)
    (otherPlain : ∀ piece ∈ others, piece ≠ [] ∧ mark ∉ piece)
    (same : joinWith [mark] pieces = joinWith [mark] others) : pieces = others := by
  have cut {pieces : List Text} (some : pieces ≠ [])
      (plain : ∀ piece ∈ pieces, piece ≠ [] ∧ mark ∉ piece) :
      splitAt mark (joinWith [mark] pieces) = pieces :=
    splitAt_joinWith some fun piece member => (plain piece member).2
  -- Nothing joined is the empty text, of which the only piece is empty.
  have filled {pieces : List Text} (plain : ∀ piece ∈ pieces, piece ≠ [] ∧ mark ∉ piece)
      (empty : joinWith [mark] pieces = []) : pieces = [] := by
    by_cases none : pieces = []
    · exact none
    · have single := cut none plain
      rw [empty] at single
      exact absurd rfl (plain [] (single ▸ List.mem_singleton_self [])).1
  by_cases none : pieces = []
  · rw [none] at same ⊢
    exact (filled otherPlain same.symm).symm
  · by_cases otherNone : others = []
    · rw [otherNone] at same
      exact absurd (filled plain same) none
    · rw [← cut none plain, same, cut otherNone otherPlain]

theorem joinWith_concat_append (separator : Text) (pieces : List Text) (last more : Text) :
    joinWith separator (pieces ++ [last ++ more]) =
      joinWith separator (pieces ++ [last]) ++ more := by
  induction pieces with
  | nil => rfl
  | cons first rest ih =>
      cases rest with
      | nil => simp [joinWith]
      | cons second rest =>
          have longer (final : Text) : joinWith separator (first :: second :: rest ++ [final]) =
              first ++ separator ++ joinWith separator (second :: rest ++ [final]) := rfl
          rw [longer, longer, ih, ← List.append_assoc]

end PhpWeave.Text
