import PhpWeave.Proofs.Text.Pieces

set_option autoImplicit false

/-!
The lines of a text. Each character of a text is on a line, and a line feed is on the line that it
ends; so a text has one line more than there are line feeds in front of its last character.
-/

namespace PhpWeave.Text

/-- The number of lines: as many as there are line feeds, and one more when the last line has none.
A text that is empty has no line. -/
def lineCount (text : Text) : Nat :=
  newlines text + if text = [] ∨ text.getLast? = some '\n' then 0 else 1

theorem lineCount_le_of_few {text : Text} {limit : Nat} (few : newlines text < limit) :
    lineCount text ≤ limit := by
  unfold lineCount
  split <;> omega

def finalNewline (text : Text) : Text := if text.getLast? = some '\n' then ['\n'] else []

theorem dropFinalNewline_append (text : Text) :
    dropFinalNewline text ++ finalNewline text = text := by
  unfold dropFinalNewline finalNewline
  split
  · next ends =>
      obtain ⟨front, rfl⟩ := List.getLast?_eq_some_iff.mp ends
      rw [List.dropLast_concat]
  · exact List.append_nil text

theorem newlines_of_ne {c : Char} (other : c ≠ '\n') : newlines [c] = 0 :=
  List.count_eq_zero.mpr fun member => other (List.mem_singleton.mp member).symm

theorem newlines_dropFinalNewline (text : Text) (c : Char) :
    newlines (dropFinalNewline (text ++ [c])) = newlines text := by
  rw [dropFinalNewline, List.getLast?_concat]
  split
  · rw [List.dropLast_concat]
  · next other =>
      rw [newlines_append, newlines_of_ne fun same => other (congrArg some same), Nat.add_zero]

theorem newlines_dropFinalNewline_le (text : Text) :
    newlines (dropFinalNewline text) ≤ newlines text := by
  unfold dropFinalNewline
  split
  · exact (List.dropLast_sublist text).count_le '\n'
  · exact Nat.le_refl _

theorem lineCount_concat (text : Text) (c : Char) :
    lineCount (text ++ [c]) = newlines text + 1 := by
  rw [lineCount, List.getLast?_concat, newlines_append]
  by_cases feed : c = '\n'
  · rw [feed, if_pos (.inr rfl)]
    rfl
  · rw [newlines_of_ne feed, if_neg (by simp [feed])]

theorem newlines_lt_lineCount (front : Text) (c : Char) (rest : Text) :
    newlines front < lineCount (front ++ c :: rest) := by
  obtain ⟨middle, last, split⟩ := exists_concat (List.cons_ne_nil c rest)
  rw [split, ← List.append_assoc, lineCount_concat, newlines_append]
  omega

theorem length_splitAt (mark : Char) (text : Text) :
    (splitAt mark text).length = text.count mark + 1 := by
  induction text with
  | nil => rfl
  | cons c rest ih =>
      rw [splitAt]
      split
      · next same => rw [List.length_cons, ih, same, List.count_cons_self]
      · next other =>
          rw [List.count_cons_of_ne other, ← ih]
          split
          · next none => exact absurd none (splitAt_ne_nil mark rest)
          · next cut => rw [cut, List.length_cons, List.length_cons]

theorem length_lines (text : Text) : (lines text).length = lineCount text := by
  rcases List.eq_nil_or_concat text with rfl | ⟨front, c, rfl⟩
  · rfl
  · rw [List.concat_eq_append, lines, if_neg (by simp), length_splitAt, lineCount_concat]
    exact congrArg (· + 1) (newlines_dropFinalNewline front c)

theorem joinWith_lines (text : Text) :
    joinWith ['\n'] (lines text) ++ finalNewline text = text := by
  rw [lines]
  split
  · next empty =>
      rw [List.isEmpty_iff.mp empty]
      rfl
  · rw [joinWith_splitAt, dropFinalNewline_append]

theorem not_mem_of_mem_lines {text line : Text} (member : line ∈ lines text) : '\n' ∉ line := by
  rw [lines] at member
  split at member
  · cases member
  · exact not_mem_of_mem_splitAt member

theorem lines_flatMap {rows : List Text} (oneLine : ∀ row ∈ rows, '\n' ∉ row) :
    lines (rows.flatMap (· ++ ['\n'])) = rows := by
  have joined (some : rows ≠ []) :
      rows.flatMap (· ++ ['\n']) = joinWith ['\n'] rows ++ ['\n'] := by
    clear oneLine
    induction rows with
    | nil => exact absurd rfl some
    | cons row rest ih =>
        by_cases last : rest = []
        · rw [last]
          exact List.append_nil _
        · rw [List.flatMap_cons, ih last, joinWith_cons _ _ last, List.append_assoc,
            List.append_assoc, List.append_assoc]
  by_cases none : rows = []
  · rw [none]
    rfl
  · rw [joined none, lines, if_neg (by simp), dropFinalNewline, List.getLast?_concat, if_pos rfl,
      List.dropLast_concat, splitAt_joinWith none oneLine]

/-! ### Texts on one line -/

theorem oneLine_ofNat (number : Nat) : '\n' ∉ ofNat number := by
  intro feed
  have digit := Nat.isDigit_of_mem_toDigits (by decide) (by decide) feed
  exact absurd digit (by decide)

theorem oneLine_replicate (count : Nat) : '\n' ∉ List.replicate count ' ' := fun feed =>
  absurd (List.eq_of_mem_replicate feed) (by decide)

theorem oneLine_padded {text : Text} (oneLine : '\n' ∉ text) (width : Nat) :
    '\n' ∉ padded width text := by
  rw [padded, List.mem_append, not_or]
  exact ⟨oneLine, oneLine_replicate _⟩

theorem oneLine_centred {text : Text} (oneLine : '\n' ∉ text) (width : Nat) :
    '\n' ∉ centred width text := by
  simp only [centred, List.mem_append, not_or]
  exact ⟨⟨oneLine_replicate _, oneLine⟩, oneLine_replicate _⟩

end PhpWeave.Text
