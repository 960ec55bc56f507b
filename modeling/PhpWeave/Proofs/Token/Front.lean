import PhpWeave.Token.Lexeme

set_option autoImplicit false

/-!
What stands at the front of a text: a first character with some property, and a run of characters
with a property that ends where the property does.
-/

namespace PhpWeave.Lexeme

theorem startsWhere_true {p : Char → Bool} {text : Text} (holds : startsWhere p text = true) :
    ∃ c rest, text = c :: rest ∧ p c = true := by
  cases text with
  | nil => cases holds
  | cons c rest => exact ⟨c, rest, rfl, holds⟩

theorem startsWhere_beq {d : Char} {text : Text}
    (holds : startsWhere (· == d) text = true) : ∃ rest, text = d :: rest := by
  obtain ⟨c, rest, rfl, same⟩ := startsWhere_true holds
  exact ⟨rest, by rw [eq_of_beq same]⟩

theorem startsWhere_append {p : Char → Bool} {front : Text} (rest : Text)
    (nonempty : front ≠ []) : startsWhere p (front ++ rest) = startsWhere p front := by
  cases front with
  | nil => exact absurd rfl nonempty
  | cons c tail => rfl

theorem startsWhere_mono {p q : Char → Bool} (imp : ∀ c, p c = true → q c = false)
    {text : Text} (holds : startsWhere p text = true) : startsWhere q text = false := by
  cases text with
  | nil => cases holds
  | cons c tail => exact imp c holds

theorem ne_of_class {p : Char → Bool} {c : Char} (holds : p c = true) (d : Char)
    (fails : p d = false) : c ≠ d := by
  intro same
  rw [same, fails] at holds
  cases holds

theorem takeWhile_append_stop {p : Char → Bool} {front rest : Text} (all : ∀ c ∈ front, p c = true)
    (stops : startsWhere p rest = false) : (front ++ rest).takeWhile p = front := by
  rw [List.takeWhile_append_of_pos all]
  cases rest with
  | nil => simp
  | cons c tail =>
      have fails : p c = false := stops
      simp [fails]

theorem split_at_run (p : Char → Bool) (text : Text) :
    text = text.takeWhile p ++ text.drop (run p text) :=
  (List.prefix_iff_eq_append.mp (List.takeWhile_prefix p)).symm

/-! ### A first character that a measure does not look for -/

theorem fraction_of_ne {c : Char} (other : c ≠ '.') (rest : Text) :
    fraction (c :: rest) = 0 := by
  unfold fraction
  split
  · next same =>
      cases same
      exact absurd rfl other
  · rfl

theorem hasBaseMark_of_ne {c : Char} (other : c ≠ '0') (rest : Text) :
    hasBaseMark (c :: rest) = false := by
  unfold hasBaseMark
  split
  · next same =>
      cases same
      exact absurd rfl other
  · rfl

theorem blockCommentKind_of_ne {c : Char} (other : c ≠ '*') (rest : Text) :
    blockCommentKind (c :: rest) = .comment := by
  unfold blockCommentKind
  split
  · next same =>
      cases same
      exact absurd rfl other
  · rfl

theorem lineBreak_of_ne {c : Char} (rest : Text) (notFeed : c ≠ '\n')
    (notReturn : c ≠ '\r') : lineBreak (c :: rest) = 0 := by
  unfold lineBreak
  split
  · next same =>
      cases same
      exact absurd rfl notFeed
  · next same =>
      cases same
      exact absurd rfl notReturn
  · rfl

theorem lineBreak_return (rest : Text) :
    lineBreak ('\r' :: rest) = if startsWhere (· == '\n') rest then 2 else 0 := by
  cases rest with
  | nil => rfl
  | cons c tail =>
      by_cases feed : c = '\n'
      · rw [feed]
        rfl
      · have no : startsWhere (· == '\n') (c :: tail) = false := by simpa [startsWhere] using feed
        rw [no]
        unfold lineBreak
        split
        · next same =>
            cases same
        · next same =>
            cases same
            exact absurd rfl feed
        · rfl

end PhpWeave.Lexeme
