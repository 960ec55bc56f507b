import PhpWeave.Proofs.Token.Front
import PhpWeave.Token.Leap

set_option autoImplicit false

/-!
The characters of strings and interpolations, one at a time. An enclosure takes the same characters
whatever it stands in. So the scan of a string in an interpolation, or of an interpolation in a
string, is a scan by itself, and what it stands in goes on behind it.
-/

namespace PhpWeave.Lexeme

open Leap (stopsString)

variable {mark : Char} {lead : Lead}

theorem enclosed_nil (stack : List Enclosure) (lead : Lead) : enclosed stack lead [] = 0 := by
  cases stack <;> rfl

theorem enclosed_le (stack : List Enclosure) (lead : Lead) (text : Text) :
    enclosed stack lead text ≤ text.length := by
  induction text generalizing stack lead with
  | nil => cases stack <;> exact Nat.le_refl 0
  | cons c rest ih =>
      cases stack with
      | nil => exact Nat.zero_le _
      | cons inner outer =>
          have next := ih (enclosureStep inner outer lead c).1 (enclosureStep inner outer lead c).2
          simp only [enclosed, List.length_cons]
          omega

private theorem enclosureStep_over (inner : Enclosure) (below outer : List Enclosure) (lead : Lead)
    (c : Char) :
    enclosureStep inner (below ++ outer) lead c =
      ((enclosureStep inner below lead c).1 ++ outer, (enclosureStep inner below lead c).2) := by
  cases inner with
  | quote mark => grind [enclosureStep, quoteStep]
  | braces => grind [enclosureStep, braceStep]

private theorem lead_of_left {inner : Enclosure} {below : List Enclosure} {c : Char}
    (left : (enclosureStep inner below lead c).1 = []) :
    (enclosureStep inner below lead c).2 = .plain := by
  cases inner with
  | quote mark => grind [enclosureStep, quoteStep]
  | braces => grind [enclosureStep, braceStep]

/-- An enclosure takes the same characters whatever it stands in, and what it stands in goes on
behind it. -/
theorem enclosed_over {stack : List Enclosure} (inside : stack ≠ []) (outer : List Enclosure)
    (lead : Lead) (text : Text) :
    enclosed (stack ++ outer) lead text =
      enclosed stack lead text +
        enclosed outer .plain (text.drop (enclosed stack lead text)) := by
  induction text generalizing stack lead with
  | nil => simp only [enclosed_nil, List.drop_nil]
  | cons c rest ih =>
      obtain ⟨inner, below, rfl⟩ := List.exists_cons_of_ne_nil inside
      simp only [List.cons_append, enclosed, enclosureStep_over, Nat.add_comm 1,
        List.drop_succ_cons]
      by_cases left : (enclosureStep inner below lead c).1 = []
      · rw [left, lead_of_left left, List.nil_append, enclosed, List.drop_zero]
        omega
      · rw [ih left]
        omega

/-- A quote mark in an interpolation opens a string. -/
theorem braces_quote {c : Char} (isOne : isQuote c = true) (outer : List Enclosure) (rest : Text) :
    enclosed (.braces :: outer) lead (c :: rest) =
      1 + enclosed (.quote c :: .braces :: outer) .plain rest := by
  rw [enclosed, enclosureStep, braceStep, if_pos isOne]

theorem braces_opening (outer : List Enclosure) (rest : Text) :
    enclosed (.braces :: outer) lead ('\x7b' :: rest) =
      1 + enclosed (.braces :: .braces :: outer) .plain rest := rfl

theorem braces_closing (outer : List Enclosure) (rest : Text) :
    enclosed (.braces :: outer) lead ('\x7d' :: rest) = 1 + enclosed outer .plain rest := rfl

theorem braces_other {c : Char} (noQuote : ¬ isQuote c = true) (notOpening : c ≠ '\x7b')
    (notClosing : c ≠ '\x7d') (outer : List Enclosure) (rest : Text) :
    enclosed (.braces :: outer) lead (c :: rest) =
      1 + enclosed (.braces :: outer) .plain rest := by
  rw [enclosed, enclosureStep, braceStep, if_neg noQuote, if_neg notOpening, if_neg notClosing]

/-! ### The characters of a string -/

def leadAt (text : Text) (place : Nat) : Lead :=
  if 0 < place ∧ text[place - 1]? = some '$' then .dollar else .plain

structure Lead.Passed (lead : Lead) : Prop where
  noEscape : lead ≠ .escape
  noBrace : lead ≠ .brace

theorem passed_leadAt (text : Text) (place : Nat) : Lead.Passed (leadAt text place) := by
  unfold leadAt
  split
  · exact ⟨Lead.noConfusion, Lead.noConfusion⟩
  · exact ⟨Lead.noConfusion, Lead.noConfusion⟩

theorem enclosureStep_passed {c : Char} (goesOn : stopsString mark c = false)
    (passed : Lead.Passed lead) (outer : List Enclosure) :
    enclosureStep (.quote mark) outer lead c =
      (.quote mark :: outer, if c = '$' then .dollar else .plain) := by
  obtain ⟨noEscape, noBrace⟩ := passed
  simp only [stopsString, Bool.or_eq_false_iff, Bool.and_eq_false_iff, beq_eq_false_iff_ne]
    at goesOn
  obtain ⟨⟨notMark, notBackslash⟩, noOpener⟩ := goesOn
  grind [enclosureStep, quoteStep]

/-- A jump leads over characters that the string takes. -/
theorem enclosed_skip {text : Text} (count : Nat) (inside : count ≤ text.length)
    (passed : ∀ place < count, startsWhere (stopsString mark) (text.drop place) = false)
    (outer : List Enclosure) :
    enclosed (.quote mark :: outer) .plain text =
      count + enclosed (.quote mark :: outer) (leadAt text count) (text.drop count) := by
  induction count with
  | zero => exact (Nat.zero_add _).symm
  | succ count ih =>
      have here : text[count]? = some text[count] := List.getElem?_eq_getElem inside
      have spelled := List.drop_eq_getElem_cons inside
      have goesOn := passed count (Nat.lt_succ_self count)
      rw [spelled] at goesOn
      have step := enclosureStep_passed goesOn (passed_leadAt text count) outer
      rw [ih (Nat.le_of_succ_le inside) fun place before => passed place (Nat.lt_succ_of_lt before),
        spelled, enclosed, step, ← Nat.add_assoc]
      simp only [leadAt, Nat.succ_pos, Nat.add_sub_cancel, here, Option.some_inj, true_and]

/-- A backslash takes the next character with it. -/
theorem enclosed_backslash (passed : Lead.Passed lead) (outer : List Enclosure) (c : Char)
    (rest : Text) :
    enclosed (.quote mark :: outer) lead ('\\' :: c :: rest) =
      2 + enclosed (.quote mark :: outer) .plain rest := by
  obtain ⟨noEscape, noBrace⟩ := passed
  have first : enclosureStep (.quote mark) outer lead '\\' = (.quote mark :: outer, .escape) := by
    simp [enclosureStep, quoteStep, noEscape]
  rw [enclosed, first]
  change 1 + (1 + enclosed (.quote mark :: outer) .plain rest) = _
  rw [← Nat.add_assoc]

theorem enclosed_mark (isOne : isQuote mark = true) (passed : Lead.Passed lead)
    (outer : List Enclosure) (rest : Text) :
    enclosed (.quote mark :: outer) lead (mark :: rest) = 1 + enclosed outer .plain rest := by
  obtain ⟨noEscape, noBrace⟩ := passed
  have notBackslash : mark ≠ '\\' := ne_of_class isOne '\\' rfl
  have leaves : enclosureStep (.quote mark) outer lead mark = (outer, .plain) := by
    simp [enclosureStep, quoteStep, noEscape, noBrace, notBackslash]
  rw [enclosed, leaves]

/-- A brace next to a dollar sign opens an interpolation. Where the dollar sign comes second, the
interpolation takes it too. -/
theorem enclosed_opens (isOne : isQuote mark = true) (double : mark ≠ '\'')
    (passed : Lead.Passed lead) {rest : Text}
    (opens : startsWhere (· == '$') rest = true ∨ lead = .dollar) (outer : List Enclosure) :
    enclosed (.quote mark :: outer) lead ('\x7b' :: rest) =
      1 + enclosed (.braces :: .quote mark :: outer) .plain rest := by
  obtain ⟨noEscape, noBrace⟩ := passed
  have notMark : '\x7b' ≠ mark := (ne_of_class isOne '\x7b' rfl).symm
  rw [enclosed]
  by_cases dollar : lead = .dollar
  · have step : enclosureStep (.quote mark) outer lead '\x7b' =
        (.braces :: .quote mark :: outer, .plain) := by
      simp [enclosureStep, quoteStep, notMark, double, dollar]
    rw [step]
  · obtain ⟨tail, rfl⟩ := startsWhere_beq (opens.resolve_right dollar)
    have step : enclosureStep (.quote mark) outer lead '\x7b' = (.quote mark :: outer, .brace) := by
      simp [enclosureStep, quoteStep, noEscape, noBrace, notMark, double, dollar]
    rw [step]
    rfl

/-- Any other brace is a character like the others. -/
theorem enclosed_brace (isOne : isQuote mark = true) (double : mark ≠ '\'')
    (passed : Lead.Passed lead) {rest : Text}
    (alone : ¬ (startsWhere (· == '$') rest = true ∨ lead = .dollar)) (outer : List Enclosure) :
    enclosed (.quote mark :: outer) lead ('\x7b' :: rest) =
      1 + enclosed (.quote mark :: outer) .plain rest := by
  obtain ⟨noEscape, noBrace⟩ := passed
  obtain ⟨noDollar, notBehind⟩ := not_or.mp alone
  have notMark : '\x7b' ≠ mark := (ne_of_class isOne '\x7b' rfl).symm
  have step : enclosureStep (.quote mark) outer lead '\x7b' = (.quote mark :: outer, .brace) := by
    simp [enclosureStep, quoteStep, noEscape, noBrace, notMark, double, notBehind]
  rw [enclosed, step]
  cases rest with
  | nil => rfl
  | cons d tail =>
      have other : d ≠ '$' := beq_eq_false_iff_ne.mp (eq_false_of_ne_true noDollar)
      have same : enclosureStep (.quote mark) outer .brace d =
          enclosureStep (.quote mark) outer .plain d := by
        simp [enclosureStep, quoteStep, other]
      rw [enclosed, enclosed, same]

end PhpWeave.Lexeme
