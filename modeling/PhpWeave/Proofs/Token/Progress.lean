import PhpWeave.Proofs.Token.Leaping
import PhpWeave.Proofs.Token.Rule

set_option autoImplicit false

/-!
Every lexeme takes a character at least and stays within the text that remains. From this alone a
scan comes to its end, its tokens are never empty, and their texts put together are the text that
was scanned.
-/

namespace PhpWeave

namespace Lexeme

theorem run_le (p : Char → Bool) (text : Text) : run p text ≤ text.length :=
  (List.takeWhile_sublist p).length_le

theorem run_pos {p : Char → Bool} {c : Char} (holds : p c = true) (rest : Text) :
    0 < run p (c :: rest) := by
  simp [run, holds]

theorem name_le (text : Text) : name text ≤ text.length := by
  induction text with
  | nil => exact Nat.le_refl 0
  | cons c rest ih =>
      simp only [name, List.length_cons]
      split <;> omega

theorem name_pos {c : Char} (begins : isNameStart c = true) (rest : Text) :
    0 < name (c :: rest) := by
  simp only [name, isNameChar, begins, Bool.true_or, if_true]
  omega

theorem fraction_le (text : Text) : fraction text ≤ text.length := by
  unfold fraction
  split
  · next rest =>
      have digits := run_le isDigitOrUnderscore rest
      simp only [List.length_cons]
      split <;> omega
  · exact Nat.zero_le _

theorem digits_pos {text : Text} (digit : startsWhere Char.isDigit text = true) :
    0 < run isDigitOrUnderscore text := by
  obtain ⟨c, rest, rfl, isOne⟩ := startsWhere_true digit
  exact run_pos (by simp [isDigitOrUnderscore, isOne]) rest

theorem fraction_pos {rest : Text} (digit : startsWhere Char.isDigit rest = true) :
    0 < fraction ('.' :: rest) := by
  simp only [fraction, digit, if_true]
  omega

def exponentTail : Text → Nat
  | [] => 0
  | c :: rest =>
    if c.isDigit then run isDigitOrUnderscore (c :: rest)
    else if (c == '+' || c == '-') && startsWhere Char.isDigit rest then
      1 + run isDigitOrUnderscore rest
    else 0

theorem exponentTail_le (text : Text) : exponentTail text ≤ text.length := by
  cases text with
  | nil => exact Nat.le_refl 0
  | cons c rest =>
      have digits := run_le isDigitOrUnderscore (c :: rest)
      have signed := run_le isDigitOrUnderscore rest
      simp only [exponentTail, List.length_cons] at digits ⊢
      split
      · exact digits
      · split <;> omega

theorem exponent_of_plain {c : Char} (plain : (c == 'e' || c == 'E') = false) (rest : Text) :
    exponent (c :: rest) = 0 := by
  simp only [exponent, plain, Bool.false_eq_true, if_false]

/-- A letter without digits behind it is no exponent. -/
theorem exponent_of_letter {c : Char} (letter : (c == 'e' || c == 'E') = true) (rest : Text) :
    exponent (c :: rest) = if exponentTail rest = 0 then 0 else 1 + exponentTail rest := by
  cases rest with
  | nil => simp only [exponent, letter, if_true, startsWhere, exponentTail, Bool.false_eq_true,
      if_false]
  | cons d tail =>
      have behind : exponent (c :: d :: tail) =
          if d.isDigit then 1 + run isDigitOrUnderscore (d :: tail)
          else if (d == '+' || d == '-') && startsWhere Char.isDigit tail then
            2 + run isDigitOrUnderscore tail
          else 0 := by
        simp only [exponent, letter, if_true]
        rfl
      rw [behind, exponentTail]
      by_cases digit : d.isDigit = true
      · have positive : 0 < run isDigitOrUnderscore (d :: tail) := digits_pos digit
        rw [if_pos digit, if_pos digit, if_neg (by omega)]
      · rw [if_neg digit, if_neg digit]
        split
        · rw [if_neg (by omega), ← Nat.add_assoc]
        · rfl

theorem exponent_le (text : Text) : exponent text ≤ text.length := by
  cases text with
  | nil => exact Nat.le_refl 0
  | cons c rest =>
      cases letter : (c == 'e' || c == 'E') with
      | false =>
          rw [exponent_of_plain letter]
          exact Nat.zero_le _
      | true =>
          have tail := exponentTail_le rest
          rw [exponent_of_letter letter, List.length_cons]
          split <;> omega

theorem hasBaseMark_length {text : Text} (based : hasBaseMark text = true) : 2 ≤ text.length := by
  unfold hasBaseMark at based
  split at based
  · simp only [List.length_cons]
    omega
  · cases based

theorem number_le (text : Text) : number text ≤ text.length := by
  unfold number
  split
  · next based =>
      have long := hasBaseMark_length based
      have digits := run_le isHexDigitOrUnderscore (text.drop 2)
      rw [List.length_drop] at digits
      omega
  · have whole := run_le isDigitOrUnderscore text
    have decimals := fraction_le (text.drop (run isDigitOrUnderscore text))
    have power := exponent_le (text.drop (run isDigitOrUnderscore text +
      fraction (text.drop (run isDigitOrUnderscore text))))
    simp only [List.length_drop] at decimals power ⊢
    omega

theorem number_pos {c : Char} {rest : Text}
    (begins : c.isDigit = true ∨ c = '.' ∧ startsWhere Char.isDigit rest = true) :
    0 < number (c :: rest) := by
  unfold number
  split
  · omega
  · rcases begins with digit | ⟨rfl, digit⟩
    · have goesOn : isDigitOrUnderscore c = true := by simp [isDigitOrUnderscore, digit]
      have whole := run_pos goesOn rest
      simp only
      omega
    · have decimals := fraction_pos digit
      have none : run isDigitOrUnderscore ('.' :: rest) = 0 := rfl
      simp only [none, List.drop_zero]
      omega

theorem lineComment_le (text : Text) : lineComment text ≤ text.length := by
  induction text with
  | nil => exact Nat.le_refl 0
  | cons c rest ih =>
      simp only [lineComment, List.length_cons]
      split <;> omega

theorem blockComment_le (text : Text) : blockComment text ≤ text.length := by
  induction text with
  | nil => exact Nat.le_refl 0
  | cons c rest ih =>
      simp only [blockComment, List.length_cons]
      split
      · next closes =>
          cases rest with
          | nil => simp [startsWhere] at closes
          | cons d tail =>
              simp only [List.length_cons]
              omega
      · omega

theorem lineBreak_le (text : Text) : lineBreak text ≤ text.length := by
  unfold lineBreak
  split <;> simp

theorem heredocEnd?_le {label text : Text} {length : Nat}
    (found : heredocEnd? label text = some length) : length ≤ text.length := by
  simp only [heredocEnd?] at found
  split at found
  · next closes =>
      cases found
      obtain ⟨isPrefix, -⟩ := Bool.and_eq_true_iff.mp closes
      have fits := (List.isPrefixOf_iff_prefix.mp isPrefix).length_le
      rw [List.length_drop] at fits
      have indent := run_le isIndent text
      omega
  · cases found

theorem heredocBody_le (label : Text) (lineStart : Bool) (text : Text) :
    heredocBody label lineStart text ≤ text.length := by
  induction text generalizing lineStart with
  | nil => exact Nat.le_refl 0
  | cons c rest ih =>
      simp only [heredocBody]
      split
      · next length found =>
          cases lineStart with
          | false => cases found
          | true => exact heredocEnd?_le found
      · have next := ih (c == '\n')
        simp only [List.length_cons]
        omega

theorem operator_bounds (c : Char) (rest : Text) :
    0 < (operator (c :: rest)).2 ∧ (operator (c :: rest)).2 ≤ (c :: rest).length := by
  unfold operator
  split
  · next entry found =>
      have spelled : entry.1 <+: c :: rest := by simpa using List.find?_some found
      have known : ∀ entry ∈ operators, 0 < entry.1.length := by decide
      exact ⟨known entry (List.mem_of_find?_eq_some found), spelled.length_le⟩
  · exact ⟨Nat.one_pos, Nat.succ_le_succ (Nat.zero_le _)⟩

theorem openTag?_bounds {text : Text} {kind : TokenKind} {length : Nat}
    (found : openTag? text = some (kind, length)) : 0 < length ∧ length ≤ text.length := by
  unfold openTag? at found
  split at found
  · next rest =>
      split at found
      · next echo =>
          cases found
          obtain ⟨c, tail, rfl, -⟩ := startsWhere_true echo
          simp
      · split at found
        · next word =>
            have three : 3 ≤ rest.length := by
              have same := congrArg List.length (eq_of_beq word)
              simp only [Text.lower, List.length_map, List.length_take] at same
              change min 3 rest.length = 3 at same
              omega
            have after := List.length_drop (i := 3) (l := rest)
            split at found
            · cases found
              simp only [List.length_cons]
              omega
            · next line =>
                cases found
                rw [line] at after
                simp only [List.length_cons] at after ⊢
                omega
            · next c tail _ line =>
                rw [line] at after
                split at found
                · cases found
                  simp only [List.length_cons] at after ⊢
                  omega
                · cases found
        · split at found
          · cases found
            simp
          · split at found
            · cases found
              simp
            · cases found
  · cases found

theorem inlineHtml_le (text : Text) : inlineHtml text ≤ text.length := by
  induction text with
  | nil => exact Nat.le_refl 0
  | cons c rest ih =>
      simp only [inlineHtml, List.length_cons]
      split <;> omega

end Lexeme

namespace Scan

open Lexeme

/-- A rule takes a character at least and no more than there are. -/
theorem Rule.length_bounds {afterArrow : Bool} {text : Text} {kind : TokenKind} {length : Nat}
    (rule : Rule afterArrow text kind length) : 0 < length ∧ length ≤ text.length := by
  cases rule with
  | space c rest isOne => exact ⟨run_pos isOne rest, run_le isSpace (c :: rest)⟩
  | close rest =>
      have broken := lineBreak_le rest
      simp only [closeTag, List.length_cons]
      omega
  | attributeOpen rest => simp
  | hash rest noBracket =>
      have comment := lineComment_le rest
      simp only [List.length_cons]
      omega
  | slashes rest =>
      have comment := lineComment_le ('/' :: rest)
      simp only [List.length_cons] at comment ⊢
      omega
  | block rest =>
      have comment := blockComment_le rest
      simp only [List.length_cons]
      omega
  | string mark rest isOne =>
      have inside := enclosed_le [.quote mark] .plain rest
      simp only [quoted, List.length_cons]
      omega
  | heredoc rest head found =>
      have header := heredocHead?_length_le found
      have body := heredocBody_le head.label true (rest.drop head.length)
      rw [List.length_drop] at body
      simp only [List.length_cons]
      omega
  | variableName c rest begins =>
      have tail := run_le isNameChar (c :: rest)
      simp only [List.length_cons] at tail ⊢
      omega
  | dollar rest noName => simp
  | number c rest begins => exact ⟨number_pos begins, number_le (c :: rest)⟩
  | rooted c rest begins =>
      have tail := name_le (c :: rest)
      simp only [List.length_cons] at tail ⊢
      omega
  | separator rest noName => simp
  | name c rest begins => exact ⟨name_pos begins rest, name_le (c :: rest)⟩
  | punctuation c rest kind isOne => simp
  | operator c rest plain noOther => exact operator_bounds c rest

theorem htmlLexeme_bounds (c : Char) (rest : Text) :
    0 < (htmlLexeme (c :: rest)).2 ∧ (htmlLexeme (c :: rest)).2 ≤ (c :: rest).length := by
  cases tag : openTag? (c :: rest) with
  | none =>
      have html := inlineHtml_le rest
      simp only [htmlLexeme_cons, tag, Option.getD_none, List.length_cons]
      omega
  | some found =>
      simp only [htmlLexeme_cons, tag, Option.getD_some]
      exact openTag?_bounds tag

/-- In either mode the next token takes a character at least and no more than there are. -/
theorem State.lexeme_bounds (state : State) {text : Text} (nonempty : text ≠ []) :
    0 < (state.lexeme text).2 ∧ (state.lexeme text).2 ≤ text.length := by
  cases text with
  | nil => exact absurd rfl nonempty
  | cons c rest =>
      unfold State.lexeme
      cases state.mode with
      | html => exact htmlLexeme_bounds c rest
      | php =>
          have rule : Rule state.afterArrow (c :: rest) (phpLexeme state.afterArrow (c :: rest)).1
              (phpLexeme state.afterArrow (c :: rest)).2 := rule_of_phpLexeme rfl
          exact rule.length_bounds

end Scan
end PhpWeave
