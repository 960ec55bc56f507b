import PhpWeave.Proofs.Token.Leaping
import PhpWeave.Token.Scan

set_option autoImplicit false

/-!
The token rules inside PHP code as a relation between the text that remains, the kind of the next
token and its length. A rule shows what the first characters are, and the scan finds exactly the
rule that applies. Proofs about single tokens go by cases on the rule.
-/

namespace PhpWeave

namespace TokenKind

/-- A word is in the table of keywords or an identifier. -/
theorem ofWord_cases (word : Text) :
    ofWord word = .identifier ∨ (Text.lower word, ofWord word) ∈ keywords := by
  unfold ofWord
  cases found : keywords.lookup (Text.lower word) with
  | none => exact .inl rfl
  | some kind =>
      obtain ⟨before, after, spelled, -⟩ := List.lookup_eq_some_iff.mp found
      refine .inr ?_
      rw [spelled]
      exact List.mem_append_right _ List.mem_cons_self

end TokenKind

namespace Scan

open Lexeme

def isPlain (c : Char) : Bool :=
  !(isSpace c || isQuote c || c == '#' || c == '$' || c == '\\' || c.isDigit || isNameStart c) &&
    (punctuation? c).isNone

def beginsOther : Text → Bool
  | '?' :: '>' :: _ => true
  | '/' :: '/' :: _ => true
  | '/' :: '*' :: _ => true
  | '.' :: c :: _ => c.isDigit
  | '<' :: '<' :: '<' :: rest => (heredocHead? rest).isSome
  | _ => false

/-- `Rule afterArrow text kind length`: the token at the front of `text` has this kind and takes
this many characters. -/
inductive Rule (afterArrow : Bool) : Text → TokenKind → Nat → Prop where
  | space (c : Char) (rest : Text) (isOne : isSpace c = true) :
      Rule afterArrow (c :: rest) .whitespace (run isSpace (c :: rest))
  | close (rest : Text) : Rule afterArrow ('?' :: '>' :: rest) .closeTag (closeTag rest)
  | attributeOpen (rest : Text) : Rule afterArrow ('#' :: '[' :: rest) .attributeOpen 2
  | hash (rest : Text) (noBracket : startsWhere (· == '[') rest = false) :
      Rule afterArrow ('#' :: rest) .comment (1 + lineComment rest)
  | slashes (rest : Text) :
      Rule afterArrow ('/' :: '/' :: rest) .comment (1 + lineComment ('/' :: rest))
  | block (rest : Text) :
      Rule afterArrow ('/' :: '*' :: rest) (blockCommentKind rest) (2 + blockComment rest)
  | string (mark : Char) (rest : Text) (isOne : isQuote mark = true) :
      Rule afterArrow (mark :: rest) .quotedString (1 + quoted mark rest)
  | heredoc (rest : Text) (head : Head) (found : heredocHead? rest = some head) :
      Rule afterArrow ('<' :: '<' :: '<' :: rest) .heredoc
        (3 + head.length + heredocBody head.label true (rest.drop head.length))
  | variableName (c : Char) (rest : Text) (begins : isNameStart c = true) :
      Rule afterArrow ('$' :: c :: rest) .variableName (1 + run isNameChar (c :: rest))
  | dollar (rest : Text) (noName : startsWhere isNameStart rest = false) :
      Rule afterArrow ('$' :: rest) .dollar 1
  | number (c : Char) (rest : Text)
      (begins : c.isDigit = true ∨ c = '.' ∧ startsWhere Char.isDigit rest = true) :
      Rule afterArrow (c :: rest) .numberLiteral (Lexeme.number (c :: rest))
  | rooted (c : Char) (rest : Text) (begins : isNameStart c = true) :
      Rule afterArrow ('\\' :: c :: rest) .fullyQualifiedName (1 + Lexeme.name (c :: rest))
  | separator (rest : Text) (noName : startsWhere isNameStart rest = false) :
      Rule afterArrow ('\\' :: rest) .separator 1
  | name (c : Char) (rest : Text) (begins : isNameStart c = true) :
      Rule afterArrow (c :: rest) (nameKind afterArrow (c :: rest)) (Lexeme.name (c :: rest))
  | punctuation (c : Char) (rest : Text) (kind : TokenKind) (isOne : punctuation? c = some kind) :
      Rule afterArrow (c :: rest) kind 1
  | operator (c : Char) (rest : Text) (plain : isPlain c = true)
      (noOther : beginsOther (c :: rest) = false) :
      Rule afterArrow (c :: rest) (Lexeme.operator (c :: rest)).1 (Lexeme.operator (c :: rest)).2

variable {afterArrow : Bool}

private theorem rule_of_operator {c : Char} {rest : Text} {kind : TokenKind} {length : Nat}
    (plain : isPlain c = true) (noOther : beginsOther (c :: rest) = false)
    (found : operator (c :: rest) = (kind, length)) :
    Rule afterArrow (c :: rest) kind length := by
  have sameKind : (operator (c :: rest)).1 = kind := congrArg Prod.fst found
  have sameLength : (operator (c :: rest)).2 = length := congrArg Prod.snd found
  rw [← sameKind, ← sameLength]
  exact .operator c rest plain noOther

private theorem rule_of_heredocLexeme {rest : Text} {kind : TokenKind} {length : Nat}
    (found : heredocLexeme ('<' :: '<' :: '<' :: rest) = (kind, length)) :
    Rule afterArrow ('<' :: '<' :: '<' :: rest) kind length := by
  unfold heredocLexeme at found
  cases header : heredocHead? rest with
  | some head =>
      rw [List.drop_succ_cons, List.drop_succ_cons, List.drop_succ_cons, List.drop_zero, header]
        at found
      cases found
      rw [Leap.heredoc_front header]
      exact .heredoc rest head header
  | none =>
      rw [List.drop_succ_cons, List.drop_succ_cons, List.drop_succ_cons, List.drop_zero, header]
        at found
      exact rule_of_operator (by decide) (by simp [beginsOther, header]) found

/-- The rule that the scan follows. -/
theorem rule_of_phpLexeme {c : Char} {rest : Text} {kind : TokenKind} {length : Nat}
    (found : phpLexeme afterArrow (c :: rest) = (kind, length)) :
    Rule afterArrow (c :: rest) kind length := by
  simp only [phpLexeme] at found
  by_cases space : isSpace c = true
  · rw [if_pos space] at found
    cases found
    exact .space c rest space
  rw [if_neg space] at found
  by_cases close : (c == '?' && startsWhere (· == '>') rest) = true
  · rw [if_pos close] at found
    cases found
    obtain ⟨isMark, follows⟩ := Bool.and_eq_true_iff.mp close
    obtain ⟨tail, rfl⟩ := startsWhere_beq follows
    rw [eq_of_beq isMark]
    exact .close tail
  rw [if_neg close] at found
  by_cases hash : (c == '#') = true
  · rw [if_pos hash] at found
    rw [eq_of_beq hash]
    by_cases bracket : startsWhere (· == '[') rest = true
    · rw [if_pos bracket] at found
      cases found
      obtain ⟨tail, rfl⟩ := startsWhere_beq bracket
      exact .attributeOpen tail
    · rw [if_neg bracket] at found
      cases found
      rw [Leap.lineComment_front]
      exact .hash rest (eq_false_of_ne_true bracket)
  rw [if_neg hash] at found
  by_cases slashes : (c == '/' && startsWhere (· == '/') rest) = true
  · rw [if_pos slashes] at found
    cases found
    obtain ⟨isSlash, follows⟩ := Bool.and_eq_true_iff.mp slashes
    obtain ⟨tail, rfl⟩ := startsWhere_beq follows
    rw [eq_of_beq isSlash, Leap.lineComment_front]
    exact .slashes tail
  rw [if_neg slashes] at found
  by_cases block : (c == '/' && startsWhere (· == '*') rest) = true
  · rw [if_pos block] at found
    cases found
    obtain ⟨isSlash, follows⟩ := Bool.and_eq_true_iff.mp block
    obtain ⟨tail, rfl⟩ := startsWhere_beq follows
    rw [eq_of_beq isSlash, Leap.blockComment_front]
    exact .block tail
  rw [if_neg block] at found
  by_cases quote : isQuote c = true
  · rw [if_pos quote] at found
    cases found
    rw [Leap.quoted_front quote]
    exact .string c rest quote
  rw [if_neg quote] at found
  by_cases angles : ['<', '<', '<'].isPrefixOf (c :: rest) = true
  · rw [if_pos angles] at found
    obtain ⟨tail, same⟩ := List.isPrefixOf_iff_prefix.mp angles
    rw [← same] at found ⊢
    exact rule_of_heredocLexeme found
  rw [if_neg angles] at found
  by_cases dollar : (c == '$') = true
  · rw [if_pos dollar] at found
    rw [eq_of_beq dollar]
    by_cases begins : startsWhere isNameStart rest = true
    · rw [if_pos begins] at found
      cases found
      obtain ⟨d, tail, rfl, isStart⟩ := startsWhere_true begins
      exact .variableName d tail isStart
    · rw [if_neg begins] at found
      cases found
      exact .dollar rest (eq_false_of_ne_true begins)
  rw [if_neg dollar] at found
  by_cases digit : (c.isDigit || (c == '.' && startsWhere Char.isDigit rest)) = true
  · rw [if_pos digit] at found
    cases found
    exact .number c rest (by simpa using digit)
  rw [if_neg digit] at found
  by_cases backslash : (c == '\\') = true
  · rw [if_pos backslash] at found
    rw [eq_of_beq backslash]
    by_cases begins : startsWhere isNameStart rest = true
    · rw [if_pos begins] at found
      cases found
      obtain ⟨d, tail, rfl, isStart⟩ := startsWhere_true begins
      exact .rooted d tail isStart
    · rw [if_neg begins] at found
      cases found
      exact .separator rest (eq_false_of_ne_true begins)
  rw [if_neg backslash] at found
  by_cases begins : isNameStart c = true
  · rw [if_pos begins] at found
    cases found
    exact .name c rest begins
  rw [if_neg begins] at found
  cases single : punctuation? c with
  | some other =>
      rw [single] at found
      cases found
      exact .punctuation c rest _ single
  | none =>
      rw [single] at found
      have plain : isPlain c = true := by simp_all [isPlain]
      have noOther : beginsOther (c :: rest) = false := by
        unfold beginsOther
        split <;> simp_all [startsWhere]
      exact rule_of_operator plain noOther found

theorem notSpace_of_class {p : Char → Bool} {c : Char} (holds : p c = true)
    (apart : [' ', '\t', '\n', '\r', '\x0b', '\x0c'].any p = false) : isSpace c = false := by
  simp only [List.any_cons, List.any_nil, Bool.or_false, Bool.or_eq_false_iff] at apart
  have other := ne_of_class holds
  simp only [isSpace, Bool.or_eq_false_iff, beq_eq_false_iff_ne]
  exact ⟨⟨⟨⟨⟨other _ apart.1, other _ apart.2.1⟩, other _ apart.2.2.1⟩, other _ apart.2.2.2.1⟩,
    other _ apart.2.2.2.2.1⟩, other _ apart.2.2.2.2.2⟩

private theorem notQuote_of_class {p : Char → Bool} {c : Char} (holds : p c = true)
    (apart : ['\'', '"', '\x60'].any p = false) : isQuote c = false := by
  simp only [List.any_cons, List.any_nil, Bool.or_false, Bool.or_eq_false_iff] at apart
  have other := ne_of_class holds
  simp only [isQuote, Bool.or_eq_false_iff, beq_eq_false_iff_ne]
  exact ⟨⟨other _ apart.1, other _ apart.2.1⟩, other _ apart.2.2⟩

theorem notDigit_of_nameStart {c : Char} (begins : isNameStart c = true) :
    c.isDigit = false := by
  cases digit : c.isDigit with
  | false => rfl
  | true =>
      have letters : c.isAlpha = (decide (c.val ≥ 'A'.val ∧ c.val ≤ 'Z'.val) ||
          (decide (c.val ≥ 'a'.val) && decide (c.val ≤ 'z'.val))) := rfl
      simp only [isNameStart, letters, Bool.or_eq_true, Bool.and_eq_true, decide_eq_true_eq,
        beq_iff_eq, UInt32.le_iff_toNat_le] at begins
      simp only [Char.isDigit, Bool.and_eq_true, decide_eq_true_eq, UInt32.le_iff_toNat_le] at digit
      have upper : c.val.toNat ≤ 57 := digit.2
      rcases begins with ((letter | letter) | rfl) | letter
      · have lower : 65 ≤ c.val.toNat := letter.1
        omega
      · have lower : 97 ≤ c.val.toNat := letter.1
        omega
      · exact absurd upper (by decide)
      · have lower : 128 ≤ c.val.toNat := letter
        omega

def punctuation : List (Char × TokenKind) :=
  [('(', .openParen), (')', .closeParen), ('[', .openBracket), (']', .closeBracket),
    ('\x7b', .openBrace), ('\x7d', .closeBrace), (';', .semicolon), (',', .comma)]

theorem punctuation?_mem {c : Char} {kind : TokenKind} (isOne : punctuation? c = some kind) :
    (c, kind) ∈ punctuation := by
  unfold punctuation
  unfold punctuation? at isOne
  grind

/-- Operators are what is left when no other rule applies to the first characters. -/
theorem phpLexeme_of_plain {c : Char} {rest : Text} (plain : isPlain c = true)
    (noOther : beginsOther (c :: rest) = false) :
    phpLexeme afterArrow (c :: rest) = operator (c :: rest) := by
  simp only [isPlain, Bool.and_eq_true, Bool.not_eq_true', Bool.or_eq_false_iff,
    Option.isNone_iff_eq_none] at plain
  obtain ⟨⟨⟨⟨⟨⟨⟨notSpace, notQuote⟩, notHash⟩, notDollar⟩, notBackslash⟩, notDigit⟩, notName⟩,
    notSingle⟩ := plain
  have apart {d e : Char} (taken : ∀ tail, beginsOther (d :: e :: tail) = true) :
      (c == d && startsWhere (· == e) rest) = false := by
    apply eq_false_of_ne_true
    intro holds
    obtain ⟨same, follows⟩ := Bool.and_eq_true_iff.mp holds
    obtain ⟨tail, rfl⟩ := startsWhere_beq follows
    rw [eq_of_beq same, taken tail] at noOther
    cases noOther
  have noFraction : (c == '.' && startsWhere Char.isDigit rest) = false := by
    apply eq_false_of_ne_true
    intro holds
    obtain ⟨same, follows⟩ := Bool.and_eq_true_iff.mp holds
    obtain ⟨d, tail, rfl, digit⟩ := startsWhere_true follows
    rw [eq_of_beq same] at noOther
    exact absurd digit (by simpa [beginsOther] using noOther)
  have noHead : ['<', '<', '<'].isPrefixOf (c :: rest) = true →
      heredocLexeme (c :: rest) = operator (c :: rest) := by
    intro angles
    obtain ⟨tail, same⟩ := List.isPrefixOf_iff_prefix.mp angles
    rw [← same] at noOther ⊢
    have missing : heredocHead? tail = none := by simpa [beginsOther] using noOther
    simp [heredocLexeme, missing]
  simp only [phpLexeme, notSpace, apart (d := '?') (e := '>') fun _ => rfl, notHash,
    apart (d := '/') (e := '/') fun _ => rfl, apart (d := '/') (e := '*') fun _ => rfl, notQuote,
    notDollar, notDigit, noFraction, notBackslash, notName, notSingle, Bool.false_eq_true,
    if_false, Bool.or_self]
  split
  · next angles => exact noHead angles
  · rfl

/-- The rule that applies is the one the scan follows. -/
theorem Rule.phpLexeme_eq {text : Text} {kind : TokenKind} {length : Nat}
    (rule : Rule afterArrow text kind length) : phpLexeme afterArrow text = (kind, length) := by
  cases rule with
  | space c rest isOne => simp only [phpLexeme, if_pos isOne]
  | close rest => rfl
  | attributeOpen rest => rfl
  | hash rest noBracket => simp [phpLexeme, noBracket, isSpace, Leap.lineComment_front]
  | slashes rest => simp [phpLexeme, isSpace, startsWhere, Leap.lineComment_front]
  | block rest => simp [phpLexeme, isSpace, startsWhere, Leap.blockComment_front]
  | string mark rest isOne =>
      rw [← Leap.quoted_front isOne mark rest]
      simp only [isQuote, Bool.or_eq_true, beq_iff_eq] at isOne
      rcases isOne with (rfl | rfl) | rfl <;> rfl
  | heredoc rest head found =>
      rw [← Leap.heredoc_front found '<' '<' '<']
      simp [phpLexeme, isSpace, isQuote, heredocLexeme, found]
  | variableName c rest begins => simp [phpLexeme, isSpace, isQuote, startsWhere, begins]
  | dollar rest noName => simp [phpLexeme, isSpace, isQuote, noName]
  | number c rest begins =>
      rcases begins with digit | ⟨rfl, digit⟩
      · have other := ne_of_class digit
        have notSpace := notSpace_of_class digit rfl
        have notQuote := notQuote_of_class digit rfl
        simp [phpLexeme, notSpace, notQuote, digit, other '?' rfl, other '#' rfl, other '/' rfl,
          other '$' rfl, (other '<' rfl).symm]
      · simp [phpLexeme, isSpace, isQuote, digit]
  | rooted c rest begins => simp [phpLexeme, isSpace, isQuote, startsWhere, begins]
  | separator rest noName => simp [phpLexeme, isSpace, isQuote, noName]
  | name c rest begins =>
      have other := ne_of_class begins
      have notSpace := notSpace_of_class begins (by decide)
      have notQuote := notQuote_of_class begins (by decide)
      have notDigit := notDigit_of_nameStart begins
      simp [phpLexeme, notSpace, notQuote, notDigit, begins, other '?' rfl, other '#' rfl,
        other '/' rfl, other '$' rfl, other '.' rfl, other '\\' rfl, (other '<' rfl).symm]
  | punctuation c rest kind isOne =>
      have member := punctuation?_mem isOne
      simp only [Scan.punctuation, List.mem_cons, List.not_mem_nil, or_false, Prod.mk.injEq]
        at member
      rcases member with ⟨rfl, rfl⟩ | ⟨rfl, rfl⟩ | ⟨rfl, rfl⟩ | ⟨rfl, rfl⟩ | ⟨rfl, rfl⟩ |
        ⟨rfl, rfl⟩ | ⟨rfl, rfl⟩ | ⟨rfl, rfl⟩ <;> rfl
  | operator c rest plain noOther => exact phpLexeme_of_plain plain noOther

/-- Outside PHP code a token is an open tag or the text before the next one. -/
theorem htmlLexeme_cons (c : Char) (rest : Text) :
    htmlLexeme (c :: rest) = (openTag? (c :: rest)).getD (.inlineHtml, 1 + inlineHtml rest) := by
  rw [htmlLexeme, Leap.html_front]

end Scan
end PhpWeave
