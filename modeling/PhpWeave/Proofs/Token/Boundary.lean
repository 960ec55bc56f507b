import PhpWeave.Proofs.Token.Bytewise

set_option autoImplicit false

/-!
A scan of the bytes of a text cuts where the scan of its characters does. Rule by rule, the token at
the front of the bytes is the token at the front of the characters, and what both scans remember
after it is the same.
-/

namespace PhpWeave

open Text

/-- The token that a reader of bytes sees. -/
def Token.bytewise (token : Token) : Token := { token with text := Text.bytewise token.text }

namespace Scan

open Lexeme

variable {afterArrow : Bool}

/-! ### Rules -/

private theorem narrow_of_nameless {c : Char} (nameless : isNameStart c = false) :
    isWide c = false :=
  eq_false_of_ne_true fun wide => by
    rw [isNameStart_wide wide] at nameless
    cases nameless

private theorem beginsOther_bytewise {c : Char} {rest : Text}
    (noOther : beginsOther (c :: rest) = false) :
    beginsOther (bytewise (c :: rest)) = false := by
  apply eq_false_of_ne_true
  intro other
  generalize c :: rest = text at noOther other
  unfold beginsOther at other
  split at other
  · next tail same =>
      obtain ⟨after, rfl, -⟩ := bytewise_eq_append ['?', '>'] rfl same
      cases noOther
  · next tail same =>
      obtain ⟨after, rfl, -⟩ := bytewise_eq_append ['/', '/'] rfl same
      cases noOther
  · next tail same =>
      obtain ⟨after, rfl, -⟩ := bytewise_eq_append ['/', '*'] rfl same
      cases noOther
  · next d tail same =>
      obtain ⟨after, rfl, bytes⟩ := bytewise_eq_append ['.'] rfl same
      have digit : startsWhere Char.isDigit (bytewise after) = true := by
        rw [← bytes]
        exact other
      rw [startsWhere_bytewise uniform_isDigit] at digit
      obtain ⟨e, after, rfl, isOne⟩ := startsWhere_true digit
      change e.isDigit = false at noOther
      rw [isOne] at noOther
      cases noOther
  · next tail same =>
      obtain ⟨after, rfl, bytes⟩ := bytewise_eq_append ['<', '<', '<'] rfl same
      rw [bytes, heredocHead?_bytewise, Option.isSome_map] at other
      change (heredocHead? after).isSome = false at noOther
      rw [other] at noOther
      cases noOther
  · cases other

private theorem isPlain_narrow {c : Char} (plain : isPlain c = true) : isWide c = false := by
  simp only [isPlain, Bool.and_eq_true, Bool.not_eq_true', Bool.or_eq_false_iff] at plain
  exact narrow_of_nameless plain.1.2

theorem Rule.bytewise {text : Text} {kind : TokenKind} {length : Nat}
    (rule : Rule afterArrow text kind length) :
    Rule afterArrow (Text.bytewise text) kind (offset length text) := by
  cases rule with
  | space c rest isOne =>
      rw [← run_bytewise uniform_isSpace,
        bytewise_cons_narrow (narrow_of_class isSpace_wide isOne)]
      exact .space c _ isOne
  | close rest =>
      have length : offset (closeTag rest) ('?' :: '>' :: rest) =
          closeTag (Text.bytewise rest) := by
        rw [closeTag, closeTag, lineBreak_bytewise, Nat.add_comm, offset_succ_narrow rfl,
          offset_succ_narrow rfl, offset_lineBreak]
        omega
      rw [length]
      exact .close (Text.bytewise rest)
  | attributeOpen rest => exact .attributeOpen (Text.bytewise rest)
  | hash rest noBracket =>
      rw [bytewise_cons_narrow rfl, offset_one_add rfl, ← lineComment_bytewise]
      apply Rule.hash
      rw [startsWhere_bytewise (uniform_beq rfl)]
      exact noBracket
  | slashes rest =>
      rw [bytewise_cons_narrow rfl, offset_one_add rfl, ← lineComment_bytewise,
        bytewise_cons_narrow rfl]
      exact .slashes (Text.bytewise rest)
  | block rest =>
      have length : offset (2 + blockComment rest) ('/' :: '*' :: rest) =
          2 + blockComment (Text.bytewise rest) := by
        rw [blockComment_bytewise, Nat.add_comm, offset_succ_narrow rfl, offset_succ_narrow rfl]
        omega
      rw [length, ← blockCommentKind_bytewise]
      exact .block (Text.bytewise rest)
  | string mark rest isOne =>
      have narrow := narrow_of_class isQuote_wide isOne
      rw [bytewise_cons_narrow narrow, offset_one_add narrow, ← quoted_bytewise isOne]
      exact .string mark _ isOne
  | heredoc rest head found =>
      have read := heredocHead?_bytewise rest
      rw [found, Option.map_some] at read
      have length : offset (3 + head.length + heredocBody head.label true (rest.drop head.length))
          ('<' :: '<' :: '<' :: rest) =
          3 + offset head.length rest + heredocBody (Text.bytewise head.label) true
            ((Text.bytewise rest).drop (offset head.length rest)) := by
        rw [bytewise_drop, heredocBody_bytewise, Nat.add_assoc, Nat.add_assoc, ← offset_add,
          Nat.add_comm 3, offset_succ_narrow rfl, offset_succ_narrow rfl, offset_succ_narrow rfl]
        omega
      rw [length]
      exact .heredoc (Text.bytewise rest) ⟨Text.bytewise head.label, offset head.length rest⟩ read
  | variableName c rest begins =>
      obtain ⟨u, more, bytes, same⟩ := uniform_isNameStart.bytewise_cons c rest
      rw [bytewise_cons_narrow rfl, offset_one_add rfl, ← run_bytewise uniform_isNameChar, bytes]
      exact .variableName u more (same.trans begins)
  | dollar rest noName =>
      rw [bytewise_cons_narrow rfl, offset_one rfl]
      apply Rule.dollar
      rw [startsWhere_bytewise uniform_isNameStart]
      exact noName
  | number c rest begins =>
      have narrow : isWide c = false := by
        rcases begins with digit | ⟨rfl, -⟩
        · exact narrow_of_class isDigit_wide digit
        · rfl
      rw [← number_bytewise, bytewise_cons_narrow narrow]
      apply Rule.number
      rw [startsWhere_bytewise uniform_isDigit]
      exact begins
  | rooted c rest begins =>
      obtain ⟨u, more, bytes, same⟩ := uniform_isNameStart.bytewise_cons c rest
      rw [bytewise_cons_narrow rfl, offset_one_add rfl, ← name_bytewise, bytes]
      exact .rooted u more (same.trans begins)
  | separator rest noName =>
      rw [bytewise_cons_narrow rfl, offset_one rfl]
      apply Rule.separator
      rw [startsWhere_bytewise uniform_isNameStart]
      exact noName
  | name c rest begins =>
      obtain ⟨u, more, bytes, same⟩ := uniform_isNameStart.bytewise_cons c rest
      rw [← name_bytewise, ← nameKind_bytewise, bytes]
      exact .name u more (same.trans begins)
  | punctuation c rest kind isOne =>
      have narrow : isWide c = false := by
        have member := punctuation?_mem isOne
        have all : ∀ entry ∈ Scan.punctuation, isWide entry.1 = false := by decide
        exact all _ member
      rw [bytewise_cons_narrow narrow, offset_one narrow]
      exact .punctuation c _ kind isOne
  | operator c rest plain noOther =>
      have narrow := isPlain_narrow plain
      have read := operator_bytewise narrow rest
      have other := beginsOther_bytewise noOther
      rw [bytewise_cons_narrow narrow] at read other ⊢
      have kind : (Lexeme.operator (c :: Text.bytewise rest)).1 =
          (Lexeme.operator (c :: rest)).1 := by rw [read]
      have length : (Lexeme.operator (c :: Text.bytewise rest)).2 =
          offset (Lexeme.operator (c :: rest)).2 (c :: rest) := by rw [read]
      rw [← kind, ← length]
      exact .operator c _ plain other

/-! ### Scans -/

private theorem htmlLexeme_eq (c : Char) (rest : Text) :
    htmlLexeme (c :: rest) = (openTag? (c :: rest)).getD (.inlineHtml, inlineHtml (c :: rest)) := by
  cases tag : openTag? (c :: rest) with
  | some found => rw [htmlLexeme_cons, tag, Option.getD_some, Option.getD_some]
  | none =>
      rw [htmlLexeme_cons, inlineHtml, tag]
      rfl

theorem htmlLexeme_bytewise (text : Text) :
    htmlLexeme (Text.bytewise text) = ((htmlLexeme text).1, offset (htmlLexeme text).2 text) := by
  cases text with
  | nil => rfl
  | cons c rest =>
      have read : htmlLexeme (Text.bytewise (c :: rest)) =
          (openTag? (Text.bytewise (c :: rest))).getD
            (.inlineHtml, inlineHtml (Text.bytewise (c :: rest))) := by
        cases bytes : Text.bytewise (c :: rest) with
        | nil => exact absurd (bytewise_eq_nil.mp bytes) (List.cons_ne_nil c rest)
        | cons u more => exact htmlLexeme_eq u more
      rw [read, htmlLexeme_eq, openTag?_bytewise, inlineHtml_bytewise]
      cases tag : openTag? (c :: rest) with
      | none => rfl
      | some found => rw [Option.getD_some, Option.getD_some, offset_openTag? tag]

theorem State.lexeme_bytewise (state : State) (text : Text) :
    state.lexeme (Text.bytewise text) =
      ((state.lexeme text).1, offset (state.lexeme text).2 text) := by
  unfold State.lexeme
  cases state.mode with
  | html => exact htmlLexeme_bytewise text
  | php =>
      cases text with
      | nil => rfl
      | cons c rest =>
          have rule : Rule state.afterArrow (c :: rest) (phpLexeme state.afterArrow (c :: rest)).1
              (phpLexeme state.afterArrow (c :: rest)).2 := rule_of_phpLexeme rfl
          exact rule.bytewise.phpLexeme_eq

theorem State.token_bytewise (state : State) (text : Text) :
    state.token (Text.bytewise text) = (state.token text).bytewise := by
  simp only [State.token, state.lexeme_bytewise, bytewise_take, Token.bytewise]

theorem State.after_bytewise (state : State) (token : Token) :
    state.after token.bytewise = state.after token := by
  simp only [State.after, Token.bytewise, newlines_bytewise]
  rfl

theorem tokensFrom_bytewise (state : State) (text : Text) :
    tokensFrom state (Text.bytewise text) = (tokensFrom state text).map Token.bytewise := by
  induction length : text.length using Nat.strongRecOn generalizing state text with
  | ind size ih =>
      by_cases empty : text = []
      · rw [empty]
        rfl
      · have filled : Text.bytewise text ≠ [] := fun none => empty (bytewise_eq_nil.mp none)
        have bounds := state.lexeme_bounds empty
        have shorter : (text.drop (state.token text).text.length).length < size := by
          rw [List.length_drop, token_text_length state empty]
          omega
        have dropped : (Text.bytewise text).drop (state.token (Text.bytewise text)).text.length =
            Text.bytewise (text.drop (state.token text).text.length) := by
          rw [token_text_length state filled, token_text_length state empty, state.lexeme_bytewise,
            bytewise_drop]
        rw [tokensFrom_step state filled, dropped, state.token_bytewise, state.after_bytewise,
          ih _ shorter _ _ rfl, tokensFrom_step state empty, List.map_cons]

/-- Whether a number of bytes is that of some first characters of a text. -/
def IsBoundary (text : Text) (bytes : Nat) : Prop :=
  ∃ count, count ≤ text.length ∧ bytes = offset count text

theorem isBoundary_of_append (front rest : Text) :
    IsBoundary (front ++ rest) (Text.bytewise front).length := by
  refine ⟨front.length, ?_, (offset_length front rest).symm⟩
  rw [List.length_append]
  exact Nat.le_add_right _ _

theorem textOf_bytewise (tokens : List Token) :
    Token.textOf (tokens.map Token.bytewise) = Text.bytewise (Token.textOf tokens) := by
  induction tokens with
  | nil => rfl
  | cons token rest ih =>
      rw [List.map_cons, Token.textOf_cons, Token.textOf_cons, ih, bytewise_append]
      rfl

/-- A scan by bytes ends with every byte in a token. Each step takes a part of what remains that is
not empty and ends between two characters, as does the first word of it, which is looked up as a
keyword. So every token begins and ends between two characters of the source. -/
theorem scan_cuts_between_characters (mode : Mode) (source : Text) :
    (∀ fuel, (Text.bytewise source).length ≤ fuel →
      tokensWithin fuel (State.start mode) (Text.bytewise source) =
        scan mode (Text.bytewise source)) ∧
    (∀ (state : State) (rest : Text), rest ≠ [] →
      0 < (state.lexeme (Text.bytewise rest)).2 ∧
        (state.lexeme (Text.bytewise rest)).2 ≤ (Text.bytewise rest).length ∧
        IsBoundary rest (state.lexeme (Text.bytewise rest)).2) ∧
    (∀ rest : Text, IsBoundary rest (run isNameChar (Text.bytewise rest))) ∧
    Token.textOf (scan mode (Text.bytewise source)) = Text.bytewise source ∧
    Token.textOf (scan mode source) = source ∧
    scan mode (Text.bytewise source) = (scan mode source).map Token.bytewise ∧
    ∀ before token after, scan mode (Text.bytewise source) = before ++ token :: after →
      token.text ≠ [] ∧ IsBoundary source (Token.textOf before).length ∧
        IsBoundary source ((Token.textOf before).length + token.text.length) := by
  have cuts : scan mode (Text.bytewise source) = (scan mode source).map Token.bytewise :=
    tokensFrom_bytewise (State.start mode) source
  have spelled : Token.textOf (scan mode source) = source :=
    (tokensFrom_spells (State.start mode) source).1
  obtain ⟨spelledBytes, filled⟩ := tokensFrom_spells (State.start mode) (Text.bytewise source)
  refine ⟨fun fuel enough => tokensWithin_eq fuel _ _ enough, ?_,
    fun rest => ⟨_, run_le isNameChar rest, run_bytewise uniform_isNameChar rest⟩, spelledBytes,
    spelled, cuts, ?_⟩
  · intro state rest nonempty
    have remains : Text.bytewise rest ≠ [] := fun none => nonempty (bytewise_eq_nil.mp none)
    obtain ⟨positive, inside⟩ := state.lexeme_bounds remains
    refine ⟨positive, inside, (state.lexeme rest).2, (state.lexeme_bounds nonempty).2, ?_⟩
    rw [state.lexeme_bytewise]
  · intro before token after cut
    refine ⟨filled token (by rw [← scan_eq, cut]; simp), ?_⟩
    rw [cuts] at cut
    obtain ⟨first, later, same, rfl, tail⟩ := List.map_eq_append_iff.mp cut
    obtain ⟨one, rest, rfl, rfl, rfl⟩ := List.map_eq_cons_iff.mp tail
    rw [same, Token.textOf_append] at spelled
    constructor
    · rw [textOf_bytewise, ← spelled]
      exact isBoundary_of_append _ _
    · have whole : (Token.textOf (first.map Token.bytewise)).length + one.bytewise.text.length =
          (Text.bytewise (Token.textOf first ++ one.text)).length := by
        rw [textOf_bytewise, bytewise_append, List.length_append]
        rfl
      rw [whole, ← spelled, Token.textOf_cons, ← List.append_assoc]
      exact isBoundary_of_append _ _

end Scan
end PhpWeave
