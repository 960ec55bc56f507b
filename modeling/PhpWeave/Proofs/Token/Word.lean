import PhpWeave.Proofs.Token.Symbol

set_option autoImplicit false

/-!
Words: the tokens that names and keywords are. Whatever rule makes a token of such a kind, the token
is made of name characters and backslashes, so it stands on one line.
-/

namespace PhpWeave

namespace Lexeme

def isWordChar (c : Char) : Bool := isNameChar c || c == '\\'

theorem isWordChar_of_mem_name {text : Text} :
    ∀ c ∈ text.take (name text), isWordChar c = true := by
  induction text with
  | nil => exact fun _ none => by cases none
  | cons first rest ih =>
      rw [name]
      split
      · next goesOn =>
          rw [Nat.add_comm, List.take_succ_cons]
          intro c member
          rcases List.mem_cons.mp member with rfl | later
          · unfold isWordChar
            rcases Bool.or_eq_true_iff.mp goesOn with named | both
            · rw [named, Bool.true_or]
            · rw [(Bool.and_eq_true_iff.mp both).1, Bool.or_true]
          · exact ih c later
      · exact fun _ none => by cases none

theorem name_of_named {word : Text} (named : ∀ c ∈ word, isNameChar c = true) :
    name word = word.length := by
  induction word with
  | nil => rfl
  | cons c word ih =>
      rw [name, named c List.mem_cons_self, Bool.true_or, if_pos rfl,
        ih fun d member => named d (List.mem_cons_of_mem c member), List.length_cons, Nat.add_comm]

theorem name_append {word : Text} (whole : name word = word.length) (rest : Text) :
    name (word ++ rest) = word.length + name rest := by
  induction word with
  | nil => exact (Nat.zero_add _).symm
  | cons c word ih =>
      rw [name, List.length_cons] at whole
      split at whole
      · next goesOn =>
          have further : (isNameChar c || (c == '\\' && startsWhere isNameStart (word ++ rest))) =
              true := by
            rcases Bool.or_eq_true_iff.mp goesOn with named | both
            · rw [named, Bool.true_or]
            · obtain ⟨d, tail, rfl, -⟩ := startsWhere_true (Bool.and_eq_true_iff.mp both).2
              exact goesOn
          rw [List.cons_append, name, if_pos further, ih (by omega), List.length_cons]
          omega
      · omega

theorem name_drop_name (text : Text) : name (text.drop (name text)) = 0 := by
  induction text with
  | nil => rfl
  | cons c rest ih =>
      rw [name]
      split
      · rw [Nat.add_comm, List.drop_succ_cons]
        exact ih
      · next stops => rw [List.drop_zero, name, if_neg stops]

theorem ne_newline_of_isWordChar {c : Char} (word : isWordChar c = true) : c ≠ '\n' := by
  rintro rfl
  exact absurd word (by decide)

/-- Whether a text is a name as a whole: a backslash stands only in front of the start of a part. -/
def IsName (text : Text) : Prop := name text = text.length

theorem isName_take_name (text : Text) : IsName (text.take (name text)) := by
  induction text with
  | nil => rfl
  | cons c rest ih =>
      rw [name]
      split
      · next goesOn =>
          rw [Nat.add_comm, List.take_succ_cons, IsName, name, List.length_cons, ih, Nat.add_comm]
          refine if_pos ?_
          rcases Bool.or_eq_true_iff.mp goesOn with named | both
          · rw [named, Bool.true_or]
          · obtain ⟨isSlash, begins⟩ := Bool.and_eq_true_iff.mp both
            obtain ⟨d, tail, rfl, starts⟩ := startsWhere_true begins
            obtain ⟨less, positive⟩ :=
              Nat.exists_eq_succ_of_ne_zero (Nat.ne_of_gt (name_pos starts tail))
            rw [isSlash, positive, List.take_succ_cons]
            simp [startsWhere, starts]
      · rfl

theorem IsName.oneLine {text : Text} (isName : IsName text) : '\n' ∉ text := by
  intro feed
  have word : ∀ c ∈ text.take (name text), isWordChar c = true := isWordChar_of_mem_name
  rw [isName, List.take_length] at word
  exact ne_newline_of_isWordChar (word _ feed) rfl

theorem IsName.append {front rest : Text} (isName : IsName front) (further : IsName rest) :
    IsName (front ++ rest) := by
  rw [IsName, name_append isName, further, List.length_append]

theorem IsName.behind {c : Char} {rest : Text} (isName : IsName (c :: rest)) : IsName rest := by
  rw [IsName, name, List.length_cons] at isName
  split at isName
  · exact Nat.add_left_cancel (isName.trans (Nat.add_comm _ _))
  · omega

theorem IsName.separated {rest : Text} (isName : IsName rest)
    (begins : startsWhere isNameStart rest = true) : IsName ('\\' :: rest) := by
  rw [IsName, name, begins, isName, List.length_cons, Nat.add_comm]
  rfl

theorem IsName.of_suffix {text rest : Text} (isName : IsName text) (suffix : rest <:+ text) :
    IsName rest := by
  induction text with
  | nil => rw [List.suffix_nil.mp suffix]; rfl
  | cons c text ih =>
      rcases List.suffix_cons_iff.mp suffix with rfl | further
      · exact isName
      · exact ih isName.behind further

theorem not_nameChar_of_name {rest : Text} (ends : name rest = 0) :
    startsWhere isNameChar rest = false := by
  cases rest with
  | nil => rfl
  | cons c tail =>
      rw [name] at ends
      split at ends
      · omega
      · next stops => exact (Bool.or_eq_false_iff.mp (eq_false_of_ne_true stops)).1

end Lexeme

namespace Scan

open Lexeme

/-- A word is a token where no name goes on behind it. -/
theorem word_lexeme {word rest : Text} (allNamed : word.all isNameChar = true)
    (begins : startsWhere isNameStart word = true) (ends : name rest = 0) :
    phpLexeme false (word ++ rest) = (TokenKind.ofWord word, word.length) := by
  have named : ∀ c ∈ word, isNameChar c = true := List.all_eq_true.mp allNamed
  have front : (word ++ rest).takeWhile isNameChar = word :=
    takeWhile_append_stop named (not_nameChar_of_name ends)
  have length : name (word ++ rest) = word.length := by
    rw [name_append (name_of_named named), ends, Nat.add_zero]
  have kind : nameKind false (word ++ rest) = TokenKind.ofWord word := by
    simp only [nameKind, front, length, Nat.lt_irrefl, if_false, Bool.false_eq_true]
  obtain ⟨c, tail, rfl, starts⟩ := startsWhere_true begins
  have rule : Rule false (c :: (tail ++ rest)) (nameKind false (c :: tail ++ rest))
      (name (c :: tail ++ rest)) := .name c _ starts
  rw [kind, length] at rule
  exact rule.phpLexeme_eq

theorem rooted_lexeme (arrow : Bool) {path rest : Text} (isName : IsName path)
    (begins : startsWhere isNameStart path = true) (ends : name rest = 0) :
    phpLexeme arrow ('\\' :: (path ++ rest)) = (.fullyQualifiedName, path.length + 1) := by
  obtain ⟨c, tail, rfl, starts⟩ := startsWhere_true begins
  have rule : Rule arrow ('\\' :: c :: (tail ++ rest)) .fullyQualifiedName
      (1 + name (c :: tail ++ rest)) := .rooted c _ starts
  rw [name_append isName, ends, Nat.add_zero, Nat.add_comm] at rule
  exact rule.phpLexeme_eq

theorem operator_isIdentifierLike (text : Text) : (operator text).1.isIdentifierLike = false := by
  have all : ∀ entry ∈ operators, entry.2.isIdentifierLike = false := by decide
  unfold operator
  split
  · next entry found => exact all entry (List.mem_of_find?_eq_some found)
  · rfl

theorem blockCommentKind_isIdentifierLike (text : Text) :
    (blockCommentKind text).isIdentifierLike = false := by
  unfold blockCommentKind
  split
  · split <;> rfl
  · rfl

theorem Rule.isName {afterArrow : Bool} {text : Text} {kind : TokenKind} {length : Nat}
    (rule : Rule afterArrow text kind length) (isOne : kind.isIdentifierLike = true) :
    IsName (text.take length) ∧
      (kind ≠ .fullyQualifiedName → startsWhere isNameStart (text.take length) = true) := by
  have starts {c : Char} (begins : isNameStart c = true) (rest : Text) :
      startsWhere isNameStart ((c :: rest).take (Lexeme.name (c :: rest))) = true := by
    obtain ⟨less, positive⟩ :=
      Nat.exists_eq_succ_of_ne_zero (Nat.ne_of_gt (name_pos begins rest))
    rw [positive, List.take_succ_cons]
    exact begins
  cases rule with
  | name c rest begins => exact ⟨isName_take_name _, fun _ => starts begins rest⟩
  | rooted c rest begins =>
      refine ⟨?_, fun other => absurd rfl other⟩
      rw [Nat.add_comm, List.take_succ_cons]
      exact (isName_take_name _).separated (starts begins rest)
  | block rest =>
      rw [blockCommentKind_isIdentifierLike] at isOne
      cases isOne
  | operator c rest =>
      rw [operator_isIdentifierLike] at isOne
      cases isOne
  | punctuation c rest kind single =>
      have all : ∀ entry ∈ Scan.punctuation, entry.2.isIdentifierLike = false := by decide
      rw [all (c, kind) (punctuation?_mem single)] at isOne
      cases isOne
  | space | close | attributeOpen | hash | slashes | string | heredoc | variableName | dollar
  | number | separator => cases isOne

theorem rule_at {mode : Mode} {source : Text} {tokens : Tokens}
    (scanned : tokens = (scan mode source).toArray) {index : Nat} {token : Token}
    (here : tokens[index]? = some token) (code : token.kind.isMarkup = false) :
    ∃ text, Rule (tokens.prevKind index == some .arrow ||
        tokens.prevKind index == some .nullsafeArrow) text token.kind token.text.length ∧
      text.take token.text.length = token.text := by
  subst scanned
  rw [List.getElem?_toArray] at here
  obtain ⟨inside, isOne⟩ := List.getElem?_eq_some_iff.mp here
  have cut : scan mode source =
      (scan mode source).take index ++ token :: (scan mode source).drop (index + 1) := by
    rw [← isOne, ← List.drop_eq_getElem_cons inside, List.take_append_drop]
  have arrows := afterArrow_eq (State.start mode) rfl (scan mode source).toArray
    (Nat.le_of_lt inside)
  rw [scan_eq] at cut
  obtain ⟨-, resumed⟩ := tokensFrom_resume cut
  rw [← scan_eq] at resumed
  generalize (scan mode source).drop (index + 1) = after at resumed
  have nonempty : Token.textOf (token :: after) ≠ [] := by
    intro empty
    rw [empty] at resumed
    cases resumed
  rw [tokensFrom_step _ nonempty, List.cons.injEq] at resumed
  have made := resumed.1
  rw [← arrows]
  generalize ((scan mode source).take index).foldl State.after (State.start mode) = state at made ⊢
  generalize Token.textOf (token :: after) = text at made nonempty
  subst made
  refine ⟨text, rule_of_code nonempty code, ?_⟩
  rw [token_text_length state nonempty]
  rfl

theorem rule_of_mem {mode : Mode} {source : Text} {token : Token}
    (member : token ∈ scan mode source) (code : token.kind.isMarkup = false) :
    ∃ afterArrow text, Rule afterArrow text token.kind token.text.length ∧
      text.take token.text.length = token.text := by
  obtain ⟨index, here⟩ := List.mem_iff_getElem?.mp member
  rw [← List.getElem?_toArray] at here
  exact ⟨_, rule_at rfl here code⟩

/-- A keyword is spelled as the table of keywords says, and no arrow stands in front of it. -/
theorem Rule.ofWord {afterArrow : Bool} {text : Text} {kind : TokenKind} {length : Nat}
    (rule : Rule afterArrow text kind length) (isOne : kind.isKeyword = true) :
    TokenKind.ofWord (text.take length) = kind ∧ afterArrow = false := by
  have like : kind.isIdentifierLike = true := by
    rw [TokenKind.isIdentifierLike, isOne, Bool.or_true]
  cases rule with
  | name c rest begins =>
      unfold nameKind at isOne ⊢
      simp only at isOne ⊢
      split at isOne
      · split at isOne <;> cases isOne
      · next whole =>
          split at isOne
          · cases isOne
          · next plain =>
              have length : Lexeme.name (c :: rest) = run isNameChar (c :: rest) :=
                Nat.le_antisymm (Nat.le_of_not_lt whole) (run_le_name (c :: rest))
              have word : (c :: rest).take (run isNameChar (c :: rest)) =
                  (c :: rest).takeWhile isNameChar :=
                (List.prefix_iff_eq_take.mp (List.takeWhile_prefix isNameChar)).symm
              rw [if_neg whole, if_neg plain, length, word]
              exact ⟨rfl, eq_false_of_ne_true plain⟩
  | block rest =>
      rw [blockCommentKind_isIdentifierLike] at like
      cases like
  | operator c rest =>
      rw [operator_isIdentifierLike] at like
      cases like
  | punctuation c rest kind single =>
      have all : ∀ entry ∈ Scan.punctuation, entry.2.isIdentifierLike = false := by decide
      rw [all (c, kind) (punctuation?_mem single)] at like
      cases like
  | space | close | attributeOpen | hash | slashes | string | heredoc | variableName | dollar
  | number | separator | rooted => cases isOne

theorem isMarkup_of_isKeyword {kind : TokenKind} (isOne : kind.isKeyword = true) :
    kind.isMarkup = false := by
  cases kind <;> first | rfl | cases isOne

theorem ofWord_of_mem {mode : Mode} {source : Text} {token : Token}
    (member : token ∈ scan mode source) (isOne : token.kind.isKeyword = true) :
    TokenKind.ofWord token.text = token.kind := by
  obtain ⟨afterArrow, text, rule, spelled⟩ := rule_of_mem member (isMarkup_of_isKeyword isOne)
  rw [← (rule.ofWord isOne).1, spelled]

theorem Rule.arrow_of_word {afterArrow : Bool} {text : Text} {length : Nat}
    (rule : Rule afterArrow text .identifier length)
    (word : TokenKind.ofWord (text.take length) ≠ .identifier) : afterArrow = true := by
  generalize kind : TokenKind.identifier = found at rule
  cases rule with
  | name c rest begins =>
      unfold nameKind at kind
      simp only at kind
      split at kind
      · split at kind <;> cases kind
      · next whole =>
          split at kind
          · assumption
          · have length : Lexeme.name (c :: rest) = run isNameChar (c :: rest) :=
              Nat.le_antisymm (Nat.le_of_not_lt whole) (run_le_name (c :: rest))
            have front : (c :: rest).take (run isNameChar (c :: rest)) =
                (c :: rest).takeWhile isNameChar :=
              (List.prefix_iff_eq_take.mp (List.takeWhile_prefix isNameChar)).symm
            rw [length, front] at word
            exact absurd kind.symm word
  | block rest =>
      have other := blockCommentKind_isIdentifierLike (rest)
      rw [← kind] at other
      cases other
  | operator c rest =>
      have other := operator_isIdentifierLike (c :: rest)
      rw [← kind] at other
      cases other
  | punctuation c rest _ single =>
      have all : ∀ entry ∈ Scan.punctuation, entry.2 ≠ .identifier := by decide
      exact absurd kind.symm (all _ (punctuation?_mem single))
  | space | close | attributeOpen | hash | slashes | string | heredoc | variableName | dollar
  | number | separator | rooted => cases kind

theorem isMemberName_of_word {mode : Mode} {source : Text} {tokens : Tokens}
    (scanned : tokens = (scan mode source).toArray) {index : Nat} {token : Token}
    (here : tokens[index]? = some token) (isOne : token.kind = .identifier)
    (word : TokenKind.ofWord token.text ≠ .identifier) :
    (tokens.prevKind index).map TokenKind.isMemberAccess = some true := by
  obtain ⟨text, rule, spelled⟩ := rule_at scanned here (by rw [isOne]; rfl)
  rw [isOne] at rule
  have arrows := rule.arrow_of_word (by rw [spelled]; exact word)
  rw [Bool.or_eq_true, beq_iff_eq, beq_iff_eq] at arrows
  rcases arrows with isArrow | isArrow
  · rw [isArrow]
    rfl
  · rw [isArrow]
    rfl

/-- A word behind an arrow is never a keyword. -/
theorem keyword_apart {mode : Mode} {source : Text} {tokens : Tokens}
    (scanned : tokens = (scan mode source).toArray) {index : Nat} {kind : TokenKind}
    (here : tokens.kindAt index = some kind) (isOne : kind.isKeyword = true) :
    tokens.prevKind index ≠ some .arrow ∧ tokens.prevKind index ≠ some .nullsafeArrow := by
  obtain ⟨token, found, rfl⟩ := Tokens.kindAt_eq_some.mp here
  obtain ⟨text, rule, -⟩ := rule_at scanned found (isMarkup_of_isKeyword isOne)
  have apart := (rule.ofWord isOne).2
  rw [Bool.or_eq_false_iff, beq_eq_false_iff_ne, beq_eq_false_iff_ne] at apart
  exact apart

end Scan

/-- Whether the words of a token list are names, which begin with a part unless a backslash in front
makes them complete. -/
def Worded (tokens : Tokens) : Prop :=
  ∀ token ∈ tokens, token.kind.isIdentifierLike = true → Lexeme.IsName token.text ∧
    (token.kind ≠ .fullyQualifiedName →
      Lexeme.startsWhere Lexeme.isNameStart token.text = true)

theorem worded_scan (mode : Mode) (source : Text) : Worded (scan mode source).toArray := by
  intro token member isOne
  rw [List.mem_toArray] at member
  have code : token.kind.isMarkup = false := by
    cases kind : token.kind <;> rw [kind] at isOne <;> first | rfl | cases isOne
  obtain ⟨afterArrow, text, rule, spelled⟩ := Scan.rule_of_mem member code
  rw [← spelled]
  exact rule.isName isOne

theorem Worded.oneLine {tokens : Tokens} (worded : Worded tokens) {token : Token}
    (member : token ∈ tokens) (isOne : token.kind.isIdentifierLike = true) : '\n' ∉ token.text :=
  (worded token member isOne).1.oneLine

end PhpWeave
