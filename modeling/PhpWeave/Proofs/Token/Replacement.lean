import PhpWeave.Proofs.Token.Fork
import PhpWeave.Proofs.Token.Rescan
import PhpWeave.Proofs.Token.Word

set_option autoImplicit false

/-!
Names and braces replaced by other tokens. When some of the names and the opening braces of a text
give way to texts that begin with a mark, a scan of what comes out finds the tokens that stayed and
the tokens that were put in, and no others: nothing that stayed runs into a text put in, and no text
put in runs into what follows it.
-/

namespace PhpWeave.Scan

open Lexeme

/-- What a token is, without its line. -/
abbrev Shape := TokenKind × Text

def spell (shapes : List Shape) : Text := shapes.flatMap Prod.snd

theorem spell_append (left right : List Shape) :
    spell (left ++ right) = spell left ++ spell right :=
  List.flatMap_append

theorem spell_shapes (tokens : List Token) : spell (tokens.map shape) = Token.textOf tokens := by
  rw [spell, List.flatMap_map]
  rfl

/-! ### Cuts of a scan -/

theorem scan_cons {state : State} {token : Token} {tokens : List Token}
    (cut : tokensFrom state (Token.textOf (token :: tokens)) = token :: tokens) :
    state.token (Token.textOf (token :: tokens)) = token ∧ token.text ≠ [] ∧
      (state.lexeme (Token.textOf (token :: tokens))).2 = token.text.length ∧
      tokensFrom (state.after token) (Token.textOf tokens) = tokens := by
  have nonempty : Token.textOf (token :: tokens) ≠ [] := by
    intro empty
    rw [empty] at cut
    cases cut
  have size := token_text_length state nonempty
  have filled := token_text_ne_nil state nonempty
  rw [tokensFrom_step state nonempty, List.cons.injEq] at cut
  obtain ⟨made, next⟩ := cut
  rw [made] at size filled next
  rw [Token.textOf_cons, List.drop_left] at next
  exact ⟨made, filled, size.symm, next⟩

/-- A scan that is cut behind some text begins with the token there, which lies in that text. -/
theorem cut_lexeme {state : State} {front rest : Text} {before after : List Token}
    {kind : TokenKind} {length : Nat} (php : state.mode = .php) (filled : front ≠ [])
    (lexeme : phpLexeme state.afterArrow (front ++ rest) = (kind, length))
    (cut : tokensFrom state (front ++ rest) = before ++ after)
    (spelled : Token.textOf before = front) :
    length ≤ front.length ∧ ∃ (next : State) (later : List Token),
      next.mode = modeAfter .php kind ∧
        tokensFrom next (front.drop length ++ rest) = later ++ after ∧
        Token.textOf later = front.drop length := by
  have nonempty : front ++ rest ≠ [] := by simp [filled]
  have found : state.lexeme (front ++ rest) = (kind, length) := by
    simp only [State.lexeme, php, lexeme]
  have size := token_text_length state nonempty
  have sameKind : (state.token (front ++ rest)).kind = kind := by simp only [State.token, found]
  rw [found] at size
  rw [tokensFrom_step state nonempty, size] at cut
  cases before with
  | nil => exact absurd spelled.symm filled
  | cons token later =>
      rw [List.cons_append, List.cons.injEq] at cut
      obtain ⟨same, cut⟩ := cut
      rw [same] at size sameKind cut
      change token.text.length = length at size
      have enough : length ≤ front.length := by
        rw [← spelled, Token.textOf_cons, List.length_append, size]
        omega
      rw [List.drop_append_of_le_length enough] at cut
      refine ⟨enough, state.after token, later, ?_, cut, ?_⟩
      · simp only [State.after, php, sameKind]
      · rw [← spelled, Token.textOf_cons, ← size, List.drop_left]

theorem length_lt_enclosed {label rest : Text} (named : ∀ c ∈ label, isNameChar c = true)
    (filled : rest ≠ []) : label.length < enclosed [.quote '\''] .plain (label ++ rest) := by
  induction label with
  | nil =>
      cases rest with
      | nil => exact absurd rfl filled
      | cons c tail =>
          rw [List.nil_append, enclosed, List.length_nil]
          omega
  | cons c label ih =>
      have other := ne_of_class (named c List.mem_cons_self)
      have step : enclosureStep (.quote '\'') [] .plain c = ([.quote '\''], .plain) := by
        simp [enclosureStep, quoteStep, other '\\' rfl, other '\'' rfl, other '$' rfl]
      have more := ih fun d member => named d (List.mem_cons_of_mem c member)
      rw [List.cons_append, enclosed, step, List.length_cons]
      change label.length + 1 < 1 + enclosed [.quote '\''] .plain (label ++ rest)
      omega

theorem not_cut_in_string {state : State} {label rest : Text} {before after : List Token}
    (php : state.mode = .php) (named : ∀ c ∈ label, isNameChar c = true) (filled : rest ≠ [])
    (cut : tokensFrom state ('\'' :: label ++ rest) = before ++ after)
    (spelled : Token.textOf before = '\'' :: label) : False := by
  have rule : Rule state.afterArrow ('\'' :: (label ++ rest)) _ _ :=
    .string '\'' (label ++ rest) rfl
  have inside := (cut_lexeme php (List.cons_ne_nil _ _) rule.phpLexeme_eq cut spelled).1
  have beyond := length_lt_enclosed named filled
  rw [List.length_cons, quoted] at inside
  omega

theorem not_cut_behind_blanks {state : State} {indent label rest : Text} {before after : List Token}
    (php : state.mode = .php) (blank : ∀ c ∈ indent, isIndent c = true)
    (named : ∀ c ∈ label, isNameChar c = true) (filled : rest ≠ [])
    (cut : tokensFrom state (indent ++ '\'' :: label ++ rest) = before ++ after)
    (spelled : Token.textOf before = indent ++ '\'' :: label) : False := by
  cases indent with
  | nil => exact not_cut_in_string php named filled cut spelled
  | cons c indent =>
      have isBlank (d : Char) (member : d ∈ c :: indent) : isSpace d = true := by
        have among := blank d member
        simp only [isIndent, Bool.or_eq_true, beq_iff_eq] at among
        rcases among with rfl | rfl <;> rfl
      have whole : run isSpace ((c :: indent ++ '\'' :: label) ++ rest) = (c :: indent).length := by
        rw [run, List.append_assoc, takeWhile_append_stop isBlank rfl]
      have rule : Rule state.afterArrow ((c :: indent ++ '\'' :: label) ++ rest) .whitespace
          (run isSpace ((c :: indent ++ '\'' :: label) ++ rest)) :=
        .space c _ (isBlank c List.mem_cons_self)
      rw [whole] at rule
      obtain ⟨-, next, later, php, cut, spelled⟩ :=
        cut_lexeme php (List.cons_ne_nil _ _) rule.phpLexeme_eq cut spelled
      have dropped : List.drop (c :: indent).length (c :: indent.append ('\'' :: label)) =
          '\'' :: label := List.drop_left
      rw [dropped] at cut spelled
      exact not_cut_in_string php named filled cut spelled

theorem not_cut_behind_brackets {state : State} {indent label rest : Text}
    {before after : List Token} (php : state.mode = .php) (blank : ∀ c ∈ indent, isIndent c = true)
    (named : ∀ c ∈ label, isNameChar c = true) (filled : rest ≠ [])
    (none : heredocHead? (indent ++ '\'' :: label ++ rest) = none)
    (cut : tokensFrom state ('<' :: '<' :: '<' :: (indent ++ '\'' :: label) ++ rest) =
      before ++ after)
    (spelled : Token.textOf before = '<' :: '<' :: '<' :: (indent ++ '\'' :: label)) : False := by
  have brackets : phpLexeme state.afterArrow
      ('<' :: '<' :: '<' :: (indent ++ '\'' :: label) ++ rest) = (.operator, 2) := by
    rw [List.cons_append, List.cons_append, List.cons_append, phpLexeme]
    simp only [heredocLexeme, List.drop_succ_cons, List.drop_zero, none]
    rfl
  obtain ⟨-, second, later, php, cut, spelled⟩ :=
    cut_lexeme php (List.cons_ne_nil _ _) brackets cut spelled
  change tokensFrom second ('<' :: (indent ++ '\'' :: label) ++ rest) = later ++ after at cut
  change Token.textOf later = '<' :: (indent ++ '\'' :: label) at spelled
  have single : phpLexeme second.afterArrow ('<' :: (indent ++ '\'' :: label) ++ rest) =
      (.operator, 1) := by
    cases indent with
    | nil => rfl
    | cons c indent =>
        have isBlank := blank c List.mem_cons_self
        simp only [isIndent, Bool.or_eq_true, beq_iff_eq] at isBlank
        rcases isBlank with rfl | rfl <;> rfl
  obtain ⟨-, third, later, php, cut, spelled⟩ :=
    cut_lexeme php (List.cons_ne_nil _ _) single cut spelled
  exact not_cut_behind_blanks php blank named filled cut spelled

/-! ### Heredocs -/

/-- Where a fork brings out the head of a heredoc, a quoted word stands there or ends there. -/
theorem quote_of_head {left right front : Text} {head : Head} (forks : Forks left right)
    (none : heredocHead? (front ++ left) = none)
    (found : heredocHead? (front ++ right) = some head) :
    (∀ c ∈ front, isIndent c = true) ∧ (∃ label tail, right = '\'' :: (label ++ '\'' :: tail) ∧
        (∀ c ∈ label, isNameChar c = true) ∧ lineBreak tail ≠ 0) ∨
      ∃ indent label, front = indent ++ '\'' :: label ∧ (∀ c ∈ indent, isIndent c = true) ∧
        ∀ c ∈ label, isNameChar c = true := by
  obtain ⟨parts, more, spelled⟩ := headParts_of_heredocHead? found
  -- The head reaches beyond the fork, or it would be read on the other side as well.
  have beyond : ¬ parts.spelling <+: front := by
    rintro ⟨rest, rfl⟩
    rw [List.append_assoc, parts.heredocHead?_eq] at none
    cases none
  have breaks : ∀ c ∈ parts.ending, (c == '\r' || c == '\n') = true := by
    rcases parts.breaks with line | line <;> rw [line] <;> simp
  rw [HeadParts.spelling] at beyond
  simp only [HeadParts.spelling, List.append_assoc] at spelled
  obtain ⟨inMark, rfl, atMark⟩ := forks.peel spelled parts.blank (by decide)
  rcases parts.quoting with bare | single | double
  · rw [bare] at beyond
    rw [bare, List.nil_append, List.nil_append] at atMark
    obtain ⟨inEnding, rfl, atEnding⟩ := forks.peel atMark parts.named (by decide)
    obtain ⟨rest, rfl, -⟩ := forks.peel atEnding breaks (by decide)
    exact absurd ⟨rest, by simp⟩ beyond
  · rw [single] at beyond
    rw [single, List.singleton_append, List.singleton_append] at atMark
    cases inMark with
    | nil =>
        refine .inl ⟨fun c member => parts.blank c (by simpa using member), head.label,
          parts.ending ++ more, atMark, parts.named, ?_⟩
        rw [parts.lineBreak_read]
        rcases parts.breaks with line | line <;> rw [line] <;> decide
    | cons c inLabel =>
        obtain ⟨rfl, atLabel⟩ := List.cons.inj atMark
        obtain ⟨inSecond, rfl, atSecond⟩ := forks.peel atLabel parts.named (by decide)
        cases inSecond with
        | nil =>
            exact .inr ⟨parts.indent, head.label, by rw [List.append_nil], parts.blank, parts.named⟩
        | cons c inEnding =>
            obtain ⟨rfl, atEnding⟩ := List.cons.inj atSecond
            obtain ⟨rest, rfl, -⟩ := forks.peel atEnding breaks (by decide)
            exact absurd ⟨rest, by simp⟩ beyond
  · rw [double] at beyond
    rw [double] at atMark
    have isMark : ∀ c ∈ ['"'], (c == '"') = true := by simp
    obtain ⟨inLabel, rfl, atLabel⟩ := forks.peel atMark isMark (by decide)
    obtain ⟨inSecond, rfl, atSecond⟩ := forks.peel atLabel parts.named (by decide)
    obtain ⟨inEnding, rfl, atEnding⟩ := forks.peel atSecond isMark (by decide)
    obtain ⟨rest, rfl, -⟩ := forks.peel atEnding breaks (by decide)
    exact absurd ⟨rest, by simp⟩ beyond

theorem heredocHead?_word {indent word rest : Text} (blank : ∀ c ∈ indent, isIndent c = true)
    (begins : startsWhere isNameStart word = true) (named : ∀ c ∈ word, isNameChar c = true)
    (breaks : lineBreak rest ≠ 0) : heredocHead? (indent ++ (word ++ rest)) ≠ none := by
  obtain ⟨ending, more, rfl, isEnding, -⟩ := split_at_lineBreak breaks
  let parts : HeadParts ⟨word, (indent ++ ([] ++ (word ++ ([] ++ ending)))).length⟩ :=
    ⟨indent, [], ending, blank, .inl rfl, begins, named, isEnding, rfl⟩
  have found := parts.heredocHead?_eq more
  have same : parts.spelling ++ more = indent ++ (word ++ (ending ++ more)) := by
    simp [parts, HeadParts.spelling]
  rw [same] at found
  rw [found]
  exact Option.some_ne_none _

/-! ### Words -/

def isReplaceable : TokenKind → Bool
  | .kwExit | .magicDir | .magicFile => true
  | _ => false

def isBrace : TokenKind → Bool
  | .openBrace | .closeBrace => true
  | _ => false

theorem symbolic_of_isBrace {kind : TokenKind} (isOne : isBrace kind = true) :
    kind.isSymbol = true := by
  cases kind <;> first | rfl | cases isOne

theorem code_of_isBrace {kind : TokenKind} (isOne : isBrace kind = true) :
    kind.isMarkup = false := by
  cases kind <;> first | rfl | cases isOne

theorem isKeyword_of_isReplaceable {kind : TokenKind} (isOne : isReplaceable kind = true) :
    kind.isKeyword = true ∧ kind.isIdentifierLike = true := by
  cases kind <;> first | exact ⟨rfl, rfl⟩ | cases isOne

theorem isNameStart_of_capital {c : Char} (capital : 'A'.val ≤ c.val ∧ c.val ≤ 'Z'.val) :
    isNameStart c = true := by
  have upper : c.isUpper = true := decide_eq_true capital
  change (c.isUpper || c.isLower || c == '_' || decide (0x80 ≤ c.val)) = true
  rw [upper, Bool.true_or, Bool.true_or, Bool.true_or]

theorem isNameStart_of_toLower {c : Char} (small : isNameStart c.toLower = true) :
    isNameStart c = true := by
  by_cases capital : 'A'.val ≤ c.val ∧ c.val ≤ 'Z'.val
  · exact isNameStart_of_capital capital
  · have kept : c.toLower = c := dif_neg capital
    rwa [kept] at small

theorem isNameChar_of_toLower {c : Char} (small : isNameChar c.toLower = true) :
    isNameChar c = true := by
  by_cases capital : 'A'.val ≤ c.val ∧ c.val ≤ 'Z'.val
  · rw [isNameChar, isNameStart_of_capital capital, Bool.true_or]
  · have kept : c.toLower = c := dif_neg capital
    rwa [kept] at small

theorem Rule.named {afterArrow : Bool} {text : Text} {kind : TokenKind} {length : Nat}
    (rule : Rule afterArrow text kind length) (like : kind.isIdentifierLike = true) :
    startsWhere opensFork text = true ∧ 0 < Lexeme.name text ∧
      Lexeme.name (text.drop length) = 0 := by
  cases rule with
  | name c rest begins =>
      refine ⟨?_, name_pos begins rest, name_drop_name (c :: rest)⟩
      simp [startsWhere, opensFork, begins]
  | rooted c rest begins =>
      refine ⟨rfl, ?_, ?_⟩
      · rw [Lexeme.name, if_pos (by simp [startsWhere, begins])]
        omega
      · rw [Nat.add_comm, List.drop_succ_cons]
        exact name_drop_name (c :: rest)
  | block rest =>
      rw [blockCommentKind_isIdentifierLike] at like
      cases like
  | operator c rest =>
      rw [operator_isIdentifierLike] at like
      cases like
  | punctuation c rest kind single =>
      have all : ∀ entry ∈ Scan.punctuation, entry.2.isIdentifierLike = false := by decide
      rw [all (c, kind) (punctuation?_mem single)] at like
      cases like
  | space | close | attributeOpen | hash | slashes | string | heredoc | variableName | dollar
  | number | separator => cases like

structure IsWord (word rest : Text) : Prop where
  named : ∀ c ∈ word, isNameChar c = true
  begins : startsWhere isNameStart word = true
  tagless : opensTagWord word = false
  ends : name rest = 0

theorem isWord_of_ofWord {word rest : Text}
    (isOne : isReplaceable (TokenKind.ofWord word) = true) (ends : name rest = 0) :
    IsWord word rest := by
  have known : ∀ entry ∈ TokenKind.keywords, isReplaceable entry.2 = true →
      entry.1.all isNameChar = true ∧ startsWhere isNameStart entry.1 = true ∧
        startsWhere (fun c => c == 'p' || c == 'h') entry.1 = false := by decide
  rcases TokenKind.ofWord_cases word with plain | member
  · rw [plain] at isOne
    cases isOne
  · obtain ⟨named, begins, tagless⟩ := known _ member isOne
    refine ⟨fun c among => ?_, ?_, tagless, ends⟩
    · exact isNameChar_of_toLower
        (List.all_eq_true.mp named c.toLower (List.mem_map_of_mem among))
    · cases word with
      | nil => cases begins
      | cons c rest => exact isNameStart_of_toLower begins

/-! ### Replacements -/

/-- Tokens that can stand in the place of another one: a scan finds them whatever comes behind,
unless they are open and a name goes on there, and a quoted word at their front is all of them. -/
structure Stands (closed : Bool) (shapes : List Shape) : Prop where
  scanned : ∀ (state : State) (rest : Text), state.mode = .php → (closed = true ∨ name rest = 0) →
    ∃ next : State, next.mode = .php ∧ next.afterArrow = false ∧
      (tokensFrom state (spell shapes ++ rest)).map shape =
        shapes ++ (tokensFrom next rest).map shape
  quoted : ∀ label rest tail : Text, (∀ c ∈ label, isNameChar c = true) →
    spell shapes ++ rest = '\'' :: (label ++ '\'' :: tail) → rest = tail

structure StandsForWord (shapes : List Shape) : Prop extends Stands false shapes where
  mark : startsWhere (fun c => c == '\\' || c == '\'') (spell shapes) = true

/-- Which tokens give way to which: words with a meaning of their own to a hook or a string, a
brace to a text that begins with a brace and, where names may, a name to a variable. -/
inductive Gives (names : Bool) (token : Token) (added : List Shape) : Prop where
  | word (like : token.kind.isIdentifierLike = true)
      (isOne : isReplaceable (TokenKind.ofWord token.text) = true)
      (mark : startsWhere (fun c => c == '\\' || c == '\'') (spell added) = true)
  | reference (allowed : names = true) (like : token.kind.isIdentifierLike = true)
      (mark : startsWhere (· == '$') (spell added) = true)
  | brace (isOne : isBrace token.kind = true)
      (mark : startsWhere (fun c => c == '\x7b' || c == '\x7d') (spell added) = true)

theorem StandsForWord.gives {names : Bool} {token : Token} {added : List Shape}
    (stands : StandsForWord added) (like : token.kind.isIdentifierLike = true)
    (isOne : isReplaceable (TokenKind.ofWord token.text) = true) :
    Gives names token added ∧ Stands (isBrace token.kind) added := by
  refine ⟨.word like isOne stands.mark, ?_⟩
  have other : isBrace token.kind = false := by
    cases kind : token.kind <;> rw [kind] at like <;> first | rfl | cases like
  rw [other]
  exact stands.toStands

/-- Tokens that are found whatever comes behind are found by themselves. -/
theorem Stands.alone {closed : Bool} {shapes : List Shape} (stands : Stands closed shapes) :
    (scan .php (spell shapes)).map shape = shapes := by
  obtain ⟨next, -, -, found⟩ := stands.scanned (.start .php) [] rfl (.inr rfl)
  rw [List.append_nil, tokensFrom_nil, List.map_nil, List.append_nil] at found
  rw [scan_eq, found]

/-- Some of the tokens of a list replaced, as shapes. -/
inductive Replaced (names : Bool) : List Token → List Shape → Prop where
  | nil : Replaced names [] []
  | keep {tokens : List Token} {shapes : List Shape} (token : Token)
      (later : Replaced names tokens shapes) :
      Replaced names (token :: tokens) (shape token :: shapes)
  | put {tokens : List Token} {shapes added : List Shape} (token : Token)
      (gives : Gives names token added) (stands : Stands (isBrace token.kind) added)
      (later : Replaced names tokens shapes) : Replaced names (token :: tokens) (added ++ shapes)

variable {names : Bool} {token : Token} {added : List Shape} {after : Text}

theorem Gives.plain (gives : Gives names token added) : token.kind.isMarkup = false ∧
    token.kind.isTrivia = false ∧ (token.kind == .arrow || token.kind == .nullsafeArrow) = false := by
  have ofLike (like : token.kind.isIdentifierLike = true) : token.kind.isMarkup = false ∧
      token.kind.isTrivia = false ∧
        (token.kind == .arrow || token.kind == .nullsafeArrow) = false := by
    cases kind : token.kind <;> rw [kind] at like <;> first | exact ⟨rfl, rfl, rfl⟩ | cases like
  cases gives with
  | word like => exact ofLike like
  | reference allowed like => exact ofLike like
  | brace isOne =>
      cases kind : token.kind <;> rw [kind] at isOne <;> first | exact ⟨rfl, rfl, rfl⟩ | cases isOne

/-- The rule behind a token of code that a scan is cut in front of. -/
theorem rule_of_cut {state : State} {text : Text} (before : List Token) {later : List Token}
    (cut : tokensFrom state text = before ++ token :: later)
    (code : token.kind.isMarkup = false) :
    ∃ afterArrow, Rule afterArrow (token.text ++ Token.textOf later) token.kind
      token.text.length := by
  obtain ⟨-, resumed⟩ := tokensFrom_resume cut
  obtain ⟨made, -, -, -⟩ := scan_cons resumed
  have nonempty : Token.textOf (token :: later) ≠ [] := by
    intro empty
    rw [empty] at resumed
    cases resumed
  have rule := rule_of_code nonempty (made ▸ code)
  rw [made] at rule
  exact ⟨_, rule⟩

theorem Rule.symbolText {afterArrow : Bool} (rule : Rule afterArrow (token.text ++ after)
    token.kind token.text.length) (symbolic : token.kind.isSymbol = true) :
    ∃ c, token.text = [c] ∧ punctuation? c = some token.kind := by
  obtain ⟨c, rest, spelled, single, length⟩ := rule.eq_symbol symbolic
  obtain ⟨d, same⟩ := List.length_eq_one_iff.mp length
  rw [same] at spelled
  obtain ⟨rfl, -⟩ := List.cons.inj spelled
  exact ⟨d, same, single⟩

theorem Rule.braceText {afterArrow : Bool} (rule : Rule afterArrow (token.text ++ after) token.kind
    token.text.length) (isOne : isBrace token.kind = true) :
    token.text = ['\x7b'] ∨ token.text = ['\x7d'] := by
  obtain ⟨c, same, single⟩ := rule.symbolText (symbolic_of_isBrace isOne)
  have all : ∀ entry ∈ Scan.punctuation, isBrace entry.2 = true →
      entry.1 = '\x7b' ∨ entry.1 = '\x7d' := by decide
  rw [same]
  exact (all _ (punctuation?_mem single) isOne).imp (congrArg ([·])) (congrArg ([·]))

section
variable {afterArrow : Bool}
  (rule : Rule afterArrow (token.text ++ after) token.kind token.text.length)
include rule

theorem Gives.ends (gives : Gives names token added) :
    isBrace token.kind = true ∨ name after = 0 := by
  have ofLike (like : token.kind.isIdentifierLike = true) : name after = 0 := by
    have ends := (rule.named like).2.2
    rwa [List.drop_left] at ends
  cases gives with
  | word like => exact .inr (ofLike like)
  | reference allowed like => exact .inr (ofLike like)
  | brace isOne => exact .inl isOne

theorem Gives.forks (gives : Gives names token added) (rest : Text) :
    Forks (token.text ++ after) (spell added ++ rest) := by
  have marked {p : Char → Bool} (isOne : startsWhere p (spell added) = true)
      (all : ∀ c, p c = true → c ∈ marks) : startsWhere isMark (spell added ++ rest) = true := by
    obtain ⟨c, tail, same, holds⟩ := startsWhere_true isOne
    rw [same]
    exact List.contains_iff_mem.mpr (all c holds)
  cases gives with
  | word like _ mark =>
      obtain ⟨opens, positive, -⟩ := rule.named like
      exact ⟨opens, marked mark fun c holds => by
        rcases Bool.or_eq_true_iff.mp holds with same | same <;> rw [eq_of_beq same] <;> decide,
        .inl positive⟩
  | reference allowed like mark =>
      obtain ⟨opens, positive, -⟩ := rule.named like
      exact ⟨opens, marked mark fun c holds => by rw [eq_of_beq holds]; decide, .inl positive⟩
  | brace isOne mark =>
      refine ⟨?_, marked mark fun c holds => ?_, .inr ?_⟩
      · rcases rule.braceText isOne with same | same <;> rw [same] <;> rfl
      · rcases Bool.or_eq_true_iff.mp holds with same | same <;> rw [eq_of_beq same] <;> decide
      · obtain ⟨c, tail, same, holds⟩ := startsWhere_true mark
        rw [same]
        rcases Bool.or_eq_true_iff.mp holds with same | same <;> rw [eq_of_beq same] <;> rfl

theorem Gives.isWord (gives : Gives names token added) : IsWord token.text after ∨
    ∀ rest, startsWhere (· == '\'') (spell added ++ rest) = false := by
  cases gives with
  | word like isOne mark =>
      have ends := (rule.named like).2.2
      rw [List.drop_left] at ends
      exact .inl (isWord_of_ofWord isOne ends)
  | reference allowed like mark =>
      obtain ⟨tail, same⟩ := startsWhere_beq mark
      rw [same]
      exact .inr fun rest => rfl
  | brace isOne mark =>
      obtain ⟨c, tail, same, holds⟩ := startsWhere_true mark
      rw [same]
      refine .inr fun rest => ?_
      rcases Bool.or_eq_true_iff.mp holds with same | same <;> rw [eq_of_beq same] <;> rfl

theorem Gives.tagless (gives : Gives false token added) :
    opensTagWord (token.text ++ after) = false := by
  cases gives with
  | word like isOne mark =>
      have isWord := isWord_of_ofWord isOne (show name [] = 0 from rfl)
      obtain ⟨c, tail, same, -⟩ := startsWhere_true isWord.begins
      have tagless := isWord.tagless
      rw [same] at tagless ⊢
      exact tagless
  | reference allowed => cases allowed
  | brace isOne mark =>
      rcases rule.braceText isOne with same | same <;> rw [same] <;> rfl

end

variable {tokens : List Token} {shapes : List Shape}

theorem Replaced.refl (tokens : List Token) : Replaced names tokens (tokens.map shape) := by
  induction tokens with
  | nil => exact .nil
  | cons token tokens ih => exact .keep token ih

theorem Replaced.append {others : List Token} {more : List Shape}
    (replaced : Replaced names tokens shapes) (further : Replaced names others more) :
    Replaced names (tokens ++ others) (shapes ++ more) := by
  induction replaced with
  | nil => exact further
  | keep token later ih => exact .keep token ih
  | put token gives stands later ih =>
      rw [List.append_assoc]
      exact .put token gives stands ih

theorem Replaced.first (replaced : Replaced names tokens shapes) :
    shapes = tokens.map shape ∨ ∃ before token after added later,
      tokens = before ++ token :: after ∧ shapes = before.map shape ++ (added ++ later) ∧
        Gives names token added ∧ Stands (isBrace token.kind) added ∧
        Replaced names after later := by
  induction replaced with
  | nil => exact .inl rfl
  | keep token later ih =>
      rcases ih with same | ⟨before, other, after, added, rest, rfl, rfl, gives, stands, others⟩
      · exact .inl (by rw [same, List.map_cons])
      · exact .inr ⟨token :: before, other, after, added, rest, rfl, rfl, gives, stands, others⟩
  | put token gives stands later => exact .inr ⟨[], token, _, _, _, rfl, rfl, gives, stands, later⟩

theorem Replaced.same_or_forks {state : State} {text : Text}
    (replaced : Replaced names tokens shapes) (cut : tokensFrom state text = tokens) :
    Token.textOf tokens = spell shapes ∨ ∃ front left right, Forks left right ∧
      Token.textOf tokens = front ++ left ∧ spell shapes = front ++ right := by
  rcases replaced.first with rfl | ⟨before, token, after, added, later, rfl, rfl, gives, -, -⟩
  · exact .inl (spell_shapes tokens).symm
  · obtain ⟨afterArrow, rule⟩ := rule_of_cut before cut gives.plain.1
    refine .inr ⟨Token.textOf before, token.text ++ Token.textOf after, spell added ++ spell later,
      gives.forks rule _, ?_, ?_⟩
    · rw [Token.textOf_append, Token.textOf_cons]
    · rw [spell_append, spell_append, spell_shapes]

/-- A token that is replaced brings out no head of a heredoc: a quoted word in its place would have
been the head itself, and no scan is cut where a quoted word ends. -/
theorem headless_of_cut {state : State} {front rest : Text} {before after : List Token}
    (php : state.mode = .php)
    (cut : tokensFrom state (front ++ (token.text ++ Token.textOf after)) =
      before ++ token :: after)
    (spelled : Token.textOf before = front) (gives : Gives names token added)
    (quoted : ∀ label tail : Text, (∀ c ∈ label, isNameChar c = true) →
      spell added ++ rest = '\'' :: (label ++ '\'' :: tail) →
        lineBreak tail = lineBreak (Token.textOf after)) :
    Headless (token.text ++ Token.textOf after) (spell added ++ rest) front := by
  obtain ⟨afterArrow, rule⟩ := rule_of_cut before cut gives.plain.1
  have forks := gives.forks rule rest
  rintro behind rfl none
  cases found : heredocHead? (behind ++ (spell added ++ rest)) with
  | none => rfl
  | some head =>
      rcases quote_of_head forks none found with
        ⟨blank, label, tail, quote, named, breaks⟩ | ⟨indent, label, rfl, blank, named⟩
      · rcases gives.isWord rule with isWord | noQuote
        · rw [quoted label tail named quote] at breaks
          exact absurd none (heredocHead?_word blank isWord.begins isWord.named breaks)
        · have opens := noQuote rest
          rw [quote] at opens
          cases opens
      · exact (not_cut_behind_brackets php blank named forks.left_ne_nil none cut spelled).elim

theorem Gives.lexeme {state : State} {first : Token} {before after : List Token} {rest : Text}
    (gives : Gives names token added)
    (cut : tokensFrom state (Token.textOf (first :: before ++ token :: after)) =
      first :: before ++ token :: after)
    (php : names = true → state.mode = .php)
    (quoted : ∀ label tail : Text, (∀ c ∈ label, isNameChar c = true) →
      spell added ++ rest = '\'' :: (label ++ '\'' :: tail) →
        lineBreak tail = lineBreak (Token.textOf after)) :
    state.lexeme (Token.textOf (first :: before) ++ (spell added ++ rest)) =
      (first.kind, first.text.length) := by
  have whole : Token.textOf (first :: before ++ token :: after) =
      Token.textOf (first :: before) ++ (token.text ++ Token.textOf after) := by
    rw [Token.textOf_append, Token.textOf_cons token]
  obtain ⟨made, filled, size, -⟩ := scan_cons cut
  have kind := congrArg Token.kind made
  change (state.lexeme (Token.textOf (first :: before ++ token :: after))).1 = first.kind at kind
  change (state.lexeme (Token.textOf (first :: before ++ token :: after))).2 = _ at size
  rw [whole] at cut kind size
  obtain ⟨afterArrow, rule⟩ := rule_of_cut (first :: before) cut gives.plain.1
  have same : state.lexeme (Token.textOf (first :: before) ++ (spell added ++ rest)) =
      state.lexeme (Token.textOf (first :: before) ++ (token.text ++ Token.textOf after)) := by
    refine state.lexeme_fork (gives.forks rule rest) (by simp [Token.textOf_cons, filled]) ?_
      (fun html => ?_) fun inPhp => headless_of_cut inPhp cut rfl gives quoted
    · rw [size, Token.textOf_cons, List.length_append]
      omega
    · cases names with
      | false => exact gives.tagless rule
      | true => rw [php rfl] at html; cases html
  rw [same, ← kind, ← size]

theorem Replaced.lexeme {state : State} (replaced : Replaced names tokens shapes)
    (cut : tokensFrom state (Token.textOf (token :: tokens)) = token :: tokens)
    (php : names = true → state.mode = .php) :
    state.lexeme (token.text ++ spell shapes) = (token.kind, token.text.length) := by
  rcases replaced.first with
    rfl | ⟨before, gone, after, added, later, rfl, rfl, gives, stands, others⟩
  · obtain ⟨made, -, size, -⟩ := scan_cons cut
    have kind := congrArg Token.kind made
    change (state.lexeme (Token.textOf (token :: tokens))).1 = token.kind at kind
    rw [spell_shapes, ← Token.textOf_cons, ← kind, ← size]
  · have same : lineBreak (spell later) = lineBreak (Token.textOf after) := by
      have cutBehind : tokensFrom state (Token.textOf (token :: before ++ gone :: after)) =
          (token :: before ++ [gone]) ++ after := by
        rw [List.append_assoc]
        exact cut
      rcases others.same_or_forks (tokensFrom_resume cutBehind).2 with same |
        ⟨front, left, right, forks, onLeft, onRight⟩
      · rw [same]
      · rw [onLeft, onRight, forks.lineBreak]
    rw [spell_append, spell_append, spell_shapes, ← List.append_assoc, ← Token.textOf_cons]
    refine gives.lexeme cut php fun label tail named quote => ?_
    rw [← stands.quoted label (spell later) tail named quote, same]

/-- A scan of a text with some of its tokens replaced finds what stayed and what was put in. -/
theorem rescan_of_replaced {state other : State} (replaced : Replaced names tokens shapes)
    (cut : tokensFrom state (Token.textOf tokens) = tokens) (mode : other.mode = state.mode)
    (arrow : other.afterArrow = state.afterArrow)
    (php : names = true →
      state.mode = .php ∧ ∀ token ∈ tokens, token.kind.isMarkup = false) :
    (tokensFrom other (spell shapes)).map shape = shapes := by
  induction replaced generalizing state other with
  | nil => rfl
  | @keep tokens shapes token later ih =>
      have lexeme := later.lexeme cut fun allowed => (php allowed).1
      obtain ⟨made, filled, size, next⟩ := scan_cons cut
      have again : other.token (token.text ++ spell shapes) =
          ⟨token.kind, token.text, other.line⟩ := by
        have same : other.lexeme (token.text ++ spell shapes) =
            (token.kind, token.text.length) := by
          rw [State.lexeme, mode, arrow, ← State.lexeme, lexeme]
        rw [State.token, same, List.take_left]
      change (tokensFrom other (token.text ++ spell shapes)).map shape = shape token :: shapes
      rw [tokensFrom_step other (by simp [filled]), again, List.map_cons, List.drop_left,
        ih next ?_ ?_ fun allowed => ?_]
      · rfl
      · simp only [State.after, mode]
      · simp only [State.after, arrow]
      · obtain ⟨inPhp, code⟩ := php allowed
        refine ⟨?_, fun other member => code other (List.mem_cons_of_mem _ member)⟩
        rw [State.after, modeAfter_of_code _ (code token List.mem_cons_self)]
        exact inPhp
  | @put tokens shapes added token gives stands later ih =>
      obtain ⟨made, -, -, next⟩ := scan_cons cut
      obtain ⟨code, plain, noArrow⟩ := gives.plain
      obtain ⟨afterArrow, rule⟩ := rule_of_cut [] cut code
      have inPhp : state.mode = .php := mode_eq_php (made ▸ code)
      have ends : isBrace token.kind = true ∨ name (spell shapes) = 0 := by
        refine (gives.ends rule).imp_right fun none => ?_
        rcases later.same_or_forks next with same | ⟨front, left, right, forks, onLeft, onRight⟩
        · rw [← same, none]
        · rw [onLeft] at none
          rw [onRight, forks.name front (by omega), none]
      obtain ⟨behind, behindMode, behindArrow, scanned⟩ :=
        stands.scanned other (spell shapes) (mode.trans inPhp) ends
      have nextMode : (state.after token).mode = .php := by
        rw [State.after, inPhp, modeAfter_of_code .php code]
      rw [spell_append, scanned, ih next ?_ ?_ fun allowed => ?_]
      · rw [behindMode, nextMode]
      · rw [behindArrow, State.after, plain, noArrow]
        rfl
      · exact ⟨nextMode, fun other member => (php allowed).2 other (List.mem_cons_of_mem _ member)⟩

/-- A text whose last token is a brace has the same tokens whatever comes behind it. -/
theorem scanned_of_closed {state other : State} {before : List Token} {brace : Token}
    (cut : tokensFrom state (Token.textOf (before ++ [brace])) = before ++ [brace])
    (isOne : isBrace brace.kind = true) (mode : other.mode = state.mode)
    (arrow : other.afterArrow = state.afterArrow) (rest : Text) :
    ∃ next : State, next.mode = .php ∧ next.afterArrow = false ∧
      (tokensFrom other (Token.textOf (before ++ [brace]) ++ rest)).map shape =
        (before ++ [brace]).map shape ++ (tokensFrom next rest).map shape := by
  have step {first : Token} {more : Text} {state other : State}
      (lexeme : state.lexeme (first.text ++ more) = (first.kind, first.text.length))
      (filled : first.text ≠ []) (mode : other.mode = state.mode)
      (arrow : other.afterArrow = state.afterArrow) :
      tokensFrom other (first.text ++ more) = ⟨first.kind, first.text, other.line⟩ ::
        tokensFrom (other.after ⟨first.kind, first.text, other.line⟩) more := by
    have again : other.token (first.text ++ more) = ⟨first.kind, first.text, other.line⟩ := by
      rw [State.lexeme] at lexeme
      rw [State.token, State.lexeme, mode, arrow, lexeme, List.take_left]
    rw [tokensFrom_step other (by simp [filled]), again, List.drop_left]
  obtain ⟨_, rule⟩ := rule_of_cut before cut (code_of_isBrace isOne)
  have text := rule.braceText isOne
  have gives : Gives false brace [shape brace] := by
    refine .brace isOne ?_
    rcases text with same | same <;> simp [spell, shape, same, startsWhere]
  induction before generalizing state other with
  | nil =>
      obtain ⟨made, filled, -, -⟩ := scan_cons cut
      obtain ⟨afterArrow, rule⟩ := rule_of_cut [] cut (code_of_isBrace isOne)
      have inPhp : state.mode = .php := mode_eq_php (made.symm ▸ code_of_isBrace isOne)
      have lexeme : state.lexeme (brace.text ++ rest) = (brace.kind, brace.text.length) := by
        obtain ⟨c, same, single⟩ := rule.symbolText (symbolic_of_isBrace isOne)
        have again : Rule state.afterArrow (c :: rest) brace.kind 1 := .punctuation c rest _ single
        rw [State.lexeme, inPhp, same]
        exact again.phpLexeme_eq
      have plain := gives.plain
      refine ⟨other.after ⟨brace.kind, brace.text, other.line⟩, ?_, ?_, ?_⟩
      · change modeAfter other.mode brace.kind = .php
        rw [mode, inPhp, modeAfter_of_code _ plain.1]
      · simp only [State.after, plain.2.1, plain.2.2]
        rfl
      · change (tokensFrom other (Token.textOf [brace] ++ rest)).map shape = _
        rw [Token.textOf_cons, Token.textOf_nil, List.append_nil, step lexeme filled mode arrow]
        rfl
  | cons first before ih =>
      obtain ⟨made, filled, -, later⟩ := scan_cons cut
      have lexeme : state.lexeme (Token.textOf (first :: before) ++
          (spell [shape brace] ++ rest)) = (first.kind, first.text.length) :=
        gives.lexeme cut (fun never => absurd never Bool.false_ne_true)
          fun label tail named quote => by
            rcases text with same | same <;> simp [spell, shape, same] at quote
      obtain ⟨next, nextMode, nextArrow, found⟩ := ih later
        (show (other.after ⟨first.kind, first.text, other.line⟩).mode = _ by
          simp only [State.after, mode])
        (show (other.after ⟨first.kind, first.text, other.line⟩).afterArrow = _ by
          simp only [State.after, arrow])
      refine ⟨next, nextMode, nextArrow, ?_⟩
      have whole : Token.textOf (first :: before ++ [brace]) ++ rest =
          first.text ++ (Token.textOf (before ++ [brace]) ++ rest) := by
        rw [List.cons_append, Token.textOf_cons, List.append_assoc]
      rw [whole, step _ filled mode arrow, List.map_cons, found]
      · rfl
      · rw [← lexeme]
        simp [Token.textOf_cons, Token.textOf_append, spell, shape]

end PhpWeave.Scan
