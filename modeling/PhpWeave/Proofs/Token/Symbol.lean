import PhpWeave.Proofs.Token.Rescan
import PhpWeave.Token.Search

set_option autoImplicit false

/-!
Brackets and separators are spelled as themselves. No other rule gives a token one of their kinds.
Between the tags of a token list there is code only.
-/

namespace PhpWeave

namespace TokenKind

def isSymbol : TokenKind → Bool
  | openParen | closeParen | openBracket | closeBracket | openBrace | closeBrace | semicolon
  | comma => true
  | _ => false

theorem isSymbol_of_punctuation? {symbol : Char} {kind : TokenKind}
    (isOne : Scan.punctuation? symbol = some kind) : kind.isSymbol = true := by
  have all : ∀ entry ∈ Scan.punctuation, entry.2.isSymbol = true := by decide
  exact all (symbol, kind) (Scan.punctuation?_mem isOne)

theorem ofWord_isSymbol (word : Text) : (ofWord word).isSymbol = false := by
  have all : ∀ entry ∈ keywords, entry.2.isSymbol = false := by decide
  rcases ofWord_cases word with plain | member
  · rw [plain]
    rfl
  · exact all _ member

theorem code_of_isSymbol {kind : TokenKind} (symbolic : kind.isSymbol = true) :
    kind.isMarkup = false := by
  cases kind <;> first | rfl | cases symbolic

theorem solid_of_isSymbol {kind : TokenKind} (symbolic : kind.isSymbol = true) :
    kind.isTrivia = false := by
  cases kind <;> first | rfl | cases symbolic

end TokenKind

namespace Scan

open Lexeme

theorem nameKind_isSymbol (afterArrow : Bool) (text : Text) :
    (nameKind afterArrow text).isSymbol = false := by
  simp only [nameKind]
  split
  · split <;> rfl
  · split
    · rfl
    · exact TokenKind.ofWord_isSymbol _

theorem operator_isSymbol (text : Text) : (operator text).1.isSymbol = false := by
  have all : ∀ entry ∈ operators, entry.2.isSymbol = false := by decide
  unfold operator
  split
  · next entry found => exact all entry (List.mem_of_find?_eq_some found)
  · rfl

theorem blockCommentKind_isSymbol (text : Text) : (blockCommentKind text).isSymbol = false := by
  unfold blockCommentKind
  split
  · split <;> rfl
  · rfl

theorem Rule.eq_symbol {afterArrow : Bool} {text : Text} {kind : TokenKind} {length : Nat}
    (rule : Rule afterArrow text kind length) (isOne : kind.isSymbol = true) :
    ∃ c rest, text = c :: rest ∧ punctuation? c = some kind ∧ length = 1 := by
  cases rule with
  | punctuation c rest kind single => exact ⟨c, rest, rfl, single, rfl⟩
  | block rest => exact absurd isOne (by rw [blockCommentKind_isSymbol]; exact Bool.false_ne_true)
  | name c rest => exact absurd isOne (by rw [nameKind_isSymbol]; exact Bool.false_ne_true)
  | operator c rest => exact absurd isOne (by rw [operator_isSymbol]; exact Bool.false_ne_true)
  | space | close | attributeOpen | hash | slashes | string | heredoc | variableName | dollar
  | number | rooted | separator => cases isOne

end Scan

/-- In a token list, brackets and separators are spelled as themselves. -/
def Spelled (tokens : Tokens) : Prop :=
  ∀ token ∈ tokens, ∀ symbol, Scan.punctuation? symbol = some token.kind → token.text = [symbol]

namespace Scan

private theorem punctuation?_injective {first second : Char} {kind : TokenKind}
    (left : punctuation? first = some kind) (right : punctuation? second = some kind) :
    first = second := by
  have all : ∀ one ∈ punctuation, ∀ other ∈ punctuation, one.2 = other.2 → one.1 = other.1 := by
    decide
  exact all _ (punctuation?_mem left) _ (punctuation?_mem right) rfl

theorem token_spelled (state : State) {text : Text} (nonempty : text ≠ []) {symbol : Char}
    (isOne : punctuation? symbol = some (state.token text).kind) :
    (state.token text).text = [symbol] := by
  have symbolic := TokenKind.isSymbol_of_punctuation? isOne
  have code := TokenKind.code_of_isSymbol symbolic
  obtain ⟨c, rest, rfl, single, length⟩ := (rule_of_code nonempty code).eq_symbol symbolic
  rw [punctuation?_injective isOne single]
  rw [token_text_length state nonempty] at length
  rw [State.token, length]
  rfl

theorem spelled_scan (mode : Mode) (source : Text) : Spelled (scan mode source).toArray := by
  intro token member symbol isOne
  rw [List.mem_toArray, scan_eq] at member
  obtain ⟨before, after, cut⟩ := List.append_of_mem member
  obtain ⟨-, resumed⟩ := tokensFrom_resume cut
  have nonempty : Token.textOf (token :: after) ≠ [] := by
    intro empty
    rw [empty] at resumed
    cases resumed
  rw [tokensFrom_step _ nonempty, List.cons.injEq] at resumed
  have kind := resumed.1
  rw [← kind] at isOne ⊢
  exact token_spelled _ nonempty isOne

end Scan

/-- Whether tags that open code, and the text outside code, follow other tags. -/
def Tagged (tokens : Tokens) : Prop :=
  ∀ index token next, tokens[index]? = some token → tokens[index + 1]? = some next →
    next.kind.isMarkup = true → next.kind ≠ .closeTag → token.kind.isMarkup = true

namespace Scan

open Lexeme

/-- The only tag that the rules of code make is the one that ends it. -/
theorem Rule.eq_closeTag {afterArrow : Bool} {text : Text} {kind : TokenKind} {length : Nat}
    (rule : Rule afterArrow text kind length) (markup : kind.isMarkup = true) :
    kind = .closeTag ∧ ['?', '>'] <+: text.take length := by
  cases rule with
  | close rest =>
      refine ⟨rfl, ?_⟩
      rw [closeTag, Nat.add_comm, List.take_succ_cons, List.take_succ_cons]
      exact ⟨_, rfl⟩
  | name c rest =>
      have all : ∀ entry ∈ TokenKind.keywords, entry.2.isMarkup = false := by decide
      unfold nameKind at markup
      simp only at markup
      split at markup
      · split at markup <;> cases markup
      · split at markup
        · cases markup
        · rcases TokenKind.ofWord_cases ((c :: rest).takeWhile isNameChar) with plain | member
          · rw [plain] at markup
            cases markup
          · rw [all _ member] at markup
            cases markup
  | block rest =>
      unfold blockCommentKind at markup
      split at markup
      · split at markup <;> cases markup
      · cases markup
  | operator c rest =>
      have all : ∀ entry ∈ operators, entry.2.isMarkup = false := by decide
      unfold Lexeme.operator at markup
      split at markup
      · next entry found =>
          rw [all entry (List.mem_of_find?_eq_some found)] at markup
          cases markup
      · cases markup
  | punctuation c rest kind single =>
      have all : ∀ entry ∈ Scan.punctuation, entry.2.isMarkup = false := by decide
      rw [all (c, kind) (punctuation?_mem single)] at markup
      cases markup
  | space | attributeOpen | hash | slashes | string | heredoc | variableName | dollar | number
  | rooted | separator => cases markup

theorem token_eq_closeTag {state : State} (php : state.mode = .php) {text : Text}
    (nonempty : text ≠ []) (markup : (state.token text).kind.isMarkup = true) :
    (state.token text).kind = .closeTag ∧ ['?', '>'] <+: (state.token text).text := by
  have lexeme : state.lexeme text = phpLexeme state.afterArrow text := by
    simp only [State.lexeme, php]
  simp only [State.token, lexeme] at markup ⊢
  cases text with
  | nil => exact absurd rfl nonempty
  | cons c rest => exact (rule_of_phpLexeme rfl).eq_closeTag markup

theorem tagged_scan (mode : Mode) (source : Text) : Tagged (scan mode source).toArray := by
  intro index token next here follows markup other
  rw [← Array.getElem?_toList, List.toList_toArray] at here follows
  have cut : scan mode source = (scan mode source).take index ++
      token :: next :: (scan mode source).drop (index + 2) := by
    obtain ⟨inside, rfl⟩ := List.getElem?_eq_some_iff.mp here
    obtain ⟨further, rfl⟩ := List.getElem?_eq_some_iff.mp follows
    rw [← List.drop_eq_getElem_cons further, ← List.drop_eq_getElem_cons inside,
      List.take_append_drop]
  generalize (scan mode source).take index = before at cut
  generalize (scan mode source).drop (index + 2) = after at cut
  rw [scan_eq] at cut
  obtain ⟨-, resumed⟩ := tokensFrom_resume cut
  generalize before.foldl State.after (State.start mode) = state at resumed
  have filled (first : Token) (rest : List Token) {state : State}
      (cut : tokensFrom state (Token.textOf (first :: rest)) = first :: rest) :
      Token.textOf (first :: rest) ≠ [] := by
    intro empty
    rw [empty] at cut
    cases cut
  obtain ⟨-, later⟩ := tokensFrom_resume (show _ = [token] ++ (next :: after) from resumed)
  have nextFilled := filled _ _ later
  have tokenFilled := filled _ _ resumed
  rw [tokensFrom_step _ nextFilled, List.cons.injEq] at later
  rw [tokensFrom_step _ tokenFilled, List.cons.injEq] at resumed
  by_contra code
  have inPhp : state.mode = .php := mode_eq_php (by rw [resumed.1]; exact eq_false_of_ne_true code)
  have staysPhp : ([token].foldl State.after state).mode = .php := by
    change modeAfter state.mode token.kind = .php
    rw [modeAfter_of_code _ (eq_false_of_ne_true code), inPhp]
  rw [← later.1] at markup other
  exact other (token_eq_closeTag staysPhp nextFilled markup).1

end Scan

/-- Where no tag that ends code comes between, code goes on. -/
theorem Tagged.code {tokens : Tokens} (tagged : Tagged tokens) {first stop : Nat}
    (begins : ∀ token, tokens[first]? = some token → token.kind.isMarkup = false)
    (unclosed : ∀ index, first < index → index < stop → ∀ token, tokens[index]? = some token →
      token.kind ≠ .closeTag) :
    ∀ index, first ≤ index → index < stop → ∀ token, tokens[index]? = some token →
      token.kind.isMarkup = false := by
  intro index behind
  obtain ⟨past, rfl⟩ := Nat.exists_eq_add_of_le behind
  clear behind
  induction past with
  | zero => exact fun _ => begins
  | succ past ih =>
      intro before token here
      by_contra markup
      have inside : first + (past + 1) < tokens.size := (Array.getElem?_eq_some_iff.mp here).1
      have earlier : tokens[first + past]? = some tokens[first + past] :=
        Array.getElem?_eq_getElem (by omega)
      have code := ih (by omega) _ earlier
      rw [tagged (first + past) _ token earlier here (Bool.not_eq_false _ ▸ markup)
        (unclosed (first + (past + 1)) (by omega) before token here)] at code
      cases code

end PhpWeave
