import PhpWeave.Proofs.Token.Bytewise
import PhpWeave.Proofs.Token.Replacement

set_option autoImplicit false

/-!
Scans cut behind a bracket or a separator. No tag is spelled with one, outside PHP code and inside
it, and every such character is a token by itself. So what comes behind it takes no part in the
tokens up to it, whether tags and text outside PHP code stand among them or not.
-/

namespace PhpWeave

open Scan Lexeme

def Text.EndsInSymbol (text : Text) : Prop :=
  ∃ c, text.getLast? = some c ∧ (punctuation? c).isSome = true

namespace Text.EndsInSymbol

variable {text front : Text} {c : Char}

theorem ne_nil (ends : EndsInSymbol text) : text ≠ [] := by
  rintro rfl
  obtain ⟨c, last, -⟩ := ends
  cases last

theorem append (ends : EndsInSymbol text) (front : Text) : EndsInSymbol (front ++ text) := by
  obtain ⟨c, last, isOne⟩ := ends
  refine ⟨c, ?_, isOne⟩
  rw [List.getLast?_append, last, Option.some_or]

theorem drop {length : Nat} (ends : EndsInSymbol text) (inside : length < text.length) :
    EndsInSymbol (text.drop length) := by
  obtain ⟨c, last, isOne⟩ := ends
  refine ⟨c, ?_, isOne⟩
  rw [List.getLast?_drop, if_neg (Nat.not_le_of_lt inside), last]

theorem tail (ends : EndsInSymbol (c :: text)) (filled : text ≠ []) : EndsInSymbol text :=
  ends.drop (Nat.succ_lt_succ (List.length_pos_of_ne_nil filled))

theorem not_of_all (plain : (text.all fun c => (punctuation? c).isNone) = true) :
    ¬ EndsInSymbol text := by
  rintro ⟨c, last, isOne⟩
  have none := List.all_eq_true.mp plain c (List.mem_of_getLast? last)
  rw [Option.isNone_iff_eq_none.mp none] at isOne
  cases isOne

theorem lower (ends : EndsInSymbol text) : EndsInSymbol (Text.lower text) := by
  obtain ⟨c, last, isOne⟩ := ends
  obtain ⟨kind, symbol⟩ := Option.isSome_iff_exists.mp isOne
  have small : ∀ entry ∈ punctuation, entry.1.toLower = entry.1 := by decide
  refine ⟨c, ?_, isOne⟩
  rw [Text.lower, List.getLast?_map, last, Option.map_some, small _ (punctuation?_mem symbol)]

theorem begins_front {word : Text} (ends : EndsInSymbol front)
    (plain : (word.all fun c => (punctuation? c).isNone) = true) (after : Text) :
    word <+: front ++ after ↔ word <+: front := by
  refine ⟨fun begins => ?_, fun begins => begins.trans (List.prefix_append _ _)⟩
  rcases List.prefix_or_prefix_of_prefix begins (List.prefix_append _ _) with inside | short
  · exact inside
  · refine absurd ends (not_of_all (List.all_eq_true.mpr fun c member => ?_))
    exact List.all_eq_true.mp plain c (short.subset member)

end Text.EndsInSymbol

/-! ### Tags -/

namespace Lexeme

variable {front : Text} (ends : front.EndsInSymbol) (after : Text)
include ends

theorem wordTag_front : wordTag (front ++ after) = wordTag front := by
  cases front with
  | nil => exact absurd rfl ends.ne_nil
  | cons c tail =>
      rw [List.cons_append]
      by_cases isReturn : c = '\r'
      · subst isReturn
        have more : tail ≠ [] := by
          rintro rfl
          exact Text.EndsInSymbol.not_of_all rfl ends
        rw [wordTag_return, wordTag_return, startsWhere_append after more]
      · rw [wordTag_of_ne isReturn, wordTag_of_ne isReturn]

theorem bareTag_front : bareTag (front ++ after) = bareTag front := by
  cases front with
  | nil => exact absurd rfl ends.ne_nil
  | cons c tail => rfl

theorem isPrefixOf_word_front : ("php".toList).isPrefixOf (Text.lower (front ++ after)) =
    ("php".toList).isPrefixOf (Text.lower front) := by
  rw [Bool.eq_iff_iff, List.isPrefixOf_iff_prefix, List.isPrefixOf_iff_prefix, Text.lower_append]
  exact ends.lower.begins_front rfl _

omit ends in
theorem length_of_word {rest : Text} (ends : Text.EndsInSymbol rest)
    (word : ("php".toList).isPrefixOf (Text.lower rest) = true) : 3 < rest.length := by
  obtain ⟨behind, whole⟩ := List.isPrefixOf_iff_prefix.mp word
  have more : behind ≠ [] := by
    rintro rfl
    rw [List.append_nil] at whole
    exact Text.EndsInSymbol.not_of_all rfl (whole ▸ ends.lower)
  have length := congrArg List.length whole
  rw [Text.lower, List.length_map, List.length_append] at length
  have positive := List.length_pos_of_ne_nil more
  have three : "php".toList.length = 3 := rfl
  omega

theorem openTag?_front : openTag? (front ++ after) = openTag? front := by
  have plain : (['<', '?'].all fun c => (punctuation? c).isNone) = true := rfl
  by_cases opens : ['<', '?'] <+: front
  · obtain ⟨rest, rfl⟩ := opens
    have more : rest ≠ [] := by
      rintro rfl
      exact Text.EndsInSymbol.not_of_all plain ends
    have behind : Text.EndsInSymbol rest :=
      Text.EndsInSymbol.tail (Text.EndsInSymbol.tail ends (List.cons_ne_nil _ _)) more
    change openTag? ('<' :: '?' :: (rest ++ after)) = openTag? ('<' :: '?' :: rest)
    rw [openTag?_eq, openTag?_eq, startsWhere_append after behind.ne_nil,
      isPrefixOf_word_front behind, bareTag_front behind]
    split
    · rfl
    · split
      · next word =>
          have three := length_of_word behind word
          rw [List.drop_append_of_le_length (Nat.le_of_lt three), wordTag_front (behind.drop three)]
      · rfl
  · rw [openTag?_eq_none opens, openTag?_eq_none fun begins =>
      opens ((ends.begins_front plain after).mp begins)]

theorem inlineHtml_front (inside : inlineHtml (front ++ after) < front.length) :
    inlineHtml (front ++ after) = inlineHtml front := by
  induction front with
  | nil => exact absurd rfl ends.ne_nil
  | cons c tail ih =>
      have tag := openTag?_front ends after
      rw [List.cons_append] at inside tag ⊢
      rw [inlineHtml, tag] at inside ⊢
      rw [inlineHtml]
      split
      · rfl
      · next noTag =>
          rw [if_neg noTag, List.length_cons] at inside
          have more : tail ≠ [] := List.ne_nil_of_length_pos (by omega)
          rw [ih (ends.tail more) (by omega)]

end Lexeme

/-! ### Tokens -/

namespace Scan

theorem htmlLexeme_front {front : Text} (ends : front.EndsInSymbol) (after : Text)
    (inside : (htmlLexeme (front ++ after)).2 < front.length) :
    htmlLexeme (front ++ after) = htmlLexeme front := by
  cases front with
  | nil => exact absurd rfl ends.ne_nil
  | cons c tail =>
      have tag := openTag?_front ends after
      rw [List.cons_append] at inside tag ⊢
      rw [htmlLexeme_cons, tag] at inside ⊢
      rw [htmlLexeme_cons]
      cases found : openTag? (c :: tail) with
      | some found => rfl
      | none =>
          rw [found, Option.getD_none, List.length_cons] at inside
          have more : tail ≠ [] := List.ne_nil_of_length_pos (by omega)
          rw [Option.getD_none, Option.getD_none, inlineHtml_front (ends.tail more) after (by omega)]

theorem phpLexeme_front {front : Text} (ends : front.EndsInSymbol) (after : Text)
    (afterArrow : Bool) (inside : (phpLexeme afterArrow (front ++ after)).2 ≤ front.length) :
    phpLexeme afterArrow (front ++ after) = phpLexeme afterArrow front := by
  cases front with
  | nil => exact absurd rfl ends.ne_nil
  | cons c tail =>
      have rule : Rule afterArrow (c :: (tail ++ after)) _ _ := rule_of_phpLexeme rfl
      refine (Rule.front rule inside fun last begins => ?_).phpLexeme_eq.symm
      -- A tag cut in two would begin with the symbol at the end.
      have symbol := ends.drop (Nat.lt_of_succ_le (Nat.le_of_eq last))
      change ['?', '>'] <+: ((c :: tail) ++ after).drop _ at begins
      rw [List.drop_append_of_le_length inside,
        symbol.begins_front rfl after] at begins
      have length := begins.length_le
      rw [List.length_drop] at length
      change 2 ≤ _ at length
      omega

/-- A token is the same when what comes behind a symbol is cut off, or behind a later one for text
outside PHP code. -/
theorem State.lexeme_front {state : State} {front : Text} (ends : front.EndsInSymbol) (after : Text)
    (inside : (state.lexeme (front ++ after)).2 ≤ front.length)
    (early : state.mode = .html → (state.lexeme (front ++ after)).2 < front.length) :
    state.lexeme (front ++ after) = state.lexeme front := by
  unfold State.lexeme at inside early ⊢
  cases mode : state.mode with
  | html =>
      rw [mode] at early
      exact htmlLexeme_front ends after (early rfl)
  | php =>
      rw [mode] at inside
      exact phpLexeme_front ends after state.afterArrow inside

section Cut

variable {state other : State} {token last : Token} {later range after : List Token}

theorem tokensFrom_of_cut
    (cut : tokensFrom state (Token.textOf (token :: (later ++ after))) = token :: (later ++ after))
    (ends : Text.EndsInSymbol (Token.textOf (token :: later)))
    (early : state.mode = .html → Token.textOf later ≠ []) (mode : other.mode = state.mode)
    (arrow : other.afterArrow = state.afterArrow) :
    tokensFrom other (Token.textOf (token :: later)) = ⟨token.kind, token.text, other.line⟩ ::
      tokensFrom (other.after ⟨token.kind, token.text, other.line⟩) (Token.textOf later) := by
  obtain ⟨made, filled, size, -⟩ := scan_cons cut
  have whole : Token.textOf (token :: (later ++ after)) =
      Token.textOf (token :: later) ++ Token.textOf after := by
    rw [← Token.textOf_append, List.cons_append]
  have front : Token.textOf (token :: later) = token.text ++ Token.textOf later := rfl
  have kind := congrArg Token.kind made
  rw [whole] at size kind
  have same : state.lexeme (Token.textOf (token :: later) ++ Token.textOf after) =
      state.lexeme (Token.textOf (token :: later)) := by
    refine State.lexeme_front ends _ ?_ fun html => ?_
    · rw [size, front, List.length_append]
      exact Nat.le_add_right _ _
    · rw [size, front, List.length_append]
      exact Nat.lt_add_of_pos_right (List.length_pos_of_ne_nil (early html))
  have lexeme : other.lexeme (Token.textOf (token :: later)) = (token.kind, token.text.length) := by
    rw [State.lexeme, mode, arrow, ← State.lexeme, ← same]
    exact Prod.ext kind size
  have again : other.token (Token.textOf (token :: later)) =
      ⟨token.kind, token.text, other.line⟩ := by
    rw [State.token, lexeme, front, List.take_left]
  rw [tokensFrom_step other ends.ne_nil, again, front, List.drop_left]

theorem State.after_moved (mode : other.mode = state.mode)
    (arrow : other.afterArrow = state.afterArrow) :
    (other.after ⟨token.kind, token.text, other.line⟩).mode = (state.after token).mode ∧
      (other.after ⟨token.kind, token.text, other.line⟩).afterArrow =
        (state.after token).afterArrow := by
  rw [State.after, State.after, mode, arrow]
  exact ⟨rfl, rfl⟩

/-- A scan that is cut behind a symbol finds the tokens up to it. -/
theorem tokensFrom_cut (cut : tokensFrom state (Token.textOf (range ++ last :: after)) =
      range ++ last :: after)
    (symbolic : last.kind.isSymbol = true) (mode : other.mode = state.mode)
    (arrow : other.afterArrow = state.afterArrow) :
    (tokensFrom other (Token.textOf (range ++ [last]))).map shape =
      (range ++ [last]).map shape := by
  have code := TokenKind.code_of_isSymbol symbolic
  have ends : Text.EndsInSymbol (Token.textOf [last]) := by
    obtain ⟨_, rule⟩ := rule_of_cut range cut code
    obtain ⟨c, spelled, isOne⟩ := rule.symbolText symbolic
    refine ⟨c, ?_, by rw [isOne]; rfl⟩
    rw [Token.textOf_cons, spelled]
    rfl
  induction range generalizing state other with
  | nil =>
      obtain ⟨made, -, -, -⟩ := scan_cons cut
      have php := mode_eq_php (made ▸ code)
      have early : state.mode = .html → Token.textOf [] ≠ [] := fun html => by
        rw [php] at html
        cases html
      have found : tokensFrom other (Token.textOf [last]) = _ :: tokensFrom _ (Token.textOf []) :=
        tokensFrom_of_cut cut ends early mode arrow
      rw [List.nil_append, found]
      rfl
  | cons token range ih =>
      obtain ⟨made, -, -, later⟩ := scan_cons cut
      have behind : Text.EndsInSymbol (Token.textOf (range ++ [last])) := by
        rw [Token.textOf_append]
        exact ends.append _
      have cut : tokensFrom state (Token.textOf (token :: ((range ++ [last]) ++ after))) =
          token :: ((range ++ [last]) ++ after) := by
        rw [List.append_assoc]
        exact cut
      obtain ⟨sameMode, sameArrow⟩ := State.after_moved mode arrow
      rw [List.cons_append, tokensFrom_of_cut cut (behind.append token.text)
        (fun _ => behind.ne_nil) mode arrow, List.map_cons, ih later sameMode sameArrow]
      rfl

theorem tokensFrom_between {first : Token}
    (cut : tokensFrom state (Token.textOf (first :: (range ++ last :: after))) =
      first :: (range ++ last :: after))
    (opens : first.kind.isSymbol = true) (closes : last.kind.isSymbol = true)
    (php : other.mode = .php) :
    (tokensFrom other (Token.textOf (first :: (range ++ [last])))).map shape =
      (first :: (range ++ [last])).map shape := by
  have code := TokenKind.code_of_isSymbol opens
  obtain ⟨made, filled, -, later⟩ := scan_cons cut
  obtain ⟨_, rule⟩ := rule_of_cut [] cut code
  obtain ⟨c, spelled, isOne⟩ := rule.symbolText opens
  have again (rest : Text) : phpLexeme other.afterArrow (first.text ++ rest) =
      (first.kind, first.text.length) := by
    rw [spelled]
    exact (Rule.punctuation c rest first.kind isOne).phpLexeme_eq
  have inPhp : state.mode = .php := mode_eq_php (made ▸ code)
  have mode : (other.after ⟨first.kind, first.text, other.line⟩).mode =
      (state.after first).mode := by
    change modeAfter other.mode first.kind = modeAfter state.mode first.kind
    rw [php, inPhp]
  have arrow : (other.after ⟨first.kind, first.text, other.line⟩).afterArrow =
      (state.after first).afterArrow := by
    rw [State.after, State.after, TokenKind.solid_of_isSymbol opens]
    rfl
  rw [Token.textOf_cons, tokensFrom_lexeme php filled (again _), List.map_cons,
    tokensFrom_cut later closes mode arrow]
  rfl

end Cut

end Scan

end PhpWeave
