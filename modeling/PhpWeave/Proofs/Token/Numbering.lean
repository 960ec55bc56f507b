import PhpWeave.Proofs.Text.Lines
import PhpWeave.Proofs.Token.Growth
import PhpWeave.Proofs.Token.Replacement

set_option autoImplicit false

/-!
The lines that tokens say. A token says the line it begins on: one more than the line feeds of the
text in front of it, up to the last line that is counted. So lines only go up from token to token,
and a token ends before the next one begins, a line feed at its end not being counted.
-/

namespace PhpWeave

open Scan

theorem lineAfter_eq {line : Nat} (limited : line ≤ lineLimit) (shapes : List Shape) :
    lineAfter line shapes = min (line + Text.newlines (spell shapes)) lineLimit := by
  induction shapes generalizing line with
  | nil => exact (Nat.min_eq_left limited).symm
  | cons shape shapes ih =>
      have here : lineAfter line (shape :: shapes) =
          lineAfter (min (line + Text.newlines shape.2) lineLimit) shapes := rfl
      have text : Text.newlines (spell (shape :: shapes)) =
          Text.newlines shape.2 + Text.newlines (spell shapes) := Text.newlines_append _ _
      rw [here, ih (Nat.min_le_right _ _), text]
      omega

namespace Tokens

variable {tokens : Tokens}

/-- The line feeds in front of a position. -/
def feedsBefore (tokens : Tokens) (index : Nat) : Nat :=
  Text.newlines (tokens.textBetween 0 index)

theorem feedsBefore_le {index other : Nat} (order : index ≤ other) :
    tokens.feedsBefore index ≤ tokens.feedsBefore other := by
  rw [feedsBefore, feedsBefore, ← textBetween_append (Nat.zero_le index) order,
    Text.newlines_append]
  exact Nat.le_add_right _ _

theorem feedsBefore_succ {index : Nat} {token : Token} (here : tokens[index]? = some token) :
    tokens.feedsBefore (index + 1) = tokens.feedsBefore index + Text.newlines token.text := by
  rw [feedsBefore, textBetween_succ (Nat.zero_le index) here, Text.newlines_append, feedsBefore]

/-- Each token says the line it begins on, as far as lines are counted. -/
def Numbered (tokens : Tokens) : Prop :=
  ∀ (index : Nat) (token : Token), tokens[index]? = some token →
    token.line = min (tokens.feedsBefore index + 1) lineLimit

theorem numbered_scan (mode : Mode) (source : Text) : Numbered (scan mode source).toArray := by
  intro index token here
  rw [List.getElem?_toArray] at here
  obtain ⟨inside, same⟩ := List.getElem?_eq_some_iff.mp here
  have cut : tokensFrom (State.start mode) source =
      (scan mode source).take index ++ (scan mode source).drop index :=
    (List.take_append_drop index _).symm
  have later := (numbered_of_cut cut).2
  rw [List.drop_eq_getElem_cons inside, same, List.map_cons, numbered] at later
  have line : lineAfter 1 (((scan mode source).take index).map shape) = token.line :=
    congrArg Token.line (List.cons.inj later).1
  rw [← line, lineAfter_eq (by decide), spell_shapes, feedsBefore, textBetween, Nat.add_comm 1]
  congr 4
  rw [List.extract_toArray, List.extract_eq_take_drop, List.drop_zero, Nat.sub_zero]

theorem feedsBefore_scan (mode : Mode) (source : Text) :
    Tokens.feedsBefore (scan mode source).toArray (scan mode source).toArray.size =
      Text.newlines source := by
  rw [feedsBefore, textBetween, Array.extract_size, scan_eq, (tokensFrom_spells _ source).1]

variable (lined : tokens.Numbered)
include lined

theorem Numbered.line_le_line {index other : Nat} (order : index ≤ other) {token later : Token}
    (here : tokens[index]? = some token) (there : tokens[other]? = some later) :
    token.line ≤ later.line := by
  have feeds := tokens.feedsBefore_le order
  rw [lined index token here, lined other later there]
  omega

/-- A token ends no later than the next one begins. A line that is not counted any more wraps to one
of the first, so the bound holds for those as well. -/
theorem Numbered.endLine_le_line {index other : Nat} (order : index < other) {token later : Token}
    (here : tokens[index]? = some token) (there : tokens[other]? = some later) :
    token.endLine ≤ later.line := by
  have inner := Text.newlines_dropFinalNewline_le token.text
  have feeds := tokens.feedsBefore_le (Nat.succ_le_of_lt order)
  rw [Nat.succ_eq_add_one, feedsBefore_succ here] at feeds
  rw [Token.endLine, lined index token here, lined other later there]
  rcases Nat.lt_or_ge (min (tokens.feedsBefore index + 1) lineLimit +
      min (Text.newlines (Text.dropFinalNewline token.text)) lineLimit)
      (lineLimit + 1) with fits | wraps
  · rw [Nat.mod_eq_of_lt fits]
    omega
  · refine Nat.le_trans (Nat.le_of_lt_succ (Nat.mod_lt _ (Nat.succ_pos lineLimit))) ?_
    omega

/-- In a text with fewer lines than are counted, a token says its line, and the line it ends on is
the one of its last character. -/
theorem Numbered.counted {feeds : Nat} (total : tokens.feedsBefore tokens.size = feeds)
    (few : feeds < lineLimit) {index : Nat} {token : Token} (here : tokens[index]? = some token) :
    token.line = tokens.feedsBefore index + 1 ∧
      token.endLine = token.line + Text.newlines (Text.dropFinalNewline token.text) := by
  have inside := (Array.getElem?_eq_some_iff.mp here).1
  have inner := Text.newlines_dropFinalNewline_le token.text
  have bound := tokens.feedsBefore_le (Nat.succ_le_of_lt inside)
  rw [Nat.succ_eq_add_one, feedsBefore_succ here, total] at bound
  have line := lined index token here
  refine ⟨by omega, ?_⟩
  rw [Token.endLine, Nat.min_eq_left (by omega), Nat.mod_eq_of_lt (by omega)]

theorem Numbered.endLine_le_lineCount {source : Text}
    (whole : tokens.textBetween 0 tokens.size = source) (few : Text.newlines source < lineLimit)
    {index : Nat} {token : Token} (here : tokens[index]? = some token) (filled : token.text ≠ []) :
    token.endLine ≤ Text.lineCount source := by
  have inside := (Array.getElem?_eq_some_iff.mp here).1
  obtain ⟨front, last, text⟩ := Text.exists_concat filled
  have total : tokens.feedsBefore tokens.size = Text.newlines source := congrArg _ whole
  obtain ⟨line, ending⟩ := lined.counted total few here
  have split : source = (tokens.textBetween 0 index ++ front) ++
      last :: tokens.textBetween (index + 1) tokens.size := by
    rw [← whole, ← textBetween_append (Nat.zero_le (index + 1)) inside,
      textBetween_succ (Nat.zero_le index) here, text]
    simp only [List.append_assoc, List.cons_append, List.nil_append]
  have before := Text.newlines_lt_lineCount (tokens.textBetween 0 index ++ front) last
    (tokens.textBetween (index + 1) tokens.size)
  rw [← split, Text.newlines_append] at before
  rw [ending, line, text, Text.newlines_dropFinalNewline, feedsBefore]
  omega

end Tokens

namespace TokenStream

/-- The lines of a token in a text that has few enough of them to be counted. -/
structure Lined (tokens : Tokens) (index : Nat) (token : Token) : Prop where
  line : token.line = 1 + Text.newlines (tokens.textBetween 0 index)
  endLine : token.endLine = token.line + Text.newlines (Text.dropFinalNewline token.text)
  /-- Each number of lines in a token can be counted, as can its sum with the line of the token: it
  neither stays at the limit nor begins again. -/
  fits : token.line + Text.newlines token.text ≤ lineLimit
  order : token.line ≤ token.endLine
  next : ∀ later, tokens[index + 1]? = some later → token.endLine ≤ later.line

/-- In a text with fewer line feeds than the last line that can be counted, scanned from outside PHP
code or from inside, every token says the line it begins on and that of its last character. -/
theorem lined_of_scan {source : Text} (few : Text.newlines source < lineLimit) (mode : Mode)
    (index : Nat) (token : Token) (here : (ofText mode source).tokens[index]? = some token) :
    Lined (ofText mode source).tokens index token := by
  have lined : (ofText mode source).tokens.Numbered := Tokens.numbered_scan mode source
  have total := Tokens.feedsBefore_scan mode source
  obtain ⟨line, endLine⟩ := lined.counted total few here
  have inside := (Array.getElem?_eq_some_iff.mp here).1
  have upto : (ofText mode source).tokens.feedsBefore (index + 1) ≤ Text.newlines source :=
    total ▸ Tokens.feedsBefore_le (Nat.succ_le_of_lt inside)
  rw [Tokens.feedsBefore_succ here] at upto
  refine ⟨line.trans (Nat.add_comm _ 1), endLine, by omega, endLine ▸ Nat.le_add_right _ _, ?_⟩
  exact fun later there => lined.endLine_le_line (Nat.lt_succ_self index) here there

/-- A comment over two lines, a string that ends on the next one, and a close tag with its line
feed. -/
theorem lined_of_scan_comment :
    let source := "/* a\n */\n'b\n' ?>\nc".toList
    let tokens := (ofText .php source).tokens
    Text.newlines source < lineLimit ∧
      (tokens[2]?.map fun token => (token.text, token.line, token.endLine)) =
        some ("'b\n'".toList, 3, 4) ∧
      ∃ token, tokens[2]? = some token ∧ Lined tokens 2 token := by
  intro source tokens
  have few : Text.newlines source < lineLimit := by decide
  have told : (tokens[2]?.map fun token => (token.text, token.line, token.endLine)) =
      some ("'b\n'".toList, 3, 4) := by decide +kernel
  obtain ⟨token, here, -⟩ := Option.map_eq_some_iff.mp told
  exact ⟨few, told, token, here, lined_of_scan few .php 2 token here⟩

end TokenStream
end PhpWeave
