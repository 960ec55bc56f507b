import PhpWeave.Proofs.Weave.Attribute
import PhpWeave.Proofs.Weave.Lookalikes

set_option autoImplicit false

/-!
Words of the language. Most of them are read as plain names, and stand in front of parentheses as
functions do that are called. A redirection tells them apart by its list of reserved words and by
the tokens on both sides of a name.
-/

namespace PhpWeave

open Scan PhpWeave.Tree

def Reserved.grammarNames : List String :=
  ["__halt_compiler", "abstract", "and", "array", "as", "break", "callable", "case", "catch",
    "class", "clone", "const", "continue", "declare", "default", "die", "do", "echo", "else",
    "elseif", "empty", "enddeclare", "endfor", "endforeach", "endif", "endswitch", "endwhile",
    "eval", "exit", "extends", "final", "finally", "fn", "for", "foreach", "from", "function",
    "global", "goto", "if", "implements", "include", "include_once", "instanceof", "insteadof",
    "interface", "isset", "list", "match", "namespace", "new", "or", "parent", "print", "private",
    "protected", "public", "readonly", "require", "require_once", "return", "self", "static",
    "switch", "throw", "trait", "try", "unset", "use", "var", "while", "xor", "yield"]

def Reserved.grammar : List Text := grammarNames.map String.toList

/-- The words of the grammar are reserved, but for the second one of `yield from`. -/
theorem Reserved.words_of_grammar {word : Text} (member : word ∈ grammar)
    (other : word ≠ "from".toList) : word ∈ words := by
  have all : ∀ word ∈ grammar, word ≠ "from".toList → word ∈ words := by decide +kernel
  exact all word member other

theorem Reference.isReserved_of_lower {reserved : List Text} {name : Text}
    (member : Text.lower name ∈ Reserved.words) (among : Reserved.words ⊆ reserved) :
    isReserved reserved name = true := by
  have plain : ∀ word ∈ Reserved.words, word.head? ≠ some '\\' := by decide
  have whole : Text.dropLeadingSeparators name = name := by
    cases name with
    | nil => rfl
    | cons c rest =>
        refine List.dropWhile_cons_of_neg fun isMark => ?_
        refine plain _ member ?_
        rw [eq_of_beq isMark]
        rfl
  rw [isReserved, whole, List.contains_iff_mem]
  exact among member

theorem TokenKind.ofWord_apart (word : Text) :
    ofWord word ≠ .openParen ∧ ofWord word ≠ .doubleColon := by
  have all : ∀ entry ∈ keywords, entry.2 ≠ .openParen ∧ entry.2 ≠ .doubleColon := by decide +kernel
  rcases ofWord_cases word with plain | member
  · rw [plain]
    exact ⟨TokenKind.noConfusion, TokenKind.noConfusion⟩
  · exact all _ member

namespace Tokens

variable {tokens : Tokens} {before index : Nat}

theorem prevSignificant_of_trivia (order : before < index) (inside : index ≤ tokens.size)
    {token : Token} (here : tokens[before]? = some token) (solid : token.kind.isTrivia = false)
    (trivia : ∀ other, before < other → other < index →
      ∀ found, tokens[other]? = some found → found.kind.isTrivia = true) :
    tokens.prevSignificant index = some before := by
  rw [prevSignificant, lastBefore, Nat.min_eq_left inside]
  induction index, order using Nat.le_induction with
  | base =>
      rw [lastBelow, here, Option.map_some, Option.getD_some, isSignificant, solid]
      rfl
  | succ index order ih =>
      have there : tokens[index]? = some tokens[index] := Array.getElem?_eq_getElem (by omega)
      have blank := trivia index order (Nat.lt_succ_self index) _ there
      rw [lastBelow, there, Option.map_some, Option.getD_some, isSignificant, blank]
      exact ih (Nat.le_of_succ_le inside) fun other behind early =>
        trivia other behind (Nat.lt_succ_of_lt early)

/-- A name stands behind the word that makes objects, and is the name of a class. -/
def IsMade (tokens : Tokens) (index : Nat) : Prop :=
  ∃ word token, tokens.prevSignificant index = some word ∧ tokens[word]? = some token ∧
    TokenKind.ofWord token.text = .kwNew

/-- A name stands in front of a parenthesis or a double colon, and is the name of a function that is
called or of a class whose member is used. -/
def IsAddressed (tokens : Tokens) (index : Nat) : Prop :=
  ∃ next, tokens.nextSignificant (index + 1) = some next ∧
    (tokens.kindAt next = some .openParen ∨ tokens.kindAt next = some .doubleColon)

end Tokens

namespace Redirection

theorem around_of_use? {tokens : Tokens} {index : Nat} {use : NameUse}
    (used : Reference.use? tokens index = some use) :
    ((tokens.prevKind index).map Reference.precedesOwnName).getD false = false ∧
      (tokens.prevKind index = some .kwNew ∨ tokens.IsAddressed index) := by
  unfold Reference.use? at used
  split at used
  case h_4 => cases used
  all_goals
    split at used
    · cases used
    split at used
    · next isNew =>
        rw [isNew]
        exact ⟨rfl, .inl rfl⟩
    split at used
    · cases used
    next free =>
    obtain ⟨next, search, asked⟩ := Option.bind_eq_some_iff.mp used
    refine ⟨eq_false_of_ne_true free, .inr ⟨next, search, ?_⟩⟩
    split at asked
    · next isParen => exact .inl (beq_iff_eq.mp isParen)
    split at asked
    · next isColons => exact .inr (beq_iff_eq.mp isColons)
    · cases asked

section Piece

variable {tree : Tree} {source : Text} {stretches : List Stretch}
  (ranges : tree.Ranges (TokenStream.ofText .html source).tokens stretches)
  {id first stop place : Nat} (member : ⟨.body id, first, stop⟩ ∈ stretches)
  (editable : (tree.node id).isEditable = true)
include ranges member editable

theorem alike_piece : (Fragment.tokens (tree.node id).body).size = stop - first ∧
    ∃ forgot, ∀ place < stop - first, ∃ token found,
      (TokenStream.ofText .html source).tokens[first + place]? = some token ∧
        (Fragment.tokens (tree.node id).body)[place]? = some found ∧ Alike forgot token found := by
  obtain ⟨size, forgot, each⟩ := ranges.alike_at member editable
  refine ⟨List.size_toArray.trans size, forgot, fun place inside => ?_⟩
  obtain ⟨token, found, there, here, alike⟩ := each place inside
  exact ⟨token, found, there, List.getElem?_toArray.trans here, alike⟩

theorem isAddressed_of_piece (addressed : (Fragment.tokens (tree.node id).body).IsAddressed place) :
    (TokenStream.ofText .html source).tokens.IsAddressed (first + place) := by
  obtain ⟨next, search, isAt⟩ := addressed
  obtain ⟨size, forgot, each⟩ := alike_piece ranges member editable
  obtain ⟨behind, found, here, solid⟩ := Tokens.firstFrom_some search
  have inside : next < stop - first := size ▸ (Array.getElem?_eq_some_iff.mp here).1
  obtain ⟨token, again, there, isAgain, alike⟩ := each next inside
  obtain rfl : again = found := Option.some.inj (isAgain.symm.trans here)
  obtain ⟨gap, rfl⟩ := Nat.exists_eq_add_of_le behind
  have shifted : first + (place + 1 + gap) = first + place + 1 + gap := by omega
  refine ⟨first + (place + 1 + gap), ?_, ?_⟩
  · rw [shifted] at there ⊢
    refine Tokens.firstFrom_of_before there ?_ fun less early other isOther => ?_
    · rw [Tokens.isSignificant, ← alike.isArrow.1]
      exact solid
    · obtain ⟨old, new, isOld, isNew, one⟩ := each (place + 1 + less) (by omega)
      rw [show first + (place + 1 + less) = first + place + 1 + less by omega, isOther] at isOld
      obtain rfl : other = old := Option.some.inj isOld
      rw [Tokens.isSignificant, ← one.isArrow.1]
      exact Tokens.firstFrom_before search _ (Nat.le_add_right _ _) (by omega) _ isNew
  · -- Neither a parenthesis nor a double colon is a word, so the file has the same kind there.
    have same : again.kind = token.kind := by
      refine alike.kind.resolve_right fun forgets => ?_
      obtain ⟨noParen, noColons⟩ := TokenKind.ofWord_apart token.text
      rw [Tokens.kindAt, here, Option.map_some, forgets.2.2, Option.some.injEq,
        Option.some.injEq] at isAt
      exact isAt.elim noParen noColons
    rw [Tokens.kindAt, there, Option.map_some, ← same]
    rw [Tokens.kindAt, here] at isAt
    exact isAt

theorem isMade_of_piece (inside : place < stop - first)
    (made : (Fragment.tokens (tree.node id).body).prevKind place = some .kwNew) :
    (TokenStream.ofText .html source).tokens.IsMade (first + place) := by
  obtain ⟨word, search, isNew⟩ := Option.bind_eq_some_iff.mp made
  obtain ⟨size, forgot, each⟩ := alike_piece ranges member editable
  have within : stop ≤ (TokenStream.ofText .html source).tokens.size :=
    ranges.consecutive.stop_le _ member
  rw [Tokens.prevSignificant, Tokens.lastBefore, size, Nat.min_eq_left (Nat.le_of_lt inside)]
    at search
  obtain ⟨order, ⟨found, here, solid⟩, trivia⟩ := Tokens.lastBelow_some search
  obtain ⟨token, again, there, isAgain, alike⟩ := each word (Nat.lt_trans order inside)
  obtain rfl : again = found := Option.some.inj (isAgain.symm.trans here)
  rw [Tokens.isSignificant, Bool.not_eq_true', alike.isArrow.1] at solid
  refine ⟨first + word, token, ?_, there, ?_⟩
  · refine Tokens.prevSignificant_of_trivia (by omega) (by omega) there solid ?_
    intro other after early old isOld
    obtain ⟨same, new, isSame, isNew, one⟩ := each (other - first) (by omega)
    rw [Nat.add_sub_cancel' (show first ≤ other by omega), isOld] at isSame
    obtain rfl : old = same := Option.some.inj isSame
    have blank := trivia (other - first) (by omega) (by omega) new isNew
    rw [Tokens.isSignificant, Bool.not_eq_false', one.isArrow.1] at blank
    exact blank
  · rw [Tokens.kindAt, here] at isNew
    have isOne : again.kind = .kwNew := Option.some.inj isNew
    rw [Fragment.tokens, List.getElem?_toArray] at here
    rw [← alike.text, ← isOne]
    exact Scan.ofWord_of_mem (List.mem_of_getElem? here) (isOne ▸ rfl)

theorem names_of_piece {index : Nat} (behind : first ≤ index) (early : index < stop)
    {token : Token} (here : (TokenStream.ofText .html source).tokens[index]? = some token)
    {reserved : List Text} {imports : ImportTable} {found : Token} {reference : Reference}
    (refers : Refers reserved imports (Fragment.tokens (tree.node id).body) found reference
      (index - first)) :
    isReferable token.kind = true ∧ ((TokenStream.ofText .html source).tokens.IsMade index ∨
      (TokenStream.ofText .html source).tokens.IsAddressed index) := by
  have inside : index - first < stop - first := by omega
  have whole : first + (index - first) = index := Nat.add_sub_cancel' behind
  constructor
  · obtain ⟨-, forgot, each⟩ := alike_piece ranges member editable
    obtain ⟨old, again, isOld, isAgain, alike⟩ := each (index - first) inside
    rw [whole, here] at isOld
    obtain rfl : token = old := Option.some.inj isOld
    obtain rfl : again = found := Option.some.inj (isAgain.symm.trans refers.here)
    rcases alike.kind with same | ⟨-, isName, -⟩
    · rw [← same]
      exact refers.isReferable
    · rw [isName]
      rfl
  · rcases (around_of_use? refers.used).2 with made | addressed
    · exact .inl (whole ▸ isMade_of_piece ranges member editable inside made)
    · exact .inr (whole ▸ isAddressed_of_piece ranges member editable addressed)

end Piece

/-- What a redirection replaces in a file, and which words it leaves as they are. -/
structure SparesWords (redirection : Redirection) (tree : Tree) (tokens : Tokens)
    (stretches : List Stretch) (put : Nat → Text) : Prop where
  /-- The redirected file without its assignments, told by what is put down for each token. -/
  source : ∀ file, (Weaver.weave redirection tree file).2.writtenText =
    (List.range tokens.size).flatMap put
  fixed : ∀ index token, tokens[index]? = some token →
    (∀ id, ¬ tree.HoldsCode stretches id index) → put index = token.text
  /-- Wherever a word of the grammar stands, and in whatever case. -/
  words : ∀ index token, tokens[index]? = some token →
    Text.lower token.text ∈ Reserved.grammar → Text.lower token.text ≠ "from".toList →
      put index = token.text
  /-- Names of members and of what is declared. -/
  apart : ∀ before index token kind, tokens[index]? = some token → tokens.Adjoins before index →
    tokens.kindAt before = some kind → Reference.precedesOwnName kind = true →
      put index = token.text
  /-- All else that is replaced is the name of a class or of a function that is called, and a
  variable of the file stands in its place. -/
  only : ∀ index token, tokens[index]? = some token → put index ≠ token.text →
    isReferable token.kind = true ∧ (tokens.IsMade index ∨ tokens.IsAddressed index) ∧
      ∃ number < (redirection.redirect tree).1.count, put index = redirection.variableAt number

theorem goesOn_of_precedesOwnName {kind : TokenKind}
    (precedes : Reference.precedesOwnName kind = true) :
    kind.cutsBehind = false ∧ kind.isTrivia = false ∧ kind ≠ .identifier := by
  cases kind <;> first | exact ⟨rfl, rfl, TokenKind.noConfusion⟩ | cases precedes

section Choices

variable {redirection : Redirection} {tree : Tree} {source : Text} {stretches : List Stretch}
  (ranges : tree.Ranges (TokenStream.ofText .html source).tokens stretches)
  (linked : tree.Linked) {index : Nat} {token : Token}
  (here : (TokenStream.ofText .html source).tokens[index]? = some token)
include ranges linked here

theorem chosen_of_putAt :
    putAt stretches (TokenStream.ofText .html source).tokens (redirection.choice tree) index =
        token.text ∨
      ∃ id first stop found reference block, ⟨.body id, first, stop⟩ ∈ stretches ∧
        first ≤ index ∧ index < stop ∧ Chosen redirection tree id (index - first)
          (putAt stretches (TokenStream.ofText .html source).tokens (redirection.choice tree) index)
          found reference block := by
  have rewrites := redirection.rewrites_redirect linked
  rcases ranges.putAt_cases rewrites.inCode here with same |
    ⟨id, first, stop, text, among, -, behind, early, choice⟩
  · exact .inl same
  · obtain ⟨found, reference, block, chosen⟩ := choice_eq_some choice
    refine .inr ⟨id, first, stop, found, reference, block, among, behind, early, ?_⟩
    rw [ranges.putAt_eq among ⟨behind, early⟩, Stretch.putAt]
    simp only [choice, Option.getD_some]
    exact chosen

theorem putAt_of_isReserved (isOne : redirection.isReserved token.text = true) :
    putAt stretches (TokenStream.ofText .html source).tokens (redirection.choice tree) index =
      token.text := by
  rcases chosen_of_putAt ranges linked here with same |
    ⟨id, first, stop, found, reference, block, among, behind, early, chosen⟩
  · exact same
  · obtain ⟨-, each⟩ := ranges.piece_at among chosen.editable
    have spelled := (each (index - first) (by omega)).1
    rw [Nat.add_sub_cancel' behind, Tokens.textAt_of_getElem? here,
      Tokens.textAt_of_getElem? chosen.refers.here] at spelled
    have free := chosen.refers.free
    rw [spelled, ← isReserved, isOne] at free
    cases free

theorem putAt_reserved (reserved : Reserved.words ⊆ redirection.reserved)
    (isOne : Text.lower token.text ∈ Reserved.words) :
    putAt stretches (TokenStream.ofText .html source).tokens (redirection.choice tree) index =
      token.text :=
  putAt_of_isReserved ranges linked here (Reference.isReserved_of_lower isOne reserved)

/-- Something else is put down for names of classes and of functions that are called only, and it is
a variable of the file. -/
theorem putAt_name (replaced : putAt stretches (TokenStream.ofText .html source).tokens
      (redirection.choice tree) index ≠ token.text) :
    isReferable token.kind = true ∧ ((TokenStream.ofText .html source).tokens.IsMade index ∨
      (TokenStream.ofText .html source).tokens.IsAddressed index) ∧
      ∃ number < (redirection.redirect tree).1.count,
        putAt stretches (TokenStream.ofText .html source).tokens (redirection.choice tree) index =
          redirection.variableAt number := by
  obtain ⟨id, first, stop, found, reference, block, among, behind, early, chosen⟩ :=
    (chosen_of_putAt ranges linked here).resolve_left replaced
  obtain ⟨isName, stands⟩ :=
    names_of_piece ranges among chosen.editable behind early here chosen.refers
  have part : Part.body id ∈ tree.parts := by
    rw [← ranges.parts]
    exact List.mem_map_of_mem among
  have editing : id ∈ tree.editableNodes :=
    List.mem_filter.mpr ⟨preorder_of_body_mem_tour part, chosen.editable⟩
  refine ⟨isName, stands, (redirection.ledger tree).number block reference, ?_, ?_⟩
  · rw [(redirected_redirect redirection linked).1]
    exact Ledger.number_lt (any_ledgerOf editing chosen.host chosen.entry)
  · rw [chosen.text, variableIn]

end Choices

/-- In every file that has a tree, a redirection leaves the words of the grammar as they are, but
for the second one of `yield from`, and replaces names of functions and classes only. -/
theorem words_of_parse {listLines : Bool} {source : Text} {tree : Tree}
    (parsed : parse listLines source = .ok tree) {redirection : Redirection}
    (reserved : Reserved.words ⊆ redirection.reserved) :
    ∃ stretches, tree.Ranges (TokenStream.ofText .html source).tokens stretches ∧
      redirection.SparesWords tree (TokenStream.ofText .html source).tokens stretches
        (putAt stretches (TokenStream.ofText .html source).tokens (redirection.choice tree)) := by
  obtain ⟨events, stretches, told⟩ := told_of_parse parsed
  have native := native_of_parse parsed
  have linked := native.linked
  obtain ⟨-, whole, -⟩ := made_of_parse parsed
  have rewrites := redirection.rewrites_redirect linked
  refine ⟨stretches, told.ranges, ?_, ?_, ?_, ?_, ?_⟩
  · exact writtenText_of_ranges told.ranges native whole redirection
  · exact fun _ _ here outside => told.ranges.putAt_fixed rewrites.inCode here outside
  · exact fun _ _ here member other =>
      putAt_reserved told.ranges linked here reserved (Reserved.words_of_grammar member other)
  · intro before index token kind here adjoins isBefore precedes
    rcases chosen_of_putAt told.ranges linked here with same |
      ⟨id, first, stop, found, reference, block, among, behind, early, chosen⟩
    · exact same
    · obtain ⟨goesOn, solid, noName⟩ := goesOn_of_precedesOwnName precedes
      have inTree : id < tree.size := (told.ranges.over_root linked among).1
      have back := told.prevKind_piece linked (below_of_editable parsed inTree chosen.editable)
        among chosen.editable behind early adjoins isBefore goesOn solid noName
      have free := (around_of_use? chosen.refers.used).1
      rw [back, Option.map_some, Option.getD_some, precedes] at free
      cases free
  · exact fun _ _ here replaced => putAt_name told.ranges linked here replaced

/-- Words of the grammar in front of parentheses, between them a call. -/
theorem words_of_parse_calls :
    let source := "<?php IF (isset($a) AND (f($a))) \x7b exit(1); \x7d".toList
    ∃ tree stretches, Reserved.words ⊆ ({} : Redirection).reserved ∧
      parse false source = .ok tree ∧
      SparesWords {} tree (TokenStream.ofText .html source).tokens stretches
        (putAt stretches (TokenStream.ofText .html source).tokens
          (choice ({} : Redirection) tree)) := by
  intro source
  have closes : (parse false source).toBool = true := by decide +kernel
  cases parsed : parse false source with
  | error fault =>
      rw [parsed] at closes
      cases closes
  | ok tree =>
      have reserved : Reserved.words ⊆ ({} : Redirection).reserved := List.Subset.refl _
      obtain ⟨stretches, -, spares⟩ := words_of_parse parsed reserved
      exact ⟨tree, stretches, reserved, rfl, spares⟩

/-- The second word of `yield from` is no reserved word, and is taken for a function in front of a
parenthesis. -/
theorem from_taken_for_call :
    ((parse false "<?php function f() \x7b yield from (g()); \x7d".toList).toOption.map fun tree =>
      (Weaver.weave ({} : Redirection) tree none).2.source) =
        some ("<?php function f() \x7b$__KMONKEY__0 = \\Kahlan\\Plugin\\Monkey::patched(".toList ++
          "__NAMESPACE__, 'from', true); $__KMONKEY__1 = ".toList ++
            "\\Kahlan\\Plugin\\Monkey::patched(__NAMESPACE__, 'g', true);".toList ++
              " yield $__KMONKEY__0 ($__KMONKEY__1()); \x7d".toList) := by
  decide +kernel

end Redirection
end PhpWeave
