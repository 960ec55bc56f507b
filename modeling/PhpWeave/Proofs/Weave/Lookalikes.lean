import PhpWeave.Proofs.Grammar.Naming
import PhpWeave.Proofs.Weave.Edits
import PhpWeave.Proofs.Weave.Tokenwise

set_option autoImplicit false

/-!
Words that only look like those an edit is for. Members are named by words directly behind a member
operator, and functions by words directly behind the word `function`. The hook for exits and pinned
paths put such names down as they are, as far as each of them looks at what stands in front.
-/

namespace PhpWeave

open Scan PhpWeave.Tree

/-! ### Edits that mind what stands in front -/

def TokenKind.isArrow (kind : TokenKind) : Bool := kind = .arrow || kind = .nullsafeArrow

namespace Fragment

structure Minds (choose : Tokens → Nat → Option Text) (words : List TokenKind)
    (apart : TokenKind → Bool) : Prop where
  replaces : ∀ code index text, choose (tokens code) index = some text →
    ∃ kind ∈ words, (tokens code).kindAt index = some kind
  keywords : ∀ kind ∈ words, kind.isKeyword = true
  spares : ∀ code index kind, (tokens code).prevKind index = some kind → apart kind = true →
    choose (tokens code) index = none
  goesOn : ∀ kind, apart kind = true →
    kind.cutsBehind = false ∧ kind.isTrivia = false ∧ kind ≠ .identifier

end Fragment

theorem ExitHook.minds (exitHook : ExitHook) :
    Fragment.Minds exitHook.choose [.kwExit] ExitHook.precedesName where
  replaces := by
    intro code index text chosen
    unfold choose at chosen
    split at chosen
    · next isExit =>
        exact ⟨_, List.mem_singleton_self _, eq_of_beq (Bool.and_eq_true_iff.mp isExit).1⟩
    · cases chosen
  keywords := by
    intro kind member
    rw [List.mem_singleton.mp member]
    rfl
  spares := by
    intro code index kind behind apart
    rw [choose, behind, Option.map_some, Option.getD_some, apart, Bool.not_true, Bool.and_false,
      if_neg Bool.false_ne_true]
  goesOn := by
    intro kind apart
    cases kind <;> first | exact ⟨rfl, rfl, TokenKind.noConfusion⟩ | cases apart

theorem PathPin.minds (path : Path) :
    Fragment.Minds (PathPin.choose path) [.magicDir, .magicFile] TokenKind.isArrow where
  replaces := by
    intro code index text chosen
    unfold choose at chosen
    split at chosen
    · next isDir => exact ⟨_, List.mem_cons_self, eq_of_beq isDir⟩
    · split at chosen
      · next isFile => exact ⟨_, List.mem_cons_of_mem _ List.mem_cons_self, eq_of_beq isFile⟩
      · cases chosen
  keywords := by decide
  spares := by
    intro code index kind behind apart
    -- The scan of the piece has seen the arrow, and finds no keyword behind it.
    have noWord {word : TokenKind} (isOne : word.isKeyword = true) :
        (Fragment.tokens code).isAt index word = false := by
      refine eq_false_of_ne_true fun isAt => ?_
      obtain ⟨noArrow, noNullsafe⟩ : (Fragment.tokens code).prevKind index ≠ some .arrow ∧
          (Fragment.tokens code).prevKind index ≠ some .nullsafeArrow :=
        Scan.keyword_apart rfl (eq_of_beq isAt) isOne
      rw [behind] at noArrow noNullsafe
      rw [TokenKind.isArrow, Bool.or_eq_true, decide_eq_true_eq, decide_eq_true_eq] at apart
      rcases apart with rfl | rfl
      · exact noArrow rfl
      · exact noNullsafe rfl
    rw [choose, noWord rfl, noWord rfl, if_neg Bool.false_ne_true, if_neg Bool.false_ne_true]
  goesOn := by
    intro kind apart
    cases kind <;> first | exact ⟨rfl, rfl, TokenKind.noConfusion⟩ | cases apart

/-- What an edit leaves as it is: all words but those of some kinds, everything that is no plain
code, words directly behind some tokens, and names of functions. -/
structure Tree.Spares (tree woven : Tree) (tokens : Tokens) (stretches : List Stretch)
    (words : List TokenKind) (apart : TokenKind → Bool) (put : Nat → Text) : Prop where
  /-- The woven file, told by what is put down for each token. -/
  source : woven.source = (List.range tokens.size).flatMap put
  others : ∀ index token, tokens[index]? = some token → TokenKind.ofWord token.text ∉ words →
    put index = token.text
  fixed : ∀ index token, tokens[index]? = some token →
    (∀ id, ¬ tree.HoldsCode stretches id index) → put index = token.text
  behind : ∀ before index token kind, tokens[index]? = some token →
    tokens.Adjoins before index → tokens.kindAt before = some kind → apart kind = true →
      put index = token.text
  /-- Only behind the word of an import statement that is none may the name of a function be
  code. -/
  named : ∀ word index token, tokens[index]? = some token → tokens.NamesFunction word index →
    put index = token.text ∨ ∃ id other, other < word ∧ tree.HoldsCode stretches id index ∧
      tree.HoldsCode stretches id other ∧ tokens.kindAt other = some .kwUse

theorem Fragment.Minds.ofWord_mem {choose : Tokens → Nat → Option Text} {words : List TokenKind}
    {apart : TokenKind → Bool} (minds : Minds choose words apart) {tree : Tree}
    {stretches : List Stretch} {source : Text}
    (ranges : tree.Ranges (TokenStream.ofText .html source).tokens stretches)
    {id first stop index : Nat} (member : ⟨.body id, first, stop⟩ ∈ stretches)
    (editable : (tree.node id).isEditable = true) (behind : first ≤ index) (early : index < stop)
    {token : Token} (here : (TokenStream.ofText .html source).tokens[index]? = some token)
    {text : Text} (chosen : choose (tokens (tree.node id).body) (index - first) = some text) :
    TokenKind.ofWord token.text ∈ words := by
  obtain ⟨kind, isOne, isAt⟩ := minds.replaces _ _ _ chosen
  obtain ⟨found, there, rfl⟩ := Tokens.kindAt_eq_some.mp isAt
  obtain ⟨-, each⟩ := ranges.piece_at member editable
  have same := (each (index - first) (by omega)).1
  rw [Nat.add_sub_cancel' behind, Tokens.textAt_of_getElem? here,
    Tokens.textAt_of_getElem? there] at same
  rw [Fragment.tokens, List.getElem?_toArray] at there
  rw [← same, Scan.ofWord_of_mem (List.mem_of_getElem? there) (minds.keywords _ isOne)]
  exact isOne

section Spares

variable {tree : Tree} {stretches : List Stretch} {source : Text} {events : List Event}
  (told : Told (TokenStream.ofText .html source).tokens events tree stretches)
  (linked : tree.Linked)
include told linked

theorem Told.prevKind_piece {id first stop before index : Nat} (below : root < id)
    (member : ⟨.body id, first, stop⟩ ∈ stretches) (editable : (tree.node id).isEditable = true)
    (behind : first ≤ index) (early : index < stop)
    (adjoins : (TokenStream.ofText .html source).tokens.Adjoins before index) {kind : TokenKind}
    (isBefore : (TokenStream.ofText .html source).tokens.kindAt before = some kind)
    (goesOn : kind.cutsBehind = false) (solid : kind.isTrivia = false)
    (noName : kind ≠ .identifier) :
    (Fragment.tokens (tree.node id).body).prevKind (index - first) = some kind := by
  obtain ⟨from_, upto, among, since, -⟩ := told.piece_of_adjoins (Scan.spelled_scan .html source)
    (Scan.tagged_scan .html source) linked ⟨editable, first, stop, member, behind, early⟩ below
    adjoins isBefore goesOn
  cases told.ranges.same_stretch linked member among rfl
  obtain ⟨size, each⟩ := told.ranges.piece_at member editable
  have order := adjoins.order
  refine Tokens.prevKind_of_trivia (show before - first < index - first by omega) ?_ ?_
    solid ?_
  · omega
  · refine (each (before - first) (by omega)).2 kind ?_ noName
    rw [Nat.add_sub_cancel' since]
    exact isBefore
  · intro other after until_
    refine ⟨.whitespace, (each other (by omega)).2 _ ?_ TokenKind.noConfusion, rfl⟩
    exact adjoins.blank (first + other) (by omega) (by omega)

variable {choose : Tokens → Nat → Option Text} {words : List TokenKind} {apart : TokenKind → Bool}

/-- An edit that minds what stands in front leaves words alone behind what it minds, and names of
functions wherever they are. -/
theorem Told.spares
    (below : ∀ id < tree.size, (tree.node id).isEditable = true → root < id)
    (minds : Fragment.Minds choose words apart) :
    tree.Spares (tree.editCode choose) (TokenStream.ofText .html source).tokens stretches words
      apart (putAt stretches (TokenStream.ofText .html source).tokens
        (tree.editChoice choose)) := by
  have inCode : tree.ChoosesCode (tree.editChoice choose) := (tree.rewrites_edited choose).inCode
  refine ⟨told.ranges.source_editCode_eq linked choose, ?_, ?_, ?_, ?_⟩
  · intro index token here other
    rcases told.ranges.putAt_cases inCode here with same |
      ⟨id, first, stop, text, member, editable, behind, early, chosen⟩
    · exact same
    · exact absurd (minds.ofWord_mem told.ranges member editable behind early here
        (editChoice_eq_some chosen).2) other
  · exact fun _ _ here outside => told.ranges.putAt_fixed inCode here outside
  · intro before index token kind here adjoins isBefore isApart
    rcases told.ranges.putAt_cases inCode here with same |
      ⟨id, first, stop, text, member, editable, behind, early, chosen⟩
    · exact same
    · obtain ⟨goesOn, solid, noName⟩ := minds.goesOn kind isApart
      have inside : id < tree.size := (told.ranges.over_root linked member).1
      have back := told.prevKind_piece linked (below id inside editable) member editable behind
        early adjoins isBefore goesOn solid noName
      have none := minds.spares _ _ _ back isApart
      rw [(editChoice_eq_some chosen).2] at none
      cases none
  · intro word index token here names
    rcases told.ranges.putAt_cases inCode here with same |
      ⟨id, first, stop, text, member, editable, behind, early, chosen⟩
    · exact .inl same
    · have inside : id < tree.size := (told.ranges.over_root linked member).1
      have holds : tree.HoldsCode stretches id index :=
        ⟨editable, first, stop, member, behind, early⟩
      obtain ⟨other, isBefore, inCode, isUse⟩ := told.use_of_namesFunction
        (Scan.spelled_scan .html source) (Scan.tagged_scan .html source) linked holds
        (below id inside editable) names
      exact .inr ⟨id, other, isBefore, holds, inCode, isUse⟩

end Spares

namespace Tree

/-- What the hook for exits and pinned paths leave as it is in a file. -/
structure Lookalikes (tree : Tree) (source : Text) (stretches : List Stretch) : Prop where
  exits : ∀ (exitHook : ExitHook) (file : Option Path),
    tree.Spares (Weaver.weave exitHook tree file).2 (TokenStream.ofText .html source).tokens
      stretches [.kwExit] ExitHook.precedesName
      (putAt stretches (TokenStream.ofText .html source).tokens (tree.editChoice exitHook.choose))
  paths : ∀ (pin : PathPin) (file : Option Path) (path : Path), pin.fixed.or file = some path →
    tree.Spares (Weaver.weave pin tree file).2 (TokenStream.ofText .html source).tokens
      stretches [.magicDir, .magicFile] TokenKind.isArrow
      (putAt stretches (TokenStream.ofText .html source).tokens
        (tree.editChoice (PathPin.choose path)))
  pathless : ∀ (pin : PathPin) (file : Option Path), pin.fixed.or file = none →
    (Weaver.weave pin tree file).2.source = source

/-- In every file that has a tree, the hook for exits leaves names directly behind member operators
and the word `function` as they are, and pinned paths leave those directly behind arrows and names
of functions; nothing but the words they are for is ever replaced. -/
theorem lookalikes_of_parse {listLines : Bool} {source : Text} {tree : Tree}
    (parsed : parse listLines source = .ok tree) :
    ∃ stretches, tree.Ranges (TokenStream.ofText .html source).tokens stretches ∧
      tree.Lookalikes source stretches := by
  obtain ⟨events, stretches, told⟩ := told_of_parse parsed
  have linked := (native_of_parse parsed).linked
  have below := fun id (inside : id < tree.size) => below_of_editable parsed inside
  refine ⟨stretches, told.ranges, ?_, ?_, ?_⟩
  · intro exitHook file
    exact told.spares linked below exitHook.minds
  · intro pin file path pinned
    rw [pin.weave_eq, pinned]
    exact told.spares linked below (PathPin.minds path)
  · intro pin file none
    rw [pin.weave_eq, none]
    exact printed_of_parse parsed

/-- A method with the name of the word, and a call of it, in front of a real exit. -/
theorem lookalikes_of_parse_method :
    let source := "<?php class A\x7bfunction exit()\x7b$this->exit();\x7d\x7d exit;".toList
    ∃ tree stretches, parse false source = .ok tree ∧ tree.Lookalikes source stretches ∧
      ∀ exitHook : ExitHook, ∀ index ∈ [7, 13],
        putAt stretches (TokenStream.ofText .html source).tokens
          (tree.editChoice exitHook.choose) index = "exit".toList := by
  intro source
  have closes : (parse false source).toBool = true := by decide +kernel
  cases parsed : parse false source with
  | error fault =>
      rw [parsed] at closes
      cases closes
  | ok tree =>
      obtain ⟨stretches, -, lookalikes⟩ := lookalikes_of_parse parsed
      refine ⟨tree, stretches, rfl, lookalikes, fun exitHook index member => ?_⟩
      have spares := lookalikes.exits exitHook none
      rw [List.mem_cons, List.mem_singleton] at member
      rcases member with rfl | rfl
      · have adjoins : (TokenStream.ofText .html source).tokens.Adjoins 5 7 := by
          refine ⟨by decide, fun between after early => ?_⟩
          rw [show between = 6 by omega]
          decide +kernel
        exact spares.behind 5 7 ⟨.kwExit, "exit".toList, 1⟩ .kwFunction (by decide +kernel) adjoins
          (by decide +kernel) rfl
      · have adjoins : (TokenStream.ofText .html source).tokens.Adjoins 12 13 :=
          ⟨by decide, fun between after early => by omega⟩
        exact spares.behind 12 13 ⟨.identifier, "exit".toList, 1⟩ .arrow (by decide +kernel) adjoins
          (by decide +kernel) rfl

/-- The name of a constant is taken for the word. -/
theorem constant_taken_for_exit :
    ((parse false "<?php class A \x7b const EXIT = 1; \x7d".toList).toOption.map fun tree =>
      (Weaver.weave ({} : ExitHook) tree none).2.source) =
        some "<?php class A \x7b const \\Kahlan\\Plugin\\Quit::quit() = 1; \x7d".toList := by
  decide +kernel

end Tree

end PhpWeave
