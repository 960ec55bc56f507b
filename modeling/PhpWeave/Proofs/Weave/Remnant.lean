import PhpWeave.Proofs.Grammar.Course
import PhpWeave.Proofs.Grammar.Native
import PhpWeave.Proofs.Weave.Level
import PhpWeave.Proofs.Weave.Retelling

set_option autoImplicit false

/-!
What is left of the plain code of a file. A piece of plain code ends at a brace, so where each piece
that begins with the word `declare` is one whole directive, the directives are what is left, each of
them whole. A directive that holds a string is more than one piece, and is cut.
-/

namespace PhpWeave

open PhpWeave.Tree

namespace Isolation

/-- No brace stands in the middle of a piece of plain code in which no import statement was given
up. -/
theorem ends_of_parse {listLines : Bool} {source : Text} {tree : Tree}
    (parsed : parse listLines source = .ok tree) {id : Nat} (inTree : id ∈ tree.preorder root)
    (editable : (tree.node id).isEditable = true)
    (noImport : ∀ token ∈ scan .php (tree.node id).body, token.kind ≠ .kwUse) :
    ∀ token ∈ (scan .php (tree.node id).body).dropLast,
      token.kind ≠ .openBrace ∧ token.kind ≠ .closeBrace := by
  obtain ⟨events, stretches, told⟩ := told_of_parse parsed
  have linked := (native_of_parse parsed).linked
  obtain ⟨⟨part, first, stop⟩, member, isBody⟩ : ∃ stretch ∈ stretches,
      stretch.part = .body id := by
    have inTour := body_mem_tour_of_preorder inTree
    rw [← Tree.parts, ← told.ranges.parts] at inTour
    exact List.mem_map.mp inTour
  obtain rfl : part = .body id := isBody
  obtain ⟨forgot, each, back⟩ := told.ranges.alike_of_edits member editable
  -- A brace in the middle would be the last token of the piece, or behind a given up import.
  have apart {index : Nat} {token : Token} {kind : TokenKind}
      (here : (scan .php (tree.node id).body)[index]? = some token)
      (more : index + 1 < (scan .php (tree.node id).body).length)
      (isBrace : kind = .openBrace ∨ kind = .closeBrace) : token.kind ≠ kind := by
    intro isOne
    obtain ⟨before, other, there, alike⟩ := each index token here
    have isSymbol : kind.isSymbol = true := by
      rcases isBrace with rfl | rfl <;> rfl
    have same : other.kind = kind := by
      rcases alike.kind with same | ⟨-, -, word⟩
      · exact same.symm.trans isOne
      · have never := TokenKind.ofWord_isSymbol other.text
        rw [← word, isOne, isSymbol] at never
        cases never
    have holds : tree.HoldsCode stretches id (first + index) :=
      ⟨editable, first, stop, member, Nat.le_add_right _ _, before⟩
    have isKind : (TokenStream.ofText .html source).tokens.kindAt (first + index) = some kind :=
      Tokens.kindAt_eq_some.mpr ⟨other, there, same⟩
    rcases told.brace_last (Scan.spelled_scan .html source) (Scan.tagged_scan .html source) holds
      isKind isBrace with ⟨start, ends⟩ | ⟨word, held, isUse⟩
    · have equal := told.ranges.same_stretch linked ends member rfl
      have stops : first + index + 1 = stop := congrArg Stretch.stop equal
      obtain ⟨beyond, -⟩ := each (index + 1) _ (List.getElem?_eq_getElem more)
      omega
    · obtain ⟨-, _, _, another, behind, before⟩ := held
      have equal := told.ranges.same_stretch linked another member rfl
      cases equal
      obtain ⟨use, there, isUse⟩ := Tokens.kindAt_eq_some.mp isUse
      obtain ⟨found, among, alike⟩ := back word use behind before there
      refine noImport found among ?_
      rcases alike.kind with same | ⟨-, member, -⟩
      · exact same.trans isUse
      · rw [isUse] at member
        cases member
  intro token among
  obtain ⟨index, inside, rfl⟩ := List.mem_iff_getElem.mp among
  rw [List.length_dropLast] at inside
  rw [List.getElem_dropLast]
  have here := List.getElem?_eq_getElem (Nat.lt_of_lt_pred inside)
  have more := Nat.add_lt_of_lt_sub inside
  exact ⟨apart here more (.inl rfl), apart here more (.inr rfl)⟩

/-- Of the pieces of plain code in the levels of a file those that begin with the word `declare` are
whole directives, and none has the word of an import statement that was given up. -/
def Regular (tree : Tree) : Prop :=
  ∀ level ∈ tree.preorder root, IsLevel tree level → ∀ id ∈ tree.children level,
    (tree.node id).isEditable = true →
      (tree.isDirective id = true →
        (Fragment.tokens (tree.node id).body).isWholeDirective = true) ∧
        ∀ token ∈ scan .php (tree.node id).body, token.kind ≠ .kwUse

instance (tree : Tree) (id : NodeId) : Decidable (IsLevel tree id) :=
  inferInstanceAs (Decidable (_ ∨ _))

instance (tree : Tree) : Decidable (Regular tree) :=
  inferInstanceAs (Decidable (∀ level ∈ tree.preorder root, _))

section Levels

variable {listLines : Bool} {source : Text} {tree : Tree}

theorem level_cases (parsed : parse listLines source = .ok tree) {id : Nat}
    (isLevel : IsLevel tree id) :
    id = root ∨ ∃ above, tree.parent? id = some above ∧ IsLevel tree above := by
  rcases isLevel with isRoot | isScope
  · exact .inl isRoot
  · have inside : id < tree.size := by
      refine Nat.lt_of_not_le fun outside => ?_
      rw [node_of_size_le outside] at isScope
      cases isScope
    obtain ⟨above, link, outer⟩ := (placed_of_parse parsed inside).nested isScope
    exact .inr ⟨above, link, outer.imp_right And.left⟩

theorem over_of_isLevel (parsed : parse listLines source = .ok tree) {id : Nat}
    (isLevel : IsLevel tree id) : tree.Over root id := by
  have ascending := (native_of_parse parsed).linked.ascending
  induction id using Nat.strongRecOn with
  | ind id ih =>
      rcases level_cases parsed isLevel with rfl | ⟨above, link, outer⟩
      · exact .inl rfl
      · have below := ascending.parent id above link
        exact .inr ((over_of_link ascending link).mpr (ih above below outer))

theorem isLevel_of_over (parsed : parse listLines source = .ok tree) {above id : Nat}
    (atop : tree.Over above id) (isLevel : IsLevel tree id) : IsLevel tree above := by
  have linked := (native_of_parse parsed).linked
  induction id using Nat.strongRecOn with
  | ind id ih =>
      rcases atop with rfl | member
      · exact isLevel
      · rcases level_cases parsed isLevel with rfl | ⟨outer, link, isOuter⟩
        · rw [ancestors_of_root linked.root_parent] at member
          cases member
        · have below := linked.ascending.parent id outer link
          exact ih outer below ((over_of_link linked.ascending link).mp member) isOuter

theorem mem_preorder_of_isLevel (parsed : parse listLines source = .ok tree) {level : NodeId}
    (isLevel : IsLevel tree level) : level ∈ tree.preorder root := by
  have linked := (native_of_parse parsed).linked
  have atop := over_of_isLevel parsed isLevel
  exact (mem_preorder linked linked.filled).mpr
    ⟨linked.lt_size_of_over linked.filled atop, atop⟩

end Levels

theorem layered_of_parse {listLines : Bool} {source : Text} {tree : Tree}
    (parsed : parse listLines source = .ok tree) (regular : Regular tree) : Layered tree where
  linked := (native_of_parse parsed).linked
  code _ inside isCode := code_of_parse parsed inside isCode
  levels _ _ atop isLevel := isLevel_of_over parsed atop isLevel
  clean level isLevel id member editable := by
    have linked := (native_of_parse parsed).linked
    have atop := over_of_isLevel parsed isLevel
    have inTree := mem_preorder_of_isLevel parsed isLevel
    have below : id ∈ tree.preorder root :=
      (mem_preorder linked linked.filled).mpr ⟨(linked.ascending.children level id member).2,
        .inr ((over_of_link linked.ascending ((linked.parent_iff id level).mpr member)).mpr atop)⟩
    obtain ⟨whole, noImport⟩ := regular level inTree isLevel id member editable
    exact ⟨ends_of_parse parsed below editable noImport, whole⟩

/-- What is left of the plain code of a file and of its namespaces is the directives, each of them
whole: their pieces are as they were, a piece that closes the block of one keeps the brace, and of
all other pieces the line feeds are left. Strings, comments, classes and functions without a name
leave line feeds, too. -/
theorem directives_of_parse {listLines : Bool} {source : Text} {tree : Tree}
    (parsed : parse listLines source = .ok tree) (regular : Regular tree) {level : NodeId}
    (isLevel : IsLevel tree level) :
    List.Forall₂ (fun remnant id => remnant.Admits ((isolate tree).nodeText id))
      (left tree [] (tree.children level)) ((isolate tree).children level) := by
  have lined := (native_of_parse parsed).lined
  have done := done_isolate (layered_of_parse parsed regular) lined isLevel
    (over_of_isLevel parsed isLevel)
  refine done.imp fun remnant id leaves => ?_
  rcases leaves with rfl | ⟨inside, editable, body⟩
  · trivial
  · rw [nodeText_of_bare (lined_isolate lined) inside (isPlain_of_isEditable editable).1]
    exact body

/-- A directive with a block, of which the braces stay. -/
theorem directives_of_parse_block :
    ∃ tree, parse false "<?php declare(ticks=1){foo();}bar();".toList = .ok tree ∧
      Regular tree ∧ IsLevel tree root ∧
      (isolate tree).source = "<?php declare(ticks=1){}".toList ∧
      List.Forall₂ (fun remnant id => remnant.Admits ((isolate tree).nodeText id))
        (left tree [] (tree.children root)) ((isolate tree).children root) := by
  have whole : (parse false "<?php declare(ticks=1){foo();}bar();".toList).toOption.map (fun tree =>
      decide (Regular tree ∧ (isolate tree).source = "<?php declare(ticks=1){}".toList)) =
        some true := by
    decide +kernel
  cases parsed : parse false "<?php declare(ticks=1){foo();}bar();".toList with
  | error fault =>
      rw [parsed] at whole
      cases whole
  | ok tree =>
      rw [parsed] at whole
      obtain ⟨regular, kept⟩ := of_decide_eq_true (Option.some.inj whole)
      exact ⟨tree, rfl, regular, .inl rfl, kept, directives_of_parse parsed regular (.inl rfl)⟩

/-- A string in a directive is a node of its own, and so is what stands behind it: the directive is
cut. -/
theorem directive_cut_at_string :
    (parse false "<?php declare(encoding='UTF-8'); foo();".toList).toOption.map
      (fun tree => (isolate tree).source) = some "<?php declare(encoding=".toList := by
  decide +kernel

end Isolation
end PhpWeave
