import PhpWeave.Proofs.Weave.Remnant

set_option autoImplicit false

/-!
What an isolation keeps of a file. In the file and in its namespaces import statements and functions
with a name are kept as they are, the headers and the braces of namespaces too, and so are tags, but
for a tag that prints; classes, closures, strings, comments and the text outside PHP leave their
line feeds. All of this stays on the lines that it was on.
-/

namespace PhpWeave

open PhpWeave.Tree

theorem Text.byParts_newlines :
    Text.ByParts fun left right => Text.newlines left = Text.newlines right where
  refl _ := rfl
  append front back := by rw [Text.newlines_append, Text.newlines_append, front, back]

namespace Isolation

/-- What is kept of a child of a level that is kept, and what is left of one that is not. -/
structure Retains (old new : Tree) (id child : NodeId) : Prop where
  declaration : (old.node id).kind = .imports ∨
      (old.node id).kind = .function ∧ (old.node id).flags.closure = false →
    child = id ∧ new.nodeText child = old.nodeText id
  scope : (old.node id).kind = .scope →
    child = id ∧ (new.node child).body = (old.node id).body ∧
      (new.node child).close = (old.node id).close
  tag : (old.node id).isTag = true →
    child = id ∧ new.nodeText child =
      if old.nodeText id = "<?=".toList then "<?php ".toList else old.nodeText id
  other : (old.node id).kind.isClassLike = true ∨
      (old.node id).kind = .function ∧ (old.node id).flags.closure = true ∨
      (∃ literal, (old.node id).kind = .literal literal) ∨
      (old.node id).kind = .code ∧ (old.node id).flags.inPhp = false →
    new.nodeText child = Text.newlinesOnly (old.nodeText id)

/-- A child of a level is retained, behind as many line feeds as it was. -/
structure RetainsInPlace (old new : Tree) (id child : NodeId) : Prop
    extends Retains old new id child where
  feeds : Text.newlines (new.frontText root child) = Text.newlines (old.frontText root id)
  placed : ∃ rest, new.source = new.frontText root child ++ (new.nodeText child ++ rest)

section Child

variable {tree new : Tree} {feeds id child : Nat} {depth : Depth}

theorem fate_of_kind (other : (tree.node id).kind ≠ .code) :
    fate tree depth id = (fateByKind tree id, depth) :=
  fate_of_not_plain (fun plain => other plain.1) depth

theorem fate_of_tag (isTag : (tree.node id).isTag = true) :
    fate tree depth id =
      (if isPrintingTag (tree.node id).body then .silence else .keep, depth) := by
  rw [fate_of_not_plain fun plain => plain.2.2 isTag]
  simp only [fateByKind, kind_of_isTag isTag, isTag, if_true]

theorem fate_of_other (other : (tree.node id).kind.isClassLike = true ∨
      (tree.node id).kind = .function ∧ (tree.node id).flags.closure = true ∨
      (∃ literal, (tree.node id).kind = .literal literal) ∨
      (tree.node id).kind = .code ∧ (tree.node id).flags.inPhp = false) :
    (fate tree depth id).1 = .clear := by
  rcases other with isClass | ⟨isFunction, closure⟩ | ⟨literal, isLiteral⟩ | ⟨isCode, outside⟩
  · cases kind : (tree.node id).kind <;> rw [kind] at isClass <;> cases isClass
    rw [fate_of_kind (by rw [kind]; exact NodeKind.noConfusion)]
    simp only [fateByKind, kind]
  · rw [fate_of_kind (by rw [isFunction]; exact NodeKind.noConfusion)]
    simp only [fateByKind, isFunction, closure, if_true]
  · rw [fate_of_kind (by rw [isLiteral]; exact NodeKind.noConfusion)]
    simp only [fateByKind, isLiteral]
  · have notTag : (tree.node id).isTag = false := by
      have apart : (tree.node id).flags ≠ Flags.fixedCode := by
        intro same
        rw [same] at outside
        cases outside
      simp [Node.isTag, apart]
    have notPlain : ¬ IsPlain (tree.node id) := fun plain => by
      have inPhp := plain.2.1
      rw [outside] at inPhp
      cases inPhp
    rw [fate_of_not_plain notPlain]
    simp only [fateByKind, isCode, notTag]
    rfl

theorem IsPut.nodeText {code : Text} (ascending : new.Ascending)
    (isPut : IsPut tree new child code) : new.nodeText child = code := by
  rw [nodeText_children ascending isPut.inside, isPut.children,
    isPut.property Node.body fun _ => rfl, isPut.property Node.close fun _ => rfl]
  exact List.append_nil code

theorem nodeText_of_silence (lined : tree.Lined feeds) (after : new.Ascending)
    (inside : id < new.size) (isTag : (tree.node id).isTag = true)
    (becomes : Becomes tree new id child .silence) :
    child = id ∧ new.nodeText child = silentTag (tree.node id).body := by
  obtain ⟨rfl, children, same⟩ := becomes
  obtain ⟨childless, close⟩ := lined.bare child (kind_of_isTag isTag)
  rw [nodeText_children after inside, children, childless,
    Node.property_eq Node.body (fun _ => rfl) same, Node.property_eq Node.close (fun _ => rfl) same,
    close]
  exact ⟨rfl, List.append_nil _⟩

theorem newlines_of_becomes (lined : tree.Lined feeds) (after : new.Ascending)
    (size : tree.size ≤ new.size) (inside : id < tree.size)
    (becomes : Becomes tree new id child (fate tree depth id).1) :
    (tree.node id).kind = .scope ∧ child = id ∨
      Text.newlines (tree.nodeText id) = Text.newlines (new.nodeText child) := by
  cases fated : (fate tree depth id).1 with
  | keep =>
      rw [fated] at becomes
      obtain ⟨rfl, agrees⟩ := becomes
      rw [nodeText_of_agrees lined.linked after size inside agrees]
      exact .inr rfl
  | descend =>
      rw [fated] at becomes
      exact .inl ⟨scope_of_descend fated, becomes.1⟩
  | silence =>
      obtain ⟨isTag, prints⟩ := tag_of_silence fated
      rw [fated] at becomes
      obtain ⟨rfl, text⟩ :=
        nodeText_of_silence lined after (Nat.lt_of_lt_of_le inside size) isTag becomes
      rw [text, newlines_silentTag prints, nodeText_of_bare lined inside (kind_of_isTag isTag)]
      exact .inr rfl
  | clear =>
      rw [fated] at becomes
      rw [IsPut.nodeText after becomes, Text.newlines_newlinesOnly]
      exact .inr rfl
  | closeDirective =>
      have isCode := code_of_closeDirective fated
      rw [fated] at becomes
      rw [IsPut.nodeText after becomes, Text.newlines_append, Text.newlines_newlinesOnly,
        nodeText_of_bare lined inside isCode]
      exact .inr rfl

end Child

section Parsed

variable {listLines : Bool} {source : Text} {tree : Tree}
  (parsed : parse listLines source = .ok tree)
include parsed

theorem levelUnder_of_parse {level : NodeId} (isLevel : IsLevel tree level) :
    LevelUnder tree root level :=
  levelUnder_of_isLevel (native_of_parse parsed).linked
    (fun _ _ atop isLevel => isLevel_of_over parsed atop isLevel) isLevel
    (over_of_isLevel parsed isLevel)

theorem retains_of_becomes {id child : Nat} {depth : Depth} (inside : id < tree.size)
    (becomes : Becomes tree (isolate tree) id child (fate tree depth id).1) :
    Retains tree (isolate tree) id child := by
  have lined := (native_of_parse parsed).lined
  have after := (lined_isolate lined).linked.ascending
  have size := size_isolate lined
  have keeps (fated : (fate tree depth id).1 = .keep) :
      child = id ∧ (isolate tree).nodeText child = tree.nodeText id := by
    rw [fated] at becomes
    obtain ⟨rfl, agrees⟩ := becomes
    exact ⟨rfl, nodeText_of_agrees lined.linked after size inside agrees⟩
  constructor
  case declaration =>
    rintro (imports | ⟨isFunction, named⟩)
    · apply keeps
      rw [fate_of_kind (by rw [imports]; exact NodeKind.noConfusion)]
      simp only [fateByKind, imports]
    · apply keeps
      rw [fate_of_kind (by rw [isFunction]; exact NodeKind.noConfusion)]
      simp only [fateByKind, isFunction, named]
      rfl
  case scope =>
    intro isScope
    rw [fate_of_scope isScope] at becomes
    obtain ⟨rfl, same⟩ := becomes
    exact ⟨rfl, Node.property_eq Node.body (fun _ => rfl) same,
      Node.property_eq Node.close (fun _ => rfl) same⟩
  case tag =>
    intro isTag
    have text := nodeText_of_bare lined inside (kind_of_isTag isTag)
    rw [text]
    by_cases prints : isPrintingTag (tree.node id).body = true
    · have spelled :=
        printingTag_of_parse parsed inside isTag (List.isPrefixOf_iff_prefix.mp prints)
      rw [fate_of_tag isTag, if_pos prints] at becomes
      obtain ⟨same, silenced⟩ :=
        nodeText_of_silence lined after (Nat.lt_of_lt_of_le inside size) isTag becomes
      rw [silenced, spelled]
      exact ⟨same, rfl⟩
    · have apart : (tree.node id).body ≠ "<?=".toList := by
        intro same
        rw [same] at prints
        exact prints rfl
      rw [if_neg apart, ← text]
      apply keeps
      rw [fate_of_tag isTag, if_neg prints]
  case other =>
    intro other
    rw [fate_of_other other] at becomes
    exact IsPut.nodeText after becomes

/-- What an isolation keeps, for every source with a tree. In the file and in each of its namespaces
every child has one in its place. Import statements and functions with a name keep their texts,
namespaces their headers and closing braces, and tags their texts, but that a tag which prints
becomes one that does not; classes, closures, strings, comments and the text outside PHP are reduced
to their line feeds. In front of each there are as many line feeds as there were. -/
theorem retained_of_parse {level : NodeId} (isLevel : IsLevel tree level) :
    IsLevel (isolate tree) level ∧
      List.Forall₂ (RetainsInPlace tree (isolate tree)) (tree.children level)
        ((isolate tree).children level) := by
  have lined := (native_of_parse parsed).lined
  have after := (lined_isolate lined).linked
  have under := levelUnder_of_parse parsed isLevel
  obtain ⟨still, same⟩ := level_isolate lined under
  have each (level : Nat) (isLevel : LevelUnder tree root level) :
      List.Forall₂ (fun id child => (tree.node id).kind = .scope ∧ child = id ∨
          Text.newlines (tree.nodeText id) = Text.newlines ((isolate tree).nodeText child))
        (tree.children level) ((isolate tree).children level) :=
    (settles_isolate lined isLevel).forall fun id member child _ depth becomes =>
      newlines_of_becomes lined after.ascending (size_isolate lined)
        (lined.linked.ascending.children level id member).2 becomes
  have fronts := fronts_children lined Text.byParts_newlines each under
  have children : List.Forall₂ (fun id child => Retains tree (isolate tree) id child ∧
      ∃ rest, (isolate tree).source =
        (isolate tree).frontText root child ++ ((isolate tree).nodeText child ++ rest))
      (tree.children level) ((isolate tree).children level) := by
    apply (settles_isolate lined under).forall
    intro id member child among depth becomes
    have link := (over_of_link after.ascending ((after.parent_iff child level).mpr among)).mpr
      (.inl rfl)
    exact ⟨retains_of_becomes parsed (lined.linked.ascending.children level id member).2 becomes,
      source_around after (after.ascending.children level child among).2
        ((still.over after).trans after.ascending (.inr link))⟩
  refine ⟨isLevel.imp_right fun isScope =>
    (Node.property_eq Node.kind (fun _ => rfl) same).trans isScope, ?_⟩
  exact children.mp (fun _ _ both feeds => ⟨both.1, feeds.symm, both.2⟩) fronts

end Parsed

/-- A namespace behind a tag that prints, with a bit of everything in it. -/
theorem retained_of_parse_namespace :
    let source := "<?= 1 ?>\n<?php namespace A \x7b use B\\C; class D \x7b\n\x7d " ++
      "function f() \x7b\x7d $x = 'y'; \x7d"
    ∃ tree, parse false source.toList = .ok tree ∧ (tree.node 5).kind = .scope ∧
      (isolate tree).source =
        "<?php ?>\n<?php namespace A \x7buse B\\C;\nfunction f() \x7b\x7d\x7d".toList ∧
      IsLevel (isolate tree) 5 ∧
      List.Forall₂ (RetainsInPlace tree (isolate tree)) (tree.children 5)
        ((isolate tree).children 5) := by
  intro source
  have whole : (parse false source.toList).toOption.map (fun tree =>
      decide ((tree.node 5).kind = .scope ∧ (isolate tree).source =
        "<?php ?>\n<?php namespace A \x7buse B\\C;\nfunction f() \x7b\x7d\x7d".toList)) =
        some true := by
    decide +kernel
  cases parsed : parse false source.toList with
  | error fault =>
      rw [parsed] at whole
      cases whole
  | ok tree =>
      rw [parsed] at whole
      obtain ⟨isScope, kept⟩ := of_decide_eq_true (Option.some.inj whole)
      exact ⟨tree, rfl, isScope, kept, retained_of_parse parsed (.inr isScope)⟩

end Isolation
end PhpWeave
