import PhpWeave.Proofs.Weave.Interception

set_option autoImplicit false

/-!
What an interception does to the tree of a file. Its targets are chosen before the first preamble
comes, and a preamble is a leaf at the end of the table and at the front of its function; so no
preamble changes what the next one is put into. Without the leaves that came, the parts of the tree
are those of the file.
-/

namespace PhpWeave

open PhpWeave.Tree

namespace Tree

/-- The text of a tree without the nodes that weavers put in. -/
def writtenText (tree : Tree) : Text :=
  (tree.parts.filter fun part => !(tree.node part.id).flags.synthetic).flatMap tree.partText

/-- One tree is another one with code put in: each node of a list has one leaf more, in front of its
children, and no other node differs. -/
structure Fronted (before after : Tree) (ids : List Nat) (code : Nat → Text) : Prop where
  size : after.size = before.size + ids.length
  leaf : ∀ (place : Nat) (inside : place < ids.length), ∃ line,
    after.node (before.size + place) =
      { Node.synthetic (code ids[place]) line with parent := some ids[place] }
  target : ∀ (place : Nat) (inside : place < ids.length), after.node ids[place] =
    { before.node ids[place] with
      children := (before.size + place) :: before.children ids[place] }
  other : ∀ id < before.size, id ∉ ids → after.node id = before.node id

end Tree

namespace Interception

variable {tree : Tree} {ids : List Nat}

/-- A function that an interception applies to: it has a body and a name, it is not said never to
return, and no exempt name is its name in any case. -/
structure Applies (interception : Interception) (node : Node) : Prop where
  isFunction : node.kind = .function
  hasBody : node.flags.hasBody = true
  named : node.flags.closure = false
  returns : node.flags.returnsNever = false
  notExempt : ∀ name ∈ interception.exemptNames, Text.sameWord name node.name = false

theorem selects_iff (interception : Interception) (node : Node) :
    interception.selects node = true ↔ interception.Applies node := by
  rw [selects, Node.isNamedFunction]
  simp only [Bool.and_eq_true, Bool.not_eq_true', decide_eq_true_eq, List.any_eq_false,
    Bool.not_eq_true]
  constructor
  · rintro ⟨⟨⟨⟨isFunction, hasBody⟩, named⟩, returns⟩, notExempt⟩
    exact ⟨isFunction, hasBody, named, returns, notExempt⟩
  · rintro ⟨isFunction, hasBody, named, returns, notExempt⟩
    exact ⟨⟨⟨⟨isFunction, hasBody⟩, named⟩, returns⟩, notExempt⟩

/-! ### The nodes of the tree -/

theorem fronted_intercept (interception : Interception) {id : Nat} (inside : id < tree.size) :
    tree.Fronted (interception.intercept tree id) [id]
      fun id => interception.preamble (tree.node id).flags := by
  have node := node_insert inside 0 (Node.synthetic (interception.preamble (tree.node id).flags)
    (some (tree.placementLine id 0)))
  constructor
  case size => exact size_insert _ _ _
  case leaf =>
    rintro (_ | place) bound
    · refine ⟨some (tree.placementLine id 0), ?_⟩
      rw [intercept, node, if_pos (Nat.add_zero _)]
      rfl
    · simp at bound
  case target =>
    rintro (_ | place) bound
    · rw [intercept, List.getElem_cons_zero, node, if_neg (Nat.ne_of_lt inside), if_pos rfl]
      rfl
    · simp at bound
  case other =>
    intro other known apart
    rw [intercept, node, if_neg (Nat.ne_of_lt known),
      if_neg fun same => apart (List.mem_singleton.mpr same)]

theorem fronted_foldl (interception : Interception) (nodup : ids.Nodup)
    (known : ∀ id ∈ ids, id < tree.size) :
    tree.Fronted (ids.foldl interception.intercept tree) ids
      fun id => interception.preamble (tree.node id).flags := by
  induction ids generalizing tree with
  | nil => exact ⟨rfl, fun _ none => absurd none (Nat.not_lt_zero _),
      fun _ none => absurd none (Nat.not_lt_zero _), fun _ _ _ => rfl⟩
  | cons id ids ih =>
      obtain ⟨apart, later⟩ := List.nodup_cons.mp nodup
      obtain ⟨inside, others⟩ := List.forall_mem_cons.mp known
      have first := interception.fronted_intercept inside
      have size : (interception.intercept tree id).size = tree.size + 1 := first.size
      have kept (other : Nat) (member : other ∈ ids) :
          (interception.intercept tree id).node other = tree.node other :=
        first.other other (others other member) fun same =>
          apart (List.mem_singleton.mp same ▸ member)
      have still (other : Nat) (member : other ∈ ids) :
          other < (interception.intercept tree id).size := by
        rw [size]
        exact Nat.lt_succ_of_lt (others other member)
      have rest := ih later still
      rw [List.foldl_cons]
      constructor
      case size => rw [rest.size, size, List.length_cons, Nat.add_assoc, Nat.add_comm 1]
      case leaf =>
        rintro (_ | place) bound
        · -- The leaf of the first function is an old node to the others.
          obtain ⟨line, leaf⟩ := first.leaf 0 Nat.zero_lt_one
          have unmoved := rest.other tree.size (by rw [size]; exact Nat.lt_succ_self _)
            fun member => Nat.lt_irrefl _ (others _ member)
          exact ⟨line, unmoved.trans leaf⟩
        · have within := Nat.lt_of_succ_lt_succ bound
          obtain ⟨line, leaf⟩ := rest.leaf place within
          refine ⟨line, ?_⟩
          rw [size, Nat.add_assoc, Nat.add_comm 1, kept _ (List.getElem_mem within)] at leaf
          exact leaf
      case target =>
        rintro (_ | place) bound
        · have unmoved := rest.other id (by rw [size]; exact Nat.lt_succ_of_lt inside) apart
          exact unmoved.trans (first.target 0 Nat.zero_lt_one)
        · have within := Nat.lt_of_succ_lt_succ bound
          have target := rest.target place within
          rw [size, Nat.add_assoc, Nat.add_comm 1, Tree.children,
            kept _ (List.getElem_mem within)] at target
          exact target
      case other =>
        intro other old absent
        obtain ⟨notFirst, notLater⟩ := not_or.mp (List.mem_cons.not.mp absent)
        have unmoved := rest.other other (by rw [size]; exact Nat.lt_succ_of_lt old) notLater
        exact unmoved.trans
          (first.other other old fun same => notFirst (List.mem_singleton.mp same))

end Interception

theorem Tree.Fronted.synthetic_iff {before after : Tree} {ids : List Nat} {code : Nat → Text}
    (fronted : before.Fronted after ids code) (native : ∀ id, (before.node id).Native) {id : Nat}
    (inside : id < after.size) :
    (after.node id).flags.synthetic = true ↔ before.size ≤ id := by
  rcases Nat.lt_or_ge id before.size with old | new
  · have written : (after.node id).flags = (before.node id).flags := by
      by_cases among : id ∈ ids
      · obtain ⟨place, within, rfl⟩ := List.getElem_of_mem among
        rw [fronted.target place within]
      · rw [fronted.other id old among]
    rw [written, (native id).written]
    exact ⟨fun none => (by cases none), fun beyond => absurd old (Nat.not_lt_of_le beyond)⟩
  · obtain ⟨place, rfl⟩ := Nat.exists_eq_add_of_le new
    have within : place < ids.length := by
      rw [fronted.size] at inside
      exact Nat.lt_of_add_lt_add_left inside
    obtain ⟨line, leaf⟩ := fronted.leaf place within
    rw [leaf]
    exact ⟨fun _ => new, fun _ => rfl⟩

namespace Interception

variable {tree : Tree} {ids : List Nat}

/-! ### The text without the preambles -/

theorem written_intercept (interception : Interception) (linked : tree.Linked) {id : Nat}
    (inside : id < tree.size) (atop : tree.Over root id) :
    (interception.intercept tree id).parts.filter (fun part => part.id < tree.size) =
      tree.parts := by
  obtain ⟨added, -, -, spliced⟩ := interception.spliced_intercept linked inside
  exact spliced.filter_parts linked atop

theorem written_foldl (interception : Interception) (linked : tree.Linked)
    (reached : ∀ id ∈ ids, id ∈ tree.preorder root) :
    (ids.foldl interception.intercept tree).parts.filter (fun part => part.id < tree.size) =
      tree.parts := by
  induction ids generalizing tree with
  | nil =>
      exact List.filter_eq_self.mpr fun part member =>
        decide_eq_true (mem_parts linked.ascending linked.filled member)
  | cons id ids ih =>
      obtain ⟨here, others⟩ := List.forall_mem_cons.mp reached
      obtain ⟨inside, atop⟩ := (mem_preorder linked linked.filled).mp here
      have grown := interception.linked_intercept linked inside
      have rest := ih grown fun other member => by
        have known := ((mem_preorder linked linked.filled).mp (others other member)).1
        exact (mem_preorder_insert linked grown inside (Nat.ne_of_lt known)).mpr
          (others other member)
      rw [← interception.written_intercept linked inside atop, ← rest, List.filter_filter,
        List.foldl_cons]
      refine List.filter_congr fun part _ => ?_
      rw [intercept, size_insert]
      by_cases old : part.id < tree.size
      · simp [old, Nat.lt_succ_of_lt old]
      · simp [old]

end Interception

theorem Tree.writtenText_of_parts {before after : Tree} (linked : after.Linked)
    (synthetic : ∀ id < after.size,
      (after.node id).flags.synthetic = true ↔ before.size ≤ id)
    (parts : after.parts.filter (fun part => part.id < before.size) = before.parts) :
    after.writtenText = before.parts.flatMap after.partText := by
  have old : (after.parts.filter fun part => !(after.node part.id).flags.synthetic) =
      after.parts.filter fun part => part.id < before.size := by
    refine List.filter_congr fun part member => ?_
    have inside := mem_parts linked.ascending linked.filled member
    rw [Bool.eq_iff_iff, Bool.not_eq_true', ← Bool.not_eq_true, synthetic _ inside,
      decide_eq_true_eq, not_le]
  rw [writtenText, old, parts]

theorem Tree.Fronted.writtenText_eq {before after : Tree} {ids : List Nat} {code : Nat → Text}
    (fronted : before.Fronted after ids code) (native : before.Native) (linked : after.Linked)
    (parts : after.parts.filter (fun part => part.id < before.size) = before.parts) :
    after.writtenText = before.source := by
  have text (part : Part) (member : part ∈ before.parts) :
      after.partText part = before.partText part := by
    have inside := mem_parts native.linked.ascending native.linked.filled member
    have kept : (after.node part.id).body = (before.node part.id).body ∧
        (after.node part.id).close = (before.node part.id).close := by
      by_cases among : part.id ∈ ids
      · obtain ⟨place, within, same⟩ := List.getElem_of_mem among
        rw [← same, fronted.target place within]
        exact ⟨rfl, rfl⟩
      · rw [fronted.other _ inside among]
        exact ⟨rfl, rfl⟩
    cases part with
    | body id => exact kept.1
    | close id => exact kept.2
  rw [writtenText_of_parts linked (fun id inside => fronted.synthetic_iff native.node inside) parts,
    source_eq, List.flatMap_def, List.flatMap_def, List.map_congr_left text]

namespace Interception

/-- An interception of a file puts one leaf with its preamble in front of the children of each
function that it applies to and changes no other node. It counts these functions, and without the
code that was put in, the text is the one that was read. -/
theorem preambles_of_parse {listLines : Bool} {source : Text} {tree : Tree}
    (parsed : parse listLines source = .ok tree) (interception : Interception)
    (file : Option Path) :
    let ids := interception.targets tree
    let (counted, woven) := Weaver.weave interception tree file
    ids.Nodup ∧ (∀ id, id ∈ ids ↔ id < tree.size ∧ interception.Applies (tree.node id)) ∧
      counted.count = ids.length ∧
      tree.Fronted woven ids (fun id => interception.preamble (tree.node id).flags) ∧
      (∀ id < woven.size, (woven.node id).flags.synthetic = true ↔ tree.size ≤ id) ∧
      woven.source = woven.parts.flatMap woven.partText ∧ woven.writtenText = source := by
  have native := native_of_parse parsed
  have linked := native.linked
  have whole := (stretches_of_parse parsed).2.1
  have nodup : (interception.targets tree).Nodup :=
    (nodup_preorder linked linked.filled).filter _
  have known (id : Nat) (member : id ∈ interception.targets tree) : id < tree.size :=
    (interception.functions_of_targets linked id member).1
  have fronted := interception.fronted_foldl nodup known
  have grown := interception.linked_woven linked
  have reached (id : Nat) (member : id ∈ interception.targets tree) : id ∈ tree.preorder root :=
    (List.mem_filter.mp member).1
  refine ⟨nodup, fun id => ?_, rfl, fronted,
    fun id inside => fronted.synthetic_iff native.node inside, source_eq, ?_⟩
  · rw [targets, List.mem_filter, whole, List.mem_range, selects_iff]
  · rw [← printed_of_parse parsed]
    exact fronted.writtenText_eq native grown (interception.written_foldl linked reached)

/-- A function that is intercepted, one with an exempt name and one that never returns. -/
theorem preambles_of_parse_exempt :
    let source := "<?php function f(){}function g(){}function h():never{}".toList
    let interception : Interception := { exemptNames := [['G']] }
    ∃ tree, parse false source = .ok tree ∧ interception.targets tree = [2] ∧
      let (counted, woven) := Weaver.weave interception tree none
      counted.count = 1 ∧ woven.children 2 = tree.size :: tree.children 2 ∧
        woven.writtenText = source := by
  intro source interception
  have found : (parse false source).toOption.map interception.targets = some [2] := by
    decide +kernel
  cases parsed : parse false source with
  | error fault =>
      rw [parsed] at found
      cases found
  | ok tree =>
      rw [parsed] at found
      have targets : interception.targets tree = [2] := Option.some.inj found
      obtain ⟨-, -, count, fronted, -, -, text⟩ := preambles_of_parse parsed interception none
      refine ⟨tree, rfl, targets, count.trans (congrArg List.length targets), ?_, text⟩
      have target := fronted.target 0 (by rw [targets]; exact Nat.zero_lt_one)
      simp only [targets, List.getElem_cons_zero] at target
      change ((interception.targets tree).foldl interception.intercept tree).children 2 = _
      rw [targets]
      exact congrArg Node.children target

end Interception
end PhpWeave
