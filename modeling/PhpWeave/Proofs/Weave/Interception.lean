import PhpWeave.Proofs.Weave.Reordering

set_option autoImplicit false

/-!
The text of a file with its functions intercepted. The nodes that come are leaves at the front of
their functions, so in the tour of the file each of them follows the body of its function, and all
other parts keep their text and their order.
-/

namespace PhpWeave

open PhpWeave.Tree

namespace Interception

variable {tree : Tree}

def partWith (interception : Interception) (tree : Tree) (ids : List Nat) (part : Part) : Text :=
  tree.partText part ++
    if part ∈ ids.map Part.body then interception.preamble (tree.node part.id).flags else []

theorem mem_bodies {id : Nat} {ids : List Nat} : Part.body id ∈ ids.map Part.body ↔ id ∈ ids :=
  List.mem_map_of_injective fun _ _ => Part.body.inj

theorem partWith_of_not_mem (interception : Interception) {ids : List Nat} {part : Part}
    (apart : part ∉ ids.map Part.body) :
    interception.partWith tree ids part = tree.partText part := by
  rw [partWith, if_neg apart, List.append_nil]

section Step

variable {id : Nat} {ids : List Nat}

theorem spliced_intercept (interception : Interception) (linked : tree.Linked)
    (inside : id < tree.size) : ∃ added : Node,
      added.body = interception.preamble (tree.node id).flags ∧ added.close = [] ∧
      tree.Spliced (interception.intercept tree id) id [] none (some added) (tree.children id) := by
  let added := Node.synthetic (interception.preamble (tree.node id).flags)
    (some (tree.placementLine id 0))
  refine ⟨added, rfl, rfl, ?_⟩
  have spliced := spliced_apply linked.ascending (.insert id 0 added) inside
  simp only [Splice.parent, Splice.index, Splice.gone?, Nat.zero_min, List.take_zero,
    Option.toList_none, List.length_nil] at spliced
  exact spliced

theorem partWith_intercept (interception : Interception) (linked : tree.Linked)
    (inside : id < tree.size) {part : Part} (old : part.id < tree.size)
    (other : part ≠ .body id) :
    interception.partWith (interception.intercept tree id) ids part =
      interception.partWith tree (id :: ids) part := by
  obtain ⟨added, -, -, spliced⟩ := interception.spliced_intercept linked inside
  have flags := spliced.property Node.flags (fun _ => rfl) old
  have among : part ∈ (id :: ids).map Part.body ↔ part ∈ ids.map Part.body := by
    rw [List.map_cons, List.mem_cons, or_iff_right other]
  simp only [partWith, spliced.partText old, flags, among]

theorem flatMap_partWith_intercept (interception : Interception) (ids : List Nat)
    (linked : tree.Linked) (inside : id < tree.size) {parts : List Part}
    (each : ∀ part ∈ parts, part.id < tree.size ∧ part ≠ .body id) :
    parts.flatMap (interception.partWith (interception.intercept tree id) ids) =
      parts.flatMap (interception.partWith tree (id :: ids)) := by
  rw [List.flatMap_def, List.flatMap_def]
  congr 1
  apply List.map_congr_left
  intro part member
  exact interception.partWith_intercept linked inside (each part member).1 (each part member).2

/-- One function more: in the tour its body is followed by the leaf that comes. -/
theorem parts_intercept (interception : Interception) (linked : tree.Linked)
    (inside : id < tree.size) (atop : tree.Over root id) (apart : id ∉ ids)
    (known : ∀ other ∈ ids, other < tree.size) :
    (interception.intercept tree id).parts.flatMap
        (interception.partWith (interception.intercept tree id) ids) =
      tree.parts.flatMap (interception.partWith tree (id :: ids)) := by
  obtain ⟨added, body, close, spliced⟩ := interception.spliced_intercept linked inside
  obtain ⟨rest, old, new⟩ := tour_splice linked spliced linked.filled atop
  rw [partsUpTo] at old new
  change tree.parts = _ at old
  change (interception.intercept tree id).parts = _ at new
  generalize (tree.tour root).takeWhile (fun part => part ≠ .body id) = before at old new
  have nodup : tree.parts.Nodup := nodup_tour linked linked.filled
  have among (part : Part) (member : part ∈ tree.parts) : part.id < tree.size :=
    mem_parts linked.ascending linked.filled member
  simp only [List.flatMap_nil, Option.toList_none, List.nil_append, List.append_assoc,
    List.cons_append] at old new
  rw [old] at nodup among
  have once := (List.nodup_cons.mp (List.nodup_middle.mp nodup)).1
  have others (part : Part) (member : part ∈ before ++ rest) :
      part.id < tree.size ∧ part ≠ .body id := by
    refine ⟨among part ?_, fun same => once (same ▸ member)⟩
    exact List.perm_middle.mem_iff.mpr (List.mem_cons_of_mem _ member)
  have inFront := interception.flatMap_partWith_intercept ids linked inside
    fun part member => others part (List.mem_append_left _ member)
  have behind := interception.flatMap_partWith_intercept ids linked inside
    fun part member => others part (List.mem_append_right _ member)
  have here : interception.partWith (interception.intercept tree id) ids (.body id) ++
      (tree.leafParts (some added)).flatMap
        (interception.partWith (interception.intercept tree id) ids) =
      interception.partWith tree (id :: ids) (.body id) := by
    have newApart : Part.body tree.size ∉ ids.map Part.body := fun member =>
      Nat.lt_irrefl _ (known _ (mem_bodies.mp member))
    have closeApart : Part.close tree.size ∉ ids.map Part.body := by simp
    have leaf := spliced.text_leaf
    rw [leafParts, Option.map_some, Option.getD_some] at leaf ⊢
    rw [List.flatMap_cons, List.flatMap_singleton] at leaf ⊢
    rw [interception.partWith_of_not_mem (fun member => apart (mem_bodies.mp member)),
      interception.partWith_of_not_mem newApart, interception.partWith_of_not_mem closeApart, leaf,
      partWith, if_pos (mem_bodies.mpr List.mem_cons_self),
      spliced.partText (show (Part.body id).id < _ from inside), leafText,
      Option.map_some, Option.getD_some, body, close, List.append_nil]
    rfl
  rw [old, new]
  simp only [List.flatMap_append, List.flatMap_cons]
  rw [inFront, behind, ← here, List.append_assoc]

end Step

theorem source_foldl (interception : Interception) (linked : tree.Linked) {ids : List Nat}
    (nodup : ids.Nodup) (reached : ∀ id ∈ ids, id ∈ tree.preorder root) :
    (ids.foldl interception.intercept tree).source =
      tree.parts.flatMap (interception.partWith tree ids) := by
  induction ids generalizing tree with
  | nil =>
      have plain : interception.partWith tree [] = tree.partText := funext fun part =>
        interception.partWith_of_not_mem List.not_mem_nil
      rw [List.foldl_nil, plain, source_eq]
  | cons id ids ih =>
      obtain ⟨apart, later⟩ := List.nodup_cons.mp nodup
      obtain ⟨here, others⟩ := List.forall_mem_cons.mp reached
      obtain ⟨inside, atop⟩ := (mem_preorder linked linked.filled).mp here
      have grown := interception.linked_intercept linked inside
      have known (other : Nat) (member : other ∈ ids) : other < tree.size :=
        ((mem_preorder linked linked.filled).mp (others other member)).1
      rw [List.foldl_cons, ih grown later, interception.parts_intercept linked inside atop apart
        known]
      intro other member
      exact (mem_preorder_insert linked grown inside (Nat.ne_of_lt (known other member))).mpr
        (others other member)

/-- What comes behind a part of a file: the preamble behind the body of a function that is
intercepted. -/
def behind (interception : Interception) (tree : Tree) : Part → Text
  | .body id =>
    if interception.selects (tree.node id) then interception.preamble (tree.node id).flags else []
  | .close _ => []

theorem source_woven (interception : Interception) (linked : tree.Linked) :
    (interception.woven tree).source =
      tree.parts.flatMap fun part => tree.partText part ++ interception.behind tree part := by
  have nodup := (nodup_preorder linked linked.filled).filter
    fun id => interception.selects (tree.node id)
  rw [woven, targets, interception.source_foldl linked nodup fun id member =>
    (List.mem_filter.mp member).1, List.flatMap_def, List.flatMap_def]
  congr 1
  apply List.map_congr_left
  intro part member
  rw [partWith]
  congr 1
  cases part with
  | close id => simp [behind]
  | body id =>
      have reached := preorder_of_body_mem_tour member
      simp [behind, mem_bodies, reached, Part.id]

end Interception
end PhpWeave
