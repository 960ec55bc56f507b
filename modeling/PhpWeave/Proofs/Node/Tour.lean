import PhpWeave.Node.Dump
import PhpWeave.Proofs.Node.Arena

set_option autoImplicit false

/-!
The tour of a tree: for every node its body, the tours of its children in order, and its close. The
printer puts down the texts along the tour, and the walk in source order visits the bodies along it.
A pushed node enters the tour right before the close of its parent.
-/

namespace PhpWeave

/-- A part of the text of a tree: what a node has before its children, or after them. -/
inductive Part where
  | body (id : NodeId)
  | close (id : NodeId)
  deriving DecidableEq, Repr

namespace Part

def id : Part → Nat
  | body id => id
  | close id => id

def bodyOf? : Part → Option NodeId
  | body id => some id
  | close _ => none

end Part

namespace Tree

/-- The text of a part. -/
def partText (tree : Tree) : Part → Text
  | .body id => (tree.node id).body
  | .close id => (tree.node id).close

/-- The parts of a node and of the nodes under it, down to a depth. -/
def tourWithin (tree : Tree) : Nat → NodeId → List Part
  | 0, _ => []
  | depth + 1, id =>
    .body id :: ((tree.children id).flatMap (tourWithin tree depth) ++ [.close id])

/-- The parts of a node and of the nodes under it. -/
def tour (tree : Tree) (id : Nat) : List Part := tree.tourWithin tree.size id

/-- The parts of a tree in the order they are printed. -/
def parts (tree : Tree) : List Part := tree.tour root

variable {tree : Tree}

/-! ### Walks along the tour -/

theorem textWith_eq (depth : Nat) (id : Nat) (after : Text) :
    tree.textWith depth id after = (tree.tourWithin depth id).flatMap tree.partText ++ after := by
  induction depth generalizing id after with
  | zero => rfl
  | succ depth ih =>
      have children (ids : List NodeId) (after : Text) :
          ids.foldr (textWith tree depth) after =
            (ids.flatMap (tree.tourWithin depth)).flatMap tree.partText ++ after := by
        induction ids with
        | nil => rfl
        | cons first rest rests =>
            rw [List.foldr_cons, rests, ih, List.flatMap_cons, List.flatMap_append,
              List.append_assoc]
      rw [textWith, children, tourWithin, List.flatMap_cons, List.flatMap_append,
        List.flatMap_singleton, List.append_assoc, List.append_assoc]
      rfl

theorem source_eq : tree.source = tree.parts.flatMap tree.partText := by
  rw [source, nodeText, textWith_eq, List.append_nil]
  rfl

theorem preorderWith_eq (depth : Nat) (id : Nat) (after : List NodeId) :
    tree.preorderWith depth id after =
      (tree.tourWithin depth id).filterMap Part.bodyOf? ++ after := by
  induction depth generalizing id after with
  | zero => rfl
  | succ depth ih =>
      have children (ids : List NodeId) (after : List NodeId) :
          ids.foldr (preorderWith tree depth) after =
            (ids.flatMap (tree.tourWithin depth)).filterMap Part.bodyOf? ++ after := by
        induction ids with
        | nil => rfl
        | cons first rest rests =>
            rw [List.foldr_cons, rests, ih, List.flatMap_cons, List.filterMap_append,
              List.append_assoc]
      rw [preorderWith, children, tourWithin,
        List.filterMap_cons_some (f := Part.bodyOf?) (b := id) rfl, List.filterMap_append,
        List.cons_append, List.append_assoc]
      rfl

theorem preorder_eq_filterMap (id : Nat) :
    tree.preorder id = (tree.tour id).filterMap Part.bodyOf? := by
  rw [preorder, preorderWith_eq, List.append_nil]
  rfl

theorem body_mem_tour_of_preorder {id below : Nat} (member : below ∈ tree.preorder id) :
    .body below ∈ tree.tour id := by
  rw [preorder_eq_filterMap, List.mem_filterMap] at member
  obtain ⟨part, among, body⟩ := member
  cases part with
  | body found =>
      cases body
      exact among
  | close found => cases body

theorem preorder_of_body_mem_tour {id below : Nat} (member : .body below ∈ tree.tour id) :
    below ∈ tree.preorder id := by
  rw [preorder_eq_filterMap, List.mem_filterMap]
  exact ⟨.body below, member, rfl⟩

theorem preorder_eq : tree.preorder root = tree.parts.filterMap Part.bodyOf? :=
  preorder_eq_filterMap root

/-! ### Depth -/

theorem tourWithin_eq (ascending : Ascending tree) {depth other : Nat} {id : Nat}
    (inside : id < tree.size) (enough : tree.size - id ≤ depth) (more : tree.size - id ≤ other) :
    tree.tourWithin depth id = tree.tourWithin other id := by
  induction depth generalizing id other with
  | zero => omega
  | succ depth ih =>
      cases other with
      | zero => omega
      | succ other =>
          have below : (tree.children id).flatMap (tree.tourWithin depth) =
              (tree.children id).flatMap (tree.tourWithin other) := by
            rw [List.flatMap_def, List.flatMap_def]
            congr 1
            apply List.map_congr_left
            intro child member
            have bounds := ascending.children id child member
            exact ih bounds.2 (by omega) (by omega)
          rw [tourWithin, tourWithin, below]

theorem tour_eq (ascending : Ascending tree) {id : Nat} (inside : id < tree.size) :
    tree.tour id = .body id :: ((tree.children id).flatMap tree.tour ++ [.close id]) := by
  obtain ⟨less, size⟩ := Nat.exists_eq_succ_of_ne_zero (Nat.ne_of_gt (Nat.zero_lt_of_lt inside))
  have below : (tree.children id).flatMap (tree.tourWithin less) =
      (tree.children id).flatMap tree.tour := by
    rw [List.flatMap_def, List.flatMap_def]
    congr 1
    apply List.map_congr_left
    intro child member
    have bounds := ascending.children id child member
    exact tourWithin_eq ascending bounds.2 (by omega) (by omega)
  rw [tour, size, tourWithin, below]

theorem mem_tour (ascending : Ascending tree) {id : Nat} (inside : id < tree.size) {part : Part}
    (member : part ∈ tree.tour id) : id ≤ part.id ∧ part.id < tree.size := by
  induction gap : tree.size - id using Nat.strongRecOn generalizing id with
  | ind gap ih =>
      rw [tour_eq ascending inside, List.mem_cons, List.mem_append, List.mem_flatMap,
        List.mem_singleton] at member
      rcases member with rfl | ⟨child, isChild, below⟩ | rfl
      · exact ⟨Nat.le_refl _, inside⟩
      · have bounds := ascending.children id child isChild
        have found := ih (tree.size - child) (by omega) bounds.2 below rfl
        omega
      · exact ⟨Nat.le_refl _, inside⟩

/-! ### The tour after a change -/

theorem tourWithin_congr {other : Tree} (children : ∀ id, other.children id = tree.children id)
    (depth : Nat) (id : Nat) : other.tourWithin depth id = tree.tourWithin depth id := by
  induction depth generalizing id with
  | zero => rfl
  | succ depth ih =>
      have below : other.tourWithin depth = tree.tourWithin depth := funext ih
      rw [tourWithin, tourWithin, children, below]

theorem parts_update {id : Nat} {change : Node → Node}
    (kept : ∀ node, (change node).children = node.children) :
    (tree.update id change).parts = tree.parts := by
  rw [parts, tour, size_update]
  exact tourWithin_congr (fun other => node_update_property Node.children kept other) _ _

def withLeaf (parent leaf : Nat) (part : Part) : List Part :=
  if part = .close parent then [.body leaf, .close leaf, .close parent] else [part]

theorem flatMap_withLeaf {parent leaf : Nat} {parts : List Part}
    (absent : Part.close parent ∉ parts) :
    parts.flatMap (withLeaf parent leaf) = parts := by
  induction parts with
  | nil => rfl
  | cons part rest ih =>
      obtain ⟨apart, later⟩ := List.ne_and_not_mem_of_not_mem_cons absent
      rw [List.flatMap_cons, ih later, withLeaf, if_neg (Ne.symm apart)]
      rfl

theorem tour_push (ascending : Ascending tree) {id parent : Nat} (inside : id < tree.size)
    (around : parent < tree.size) (added : Node) :
    (tree.push parent added).tour id = (tree.tour id).flatMap (withLeaf parent tree.size) := by
  have after : Ascending (tree.push parent added) := ascending.push around added
  have grown (id : Nat) (inside : id < tree.size) : id < (tree.push parent added).size := by
    rw [size_push]
    omega
  have leaf : (tree.push parent added).tour tree.size = [.body tree.size, .close tree.size] := by
    rw [tour_eq after (by rw [size_push]; omega), children_push_self around]
    rfl
  induction gap : tree.size - id using Nat.strongRecOn generalizing id with
  | ind gap ih =>
      have below : (tree.children id).flatMap (tree.push parent added).tour =
          ((tree.children id).flatMap tree.tour).flatMap (withLeaf parent tree.size) := by
        rw [List.flatMap_assoc, List.flatMap_def, List.flatMap_def]
        congr 1
        apply List.map_congr_left
        intro child member
        have bounds := ascending.children id child member
        exact ih (tree.size - child) (by omega) bounds.2 rfl
      rw [tour_eq after (grown id inside), tour_eq ascending inside, children_push inside around]
      split
      · next same =>
          rw [List.flatMap_append, below, List.flatMap_singleton, leaf, List.flatMap_cons,
            List.flatMap_append, List.flatMap_singleton, same]
          simp [withLeaf]
      · next apart =>
          have other : Part.close id ≠ .close parent := fun same => apart (by cases same; rfl)
          rw [below, List.flatMap_cons, List.flatMap_append, List.flatMap_singleton]
          simp [withLeaf, other]

theorem parts_push (ascending : Ascending tree) {parent : Nat} (around : parent < tree.size)
    (added : Node) {front rest : List Part} (before : tree.parts = front ++ .close parent :: rest)
    (nodup : tree.parts.Nodup) :
    (tree.push parent added).parts =
      front ++ .body tree.size :: .close tree.size :: .close parent :: rest := by
  rw [before, List.nodup_append, List.nodup_cons] at nodup
  obtain ⟨-, ⟨notLater, -⟩, apart⟩ := nodup
  have notEarlier : Part.close parent ∉ front := fun member =>
    apart _ member _ List.mem_cons_self rfl
  have filled : 0 < tree.size := Nat.zero_lt_of_lt around
  have pushed := tour_push ascending filled around added
  change (tree.push parent added).parts = tree.parts.flatMap _ at pushed
  rw [pushed, before, List.flatMap_append, List.flatMap_cons, flatMap_withLeaf notEarlier,
    flatMap_withLeaf notLater, withLeaf, if_pos rfl]
  rfl

theorem partText_push {parent : Nat} (around : parent < tree.size) (added : Node) {part : Part}
    (old : part.id < tree.size) : (tree.push parent added).partText part = tree.partText part := by
  cases part with
  | body id => exact node_push_property Node.body (fun _ _ => rfl) old around added
  | close id => exact node_push_property Node.close (fun _ _ => rfl) old around added

theorem mem_parts (ascending : Ascending tree) (filled : 0 < tree.size) {part : Part}
    (member : part ∈ tree.parts) : part.id < tree.size :=
  (mem_tour ascending filled member).2

end Tree
end PhpWeave
