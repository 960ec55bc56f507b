import PhpWeave.Proofs.Node.Locality
import PhpWeave.Weave.Weaver

set_option autoImplicit false

/-!
Lines and splices. The line that a placement computes on the way up is one more than the line feeds
of the text in front of the place. A splice that puts as many line feeds into the text as it takes
out changes for no other node how many line feeds are in front of it.
-/

namespace PhpWeave.Tree

variable {tree before after : Tree} {parent : Nat} {front back : List Nat} {gone : Option Nat}
  {added : Option Node}

/-! ### The text in front of a node -/

theorem frontText_of_split {id below : Nat} {left right : List Part}
    (split : tree.tour id = left ++ .body below :: right) (first : Part.body below ∉ left) :
    tree.frontText id below = left.flatMap tree.partText := by
  rw [frontText, split, List.takeWhile_append_of_pos]
  · simp
  · intro part member
    exact decide_eq_true fun same => first (same ▸ member)

theorem frontText_root (linked : tree.Linked) : tree.frontText root root = [] :=
  frontText_of_split (show tree.tour root = [] ++ _ from tour_eq linked.ascending linked.filled)
    List.not_mem_nil

/-- The text of a node stands behind what is in front of the node. -/
theorem source_around (linked : tree.Linked) {id : Nat} (inside : id < tree.size)
    (atop : tree.Over root id) :
    ∃ rest, tree.source = tree.frontText root id ++ (tree.nodeText id ++ rest) := by
  obtain ⟨left, right, whole⟩ := tour_within_of_over linked atop
  have nodup := nodup_tour linked linked.filled
  have split : tree.tour root = left ++ .body id ::
      ((tree.children id).flatMap tree.tour ++ [.close id] ++ right) := by
    rw [← whole, tour_eq linked.ascending inside, List.append_assoc]
    rfl
  rw [split, List.nodup_middle] at nodup
  have first : Part.body id ∉ left := fun member =>
    (List.nodup_cons.mp nodup).1 (List.mem_append_left _ member)
  refine ⟨right.flatMap tree.partText, ?_⟩
  rw [frontText_of_split split first, source, nodeText_eq, nodeText_eq, ← whole,
    List.append_assoc, List.flatMap_append, List.flatMap_append]

theorem frontText_child (linked : tree.Linked) {id child : Nat} {early late : List Nat}
    (atop : tree.Over root id) (children : tree.children id = early ++ child :: late) :
    tree.frontText root child = tree.textUpTo root id early := by
  have bounds := linked.ascending.of_children children
  have inside := Nat.lt_trans bounds.1 bounds.2
  obtain ⟨left, right, whole⟩ := tour_within_of_over linked atop
  have nodup := nodup_tour linked linked.filled
  have split : tree.tour root = left ++ .body id :: (early.flatMap tree.tour ++
      (tree.tour child ++ (late.flatMap tree.tour ++ (.close id :: right)))) := by
    rw [← whole, tour_eq linked.ascending inside, children, List.flatMap_append, List.flatMap_cons]
    simp only [List.append_assoc, List.cons_append, List.nil_append]
  have notBefore : Part.body id ∉ left := by
    rw [split, List.nodup_middle] at nodup
    exact fun member => (List.nodup_cons.mp nodup).1 (List.mem_append_left _ member)
  rw [tour_eq linked.ascending bounds.2] at split
  have childSplit : tree.tour root = (left ++ .body id :: early.flatMap tree.tour) ++
      .body child :: ((tree.children child).flatMap tree.tour ++ (.close child ::
        (late.flatMap tree.tour ++ (.close id :: right)))) := by
    rw [split]
    simp only [List.append_assoc, List.cons_append, List.nil_append]
  have childNotBefore : Part.body child ∉ left ++ .body id :: early.flatMap tree.tour := by
    rw [childSplit, List.nodup_middle] at nodup
    exact fun member => (List.nodup_cons.mp nodup).1 (List.mem_append_left _ member)
  rw [frontText_of_split childSplit childNotBefore, textUpTo, frontText_of_split split notBefore,
    List.flatMap_append, List.flatMap_cons, flatMap_nodeText]
  rfl

/-! ### Lines -/

theorem newlinesIn_eq (ids : List Nat) :
    tree.newlinesIn ids = Text.newlines (ids.flatMap tree.nodeText) := by
  induction ids with
  | nil => rfl
  | cons first rest ih =>
      rw [List.flatMap_cons, Text.newlines_append, ← ih]
      rfl

private theorem takeWhile_before {early late : List Nat} {child : Nat}
    (nodup : (early ++ child :: late).Nodup) :
    (early ++ child :: late).takeWhile (fun id => id ≠ child) = early := by
  have absent : child ∉ early := fun member =>
    (List.nodup_cons.mp (List.nodup_middle.mp nodup)).1 (List.mem_append_left _ member)
  rw [List.takeWhile_append_of_pos]
  · simp
  · intro id member
    exact decide_eq_true fun same => absent (same ▸ member)

theorem newlinesBefore_eq (linked : tree.Linked) {id : Nat} (atop : tree.Over root id) :
    tree.newlinesBefore id (tree.ancestors id) = Text.newlines (tree.frontText root id) := by
  induction id using Nat.strongRecOn with
  | ind id ih =>
      cases link : tree.parent? id with
      | none =>
          have isRoot : id = root := by
            rcases atop with same | member
            · exact same.symm
            · rw [ancestors_of_root link] at member
              cases member
          rw [ancestors_of_root link, isRoot, frontText_root linked]
          rfl
      | some above =>
          have isChild := (linked.parent_iff id above).mp link
          obtain ⟨early, late, children⟩ := List.append_of_mem isChild
          have overAbove : tree.Over root above := by
            rcases atop with same | member
            · rw [← same, linked.root_parent] at link
              cases link
            · exact (over_of_link linked.ascending link).mp member
          have nodup := linked.nodup above
          rw [children] at nodup
          rw [ancestors_of_child linked.ascending link, newlinesBefore,
            ih above (linked.lt_size link).1 overAbove, newlinesIn_eq, children,
            takeWhile_before nodup, frontText_child linked overAbove children, textUpTo,
            Text.newlines_append, Text.newlines_append]
          exact Nat.add_assoc _ _ _

theorem placementLine_eq (linked : tree.Linked) {id : Nat} (atop : tree.Over root id)
    (index : Nat) : tree.placementLine id index =
      min (Text.newlines (tree.textUpTo root id ((tree.children id).take index)) + 1)
        lineLimit := by
  rw [placementLine, newlinesBefore_eq linked atop, newlinesIn_eq, textUpTo, Text.newlines_append,
    Text.newlines_append, Nat.add_assoc (Text.newlines (tree.frontText root id))]

/-! ### Splices that keep line feeds -/

def KeepsFeeds (before : Tree) (gone : Option Nat) (added : Option Node) : Prop :=
  Text.newlines (gone.toList.flatMap before.nodeText) = Text.newlines (leafText added)

theorem newlines_source_splice (linked : before.Linked)
    (spliced : before.Spliced after parent front gone added back)
    (keeps : before.KeepsFeeds gone added) :
    Text.newlines after.source = Text.newlines before.source := by
  by_cases atop : before.Over root parent
  · obtain ⟨rest, old, new⟩ := nodeText_splice linked spliced linked.filled atop
    rw [source, source, old, new]
    simp only [Text.newlines_append, ← show _ = _ from keeps]
  · rw [source, source, nodeText_elsewhere linked spliced linked.filled atop]

section Stretches

variable {place old new : List Part} {id : Nat}

private theorem frontText_early (oldTour : before.tour root = place ++ old)
    (newTour : after.tour root = place ++ new) (early : .body id ∈ place)
    (same : ∀ parts ⊆ place, parts.flatMap after.partText = parts.flatMap before.partText) :
    after.frontText root id = before.frontText root id := by
  obtain ⟨left, right, split, first⟩ := List.eq_append_cons_of_mem early
  rw [frontText_of_split (by rw [newTour, split, List.append_assoc, List.cons_append]) first,
    frontText_of_split (by rw [oldTour, split, List.append_assoc, List.cons_append]) first]
  refine same left ?_
  rw [split]
  exact List.subset_append_left _ _

/-- Behind the place of a splice: one text gave way to one with as many line feeds. -/
private theorem newlines_frontText_late (linked : before.Linked)
    (spliced : before.Spliced after parent front gone added back)
    (keeps : before.KeepsFeeds gone added) {rest : List Part}
    (oldTour : before.tour root = place ++ (gone.toList.flatMap before.tour ++ rest))
    (newTour : after.tour root = place ++ (before.leafParts added ++ rest))
    (apart : .body id ∉ place) (late : .body id ∈ rest) :
    Text.newlines (after.frontText root id) = Text.newlines (before.frontText root id) := by
  have known (part : Part) (member : part ∈ before.tour root) : part.id < before.size :=
    (mem_tour linked.ascending linked.filled member).2
  have nodup := nodup_tour linked linked.filled
  obtain ⟨left, right, split, first⟩ := List.eq_append_cons_of_mem late
  have oldSplit : before.tour root =
      (place ++ (gone.toList.flatMap before.tour ++ left)) ++ .body id :: right := by
    rw [oldTour, split]
    simp only [List.append_assoc]
  have newSplit : after.tour root =
      (place ++ (before.leafParts added ++ left)) ++ .body id :: right := by
    rw [newTour, split]
    simp only [List.append_assoc]
  have oldFirst : .body id ∉ place ++ (gone.toList.flatMap before.tour ++ left) := by
    rw [oldSplit, List.nodup_middle] at nodup
    exact fun member => (List.nodup_cons.mp nodup).1 (List.mem_append_left _ member)
  have inside : id < before.size := known (.body id) (by rw [oldSplit]; simp)
  have newFirst : .body id ∉ place ++ (before.leafParts added ++ left) := by
    intro among
    refine (List.mem_append.mp ((List.mem_append.mp among).resolve_left apart)).elim
      (fun leaf => ?_) first
    cases added with
    | none => cases leaf
    | some node =>
        have isNew : id = before.size := by simpa [leafParts] using leaf
        exact Nat.ne_of_lt inside isNew
  have inFront := spliced.texts place fun part among => known part (by simp [oldTour, among])
  have behind := spliced.texts left fun part among => known part (by simp [oldSplit, among])
  rw [frontText_of_split newSplit newFirst, frontText_of_split oldSplit oldFirst]
  simp only [List.flatMap_append, Text.newlines_append, inFront, spliced.text_leaf,
    ← flatMap_nodeText, behind, show _ = _ from keeps]

end Stretches

/-- After such a splice, a node of the file is the one that comes, at the place of the splice, or an
old one with as many line feeds in front of it as before. -/
theorem frontText_splice (linked : before.Linked)
    (spliced : before.Spliced after parent front gone added back)
    (keeps : before.KeepsFeeds gone added) {id : Nat} (member : id ∈ after.preorder root) :
    id = before.size ∧ added.isSome = true ∧ before.Over root parent ∧
        after.frontText root id = before.textUpTo root parent front ∨
      id ∈ before.preorder root ∧
        Text.newlines (after.frontText root id) = Text.newlines (before.frontText root id) := by
  have inTour := body_mem_tour_of_preorder member
  by_cases atop : before.Over root parent
  · obtain ⟨rest, old, new⟩ := tour_splice linked spliced linked.filled atop
    have inFront (parts : List Part) (among : parts ⊆ before.partsUpTo root parent front) :
        parts.flatMap after.partText = parts.flatMap before.partText :=
      spliced.texts parts fun part member => (mem_tour linked.ascending linked.filled
        (old ▸ List.mem_append_left _ (among member))).2
    rw [new] at inTour
    by_cases early : .body id ∈ before.partsUpTo root parent front
    · refine .inr ⟨preorder_of_body_mem_tour (old ▸ List.mem_append_left _ early), ?_⟩
      rw [frontText_early old new early inFront]
    · rcases List.mem_append.mp ((List.mem_append.mp inTour).resolve_left early) with leaf | late
      · refine .inl ?_
        cases added with
        | none => cases leaf
        | some node =>
            have isNew : id = before.size := by
              simpa [leafParts] using leaf
            subst isNew
            refine ⟨rfl, rfl, atop, ?_⟩
            rw [frontText_of_split new early, inFront _ (List.Subset.refl _), text_partsUpTo]
      · refine .inr ⟨preorder_of_body_mem_tour ?_,
          newlines_frontText_late linked spliced keeps old new early late⟩
        rw [old]
        exact List.mem_append_right _ (List.mem_append_right _ late)
  · have same := tour_elsewhere linked spliced linked.filled atop
    rw [same] at inTour
    refine .inr ⟨preorder_of_body_mem_tour inTour, ?_⟩
    rw [frontText, frontText, same, spliced.texts]
    intro part among
    exact (mem_tour linked.ascending linked.filled
      ((List.takeWhile_prefix _).subset among)).2

/-! ### Changes of a body -/

def setBody (tree : Tree) (id : Nat) (body : Text) : Tree :=
  tree.update id fun node => { node with body := body }

theorem update_body (id : Nat) (change : Text → Text) :
    tree.update id (fun node => { node with body := change node.body }) =
      tree.setBody id (change (tree.node id).body) := update_congr rfl

theorem node_setBody_property (tree : Tree) {α : Type} (property : Node → α)
    (kept : ∀ node body, property { node with body := body } = property node) (id : Nat)
    (body : Text) (other : Nat) :
    property ((tree.setBody id body).node other) = property (tree.node other) :=
  node_update_property property (fun node => kept node body) other

theorem tour_setBody (id : Nat) (body : Text) (other : Nat) :
    (tree.setBody id body).tour other = tree.tour other := by
  rw [tour, tour, setBody, size_update]
  exact tourWithin_congr (node_setBody_property _ Node.children (fun _ _ => rfl) id body) _ _

private theorem newlines_setBody {id : Nat} {body : Text}
    (same : Text.newlines body = Text.newlines (tree.node id).body) (parts : List Part) :
    Text.newlines (parts.flatMap (tree.setBody id body).partText) =
      Text.newlines (parts.flatMap tree.partText) := by
  have each (part : Part) : Text.newlines ((tree.setBody id body).partText part) =
      Text.newlines (tree.partText part) := by
    cases part with
    | body other =>
        rcases @node_update_cases tree id (fun node => { node with body := body }) other with
          kept | ⟨rfl, changed⟩
        · exact congrArg (fun node => Text.newlines (Node.body node)) kept
        · exact (congrArg (fun node => Text.newlines (Node.body node)) changed).trans same
    | close other =>
        exact congrArg Text.newlines (node_setBody_property _ Node.close (fun _ _ => rfl)
          id body other)
  induction parts with
  | nil => rfl
  | cons part rest ih =>
      rw [List.flatMap_cons, List.flatMap_cons, Text.newlines_append, Text.newlines_append,
        each, ih]

theorem newlines_frontText_setBody {id : Nat} {body : Text}
    (same : Text.newlines body = Text.newlines (tree.node id).body) (top other : Nat) :
    Text.newlines ((tree.setBody id body).frontText top other) =
      Text.newlines (tree.frontText top other) := by
  rw [frontText, frontText, tour_setBody, newlines_setBody same]

theorem newlines_nodeText_setBody {id : Nat} {body : Text}
    (same : Text.newlines body = Text.newlines (tree.node id).body) (other : Nat) :
    Text.newlines ((tree.setBody id body).nodeText other) =
      Text.newlines (tree.nodeText other) := by
  rw [nodeText_eq, nodeText_eq, tour_setBody, newlines_setBody same]

end PhpWeave.Tree
