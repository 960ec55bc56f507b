import PhpWeave.Proofs.Node.Walks

set_option autoImplicit false

/-!
What a splice does to the text of a tree. A splice under a node reaches the tour of another node
only when that one is above it, and there it changes one stretch: what stands for the child that
goes makes room for the parts of the node that comes, a leaf. The stretch begins behind the body of
the parent and the tours of the children in front of the place.
-/

namespace PhpWeave.Tree

variable {tree before after : Tree} {parent : Nat} {front back : List Nat} {gone : Option Nat}
  {added : Option Node}

def partsUpTo (tree : Tree) (id parent : Nat) (children : List Nat) : List Part :=
  (tree.tour id).takeWhile (fun part => part ≠ .body parent) ++
    .body parent :: children.flatMap tree.tour

def leafParts (tree : Tree) (added : Option Node) : List Part :=
  (added.map fun _ => [Part.body tree.size, .close tree.size]).getD []

private theorem not_over_child (linked : before.Linked) {id child : Nat}
    (apart : ¬ before.Over id parent) (member : child ∈ before.children id) :
    ¬ before.Over child parent := fun atop =>
  apart (.inr (atop.link linked.ascending ((linked.parent_iff child id).mpr member)))

theorem tour_elsewhere (linked : before.Linked)
    (spliced : before.Spliced after parent front gone added back) {id : Nat}
    (inside : id < before.size) (apart : ¬ before.Over id parent) :
    after.tour id = before.tour id := by
  have ascending := linked.ascending_spliced spliced
  induction gap : before.size - id using Nat.strongRecOn generalizing id with
  | ind gap ih =>
      have below : (before.children id).flatMap after.tour =
          (before.children id).flatMap before.tour := by
        rw [List.flatMap_def, List.flatMap_def]
        congr 1
        apply List.map_congr_left
        intro child member
        have bounds := linked.ascending.children id child member
        exact ih (before.size - child) (by omega) bounds.2 (not_over_child linked apart member) rfl
      have kept := spliced.children id fun same => apart (.inl same)
      rw [tour_eq ascending (Nat.lt_of_lt_of_le inside spliced.size_le),
        tour_eq linked.ascending inside, kept, below]

private theorem tours_elsewhere (linked : before.Linked)
    (spliced : before.Spliced after parent front gone added back) (ids : List Nat)
    (apart : ∀ id ∈ ids, id < before.size ∧ ¬ before.Over id parent) :
    ids.flatMap after.tour = ids.flatMap before.tour := by
  rw [List.flatMap_def, List.flatMap_def]
  congr 1
  apply List.map_congr_left
  intro id member
  exact tour_elsewhere linked spliced (apart id member).1 (apart id member).2

private theorem tour_leaf (linked : before.Linked)
    (spliced : before.Spliced after parent front gone added back) :
    (added.map fun _ => before.size).toList.flatMap after.tour = before.leafParts added := by
  cases added with
  | none => rfl
  | some node =>
      have inside : before.size < after.size := by
        rw [spliced.size]
        exact Nat.lt_succ_self _
      have leaf : after.children before.size = [] := by
        rw [children, spliced.attached node rfl]
      rw [Option.map_some, Option.toList_some, List.flatMap_singleton,
        tour_eq (linked.ascending_spliced spliced) inside, leaf]
      rfl

private theorem tour_parent (linked : before.Linked)
    (spliced : before.Spliced after parent front gone added back) :
    before.tour parent = .body parent :: (front.flatMap before.tour ++
      (gone.toList.flatMap before.tour ++ (back.flatMap before.tour ++ [.close parent]))) ∧
    after.tour parent = .body parent :: (front.flatMap before.tour ++
      (before.leafParts added ++ (back.flatMap before.tour ++ [.close parent]))) := by
  have apart (id : Nat) (member : id ∈ before.children parent) :
      id < before.size ∧ ¬ before.Over id parent := by
    have bounds := linked.ascending.children parent id member
    exact ⟨bounds.2, fun atop => absurd (atop.le linked.ascending) (Nat.not_le_of_lt bounds.1)⟩
  rw [spliced.childrenBefore] at apart
  have inFront := tours_elsewhere linked spliced front fun id member =>
    apart id (List.mem_append_left _ member)
  have behind := tours_elsewhere linked spliced back fun id member =>
    apart id (List.mem_append_right _ (List.mem_append_right _ member))
  constructor
  · rw [tour_eq linked.ascending spliced.around, spliced.childrenBefore]
    simp only [List.flatMap_append, List.append_assoc]
  · rw [tour_eq (linked.ascending_spliced spliced)
      (Nat.lt_of_lt_of_le spliced.around spliced.size_le), spliced.childrenAfter]
    simp only [List.flatMap_append, List.append_assoc, inFront, behind, tour_leaf linked spliced]

/-- Around the tour of the parent, the tour of a node above is as it was. -/
private theorem tour_around (linked : before.Linked)
    (spliced : before.Spliced after parent front gone added back) {id : Nat}
    (inside : id < before.size) (atop : before.Over id parent) :
    ∃ left right, before.tour id = left ++ (before.tour parent ++ right) ∧
      after.tour id = left ++ (after.tour parent ++ right) := by
  have ascending := linked.ascending
  induction gap : before.size - id using Nat.strongRecOn generalizing id with
  | ind gap ih =>
      by_cases same : id = parent
      · subst same
        exact ⟨[], [], by simp, by simp⟩
      · have member := (mem_tour_iff linked inside).mpr
          (show (Part.body parent).id < _ ∧ _ from ⟨spliced.around, atop⟩)
        rw [tour_eq ascending inside, List.mem_cons, List.mem_append, List.mem_flatMap,
          List.mem_singleton] at member
        rcases member with itself | ⟨child, isChild, below⟩ | last
        · cases itself
          exact absurd rfl same
        · have bounds := ascending.children id child isChild
          have atop := ((mem_tour_iff linked bounds.2).mp below).2
          obtain ⟨left, right, old, new⟩ := ih (before.size - child) (by omega) bounds.2 atop rfl
          obtain ⟨early, late, split⟩ := List.append_of_mem isChild
          -- The parent is below one child only, for the children have no node in common.
          have others (other : Nat) (isOther : other ∈ early ++ late) :
              other < before.size ∧ ¬ before.Over other parent := by
            have nodup := linked.nodup id
            rw [split, List.nodup_middle] at nodup
            have ne : other ≠ child := fun same =>
              (List.nodup_cons.mp nodup).1 (same ▸ isOther)
            have listed : other ∈ before.children id := by
              rw [split]
              exact List.perm_middle.mem_iff.mpr (List.mem_cons_of_mem _ isOther)
            exact ⟨(ascending.children id other listed).2, fun both =>
              ne (linked.eq_of_over_both listed isChild both atop)⟩
          have inFront := tours_elsewhere linked spliced early fun other member =>
            others other (List.mem_append_left late member)
          have behind := tours_elsewhere linked spliced late fun other member =>
            others other (List.mem_append_right early member)
          refine ⟨.body id :: (early.flatMap before.tour ++ left),
            right ++ (late.flatMap before.tour ++ [.close id]), ?_, ?_⟩
          · rw [tour_eq ascending inside, split, List.flatMap_append, List.flatMap_cons, old]
            simp only [List.append_assoc, List.cons_append]
          · rw [tour_eq (linked.ascending_spliced spliced)
              (Nat.lt_of_lt_of_le inside spliced.size_le), spliced.children id same, split,
              List.flatMap_append, List.flatMap_cons, new, inFront, behind]
            simp only [List.append_assoc, List.cons_append]
        · cases last

/-- A splice changes the tour of a node above in one stretch. -/
theorem tour_splice (linked : before.Linked)
    (spliced : before.Spliced after parent front gone added back) {id : Nat}
    (inside : id < before.size) (atop : before.Over id parent) :
    ∃ rest, before.tour id = before.partsUpTo id parent front ++
        (gone.toList.flatMap before.tour ++ rest) ∧
      after.tour id = before.partsUpTo id parent front ++ (before.leafParts added ++ rest) := by
  obtain ⟨left, right, old, new⟩ := tour_around linked spliced inside atop
  obtain ⟨oldParent, newParent⟩ := tour_parent linked spliced
  rw [oldParent] at old
  rw [newParent] at new
  have front_eq : (before.tour id).takeWhile (fun part => part ≠ .body parent) = left := by
    have nodup := nodup_tour linked inside
    rw [old, List.cons_append, List.nodup_middle] at nodup
    have absent : Part.body parent ∉ left := fun member =>
      (List.nodup_cons.mp nodup).1 (List.mem_append_left _ member)
    rw [old, List.cons_append, List.takeWhile_append_of_pos]
    · simp
    · intro part member
      exact decide_eq_true fun same => absent (same ▸ member)
  refine ⟨back.flatMap before.tour ++ (.close parent :: right), ?_, ?_⟩
  · rw [partsUpTo, front_eq, old]
    simp only [List.append_assoc, List.cons_append, List.nil_append]
  · rw [partsUpTo, front_eq, new]
    simp only [List.append_assoc, List.cons_append, List.nil_append]

/-- Without a node that comes, the parts of a tree are the old ones. -/
theorem Spliced.filter_parts (linked : before.Linked)
    (spliced : before.Spliced after parent front none added back)
    (atop : before.Over root parent) :
    after.parts.filter (fun part => part.id < before.size) = before.parts := by
  obtain ⟨rest, old, new⟩ := tour_splice linked spliced linked.filled atop
  change before.parts = _ at old
  change after.parts = _ at new
  have all : before.parts.filter (fun part => part.id < before.size) = before.parts :=
    List.filter_eq_self.mpr fun part member =>
      decide_eq_true (mem_parts linked.ascending linked.filled member)
  have leaf : (before.leafParts added).filter (fun part => part.id < before.size) = [] := by
    cases added with
    | none => rfl
    | some node => simp [leafParts, Part.id]
  rw [old, Option.toList_none, List.flatMap_nil, List.nil_append, List.filter_append] at all
  rw [new, old, Option.toList_none, List.flatMap_nil, List.nil_append, List.filter_append,
    List.filter_append, leaf, List.nil_append, all]

/-! ### Texts -/

theorem nodeText_eq (id : Nat) : tree.nodeText id = (tree.tour id).flatMap tree.partText := by
  rw [nodeText, textWith_eq, List.append_nil]
  rfl

theorem flatMap_nodeText (ids : List Nat) :
    ids.flatMap tree.nodeText = (ids.flatMap tree.tour).flatMap tree.partText := by
  rw [List.flatMap_assoc]
  exact congrArg (List.flatMap · ids) (funext nodeText_eq)

theorem Spliced.partText (spliced : before.Spliced after parent front gone added back)
    {part : Part} (old : part.id < before.size) : after.partText part = before.partText part := by
  cases part with
  | body id => exact spliced.property Node.body (fun _ => rfl) old
  | close id => exact spliced.property Node.close (fun _ => rfl) old

theorem Spliced.texts (spliced : before.Spliced after parent front gone added back)
    (parts : List Part) (old : ∀ part ∈ parts, part.id < before.size) :
    parts.flatMap after.partText = parts.flatMap before.partText := by
  rw [List.flatMap_def, List.flatMap_def]
  congr 1
  apply List.map_congr_left
  intro part member
  exact spliced.partText (old part member)

/-- The text of a leaf that comes. -/
def leafText (added : Option Node) : Text :=
  (added.map fun node => node.body ++ node.close).getD []

theorem Spliced.text_leaf (spliced : before.Spliced after parent front gone added back) :
    (before.leafParts added).flatMap after.partText = leafText added := by
  cases added with
  | none => rfl
  | some node =>
      have here := spliced.attached node rfl
      simp [leafParts, leafText, Tree.partText, here]

theorem nodeText_elsewhere (linked : before.Linked)
    (spliced : before.Spliced after parent front gone added back) {id : Nat}
    (inside : id < before.size) (apart : ¬ before.Over id parent) :
    after.nodeText id = before.nodeText id := by
  rw [nodeText_eq, nodeText_eq, tour_elsewhere linked spliced inside apart]
  exact spliced.texts _ fun part member => (mem_tour linked.ascending inside member).2

/-- The text of a node in front of one of the nodes below it. -/
def frontText (tree : Tree) (id below : Nat) : Text :=
  ((tree.tour id).takeWhile fun part => part ≠ .body below).flatMap tree.partText

/-- The text of a node in front of the place under one of its nodes that these children lead to. -/
def textUpTo (tree : Tree) (id parent : Nat) (children : List Nat) : Text :=
  tree.frontText id parent ++ ((tree.node parent).body ++ children.flatMap tree.nodeText)

theorem text_partsUpTo (id parent : Nat) (children : List Nat) :
    (tree.partsUpTo id parent children).flatMap tree.partText =
      tree.textUpTo id parent children := by
  rw [partsUpTo, textUpTo, List.flatMap_append, List.flatMap_cons, flatMap_nodeText]
  rfl

theorem nodeText_splice (linked : before.Linked)
    (spliced : before.Spliced after parent front gone added back) {id : Nat}
    (inside : id < before.size) (atop : before.Over id parent) :
    ∃ rest, before.nodeText id = before.textUpTo id parent front ++
        (gone.toList.flatMap before.nodeText ++ rest) ∧
      after.nodeText id = before.textUpTo id parent front ++ (leafText added ++ rest) := by
  obtain ⟨rest, old, new⟩ := tour_splice linked spliced inside atop
  have known (part : Part) (member : part ∈ before.tour id) : part.id < before.size :=
    (mem_tour linked.ascending inside member).2
  rw [old] at known
  have inFront := spliced.texts (before.partsUpTo id parent front) fun part member =>
    known part (List.mem_append_left _ member)
  have behind := spliced.texts rest fun part member =>
    known part (List.mem_append_right _ (List.mem_append_right _ member))
  refine ⟨rest.flatMap before.partText, ?_, ?_⟩
  · rw [nodeText_eq, old, List.flatMap_append, List.flatMap_append, text_partsUpTo,
      flatMap_nodeText]
  · rw [nodeText_eq, new, List.flatMap_append, List.flatMap_append, inFront, behind,
      text_partsUpTo, spliced.text_leaf]

theorem source_splice (linked : tree.Linked) (splice : Splice)
    (around : splice.parent < tree.size) :
    (splice.parent ∈ tree.preorder root →
      let place := (tree.children splice.parent).take (splice.index tree)
      ∃ rest, tree.source = tree.textUpTo root splice.parent place ++
          ((splice.gone? tree).toList.flatMap tree.nodeText ++ rest) ∧
        (splice.apply tree).source = tree.textUpTo root splice.parent place ++
          (leafText (splice.added? tree) ++ rest)) ∧
    (splice.parent ∉ tree.preorder root → (splice.apply tree).source = tree.source) ∧
    ∀ id < tree.size, splice.parent ∉ tree.preorder id →
      (splice.apply tree).nodeText id = tree.nodeText id := by
  have spliced := spliced_apply linked.ascending splice around
  have elsewhere {id : Nat} (inside : id < tree.size) (apart : splice.parent ∉ tree.preorder id) :
      (splice.apply tree).nodeText id = tree.nodeText id :=
    nodeText_elsewhere linked spliced inside fun atop =>
      apart ((mem_preorder linked inside).mpr ⟨around, atop⟩)
  refine ⟨fun member => ?_, elsewhere linked.filled, fun id inside => elsewhere inside⟩
  have atop := ((mem_preorder linked linked.filled).mp member).2
  exact nodeText_splice linked spliced linked.filled atop

/-- A namespace with a class in front of a call. -/
def nested : Tree :=
  let file := empty.push root { kind := .scope, body := ['('], close := [')'] }
  let filled := file.push 1 { kind := .classLike .ordinary, body := ['C', '('], close := [')'] }
  filled.push 1 { kind := .code, body := ['f', ';'] }

theorem source_splice_nested :
    let splice := Splice.replace 1 0 { kind := .code, body := ['g', ';'] }
    nested.Linked ∧ splice.parent < nested.size ∧ splice.parent ∈ nested.preorder root ∧
      nested.source = "(C()f;)".toList ∧ (splice.apply nested).source = "(g;f;)".toList ∧
      (splice.parent ∉ nested.preorder 2 ∧ (splice.apply nested).nodeText 2 = "C()".toList) := by
  intro splice
  have linked : nested.Linked :=
    (((Linked.empty.splice (.push root _) (by decide) (by decide)).splice (.push 1 _) (by decide)
      (by decide)).splice (.push 1 _) (by decide) (by decide))
  obtain ⟨here, -, elsewhere⟩ := source_splice linked splice (by decide)
  obtain ⟨rest, old, new⟩ := here (by decide)
  have front : nested.textUpTo root splice.parent
      ((nested.children splice.parent).take (splice.index nested)) = ['('] := by decide
  have gone : (splice.gone? nested).toList.flatMap nested.nodeText = ['C', '(', ')'] := by decide
  have added : leafText (splice.added? nested) = ['g', ';'] := by decide
  have before : nested.source = "(C()f;)".toList := by decide
  rw [front, gone, before] at old
  have behind : rest = ['f', ';', ')'] := by simpa using old.symm
  rw [front, added, behind] at new
  exact ⟨linked, by decide, by decide, before, new, by decide,
    (elsewhere 2 (by decide) (by decide)).trans (by decide)⟩

end PhpWeave.Tree
