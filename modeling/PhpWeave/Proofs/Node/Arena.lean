import PhpWeave.Node.Tree

set_option autoImplicit false

/-!
What the table of a tree holds after its nodes are changed and after a node is pushed, and the order
that the indices keep: a child comes after its parent. The walks down and up end because of it, so
none of them is cut short by its fuel.
-/

namespace PhpWeave.Tree

variable {tree other : Tree}

/-! ### Nodes after a change -/

theorem node_of_size_le {id : Nat} (outside : tree.size ≤ id) :
    tree.node id = Node.ofKind .code := by
  rw [node, Array.getElem?_eq_none outside, Option.getD_none]

theorem size_update (id : Nat) (change : Node → Node) :
    (tree.update id change).size = tree.size := by
  simp only [update, size, Array.size_modify]

theorem node_update_self {id : Nat} (inside : id < tree.size) (change : Node → Node) :
    (tree.update id change).node id = change (tree.node id) := by
  have here : tree.nodes[id]? = some tree.nodes[id] := Array.getElem?_eq_getElem inside
  simp only [update, node, Array.getElem?_modify, if_true, here, Option.map_some, Option.getD_some]

theorem node_update_of_ne {id other : Nat} (apart : other ≠ id) (change : Node → Node) :
    (tree.update id change).node other = tree.node other := by
  simp only [update, node, Array.getElem?_modify, if_neg (Ne.symm apart)]

theorem node_update_cases (id : Nat) (change : Node → Node) (other : Nat) :
    (tree.update id change).node other = tree.node other ∨
      other = id ∧ (tree.update id change).node other = change (tree.node id) := by
  by_cases same : other = id
  · subst same
    by_cases inside : other < tree.size
    · exact .inr ⟨rfl, node_update_self inside change⟩
    · have outside := Nat.le_of_not_lt inside
      rw [node_of_size_le outside, node_of_size_le (by rw [size_update]; exact outside)]
      exact .inl rfl
  · exact .inl (node_update_of_ne same change)

/-- A property that a change of a node keeps. -/
theorem node_update_property {α : Type} (property : Node → α) {id : Nat} {change : Node → Node}
    (kept : ∀ node, property (change node) = property node) (other : Nat) :
    property ((tree.update id change).node other) = property (tree.node other) := by
  rcases node_update_cases id change other with same | ⟨rfl, same⟩
  · rw [same]
  · rw [same, kept]

theorem ext_node (size : other.size = tree.size) (node : ∀ id, other.node id = tree.node id) :
    other = tree := by
  obtain ⟨otherNodes⟩ := other
  obtain ⟨nodes⟩ := tree
  refine congrArg Tree.mk (Array.ext size fun id inside within => ?_)
  have same := node id
  rw [Tree.node, Tree.node, Array.getElem?_eq_getElem inside, Array.getElem?_eq_getElem within]
    at same
  exact same

theorem update_congr {id : Nat} {change another : Node → Node}
    (same : change (tree.node id) = another (tree.node id)) :
    tree.update id change = tree.update id another := by
  refine ext_node ((size_update id change).trans (size_update id another).symm) fun below => ?_
  by_cases here : below = id
  · subst here
    rcases Nat.lt_or_ge below tree.size with inside | outside
    · rw [node_update_self inside, node_update_self inside, same]
    · rw [node_of_size_le (by rw [size_update]; exact outside),
        node_of_size_le (by rw [size_update]; exact outside)]
  · rw [node_update_of_ne here, node_update_of_ne here]

theorem update_eq_self {id : Nat} {change : Node → Node}
    (same : change (tree.node id) = tree.node id) : tree.update id change = tree := by
  refine ext_node (size_update id change) fun below => ?_
  rcases node_update_cases id change below with kept | ⟨rfl, changed⟩
  · exact kept
  · rw [changed, same]

theorem size_alloc (parent : Nat) (node : Node) :
    (tree.alloc parent node).size = tree.size + 1 := by
  simp only [alloc, size, Array.size_push]

theorem node_alloc_self (parent : Nat) (added : Node) :
    (tree.alloc parent added).node tree.size =
      { added with parent := some parent, children := [] } := by
  simp only [alloc, node, size, Array.getElem?_push_size, Option.getD_some]

theorem node_alloc_of_lt {id : Nat} (inside : id < tree.size) (parent : Nat) (added : Node) :
    (tree.alloc parent added).node id = tree.node id := by
  simp only [alloc, node, Array.getElem?_push_lt inside, Array.getElem?_eq_getElem inside]

theorem size_push (parent : Nat) (node : Node) : (tree.push parent node).size = tree.size + 1 := by
  rw [push, setChildren, size_update, size_alloc]

theorem node_push_self {parent : Nat} (inside : parent < tree.size) (added : Node) :
    (tree.push parent added).node tree.size =
      { added with parent := some parent, children := [] } := by
  rw [push, setChildren, node_update_of_ne (Nat.ne_of_gt inside), node_alloc_self]

theorem node_push_parent {parent : Nat} (inside : parent < tree.size) (added : Node) :
    (tree.push parent added).node parent =
      { tree.node parent with children := tree.children parent ++ [tree.size] } := by
  have grown : parent < (tree.alloc parent added).size := by
    rw [size_alloc]
    exact Nat.lt_succ_of_lt inside
  rw [push, setChildren, node_update_self grown, node_alloc_of_lt inside]

theorem node_push_of_ne {id parent : Nat} (inside : id < tree.size) (apart : id ≠ parent)
    (added : Node) : (tree.push parent added).node id = tree.node id := by
  rw [push, setChildren, node_update_of_ne apart, node_alloc_of_lt inside]

/-- A property of the old nodes that does not depend on their children. -/
theorem node_push_property {α : Type} (property : Node → α)
    (kept : ∀ node children, property { node with children := children } = property node)
    {id parent : Nat} (inside : id < tree.size) (around : parent < tree.size) (added : Node) :
    property ((tree.push parent added).node id) = property (tree.node id) := by
  by_cases same : id = parent
  · rw [same, node_push_parent around, kept]
  · rw [node_push_of_ne inside same]

theorem children_push {id parent : Nat} (inside : id < tree.size) (around : parent < tree.size)
    (added : Node) : (tree.push parent added).children id =
      if id = parent then tree.children id ++ [tree.size] else tree.children id := by
  unfold children
  split
  · next same =>
      rw [same, node_push_parent around]
      rfl
  · next apart => rw [node_push_of_ne inside apart]

theorem children_push_self {parent : Nat} (around : parent < tree.size) (added : Node) :
    (tree.push parent added).children tree.size = [] := by
  rw [children, node_push_self around]

theorem size_insert (parent index : Nat) (added : Node) :
    (tree.insert parent index added).size = tree.size + 1 := by
  rw [insert, setChildren, size_update, size_alloc]

/-- The table after a node is inserted: the new node, its parent and all others. -/
theorem node_insert {parent : Nat} (inside : parent < tree.size) (index : Nat) (added : Node)
    (id : Nat) : (tree.insert parent index added).node id =
      if id = tree.size then { added with parent := some parent, children := [] }
      else if id = parent then
        { tree.node id with children := (tree.children parent).take index ++
          tree.size :: (tree.children parent).drop index }
      else tree.node id := by
  have grown : parent < (tree.alloc parent added).size := by
    rw [size_alloc]
    exact Nat.lt_succ_of_lt inside
  rw [insert, setChildren]
  split
  · next isNew =>
      rw [isNew, node_update_of_ne (Nat.ne_of_gt inside), node_alloc_self]
  · next old =>
      split
      · next same => rw [same, node_update_self grown, node_alloc_of_lt inside]
      · next apart =>
          rw [node_update_of_ne apart]
          rcases Nat.lt_or_gt_of_ne old with known | beyond
          · exact node_alloc_of_lt known parent added
          · rw [node_of_size_le (by rw [size_alloc]; exact beyond),
              node_of_size_le (Nat.le_of_lt beyond)]

/-! ### Order -/

/-- Links go from smaller to larger indices of the table, and up again. -/
structure Ascending (tree : Tree) : Prop where
  children : ∀ id child : Nat, child ∈ tree.children id → id < child ∧ child < tree.size
  parent : ∀ id above : Nat, tree.parent? id = some above → above < id

theorem Ascending.of_children (ascending : tree.Ascending) {parent id : Nat} {front back : List Nat}
    (children : tree.children parent = front ++ id :: back) : parent < id ∧ id < tree.size := by
  refine ascending.children parent id ?_
  rw [children]
  exact List.mem_append_right _ List.mem_cons_self

theorem Ascending.empty : Ascending Tree.empty where
  children := by
    intro id child member
    have none : Tree.empty.children id = [] := by
      unfold Tree.children Tree.node
      cases id with
      | zero => rfl
      | succ id => rfl
    rw [none] at member
    cases member
  parent := by
    intro id above link
    have none : Tree.empty.parent? id = none := by
      unfold Tree.parent? Tree.node
      cases id with
      | zero => rfl
      | succ id => rfl
    rw [none] at link
    cases link

theorem Ascending.update (ascending : Ascending tree) {id : Nat} {change : Node → Node}
    (children : ∀ node, (change node).children = node.children)
    (parent : ∀ node, (change node).parent = node.parent) : Ascending (tree.update id change) where
  children := by
    intro other child member
    rw [Tree.children, node_update_property Node.children children] at member
    rw [size_update]
    exact ascending.children other child member
  parent := by
    intro other above link
    rw [Tree.parent?, node_update_property Node.parent parent] at link
    exact ascending.parent other above link

theorem Ascending.push (ascending : Ascending tree) {parent : Nat} (around : parent < tree.size)
    (added : Node) : Ascending (tree.push parent added) where
  children := by
    intro id child member
    rw [size_push]
    rcases Nat.lt_trichotomy id tree.size with inside | rfl | beyond
    · rw [children_push inside around] at member
      split at member
      · rcases List.mem_append.mp member with old | new
        · have bounds := ascending.children id child old
          omega
        · rw [List.mem_singleton.mp new]
          omega
      · have bounds := ascending.children id child member
        omega
    · rw [children_push_self around] at member
      cases member
    · rw [Tree.children, node_of_size_le (by rw [size_push]; exact beyond)] at member
      cases member
  parent := by
    intro id above link
    rcases Nat.lt_trichotomy id tree.size with inside | rfl | beyond
    · rw [parent?, node_push_property Node.parent (fun _ _ => rfl) inside around] at link
      exact ascending.parent id above link
    · rw [parent?, node_push_self around] at link
      cases link
      exact around
    · rw [parent?, node_of_size_le (by rw [size_push]; exact beyond)] at link
      cases link

/-! ### The way up -/

theorem ancestorsWithin_eq (ascending : Ascending tree) {fuel other id : Nat} (enough : id ≤ fuel)
    (more : id ≤ other) : tree.ancestorsWithin fuel id = tree.ancestorsWithin other id := by
  induction fuel generalizing id other with
  | zero =>
      have none : tree.parent? id = none := by
        cases link : tree.parent? id with
        | none => rfl
        | some above =>
            have below := ascending.parent id above link
            omega
      cases other with
      | zero => rfl
      | succ other =>
          rw [ancestorsWithin, ancestorsWithin, none]
  | succ fuel ih =>
      cases link : tree.parent? id with
      | none => cases other <;> rw [ancestorsWithin, ancestorsWithin, link]
      | some above =>
          have below := ascending.parent id above link
          cases other with
          | zero => omega
          | succ other =>
              rw [ancestorsWithin, ancestorsWithin, link]
              exact congrArg (above :: ·) (ih (by omega) (by omega))

theorem ancestors_of_root {id : Nat} (link : tree.parent? id = none) : tree.ancestors id = [] := by
  unfold ancestors
  cases id with
  | zero => rfl
  | succ id =>
      rw [ancestorsWithin, link]

theorem ancestors_of_child (ascending : Ascending tree) {id above : Nat}
    (link : tree.parent? id = some above) : tree.ancestors id = above :: tree.ancestors above := by
  have below := ascending.parent id above link
  obtain ⟨less, rfl⟩ := Nat.exists_eq_succ_of_ne_zero (Nat.ne_of_gt (Nat.zero_lt_of_lt below))
  have adequate := ancestorsWithin_eq ascending (Nat.le_of_lt_succ below) (Nat.le_refl above)
  unfold ancestors
  rw [ancestorsWithin, link]
  exact congrArg (above :: ·) adequate

theorem parent?_of_ancestors (ascending : Ascending tree) {id above : Nat} {rest : List Nat}
    (path : tree.ancestors id = above :: rest) : tree.parent? id = some above := by
  cases link : tree.parent? id with
  | none =>
      rw [ancestors_of_root link] at path
      cases path
  | some other =>
      rw [ancestors_of_child ascending link] at path
      rw [(List.cons.inj path).1]

theorem lt_of_mem_ancestors (ascending : Ascending tree) {id above : Nat}
    (member : above ∈ tree.ancestors id) : above < id := by
  induction id using Nat.strongRecOn with
  | ind id ih =>
      cases link : tree.parent? id with
      | none =>
          rw [ancestors_of_root link] at member
          cases member
      | some next =>
          have below := ascending.parent id next link
          rw [ancestors_of_child ascending link] at member
          rcases List.mem_cons.mp member with rfl | further
          · exact below
          · exact Nat.lt_trans (ih next below further) below

theorem ancestors_congr {other : Tree} (ascending : Ascending tree) (same : Ascending other)
    {bound : Nat} (parents : ∀ id < bound, other.parent? id = tree.parent? id) {id : Nat}
    (inside : id < bound) : other.ancestors id = tree.ancestors id := by
  induction id using Nat.strongRecOn with
  | ind id ih =>
      have kept := parents id inside
      cases link : tree.parent? id with
      | none => rw [ancestors_of_root link, ancestors_of_root (kept.trans link)]
      | some above =>
          have below := ascending.parent id above link
          rw [ancestors_of_child ascending link, ancestors_of_child same (kept.trans link),
            ih above below (Nat.lt_trans below inside)]

end PhpWeave.Tree
