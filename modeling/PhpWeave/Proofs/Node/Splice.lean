import PhpWeave.Proofs.Node.Arena

set_option autoImplicit false

/-!
The splices of a tree. All four do one thing to the table: the children of one node were
`front ++ gone ++ back`, a node that goes is cut off, a node that comes stands at the end of the
table, and no other link and no other content changes. Whatever holds of a tree after a splice is
derived from this, once for the four.
-/

namespace PhpWeave

def Node.unlinked (node : Node) : Node := { node with parent := none, children := [] }

/-- A property that does not depend on the links. -/
theorem Node.property_eq {α : Type} (property : Node → α)
    (kept : ∀ node, property node.unlinked = property node) {one other : Node}
    (same : one.unlinked = other.unlinked) : property one = property other := by
  rw [← kept one, same, kept]

inductive Splice where
  | push (parent : NodeId) (added : Node)
  | insert (parent : NodeId) (index : Nat) (added : Node)
  | replace (parent : NodeId) (index : Nat) (added : Node)
  | remove (parent : NodeId) (index : Nat)

namespace Splice

def parent : Splice → Nat
  | push parent _ | insert parent _ _ | replace parent _ _ | remove parent _ => parent

/-- The tree after a splice, without what the splice tells its caller. -/
def apply (tree : Tree) : Splice → Tree
  | push parent added => tree.push parent added
  | insert parent index added => tree.insert parent index added
  | replace parent index added => (tree.replace parent index added).2
  | remove parent index => (tree.remove parent index).2

/-- The number of children in front of the place of a splice. -/
def index (tree : Tree) : Splice → Nat
  | push parent _ => (tree.children parent).length
  | insert parent index _ | replace parent index _ | remove parent index =>
    min index (tree.children parent).length

/-- The child that goes. -/
def gone? (tree : Tree) : Splice → Option Nat
  | push _ _ | insert _ _ _ => none
  | replace parent index _ | remove parent index => (tree.children parent)[index]?

/-- The node that comes. None comes in place of a child that is not there. -/
def added? (tree : Tree) : Splice → Option Node
  | push _ added | insert _ _ added => some added
  | replace parent index added => (tree.children parent)[index]?.map fun _ => added
  | remove _ _ => none

end Splice

namespace Tree

/-- What a splice under `parent` does to a table of nodes. -/
structure Spliced (before after : Tree) (parent : Nat) (front : List Nat) (gone : Option Nat)
    (added : Option Node) (back : List Nat) : Prop where
  around : parent < before.size
  size : after.size = before.size + added.toList.length
  childrenBefore : before.children parent = front ++ (gone.toList ++ back)
  childrenAfter :
    after.children parent = front ++ ((added.map fun _ => before.size).toList ++ back)
  children : ∀ id, id ≠ parent → after.children id = before.children id
  attached : ∀ node, added = some node →
    after.node before.size = { node with parent := some parent, children := [] }
  detached : ∀ id, gone = some id → after.parent? id = none
  parent : ∀ id < before.size, gone ≠ some id → after.parent? id = before.parent? id
  unlinked : ∀ id < before.size, (after.node id).unlinked = (before.node id).unlinked

/-- What a node says of itself besides its links stays. -/
theorem Spliced.property {before after : Tree} {parent : Nat} {front back : List Nat}
    {gone : Option Nat} {added : Option Node}
    (spliced : before.Spliced after parent front gone added back) {α : Type} (property : Node → α)
    (kept : ∀ node, property node.unlinked = property node) {id : Nat} (inside : id < before.size) :
    property (after.node id) = property (before.node id) :=
  Node.property_eq property kept (spliced.unlinked id inside)

/-- Every node is an old one or the one that comes, but for its links. -/
theorem Spliced.node_cases {before after : Tree} {parent : Nat} {front back : List Nat}
    {gone : Option Nat} {added : Option Node}
    (spliced : before.Spliced after parent front gone added back) (id : Nat) :
    (after.node id).unlinked = (before.node id).unlinked ∨
      ∃ node, added = some node ∧ id = before.size ∧ (after.node id).unlinked = node.unlinked := by
  by_cases old : id < before.size
  · exact .inl (spliced.unlinked id old)
  · by_cases inside : id < after.size
    · rw [spliced.size] at inside
      cases added with
      | none => exact absurd inside old
      | some node =>
          have here : id = before.size :=
            Nat.le_antisymm (Nat.le_of_lt_succ inside) (Nat.le_of_not_lt old)
          refine .inr ⟨node, rfl, here, ?_⟩
          rw [here, spliced.attached node rfl]
          rfl
    · rw [node_of_size_le (Nat.le_of_not_lt inside), node_of_size_le (Nat.le_of_not_lt old)]
      exact .inl rfl

def relink (tree : Tree) (parent : Nat) (children : List Nat) (gone : Option Nat)
    (added : Option Node) : Tree :=
  let linked := ((added.map (tree.alloc parent)).getD tree).setChildren parent children
  (gone.map linked.detach).getD linked

variable {tree : Tree} {parent : Nat} {front back : List Nat} {gone : Option Nat}
  {added : Option Node}

private theorem size_grown (parent : Nat) (added : Option Node) :
    ((added.map (tree.alloc parent)).getD tree).size = tree.size + added.toList.length := by
  cases added with
  | none => rfl
  | some node => exact size_alloc parent node

private theorem node_grown_of_lt {id : Nat} (inside : id < tree.size) (parent : Nat)
    (added : Option Node) :
    ((added.map (tree.alloc parent)).getD tree).node id = tree.node id := by
  cases added with
  | none => rfl
  | some node => exact node_alloc_of_lt inside parent node

private theorem children_grown (parent : Nat) (added : Option Node) (id : Nat) :
    ((added.map (tree.alloc parent)).getD tree).children id = tree.children id := by
  cases added with
  | none => rfl
  | some node =>
      change (tree.alloc parent node).children id = tree.children id
      rw [children, children]
      rcases Nat.lt_trichotomy id tree.size with inside | rfl | beyond
      · rw [node_alloc_of_lt inside]
      · rw [node_alloc_self, node_of_size_le (Nat.le_refl _)]
        rfl
      · rw [node_of_size_le (Nat.le_of_lt beyond),
          node_of_size_le (by rw [size_alloc]; exact beyond)]

private theorem size_detached (linked : Tree) (gone : Option Nat) :
    ((gone.map linked.detach).getD linked).size = linked.size := by
  cases gone with
  | none => rfl
  | some id => exact size_update id _

private theorem property_detached {α : Type} (property : Node → α)
    (kept : ∀ node, property { node with parent := none } = property node) (linked : Tree)
    (gone : Option Nat) (id : Nat) :
    property (((gone.map linked.detach).getD linked).node id) = property (linked.node id) := by
  cases gone with
  | none => rfl
  | some other => exact node_update_property property kept id

private theorem node_detached_of_ne {id : Nat} (linked : Tree) (apart : gone ≠ some id) :
    ((gone.map linked.detach).getD linked).node id = linked.node id := by
  cases gone with
  | none => rfl
  | some other => exact node_update_of_ne (fun same => apart (congrArg some same.symm)) _

private theorem parent?_detached {id : Nat} (linked : Tree) :
    (linked.detach id).parent? id = none := by
  rw [detach, parent?]
  by_cases inside : id < linked.size
  · rw [node_update_self inside]
  · rw [node_of_size_le (by rw [size_update]; exact Nat.le_of_not_lt inside)]
    rfl

theorem spliced_relink (around : parent < tree.size)
    (inside : ∀ id, gone = some id → id < tree.size)
    (children : tree.children parent = front ++ (gone.toList ++ back)) :
    tree.Spliced (tree.relink parent (front ++ ((added.map fun _ => tree.size).toList ++ back))
      gone added) parent front gone added back := by
  have grown : parent < ((added.map (tree.alloc parent)).getD tree).size := by
    rw [size_grown]
    exact Nat.lt_of_lt_of_le around (Nat.le_add_right _ _)
  -- The link to the parent and the children are the only fields that a splice sets in old nodes.
  have old {α : Type} (property : Node → α)
      (keptChildren : ∀ node children, property { node with children := children } = property node)
      {id : Nat} (inside : id < tree.size) (children : List Nat) :
      property ((((added.map (tree.alloc parent)).getD tree).setChildren parent children).node id) =
        property (tree.node id) := by
    rw [setChildren, node_update_property property fun node => keptChildren node _,
      node_grown_of_lt inside]
  unfold relink
  constructor
  case around => exact around
  case size => rw [size_detached, setChildren, size_update, size_grown]
  case childrenBefore => exact children
  case childrenAfter =>
    rw [Tree.children, property_detached Node.children (fun _ => rfl), setChildren,
      node_update_self grown]
  case children =>
    intro id apart
    rw [Tree.children, property_detached Node.children (fun _ => rfl), setChildren,
      node_update_of_ne apart]
    exact children_grown parent added id
  case attached =>
    rintro node rfl
    have new : gone ≠ some tree.size := fun same => Nat.lt_irrefl _ (inside _ same)
    rw [node_detached_of_ne _ new, setChildren, node_update_of_ne (Nat.ne_of_gt around)]
    exact node_alloc_self parent node
  case detached =>
    rintro id rfl
    exact parent?_detached _
  case parent =>
    intro id below other
    rw [parent?, node_detached_of_ne _ other]
    exact old Node.parent (fun _ _ => rfl) below _
  case unlinked =>
    intro id below
    rw [property_detached Node.unlinked fun _ => rfl]
    exact old Node.unlinked (fun _ _ => rfl) below _

/-! ### The four splices -/

theorem push_eq_relink (added : Node) :
    tree.push parent added =
      tree.relink parent (tree.children parent ++ ([tree.size] ++ [])) none (some added) := by
  rw [List.append_nil]
  rfl

theorem insert_eq_relink (index : Nat) (added : Node) :
    tree.insert parent index added =
      tree.relink parent ((tree.children parent).take index ++
        ([tree.size] ++ (tree.children parent).drop index)) none (some added) := rfl

theorem replace_eq_relink {index : Nat} (inside : index < (tree.children parent).length)
    (added : Node) :
    tree.replace parent index added = (some tree.size,
      tree.relink parent ((tree.children parent).take index ++
        ([tree.size] ++ (tree.children parent).drop (index + 1)))
        (some (tree.children parent)[index]) (some added)) := by
  have here := List.getElem?_eq_getElem inside
  simp only [replace, here, relink, Option.map_some, Option.getD_some]
  rw [List.set_eq_take_append_cons_drop, if_pos inside]
  rfl

theorem remove_eq_relink {index : Nat} (inside : index < (tree.children parent).length) :
    tree.remove parent index = (some (tree.children parent)[index],
      tree.relink parent ((tree.children parent).take index ++
        ([] ++ (tree.children parent).drop (index + 1)))
        (some (tree.children parent)[index]) none) := by
  have here := List.getElem?_eq_getElem inside
  simp only [remove, here, relink, Option.map_some, Option.getD_some, Option.map_none,
    Option.getD_none]
  rw [List.eraseIdx_eq_take_drop_succ]
  rfl

theorem remove_missing {index : Nat} (missing : (tree.children parent).length ≤ index) :
    tree.remove parent index = (none, tree) := by
  simp only [remove, List.getElem?_eq_none missing]

theorem replace_missing {index : Nat} (missing : (tree.children parent).length ≤ index)
    (added : Node) : tree.replace parent index added = (none, tree) := by
  simp only [replace, List.getElem?_eq_none missing]

theorem spliced_refl (around : parent < tree.size)
    (children : tree.children parent = front ++ back) :
    tree.Spliced tree parent front none none back where
  around := around
  size := rfl
  childrenBefore := children
  childrenAfter := children
  children _ _ := rfl
  attached _ none := by cases none
  detached _ none := by cases none
  parent _ _ _ := rfl
  unlinked _ _ := rfl

/-- What each splice does; at a child that is not there, nothing goes and nothing comes. -/
theorem spliced_apply (ascending : tree.Ascending) (splice : Splice)
    (around : splice.parent < tree.size) :
    tree.Spliced (splice.apply tree) splice.parent
      ((tree.children splice.parent).take (splice.index tree)) (splice.gone? tree)
      (splice.added? tree)
      ((tree.children splice.parent).drop
        (splice.index tree + (splice.gone? tree).toList.length)) := by
  have below {parent id : Nat} (member : id ∈ tree.children parent) : id < tree.size :=
    (ascending.children parent id member).2
  cases splice with
  | push parent added =>
      simp only [Splice.apply, Splice.parent, Splice.index, Splice.gone?, Splice.added?,
        Option.toList_none, List.length_nil, Nat.add_zero, List.take_length, List.drop_length]
      rw [push_eq_relink]
      exact spliced_relink around (fun _ none => by cases none) (by simp)
  | insert parent index added =>
      simp only [Splice.apply, Splice.parent, Splice.index, Splice.gone?, Splice.added?,
        Option.toList_none, List.length_nil, Nat.add_zero]
      rw [insert_eq_relink, List.take_eq_take_min, List.drop_eq_drop_min]
      exact spliced_relink around (fun _ none => by cases none) (by simp)
  | replace parent index added =>
      rcases Nat.lt_or_ge index (tree.children parent).length with inside | missing
      · have here := List.getElem?_eq_getElem inside
        simp only [Splice.apply, Splice.parent, Splice.index, Splice.gone?, Splice.added?, here,
          Option.toList_some, List.length_singleton, Option.map_some,
          Nat.min_eq_left (Nat.le_of_lt inside), replace_eq_relink inside]
        refine spliced_relink around (fun id same => ?_) (by simp)
        cases same
        exact below (List.getElem_mem inside)
      · simp only [Splice.apply, replace_missing missing, Splice.gone?, Splice.added?,
          List.getElem?_eq_none missing, Option.map_none]
        exact spliced_refl around (List.take_append_drop _ _).symm
  | remove parent index =>
      rcases Nat.lt_or_ge index (tree.children parent).length with inside | missing
      · have here := List.getElem?_eq_getElem inside
        simp only [Splice.apply, Splice.parent, Splice.index, Splice.gone?, Splice.added?, here,
          Option.toList_some, List.length_singleton,
          Nat.min_eq_left (Nat.le_of_lt inside), remove_eq_relink inside]
        refine spliced_relink around (fun id same => ?_) (by simp)
        cases same
        exact below (List.getElem_mem inside)
      · simp only [Splice.apply, remove_missing missing, Splice.gone?, Splice.added?,
          List.getElem?_eq_none missing]
        exact spliced_refl around (List.take_append_drop _ _).symm

theorem spliced_replace (ascending : tree.Ascending) (around : parent < tree.size) {index id : Nat}
    (here : (tree.children parent)[index]? = some id) (added : Node) :
    tree.Spliced (tree.replace parent index added).2 parent ((tree.children parent).take index)
      (some id) (some added) ((tree.children parent).drop (index + 1)) := by
  have inside := (List.getElem?_eq_some_iff.mp here).1
  have spliced := spliced_apply ascending (.replace parent index added) around
  simp only [Splice.gone?, Splice.added?, Splice.parent, Splice.index, here, Option.map_some,
    Nat.min_eq_left (Nat.le_of_lt inside), Option.toList_some, List.length_singleton] at spliced
  exact spliced

end Tree
end PhpWeave
