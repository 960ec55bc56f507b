import Mathlib.Data.List.Nodup
import PhpWeave.Proofs.Node.Splice

set_option autoImplicit false

/-!
The links of a tree. A node is in the list of children of its parent and in no other list, links go
from smaller to larger indices, and every index that a node holds is in the table. The empty tree is
linked so, and splices and changes of contents keep it, so every tree that can be made is.
-/

namespace PhpWeave

def Node.RefersBelow (node : Node) (bound : Nat) : Prop :=
  (∀ id ∈ node.scope, id < bound) ∧ ∀ id ∈ node.function, id < bound

instance (node : Node) (bound : Nat) : Decidable (node.RefersBelow bound) :=
  inferInstanceAs (Decidable ((∀ id ∈ node.scope, id < bound) ∧ ∀ id ∈ node.function, id < bound))

theorem Node.RefersBelow.mono {node : Node} {bound more : Nat} (refers : node.RefersBelow bound)
    (le : bound ≤ more) : node.RefersBelow more :=
  ⟨fun id around => Nat.lt_of_lt_of_le (refers.1 id around) le,
    fun id around => Nat.lt_of_lt_of_le (refers.2 id around) le⟩

theorem Node.RefersBelow.of_unlinked {node other : Node} {bound : Nat}
    (refers : node.RefersBelow bound) (same : other.unlinked = node.unlinked) :
    other.RefersBelow bound := by
  have scope : other.scope = node.scope :=
    show other.unlinked.scope = node.unlinked.scope from congrArg Node.scope same
  have function : other.function = node.function :=
    show other.unlinked.function = node.unlinked.function from congrArg Node.function same
  rw [Node.RefersBelow, scope, function]
  exact refers

namespace Tree

structure Linked (tree : Tree) : Prop where
  filled : root < tree.size
  ascending : tree.Ascending
  parent_iff : ∀ id above : Nat, tree.parent? id = some above ↔ id ∈ tree.children above
  nodup : ∀ id : Nat, (tree.children id).Nodup
  refers : ∀ id < tree.size, (tree.node id).RefersBelow tree.size

/-- The trees that can be made: from the file alone, by splices under nodes of the table and by
changes of what a node holds besides its links. -/
inductive Reached : Tree → Prop where
  | empty : Reached Tree.empty
  | splice {tree : Tree} (before : Reached tree) (splice : Splice)
      (around : splice.parent < tree.size)
      (refers : ∀ node ∈ splice.added? tree, node.RefersBelow (tree.size + 1)) :
      Reached (splice.apply tree)
  | change {tree : Tree} (before : Reached tree) (id : Nat) (inside : id < tree.size)
      (change : Node → Node)
      (parent : (change (tree.node id)).parent = (tree.node id).parent)
      (children : (change (tree.node id)).children = (tree.node id).children)
      (refers : (change (tree.node id)).RefersBelow tree.size) :
      Reached (tree.update id change)

variable {tree before after : Tree} {parent : Nat} {front back : List Nat} {gone : Option Nat}
  {added : Option Node}

theorem parent?_of_size_le {id : Nat} (outside : tree.size ≤ id) : tree.parent? id = none := by
  rw [parent?, node_of_size_le outside]
  rfl

theorem Linked.lt_size (linked : tree.Linked) {id above : Nat}
    (link : tree.parent? id = some above) : above < id ∧ id < tree.size :=
  linked.ascending.children above id ((linked.parent_iff id above).mp link)

theorem Linked.root_parent (linked : tree.Linked) : tree.parent? root = none := by
  cases link : tree.parent? root with
  | none => rfl
  | some above => exact absurd (linked.lt_size link).1 (Nat.not_lt_zero _)

/-! ### Splices -/

theorem Spliced.size_le (spliced : before.Spliced after parent front gone added back) :
    before.size ≤ after.size := by
  rw [spliced.size]
  exact Nat.le_add_right _ _

theorem Spliced.mem_children (spliced : before.Spliced after parent front gone added back)
    (linked : before.Linked) {id child : Nat} :
    child ∈ after.children id ↔ child ∈ before.children id ∧ gone ≠ some child ∨
      id = parent ∧ added.isSome = true ∧ child = before.size := by
  by_cases same : id = parent
  · have nodup := linked.nodup parent
    rw [spliced.childrenBefore] at nodup
    rw [same, spliced.childrenAfter, spliced.childrenBefore]
    cases gone with
    | none => cases added <;> simp [or_assoc, or_comm]
    | some old =>
        -- The child that goes is nowhere else among its siblings.
        have apart : old ∉ front ∧ old ∉ back := by
          have middle := List.nodup_middle.mp nodup
          exact not_or.mp fun member =>
            (List.nodup_cons.mp middle).1 (List.mem_append.mpr member)
        cases added <;> grind
  · rw [spliced.children id same]
    constructor
    · intro member
      refine .inl ⟨member, ?_⟩
      rintro rfl
      have other : child ∈ before.children parent := by
        rw [spliced.childrenBefore]
        simp
      have up := (linked.parent_iff child parent).mpr other
      rw [(linked.parent_iff child id).mpr member] at up
      exact same (Option.some.inj up)
    · rintro (⟨member, -⟩ | ⟨here, -⟩)
      · exact member
      · exact absurd here same

private theorem parent?_new (spliced : before.Spliced after parent front gone added back) :
    after.parent? before.size = added.map fun _ => parent := by
  cases added with
  | none => exact parent?_of_size_le (Nat.le_of_eq spliced.size)
  | some node =>
      rw [parent?, spliced.attached node rfl]
      rfl

private theorem parent_iff_spliced (spliced : before.Spliced after parent front gone added back)
    (linked : before.Linked) (id above : Nat) :
    after.parent? id = some above ↔ id ∈ after.children above := by
  rw [spliced.mem_children linked]
  by_cases cut : gone = some id
  · have old : id < before.size := by
      have member : id ∈ before.children parent := by
        rw [spliced.childrenBefore, cut]
        simp
      exact (linked.ascending.children parent id member).2
    rw [spliced.detached id cut]
    constructor
    · intro none
      cases none
    · rintro (⟨-, kept⟩ | ⟨-, -, new⟩)
      · exact absurd cut kept
      · exact absurd new (Nat.ne_of_lt old)
  · rcases Nat.lt_trichotomy id before.size with inside | rfl | beyond
    · rw [spliced.parent id inside cut, linked.parent_iff]
      have old := Nat.ne_of_lt inside
      simp [cut, old]
    · have absent : before.size ∉ before.children above := fun member =>
        Nat.lt_irrefl _ (linked.ascending.children above _ member).2
      rw [parent?_new spliced]
      cases added <;> simp [absent, eq_comm]
    · have absent : id ∉ before.children above := fun member =>
        Nat.lt_asymm beyond (linked.ascending.children above id member).2
      have outside : after.size ≤ id := by
        rw [spliced.size]
        cases added <;> simp <;> omega
      rw [parent?_of_size_le outside]
      simp [absent, Nat.ne_of_gt beyond]

private theorem nodup_spliced (spliced : before.Spliced after parent front gone added back)
    (linked : before.Linked) (id : Nat) : (after.children id).Nodup := by
  by_cases same : id = parent
  · have nodup := linked.nodup parent
    have old : ∀ child ∈ front ++ (gone.toList ++ back), child < before.size := by
      intro child member
      rw [← spliced.childrenBefore] at member
      exact (linked.ascending.children parent child member).2
    rw [spliced.childrenBefore] at nodup
    have less : (front ++ back).Nodup :=
      nodup.sublist ((List.sublist_append_right gone.toList back).append_left front)
    rw [same, spliced.childrenAfter]
    cases added with
    | none => exact less
    | some node =>
        refine List.nodup_middle.mpr (List.nodup_cons.mpr ⟨fun member => ?_, less⟩)
        have listed : before.size ∈ front ++ (gone.toList ++ back) := by
          rcases List.mem_append.mp member with left | right
          · exact List.mem_append_left _ left
          · exact List.mem_append_right _ (List.mem_append_right _ right)
        exact absurd (old before.size listed) (Nat.lt_irrefl _)
  · rw [spliced.children id same]
    exact linked.nodup id

theorem Linked.ascending_spliced (linked : before.Linked)
    (spliced : before.Spliced after parent front gone added back) : after.Ascending := by
  have order : ∀ id child : Nat, child ∈ after.children id → id < child ∧ child < after.size := by
    intro id child member
    rcases (spliced.mem_children linked).mp member with ⟨old, -⟩ | ⟨rfl, present, rfl⟩
    · have bounds := linked.ascending.children id child old
      exact ⟨bounds.1, Nat.lt_of_lt_of_le bounds.2 spliced.size_le⟩
    · obtain ⟨node, rfl⟩ := Option.isSome_iff_exists.mp present
      exact ⟨spliced.around, by rw [spliced.size]; exact Nat.lt_succ_self _⟩
  constructor
  case children => exact order
  case parent =>
    intro id above link
    exact (order above id ((parent_iff_spliced spliced linked id above).mp link)).1

theorem Linked.spliced (linked : before.Linked)
    (spliced : before.Spliced after parent front gone added back)
    (refers : ∀ node ∈ added, node.RefersBelow (before.size + 1)) : after.Linked := by
  constructor
  case filled => exact Nat.lt_of_lt_of_le linked.filled spliced.size_le
  case ascending => exact linked.ascending_spliced spliced
  case parent_iff => exact parent_iff_spliced spliced linked
  case nodup => exact nodup_spliced spliced linked
  case refers =>
    intro id inside
    rcases spliced.node_cases id with same | ⟨node, rfl, rfl, same⟩
    · rcases Nat.lt_or_ge id before.size with old | new
      · exact ((linked.refers id old).mono spliced.size_le).of_unlinked same
      · -- A new place in the table is the place of the node that comes.
        rw [node_of_size_le new] at same
        have nothing : (Node.ofKind .code).RefersBelow after.size := by
          constructor <;> intro id around <;> cases around
        exact nothing.of_unlinked same
    · rw [spliced.size]
      exact (refers node rfl).of_unlinked same

/-! ### Changes of contents -/

/-- A table with the same links and with references inside it. -/
theorem Linked.congr (linked : before.Linked) (size : after.size = before.size)
    (parents : ∀ id, after.parent? id = before.parent? id)
    (children : ∀ id, after.children id = before.children id)
    (refers : ∀ id < before.size, (after.node id).RefersBelow before.size) : after.Linked where
  filled := size ▸ linked.filled
  ascending := by
    constructor
    · intro id child member
      rw [children] at member
      rw [size]
      exact linked.ascending.children id child member
    · intro id above link
      rw [parents] at link
      exact linked.ascending.parent id above link
  parent_iff := by
    intro id above
    rw [parents, children]
    exact linked.parent_iff id above
  nodup := by
    intro id
    rw [children]
    exact linked.nodup id
  refers := by
    intro id inside
    rw [size] at inside ⊢
    exact refers id inside

theorem Linked.update (linked : tree.Linked) {id : Nat} {change : Node → Node}
    (parent : (change (tree.node id)).parent = (tree.node id).parent)
    (children : (change (tree.node id)).children = (tree.node id).children)
    (refers : (tree.node id).RefersBelow tree.size →
      (change (tree.node id)).RefersBelow tree.size) :
    (tree.update id change).Linked := by
  -- Elsewhere the table is as it was, so each field has to be seen at one node only.
  have here {α : Type} (property : Node → α)
      (kept : property (change (tree.node id)) = property (tree.node id)) (other : Nat) :
      property ((tree.update id change).node other) = property (tree.node other) := by
    rcases node_update_cases id change other with same | ⟨rfl, same⟩
    · rw [same]
    · rw [same, kept]
  refine linked.congr (size_update id change) (here Node.parent parent)
    (here Node.children children) ?_
  intro other old
  rcases node_update_cases id change other with same | ⟨rfl, same⟩
  · rw [same]
    exact linked.refers other old
  · rw [same]
    exact refers (linked.refers other old)

theorem Linked.empty : Tree.empty.Linked where
  filled := Nat.zero_lt_one
  ascending := .empty
  parent_iff := by
    intro id above
    cases id <;> cases above <;> simp [parent?, children, node, Tree.empty, Node.ofKind]
  nodup := by
    intro id
    cases id <;> simp [children, node, Tree.empty, Node.ofKind]
  refers := by
    intro id inside
    obtain rfl := Nat.lt_one_iff.mp inside
    constructor <;> intro id around <;> cases around

theorem Linked.splice (linked : tree.Linked) (splice : Splice) (around : splice.parent < tree.size)
    (refers : ∀ node ∈ splice.added? tree, node.RefersBelow (tree.size + 1)) :
    (splice.apply tree).Linked :=
  linked.spliced (spliced_apply linked.ascending splice around) refers

theorem Reached.linked (reached : Reached tree) : tree.Linked := by
  induction reached with
  | empty => exact .empty
  | splice before splice around refers ih => exact ih.splice splice around refers
  | change before id inside change parent children refers ih =>
      exact ih.update parent children fun _ => refers

/-! ### All lists of children together -/

/-- The lists of children of a tree, one after another. -/
def links (tree : Tree) : List Nat := (List.range tree.size).flatMap tree.children

theorem Linked.nodup_links (linked : tree.Linked) : tree.links.Nodup := by
  refine List.nodup_flatMap.mpr ⟨fun id _ => linked.nodup id, ?_⟩
  refine List.nodup_range.imp ?_
  intro left right apart child inLeft inRight
  have up := (linked.parent_iff child left).mpr inLeft
  rw [(linked.parent_iff child right).mpr inRight] at up
  exact apart (Option.some.inj up).symm

theorem Linked.count_links (linked : tree.Linked) (id : Nat) :
    tree.links.count id = if (tree.parent? id).isSome then 1 else 0 := by
  cases link : tree.parent? id with
  | some above =>
      have bounds := linked.lt_size link
      have member : id ∈ tree.links := List.mem_flatMap.mpr
        ⟨above, List.mem_range.mpr (Nat.lt_trans bounds.1 bounds.2),
          (linked.parent_iff id above).mp link⟩
      rw [List.count_eq_one_of_mem linked.nodup_links member]
      rfl
  | none =>
      refine List.count_eq_zero_of_not_mem fun member => ?_
      obtain ⟨above, -, child⟩ := List.mem_flatMap.mp member
      rw [(linked.parent_iff id above).mpr child] at link
      cases link

end Tree
end PhpWeave
