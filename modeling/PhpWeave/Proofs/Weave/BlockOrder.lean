import PhpWeave.Proofs.Weave.BlockCount

set_option autoImplicit false

/-!
The blocks that are open in a tree. The children of a construct are the leaves that are reported
while it is the innermost one, so the blocks in front of a child are those that the read counted.
-/

namespace PhpWeave

def Tree.Orderly (tree : Tree) : Prop :=
  ∀ parent front id rest, tree.children parent = front ++ id :: rest →
    (tree.node id).Ordered (tree.blocksBehind front)

theorem Node.blocksBehind_congr {node other : Node} (editable : other.isEditable = node.isEditable)
    (body : other.body = node.body) (blocks : List Bool) :
    other.blocksBehind blocks = node.blocksBehind blocks := by
  unfold blocksBehind isDirective braces
  rw [editable, body]

theorem Node.Opens.not_isEditable {node : Node} {frame : FrameKind} (opens : node.Opens frame) :
    node.isEditable = false := by
  have noLeaf := opens.not_isLeaf
  unfold isEditable
  cases kind : node.kind <;> first | rfl | rw [isLeaf, kind] at noLeaf; cases noLeaf

theorem Node.Ordered.congr {node other : Node} {blocks : List Bool} (ordered : node.Ordered blocks)
    (editable : other.isEditable = node.isEditable) (body : other.body = node.body) :
    other.Ordered blocks := by
  unfold Node.Ordered EndsAtBrace isDirective at ordered ⊢
  rw [editable, body]
  exact ordered

theorem Tree.Orderly.congr {old new : Tree} (orderly : old.Orderly)
    (children : ∀ id, new.children id = old.children id)
    (editable : ∀ id, (new.node id).isEditable = (old.node id).isEditable)
    (body : ∀ id, (new.node id).body = (old.node id).body) : new.Orderly := by
  intro parent front id rest split
  rw [Tree.blocksBehind_congr fun id _ => Node.blocksBehind_congr (editable id) (body id)]
  rw [children] at split
  exact (orderly parent front id rest split).congr (editable id) (body id)

namespace Outline

def blocks (outline : Outline) : List (List Bool) :=
  outline.opened.map fun id => outline.tree.blocksBehind (outline.tree.children id)

variable {tokens : Tokens} {outline : Outline} {covered : Nat}

theorem Laid.nodup_opened (laid : Laid tokens outline covered) : outline.opened.Nodup := by
  obtain ⟨stretches, filled⟩ := laid.filled
  have nodup := laid.nodup
  rw [filled.parts] at nodup
  exact (List.nodup_append.mp nodup).2.1.of_map _

section Update

variable {id : Nat} {change : Node → Node}
  (children : ∀ node, (change node).children = node.children)
  (editable : ∀ node, (change node).isEditable = node.isEditable)
  (body : ∀ node, (change node).body = node.body)
include children editable body

theorem orderly_update (orderly : outline.tree.Orderly) :
    (outline.tree.update id change).Orderly :=
  orderly.congr (Tree.node_update_property Node.children children)
    (Tree.node_update_property Node.isEditable editable)
    (Tree.node_update_property Node.body body)

theorem blocksBehind_update (above : Nat) :
    (outline.tree.update id change).blocksBehind ((outline.tree.update id change).children above) =
      outline.tree.blocksBehind (outline.tree.children above) := by
  rw [Tree.children, Tree.node_update_property Node.children children]
  exact Tree.blocksBehind_congr fun other _ => Node.blocksBehind_congr
    (Tree.node_update_property Node.isEditable editable other)
    (Tree.node_update_property Node.body body other)

theorem blocks_update : ({ outline with tree := outline.tree.update id change } : Outline).blocks =
    outline.blocks :=
  List.map_congr_left fun above _ => blocksBehind_update children editable body above

end Update

section Attach

variable (laid : Laid tokens outline covered) (node : Node) (first last : Nat)
include laid

theorem Laid.node_attached :
    ((outline.attach node first last).tree.node outline.tree.size).isEditable
      = node.isEditable ∧
    ((outline.attach node first last).tree.node outline.tree.size).body = node.body := by
  rw [laid.node_attach]
  exact ⟨rfl, rfl⟩

theorem Laid.blocksBehind_old {ids : List Nat} (old : ∀ id ∈ ids, id < outline.tree.size) :
    (outline.attach node first last).tree.blocksBehind ids = outline.tree.blocksBehind ids := by
  apply Tree.blocksBehind_congr
  intro id member
  exact Node.blocksBehind_congr
    (Tree.node_push_property Node.isEditable (fun _ _ => rfl) (old id member) laid.current_lt _)
    (Tree.node_push_property Node.body (fun _ _ => rfl) (old id member) laid.current_lt _)

theorem Laid.children_attach {id : Nat} (inside : id < outline.tree.size) :
    (outline.attach node first last).tree.children id =
      if id = outline.current then outline.tree.children id ++ [outline.tree.size]
      else outline.tree.children id :=
  Tree.children_push inside laid.current_lt _

theorem Laid.blocksBehind_current :
    (outline.attach node first last).tree.blocksBehind
        ((outline.attach node first last).tree.children outline.current) =
      node.blocksBehind (outline.tree.blocksBehind (outline.tree.children outline.current)) := by
  obtain ⟨editable, body⟩ := laid.node_attached node first last
  rw [laid.children_attach node first last laid.current_lt, if_pos rfl, Tree.blocksBehind_snoc,
    laid.blocksBehind_old node first last fun id member =>
      (laid.ascending.children _ _ member).2, Node.blocksBehind_congr editable body]

theorem Laid.blocksBehind_outer {id : Nat} (inside : id < outline.tree.size)
    (apart : id ≠ outline.current) :
    (outline.attach node first last).tree.blocksBehind
        ((outline.attach node first last).tree.children id) =
      outline.tree.blocksBehind (outline.tree.children id) := by
  rw [laid.children_attach node first last inside, if_neg apart,
    laid.blocksBehind_old node first last fun other member =>
      (laid.ascending.children _ _ member).2]

theorem Laid.orderly_attach (orderly : outline.tree.Orderly)
    (ordered : node.Ordered (outline.tree.blocksBehind (outline.tree.children outline.current))) :
    (outline.attach node first last).tree.Orderly := by
  intro parent front id rest split
  obtain ⟨editable, body⟩ := laid.node_attached node first last
  -- A child that was there stands behind the same ones.
  have old {front rest : List Nat} (split : outline.tree.children parent = front ++ id :: rest) :
      ((outline.attach node first last).tree.node id).Ordered
        ((outline.attach node first last).tree.blocksBehind front) := by
    have inside (other : Nat) (member : other ∈ outline.tree.children parent) :=
      (laid.ascending.children parent other member).2
    have within : id < outline.tree.size := inside id (by simp [split])
    rw [laid.blocksBehind_old node first last fun other member =>
      inside other (by rw [split]; exact List.mem_append_left _ member)]
    exact (orderly parent front id rest split).congr
      (Tree.node_push_property Node.isEditable (fun _ _ => rfl) within laid.current_lt _)
      (Tree.node_push_property Node.body (fun _ _ => rfl) within laid.current_lt _)
  rcases Nat.lt_trichotomy parent outline.tree.size with inside | rfl | beyond
  · rw [laid.children_attach node first last inside] at split
    split at split
    · next isCurrent =>
        rcases List.eq_nil_or_concat rest with rfl | ⟨more, other, rfl⟩
        · obtain ⟨rfl, isNew⟩ := List.append_inj' split rfl
          cases isNew
          rw [laid.blocksBehind_old node first last fun other member =>
            (laid.ascending.children parent other member).2, isCurrent]
          exact ordered.congr editable body
        · rw [List.concat_eq_append, ← List.cons_append, ← List.append_assoc] at split
          exact old (List.append_inj' split rfl).1
    · exact old split
  · rw [tree_attach, Tree.children_push_self laid.current_lt] at split
    simp at split
  · rw [Tree.children, Tree.node_of_size_le (by rw [size_attach]; exact beyond)] at split
    have none : ([] : List Nat) = front ++ id :: rest := split
    simp at none

theorem Laid.blocks_attach : (outline.opened.map fun id =>
      (outline.attach node first last).tree.blocksBehind
        ((outline.attach node first last).tree.children id)) =
    node.blocksBehind (outline.tree.blocksBehind (outline.tree.children outline.current)) ::
      outline.blocks.tail := by
  obtain ⟨rest, opened⟩ := outline.opened_eq
  have apart := laid.nodup_opened
  rw [opened] at apart
  rw [blocks, opened, List.map_cons, List.map_cons, List.tail_cons, laid.blocksBehind_current,
    List.map_congr_left fun id member => laid.blocksBehind_outer node first last
      (laid.inside id (opened ▸ List.mem_cons_of_mem _ member))
      fun same => (List.nodup_cons.mp apart).1 (same ▸ member)]

end Attach

theorem blocks_eq (outline : Outline) : outline.blocks =
    outline.tree.blocksBehind (outline.tree.children outline.current) :: outline.blocks.tail := by
  obtain ⟨rest, opened⟩ := outline.opened_eq
  rw [blocks, opened]
  rfl

theorem Laid.blocks_leaf (laid : Laid tokens outline covered) (node : Node) (first last : Nat) :
    (outline.take (.leaf node first last)).blocks =
      Event.blocks outline.blocks (.leaf node first last) := by
  rw [blocks_eq outline]
  exact laid.blocks_attach node first last

theorem Laid.blocks_enter (laid : Laid tokens outline covered) {node : Node}
    (fixed : node.isEditable = false) (first last : Nat) :
    (outline.take (.enter node first last)).blocks = [] :: outline.blocks := by
  have inner : (outline.attach node first last).tree.children outline.tree.size = [] :=
    Tree.children_push_self laid.current_lt _
  have around := laid.blocks_attach node first last
  rw [Node.blocksBehind_of_fixed fixed, ← blocks_eq] at around
  have here : (outline.attach node first last).tree.blocksBehind
      ((outline.attach node first last).tree.children outline.tree.size) = [] := by
    rw [inner]
    rfl
  exact congrArg₂ List.cons here around

structure Blocked (outline : Outline) (ledger : List (List Bool)) : Prop where
  same : outline.blocks = ledger
  orderly : outline.tree.Orderly

theorem Blocked.start : Blocked start [[]] where
  same := rfl
  orderly := by
    intro parent front id rest split
    have none : Outline.start.tree.children parent = [] := by
      unfold Tree.children Tree.node
      match parent with
      | 0 => rfl
      | _ + 1 => rfl
    rw [none] at split
    simp at split

theorem Blocked.leave {ledger : List (List Bool)} (blocked : Blocked outline ledger)
    {entry : OpenNode} {others : List OpenNode} (entered : outline.entered = entry :: others)
    (close : Text) (last : Nat) : Blocked (outline.take (.leave close last)) ledger.tail := by
  obtain ⟨rfl, orderly⟩ := blocked
  rw [take_leave entered]
  have children (node : Node) : (closedBy close node).children = node.children := rfl
  have editable (node : Node) : (closedBy close node).isEditable = node.isEditable := rfl
  have body (node : Node) : (closedBy close node).body = node.body := rfl
  constructor
  · rw [Outline.blocks, Outline.blocks, opened_of_entered entered, List.map_cons, List.tail_cons]
    exact List.map_congr_left fun above _ => blocksBehind_update children editable body above
  · exact orderly_update children editable body orderly

theorem Blocked.step {point next : Point} {event : Event} {ledger : List (List Bool)}
    (blocked : Blocked outline ledger) (laid : Laid tokens outline point.covered)
    (length : outline.entered.length = point.frames.length) (ordered : event.Ordered ledger)
    (step : Event.Step tokens point event next) :
    Blocked (outline.take event) (event.blocks ledger) := by
  cases step with
  | leaf spans marked isOne =>
      obtain ⟨rfl, orderly⟩ := blocked
      rw [blocks_eq] at ordered
      exact ⟨laid.blocks_leaf _ _ _, laid.orderly_attach _ _ _ orderly ordered⟩
  | @enter _ node last _ spans marked opens admitted =>
      obtain ⟨rfl, orderly⟩ := blocked
      have fixed := opens.not_isEditable
      rw [Event.blocks_enter]
      exact ⟨laid.blocks_enter fixed _ _,
        laid.orderly_attach node point.covered last orderly (Node.ordered_of_fixed fixed)⟩
  | leave braced brace =>
      obtain ⟨entry, others, entered⟩ := List.exists_cons_of_length_eq_add_one length
      rw [Event.blocks_leave]
      exact blocked.leave entered _ _
  | leaveOpen =>
      obtain ⟨entry, others, entered⟩ := List.exists_cons_of_length_eq_add_one length
      rw [Event.blocks_leave]
      exact blocked.leave entered _ _
  | yields =>
      obtain ⟨rfl, orderly⟩ := blocked
      rw [Event.blocks_yields]
      rcases outline.take_yields with same | ⟨id, same⟩
      · rw [same]
        exact ⟨rfl, orderly⟩
      · rw [same]
        exact ⟨blocks_update (fun _ => rfl) (fun _ => rfl) (fun _ => rfl),
          orderly_update (fun _ => rfl) (fun _ => rfl) (fun _ => rfl) orderly⟩
  | imports entries =>
      obtain ⟨rfl, orderly⟩ := blocked
      obtain ⟨id, same⟩ := outline.take_imports entries
      rw [same, Event.blocks_imports]
      exact ⟨blocks_update (fun _ => rfl) (fun _ => rfl) (fun _ => rfl),
        orderly_update (fun _ => rfl) (fun _ => rfl) (fun _ => rfl) orderly⟩

theorem blocked_of_derives {events : List Event} {point : Point}
    (derives : Derives tokens events point) (ordered : Event.AllOrdered [[]] events) :
    Blocked (ofEvents events) (blocksOf events) := by
  induction derives with
  | start => exact .start
  | step before step ih =>
      obtain ⟨front, here, -⟩ := Event.allOrdered_append.mp ordered
      obtain ⟨laid, length⟩ := laid_of_derives before
      rw [ofEvents_snoc, blocksOf_append]
      exact (ih front).step laid length here step

end Outline

/-- In the tree of a file every child is ordered behind the blocks in front of it. -/
theorem Tree.orderly_of_parse {listLines : Bool} {source : Text} {tree : Tree}
    (parsed : parse listLines source = .ok tree) : tree.Orderly := by
  obtain ⟨events, stretches, told⟩ := told_of_parse parsed
  have blocked :=
    Outline.blocked_of_derives told.derives (Reader.allOrdered_of_eventsOf told.read)
  exact blocked.orderly.congr (told.relined.property Node.children fun _ => rfl)
    (told.relined.property Node.isEditable fun _ => rfl)
    (told.relined.property Node.body fun _ => rfl)

end PhpWeave
