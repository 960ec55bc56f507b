import Mathlib.Data.List.Nodup
import PhpWeave.Grammar.Outline
import PhpWeave.Proofs.Grammar.Derivation
import PhpWeave.Proofs.Node.Tour

set_option autoImplicit false

/-!
Where the tokens of a file go in its tree. While the tree is made, the parts it will print are those
already filled, in order, followed by the closes of the open constructs, innermost first, which are
still empty. Each event fills parts at the end of the first group with the tokens it covers.
-/

namespace PhpWeave

/-- A part of a tree with the range of tokens that it is made of. -/
structure Stretch where
  part : Part
  first : Nat
  stop : Nat

namespace Stretch

/-- Whether a token is in the range. -/
def Covers (stretch : Stretch) (index : Nat) : Prop := stretch.first ≤ index ∧ index < stretch.stop

/-- `Consecutive first stretches stop`: the ranges lie end to end from one position to another. -/
def Consecutive : Nat → List Stretch → Nat → Prop
  | first, [], stop => first = stop
  | first, stretch :: rest, stop =>
    stretch.first = first ∧ first ≤ stretch.stop ∧ Consecutive stretch.stop rest stop

theorem Consecutive.le {first stop : Nat} {stretches : List Stretch}
    (consecutive : Consecutive first stretches stop) : first ≤ stop := by
  induction stretches generalizing first with
  | nil => exact Nat.le_of_eq consecutive
  | cons stretch rest ih => exact Nat.le_trans consecutive.2.1 (ih consecutive.2.2)

theorem Consecutive.append {first middle stop : Nat} {front rest : List Stretch}
    (left : Consecutive first front middle) (right : Consecutive middle rest stop) :
    Consecutive first (front ++ rest) stop := by
  induction front generalizing first with
  | nil =>
      have same : first = middle := left
      rw [same]
      exact right
  | cons stretch front ih => exact ⟨left.1, left.2.1, ih left.2.2⟩

theorem Consecutive.single {part : Part} {first stop : Nat} (order : first ≤ stop) :
    Consecutive first [⟨part, first, stop⟩] stop := ⟨rfl, order, rfl⟩

theorem Consecutive.first_le {first stop : Nat} {stretches : List Stretch}
    (consecutive : Consecutive first stretches stop) :
    ∀ stretch ∈ stretches, first ≤ stretch.first := by
  induction stretches generalizing first with
  | nil => exact fun _ none => by cases none
  | cons head rest ih =>
      intro stretch member
      rcases List.mem_cons.mp member with rfl | later
      · exact Nat.le_of_eq consecutive.1.symm
      · exact Nat.le_trans consecutive.2.1 (ih consecutive.2.2 stretch later)

theorem Consecutive.stop_le {first stop : Nat} {stretches : List Stretch}
    (consecutive : Consecutive first stretches stop) :
    ∀ stretch ∈ stretches, stretch.stop ≤ stop := by
  induction stretches generalizing first with
  | nil => exact fun _ none => by cases none
  | cons head rest ih =>
      intro stretch member
      rcases List.mem_cons.mp member with rfl | later
      · exact consecutive.2.2.le
      · exact ih consecutive.2.2 stretch later

theorem Consecutive.order {first stop : Nat} {stretches : List Stretch}
    (consecutive : Consecutive first stretches stop) :
    ∀ stretch ∈ stretches, stretch.first ≤ stretch.stop := by
  induction stretches generalizing first with
  | nil => exact fun _ none => by cases none
  | cons head rest ih =>
      obtain ⟨begins, order, later⟩ := consecutive
      exact List.forall_mem_cons.mpr ⟨begins ▸ order, ih later⟩

theorem Consecutive.pairwise {first stop : Nat} {stretches : List Stretch}
    (consecutive : Consecutive first stretches stop) :
    stretches.Pairwise fun left right => left.stop ≤ right.first := by
  induction stretches generalizing first with
  | nil => exact .nil
  | cons head rest ih => exact .cons consecutive.2.2.first_le (ih consecutive.2.2)

/-- Ranges that lie end to end cover every position between their ends, each exactly once. -/
theorem Consecutive.existsUnique {first stop index : Nat} {stretches : List Stretch}
    (consecutive : Consecutive first stretches stop) (behind : first ≤ index)
    (before : index < stop) : ∃! stretch, stretch ∈ stretches ∧ stretch.Covers index := by
  induction stretches generalizing first with
  | nil =>
      have same : first = stop := consecutive
      omega
  | cons head rest ih =>
      obtain ⟨begins, order, later⟩ := consecutive
      by_cases inHead : index < head.stop
      · refine ⟨head, ⟨List.mem_cons_self, by omega, inHead⟩, ?_⟩
        rintro other ⟨member, starts, -⟩
        rcases List.mem_cons.mp member with rfl | further
        · rfl
        · have beyond := later.first_le other further
          omega
      · obtain ⟨found, ⟨member, covered⟩, unique⟩ := ih later (by omega)
        refine ⟨found, ⟨List.mem_cons_of_mem head member, covered⟩, ?_⟩
        rintro other ⟨among, covers⟩
        rcases List.mem_cons.mp among with rfl | further
        · exact absurd covers.2 inHead
        · exact unique other ⟨further, covers⟩

end Stretch

/-- A range of tokens that a part is made of: it has their text, and a node says of the tokens of its
body what is so. -/
structure Stretch.Made (stretch : Stretch) (tree : Tree) (tokens : Tokens) : Prop where
  text : tree.partText stretch.part = tokens.textBetween stretch.first stretch.stop
  fits : ∀ id : Nat, stretch.part = .body id →
    (tree.node id).Fits tokens stretch.first stretch.stop

theorem Stretch.Made.congr {stretch : Stretch} {tree other : Tree} {tokens : Tokens}
    (made : stretch.Made tree tokens)
    (text : other.partText stretch.part = tree.partText stretch.part)
    (bearing : (other.node stretch.part.id).bearing = (tree.node stretch.part.id).bearing) :
    stretch.Made other tokens where
  text := text.trans made.text
  fits := by
    intro id isBody
    rw [isBody] at bearing
    exact (made.fits id isBody).congr bearing

theorem Stretch.Made.ofClose {id first stop : Nat} {tree : Tree} {tokens : Tokens}
    (text : (tree.node id).close = tokens.textBetween first stop) :
    (Stretch.mk (.close id) first stop).Made tree tokens where
  text := text
  fits := fun _ isBody => by cases isBody

theorem Spans.made {tree : Tree} {tokens : Tokens} {node : Node} {id first last : Nat}
    (spans : Spans tokens node first last) (body : (tree.node id).body = node.body)
    (bearing : (tree.node id).bearing = node.bearing) :
    (Stretch.mk (.body id) first (last + 1)).Made tree tokens where
  text := body.trans spans.body
  fits := by
    intro other same
    cases same
    exact spans.fits.congr bearing

theorem Tree.partText_update {tree : Tree} {id : Nat} {change : Node → Node}
    (body : ∀ node, (change node).body = node.body)
    (close : ∀ node, (change node).close = node.close) (part : Part) :
    (tree.update id change).partText part = tree.partText part := by
  cases part with
  | body other => exact Tree.node_update_property Node.body body other
  | close other => exact Tree.node_update_property Node.close close other

/-! ### Constructs in the making -/

namespace Outline

/-- The nodes that are still open, innermost first, the file last. -/
def opened (outline : Outline) : List Nat := outline.entered.map OpenNode.id ++ [Tree.root]

def current (outline : Outline) : Nat := (outline.entered.head?.map OpenNode.id).getD Tree.root

theorem opened_eq (outline : Outline) : ∃ rest, outline.opened = outline.current :: rest := by
  unfold opened current
  cases outline.entered with
  | nil => exact ⟨[], rfl⟩
  | cons entry rest => exact ⟨rest.map OpenNode.id ++ [Tree.root], rfl⟩

theorem opened_of_entered {outline : Outline} {entry : OpenNode} {rest : List OpenNode}
    (entered : outline.entered = entry :: rest) :
    outline.opened = entry.id :: (rest.map OpenNode.id ++ [Tree.root]) := by
  rw [opened, entered]
  rfl

/-- Some ranges of tokens, end to end, fill the parts of the tree but for the closes of the open
nodes. -/
structure Filled (tokens : Tokens) (outline : Outline) (covered : Nat)
    (stretches : List Stretch) : Prop where
  parts : outline.tree.parts =
    stretches.map Stretch.part ++ outline.opened.map Part.close
  bodies : (stretches.map Stretch.part).filterMap Part.bodyOf? = List.range outline.tree.size
  consecutive : Stretch.Consecutive 0 stretches covered
  made : ∀ stretch ∈ stretches, stretch.Made outline.tree tokens

/-- The parts of the tree are filled up to a position, but for the closes of the open nodes. -/
structure Laid (tokens : Tokens) (outline : Outline) (covered : Nat) : Prop where
  ascending : outline.tree.Ascending
  inside : ∀ id ∈ outline.opened, id < outline.tree.size
  unclosed : ∀ id ∈ outline.opened, (outline.tree.node id).close = []
  nodup : outline.tree.parts.Nodup
  filled : ∃ stretches : List Stretch, Filled tokens outline covered stretches

/-- The ranges that an event fills when it covers the tokens from one position up to another. -/
def fills (outline : Outline) (covered stop : Nat) : Event → List Stretch
  | .leaf _ _ _ => [⟨.body outline.tree.size, covered, stop⟩,
      ⟨.close outline.tree.size, stop, stop⟩]
  | .enter _ _ _ => [⟨.body outline.tree.size, covered, stop⟩]
  | .leave _ _ => (outline.entered.head?.map fun entry =>
      Stretch.mk (.close entry.id) covered stop).toList
  | .yields | .imports _ => []

variable {tokens : Tokens} {outline : Outline} {covered : Nat}

theorem Filled.start (tokens : Tokens) :
    Filled tokens Outline.start 0 [⟨.body Tree.root, 0, 0⟩] where
  parts := rfl
  bodies := rfl
  consecutive := .single (Nat.le_refl 0)
  made := by
    intro stretch member
    rw [List.mem_singleton.mp member]
    refine ⟨(Tokens.textBetween_self _).symm, fun id isBody => ?_⟩
    cases isBody
    exact ⟨fun editable => absurd editable (by decide), fun isOne => absurd isOne (by decide)⟩

theorem Laid.start (tokens : Tokens) : Laid tokens Outline.start 0 where
  ascending := .empty
  inside := by
    intro id member
    rw [List.mem_singleton.mp member]
    exact Nat.zero_lt_one
  unclosed := by
    intro id member
    rw [List.mem_singleton.mp member]
    rfl
  nodup := by decide
  filled := ⟨_, .start tokens⟩

theorem Laid.size_pos (laid : Laid tokens outline covered) : 0 < outline.tree.size :=
  laid.inside Tree.root (List.mem_append_right _ List.mem_cons_self)

theorem Laid.current_lt (laid : Laid tokens outline covered) :
    outline.current < outline.tree.size := by
  obtain ⟨rest, opened⟩ := outline.opened_eq
  exact laid.inside _ (opened ▸ List.mem_cons_self)

def placed (outline : Outline) (node : Node) : Node :=
  { node with scope := outline.innermost .scope, function := outline.innermost .function }

theorem tree_attach (node : Node) (first last : Nat) :
    (outline.attach node first last).tree =
      outline.tree.push outline.current (outline.placed node) :=
  rfl

/-- The parts after a node is attached: the new ones come last among those that are filled. -/
theorem Laid.parts_attach (laid : Laid tokens outline covered) {done : List Part}
    (parts : outline.tree.parts = done ++ outline.opened.map Part.close) (node : Node)
    (first last : Nat) :
    (outline.attach node first last).tree.parts = done ++ .body outline.tree.size ::
      .close outline.tree.size :: outline.opened.map Part.close ∧
    (outline.attach node first last).tree.parts.Nodup := by
  obtain ⟨rest, opened⟩ := outline.opened_eq
  have after : (outline.attach node first last).tree.parts = done ++ .body outline.tree.size ::
      .close outline.tree.size :: outline.opened.map Part.close := by
    rw [opened] at parts ⊢
    exact Tree.parts_push laid.ascending laid.current_lt _ parts laid.nodup
  refine ⟨after, ?_⟩
  have old (part : Part) (member : part ∈ outline.tree.parts) : part.id ≠ outline.tree.size :=
    Nat.ne_of_lt (Tree.mem_parts laid.ascending laid.size_pos member)
  have nodup := laid.nodup
  rw [parts] at old nodup
  rw [after]
  have bodyNew : Part.body outline.tree.size ∉ done ++ outline.opened.map Part.close :=
    fun member => old _ member rfl
  have closeNew : Part.close outline.tree.size ∉ done ++ outline.opened.map Part.close :=
    fun member => old _ member rfl
  rw [List.nodup_middle, List.nodup_cons, List.nodup_middle, List.nodup_cons]
  refine ⟨fun member => ?_, closeNew, nodup⟩
  rcases List.mem_append.mp member with among | later
  · exact bodyNew (List.mem_append_left _ among)
  · rcases List.mem_cons.mp later with same | among
    · cases same
    · exact bodyNew (List.mem_append_right _ among)

private theorem made_attach (laid : Laid tokens outline covered) {stretches : List Stretch}
    (parts : outline.tree.parts = stretches.map Stretch.part ++ outline.opened.map Part.close)
    (made : ∀ stretch ∈ stretches, stretch.Made outline.tree tokens)
    (node : Node) (first last : Nat) (stretch : Stretch) (member : stretch ∈ stretches) :
    stretch.Made (outline.attach node first last).tree tokens := by
  have among : stretch.part ∈ outline.tree.parts := by
    rw [parts]
    exact List.mem_append_left _ (List.mem_map_of_mem member)
  have old := Tree.mem_parts laid.ascending laid.size_pos among
  rw [tree_attach]
  exact (made stretch member).congr (Tree.partText_push laid.current_lt _ old)
    (Tree.node_push_property Node.bearing (fun _ _ => rfl) old laid.current_lt _)

private theorem bodies_snoc {parts : List Part} {size : Nat}
    (bodies : parts.filterMap Part.bodyOf? = List.range size) :
    (parts ++ [Part.body size]).filterMap Part.bodyOf? = List.range (size + 1) := by
  rw [List.filterMap_append, bodies, List.range_succ]
  rfl

theorem size_attach (node : Node) (first last : Nat) :
    (outline.attach node first last).tree.size = outline.tree.size + 1 := Tree.size_push _ _

theorem Laid.node_attach (laid : Laid tokens outline covered) (node : Node) (first last : Nat) :
    (outline.attach node first last).tree.node outline.tree.size =
      { outline.placed node with parent := some outline.current, children := [] } :=
  Tree.node_push_self laid.current_lt _

private theorem inside_attach (laid : Laid tokens outline covered) (node : Node) (first last : Nat)
    (id : Nat) (member : id ∈ outline.opened) :
    id < (outline.attach node first last).tree.size := by
  rw [size_attach]
  exact Nat.lt_succ_of_lt (laid.inside id member)

private theorem unclosed_attach (laid : Laid tokens outline covered) (node : Node)
    (first last : Nat) (id : Nat) (member : id ∈ outline.opened) :
    ((outline.attach node first last).tree.node id).close = [] := by
  have same : (outline.attach node first last).tree.partText (.close id) =
      outline.tree.partText (.close id) :=
    Tree.partText_push laid.current_lt _ (laid.inside id member)
  exact same.trans (laid.unclosed id member)

private theorem made_attached (laid : Laid tokens outline covered) {node : Node} {last : Nat}
    (spans : Spans tokens node covered last) :
    (Stretch.mk (.body outline.tree.size) covered (last + 1)).Made
      (outline.attach node covered last).tree tokens := by
  have attached := laid.node_attach node covered last
  refine spans.made ?_ ?_
  · rw [attached]
    rfl
  · rw [attached]
    rfl

theorem Filled.leaf {stretches : List Stretch} (filled : Filled tokens outline covered stretches)
    (laid : Laid tokens outline covered) {node : Node} {last : Nat}
    (spans : Spans tokens node covered last) :
    Filled tokens (outline.take (.leaf node covered last)) (last + 1)
      (stretches ++ outline.fills covered (last + 1) (.leaf node covered last)) := by
  obtain ⟨parts, bodies, consecutive, made⟩ := filled
  have attached := laid.node_attach node covered last
  constructor
  · rw [List.map_append, List.append_assoc]
    exact (laid.parts_attach parts node covered last).1
  · change _ = List.range (outline.attach node covered last).tree.size
    rw [size_attach, ← bodies_snoc bodies, List.map_append, List.filterMap_append,
      List.filterMap_append]
    rfl
  · exact consecutive.append ⟨rfl, Nat.le_succ_of_le spans.order, rfl, Nat.le_refl _, rfl⟩
  · intro stretch member
    rcases List.mem_append.mp member with old | new
    · exact made_attach laid parts made node covered last stretch old
    · rcases List.mem_cons.mp new with rfl | closing
      · exact made_attached laid spans
      · rw [List.mem_singleton.mp closing]
        refine .ofClose ?_
        rw [Tokens.textBetween_self]
        exact (congrArg Node.close attached).trans spans.close

theorem Laid.leaf (laid : Laid tokens outline covered) {node : Node} {last : Nat}
    (spans : Spans tokens node covered last) :
    Laid tokens (outline.take (.leaf node covered last)) (last + 1) := by
  obtain ⟨stretches, filled⟩ := laid.filled
  exact ⟨laid.ascending.push laid.current_lt _, inside_attach laid node covered last,
    unclosed_attach laid node covered last, (laid.parts_attach filled.parts node covered last).2,
    _, filled.leaf laid spans⟩

theorem Filled.enter {stretches : List Stretch} (filled : Filled tokens outline covered stretches)
    (laid : Laid tokens outline covered) {node : Node} {last : Nat}
    (spans : Spans tokens node covered last) :
    Filled tokens (outline.take (.enter node covered last)) (last + 1)
      (stretches ++ outline.fills covered (last + 1) (.enter node covered last)) := by
  obtain ⟨parts, bodies, consecutive, made⟩ := filled
  constructor
  · rw [List.map_append, List.append_assoc]
    exact (laid.parts_attach parts node covered last).1
  · change _ = List.range (outline.attach node covered last).tree.size
    rw [size_attach, ← bodies_snoc bodies, List.map_append]
    rfl
  · exact consecutive.append (.single (Nat.le_succ_of_le spans.order))
  · intro stretch member
    rcases List.mem_append.mp member with old | new
    · exact made_attach laid parts made node covered last stretch old
    · rw [List.mem_singleton.mp new]
      exact made_attached laid spans

theorem Laid.enter (laid : Laid tokens outline covered) {node : Node} {last : Nat}
    (spans : Spans tokens node covered last) :
    Laid tokens (outline.take (.enter node covered last)) (last + 1) := by
  obtain ⟨stretches, filled⟩ := laid.filled
  have attached := laid.node_attach node covered last
  refine ⟨laid.ascending.push laid.current_lt _, ?_, ?_,
    (laid.parts_attach filled.parts node covered last).2, _, filled.enter laid spans⟩
  · intro id member
    rcases List.mem_cons.mp member with rfl | around
    · change _ < (outline.attach node covered last).tree.size
      rw [size_attach]
      exact Nat.lt_succ_self _
    · exact inside_attach laid node covered last id around
  · intro id member
    rcases List.mem_cons.mp member with rfl | around
    · change ((outline.attach node covered last).tree.node outline.tree.size).close = _
      rw [attached]
      exact spans.close
    · exact unclosed_attach laid node covered last id around

def closedBy (close : Text) (node : Node) : Node := { node with close := node.close ++ close }

theorem take_leave {entry : OpenNode} {rest : List OpenNode}
    (entered : outline.entered = entry :: rest) (close : Text) (last : Nat) :
    outline.take (.leave close last) =
      { tree := outline.tree.update entry.id (closedBy close)
        entered := rest
        extents := outline.extents.setIfInBounds entry.id (some (entry.first, last)) } := by
  unfold take
  rw [entered]
  rfl

private theorem partText_closedBy {tree : Tree} {id : Nat} {close : Text} {part : Part}
    (other : part ≠ .close id) :
    (tree.update id (closedBy close)).partText part = tree.partText part := by
  cases part with
  | body same =>
      have kept (node : Node) : (closedBy close node).body = node.body := rfl
      exact Tree.node_update_property Node.body kept same
  | close same =>
      have apart : same ≠ id := fun equal => other (congrArg Part.close equal)
      exact congrArg Node.close (Tree.node_update_of_ne apart _)

/-- The closes that are left open are not filled yet, and no two of them are the same. -/
theorem Laid.apart (laid : Laid tokens outline covered) {stretches : List Stretch}
    (filled : Filled tokens outline covered stretches) {entry : OpenNode} {rest : List OpenNode}
    (entered : outline.entered = entry :: rest) :
    .close entry.id ∉ stretches.map Stretch.part ∧
      .close entry.id ∉ (rest.map OpenNode.id ++ [Tree.root]).map Part.close := by
  have nodup := laid.nodup
  rw [filled.parts, opened_of_entered entered, List.map_cons, List.nodup_middle, List.nodup_cons,
    List.mem_append, not_or] at nodup
  exact nodup.1

/-- The end of a construct fills the close that was left open last. -/
theorem Filled.leave {stretches : List Stretch} (filled : Filled tokens outline covered stretches)
    (laid : Laid tokens outline covered) {entry : OpenNode} {rest : List OpenNode}
    (entered : outline.entered = entry :: rest) {close : Text} {stop : Nat} (order : covered ≤ stop)
    (text : tokens.textBetween covered stop = close) (last : Nat) :
    Filled tokens (outline.take (.leave close last)) stop
      (stretches ++ outline.fills covered stop (.leave close last)) := by
  obtain ⟨notBefore, -⟩ := laid.apart filled entered
  obtain ⟨parts, bodies, consecutive, made⟩ := filled
  have opened := opened_of_entered entered
  rw [opened] at parts
  have member : entry.id ∈ outline.opened := opened ▸ List.mem_cons_self
  have here : (outline.tree.update entry.id (closedBy close)).node entry.id =
      closedBy close (outline.tree.node entry.id) :=
    Tree.node_update_self (laid.inside entry.id member) _
  have empty : (outline.tree.node entry.id).close = [] := laid.unclosed entry.id member
  have same : (outline.tree.update entry.id (closedBy close)).parts = outline.tree.parts :=
    Tree.parts_update fun _ => rfl
  have filling : outline.fills covered stop (.leave close last) =
      [⟨.close entry.id, covered, stop⟩] := by
    rw [fills, entered]
    rfl
  rw [take_leave entered, filling]
  constructor
  · rw [same, parts, List.map_append, List.append_assoc]
    rfl
  · rw [Tree.size_update, ← bodies, List.map_append, List.filterMap_append]
    exact List.append_nil _
  · exact consecutive.append (.single order)
  · intro stretch member
    rcases List.mem_append.mp member with old | new
    · have other : stretch.part ≠ .close entry.id := by
        intro equal
        rw [← equal] at notBefore
        exact notBefore (List.mem_map_of_mem old)
      have kept (node : Node) : (closedBy close node).bearing = node.bearing := rfl
      exact (made stretch old).congr (partText_closedBy other)
        (Tree.node_update_property Node.bearing kept _)
    · rw [List.mem_singleton.mp new]
      refine .ofClose ?_
      rw [text]
      change ((outline.tree.update entry.id (closedBy close)).node entry.id).close = _
      rw [here, closedBy, empty]
      rfl

theorem Laid.leave (laid : Laid tokens outline covered) {entry : OpenNode} {rest : List OpenNode}
    (entered : outline.entered = entry :: rest) {close : Text} {stop : Nat} (order : covered ≤ stop)
    (text : tokens.textBetween covered stop = close) (last : Nat) :
    Laid tokens (outline.take (.leave close last)) stop := by
  obtain ⟨stretches, filled⟩ := laid.filled
  obtain ⟨-, notAround⟩ := laid.apart filled entered
  have after := filled.leave laid entered order text last
  have opened := opened_of_entered entered
  have inside := laid.inside
  have unclosed := laid.unclosed
  rw [opened] at inside unclosed
  have same : (outline.tree.update entry.id (closedBy close)).parts = outline.tree.parts :=
    Tree.parts_update fun _ => rfl
  rw [take_leave entered] at after ⊢
  refine ⟨laid.ascending.update (fun _ => rfl) fun _ => rfl, ?_, ?_, ?_, _, after⟩
  · intro id member
    rw [Tree.size_update]
    exact inside id (List.mem_cons_of_mem _ member)
  · intro id member
    have other : Part.close id ≠ .close entry.id := by
      intro equal
      rw [← equal] at notAround
      exact notAround (List.mem_map_of_mem member)
    have kept : (outline.tree.update entry.id (closedBy close)).partText (.close id) =
        outline.tree.partText (.close id) := partText_closedBy other
    exact kept.trans (unclosed id (List.mem_cons_of_mem _ member))
  · rw [same]
    exact laid.nodup

theorem Filled.update {stretches : List Stretch} (filled : Filled tokens outline covered stretches)
    (id : Nat) {change : Node → Node} (body : ∀ node, (change node).body = node.body)
    (close : ∀ node, (change node).close = node.close)
    (children : ∀ node, (change node).children = node.children)
    (bearing : ∀ node, (change node).bearing = node.bearing) :
    Filled tokens { outline with tree := outline.tree.update id change } covered stretches := by
  obtain ⟨parts, bodies, consecutive, made⟩ := filled
  have same : (outline.tree.update id change).parts = outline.tree.parts :=
    Tree.parts_update children
  constructor
  · exact same.trans parts
  · rw [Tree.size_update]
    exact bodies
  · exact consecutive
  · intro stretch member
    exact (made stretch member).congr (Tree.partText_update body close stretch.part)
      (Tree.node_update_property Node.bearing bearing _)

theorem Laid.update (laid : Laid tokens outline covered) (id : Nat) {change : Node → Node}
    (body : ∀ node, (change node).body = node.body)
    (close : ∀ node, (change node).close = node.close)
    (children : ∀ node, (change node).children = node.children)
    (parent : ∀ node, (change node).parent = node.parent)
    (bearing : ∀ node, (change node).bearing = node.bearing) :
    Laid tokens { outline with tree := outline.tree.update id change } covered := by
  obtain ⟨stretches, filled⟩ := laid.filled
  have same : (outline.tree.update id change).parts = outline.tree.parts :=
    Tree.parts_update children
  refine ⟨laid.ascending.update children parent, ?_, ?_, ?_, stretches,
    filled.update id body close children bearing⟩
  · intro other member
    rw [Tree.size_update]
    exact laid.inside other member
  · intro other member
    have kept : (outline.tree.update id change).partText (.close other) =
        outline.tree.partText (.close other) := Tree.partText_update body close _
    exact kept.trans (laid.unclosed other member)
  · rw [same]
    exact laid.nodup

def yielding (node : Node) : Node := { node with flags := { node.flags with generator := true } }

def importing (entries : List (Text × Text)) (node : Node) : Node :=
  { node with
    imports := entries.foldl (fun table entry => ImportTable.insert entry.1 entry.2 table)
      node.imports }

theorem take_yields (outline : Outline) :
    outline.take .yields = outline ∨
      ∃ id, outline.take .yields = { outline with tree := outline.tree.update id yielding } := by
  cases found : outline.innermost .function with
  | none =>
      refine .inl ?_
      unfold take
      rw [found]
  | some id =>
      refine .inr ⟨id, ?_⟩
      unfold take
      rw [found]
      rfl

theorem take_imports (outline : Outline) (entries : List (Text × Text)) :
    ∃ id, outline.take (.imports entries) =
      { outline with tree := outline.tree.update id (importing entries) } := ⟨_, rfl⟩

/-! ### Runs -/

theorem length_entered {point next : Point} {event : Event}
    (step : Event.Step tokens point event next)
    (length : outline.entered.length = point.frames.length) :
    (outline.take event).entered.length = next.frames.length := by
  have left {frame : FrameKind} {frames : List FrameKind} (close : Text) (last : Nat)
      (length : outline.entered.length = (frame :: frames).length) :
      (outline.take (.leave close last)).entered.length = frames.length := by
    obtain ⟨entry, rest, entered⟩ := List.exists_cons_of_length_eq_add_one length
    rw [entered] at length
    rw [take_leave entered]
    exact Nat.succ.inj length
  cases step with
  | leaf => exact length
  | enter => exact congrArg Nat.succ length
  | leave => exact left _ _ length
  | leaveOpen => exact left _ _ length
  | yields =>
      rcases outline.take_yields with same | ⟨id, same⟩ <;> rw [same] <;> exact length
  | imports => exact length

theorem Filled.step {stretches : List Stretch} {point next : Point} {event : Event}
    (filled : Filled tokens outline point.covered stretches)
    (laid : Laid tokens outline point.covered)
    (length : outline.entered.length = point.frames.length)
    (step : Event.Step tokens point event next) :
    Filled tokens (outline.take event) next.covered
      (stretches ++ outline.fills point.covered next.covered event) := by
  cases step with
  | leaf spans => exact filled.leaf laid spans
  | enter spans => exact filled.enter laid spans
  | leave braced brace =>
      obtain ⟨entry, rest, entered⟩ := List.exists_cons_of_length_eq_add_one length
      exact filled.leave laid entered (Nat.le_succ _) brace _
  | leaveOpen =>
      obtain ⟨entry, rest, entered⟩ := List.exists_cons_of_length_eq_add_one length
      exact filled.leave laid entered (Nat.le_refl _) (Tokens.textBetween_self _) _
  | yields =>
      rw [fills, List.append_nil]
      rcases outline.take_yields with same | ⟨id, same⟩
      · rw [same]
        exact filled
      · rw [same]
        exact filled.update id (fun _ => rfl) (fun _ => rfl) (fun _ => rfl) fun _ => rfl
  | imports entries =>
      obtain ⟨id, same⟩ := outline.take_imports entries
      rw [same, fills, List.append_nil]
      exact filled.update id (fun _ => rfl) (fun _ => rfl) (fun _ => rfl) fun _ => rfl

theorem Laid.step {point next : Point} {event : Event} (laid : Laid tokens outline point.covered)
    (length : outline.entered.length = point.frames.length)
    (step : Event.Step tokens point event next) :
    Laid tokens (outline.take event) next.covered := by
  cases step with
  | leaf spans => exact laid.leaf spans
  | enter spans => exact laid.enter spans
  | leave braced brace =>
      obtain ⟨entry, rest, entered⟩ := List.exists_cons_of_length_eq_add_one length
      exact laid.leave entered (Nat.le_succ _) brace _
  | leaveOpen =>
      obtain ⟨entry, rest, entered⟩ := List.exists_cons_of_length_eq_add_one length
      exact laid.leave entered (Nat.le_refl _) (Tokens.textBetween_self _) _
  | yields =>
      rcases outline.take_yields with same | ⟨id, same⟩
      · rw [same]
        exact laid
      · rw [same]
        exact laid.update id (fun _ => rfl) (fun _ => rfl) (fun _ => rfl) (fun _ => rfl) fun _ => rfl
  | imports entries =>
      obtain ⟨id, same⟩ := outline.take_imports entries
      rw [same]
      exact laid.update id (fun _ => rfl) (fun _ => rfl) (fun _ => rfl) (fun _ => rfl) fun _ => rfl

theorem ofEvents_snoc (events : List Event) (event : Event) :
    ofEvents (events ++ [event]) = (ofEvents events).take event := List.foldl_append

/-- Along a derivation the tree has its parts filled with the tokens that the events cover. -/
theorem laid_of_derives {events : List Event} {point : Point}
    (derives : Derives tokens events point) :
    Laid tokens (ofEvents events) point.covered ∧
      (ofEvents events).entered.length = point.frames.length := by
  induction derives with
  | start => exact ⟨Laid.start tokens, rfl⟩
  | step before step ih =>
      obtain ⟨laid, length⟩ := ih
      rw [ofEvents_snoc]
      exact ⟨laid.step length step, length_entered step length⟩

/-- The ranges that fill a tree are those that its events filled, each when the event came. -/
theorem filled_of_derives {events : List Event} {point : Point}
    (derives : Derives tokens events point) :
    ∃ stretches : List Stretch, Filled tokens (ofEvents events) point.covered stretches ∧
      ∀ before event after, events = before ++ event :: after → ∃ here next,
        Derives tokens before here ∧ Event.Step tokens here event next ∧
          (ofEvents before).fills here.covered next.covered event ⊆ stretches := by
  induction derives with
  | start =>
      obtain ⟨stretches, filled⟩ := (Laid.start tokens).filled
      exact ⟨stretches, filled, fun before event after none => by simp at none⟩
  | @step events event point next derives step ih =>
      obtain ⟨laid, length⟩ := laid_of_derives derives
      obtain ⟨stretches, filled, filling⟩ := ih
      have last := filled.step laid length step
      rw [← ofEvents_snoc] at last
      refine ⟨_, last, fun before other after split => ?_⟩
      rcases List.eq_nil_or_concat after with rfl | ⟨after, final, rfl⟩
      · obtain ⟨rfl, same⟩ := List.append_inj' split rfl
        cases same
        exact ⟨point, next, derives, step, List.subset_append_right _ _⟩
      · rw [List.concat_eq_append, ← List.cons_append, ← List.append_assoc] at split
        have early := (List.append_inj' split rfl).1
        obtain ⟨here, further, derived, stepped, among⟩ := filling before other after early
        exact ⟨here, further, derived, stepped,
          fun stretch member => List.mem_append_left _ (among member)⟩

end Outline
end PhpWeave
