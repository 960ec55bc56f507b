import Mathlib.Data.List.Find
import PhpWeave.Proofs.Grammar.RoundTrip

set_option autoImplicit false

/-!
The structure of an outlined file. What a node says of its place is true of the links of the tree:
the namespace and the function it stands in are the nearest ones above it, methods stand in
class-like nodes, and a closing brace stands where a header opened one. While the tree is made, the
open nodes are the way up from the innermost one, and they mirror the frames of the reader.
-/

namespace PhpWeave

namespace Node

/-- Whether a brace closes a node: a class-like declaration, a function with a body or a namespace
whose header ends in a brace. -/
def isEnclosed (node : Node) : Bool :=
  match node.kind with
  | .classLike _ => true
  | .function => node.flags.hasBody
  | .scope => node.isBraced
  | _ => false

/-- What a node keeps while the tree grows around it. -/
def settled (node : Node) : Node :=
  { node with
    close := [], imports := [], lines := {}, children := []
    flags := { node.flags with generator := false } }

theorem opens_settled {node : Node} {frame : FrameKind} :
    node.settled.Opens frame ↔ node.Opens frame := by
  cases frame <;> exact Iff.rfl

theorem Opens.not_isLeaf {node : Node} {frame : FrameKind} (opens : node.Opens frame) :
    node.isLeaf = false := by
  unfold isLeaf
  cases frame with
  | file => exact opens.elim
  | scope braced => rw [opens.1]
  | classLike =>
      have isClass : node.kind.isClassLike = true := opens
      cases kind : node.kind <;> rw [kind] at isClass <;> first | rfl | cases isClass
  | function => rw [opens.1, opens.2]; rfl

theorem Opens.isEnclosed {node : Node} {frame : FrameKind} (opens : node.Opens frame) :
    node.isEnclosed = frame.isBraced := by
  unfold Node.isEnclosed
  cases frame with
  | file => exact opens.elim
  | scope braced => rw [opens.1]; exact opens.2
  | classLike =>
      have isClass : node.kind.isClassLike = true := opens
      cases kind : node.kind <;> rw [kind] at isClass <;> first | rfl | cases isClass
  | function => rw [opens.1]; exact opens.2

theorem Opens.isClassLike_iff {node : Node} {frame : FrameKind} (opens : node.Opens frame) :
    node.kind.isClassLike = true ↔ frame = .classLike := by
  cases frame with
  | file => exact opens.elim
  | scope braced =>
      rw [opens.1]
      constructor
      · intro none
        cases none
      · intro none
        cases none
  | classLike => exact ⟨fun _ => rfl, fun _ => opens⟩
  | function =>
      rw [opens.1]
      constructor
      · intro none
        cases none
      · intro none
        cases none

theorem isEnclosed_of_isLeaf {node : Node} (isOne : node.isLeaf = true) :
    node.isEnclosed = false := by
  unfold isLeaf at isOne
  unfold isEnclosed
  cases kind : node.kind <;> rw [kind] at isOne <;> first | rfl | cases isOne | skip
  exact (Bool.not_eq_true' _).mp isOne

end Node
namespace Tree

/-- `Keeps old new`: the nodes of the old tree are still there and still say the same. -/
structure Keeps (old new : Tree) : Prop where
  size : old.size ≤ new.size
  node : ∀ id < old.size, (new.node id).settled = (old.node id).settled

/-- What a node says of its place is true of the links of the tree. -/
structure Placed (tree : Tree) (id : Nat) : Prop where
  file : (tree.node id).kind = .file ↔ id = root
  scope : (tree.node id).scope =
    (tree.ancestors id).find? fun above => (tree.node above).kind = .scope
  function : (tree.node id).function =
    (tree.ancestors id).find? fun above => (tree.node above).kind = .function
  method : (tree.node id).flags.method = true ↔ (tree.node id).kind = .function ∧
    ∃ above, tree.parent? id = some above ∧ (tree.node above).kind.isClassLike = true
  closure : (tree.node id).kind = .function →
    ((tree.node id).flags.closure = true ↔ (tree.node id).name = [])
  nested : (tree.node id).kind = .scope → ∃ above, tree.parent? id = some above ∧
    (above = root ∨ (tree.node above).kind = .scope ∧ (tree.node above).isBraced = true)

variable {old new : Tree}

theorem Keeps.property (keeps : Keeps old new) {α : Type} (property : Node → α)
    (kept : ∀ node, property node.settled = property node) {id : Nat} (inside : id < old.size) :
    property (new.node id) = property (old.node id) := by
  rw [← kept (new.node id), keeps.node id inside, kept]

theorem Keeps.push {parent : Nat} (around : parent < old.size) (added : Node) :
    Keeps old (old.push parent added) where
  size := by
    rw [size_push]
    exact Nat.le_succ _
  node := fun _ inside => node_push_property Node.settled (fun _ _ => rfl) inside around added

theorem Keeps.update (id : Nat) {change : Node → Node}
    (kept : ∀ node, (change node).settled = node.settled) : Keeps old (old.update id change) where
  size := Nat.le_of_eq (size_update id change).symm
  node := fun other _ => node_update_property Node.settled kept other

theorem Keeps.ancestors (keeps : Keeps old new) (before : Ascending old) (after : Ascending new)
    {id : Nat} (inside : id < old.size) : new.ancestors id = old.ancestors id :=
  ancestors_congr before after
    (fun _ inside => keeps.property Node.parent (fun _ => rfl) inside) inside

theorem Keeps.nearest (keeps : Keeps old new) (before : Ascending old) (after : Ascending new)
    {id : Nat} (inside : id < old.size) (kind : NodeKind) :
    ((new.ancestors id).find? fun above => (new.node above).kind = kind) =
      (old.ancestors id).find? fun above => (old.node above).kind = kind := by
  rw [keeps.ancestors before after inside]
  apply List.find?_congr
  intro above member
  have below := lt_of_mem_ancestors before member
  rw [keeps.property Node.kind (fun _ => rfl) (Nat.lt_trans below inside)]

theorem Placed.keep {id : Nat} (placed : Placed old id) (keeps : Keeps old new)
    (before : Ascending old) (after : Ascending new) (inside : id < old.size) : Placed new id := by
  have parent : new.parent? id = old.parent? id :=
    keeps.property Node.parent (fun _ => rfl) inside
  have lower {above : Nat} (link : old.parent? id = some above) : above < old.size :=
    Nat.lt_trans (before.parent id above link) inside
  have kind := keeps.property Node.kind (fun _ => rfl) inside
  have flags := keeps.property (fun node => (node.flags.method, node.flags.closure)) (fun _ => rfl)
    inside
  obtain ⟨method, closure⟩ := Prod.mk.inj flags
  constructor
  case file =>
    rw [kind]
    exact placed.file
  case scope =>
    rw [keeps.nearest before after inside, keeps.property Node.scope (fun _ => rfl) inside]
    exact placed.scope
  case function =>
    rw [keeps.nearest before after inside, keeps.property Node.function (fun _ => rfl) inside]
    exact placed.function
  case method =>
    rw [method, kind, parent, placed.method]
    refine and_congr_right fun _ => exists_congr fun above => and_congr_right fun link => ?_
    rw [keeps.property Node.kind (fun _ => rfl) (lower link)]
  case closure =>
    rw [closure, kind, keeps.property Node.name (fun _ => rfl) inside]
    exact placed.closure
  case nested =>
    rw [kind, parent]
    intro isScope
    obtain ⟨above, link, braced⟩ := placed.nested isScope
    refine ⟨above, link, braced.imp_right fun both => ?_⟩
    rw [keeps.property Node.kind (fun _ => rfl) (lower link),
      keeps.property Node.isBraced (fun _ => rfl) (lower link)]
    exact both

end Tree

namespace Outline

/-- The frames of the reader are those of the open nodes. -/
def Mirrors (tree : Tree) : List OpenNode → List FrameKind → Prop
  | [], [] => True
  | entry :: entered, frame :: frames =>
    (tree.node entry.id).Opens frame ∧ Mirrors tree entered frames
  | [], _ :: _ => False
  | _ :: _, [] => False

/-- What a tree in the making says of its nodes is true, and only open nodes lack their braces. -/
structure Built (outline : Outline) (frames : List FrameKind) : Prop where
  path : ∀ front id rest, outline.opened = front ++ id :: rest → outline.tree.ancestors id = rest
  mirrors : Mirrors outline.tree outline.entered frames
  placed : ∀ id < outline.tree.size, outline.tree.Placed id
  holders : ∀ id < outline.tree.size, outline.tree.children id ≠ [] →
    (outline.tree.node id).isLeaf = false
  closed : ∀ id < outline.tree.size, id ∉ outline.opened →
    (outline.tree.node id).close = if (outline.tree.node id).isEnclosed then ['\x7d'] else []

variable {tokens : Tokens} {outline : Outline} {covered : Nat} {frames : List FrameKind}

theorem Mirrors.keep {old new : Tree} (keeps : old.Keeps new) {entered : List OpenNode}
    (mirrors : Mirrors old entered frames) (inside : ∀ entry ∈ entered, entry.id < old.size) :
    Mirrors new entered frames := by
  induction entered generalizing frames with
  | nil =>
      cases frames with
      | nil => trivial
      | cons frame frames => exact mirrors.elim
  | cons entry entered ih =>
      cases frames with
      | nil => exact mirrors.elim
      | cons frame frames =>
          obtain ⟨opens, later⟩ := mirrors
          refine ⟨?_, ih later fun other member => inside other (List.mem_cons_of_mem _ member)⟩
          rw [← Node.opens_settled, keeps.node entry.id (inside entry List.mem_cons_self),
            Node.opens_settled]
          exact opens

theorem Built.current (built : Built outline frames) :
    (frames = [] ∧ outline.current = Tree.root) ∨
      ∃ frame rest, frames = frame :: rest ∧
        (outline.tree.node outline.current).Opens frame := by
  have mirrors := built.mirrors
  unfold Outline.current
  cases entered : outline.entered with
  | nil =>
      rw [entered] at mirrors
      cases frames with
      | nil => exact .inl ⟨rfl, rfl⟩
      | cons frame rest => exact mirrors.elim
  | cons entry rest =>
      rw [entered] at mirrors
      cases frames with
      | nil => exact mirrors.elim
      | cons frame rest => exact .inr ⟨frame, rest, rfl, mirrors.1⟩

theorem Built.start : Built Outline.start [] where
  path := by
    intro front id rest opened
    change [Tree.root] = front ++ id :: rest at opened
    cases front with
    | nil =>
        obtain ⟨rfl, rfl⟩ := List.cons.inj opened
        rfl
    | cons head front => cases front <;> cases (List.cons.inj opened).2
  mirrors := trivial
  placed := by
    intro id inside
    cases Nat.lt_one_iff.mp inside
    exact ⟨by decide, rfl, rfl, by decide, fun none => (by cases none), fun none => (by cases none)⟩
  holders := by
    intro id inside filled
    cases Nat.lt_one_iff.mp inside
    rfl
  closed := by
    intro id inside outside
    cases Nat.lt_one_iff.mp inside
    exact absurd List.mem_cons_self outside

theorem Built.ancestors_keep (built : Built outline frames) (laid : Laid tokens outline covered)
    {new : Tree} (keeps : outline.tree.Keeps new) (after : new.Ascending) {front rest : List Nat}
    {id : Nat} (opened : outline.opened = front ++ id :: rest) : new.ancestors id = rest := by
  have member : id ∈ outline.opened := by
    rw [opened]
    exact List.mem_append_right _ List.mem_cons_self
  exact (keeps.ancestors laid.ascending after (laid.inside id member)).trans
    (built.path front id rest opened)

theorem Laid.mirrors_keep (laid : Laid tokens outline covered) {new : Tree}
    (keeps : outline.tree.Keeps new) (mirrors : Mirrors outline.tree outline.entered frames) :
    Mirrors new outline.entered frames :=
  mirrors.keep keeps fun entry member =>
    laid.inside entry.id (List.mem_append_left _ (List.mem_map_of_mem member))

theorem Built.root_kind (built : Built outline frames) (laid : Laid tokens outline covered) :
    (outline.tree.node Tree.root).kind = .file :=
  (built.placed Tree.root laid.size_pos).file.mpr rfl

/-! ### Attaching -/

theorem Laid.keeps_attach (laid : Laid tokens outline covered) (node : Node) (first last : Nat) :
    outline.tree.Keeps (outline.attach node first last).tree := .push laid.current_lt _

theorem Laid.ascending_attach (laid : Laid tokens outline covered) (node : Node)
    (first last : Nat) :
    (outline.attach node first last).tree.Ascending := laid.ascending.push laid.current_lt _

theorem Built.ancestors_attach (built : Built outline frames) (laid : Laid tokens outline covered)
    (node : Node) (first last : Nat) :
    (outline.attach node first last).tree.ancestors outline.tree.size = outline.opened := by
  obtain ⟨rest, opened⟩ := outline.opened_eq
  have link : (outline.attach node first last).tree.parent? outline.tree.size =
      some outline.current := by
    rw [Tree.parent?, laid.node_attach]
  have above := built.path [] outline.current rest opened
  rw [Tree.ancestors_of_child (laid.ascending_attach node first last) link,
    (laid.keeps_attach node first last).ancestors laid.ascending
      (laid.ascending_attach node first last) laid.current_lt, above, opened]

theorem Built.innermost_eq (built : Built outline frames) (laid : Laid tokens outline covered)
    (node : Node) (first last : Nat) {kind : NodeKind} (notFile : kind ≠ .file) :
    outline.innermost kind =
      ((outline.attach node first last).tree.ancestors outline.tree.size).find? fun above =>
        ((outline.attach node first last).tree.node above).kind = kind := by
  rw [built.ancestors_attach laid]
  have kinds : (outline.opened.find? fun above =>
      ((outline.attach node first last).tree.node above).kind = kind) =
      outline.opened.find? fun above => (outline.tree.node above).kind = kind := by
    apply List.find?_congr
    intro above member
    have kept := (laid.keeps_attach node first last).property Node.kind (fun _ => rfl)
      (laid.inside above member)
    rw [kept]
  have notRoot : [Tree.root].find? (fun above => (outline.tree.node above).kind = kind) = none := by
    rw [List.find?_singleton, built.root_kind laid, if_neg (by simpa using notFile.symm)]
  rw [kinds, opened, List.find?_append, notRoot, Option.or_none, List.find?_map]
  rfl

theorem Built.inClass_iff (built : Built outline frames) (laid : Laid tokens outline covered) :
    (outline.tree.node outline.current).kind.isClassLike = true ↔
      (Point.mk covered frames).InClass := by
  rcases built.current with ⟨rfl, isRoot⟩ | ⟨frame, rest, rfl, opens⟩
  · rw [isRoot, built.root_kind laid]
    constructor
    · intro none
      cases none
    · intro none
      cases none
  · rw [opens.isClassLike_iff]
    exact ⟨fun same => congrArg some same, fun same => Option.some.inj same⟩

/-- An attached node says what is true. -/
theorem Built.placed_attach (built : Built outline frames) (laid : Laid tokens outline covered)
    {node : Node} (first last : Nat) (marked : node.Marked (Point.mk covered frames).InClass)
    (notFile : node.kind ≠ .file)
    (admitted : node.kind = .scope → (Point.mk covered frames).AdmitsScope) :
    (outline.attach node first last).tree.Placed outline.tree.size := by
  have attached := laid.node_attach node first last
  have link : (outline.attach node first last).tree.parent? outline.tree.size =
      some outline.current := by
    rw [Tree.parent?, attached]
  have keeps := laid.keeps_attach node first last
  constructor
  case file =>
    rw [attached]
    exact ⟨fun isFile => absurd isFile notFile,
      fun isRoot => absurd isRoot (Nat.ne_of_gt laid.size_pos)⟩
  case scope =>
    rw [← built.innermost_eq laid node first last NodeKind.noConfusion, attached]
    rfl
  case function =>
    rw [← built.innermost_eq laid node first last NodeKind.noConfusion, attached]
    rfl
  case method =>
    rw [link, attached]
    refine marked.method.trans (and_congr_right fun _ => ?_)
    rw [← built.inClass_iff laid,
      ← keeps.property (fun node => node.kind.isClassLike) (fun _ => rfl) laid.current_lt]
    constructor
    · exact fun isClass => ⟨_, rfl, isClass⟩
    · rintro ⟨above, same, isClass⟩
      cases same
      exact isClass
  case closure =>
    rw [attached]
    exact marked.closure
  case nested =>
    rw [link, attached]
    intro isScope
    refine ⟨_, rfl, ?_⟩
    rcases built.current with ⟨-, isRoot⟩ | ⟨frame, rest, rfl, opens⟩
    · exact .inl isRoot
    · rcases admitted isScope with none | same
      · cases none
      · cases Option.some.inj same
        refine .inr ?_
        rw [keeps.property Node.kind (fun _ => rfl) laid.current_lt,
          keeps.property Node.isBraced (fun _ => rfl) laid.current_lt]
        exact opens

theorem size_cases {id : Nat} {node : Node} {first last : Nat}
    (inside : id < (outline.attach node first last).tree.size) :
    id < outline.tree.size ∨ id = outline.tree.size := by
  rw [size_attach] at inside
  omega

theorem Built.holders_attach (built : Built outline frames) (laid : Laid tokens outline covered)
    (node : Node) (first last : Nat) (id : Nat)
    (inside : id < (outline.attach node first last).tree.size)
    (filled : (outline.attach node first last).tree.children id ≠ []) :
    ((outline.attach node first last).tree.node id).isLeaf = false := by
  rcases size_cases inside with old | rfl
  · rw [(laid.keeps_attach node first last).property Node.isLeaf (fun _ => rfl) old]
    rw [tree_attach, Tree.children_push old laid.current_lt] at filled
    by_cases same : id = outline.current
    · rw [same]
      rcases built.current with ⟨-, isRoot⟩ | ⟨frame, rest, -, opens⟩
      · rw [isRoot, Node.isLeaf, built.root_kind laid]
      · exact opens.not_isLeaf
    · rw [if_neg same] at filled
      exact built.holders id old filled
  · rw [Tree.children, laid.node_attach] at filled
    exact absurd rfl filled

theorem Built.closed_attach (built : Built outline frames) (laid : Laid tokens outline covered)
    (node : Node) (first last : Nat) {id : Nat} (old : id < outline.tree.size)
    (outside : id ∉ outline.opened) :
    ((outline.attach node first last).tree.node id).close =
      if ((outline.attach node first last).tree.node id).isEnclosed then ['\x7d'] else [] := by
  have close : (outline.attach node first last).tree.partText (.close id) =
      outline.tree.partText (.close id) := Tree.partText_push laid.current_lt _ old
  rw [(laid.keeps_attach node first last).property Node.isEnclosed (fun _ => rfl) old]
  exact close.trans (built.closed id old outside)

theorem Built.leaf (built : Built outline frames) (laid : Laid tokens outline covered) {node : Node}
    {last : Nat} (spans : Spans tokens node covered last)
    (marked : node.Marked (Point.mk covered frames).InClass) (isOne : node.isLeaf = true) :
    Built (outline.take (.leaf node covered last)) frames := by
  have keeps := laid.keeps_attach node covered last
  have after := laid.ascending_attach node covered last
  have notFile : node.kind ≠ .file := by
    intro isFile
    rw [Node.isLeaf, isFile] at isOne
    cases isOne
  have notScope : node.kind ≠ .scope := by
    intro isScope
    rw [Node.isLeaf, isScope] at isOne
    cases isOne
  constructor
  case path => exact fun front id rest opened => built.ancestors_keep laid keeps after opened
  case mirrors => exact laid.mirrors_keep keeps built.mirrors
  case placed =>
    intro id inside
    rcases size_cases inside with old | rfl
    · exact (built.placed id old).keep keeps laid.ascending after old
    · exact built.placed_attach laid covered last marked notFile fun isScope =>
        absurd isScope notScope
  case holders => exact built.holders_attach laid node covered last
  case closed =>
    intro id inside outside
    rcases size_cases inside with old | rfl
    · exact built.closed_attach laid node covered last old outside
    · change ((outline.attach node covered last).tree.node outline.tree.size).close =
        if ((outline.attach node covered last).tree.node outline.tree.size).isEnclosed then _ else _
      rw [laid.node_attach]
      change node.close = if node.isEnclosed then _ else _
      rw [Node.isEnclosed_of_isLeaf isOne, spans.close]
      rfl

theorem Built.enter (built : Built outline frames) (laid : Laid tokens outline covered)
    {node : Node} {last : Nat} {frame : FrameKind}
    (marked : node.Marked (Point.mk covered frames).InClass)
    (opens : node.Opens frame)
    (admitted : node.kind = .scope → (Point.mk covered frames).AdmitsScope) :
    Built (outline.take (.enter node covered last)) (frame :: frames) := by
  have keeps := laid.keeps_attach node covered last
  have after := laid.ascending_attach node covered last
  have notFile : node.kind ≠ .file := by
    intro isFile
    have noLeaf := opens.not_isLeaf
    cases frame with
    | file => exact opens
    | scope braced => cases isFile.symm.trans opens.1
    | classLike =>
        have isClass : node.kind.isClassLike = true := opens
        rw [isFile] at isClass
        cases isClass
    | function => cases isFile.symm.trans opens.1
  constructor
  case path =>
    intro front id rest opened
    change outline.tree.size :: outline.opened = _ at opened
    cases front with
    | nil =>
        obtain ⟨rfl, rfl⟩ := List.cons.inj opened
        exact built.ancestors_attach laid node covered last
    | cons head front =>
        exact built.ancestors_keep laid keeps after (List.cons.inj opened).2
  case mirrors =>
    refine ⟨?_, laid.mirrors_keep keeps built.mirrors⟩
    change ((outline.attach node covered last).tree.node outline.tree.size).Opens frame
    rw [laid.node_attach, ← Node.opens_settled]
    exact Node.opens_settled.mpr opens
  case placed =>
    intro id inside
    change id < (outline.attach node covered last).tree.size at inside
    rcases size_cases inside with old | rfl
    · exact (built.placed id old).keep keeps laid.ascending after old
    · exact built.placed_attach laid covered last marked notFile admitted
  case holders => exact built.holders_attach laid node covered last
  case closed =>
    intro id inside outside
    change id < (outline.attach node covered last).tree.size at inside
    obtain ⟨apart, around⟩ := List.ne_and_not_mem_of_not_mem_cons outside
    rcases size_cases inside with old | same
    · exact built.closed_attach laid node covered last old around
    · exact absurd same apart

/-! ### Changes -/

theorem Built.update (built : Built outline frames) (laid : Laid tokens outline covered) (id : Nat)
    {change : Node → Node} (settled : ∀ node, (change node).settled = node.settled)
    (close : ∀ node, (change node).close = node.close)
    (children : ∀ node, (change node).children = node.children) :
    Built { outline with tree := outline.tree.update id change } frames := by
  have keeps : outline.tree.Keeps (outline.tree.update id change) := .update id settled
  have parent (node : Node) : (change node).parent = node.parent := by
    have same := congrArg Node.parent (settled node)
    exact same
  have after : (outline.tree.update id change).Ascending := laid.ascending.update children parent
  constructor
  case path =>
    exact fun front other rest opened => built.ancestors_keep laid keeps after opened
  case mirrors =>
    exact laid.mirrors_keep keeps built.mirrors
  case placed =>
    intro other inside
    rw [Tree.size_update] at inside
    exact (built.placed other inside).keep keeps laid.ascending after inside
  case holders =>
    intro other inside filled
    rw [Tree.size_update] at inside
    rw [Tree.children, Tree.node_update_property Node.children children] at filled
    rw [keeps.property Node.isLeaf (fun _ => rfl) inside]
    exact built.holders other inside filled
  case closed =>
    intro other inside outside
    rw [Tree.size_update] at inside
    rw [Tree.node_update_property Node.close close,
      keeps.property Node.isEnclosed (fun _ => rfl) inside]
    exact built.closed other inside outside

theorem Built.leave {frame : FrameKind} (built : Built outline (frame :: frames))
    (laid : Laid tokens outline covered) {close : Text}
    (fits : close = if frame.isBraced then ['\x7d'] else []) (last : Nat) :
    Built (outline.take (.leave close last)) frames := by
  have mirrors := built.mirrors
  cases entered : outline.entered with
  | nil =>
      rw [entered] at mirrors
      exact mirrors.elim
  | cons entry rest =>
      rw [entered] at mirrors
      have opened := opened_of_entered entered
      have keeps : outline.tree.Keeps (outline.tree.update entry.id (closedBy close)) :=
        .update entry.id fun _ => rfl
      have after : (outline.tree.update entry.id (closedBy close)).Ascending :=
        laid.ascending.update (fun _ => rfl) fun _ => rfl
      have unclosed : (outline.tree.node entry.id).close = [] :=
        laid.unclosed entry.id (opened ▸ List.mem_cons_self)
      rw [take_leave entered]
      constructor
      case path =>
        intro front id others around
        change rest.map OpenNode.id ++ [Tree.root] = _ at around
        rw [around, ← List.cons_append] at opened
        exact built.ancestors_keep laid keeps after opened
      case mirrors =>
        refine mirrors.2.keep keeps fun other member => laid.inside other.id ?_
        rw [opened]
        exact List.mem_cons_of_mem _ (List.mem_append_left _ (List.mem_map_of_mem member))
      case placed =>
        intro id inside
        rw [Tree.size_update] at inside
        exact (built.placed id inside).keep keeps laid.ascending after inside
      case holders =>
        intro id inside filled
        rw [Tree.size_update] at inside
        have children (node : Node) : (closedBy close node).children = node.children := rfl
        rw [Tree.children, Tree.node_update_property Node.children children] at filled
        rw [keeps.property Node.isLeaf (fun _ => rfl) inside]
        exact built.holders id inside filled
      case closed =>
        intro id inside outside
        rw [Tree.size_update] at inside
        rw [keeps.property Node.isEnclosed (fun _ => rfl) inside]
        by_cases same : id = entry.id
        · subst same
          rw [Tree.node_update_self inside, closedBy, unclosed, mirrors.1.isEnclosed]
          exact fits
        · rw [Tree.node_update_of_ne same]
          refine built.closed id inside ?_
          rw [opened]
          exact List.not_mem_cons_of_ne_of_not_mem same outside

/-! ### Runs -/

theorem Built.step {point next : Point} {event : Event} (built : Built outline point.frames)
    (laid : Laid tokens outline point.covered) (step : Event.Step tokens point event next) :
    Built (outline.take event) next.frames := by
  cases step with
  | leaf spans marked isOne => exact built.leaf laid spans marked isOne
  | enter spans marked opens admitted => exact built.enter laid marked opens admitted
  | leave braced brace =>
      refine built.leave laid ?_ _
      rw [braced]
      rfl
  | leaveOpen => exact built.leave laid rfl _
  | yields =>
      rcases outline.take_yields with same | ⟨id, same⟩
      · rw [same]
        exact built
      · rw [same]
        exact built.update laid id (fun _ => rfl) (fun _ => rfl) fun _ => rfl
  | imports entries =>
      obtain ⟨id, same⟩ := outline.take_imports entries
      rw [same]
      exact built.update laid id (fun _ => rfl) (fun _ => rfl) fun _ => rfl

/-- Along a derivation the open nodes mirror the frames, and the nodes say what is true. -/
theorem built_of_derives {events : List Event} {point : Point}
    (derives : Derives tokens events point) :
    Built (ofEvents events) point.frames := by
  induction derives with
  | start => exact Built.start
  | step before step ih =>
      rw [ofEvents_snoc]
      exact ih.step (laid_of_derives before).1 step

end Outline

/-! ### Finished trees -/

namespace Tree

/-- The structure of the tree of a file. The nodes count up in source order; each says truly where
it stands; only the file, namespaces, class-like declarations and functions with bodies have
children; and a closing brace is the close of exactly those nodes whose header opens one. -/
structure Exact (tree : Tree) : Prop where
  preorder : tree.preorder root = List.range tree.size
  placed : ∀ id < tree.size, tree.Placed id
  holders : ∀ id < tree.size, tree.children id ≠ [] →
    id = root ∨ (tree.node id).kind = .scope ∨ (tree.node id).kind.isClassLike = true ∨
      (tree.node id).kind = .function ∧ (tree.node id).flags.hasBody = true
  closed : ∀ id < tree.size,
    (tree.node id).close = if (tree.node id).isEnclosed then ['\x7d'] else []

theorem Relined.keeps {old new : Tree} (relined : Relined old new) : Keeps old new where
  size := Nat.le_of_eq relined.size.symm
  node := fun id _ => relined.property Node.settled (fun _ => rfl) id

theorem Relined.ascending {old new : Tree} (relined : Relined old new) (before : Ascending old) :
    Ascending new where
  children := by
    intro id child member
    rw [Tree.children, relined.property Node.children (fun _ => rfl)] at member
    rw [relined.size]
    exact before.children id child member
  parent := by
    intro id above link
    rw [parent?, relined.property Node.parent (fun _ => rfl)] at link
    exact before.parent id above link

private theorem holder_cases {node : Node} (noLeaf : node.isLeaf = false) :
    node.kind = .file ∨ node.kind = .scope ∨ node.kind.isClassLike = true ∨
      node.kind = .function ∧ node.flags.hasBody = true := by
  unfold Node.isLeaf at noLeaf
  cases kind : node.kind with
  | file => exact .inl rfl
  | scope => exact .inr (.inl rfl)
  | classLike => exact .inr (.inr (.inl rfl))
  | function =>
      rw [kind] at noLeaf
      exact .inr (.inr (.inr ⟨rfl, (Bool.not_eq_false' _).mp noLeaf⟩))
  | imports | code | literal => rw [kind] at noLeaf; cases noLeaf

section Parsed

variable {listLines : Bool} {source : Text} {tree : Tree}
  (parsed : parse listLines source = .ok tree)
include parsed

theorem placed_of_parse {id : Nat} (inside : id < tree.size) : tree.Placed id := by
  obtain ⟨events, derives, relined⟩ := derives_of_parse parsed
  have laid := (Outline.laid_of_derives derives).1
  have built := Outline.built_of_derives derives
  rw [relined.size] at inside
  exact (built.placed id inside).keep relined.keeps laid.ascending
    (relined.ascending laid.ascending) inside

/-- Only the root is a file. -/
theorem below_of_kind {id : Nat} (inside : id < tree.size) (other : (tree.node id).kind ≠ .file) :
    root < id :=
  Nat.pos_of_ne_zero fun isRoot => other ((placed_of_parse parsed inside).file.mpr isRoot)

/-- The file is no plain code. -/
theorem below_of_editable {id : Nat} (inside : id < tree.size)
    (editable : (tree.node id).isEditable = true) : root < id := by
  refine below_of_kind parsed inside fun isFile => ?_
  rw [Node.isEditable, isFile] at editable
  cases editable

theorem not_isLeaf_of_parse {id : Nat} (inside : id < tree.size) (filled : tree.children id ≠ []) :
    (tree.node id).isLeaf = false := by
  obtain ⟨events, derives, relined⟩ := derives_of_parse parsed
  have built := Outline.built_of_derives derives
  rw [relined.size] at inside
  rw [Tree.children, relined.property Node.children (fun _ => rfl)] at filled
  rw [relined.property Node.isLeaf (fun _ => rfl)]
  exact built.holders id inside filled

theorem close_of_parse {id : Nat} (inside : id < tree.size) :
    (tree.node id).close = if (tree.node id).isEnclosed then ['\x7d'] else [] := by
  have here := placed_of_parse parsed inside
  obtain ⟨events, derives, relined⟩ := derives_of_parse parsed
  obtain ⟨laid, length⟩ := Outline.laid_of_derives derives
  have built := Outline.built_of_derives derives
  have onlyFile := Outline.opened_of_length_zero length
  rw [relined.size] at inside
  have close := relined.property Node.close (fun _ => rfl) id
  by_cases isRoot : id = root
  · have isFile := here.file.mpr isRoot
    rw [close, Node.isEnclosed, isFile, isRoot]
    exact laid.unclosed root (onlyFile ▸ List.mem_cons_self)
  · rw [close, relined.property Node.isEnclosed (fun _ => rfl)]
    refine built.closed id inside ?_
    rw [onlyFile]
    exact fun member => isRoot (List.mem_singleton.mp member)

end Parsed

/-- Every file that has a tree has one of this structure. -/
theorem exact_of_parse {listLines : Bool} {source : Text} {tree : Tree}
    (parsed : parse listLines source = .ok tree) : tree.Exact where
  preorder := (stretches_of_parse parsed).2.1
  placed := fun _ => placed_of_parse parsed
  holders := fun _ inside filled =>
    (holder_cases (not_isLeaf_of_parse parsed inside filled)).imp_left
      (placed_of_parse parsed inside).file.mp
  closed := fun _ => close_of_parse parsed

/-- A method in a namespace with braces. -/
theorem exact_of_parse_namespace :
    ∃ tree, parse false "<?php namespace a{class B{function c(){}}}".toList = .ok tree ∧
      tree.Exact := by
  have closes :
      (parse false "<?php namespace a{class B{function c(){}}}".toList).toBool = true := by
    decide +kernel
  cases parsed : parse false "<?php namespace a{class B{function c(){}}}".toList with
  | error fault =>
      rw [parsed] at closes
      cases closes
  | ok tree => exact ⟨tree, rfl, exact_of_parse parsed⟩

end Tree
end PhpWeave
