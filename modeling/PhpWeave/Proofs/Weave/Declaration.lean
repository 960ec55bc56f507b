import PhpWeave.Proofs.Node.Walks
import PhpWeave.Proofs.Weave.RedirectionRun

set_option autoImplicit false

/-!
What a redirection does to a tree. The blocks of a finished run put their assignments down one
after another, each in a node of its own under the node of the block. Nothing else of the tree
changes but the text of code, and whether a block has room stays as it was.
-/

namespace PhpWeave

open PhpWeave.Tree

def RedirectionBlock.declares (block : RedirectionBlock) : Bool :=
  block.index.isSome && !block.assignments.isEmpty

def Tree.opening? (tree : Tree) (id : Nat) : Option Bool :=
  (tree.children id).findSome? fun child => (tree.node child).opening?

namespace Redirection

structure PutDown (before after : Tree) (blocks : List RedirectionBlock) : Prop where
  linked : after.Linked
  size : after.size = before.size + blocks.length
  unlinked : ∀ id < before.size, (after.node id).unlinked = (before.node id).unlinked
  parent : ∀ id < before.size, after.parent? id = before.parent? id
  opening : ∀ id < before.size, after.opening? id = before.opening? id
  added : ∀ (number : Nat) (block : RedirectionBlock), blocks[number]? = some block →
    ∃ line, (after.node (before.size + number)).unlinked =
        (Node.synthetic (Text.joinWith [' '] block.assignments) line).unlinked ∧
      after.parent? (before.size + number) = some block.id

variable {before after : Tree} {parent : Nat} {front back : List Nat}

theorem opening_spliced (linked : before.Linked) {body : Text} {line : Option Nat}
    (spliced : before.Spliced after parent front none (some (Node.synthetic body line)) back)
    (id : Nat) : after.opening? id = before.opening? id := by
  have old {children : List Nat} (known : ∀ child ∈ children, child < before.size) :
      children.findSome? (fun child => (after.node child).opening?) =
        children.findSome? fun child => (before.node child).opening? := by
    induction children with
    | nil => rfl
    | cons child children ih =>
        rw [List.findSome?_cons, List.findSome?_cons,
          spliced.property Node.opening? (fun _ => rfl) (known child List.mem_cons_self),
          ih fun other member => known other (List.mem_cons_of_mem _ member)]
  have known (child : Nat) (member : child ∈ before.children id) : child < before.size :=
    (linked.ascending.children id child member).2
  unfold Tree.opening?
  by_cases here : id = parent
  · have new : (after.node before.size).opening? = none := by
      rw [spliced.attached _ rfl]
      rfl
    have split : before.children id = front ++ back := here ▸ spliced.childrenBefore
    have grown : after.children id = front ++ before.size :: back := here ▸ spliced.childrenAfter
    rw [split] at known ⊢
    rw [grown, List.findSome?_append, List.findSome?_append, List.findSome?_cons, new,
      old fun child member => known child (List.mem_append_left _ member),
      old fun child member => known child (List.mem_append_right _ member)]
  · rw [spliced.children id here, old known]

theorem PutDown.refl (linked : before.Linked) : PutDown before before [] where
  linked := linked
  size := rfl
  unlinked _ _ := rfl
  parent _ _ := rfl
  opening _ _ := rfl
  added := by
    intro number block none
    cases none

theorem PutDown.property {blocks : List RedirectionBlock} (putDown : PutDown before after blocks)
    {α : Type} (property : Node → α) (each : ∀ node : Node, property node.unlinked = property node)
    {id : Nat} (inside : id < before.size) :
    property (after.node id) = property (before.node id) := by
  rw [← each, putDown.unlinked id inside, each]

/-- One block more. -/
theorem PutDown.snoc {blocks : List RedirectionBlock} (putDown : PutDown before after blocks)
    {block : RedirectionBlock} (inside : block.id < before.size) (index : Nat)
    (line : Option Nat) :
    PutDown before (after.insert block.id index
      (Node.synthetic (Text.joinWith [' '] block.assignments) line)) (blocks ++ [block]) := by
  have around : block.id < after.size := by
    rw [putDown.size]
    exact Nat.lt_add_right _ inside
  have known {id : Nat} (old : id < before.size) : id < after.size := by
    rw [putDown.size]
    exact Nat.lt_add_right _ old
  have spliced := spliced_apply putDown.linked.ascending (.insert block.id index
    (Node.synthetic (Text.joinWith [' '] block.assignments) line)) around
  constructor
  case linked =>
    refine putDown.linked.splice (.insert block.id index _) around fun node member => ?_
    cases member
    constructor <;> exact fun _ none => by cases none
  case size =>
    rw [size_insert, putDown.size, List.length_append]
    rfl
  case unlinked =>
    exact fun id old => (spliced.unlinked id (known old)).trans (putDown.unlinked id old)
  case parent =>
    exact fun id old => (spliced.parent id (known old) nofun).trans (putDown.parent id old)
  case opening =>
    exact fun id old => (opening_spliced putDown.linked spliced id).trans (putDown.opening id old)
  case added =>
    intro number other here
    rcases Nat.lt_or_ge number blocks.length with early | late
    · rw [List.getElem?_append_left early] at here
      obtain ⟨otherLine, text, above⟩ := putDown.added number other here
      have old : before.size + number < after.size := by
        rw [putDown.size]
        exact Nat.add_lt_add_left early _
      exact ⟨otherLine, (spliced.unlinked _ old).trans text,
        (spliced.parent _ old nofun).trans above⟩
    · rw [List.getElem?_append_right late] at here
      have last : number = blocks.length := by
        have bound := (List.getElem?_eq_some_iff.mp here).1
        rw [List.length_singleton] at bound
        omega
      rw [last, Nat.sub_self] at here
      obtain rfl : block = other := Option.some.inj here
      have new := spliced.attached _ rfl
      rw [last, ← putDown.size]
      refine ⟨line, ?_, congrArg Node.parent new⟩
      exact (congrArg Node.unlinked new).trans rfl

theorem placeBlock_of_declares {block : RedirectionBlock} (declares : block.declares = true)
    (tree : Tree) : ∃ (index : Nat) (line : Option Nat), block.index = some index ∧
      placeBlock tree block = tree.insert block.id index
        (Node.synthetic (Text.joinWith [' '] block.assignments) line) := by
  rw [RedirectionBlock.declares, Bool.and_eq_true, Bool.not_eq_true'] at declares
  obtain ⟨index, place⟩ := Option.isSome_iff_exists.mp declares.1
  refine ⟨index, some (tree.placementLine block.id index), place, ?_⟩
  rw [placeBlock, place]
  simp only [declares.2, Bool.false_eq_true, reduceIte]

theorem placeBlock_of_silent {block : RedirectionBlock} (silent : block.declares = false)
    (tree : Tree) : placeBlock tree block = tree := by
  rw [placeBlock]
  split
  · rfl
  · next index place =>
      rw [RedirectionBlock.declares, place, Option.isSome_some, Bool.true_and,
        Bool.not_eq_false'] at silent
      rw [if_pos silent]

theorem PutDown.place {blocks : List RedirectionBlock} (putDown : PutDown before after blocks)
    {block : RedirectionBlock} (inside : block.declares = true → block.id < before.size) :
    PutDown before (placeBlock after block)
      (blocks ++ [block].filter RedirectionBlock.declares) := by
  cases declares : block.declares with
  | false =>
      rw [placeBlock_of_silent declares,
        List.filter_cons_of_neg (ne_true_of_eq_false declares), List.filter_nil, List.append_nil]
      exact putDown
  | true =>
      obtain ⟨index, line, -, placed⟩ := placeBlock_of_declares declares after
      rw [placed, List.filter_cons_of_pos declares]
      exact putDown.snoc (inside declares) index line

theorem putDown_foldl (linked : before.Linked) {blocks : List RedirectionBlock}
    (inside : ∀ block ∈ blocks, block.declares = true → block.id < before.size) :
    PutDown before (blocks.foldl placeBlock before)
      (blocks.filter RedirectionBlock.declares) := by
  induction blocks using List.reverseRecOn with
  | nil => exact .refl linked
  | append_singleton blocks block ih =>
      rw [List.foldl_append, List.filter_append]
      exact (ih fun other member => inside other (List.mem_append_left _ member)).place
        (inside block (List.mem_append_right _ List.mem_cons_self))

/-! ### The tree after a redirection -/

variable {redirection : Redirection} {tree : Tree}

/-- The run over the nodes that a redirection looks at. -/
theorem runInStep_foldl (redirection : Redirection) (linked : tree.Linked) {ids : List Nat}
    (editable : ∀ id ∈ ids, (tree.node id).isEditable = true) (once : ids.Nodup) :
    RunInStep redirection tree ids
      (ids.foldl redirectNode ⟨{ redirection with count := 0 }, tree, []⟩) := by
  induction ids using List.reverseRecOn with
  | nil =>
      constructor
      case counted => rfl
      case size => rfl
      case kept => exact fun _ => rfl
      case unseen => exact fun _ _ => rfl
      case told => exact fun _ none => by cases none
      case once => exact List.nodup_nil
      case blocks => exact fun _ none => by cases none
      case entered => exact fun _ none => by cases none
  | append_singleton ids id ih =>
      obtain ⟨early, -, apart⟩ := List.nodup_append.mp once
      have earlier : ∀ other ∈ ids, (tree.node other).isEditable = true :=
        fun other member => editable other (List.mem_append_left _ member)
      rw [List.foldl_append]
      exact (ih earlier early).redirectNode linked earlier fun member =>
        apart id member id List.mem_cons_self rfl

theorem host_of_ofBlock {seen : List Nat} {block : Nat}
    (filled : (redirection.ledgerOf tree seen).ofBlock block ≠ []) :
    ∃ id ∈ seen, hostOf? tree id = some block := by
  obtain ⟨⟨number, reference⟩, among⟩ := List.exists_mem_of_ne_nil _ filled
  obtain ⟨id, met, host, -⟩ := mem_ledgerOf (List.mem_of_getElem? (Ledger.mem_ofBlock.mp among))
  exact ⟨id, met, host⟩

theorem RunInStep.declares_iff {seen : List Nat} {run : Run}
    (inStep : RunInStep redirection tree seen run) {block : RedirectionBlock}
    (member : block ∈ run.blocks) :
    block.declares = true ↔ (redirection.ledgerOf tree seen).ofBlock block.id ≠ [] := by
  obtain ⟨step, room⟩ := inStep.blocks block member
  rw [RedirectionBlock.declares, room, step.assignments, List.isEmpty_map, Bool.and_eq_true,
    Bool.not_eq_true', List.isEmpty_eq_false_iff]
  refine ⟨And.right, fun some => ⟨?_, some⟩⟩
  obtain ⟨id, -, host⟩ := host_of_ofBlock some
  exact (hostOf?_eq_some host).2.2

theorem RunInStep.lt_size_of_declares {seen : List Nat} {run : Run}
    (inStep : RunInStep redirection tree seen run) (linked : tree.Linked)
    {block : RedirectionBlock} (member : block ∈ run.blocks) (declares : block.declares = true) :
    block.id < run.tree.size := by
  obtain ⟨id, -, host⟩ := host_of_ofBlock ((inStep.declares_iff member).mp declares)
  have link := linked.lt_size (hostOf?_eq_some host).1
  rw [inStep.size]
  exact Nat.lt_trans link.1 link.2

theorem RunInStep.linked {seen : List Nat} {run : Run}
    (inStep : RunInStep redirection tree seen run) (linked : tree.Linked) : run.tree.Linked := by
  refine linked.congr inStep.size (fun id => inStep.property Node.parent (fun _ => rfl) id)
    (fun id => inStep.property Node.children (fun _ => rfl) id) fun id known => ?_
  rw [inStep.property (fun node => node.RefersBelow tree.size) fun _ => rfl]
  exact linked.refers id known

def declaration (redirection : Redirection) (ledger : Ledger) (block : Nat) : Text :=
  Text.joinWith [' '] ((ledger.ofBlock block).map fun entry =>
    redirection.assignment (redirection.variableAt entry.1) entry.2)

/-- A tree after a redirection, told by the ledger of the run: its own nodes first, then a node for
each block with variables. -/
structure Redirected (redirection : Redirection) (tree after : Tree) (ledger : Ledger)
    (blocks : List Nat) : Prop where
  linked : after.Linked
  size : after.size = tree.size + blocks.length
  unlinked : ∀ id < tree.size,
    (after.node id).unlinked.unbodied = (tree.node id).unlinked.unbodied
  parent : ∀ id < tree.size, after.parent? id = tree.parent? id
  code : ∀ id ∈ tree.editableNodes, (after.node id).body = redirection.written tree ledger id
  other : ∀ id < tree.size, id ∉ tree.editableNodes → (after.node id).body = (tree.node id).body
  room : ∀ id < tree.size, (placement? after id).isSome = (placement? tree id).isSome
  added : ∀ (number block : Nat), blocks[number]? = some block →
    ∃ line, (after.node (tree.size + number)).unlinked =
        (Node.synthetic (redirection.declaration ledger block) line).unlinked ∧
      after.parent? (tree.size + number) = some block
  once : blocks.Nodup
  declares : ∀ block : Nat, block ∈ blocks ↔ ledger.ofBlock block ≠ []

theorem Redirected.property {after : Tree} {ledger : Ledger} {blocks : List Nat}
    (redirected : Redirected redirection tree after ledger blocks) {α : Type}
    (property : Node → α) (each : ∀ node : Node, property node.unlinked.unbodied = property node)
    {id : Nat} (inside : id < tree.size) :
    property (after.node id) = property (tree.node id) := by
  rw [← each, redirected.unlinked id inside, each]

def ledger (redirection : Redirection) (tree : Tree) : Ledger :=
  redirection.ledgerOf tree tree.editableNodes

theorem editable_of_mem {id : Nat} (member : id ∈ tree.editableNodes) :
    (tree.node id).isEditable = true := (List.mem_filter.mp member).2

theorem redirected_redirect (redirection : Redirection) (linked : tree.Linked) :
    (redirection.redirect tree).1 =
        { redirection with count := (redirection.ledger tree).length } ∧
      ∃ blocks, Redirected redirection tree (redirection.redirect tree).2
        (redirection.ledger tree) blocks := by
  have once : tree.editableNodes.Nodup := (nodup_preorder linked linked.filled).filter _
  have inStep := runInStep_foldl redirection linked (fun _ member => editable_of_mem member) once
  unfold redirect
  simp only
  generalize tree.editableNodes.foldl redirectNode _ = run at inStep
  have filled := fun block (member : block ∈ run.blocks) => inStep.declares_iff member
  have putDown := putDown_foldl (inStep.linked linked) fun block member =>
    inStep.lt_size_of_declares linked member
  generalize run.blocks.foldl placeBlock run.tree = after at putDown
  refine ⟨inStep.counted, (run.blocks.filter RedirectionBlock.declares).map RedirectionBlock.id, ?_⟩
  constructor
  case linked => exact putDown.linked
  case size => rw [putDown.size, inStep.size, List.length_map]
  case unlinked =>
    intro id known
    rw [putDown.unlinked id (inStep.size ▸ known)]
    exact congrArg Node.unlinked (inStep.kept id)
  case parent =>
    intro id known
    rw [putDown.parent id (inStep.size ▸ known)]
    exact inStep.property Node.parent (fun _ => rfl) id
  case code =>
    intro id member
    have known := ((mem_preorder linked linked.filled).mp (List.mem_filter.mp member).1).1
    rw [putDown.property Node.body (fun _ => rfl) (inStep.size ▸ known)]
    exact inStep.told id member _ List.prefix_rfl
  case other =>
    intro id known unmet
    rw [← inStep.unseen id unmet]
    exact putDown.property Node.body (fun _ => rfl) (inStep.size ▸ known)
  case room =>
    intro id known
    rw [← inStep.placement (fun _ member => editable_of_mem member) id]
    exact placement?_congr (putDown.property Node.kind (fun _ => rfl) (inStep.size ▸ known))
      (putDown.opening id (inStep.size ▸ known))
  case added =>
    intro number id here
    obtain ⟨block, found, rfl⟩ := Option.map_eq_some_iff.mp (List.getElem?_map .. ▸ here)
    obtain ⟨line, text, above⟩ := putDown.added number block found
    have among := List.mem_of_getElem? found
    rw [inStep.size, (inStep.blocks block (List.mem_filter.mp among).1).1.assignments] at text
    exact ⟨line, text, inStep.size ▸ above⟩
  case once => exact inStep.once.sublist (List.filter_sublist.map _)
  case declares =>
    intro id
    constructor
    · intro member
      obtain ⟨block, among, rfl⟩ := List.mem_map.mp member
      obtain ⟨known, declares⟩ := List.mem_filter.mp among
      exact (filled block known).mp declares
    · intro some
      obtain ⟨⟨number, reference⟩, among⟩ := List.exists_mem_of_ne_nil _ some
      have entry := inStep.entered _ (List.mem_of_getElem? (Ledger.mem_ofBlock.mp among))
      obtain ⟨block, known, rfl⟩ := List.mem_map.mp entry
      exact List.mem_map_of_mem (List.mem_filter.mpr ⟨known, (filled block known).mpr some⟩)

end Redirection
end PhpWeave
