import Mathlib.Data.List.Induction
import PhpWeave.Proofs.Weave.Ledger

set_option autoImplicit false

/-!
The run of a redirection over a file. Whether a block has room for assignments depends on tags
alone, which no run changes, so it can be asked of the tree the run began with. From node to node a
run keeps in step with the ledger of the nodes it has met.
-/

namespace PhpWeave

open PhpWeave.Tree

def Node.opening? (node : Node) : Option Bool :=
  if node.isTag && ['<', '?'].isPrefixOf node.body then some (['<', '?', '='].isPrefixOf node.body)
  else none

def Node.unbodied (node : Node) : Node := { node with body := [] }

theorem Node.opening?_of_isEditable {node : Node} (editable : node.isEditable = true) :
    node.opening? = none := by
  have plain : node.isTag = false := by
    simp only [isEditable, Bool.and_eq_true] at editable
    have fixed : node.flags ≠ Flags.fixedCode := by
      intro same
      rw [same] at editable
      exact absurd editable.2 (by decide)
    simp [isTag, fixed]
  rw [opening?, plain]
  rfl

namespace Redirection

private theorem bind_findIdx? {α : Type} (p q : α → Bool) (found : Nat → Nat) (list : List α) :
    ((list.findIdx? p).bind fun first =>
      if (list[first]?.map q).getD false then none else some (found first)).isSome =
      ((list.findSome? fun one => if p one then some (q one) else none) == some false) := by
  induction list generalizing found with
  | nil => rfl
  | cons one list ih =>
      rw [List.findIdx?_cons, List.findSome?_cons]
      cases isOne : p one with
      | true =>
          cases prints : q one <;> simp [prints]
      | false =>
          have later := ih fun first => found (first + 1)
          cases rest : list.findIdx? p with
          | none => simpa [rest] using later
          | some first => simpa [rest] using later

theorem placement?_isSome (tree : Tree) (block : Nat) : (placement? tree block).isSome =
    match (tree.node block).kind with
    | .function | .scope => true
    | _ => (tree.children block).findSome? (fun id => (tree.node id).opening?) == some false := by
  unfold placement?
  cases kind : (tree.node block).kind <;> first | rfl | exact bind_findIdx? _ _ _ _

theorem placement?_congr {tree other : Tree} {block : Nat}
    (kind : (other.node block).kind = (tree.node block).kind)
    (opening : (other.children block).findSome? (fun id => (other.node id).opening?) =
      (tree.children block).findSome? fun id => (tree.node id).opening?) :
    (placement? other block).isSome = (placement? tree block).isSome := by
  rw [placement?_isSome, placement?_isSome, kind, opening]

/-! ### What a run is to do -/

/-- The block that the references of a node belong to, when it has room for assignments. -/
def hostOf? (tree : Tree) (id : Nat) : Option Nat :=
  (tree.parent? id).filter fun parent =>
    hostsCode (tree.node parent).kind && (placement? tree parent).isSome

/-- The tokens of a code, under the imports that it sees, with the references that they are. -/
def entriesOf (redirection : Redirection) (imports : ImportTable) (code : Text) :
    List (Token × Option Reference) :=
  (Fragment.tokens code).toList.zip
    (Reference.ofTokens redirection.reserved imports (Fragment.tokens code))

def entries (redirection : Redirection) (tree : Tree) (id : Nat) :
    List (Token × Option Reference) :=
  redirection.entriesOf (redirection.importsFor tree id) (tree.node id).body

def enterNode (redirection : Redirection) (tree : Tree) (ledger : Ledger) (id : Nat) : Ledger :=
  match hostOf? tree id with
  | none => ledger
  | some block =>
    ((redirection.entries tree id).filterMap Prod.snd).foldl (Ledger.enter block) ledger

/-- The ledger of a run over some nodes. -/
def ledgerOf (redirection : Redirection) (tree : Tree) (ids : List Nat) : Ledger :=
  ids.foldl (redirection.enterNode tree) []

def written (redirection : Redirection) (tree : Tree) (ledger : Ledger) (id : Nat) : Text :=
  match hostOf? tree id with
  | none => (tree.node id).body
  | some block => (redirection.entries tree id).flatMap (redirection.putWith ledger block)

variable {redirection : Redirection} {tree : Tree} {seen : List Nat} {run : Run} {id : Nat}
  {ledger later : Ledger}

theorem ledgerOf_snoc (seen : List Nat) (id : Nat) : redirection.ledgerOf tree (seen ++ [id]) =
    redirection.enterNode tree (redirection.ledgerOf tree seen) id := by
  rw [ledgerOf, List.foldl_append]
  rfl

theorem prefix_enterNode (ledger : Ledger) (id : Nat) :
    ledger <+: redirection.enterNode tree ledger id := by
  unfold enterNode
  split
  · exact List.prefix_rfl
  · exact Ledger.prefix_foldl_enter _ _ _

theorem hostOf?_eq_some {block : Nat} (host : hostOf? tree id = some block) :
    tree.parent? id = some block ∧ hostsCode (tree.node block).kind = true ∧
      (placement? tree block).isSome = true := by
  obtain ⟨link, both⟩ := Option.filter_eq_some_iff.mp host
  exact ⟨link, Bool.and_eq_true_iff.mp both⟩

/-- Whatever the ledger of a run has comes from a node of the run. -/
theorem mem_ledgerOf {entry : Nat × Reference} (member : entry ∈ redirection.ledgerOf tree seen) :
    ∃ id ∈ seen, hostOf? tree id = some entry.1 ∧
      ∃ token, (token, some entry.2) ∈ redirection.entries tree id := by
  induction seen using List.reverseRecOn with
  | nil => cases member
  | append_singleton seen id ih =>
      have before (old : entry ∈ redirection.ledgerOf tree seen) :
          ∃ other ∈ seen ++ [id], hostOf? tree other = some entry.1 ∧
            ∃ token, (token, some entry.2) ∈ redirection.entries tree other := by
        obtain ⟨other, among, found⟩ := ih old
        exact ⟨other, List.mem_append_left _ among, found⟩
      rw [ledgerOf_snoc, enterNode] at member
      split at member
      · exact before member
      · next block host =>
          rcases Ledger.mem_foldl_enter member with old | ⟨here, isNew⟩
          · exact before old
          · obtain ⟨⟨token, choice⟩, among, isOne⟩ := List.mem_filterMap.mp isNew
            cases isOne
            exact ⟨id, by simp, here ▸ host, token, among⟩

/-- The references of a node of the run are in the ledger. -/
theorem any_ledgerOf {block : Nat} {token : Token} {reference : Reference} (member : id ∈ seen)
    (host : hostOf? tree id = some block)
    (isOne : (token, some reference) ∈ redirection.entries tree id) :
    (redirection.ledgerOf tree seen).any (Ledger.serves block reference) = true := by
  induction seen using List.reverseRecOn with
  | nil => cases member
  | append_singleton seen last ih =>
      rw [ledgerOf_snoc]
      rcases List.mem_append.mp member with old | new
      · exact Ledger.any_of_prefix (ih old) (prefix_enterNode _ _)
      · rw [← List.mem_singleton.mp new, enterNode, host]
        exact Ledger.any_foldl_enter (List.mem_filterMap.mpr ⟨_, isOne, rfl⟩)

theorem distinct_ledgerOf (seen : List Nat) : (redirection.ledgerOf tree seen).Distinct := by
  have entering (block : Nat) (references : List Reference) {ledger : Ledger}
      (distinct : ledger.Distinct) : (references.foldl (Ledger.enter block) ledger).Distinct :=
    List.foldlRecOn references (Ledger.enter block) (motive := Ledger.Distinct) distinct
      fun _ distinct _ _ => distinct.enter _ _
  refine List.foldlRecOn seen _ (motive := Ledger.Distinct) List.Pairwise.nil
    fun ledger distinct id _ => ?_
  unfold enterNode
  split
  · exact distinct
  · exact entering _ _ distinct

/-! ### Blocks -/

theorem map_id_putBlock (block : RedirectionBlock) (blocks : List RedirectionBlock) :
    (putBlock block blocks).map RedirectionBlock.id =
      if block.id ∈ blocks.map RedirectionBlock.id then blocks.map RedirectionBlock.id
      else blocks.map RedirectionBlock.id ++ [block.id] := by
  induction blocks with
  | nil => rfl
  | cons other blocks ih =>
      rw [putBlock]
      by_cases same : other.id = block.id
      · simp [same]
      · rw [if_neg same, List.map_cons, ih, List.map_cons]
        by_cases later : block.id ∈ blocks.map RedirectionBlock.id
        · rw [if_pos later, if_pos (List.mem_cons_of_mem _ later)]
        · rw [if_neg later, if_neg (List.not_mem_cons_of_ne_of_not_mem (Ne.symm same) later)]
          rfl

theorem nodup_putBlock (block : RedirectionBlock) {blocks : List RedirectionBlock}
    (once : (blocks.map RedirectionBlock.id).Nodup) :
    ((putBlock block blocks).map RedirectionBlock.id).Nodup := by
  rw [map_id_putBlock]
  split
  · exact once
  · next apart =>
      refine List.nodup_append.mpr ⟨once, List.nodup_singleton _, ?_⟩
      intro id member other isNew same
      rw [same, List.mem_singleton.mp isNew] at member
      exact apart member

theorem mem_putBlock_of_nodup {block other : RedirectionBlock} {blocks : List RedirectionBlock}
    (once : (blocks.map RedirectionBlock.id).Nodup) (member : other ∈ putBlock block blocks) :
    other = block ∨ other ∈ blocks ∧ other.id ≠ block.id := by
  induction blocks with
  | nil => exact .inl (List.mem_singleton.mp member)
  | cons first rest ih =>
      obtain ⟨apart, later⟩ := List.nodup_cons.mp once
      rw [putBlock] at member
      split at member
      · next same =>
          rcases List.mem_cons.mp member with rfl | among
          · exact .inl rfl
          · refine .inr ⟨List.mem_cons_of_mem _ among, fun here => apart ?_⟩
            exact same.trans here.symm ▸ List.mem_map_of_mem among
      · next different =>
          rcases List.mem_cons.mp member with rfl | among
          · exact .inr ⟨List.mem_cons_self, different⟩
          · exact (ih later among).imp_right (And.imp_left (List.mem_cons_of_mem _))

/-! ### Steps -/

/-- A run that has met some nodes of a tree and keeps in step with their ledger. -/
structure RunInStep (redirection : Redirection) (tree : Tree) (seen : List Nat) (run : Run) :
    Prop where
  counted : run.redirection =
    { redirection with count := (redirection.ledgerOf tree seen).length }
  size : run.tree.size = tree.size
  kept : ∀ id : Nat, (run.tree.node id).unbodied = (tree.node id).unbodied
  unseen : ∀ id : Nat, id ∉ seen → run.tree.node id = tree.node id
  told : ∀ id ∈ seen, ∀ later : Ledger, redirection.ledgerOf tree seen <+: later →
    (run.tree.node id).body = redirection.written tree later id
  once : (run.blocks.map RedirectionBlock.id).Nodup
  blocks : ∀ block ∈ run.blocks, InStep redirection (redirection.ledgerOf tree seen) block ∧
    block.index.isSome = (placement? tree block.id).isSome
  entered : ∀ entry ∈ redirection.ledgerOf tree seen,
    entry.1 ∈ run.blocks.map RedirectionBlock.id

theorem RunInStep.property (inStep : RunInStep redirection tree seen run) {α : Type}
    (property : Node → α) (each : ∀ node, property node.unbodied = property node) (id : Nat) :
    property (run.tree.node id) = property (tree.node id) := by
  rw [← each, inStep.kept, each]

theorem RunInStep.opening (inStep : RunInStep redirection tree seen run)
    (editable : ∀ id ∈ seen, (tree.node id).isEditable = true) (id : Nat) :
    (run.tree.node id).opening? = (tree.node id).opening? := by
  by_cases met : id ∈ seen
  · have same := inStep.property Node.isEditable (fun _ => rfl) id
    rw [Node.opening?_of_isEditable (editable id met),
      Node.opening?_of_isEditable (same.trans (editable id met))]
  · rw [inStep.unseen id met]

theorem RunInStep.placement (inStep : RunInStep redirection tree seen run)
    (editable : ∀ id ∈ seen, (tree.node id).isEditable = true) (block : Nat) :
    (placement? run.tree block).isSome = (placement? tree block).isSome := by
  refine placement?_congr (inStep.property Node.kind (fun _ => rfl) block) ?_
  rw [children, inStep.property Node.children fun _ => rfl,
    funext fun id => inStep.opening editable id]
  rfl

theorem RunInStep.blockOf (inStep : RunInStep redirection tree seen run)
    (editable : ∀ id ∈ seen, (tree.node id).isEditable = true) (id : Nat) :
    InStep redirection (redirection.ledgerOf tree seen) (Redirection.blockOf run id) ∧
      (Redirection.blockOf run id).id = id ∧
      (Redirection.blockOf run id).index.isSome = (placement? tree id).isSome := by
  unfold Redirection.blockOf
  cases found : run.blocks.find? fun block => block.id = id with
  | some block =>
      have isOne := List.find?_some found
      have here : block.id = id := of_decide_eq_true isOne
      obtain ⟨step, room⟩ := inStep.blocks block (List.mem_of_find?_eq_some found)
      exact ⟨step, here, here ▸ room⟩
  | none =>
      have absent : (redirection.ledgerOf tree seen).ofBlock id = [] := by
        refine List.eq_nil_iff_forall_not_mem.mpr fun ⟨number, reference⟩ member => ?_
        have entry := inStep.entered _ (List.mem_of_getElem? (Ledger.mem_ofBlock.mp member))
        obtain ⟨block, among, same⟩ := List.mem_map.mp entry
        exact absurd (decide_eq_true same) (List.find?_eq_none.mp found block among)
      have fresh : InStep redirection (redirection.ledgerOf tree seen)
          ⟨id, placement? run.tree id, [], []⟩ := by
        constructor <;> simp only [absent, List.map_nil]
      exact ⟨fresh, rfl, inStep.placement editable id⟩

/-- One node more: its block holds what the ledger says after it, and its text is written. -/
theorem RunInStep.snoc (inStep : RunInStep redirection tree seen run) (fresh : id ∉ seen)
    {block : RedirectionBlock} (after : Tree)
    (step : InStep redirection (redirection.ledgerOf tree (seen ++ [id])) block)
    (room : block.index.isSome = (placement? tree block.id).isSome)
    (others : ∀ other, other ≠ block.id →
      (redirection.ledgerOf tree (seen ++ [id])).ofBlock other =
        (redirection.ledgerOf tree seen).ofBlock other)
    (entered : ∀ entry ∈ redirection.ledgerOf tree (seen ++ [id]),
      entry ∈ redirection.ledgerOf tree seen ∨ entry.1 = block.id)
    (size : after.size = run.tree.size)
    (elsewhere : ∀ other, other ≠ id → after.node other = run.tree.node other)
    (kept : (after.node id).unbodied = (run.tree.node id).unbodied)
    (text : ∀ later : Ledger, redirection.ledgerOf tree (seen ++ [id]) <+: later →
      (after.node id).body = redirection.written tree later id) :
    RunInStep redirection tree (seen ++ [id])
      ⟨{ redirection with count := (redirection.ledgerOf tree (seen ++ [id])).length }, after,
        putBlock block run.blocks⟩ where
  counted := rfl
  size := size.trans inStep.size
  kept := by
    intro other
    by_cases same : other = id
    · rw [same]
      exact kept.trans (inStep.kept id)
    · rw [elsewhere other same]
      exact inStep.kept other
  unseen := by
    intro other unmet
    obtain ⟨notSeen, notHere⟩ := not_or.mp fun either => unmet (List.mem_append.mpr either)
    rw [elsewhere other fun same => notHere (List.mem_singleton.mpr same)]
    exact inStep.unseen other notSeen
  told := by
    intro other met later more
    rcases List.mem_append.mp met with old | new
    · rw [elsewhere other fun same => fresh (same ▸ old)]
      refine inStep.told other old later (List.IsPrefix.trans ?_ more)
      rw [ledgerOf_snoc]
      exact prefix_enterNode _ _
    · rw [List.mem_singleton.mp new]
      exact text later more
  once := nodup_putBlock block inStep.once
  blocks := by
    intro other member
    rcases mem_putBlock_of_nodup inStep.once member with rfl | ⟨old, apart⟩
    · exact ⟨step, room⟩
    · obtain ⟨otherStep, otherRoom⟩ := inStep.blocks other old
      exact ⟨otherStep.congr (others other.id apart), otherRoom⟩
  entered := by
    intro entry member
    rw [map_id_putBlock]
    rcases entered entry member with old | here
    · have known := inStep.entered entry old
      split
      · exact known
      · exact List.mem_append_left _ known
    · rw [here]
      split
      · assumption
      · simp

theorem enterNode_of_no_host (host : hostOf? tree id = none) :
    redirection.enterNode tree ledger id = ledger := by
  rw [enterNode, host]

theorem RunInStep.skip (inStep : RunInStep redirection tree seen run) (fresh : id ∉ seen)
    (host : hostOf? tree id = none) : RunInStep redirection tree (seen ++ [id]) run := by
  have same : redirection.ledgerOf tree (seen ++ [id]) = redirection.ledgerOf tree seen := by
    rw [ledgerOf_snoc, enterNode_of_no_host host]
  constructor
  case counted => rw [same, ← inStep.counted]
  case size => exact inStep.size
  case kept => exact inStep.kept
  case unseen =>
    exact fun other unmet => inStep.unseen other fun met => unmet (List.mem_append_left _ met)
  case told =>
    intro other met later more
    rw [same] at more
    rcases List.mem_append.mp met with old | new
    · exact inStep.told other old later more
    · rw [List.mem_singleton.mp new, inStep.unseen id fresh, written, host]
  case once => exact inStep.once
  case blocks =>
    rw [same]
    exact inStep.blocks
  case entered =>
    rw [same]
    exact inStep.entered

theorem filterMap_of_plain {entries : List (Token × Option Reference)}
    (plain : ∀ entry ∈ entries, entry.2 = none) : entries.filterMap Prod.snd = [] :=
  List.filterMap_eq_nil_iff.mpr plain

theorem fst_entries (redirection : Redirection) (tree : Tree) (id : Nat) :
    (redirection.entries tree id).map Prod.fst =
      (Fragment.tokens (tree.node id).body).toList :=
  List.map_fst_zip (Nat.le_of_eq (length_ofTokens _ _ _).symm)

theorem flatMap_of_plain {block : Nat}
    (plain : ∀ entry ∈ redirection.entries tree id, entry.2 = none) :
    (redirection.entries tree id).flatMap (redirection.putWith ledger block) =
      (tree.node id).body := by
  have spelled : Token.textOf ((redirection.entries tree id).map Prod.fst) =
      (tree.node id).body := by
    rw [fst_entries, Fragment.textOf_tokens]
  rw [← spelled, Token.textOf, List.flatMap_map, List.flatMap_def, List.flatMap_def]
  congr 1
  apply List.map_congr_left
  intro entry member
  rw [putWith, plain entry member]
  rfl

theorem RunInStep.note (inStep : RunInStep redirection tree seen run) (fresh : id ∉ seen)
    {block : RedirectionBlock} (step : InStep redirection (redirection.ledgerOf tree seen) block)
    (room : block.index.isSome = (placement? tree block.id).isSome)
    (same : redirection.ledgerOf tree (seen ++ [id]) = redirection.ledgerOf tree seen)
    (plain : ∀ later : Ledger, redirection.written tree later id = (tree.node id).body) :
    RunInStep redirection tree (seen ++ [id])
      { run with blocks := putBlock block run.blocks } := by
  have more := inStep.snoc fresh run.tree (same ▸ step) room
    (fun other _ => by rw [same]) (fun entry member => .inl (same ▸ member)) rfl
    (fun _ _ => rfl) rfl fun later _ => by rw [plain, inStep.unseen id fresh]
  rw [same, ← inStep.counted] at more
  exact more

theorem RunInStep.importsFor (inStep : RunInStep redirection tree seen run) (id : Nat) :
    run.redirection.importsFor run.tree id = redirection.importsFor tree id := by
  rw [inStep.counted, Redirection.importsFor, Redirection.importsFor]
  congr 1
  rw [Tree.importsFor, Tree.importsFor, Tree.importScope, Tree.importScope,
    inStep.property Node.imports fun _ => rfl, inStep.property Node.kind fun _ => rfl,
    inStep.property Node.scope fun _ => rfl]

/-- A node of a block with room: its references enter the ledger, and variables are put down. -/
theorem RunInStep.put (inStep : RunInStep redirection tree seen run) (inside : id < tree.size)
    (fresh : id ∉ seen) {parent : Nat} (host : hostOf? tree id = some parent)
    {block : RedirectionBlock} (here : block.id = parent)
    (step : InStep redirection (redirection.ledgerOf tree seen) block)
    (room : block.index.isSome = (placement? tree block.id).isSome) :
    RunInStep redirection tree (seen ++ [id])
      { redirection := (run.redirection.putAll block (redirection.entries tree id)).2.1
        tree := run.tree.update id fun node =>
          { node with body := (run.redirection.putAll block (redirection.entries tree id)).1 }
        blocks := putBlock (run.redirection.putAll block (redirection.entries tree id)).2.2
          run.blocks } := by
  have recounted : InStep run.redirection (redirection.ledgerOf tree seen) block := by
    rw [inStep.counted]
    exact ⟨step.allotted, step.assignments⟩
  obtain ⟨allots, text⟩ := putAll_inStep (by rw [inStep.counted]) recounted
    (redirection.entries tree id)
  have after : redirection.ledgerOf tree (seen ++ [id]) =
      ((redirection.entries tree id).filterMap Prod.snd).foldl (Ledger.enter block.id)
        (redirection.ledgerOf tree seen) := by
    rw [ledgerOf_snoc, enterNode, host, here]
  have puts : run.redirection.putWith = redirection.putWith := by
    rw [inStep.counted]
    rfl
  rw [← after, puts] at text
  rw [← after] at allots
  have known : id < run.tree.size := by
    rw [inStep.size]
    exact inside
  have stepped : InStep redirection (redirection.ledgerOf tree (seen ++ [id]))
      (run.redirection.putAll block (redirection.entries tree id)).2.2 := by
    have stepped := allots.inStep
    rw [inStep.counted] at stepped ⊢
    exact ⟨stepped.allotted, stepped.assignments⟩
  have more := inStep.snoc fresh (run.tree.update id fun node =>
      { node with body := (run.redirection.putAll block (redirection.entries tree id)).1 }) stepped
    (by rw [allots.index, allots.id, room])
    (fun other apart => by
      rw [after]
      exact Ledger.ofBlock_foldl_enter_of_ne (fun same => apart (allots.id ▸ same.symm)) _)
    (fun entry member => (Ledger.mem_foldl_enter (after ▸ member)).imp_right fun found =>
      allots.id ▸ found.1)
    (size_update _ _) (fun other apart => node_update_of_ne apart _)
    (by rw [node_update_self known]; rfl)
    fun later longer => by
      rw [node_update_self known, written, host, ← here]
      exact text later longer
  have counted : (run.redirection.putAll block (redirection.entries tree id)).2.1 =
      { redirection with count := (redirection.ledgerOf tree (seen ++ [id])).length } := by
    rw [allots.counted, inStep.counted]
  rw [counted]
  exact more

theorem RunInStep.redirectNode (linked : tree.Linked) (inStep : RunInStep redirection tree seen run)
    (editable : ∀ id ∈ seen, (tree.node id).isEditable = true) (fresh : id ∉ seen) :
    RunInStep redirection tree (seen ++ [id]) (Redirection.redirectNode run id) := by
  have link : run.tree.parent? id = tree.parent? id := inStep.property Node.parent (fun _ => rfl) id
  unfold Redirection.redirectNode
  rw [link]
  cases up : tree.parent? id with
  | none => exact inStep.skip fresh (by rw [hostOf?, up]; rfl)
  | some parent =>
      have kind := inStep.property Node.kind (fun _ => rfl) parent
      obtain ⟨step, here, room⟩ := inStep.blockOf editable parent
      have asks : hostOf? tree id = if hostsCode (tree.node parent).kind &&
          (Redirection.blockOf run parent).index.isSome then some parent else none := by
        rw [hostOf?, up, Option.filter_some, room]
      simp only [kind]
      split
      · next hosts =>
          rw [hosts, Bool.true_and] at asks
          have roomy : (Redirection.blockOf run parent).index.isSome =
              (placement? tree (Redirection.blockOf run parent).id).isSome := by
            rw [here]
            exact room
          cases index : (Redirection.blockOf run parent).index with
          | none =>
              have host : hostOf? tree id = none := by
                rw [asks, index]
                rfl
              exact inStep.note fresh step roomy
                (by rw [ledgerOf_snoc, enterNode_of_no_host host])
                fun later => by rw [written, host]
          | some place =>
              have host : hostOf? tree id = some parent := by
                rw [asks, index]
                rfl
              have reserved : run.redirection.reserved = redirection.reserved := by
                rw [inStep.counted]
              simp only [inStep.unseen id fresh, inStep.importsFor, reserved]
              split
              · exact inStep.put (linked.lt_size up).2 fresh host here step roomy
              · next unasked =>
                  have plain : ∀ entry ∈ redirection.entries tree id, entry.2 = none := by
                    intro entry member
                    have among := (List.of_mem_zip member).2
                    have unmarked := List.any_eq_false.mp (eq_false_of_ne_true unasked) _ among
                    exact Option.not_isSome_iff_eq_none.mp unmarked
                  refine inStep.note fresh step roomy ?_ fun later => ?_
                  · rw [ledgerOf_snoc, enterNode, host, filterMap_of_plain plain]
                    rfl
                  · rw [written, host]
                    exact flatMap_of_plain plain
      · next hosts =>
          rw [eq_false_of_ne_true hosts, Bool.false_and] at asks
          exact inStep.skip fresh asks

end Redirection
end PhpWeave
