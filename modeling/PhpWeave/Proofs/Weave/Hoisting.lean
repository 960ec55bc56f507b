import PhpWeave.Proofs.Weave.Head
import PhpWeave.Proofs.Weave.Renaming

set_option autoImplicit false

/-!
Where assignments go. A block keeps the place that its head has in the tree before the run: a run
asks for it when it first comes to code of the block, and no code of the block has been edited then.
So the assignments stand directly behind the head, where a statement begins, and in front of
everything that refers to what they declare, unless a directive is cut short or refers to something
itself.
-/

namespace PhpWeave

open Scan Lexeme PhpWeave.Tree

namespace Redirection

/-! ### The places of blocks -/

variable {redirection : Redirection} {tree other : Tree} {seen : List Nat} {run : Run}

theorem afterLeading_congr {ids : List Nat} (same : ∀ id ∈ ids, other.node id = tree.node id)
    (next found : Nat) :
    afterLeading other ids next found = afterLeading tree ids next found := by
  induction ids generalizing next found with
  | nil => rfl
  | cons id ids ih =>
      obtain ⟨here, later⟩ := List.forall_mem_cons.mp same
      have leads : isLeading other id = isLeading tree id := by
        rw [isLeading, isLeading, isDirective, isDirective, here]
      have fills : isFiller other id = isFiller tree id := by
        rw [isFiller, isFiller, here]
      rw [afterLeading, afterLeading, leads, fills, ih later, ih later]

theorem placement?_of_children {block : Nat}
    (kind : (other.node block).kind = (tree.node block).kind)
    (children : other.children block = tree.children block)
    (same : ∀ id ∈ tree.children block, other.node id = tree.node id) :
    placement? other block = placement? tree block := by
  have nodes : (tree.children block).map other.node = (tree.children block).map tree.node :=
    List.map_congr_left same
  have first : (tree.children block).findIdx? other.isOpening =
      (tree.children block).findIdx? tree.isOpening := by
    have found := congrArg (List.findIdx? fun node =>
      node.isTag && ['<', '?'].isPrefixOf node.body) nodes
    rwa [List.findIdx?_map, List.findIdx?_map] at found
  unfold placement?
  rw [kind, children]
  split
  · rfl
  · exact congrArg some (afterLeading_congr same 0 0)
  · refine (congrArg (Option.bind · _) first).trans ?_
    refine Option.bind_congr fun index found => ?_
    have prints : ((tree.children block)[index]?.map fun id =>
        ['<', '?', '='].isPrefixOf (other.node id).body) =
        (tree.children block)[index]?.map fun id =>
          ['<', '?', '='].isPrefixOf (tree.node id).body := by
      cases here : (tree.children block)[index]? with
      | none => rfl
      | some id => rw [Option.map_some, Option.map_some, same id (List.mem_of_getElem? here)]
    simp only [prints, afterLeading_congr fun id member => same id (List.mem_of_mem_drop member)]

/-- The blocks of a run have the places that the tree gives them, and every block that a node seen
belongs to is among them. -/
structure Entered (tree : Tree) (seen : List Nat) (run : Run) : Prop where
  index : ∀ block ∈ run.blocks, block.index = placement? tree block.id
  known : ∀ id ∈ seen, ∀ parent, tree.parent? id = some parent →
    hostsCode (tree.node parent).kind = true → parent ∈ run.blocks.map RedirectionBlock.id

theorem place_allot (redirection : Redirection) (block : RedirectionBlock)
    (reference : Reference) :
    (redirection.allot block reference).2.2.id = block.id ∧
      (redirection.allot block reference).2.2.index = block.index := by
  unfold allot
  split <;> exact ⟨rfl, rfl⟩

theorem place_putAll (redirection : Redirection) (block : RedirectionBlock)
    (entries : List (Token × Option Reference)) :
    (redirection.putAll block entries).2.2.id = block.id ∧
      (redirection.putAll block entries).2.2.index = block.index := by
  induction entries generalizing redirection block with
  | nil => exact ⟨rfl, rfl⟩
  | cons entry entries ih =>
      obtain ⟨token, choice⟩ := entry
      cases choice with
      | none => exact ih redirection block
      | some reference =>
          obtain ⟨id, index⟩ := place_allot redirection block reference
          obtain ⟨laterId, laterIndex⟩ := ih (redirection.allot block reference).2.1
            (redirection.allot block reference).2.2
          exact ⟨laterId.trans id, laterIndex.trans index⟩

theorem Entered.blockOf (entered : Entered tree seen run) (linked : tree.Linked)
    (inStep : RunInStep redirection tree seen run) {id : Nat}
    (hosts : hostsCode (tree.node id).kind = true) :
    (Redirection.blockOf run id).id = id ∧
      (Redirection.blockOf run id).index = placement? tree id := by
  unfold Redirection.blockOf
  cases found : run.blocks.find? fun block => block.id = id with
  | some block =>
      have isOne := List.find?_some found
      have here : block.id = id := of_decide_eq_true isOne
      exact ⟨here, here ▸ entered.index block (List.mem_of_find?_eq_some found)⟩
  | none =>
      have unmet (child : Nat) (isChild : child ∈ tree.children id) : child ∉ seen := by
        intro met
        obtain ⟨block, among, same⟩ := List.mem_map.mp
          (entered.known child met id ((linked.parent_iff child id).mpr isChild) hosts)
        exact List.find?_eq_none.mp found block among (decide_eq_true same)
      exact ⟨rfl, placement?_of_children (inStep.property Node.kind (fun _ => rfl) id)
        (inStep.property Node.children (fun _ => rfl) id)
        fun child isChild => inStep.unseen child (unmet child isChild)⟩

theorem Entered.put (entered : Entered tree seen run)
    (once : (run.blocks.map RedirectionBlock.id).Nodup) {id parent : Nat}
    (up : tree.parent? id = some parent) {block : RedirectionBlock} (here : block.id = parent)
    (index : block.index = placement? tree parent) {after : Run}
    (blocks : after.blocks = putBlock block run.blocks) : Entered tree (seen ++ [id]) after where
  index := by
    intro one member
    rw [blocks] at member
    rcases mem_putBlock_of_nodup once member with rfl | ⟨old, -⟩
    · rw [here]
      exact index
    · exact entered.index one old
  known := by
    intro one met above link hosts
    rw [blocks, map_id_putBlock]
    rcases List.mem_append.mp met with old | new
    · have known := entered.known one old above link hosts
      split
      · exact known
      · exact List.mem_append_left _ known
    · rw [List.mem_singleton.mp new, up, Option.some.injEq] at link
      rw [← link, here]
      split
      · assumption
      · exact List.mem_append_right _ List.mem_cons_self

theorem Entered.skip (entered : Entered tree seen run) {id : Nat}
    (noHost : ∀ parent, tree.parent? id = some parent →
      hostsCode (tree.node parent).kind = false) : Entered tree (seen ++ [id]) run where
  index := entered.index
  known := by
    intro one met above link hosts
    rcases List.mem_append.mp met with old | new
    · exact entered.known one old above link hosts
    · rw [List.mem_singleton.mp new] at link
      rw [noHost above link] at hosts
      cases hosts

theorem Entered.redirectNode (entered : Entered tree seen run) (linked : tree.Linked)
    (inStep : RunInStep redirection tree seen run) (id : Nat) :
    Entered tree (seen ++ [id]) (Redirection.redirectNode run id) := by
  have link : run.tree.parent? id = tree.parent? id := inStep.property Node.parent (fun _ => rfl) id
  unfold Redirection.redirectNode
  rw [link]
  cases up : tree.parent? id with
  | none =>
      refine entered.skip fun parent above => ?_
      rw [up] at above
      cases above
  | some parent =>
      simp only [inStep.property Node.kind (fun _ => rfl) parent]
      split
      · next hosts =>
          obtain ⟨here, index⟩ := entered.blockOf linked inStep hosts
          have noted := entered.put inStep.once up here index
            (show { run with blocks := putBlock (Redirection.blockOf run parent) run.blocks }.blocks =
              _ from rfl)
          split
          · exact noted
          · split
            · obtain ⟨sameId, sameIndex⟩ := place_putAll run.redirection
                (Redirection.blockOf run parent) _
              exact entered.put inStep.once up (sameId.trans here) (sameIndex.trans index) rfl
            · exact noted
      · next noHost =>
          refine entered.skip fun above isAbove => ?_
          rw [up, Option.some.injEq] at isAbove
          exact isAbove ▸ eq_false_of_ne_true noHost

theorem entered_foldl (redirection : Redirection) (linked : tree.Linked) {ids : List Nat}
    (editable : ∀ id ∈ ids, (tree.node id).isEditable = true) (once : ids.Nodup) :
    Entered tree ids
      (ids.foldl redirectNode ⟨{ redirection with count := 0 }, tree, []⟩) := by
  induction ids using List.reverseRecOn with
  | nil =>
      constructor
      case index => exact fun _ none => by cases none
      case known => exact fun _ none => by cases none
  | append_singleton ids id ih =>
      obtain ⟨early, -, -⟩ := List.nodup_append.mp once
      have earlier : ∀ one ∈ ids, (tree.node one).isEditable = true :=
        fun one member => editable one (List.mem_append_left _ member)
      rw [List.foldl_append]
      exact (ih earlier early).redirectNode linked
        (runInStep_foldl redirection linked earlier early) id

/-! ### The nodes put in -/

variable {before after : Tree}

structure Hoists (before after : Tree) (blocks : List RedirectionBlock) : Prop where
  elsewhere : ∀ id : Nat, id ∉ blocks.map RedirectionBlock.id →
    after.children id = before.children id
  here : ∀ (number : Nat) (block : RedirectionBlock), blocks[number]? = some block →
    after.children block.id = (before.children block.id).take (block.index.getD 0) ++
      (before.size + number) :: (before.children block.id).drop (block.index.getD 0)

/-- One block more. -/
theorem Hoists.snoc {blocks : List RedirectionBlock} (hoists : Hoists before after blocks)
    (putDown : PutDown before after blocks) {block : RedirectionBlock}
    (inside : block.id < before.size) (fresh : block.id ∉ blocks.map RedirectionBlock.id)
    {index : Nat} (place : block.index = some index) (node : Node) :
    Hoists before (after.insert block.id index node) (blocks ++ [block]) := by
  have around : block.id < after.size := by
    rw [putDown.size]
    exact Nat.lt_add_right _ inside
  have spliced := spliced_apply putDown.linked.ascending (.insert block.id index node) around
  constructor
  case elsewhere =>
    intro id apart
    rw [List.map_append, List.mem_append, not_or] at apart
    exact (spliced.children id fun same => apart.2 (List.mem_singleton.mpr same)).trans
      (hoists.elsewhere id apart.1)
  case here =>
    intro number other isOne
    rcases Nat.lt_or_ge number blocks.length with early | late
    · rw [List.getElem?_append_left early] at isOne
      have apart : other.id ≠ block.id := fun same =>
        fresh (same ▸ List.mem_map_of_mem (List.mem_of_getElem? isOne))
      exact (spliced.children other.id apart).trans (hoists.here number other isOne)
    · rw [List.getElem?_append_right late] at isOne
      have last : number = blocks.length := by
        have bound := (List.getElem?_eq_some_iff.mp isOne).1
        rw [List.length_singleton] at bound
        omega
      rw [last, Nat.sub_self] at isOne
      obtain rfl : block = other := Option.some.inj isOne
      have children := spliced.childrenAfter
      simp only [Splice.parent, Splice.index, Splice.gone?, Splice.added?, Option.toList_none,
        List.length_nil, Nat.add_zero, Option.map_some, Option.toList_some,
        List.singleton_append] at children
      rw [← List.take_eq_take_min, ← List.drop_eq_drop_min, hoists.elsewhere _ fresh,
        putDown.size, ← last] at children
      rw [place, Option.getD_some]
      exact children

theorem hoists_foldl (linked : before.Linked) {blocks : List RedirectionBlock}
    (inside : ∀ block ∈ blocks, block.declares = true → block.id < before.size)
    (once : (blocks.map RedirectionBlock.id).Nodup) :
    Hoists before (blocks.foldl placeBlock before) (blocks.filter RedirectionBlock.declares) := by
  induction blocks using List.reverseRecOn with
  | nil => exact ⟨fun _ _ => rfl, fun _ _ none => by cases none⟩
  | append_singleton blocks block ih =>
      have early : ∀ other ∈ blocks, other.declares = true → other.id < before.size :=
        fun other member => inside other (List.mem_append_left _ member)
      rw [List.map_append] at once
      obtain ⟨earlyOnce, -, apart⟩ := List.nodup_append.mp once
      have hoists := ih early earlyOnce
      rw [List.foldl_append, List.filter_append]
      change Hoists before (placeBlock (blocks.foldl placeBlock before) block) _
      cases declares : block.declares with
      | false =>
          rw [placeBlock_of_silent declares,
            List.filter_cons_of_neg (ne_true_of_eq_false declares), List.filter_nil,
            List.append_nil]
          exact hoists
      | true =>
          obtain ⟨index, line, place, placed⟩ :=
            placeBlock_of_declares declares (blocks.foldl placeBlock before)
          rw [placed, List.filter_cons_of_pos declares]
          refine hoists.snoc (putDown_foldl linked early)
            (inside block (List.mem_append_right _ List.mem_cons_self) declares)
            (fun member => ?_) place _
          obtain ⟨other, among, same⟩ := List.mem_map.mp member
          exact apart _ (List.mem_map_of_mem (List.mem_filter.mp among).1) _
            List.mem_cons_self same

/-- Every node that a redirection puts in stands behind the head of a block that code belongs to. -/
theorem hoisted_redirect (redirection : Redirection) (linked : tree.Linked) {new : Nat}
    (beyond : tree.size ≤ new) (inside : new < (redirection.redirect tree).2.size) :
    ∃ block back, (∃ id ∈ tree.editableNodes, hostOf? tree id = some block) ∧
      tree.children block = headOf tree block ++ back ∧
      (redirection.redirect tree).2.children block = headOf tree block ++ new :: back := by
  have editable : ∀ id ∈ tree.editableNodes, (tree.node id).isEditable = true :=
    fun id member => editable_of_mem member
  have once : tree.editableNodes.Nodup := (nodup_preorder linked linked.filled).filter _
  have inStep := runInStep_foldl redirection linked editable once
  have entered := entered_foldl redirection linked editable once
  unfold redirect at inside ⊢
  simp only at inside ⊢
  generalize tree.editableNodes.foldl redirectNode _ = run at inStep entered inside ⊢
  have known := fun block (member : block ∈ run.blocks) =>
    inStep.lt_size_of_declares linked member
  have putDown := putDown_foldl (inStep.linked linked) known
  have hoists := hoists_foldl (inStep.linked linked) known inStep.once
  obtain ⟨number, rfl⟩ := Nat.exists_eq_add_of_le beyond
  rw [putDown.size, inStep.size] at inside
  have short := Nat.lt_of_add_lt_add_left inside
  have found := List.getElem?_eq_getElem short
  generalize (run.blocks.filter RedirectionBlock.declares)[number] = block at found
  obtain ⟨among, declares⟩ := List.mem_filter.mp (List.mem_of_getElem? found)
  have children := hoists.here number block found
  have same : run.tree.children block.id = tree.children block.id :=
    inStep.property Node.children (fun _ => rfl) block.id
  rw [same, entered.index block among, inStep.size] at children
  exact ⟨block.id, _, host_of_ofBlock ((inStep.declares_iff among).mp declares),
    (List.take_append_drop _ _).symm, children⟩

/-- A node put in among the children of a block, behind those in front. -/
structure Hoisted (redirection : Redirection) (tree woven : Tree) (new block : Nat)
    (front back : List Nat) : Prop where
  parent : woven.parent? new = some block
  before : tree.children block = front ++ back
  after : woven.children block = front ++ new :: back
  /-- Where the directives in front of it are whole, the node stands where a statement begins. -/
  begins : (∀ id ∈ front, tree.isDirective id = true →
    Fragment.isWhole (tree.node id).body = true) → tree.StatementBegins block front
  /-- The code of the block with references stands behind the node, but for directives. -/
  uses : ∀ id ∈ tree.editableNodes, hostOf? tree id = some block →
    ∀ token reference, (token, some reference) ∈ redirection.entries tree id →
      id ∈ back ∨ id ∈ front ∧ tree.isDirective id = true
  /-- What stands in front of the node is as it was, but for directives. -/
  kept : ∀ id ∈ front, tree.isDirective id = false →
    (woven.node id).body = (tree.node id).body

/-- In a file that has a tree the assignments of a block come where a statement begins, and in front
of every use of the variables, unless a directive of the head is cut short or has a use in it. -/
theorem hoisting_of_parse {listLines : Bool} {source : Text} {tree : Tree}
    (parsed : parse listLines source = .ok tree) (redirection : Redirection) :
    ∀ new ∈ (redirection.redirect tree).2.injectedNodes, ∃ block front back,
      Hoisted redirection tree (redirection.redirect tree).2 new block front back := by
  intro new member
  have native := native_of_parse parsed
  have linked := native.linked
  obtain ⟨-, whole, -⟩ := made_of_parse parsed
  obtain ⟨-, blocks, redirected⟩ := redirected_redirect redirection linked
  obtain ⟨number, short, rfl⟩ := (redirected.mem_injectedNodes native whole).mp member
  have inside : tree.size + number < (redirection.redirect tree).2.size := by
    rw [redirected.size]
    exact Nat.add_lt_add_left short _
  obtain ⟨block, back, ⟨one, -, host⟩, children, grown⟩ :=
    hoisted_redirect redirection linked (Nat.le_add_right _ _) inside
  obtain ⟨up, hosts, room⟩ := hostOf?_eq_some host
  have filled : tree.children block ≠ [] :=
    List.ne_nil_of_mem ((linked.parent_iff one block).mp up)
  obtain ⟨index, placed⟩ := Option.isSome_iff_exists.mp room
  obtain ⟨opening, heads, headed⟩ := headed_of_placement placed
  refine ⟨block, headOf tree block, back, ?_, children, grown,
    headed.statementBegins parsed hosts filled, ?_, ?_⟩
  · exact (redirected.linked.parent_iff _ _).mpr (by rw [grown]; simp)
  · intro id editable under token reference refers
    have isChild := (linked.parent_iff id block).mp (hostOf?_eq_some under).1
    rw [children] at isChild
    rcases List.mem_append.mp isChild with inFront | behind
    · exact .inr ⟨inFront,
        headed.directive_of_mem parsed hosts inFront (editable_of_mem editable) refers⟩
    · exact .inl behind
  · intro id inFront noDirective
    have isChild : id ∈ tree.children block := children ▸ List.mem_append_left _ inFront
    by_cases editable : id ∈ tree.editableNodes
    · rw [redirected.code id editable, written]
      split
      · rfl
      · refine flatMap_of_plain fun entry among => ?_
        obtain ⟨token, choice⟩ := entry
        cases choice with
        | none => rfl
        | some reference =>
            rw [headed.directive_of_mem parsed hosts inFront (editable_of_mem editable) among]
              at noDirective
            cases noDirective
    · exact redirected.other id (linked.ascending.children block id isChild).2 editable

/-- A directive and an import in front of the code that asks. -/
theorem hoisting_of_parse_import :
    let source := "<?php declare(strict_types=1); use A\\B;\nnew B; f();\n".toList
    ∃ tree, parse false source = .ok tree ∧
      (({} : Redirection).redirect tree).2.injectedNodes ≠ [] ∧
      ∀ new ∈ (({} : Redirection).redirect tree).2.injectedNodes, ∃ block front back,
        Hoisted {} tree (({} : Redirection).redirect tree).2 new block front back ∧
          tree.StatementBegins block front := by
  intro source
  have checked : (match parse false source with
      | .ok tree => !(({} : Redirection).redirect tree).2.injectedNodes.isEmpty &&
          (List.range tree.size).all fun id =>
            !tree.isDirective id || Fragment.isWhole (tree.node id).body
      | .error _ => false) = true := by decide +kernel
  cases parsed : parse false source with
  | error fault =>
      rw [parsed] at checked
      cases checked
  | ok tree =>
      rw [parsed] at checked
      simp only [Bool.and_eq_true, Bool.not_eq_true', List.isEmpty_eq_false_iff, List.all_eq_true,
        List.mem_range, Bool.or_eq_true] at checked
      refine ⟨tree, rfl, checked.1, fun new member => ?_⟩
      obtain ⟨block, front, back, hoisted⟩ := hoisting_of_parse parsed {} new member
      refine ⟨block, front, back, hoisted, hoisted.begins fun id among directive => ?_⟩
      have isChild : id ∈ tree.children block := hoisted.before ▸ List.mem_append_left _ among
      have inside := ((native_of_parse parsed).linked.ascending.children block id isChild).2
      exact (checked.2 id inside).resolve_left fun other => by
        rw [directive] at other
        cases other

/-- A string cuts a directive short: the first piece of it counts as a head of its own, and the
assignment comes inside its parentheses. -/
theorem hoisting_in_directive :
    let source := "<?php declare(encoding='UTF-8'); rand();".toList
    ∃ tree new front back, parse false source = .ok tree ∧
      (({} : Redirection).redirect tree).2.injectedNodes = [new] ∧
      (({} : Redirection).redirect tree).2.children root = front ++ new :: back ∧
      ¬ tree.StatementBegins root front := by
  intro source
  have checked : (match parse false source with
      | .ok tree => (({} : Redirection).redirect tree).2.injectedNodes == [6] &&
          (({} : Redirection).redirect tree).2.children root == [1, 2] ++ 6 :: [3, 4, 5] &&
          openParens (([1, 2] : List Nat).flatMap tree.ownKinds) == 1
      | .error _ => false) = true := by decide +kernel
  cases parsed : parse false source with
  | error fault =>
      rw [parsed] at checked
      cases checked
  | ok tree =>
      rw [parsed] at checked
      simp only [Bool.and_eq_true, beq_iff_eq] at checked
      obtain ⟨⟨injected, children⟩, isOpen⟩ := checked
      refine ⟨tree, 6, [1, 2], [3, 4, 5], rfl, injected, children, fun begins => ?_⟩
      rw [begins.closed] at isOpen
      cases isOpen

end Redirection
end PhpWeave
