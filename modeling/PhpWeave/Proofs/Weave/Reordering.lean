import PhpWeave.Proofs.Grammar.Native
import PhpWeave.Proofs.Weave.Edits
import PhpWeave.Proofs.Weave.Revision
import PhpWeave.Weave.Interception
import PhpWeave.Weave.Standard
import PhpWeave.Weave.Weaver

set_option autoImplicit false

/-!
The order of weavers. Interception, unsealing, the hook for exits and pinned paths can be run in any
order: but for the lines that are noted of code that was put in, the tree that comes out is the
same, and so is its text.
-/

namespace PhpWeave

namespace Tree

variable {tree other : Tree} {parent index : Nat} {added another : Node} {change : Node → Node}

/-! ### Insertions -/

theorem Relined.insert (relined : Relined tree other) (inside : parent < tree.size) (index : Nat)
    (same : another.unlined = added.unlined) :
    Relined (tree.insert parent index added) (other.insert parent index another) := by
  have children : other.children parent = tree.children parent :=
    relined.property Node.children (fun _ => rfl) parent
  refine ⟨by rw [size_insert, size_insert, relined.size], fun id => ?_⟩
  rw [node_insert inside, node_insert (by rw [relined.size]; exact inside), relined.size, children]
  generalize (tree.children parent).take index ++
    tree.size :: (tree.children parent).drop index = grown
  split
  · exact congrArg (fun node : Node => { node with parent := some parent, children := [] }) same
  · split
    · exact congrArg (fun node : Node => { node with children := grown }) (relined.node id)
    · exact relined.node id

theorem mem_preorder_insert (linked : tree.Linked) (grown : (tree.insert parent index added).Linked)
    (inside : parent < tree.size) {id : Nat} (old : id ≠ tree.size) :
    id ∈ (tree.insert parent index added).preorder root ↔ id ∈ tree.preorder root := by
  have parents (id : Nat) (known : id < tree.size) :
      (tree.insert parent index added).parent? id = tree.parent? id := by
    rw [parent?, node_insert inside, if_neg (Nat.ne_of_lt known)]
    split <;> rfl
  rw [mem_preorder linked linked.filled, mem_preorder grown grown.filled, size_insert]
  rcases Nat.lt_or_gt_of_ne old with known | beyond
  · rw [Over, Over, ancestors_congr linked.ascending grown.ascending parents known]
    simp [known, Nat.lt_succ_of_lt known]
  · have outside : ¬ id < tree.size := by omega
    have further : ¬ id < tree.size + 1 := by omega
    simp [outside, further]

theorem revise_insert (linked : tree.Linked) (revision : Node.Revision change)
    (grown : (tree.insert parent index added).Linked) (inside : parent < tree.size)
    (isFunction : (tree.node parent).kind = .function) (isCode : added.kind = .code)
    (flags : added.flags = Flags.injectedCode) :
    (tree.insert parent index added).revise change =
      (tree.revise change).insert parent index added := by
  have children : (tree.revise change).children parent = tree.children parent :=
    property_revise linked Node.children revision.children parent
  have known : parent < (tree.revise change).size := by
    rw [size_revise]
    exact inside
  refine ext_node (by rw [size_insert, size_revise, size_revise, size_insert]) fun id => ?_
  rw [node_insert known, node_revise grown, node_insert inside, size_revise, children]
  by_cases isNew : id = tree.size
  · simp only [isNew, if_true]
    split
    · exact revision.injected _ isCode flags
    · rfl
  · rw [if_neg isNew, if_neg isNew, node_revise linked]
    by_cases here : id = parent
    · subst here
      have keeps (children : List Nat) :
          change { tree.node id with children := children } =
            { tree.node id with children := children } := revision.functions _ isFunction
      simp only [if_true, keeps, ite_self]
    · simp only [if_neg here, mem_preorder_insert linked grown inside isNew]

end Tree

open PhpWeave.Tree

/-! ### Interception -/

namespace Interception

variable {tree other : Tree} {change : Node → Node}

theorem linked_intercept (interception : Interception) (linked : tree.Linked) {id : Nat}
    (inside : id < tree.size) : (interception.intercept tree id).Linked := by
  refine linked.splice (.insert id 0 _) inside ?_
  rintro node ⟨⟩
  exact ⟨fun _ none => (by cases none), fun _ none => (by cases none)⟩

theorem relined_intercept (interception : Interception) (relined : Relined tree other) {id : Nat}
    (inside : id < tree.size) :
    Relined (interception.intercept tree id) (interception.intercept other id) := by
  have flags : (other.node id).flags = (tree.node id).flags :=
    relined.property Node.flags (fun _ => rfl) id
  refine relined.insert inside 0 ?_
  rw [flags]
  rfl

theorem revise_intercept (interception : Interception) (linked : tree.Linked)
    (revision : Node.Revision change) {id : Nat} (inside : id < tree.size)
    (isFunction : (tree.node id).kind = .function) :
    Relined ((interception.intercept tree id).revise change)
      (interception.intercept (tree.revise change) id) := by
  have same : (tree.revise change).node id = tree.node id := by
    rw [node_revise linked, revision.functions _ isFunction]
    split <;> rfl
  unfold intercept
  rw [revise_insert linked revision (interception.linked_intercept linked inside) inside isFunction
    rfl rfl, same]
  exact (Relined.refl _).insert (by rw [size_revise]; exact inside) 0 rfl

theorem node_intercept_kind (interception : Interception) {id below : Nat} (inside : id < tree.size)
    (known : below < tree.size) :
    ((interception.intercept tree id).node below).kind = (tree.node below).kind := by
  unfold intercept
  rw [node_insert inside, if_neg (Nat.ne_of_lt known)]
  split <;> rfl

theorem linked_foldl (interception : Interception) {ids : List Nat} (linked : tree.Linked)
    (inside : ∀ id ∈ ids, id < tree.size) : (ids.foldl interception.intercept tree).Linked := by
  induction ids generalizing tree with
  | nil => exact linked
  | cons id ids ih =>
      obtain ⟨here, rest⟩ := List.forall_mem_cons.mp inside
      refine ih (interception.linked_intercept linked here) fun below member => ?_
      rw [intercept, size_insert]
      exact Nat.lt_succ_of_lt (rest below member)

theorem revise_foldl (interception : Interception) (revision : Node.Revision change)
    {ids : List Nat} (linked : tree.Linked) (relined : Relined (tree.revise change) other)
    (functions : ∀ id ∈ ids, id < tree.size ∧ (tree.node id).kind = .function) :
    Relined ((ids.foldl interception.intercept tree).revise change)
      (ids.foldl interception.intercept other) := by
  induction ids generalizing tree other with
  | nil => exact relined
  | cons id ids ih =>
      obtain ⟨⟨inside, isFunction⟩, rest⟩ := List.forall_mem_cons.mp functions
      refine ih (interception.linked_intercept linked inside) ?_ fun below member => ?_
      · exact (interception.revise_intercept linked revision inside isFunction).trans
          (interception.relined_intercept relined (by rw [size_revise]; exact inside))
      · obtain ⟨known, kind⟩ := rest below member
        refine ⟨?_, by rw [interception.node_intercept_kind inside known, kind]⟩
        rw [intercept, size_insert]
        exact Nat.lt_succ_of_lt known

theorem targets_congr (interception : Interception)
    (preorder : other.preorder root = tree.preorder root)
    (selects : ∀ id, interception.selects (other.node id) = interception.selects (tree.node id)) :
    interception.targets other = interception.targets tree := by
  unfold targets
  rw [preorder]
  simp only [selects]

theorem functions_of_targets (interception : Interception) (linked : tree.Linked) :
    ∀ id ∈ interception.targets tree, id < tree.size ∧ (tree.node id).kind = .function := by
  intro id member
  obtain ⟨reached, selected⟩ := List.mem_filter.mp member
  refine ⟨((mem_preorder linked linked.filled).mp reached).1, ?_⟩
  simp only [selects, Node.isNamedFunction, Bool.and_eq_true, decide_eq_true_eq] at selected
  exact selected.1.1.1.1

def woven (interception : Interception) (tree : Tree) : Tree :=
  (interception.targets tree).foldl interception.intercept tree

theorem linked_woven (interception : Interception) (linked : tree.Linked) :
    (interception.woven tree).Linked :=
  interception.linked_foldl linked fun id member =>
    (interception.functions_of_targets linked id member).1

theorem revise_woven (interception : Interception) (linked : tree.Linked)
    (revision : Node.Revision change) (relined : Relined (tree.revise change) other) :
    Relined ((interception.woven tree).revise change) (interception.woven other) := by
  have selects (node : Node) : interception.selects (change node) = interception.selects node := by
    by_cases isFunction : node.kind = .function
    · rw [revision.functions node isFunction]
    · simp only [Interception.selects, Node.isNamedFunction, revision.kind,
        decide_eq_false isFunction, Bool.false_and]
  have revised : interception.targets (tree.revise change) = interception.targets tree :=
    interception.targets_congr (preorder_revise linked revision)
      (property_revise linked interception.selects selects)
  have same : interception.targets other = interception.targets (tree.revise change) :=
    interception.targets_congr relined.preorder
      (relined.property interception.selects fun _ => rfl)
  rw [woven, woven, same, revised]
  exact interception.revise_foldl revision linked relined (interception.functions_of_targets linked)

theorem relined_woven (interception : Interception) (linked : tree.Linked)
    (relined : Relined tree other) :
    Relined (interception.woven tree) (interception.woven other) := by
  have unchanged : Relined (tree.revise id) other := by
    rw [revise_id linked]
    exact relined
  have same := interception.revise_woven linked .id unchanged
  rwa [revise_id (interception.linked_woven linked)] at same

end Interception

/-! ### Weavers that can be reordered -/

namespace StandardWeaver

variable {tree other : Tree} {weaver first second : StandardWeaver}

/-- Whether a weaver can change places with others. The hook for exits has to be the one that is
called when nothing else is said: what it puts in is then no name that another weaver looks for. -/
def Reorderable : StandardWeaver → Prop
  | .interception _ | .unsealing _ | .pathPin _ => True
  | .exitHook weaver => weaver = {}
  | .redirection _ | .isolation _ => False

/-- Whether two weavers are of one sort. -/
def alike : StandardWeaver → StandardWeaver → Bool
  | .interception _, .interception _ | .redirection _, .redirection _
  | .unsealing _, .unsealing _ | .exitHook _, .exitHook _ | .pathPin _, .pathPin _
  | .isolation _, .isolation _ => true
  | _, _ => false

theorem alike_comm (first second : StandardWeaver) : first.alike second = second.alike first := by
  cases first <;> cases second <;> rfl

def change (file : Option Path) : StandardWeaver → Node → Node
  | .exitHook weaver => Node.edited weaver.choose
  | .pathPin weaver =>
    ((weaver.fixed.or file).map fun path => Node.edited (PathPin.choose path)).getD id
  | .unsealing _ => Node.unsealed
  | .interception _ | .redirection _ | .isolation _ => id

theorem revision_change (weaver : StandardWeaver) (file : Option Path) :
    Node.Revision (weaver.change file) := by
  cases weaver with
  | exitHook weaver => exact Node.revision_edited _
  | unsealing weaver => exact Node.revision_unsealed
  | pathPin weaver =>
      rw [change]
      cases weaver.fixed.or file with
      | none => exact .id
      | some path => exact Node.revision_edited _
  | interception weaver => exact .id
  | redirection weaver => exact .id
  | isolation weaver => exact .id

theorem change_comm (reorderable : first.Reorderable) (secondReorderable : second.Reorderable)
    (apart : first.alike second = false) (file : Option Path) (node : Node) :
    second.change file (first.change file node) = first.change file (second.change file node) := by
  have pinned (exitHook : ExitHook) (isDefault : exitHook = {}) (pin : PathPin) (node : Node) :
      (pathPin pin).change file (node.edited exitHook.choose) =
        ((pathPin pin).change file node).edited exitHook.choose := by
    rw [change]
    cases pin.fixed.or file with
    | none => rfl
    | some path =>
        refine Node.edited_comm (fun code => ?_) node
        exact (ExitHook.edited_comm (isDefault ▸ ExitHook.spell_hook.symm) path code).symm
  have unsealed (pin : PathPin) (node : Node) : ((pathPin pin).change file node).unsealed =
      (pathPin pin).change file node.unsealed := by
    rw [change]
    cases pin.fixed.or file with
    | none => rfl
    | some path => exact Node.unsealed_edited _ node
  cases first with
  | interception weaver => rfl
  | redirection weaver => exact reorderable.elim
  | isolation weaver => exact reorderable.elim
  | exitHook exitHook =>
      cases second with
      | pathPin pin => exact pinned exitHook reorderable pin node
      | unsealing weaver => exact Node.unsealed_edited _ node
      | exitHook weaver => cases apart
      | interception weaver | redirection weaver | isolation weaver => rfl
  | pathPin pin =>
      cases second with
      | exitHook exitHook => exact (pinned exitHook secondReorderable pin node).symm
      | unsealing weaver => exact unsealed pin node
      | pathPin weaver => cases apart
      | interception weaver | redirection weaver | isolation weaver => rfl
  | unsealing weaver =>
      cases second with
      | exitHook weaver => exact (Node.unsealed_edited _ node).symm
      | pathPin pin => exact (unsealed pin node).symm
      | unsealing weaver => cases apart
      | interception weaver | redirection weaver | isolation weaver => rfl

theorem weave_cases (reorderable : weaver.Reorderable) (file : Option Path) :
    (∃ interception, weaver = .interception interception) ∨
      ∀ tree : Tree, tree.Linked → (weaver.weave tree file).2 =
        tree.revise (weaver.change file) := by
  cases weaver with
  | interception weaver => exact .inl ⟨weaver, rfl⟩
  | redirection weaver => exact reorderable.elim
  | isolation weaver => exact reorderable.elim
  | exitHook weaver => exact .inr fun tree linked => editCode_eq linked weaver.choose
  | unsealing weaver => exact .inr fun tree linked => weaver.weave_eq linked file
  | pathPin weaver =>
      refine .inr fun tree linked => ?_
      change (Weaver.weave weaver tree file).2 = _
      rw [weaver.weave_eq, change]
      cases weaver.fixed.or file with
      | none => exact (revise_id linked).symm
      | some path => exact editCode_eq linked (PathPin.choose path)

theorem linked_weave (reorderable : weaver.Reorderable) (linked : tree.Linked)
    (file : Option Path) : (weaver.weave tree file).2.Linked := by
  rcases weaver.weave_cases reorderable file with ⟨interception, rfl⟩ | revises
  · exact interception.linked_woven linked
  · rw [revises tree linked]
    exact linked.revise (weaver.revision_change file)

theorem relined_weave (reorderable : weaver.Reorderable) (linked : tree.Linked)
    (relined : Relined tree other) (file : Option Path) :
    Relined (weaver.weave tree file).2 (weaver.weave other file).2 := by
  rcases weaver.weave_cases reorderable file with ⟨interception, rfl⟩ | revises
  · exact interception.relined_woven linked relined
  · rw [revises tree linked, revises other (linked.relined relined)]
    exact relined.revise linked (weaver.revision_change file)

theorem weave_comm (reorderable : first.Reorderable) (secondReorderable : second.Reorderable)
    (apart : first.alike second = false) (linked : tree.Linked) (file : Option Path) :
    Relined (second.weave (first.weave tree file).2 file).2
      (first.weave (second.weave tree file).2 file).2 := by
  have before := first.linked_weave reorderable linked file
  have after := second.linked_weave secondReorderable linked file
  rcases first.weave_cases reorderable file with ⟨interception, rfl⟩ | revises
  · rcases second.weave_cases secondReorderable file with ⟨another, rfl⟩ | follows
    · cases apart
    · rw [follows _ before, follows tree linked]
      exact interception.revise_woven linked (second.revision_change file) (.refl _)
  · rcases second.weave_cases secondReorderable file with ⟨interception, rfl⟩ | follows
    · rw [revises _ after, revises tree linked]
      exact (interception.revise_woven linked (first.revision_change file) (.refl _)).symm
    · rw [follows _ before, revises _ after, revises tree linked, follows tree linked,
        revise_comm linked (first.revision_change file) (second.revision_change file)
          (change_comm reorderable secondReorderable apart file)]
      exact .refl _

end StandardWeaver

/-! ### Chains -/

def runAll (file : Option Path) (weavers : List StandardWeaver) (tree : Tree) : Tree :=
  weavers.foldl (fun woven weaver => (weaver.weave woven file).2) tree

theorem weaveAll_eq (entries : List (Text × StandardWeaver)) (tree : Tree) (file : Option Path) :
    (Chain.weaveAll entries tree file).2 = runAll file (entries.map Prod.snd) tree := by
  induction entries generalizing tree with
  | nil => rfl
  | cons entry rest ih => exact ih (entry.2.weave tree file).2

variable {tree other : Tree} {weavers others : List StandardWeaver}

theorem relined_runAll (reorderable : ∀ weaver ∈ weavers, weaver.Reorderable) (linked : tree.Linked)
    (relined : Relined tree other) (file : Option Path) :
    Relined (runAll file weavers tree) (runAll file weavers other) := by
  induction weavers generalizing tree other with
  | nil => exact relined
  | cons weaver weavers ih =>
      obtain ⟨here, rest⟩ := List.forall_mem_cons.mp reorderable
      exact ih rest (weaver.linked_weave here linked file)
        (weaver.relined_weave here linked relined file)

theorem relined_of_perm (same : weavers.Perm others)
    (reorderable : ∀ weaver ∈ weavers, weaver.Reorderable)
    (single : weavers.Pairwise fun first second => first.alike second = false)
    (linked : tree.Linked) (file : Option Path) :
    Relined (runAll file weavers tree) (runAll file others tree) := by
  -- Being of two sorts goes both ways, so it is true of any two weavers in any order.
  have symmetric : ∀ first second : StandardWeaver, first.alike second = false →
      second.alike first = false := fun first second apart => by rw [second.alike_comm, apart]
  induction same generalizing tree with
  | nil => exact .refl tree
  | cons weaver same ih =>
      obtain ⟨here, rest⟩ := List.forall_mem_cons.mp reorderable
      exact ih rest (List.pairwise_cons.mp single).2 (weaver.linked_weave here linked file)
  | swap first second rest =>
      obtain ⟨secondHere, firstHere, rest⟩ := by
        simpa only [List.forall_mem_cons] using reorderable
      have apart := (List.pairwise_cons.mp single).1 first List.mem_cons_self
      exact relined_runAll rest
        (first.linked_weave firstHere (second.linked_weave secondHere linked file) file)
        (StandardWeaver.weave_comm secondHere firstHere apart linked file) file
  | trans before after ihBefore ihAfter =>
      refine (ihBefore reorderable single linked).trans (ihAfter ?_ ?_ linked)
      · exact fun weaver member => reorderable weaver (before.mem_iff.mpr member)
      · exact before.pairwise single fun {first second} => symmetric first second

/-- Chains with the same weavers in two orders make one text of a file, when no two of the weavers
are of one sort and none redirects or isolates. -/
theorem weave_eq_of_perm {source : Text} {parsed : Tree} (parses : parse false source = .ok parsed)
    {first second : Chain StandardWeaver}
    (same : (first.entries.map Prod.snd).Perm (second.entries.map Prod.snd))
    (reorderable : ∀ weaver ∈ first.entries.map Prod.snd, weaver.Reorderable)
    (single : (first.entries.map Prod.snd).Pairwise fun left right => left.alike right = false)
    (file : Option Path) :
    ∃ text, (first.weave source file).1 = .ok text ∧ (second.weave source file).1 = .ok text := by
  have linked := (native_of_parse parses).linked
  have relined := relined_of_perm same reorderable single linked file
  have text (chain : Chain StandardWeaver) : (chain.weave source file).1 =
      .ok (runAll file (chain.entries.map Prod.snd) parsed).source := by
    rw [Chain.weave, parses, ← weaveAll_eq]
    rfl
  exact ⟨_, text first, by rw [text second, relined.source]⟩

/-- A sealed class with a method that exits and a call with a path, woven in two orders. -/
theorem weave_eq_of_perm_sealed :
    let source := "<?php final class C{function f(){exit;}} f(__FILE__);\n".toList
    let interception : Interception := { exemptNames := [['g']] }
    let first : Chain StandardWeaver := ⟨[([], .interception interception), ([], .exitHook {}),
      ([], .unsealing {}), ([], .pathPin {})]⟩
    let second : Chain StandardWeaver := ⟨[(['p'], .pathPin {}), (['u'], .unsealing {}),
      (['e'], .exitHook {}), (['i'], .interception interception)]⟩
    (parse false source).toBool = true ∧
      (first.entries.map Prod.snd).Perm (second.entries.map Prod.snd) ∧
      (∀ weaver ∈ first.entries.map Prod.snd, weaver.Reorderable) ∧
      (first.entries.map Prod.snd).Pairwise (fun left right => left.alike right = false) ∧
      ∃ text, (first.weave source (some ['/', 'f'])).1 = .ok text ∧
        (second.weave source (some ['/', 'f'])).1 = .ok text := by
  intro source interception first second
  have closes : (parse false source).toBool = true := by decide +kernel
  have same : (first.entries.map Prod.snd).Perm (second.entries.map Prod.snd) :=
    (List.reverse_perm (first.entries.map Prod.snd)).symm
  have reorderable : ∀ weaver ∈ first.entries.map Prod.snd, weaver.Reorderable := by
    intro weaver member
    simp only [first, List.map_cons, List.map_nil, List.mem_cons, List.not_mem_nil, or_false]
      at member
    rcases member with rfl | rfl | rfl | rfl
    exacts [trivial, rfl, trivial, trivial]
  have single : (first.entries.map Prod.snd).Pairwise
      fun left right => left.alike right = false := by decide
  refine ⟨closes, same, reorderable, single, ?_⟩
  cases parses : parse false source with
  | error fault =>
      rw [parses] at closes
      cases closes
  | ok parsed => exact weave_eq_of_perm parses same reorderable single _

end PhpWeave
