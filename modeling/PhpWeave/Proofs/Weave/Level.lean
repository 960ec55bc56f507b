import PhpWeave.Proofs.Weave.Directive
import PhpWeave.Proofs.Weave.Settling

set_option autoImplicit false

/-!
The levels of a file, which are the file and its namespaces, and what an isolation leaves of the
plain code in all of them, where its pieces are clean: what each piece becomes is told by the braces
that are open in front of it.
-/

namespace PhpWeave

open PhpWeave.Tree

namespace Isolation

/-- The file and its namespaces. -/
def IsLevel (tree : Tree) (id : NodeId) : Prop := id = root ∨ (tree.node id).kind = .scope

def Leaves (tree : Tree) (remnant : Remnant) (id : Nat) : Prop :=
  remnant = .untold ∨ id < tree.size ∧ (tree.node id).isEditable = true ∧
    remnant.Admits (tree.node id).body

def Done (origin tree : Tree) (level : Nat) : Prop :=
  List.Forall₂ (Leaves tree) (left origin [] (origin.children level)) (tree.children level)

/-- A tree whose levels are within levels, with clean pieces of plain code in them. -/
structure Layered (tree : Tree) : Prop where
  linked : tree.Linked
  code : ∀ id < tree.size, (tree.node id).kind = .code →
    (tree.node id).isEditable = true ∨ (tree.node id).flags.inPhp = false ∨
      (tree.node id).isTag = true
  levels : ∀ above id, tree.Over above id → IsLevel tree id → IsLevel tree above
  clean : ∀ level, IsLevel tree level → ∀ id ∈ tree.children level,
    (tree.node id).isEditable = true → Clean tree id

theorem isPlain_iff {node : Node} (code : node.kind = .code →
      node.isEditable = true ∨ node.flags.inPhp = false ∨ node.isTag = true) :
    IsPlain node ↔ node.isEditable = true := by
  refine ⟨fun plain => ?_, isPlain_of_isEditable⟩
  rcases code plain.1 with editable | outside | isTag
  · exact editable
  · rw [plain.2.1] at outside
    cases outside
  · exact absurd isTag plain.2.2

theorem levelUnder_of_isLevel {tree : Tree} (linked : tree.Linked)
    (levels : ∀ above id, tree.Over above id → IsLevel tree id → IsLevel tree above) {level : Nat}
    (isLevel : IsLevel tree level) (atop : tree.Over root level) : LevelUnder tree root level := by
  have ascending := linked.ascending
  induction level using Nat.strongRecOn with
  | ind level ih =>
      rcases isLevel with rfl | isScope
      · exact .here root
      · rcases atop with rfl | member
        · exact .here root
        · cases up : tree.parent? level with
          | none =>
              rw [ancestors_of_root up] at member
              cases member
          | some above =>
              have outer := (over_of_link ascending up).mp member
              have below := ascending.parent level above up
              have link : tree.Over above level := .inr ((over_of_link ascending up).mpr (.inl rfl))
              apply (ih above below (levels above level link (.inr isScope)) outer).inside _ isScope
              exact (linked.parent_iff level above).mp up

theorem fate_of_not_plain {tree : Tree} {id : Nat} (other : ¬ IsPlain (tree.node id))
    (depth : Depth) : fate tree depth id = (fateByKind tree id, depth) := if_neg other

section Children

variable {origin new : Tree} {feeds id child : Nat} {depth : Depth} {braces : List Bool}

theorem IsPut.leaves {code : Text} (isPut : IsPut origin new child code) {remnant : Remnant}
    (admits : remnant.Admits code) : Leaves new remnant child := by
  refine .inr ⟨isPut.inside, ?_, ?_⟩
  · exact isPut.property Node.isEditable fun _ => rfl
  · rw [isPut.property Node.body fun _ => rfl]
    exact admits

theorem leaves_of_clean (lined : origin.Lined feeds) (size : origin.size ≤ new.size)
    (inside : id < origin.size) (editable : (origin.node id).isEditable = true)
    (clean : Clean origin id) (tallies : Tallies depth braces)
    (becomes : Becomes origin new id child (fate origin depth id).1) :
    Leaves new (.exactly (leftOf origin braces id)) child := by
  rw [(clean.tidy.fate editable tallies).2] at becomes
  rcases leftOf_cases origin braces id with ⟨fated, left⟩ | ⟨fated, left⟩ | ⟨fated, left⟩
  · rw [fated] at becomes
    obtain ⟨rfl, agrees⟩ := becomes
    have here := agrees child (.inl rfl)
    refine .inr ⟨Nat.lt_of_lt_of_le inside size, ?_, ?_⟩
    · rw [here.property Node.isEditable fun _ => rfl, editable]
    · rw [left]
      exact here.property Node.body fun _ => rfl
  · have isCode := (isPlain_of_isEditable editable).1
    rw [fated] at becomes
    rw [left, ← nodeText_of_bare lined inside isCode]
    exact IsPut.leaves becomes rfl
  · rw [fated] at becomes
    rw [left]
    exact IsPut.leaves becomes rfl

theorem leaves_of_other (layered : Layered origin) (inside : id < origin.size)
    (editable : (origin.node id).isEditable = false)
    (becomes : Becomes origin new id child (fate origin depth id).1) :
    (fate origin depth id).2 = depth ∧ Leaves new (remnantOf origin braces id) child := by
  have notPlain : ¬ IsPlain (origin.node id) := by
    rw [isPlain_iff (layered.code id inside), editable]
    exact Bool.false_ne_true
  have remnant : remnantOf origin braces id =
      if stays (origin.node id) then .untold else .lineFeeds := if_neg (by simp [editable])
  rw [fate_of_not_plain notPlain] at becomes ⊢
  refine ⟨rfl, ?_⟩
  rw [remnant]
  by_cases clears : fateByKind origin id = .clear
  · simp only [clears] at becomes
    apply IsPut.leaves becomes
    split
    · trivial
    · exact fun c member => eq_of_beq (List.mem_filter.mp member).2
  · rw [stays_of_fateByKind clears]
    exact .inl rfl

theorem leaves_of_settles (layered : Layered origin) (lined : origin.Lined feeds)
    (size : origin.size ≤ new.size) {level : Nat} (isLevel : IsLevel origin level)
    {ids children : List Nat} (settles : Settles origin new depth ids children)
    (among : ∀ id ∈ ids, id ∈ origin.children level) (tallies : Tallies depth braces) :
    List.Forall₂ (Leaves new) (left origin braces ids) children := by
  induction settles generalizing braces with
  | nil depth => exact .nil
  | @cons depth id child rest later becomes settles ih =>
      have member := among id List.mem_cons_self
      have inside := (layered.linked.ascending.children level id member).2
      have others (other : Nat) (listed : other ∈ rest) := among other (.tail _ listed)
      cases editable : (origin.node id).isEditable with
      | true =>
          have clean := layered.clean level isLevel id member editable
          have remnant : remnantOf origin braces id = .exactly (leftOf origin braces id) :=
            if_pos editable
          rw [left, remnant]
          exact .cons (leaves_of_clean lined size inside editable clean tallies becomes)
            (ih others (clean.tidy.fate editable tallies).1)
      | false =>
          obtain ⟨still, leaves⟩ := leaves_of_other layered inside editable becomes
          have quiet : bracesBehind origin braces id = braces := if_neg (by simp [editable])
          rw [left, quiet]
          exact .cons leaves (ih others (still.symm ▸ tallies))

end Children

/-- What an isolation leaves of the plain code of each level. -/
theorem done_isolate {tree : Tree} {feeds : Nat} (layered : Layered tree) (lined : tree.Lined feeds)
    {level : Nat} (isLevel : IsLevel tree level) (atop : tree.Over root level) :
    Done tree (isolate tree) level :=
  leaves_of_settles layered lined (size_isolate lined) isLevel
    (settles_isolate lined (levelUnder_of_isLevel layered.linked layered.levels isLevel atop))
    (fun _ member => member) ⟨0, rfl⟩

end Isolation
end PhpWeave
