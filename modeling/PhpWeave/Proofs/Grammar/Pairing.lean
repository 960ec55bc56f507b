import PhpWeave.Proofs.Grammar.Course

set_option autoImplicit false

/-!
The frames of a read next to the nodes that are open. Each construct that a read enters opens a frame
and a node, and both are closed together; so there is one open node for each frame, and the file for
the last. What relates a frame to its node when both are opened relates them as long as they are
open, whatever brackets the frame counts.
-/

namespace PhpWeave

namespace Outline

def levels (outline : Outline) : List OpenNode := outline.entered ++ [⟨Tree.root, 0⟩]

theorem ids_levels (outline : Outline) : outline.levels.map OpenNode.id = outline.opened :=
  List.map_append

theorem firsts_levels (outline : Outline) :
    outline.levels.map OpenNode.first = outline.entered.map OpenNode.first ++ [0] :=
  List.map_append

theorem entered_take_leave (outline : Outline) (close : Text) (last : Nat) :
    (outline.take (.leave close last)).entered = outline.entered.tail := by
  cases entered : outline.entered with
  | nil =>
      rw [take, entered]
      exact entered
  | cons entry rest =>
      rw [take_leave entered]
      rfl

theorem entered_take_yields (outline : Outline) :
    (outline.take .yields).entered = outline.entered := by
  rcases outline.take_yields with same | ⟨id, same⟩ <;> rw [same]

end Outline

namespace Reader

variable {tokens : Tokens} {reader next : Reader} {token : Token}
  {relation : Frame → OpenNode → Prop}

def Paired (relation : Frame → OpenNode → Prop) (reader : Reader) : Prop :=
  List.Forall₂ relation (reader.top :: reader.outer)
    (Outline.ofEvents reader.events.toList).levels

theorem Paired.report (paired : Paired relation reader) (event : Event)
    (kept : ∀ outline : Outline, (outline.take event).entered = outline.entered) :
    Paired relation (reader.report event) := by
  unfold Paired Outline.levels at paired ⊢
  rw [events_report, Outline.ofEvents_snoc, kept]
  exact paired

theorem Paired.flush (paired : Paired relation reader) (stop : Nat) :
    Paired relation (reader.flush tokens stop) := by
  unfold Reader.flush
  simp only
  split
  · have settled : Paired relation { reader with pending := stop } := paired
    exact settled.report _ fun _ => rfl
  · exact paired

theorem Paired.count (paired : Paired relation reader) {change : Frame → Frame}
    (kept : ∀ entry, relation reader.top entry → relation (change reader.top) entry) :
    Paired relation (reader.updateTop change).skip := by
  obtain ⟨entry, rest, top, outer, levels⟩ := List.forall₂_cons_left_iff.mp paired
  unfold Paired
  change List.Forall₂ relation (change reader.top :: reader.outer)
    (Outline.ofEvents reader.events.toList).levels
  rw [levels]
  exact .cons (kept entry top) outer

theorem Paired.enter (paired : Paired relation reader) {node : Node} {first last : Nat}
    {kind : FrameKind}
    (fresh : relation { kind := kind, first := first }
      ⟨(Outline.ofEvents reader.events.toList).tree.size, first⟩) :
    Paired relation ((reader.report (.enter node first last)).openFrame kind first) := by
  unfold Paired
  change List.Forall₂ relation ({ kind := kind, first := first } :: reader.top :: reader.outer)
    (Outline.ofEvents (reader.report (.enter node first last)).events.toList).levels
  rw [events_report, Outline.ofEvents_snoc]
  exact .cons fresh paired

theorem Paired.closeFrame (paired : Paired relation reader) (close : Text) (last : Nat) :
    Paired relation (reader.closeFrame close last) := by
  unfold Reader.closeFrame
  cases around : reader.outer with
  | nil => exact paired
  | cons next outer =>
      unfold Paired Outline.levels at paired ⊢
      rw [around] at paired
      rw [events_report, Outline.ofEvents_snoc, Outline.entered_take_leave]
      cases entered : (Outline.ofEvents reader.events.toList).entered with
      | nil =>
          rw [entered] at paired
          cases paired with
          | cons _ none => cases none
      | cons entry rest =>
          rw [entered] at paired
          cases paired with
          | cons _ outer => exact outer

theorem Paired.endOpenScope (paired : Paired relation reader) (index : Nat) :
    Paired relation (reader.endOpenScope index) := by
  unfold Reader.endOpenScope
  split
  · exact paired.closeFrame _ _
  · exact paired

/-- A move keeps a relation that does not look at braces, when it holds of what the move opens and a
parenthesis does not change it. -/
theorem Paired.stride (paired : Paired relation reader) (stride : Stride tokens reader token next)
    (braces : ∀ frame entry count, relation frame entry →
      relation { frame with braces := count } entry)
    (parens : token.kind = .openParen ∨ token.kind = .closeParen → ∀ frame entry count,
      relation frame entry → relation { frame with parens := count } entry)
    (fresh : ∀ kind before node first last,
      next.events.toList = before ++ [.enter node first last] → next.pos = last + 1 →
      relation { kind := kind, first := first } ⟨(Outline.ofEvents before).tree.size, first⟩) :
    Paired relation next := by
  cases stride with
  | leaf => exact (paired.flush _).report _ fun _ => rfl
  | imports => exact ((paired.flush _).report (.leaf _ _ _) fun _ => rfl).report _ fun _ => rfl
  | enter => exact (paired.flush _).enter (fresh _ _ _ _ _ (events_report _) rfl)
  | scope => exact ((paired.flush _).endOpenScope _).enter (fresh _ _ _ _ _ (events_report _) rfl)
  | leave => exact (paired.flush _).closeFrame _ _
  | astray => exact paired
  | arrow => exact paired
  | yields => exact paired.report _ Outline.entered_take_yields
  | opening =>
      refine Paired.flush ?_ _
      exact paired.count fun entry => braces reader.top entry _
  | closing =>
      refine Paired.flush ?_ _
      exact paired.count fun entry => braces reader.top entry _
  | openingParen isOne => exact paired.count fun entry => parens (.inl isOne) reader.top entry _
  | closingParen isOne => exact paired.count fun entry => parens (.inr isOne) reader.top entry _
  | ending =>
      have passed : Paired relation reader.skip := paired
      exact passed.flush _
  | idle => exact paired

end Reader
end PhpWeave
