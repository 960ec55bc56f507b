import Mathlib.Data.List.Induction
import PhpWeave.Proofs.Grammar.Structure

set_option autoImplicit false

/-!
What becomes of one report of a read. A node that is reported stays in the tree as it is, with the
nodes above it that were open when it came, and the ranges of the finished tree are those that the
reports filled. So where a token stands in the tree can be told from the report that covers it.
-/

namespace PhpWeave

def Node.own (node : Node) : Node :=
  { node.settled with parent := none, scope := none, function := none }

namespace Tree

variable {old middle new : Tree}

theorem Keeps.refl (tree : Tree) : Keeps tree tree := ⟨Nat.le_refl _, fun _ _ => rfl⟩

theorem Keeps.trans (first : Keeps old middle) (second : Keeps middle new) : Keeps old new where
  size := Nat.le_trans first.size second.size
  node := fun id inside =>
    (second.node id (Nat.lt_of_lt_of_le inside first.size)).trans (first.node id inside)

end Tree

theorem Derives.snoc {tokens : Tokens} {events : List Event} {event : Event} {point : Point}
    (derives : Derives tokens (events ++ [event]) point) :
    ∃ here, Derives tokens events here ∧ Event.Step tokens here event point := by
  generalize whole : events ++ [event] = all at derives
  cases derives with
  | start => simp at whole
  | step before step =>
      obtain ⟨rfl, same⟩ := List.append_inj' whole rfl
      cases same
      exact ⟨_, before, step⟩

theorem Derives.before {tokens : Tokens} {events more : List Event} {point : Point}
    (derives : Derives tokens (events ++ more) point) : ∃ here, Derives tokens events here := by
  induction more using List.reverseRecOn generalizing point with
  | nil =>
      rw [List.append_nil] at derives
      exact ⟨point, derives⟩
  | append_singleton more event ih =>
      rw [← List.append_assoc] at derives
      obtain ⟨here, before, -⟩ := derives.snoc
      exact ih before

namespace Outline

variable {tokens : Tokens} {outline : Outline} {covered : Nat}

theorem Laid.keeps_take (laid : Laid tokens outline covered) (event : Event) :
    outline.tree.Keeps (outline.take event).tree := by
  cases event with
  | leaf node first last => exact laid.keeps_attach node first last
  | enter node first last => exact laid.keeps_attach node first last
  | leave close last =>
      cases entered : outline.entered with
      | nil =>
          rw [take, entered]
          exact .refl _
      | cons entry rest =>
          rw [take_leave entered]
          exact .update entry.id fun _ => rfl
  | yields =>
      rcases outline.take_yields with same | ⟨id, same⟩
      · rw [same]
        exact .refl _
      · rw [same]
        exact .update id fun _ => rfl
  | imports entries =>
      obtain ⟨id, same⟩ := outline.take_imports entries
      rw [same]
      exact .update id fun _ => rfl

/-- Only the report of a node makes the tree larger. -/
theorem size_take (outline : Outline) (event : Event) :
    (outline.take event).tree.size = outline.tree.size ∨
      (outline.take event).tree.size = outline.tree.size + 1 ∧
        ∃ node first last, event = .leaf node first last ∨ event = .enter node first last := by
  cases event with
  | leaf node first last => exact .inr ⟨size_attach node first last, node, first, last, .inl rfl⟩
  | enter node first last => exact .inr ⟨size_attach node first last, node, first, last, .inr rfl⟩
  | leave close last =>
      cases entered : outline.entered with
      | nil =>
          rw [take, entered]
          exact .inl rfl
      | cons entry rest =>
          rw [take_leave entered]
          exact .inl (Tree.size_update _ _)
  | yields =>
      rcases outline.take_yields with same | ⟨id, same⟩
      · rw [same]
        exact .inl rfl
      · rw [same]
        exact .inl (Tree.size_update _ _)
  | imports entries =>
      obtain ⟨id, same⟩ := outline.take_imports entries
      rw [same]
      exact .inl (Tree.size_update _ _)

theorem exists_report {events : List Event} {id : Nat} (inside : id < (ofEvents events).tree.size)
    (below : Tree.root < id) :
    ∃ before event after node first last, events = before ++ event :: after ∧
      (event = .leaf node first last ∨ event = .enter node first last) ∧
      (ofEvents before).tree.size = id := by
  induction events using List.reverseRecOn with
  | nil => exact absurd inside (Nat.not_lt_of_le below)
  | append_singleton events event ih =>
      rw [ofEvents_snoc] at inside
      have later (early : id < (ofEvents events).tree.size) :
          ∃ before other after node first last, events ++ [event] = before ++ other :: after ∧
            (other = .leaf node first last ∨ other = .enter node first last) ∧
            (ofEvents before).tree.size = id := by
        obtain ⟨before, other, after, node, first, last, rfl, reports, size⟩ := ih early
        exact ⟨before, other, after ++ [event], node, first, last, by simp, reports, size⟩
      rcases size_take (ofEvents events) event with same | ⟨more, node, first, last, reports⟩
      · exact later (same ▸ inside)
      · rcases Nat.lt_or_ge id (ofEvents events).tree.size with early | late
        · exact later early
        · exact ⟨events, event, [], node, first, last, rfl, reports, by omega⟩

theorem keeps_of_derives {events more : List Event} {point : Point}
    (derives : Derives tokens (events ++ more) point) :
    (ofEvents events).tree.Keeps (ofEvents (events ++ more)).tree := by
  induction more using List.reverseRecOn generalizing point with
  | nil =>
      rw [List.append_nil]
      exact .refl _
  | append_singleton more event ih =>
      rw [← List.append_assoc] at derives ⊢
      obtain ⟨here, before⟩ := derives.before
      rw [ofEvents_snoc]
      exact (ih before).trans ((laid_of_derives before).1.keeps_take event)

end Outline

/-- A node stands in a tree where an event of a read put it, over the tokens of the event and under
the nodes that were open. -/
structure Housed (tree : Tree) (stretches : List Stretch) (before : List Event) (node : Node)
    (first last id : Nat) : Prop where
  inside : id < tree.size
  among : ⟨.body id, first, last + 1⟩ ∈ stretches
  own : (tree.node id).own = node.own
  ancestors : tree.ancestors id = (Outline.ofEvents before).opened
  function : (tree.node id).function = (Outline.ofEvents before).innermost .function

theorem Housed.property {tree : Tree} {stretches : List Stretch} {before : List Event}
    {node : Node} {first last id : Nat} (housed : Housed tree stretches before node first last id)
    {α : Type} (property : Node → α) (kept : ∀ node, property node.own = property node) :
    property (tree.node id) = property node := by
  rw [← kept (tree.node id), housed.own, kept]

/-- The reports of a read and the tree that is made of them. -/
structure Told (tokens : Tokens) (events : List Event) (tree : Tree)
    (stretches : List Stretch) : Prop where
  read : Reader.eventsOf tokens = .ok events
  derives : Derives tokens events ⟨tokens.size, []⟩
  relined : Tree.Relined (Outline.ofEvents events).tree tree
  ranges : tree.Ranges tokens stretches
  housed : ∀ before node first last after,
    (events = before ++ .leaf node first last :: after ∨
      events = before ++ .enter node first last :: after) →
      Housed tree stretches before node first last (Outline.ofEvents before).tree.size
  ends : ∀ before last after, events = before ++ .leave ['\x7d'] last :: after →
    ∃ id, ⟨.close id, last, last + 1⟩ ∈ stretches

namespace Tree

variable {tokens : Tokens} {events before after : List Event} {tree : Tree}

/-- The node of a leaf, or of a construct that is entered, in the tree of all events. -/
theorem housed_of_derives (derives : Derives tokens events ⟨tokens.size, []⟩)
    (relined : Relined (Outline.ofEvents events).tree tree) {event : Event} {node : Node}
    {first last : Nat} (reports : event = .leaf node first last ∨ event = .enter node first last)
    (split : events = before ++ event :: after) {stretches : List Stretch}
    (among : ⟨.body (Outline.ofEvents before).tree.size, first, last + 1⟩ ∈ stretches) :
    Housed tree stretches before node first last (Outline.ofEvents before).tree.size := by
  obtain ⟨here, derived⟩ := (split ▸ derives).before
  obtain ⟨laid, -⟩ := Outline.laid_of_derives derived
  have built := Outline.built_of_derives derived
  have rest : Derives tokens ((before ++ [event]) ++ after) ⟨tokens.size, []⟩ := by
    rw [List.append_assoc]
    exact split ▸ derives
  obtain ⟨further, derivedNext⟩ := rest.before
  have attached : (Outline.ofEvents (before ++ [event])).tree =
      ((Outline.ofEvents before).attach node first last).tree := by
    rw [Outline.ofEvents_snoc]
    rcases reports with rfl | rfl <;> rfl
  have keeps : ((Outline.ofEvents before).attach node first last).tree.Keeps tree := by
    have kept := Outline.keeps_of_derives rest
    rw [attached, List.append_assoc, List.singleton_append, ← split] at kept
    exact kept.trans relined.keeps
  have after := relined.ascending (Outline.laid_of_derives derives).1.ascending
  have inside : (Outline.ofEvents before).tree.size <
      ((Outline.ofEvents before).attach node first last).tree.size := by
    rw [Outline.size_attach]
    exact Nat.lt_succ_self _
  constructor
  case inside => exact Nat.lt_of_lt_of_le inside keeps.size
  case among => exact among
  case own =>
    rw [keeps.property Node.own (fun _ => rfl) inside, laid.node_attach]
    rfl
  case ancestors =>
    rw [keeps.ancestors (laid.ascending_attach node first last) after inside,
      built.ancestors_attach laid]
  case function =>
    rw [keeps.property Node.function (fun _ => rfl) inside, laid.node_attach]
    rfl

/-- The read of a file that has a tree, told by its reports. -/
theorem told_of_parse {listLines : Bool} {source : Text} {tree : Tree}
    (parsed : parse listLines source = .ok tree) :
    ∃ events stretches, Told (TokenStream.ofText .html source).tokens events tree stretches := by
  obtain ⟨events, read, relined⟩ := outline_of_parse parsed
  have derives := Reader.derives_eventsOf (Scan.spelled_scan .html source)
    (Scan.tagged_scan .html source) read
  obtain ⟨laid, length⟩ := Outline.laid_of_derives derives
  obtain ⟨stretches, filled, filling⟩ := Outline.filled_of_derives derives
  have ranges := relined.ranges laid filled (Outline.opened_of_length_zero length)
  refine ⟨events, _, read, derives, relined, ranges, ?_, ?_⟩
  · intro before node first last after split
    have among : ⟨.body (Outline.ofEvents before).tree.size, first, last + 1⟩ ∈ stretches := by
      rcases split with split | split
      · obtain ⟨here, next, -, step, among⟩ := filling _ _ _ split
        cases step with
        | leaf => exact among List.mem_cons_self
      · obtain ⟨here, next, -, step, among⟩ := filling _ _ _ split
        cases step with
        | enter => exact among List.mem_cons_self
    rcases split with split | split
    · exact housed_of_derives derives relined (.inl rfl) split (List.mem_append_left _ among)
    · exact housed_of_derives derives relined (.inr rfl) split (List.mem_append_left _ among)
  · intro before last after split
    obtain ⟨here, next, derived, step, among⟩ := filling _ _ _ split
    cases step with
    | leave =>
        obtain ⟨-, length⟩ := Outline.laid_of_derives derived
        obtain ⟨entry, rest, entered⟩ := List.exists_cons_of_length_eq_add_one length
        refine ⟨entry.id, List.mem_append_left _ (among ?_)⟩
        rw [Outline.fills, entered]
        exact List.mem_cons_self

end Tree

/-- Every node but the file stands where it was reported. -/
theorem Told.exists_split {tokens : Tokens} {events : List Event} {tree : Tree}
    {stretches : List Stretch} (told : Told tokens events tree stretches) {id : Nat}
    (inside : id < tree.size) (below : Tree.root < id) :
    ∃ before event after node first last, events = before ++ event :: after ∧
      (event = .leaf node first last ∨ event = .enter node first last) ∧
      Housed tree stretches before node first last id := by
  rw [told.relined.size] at inside
  obtain ⟨before, event, after, node, first, last, split, reports, rfl⟩ :=
    Outline.exists_report inside below
  refine ⟨before, event, after, node, first, last, split, reports, ?_⟩
  refine told.housed before node first last after ?_
  rcases reports with rfl | rfl
  · exact .inl split
  · exact .inr split

theorem Told.exists_housed {tokens : Tokens} {events : List Event} {tree : Tree}
    {stretches : List Stretch} (told : Told tokens events tree stretches) {id : Nat}
    (inside : id < tree.size) (below : Tree.root < id) :
    ∃ before event node first last, event ∈ events ∧
      (event = .leaf node first last ∨ event = .enter node first last) ∧
      Housed tree stretches before node first last id := by
  obtain ⟨before, event, after, node, first, last, rfl, reports, housed⟩ :=
    told.exists_split inside below
  exact ⟨before, event, node, first, last, by simp, reports, housed⟩

end PhpWeave
