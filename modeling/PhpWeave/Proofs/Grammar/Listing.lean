import PhpWeave.Proofs.Grammar.Structure

set_option autoImplicit false

/-!
The declarations of a file: its namespaces, imports, class-like declarations and functions in source
order. The tree of a file declares what its events declare.
-/

namespace PhpWeave

def Node.declaration? (node : Node) : Option (NodeKind × Text × Bool) :=
  match node.kind with
  | .scope | .imports | .classLike _ | .function => some (node.kind, node.name, node.flags.hasBody)
  | _ => none

def Event.declaration? : Event → Option (NodeKind × Text × Bool)
  | .leaf node _ _ | .enter node _ _ => node.declaration?
  | _ => none

namespace Tree

/-- The declarations of a tree, in preorder. -/
def declarations (tree : Tree) : List (NodeKind × Text × Bool) :=
  (tree.preorder root).filterMap fun id => (tree.node id).declaration?

def tabled (tree : Tree) : List (NodeKind × Text × Bool) :=
  (List.range tree.size).filterMap fun id => (tree.node id).declaration?

theorem tabled_congr {old new : Tree} (size : new.size = old.size)
    (node : ∀ id : Nat, (new.node id).declaration? = (old.node id).declaration?) :
    new.tabled = old.tabled := by
  rw [tabled, tabled, size]
  exact List.filterMap_congr fun id _ => node id

theorem tabled_update {tree : Tree} (id : Nat) {change : Node → Node}
    (kept : ∀ node, (change node).declaration? = node.declaration?) :
    (tree.update id change).tabled = tree.tabled :=
  tabled_congr (size_update _ _) (node_update_property Node.declaration? kept)

end Tree

namespace Outline

variable {tokens : Tokens} {outline : Outline} {covered : Nat}

theorem Laid.tabled_attach (laid : Laid tokens outline covered) (node : Node) (first last : Nat) :
    (outline.attach node first last).tree.tabled =
      outline.tree.tabled ++ node.declaration?.toList := by
  have old : ∀ id ∈ List.range outline.tree.size,
      ((outline.attach node first last).tree.node id).declaration? =
        (outline.tree.node id).declaration? := fun id member =>
    (laid.keeps_attach node first last).property Node.declaration? (fun _ => rfl)
      (List.mem_range.mp member)
  have new : ((outline.attach node first last).tree.node outline.tree.size).declaration? =
      node.declaration? := by
    rw [laid.node_attach]
    rfl
  rw [Tree.tabled, size_attach, List.range_succ, List.filterMap_append, List.filterMap_congr old,
    List.filterMap_cons, new]
  cases node.declaration? <;> rfl

theorem Laid.tabled_take (laid : Laid tokens outline covered) (event : Event) :
    (outline.take event).tree.tabled = outline.tree.tabled ++ event.declaration?.toList := by
  have kept {new : Tree} (same : new.tabled = outline.tree.tabled) :
      new.tabled = outline.tree.tabled ++ [] := by rw [same, List.append_nil]
  cases event with
  | leaf node first last => exact laid.tabled_attach node first last
  | enter node first last => exact laid.tabled_attach node first last
  | leave close last =>
      cases entered : outline.entered with
      | nil =>
          have same : outline.take (.leave close last) = outline := by rw [take, entered]
          rw [same]
          exact kept rfl
      | cons entry rest =>
          rw [take_leave entered]
          exact kept (Tree.tabled_update entry.id fun _ => rfl)
  | yields =>
      rcases outline.take_yields with same | ⟨id, same⟩
      · rw [same]
        exact kept rfl
      · rw [same]
        exact kept (Tree.tabled_update id fun _ => rfl)
  | imports entries =>
      obtain ⟨id, same⟩ := outline.take_imports entries
      rw [same]
      exact kept (Tree.tabled_update id fun _ => rfl)

theorem tabled_of_derives {events : List Event} {point : Point}
    (derives : Derives tokens events point) :
    (ofEvents events).tree.tabled = events.filterMap Event.declaration? := by
  induction derives with
  | start => rfl
  | @step events event point next before step ih =>
      rw [ofEvents_snoc, (laid_of_derives before).1.tabled_take, ih, List.filterMap_append,
        List.filterMap_cons]
      cases event.declaration? <;> rfl

end Outline

namespace Tree

/-- The tree of a file declares what its events declare, in their order. -/
theorem declarations_of_parse {listLines : Bool} {source : Text} {tree : Tree}
    (parsed : parse listLines source = .ok tree) :
    ∃ events, Reader.eventsOf (TokenStream.ofText .html source).tokens = .ok events ∧
      tree.declarations = events.filterMap Event.declaration? := by
  obtain ⟨events, read, relined⟩ := outline_of_parse parsed
  have derives := Reader.derives_eventsOf (Scan.spelled_scan .html source)
    (Scan.tagged_scan .html source) read
  refine ⟨events, read, ?_⟩
  rw [declarations, (stretches_of_parse parsed).2.1, ← Outline.tabled_of_derives derives]
  exact tabled_congr relined.size (relined.property Node.declaration? fun _ => rfl)

theorem parse_of_eventsOf {source : Text} {events : List Event}
    (read : Reader.eventsOf (TokenStream.ofText .html source).tokens = .ok events)
    (listLines : Bool) : ∃ tree, parse listLines source = .ok tree := by
  have same : Reader.eventsOf (scan .html source).toArray = .ok events := read
  rw [parse, ofTokens?, same]
  exact ⟨_, rfl⟩

end Tree
end PhpWeave
