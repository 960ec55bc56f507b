import PhpWeave.Proofs.Weave.Lines
import PhpWeave.Weave.Isolation

set_option autoImplicit false

/-!
Isolation keeps lines. A child is kept, silenced or reduced to its line feeds, and the isolation of
a namespace changes no list of children but its own and those below it; so the children still to
come stay at their places.
-/

namespace PhpWeave

open PhpWeave.Tree

variable {tree : Tree} {feeds : Nat}

namespace Isolation

theorem fateByKind_silence {id : Nat} (isOne : fateByKind tree id = .silence) :
    (tree.node id).isTag = true ∧ isPrintingTag (tree.node id).body = true := by
  unfold fateByKind at isOne
  simp only at isOne
  split at isOne
  · cases isOne
  · cases isOne
  · split at isOne <;> cases isOne
  · split at isOne
    · next isTag =>
        split at isOne
        · next prints => exact ⟨isTag, prints⟩
        · cases isOne
    · cases isOne
  · cases isOne

theorem fateByKind_ne_closeDirective (id : Nat) : fateByKind tree id ≠ .closeDirective := by
  unfold fateByKind
  simp only
  split
  · exact Fate.noConfusion
  · exact Fate.noConfusion
  · split <;> exact Fate.noConfusion
  · split
    · split <;> exact Fate.noConfusion
    · exact Fate.noConfusion
  · exact Fate.noConfusion

theorem fate_cases (tree : Tree) (depth : Depth) (id : Nat) :
    (fate tree depth id).1 = fateByKind tree id ∨ (fate tree depth id).1 = .keep ∨
      (fate tree depth id).1 = .closeDirective ∧ (tree.node id).kind = .code := by
  unfold fate
  simp only
  split
  · next plain =>
      split
      · exact .inr (.inl rfl)
      · split
        · exact .inl rfl
        · split
          · exact .inr (.inr ⟨rfl, plain.1⟩)
          · exact .inl rfl
  · exact .inl rfl

/-- Only a namespace is looked into. -/
theorem scope_of_descend {tree : Tree} {id : Nat} {depth : Depth}
    (fated : (fate tree depth id).1 = .descend) : (tree.node id).kind = .scope := by
  rcases fate_cases tree depth id with same | same | ⟨same, -⟩
  · rw [same] at fated
    unfold fateByKind at fated
    grind
  · rw [same] at fated
    cases fated
  · rw [same] at fated
    cases fated

theorem tag_of_silence {tree : Tree} {id : Nat} {depth : Depth}
    (fated : (fate tree depth id).1 = .silence) :
    (tree.node id).isTag = true ∧ isPrintingTag (tree.node id).body = true := by
  rcases fate_cases tree depth id with same | same | ⟨same, -⟩
  · exact fateByKind_silence (same ▸ fated)
  · rw [same] at fated
    cases fated
  · rw [same] at fated
    cases fated

theorem code_of_closeDirective {tree : Tree} {id : Nat} {depth : Depth}
    (fated : (fate tree depth id).1 = .closeDirective) : (tree.node id).kind = .code := by
  rcases fate_cases tree depth id with same | same | ⟨-, isCode⟩
  · exact absurd (same ▸ fated) (fateByKind_ne_closeDirective id)
  · rw [same] at fated
    cases fated
  · exact isCode

theorem newlines_silentTag {tag : Text} (prints : isPrintingTag tag = true) :
    Text.newlines (silentTag tag) = Text.newlines tag := by
  obtain ⟨rest, rfl⟩ := List.isPrefixOf_iff_prefix.mp prints
  rfl

theorem nodeText_of_bare (lined : tree.Lined feeds) {id : Nat} (inside : id < tree.size)
    (isCode : (tree.node id).kind = .code) : tree.nodeText id = (tree.node id).body := by
  obtain ⟨childless, close⟩ := lined.bare id isCode
  rw [nodeText_eq, tour_eq lined.linked.ascending inside, childless]
  simp [partText, close]

structure IsolatedBelow (feeds parent : Nat) (old new : Tree) : Prop where
  lined : new.Lined feeds
  size : old.size ≤ new.size
  children : ∀ id < parent, new.children id = old.children id

structure Settled (feeds parent : Nat) (done rest : List Nat) (old new : Tree) : Prop
    extends IsolatedBelow feeds parent old new where
  remaining : ∃ kept, kept.length = done.length + 1 ∧ new.children parent = kept ++ rest

section Child

variable {parent id : Nat} {done rest : List Nat}

theorem settled_of_children {new : Tree} (children : tree.children parent = done ++ id :: rest)
    (isolated : IsolatedBelow feeds parent tree new)
    (same : new.children parent = tree.children parent) : Settled feeds parent done rest tree new :=
  { isolated with
    remaining := ⟨done ++ [id], List.length_append, by
      rw [same, children, List.append_assoc, List.singleton_append]⟩ }

theorem spliced_putCode (linked : tree.Linked)
    (children : tree.children parent = done ++ id :: rest) (code : Text) :
    tree.Spliced (putCode tree parent done.length code) parent done (some id)
      (some (Node.code code)) rest := by
  have bounds := linked.ascending.of_children children
  have here : (tree.children parent)[done.length]? = some id := by
    rw [children, List.getElem?_append_right (Nat.le_refl _), Nat.sub_self]
    rfl
  have spliced := spliced_replace linked.ascending (Nat.lt_trans bounds.1 bounds.2) here
    (Node.code code)
  have behind : (tree.children parent).drop (done.length + 1) = rest := by
    simp [children, List.drop_append]
  rw [behind, children, List.take_left] at spliced
  exact spliced

theorem settled_putCode (lined : tree.Lined feeds)
    (children : tree.children parent = done ++ id :: rest) {code : Text}
    (same : Text.newlines code = Text.newlines (tree.nodeText id)) :
    Settled feeds parent done rest tree (putCode tree parent done.length code) := by
  have bounds := lined.linked.ascending.of_children children
  have solid : (tree.node parent).kind ≠ .code := by
    intro isCode
    rw [(lined.bare parent isCode).1] at children
    simp at children
  have here : (tree.children parent)[done.length]? = some id := by
    rw [children, List.getElem?_append_right (Nat.le_refl _), Nat.sub_self]
    rfl
  have spliced := spliced_putCode lined.linked children code
  refine ⟨⟨lined.replace (Nat.lt_trans bounds.1 bounds.2) solid here same, spliced.size_le,
    fun other before => spliced.children other (Nat.ne_of_lt before)⟩, done ++ [tree.size],
    List.length_append, ?_⟩
  rw [spliced.childrenAfter, List.append_assoc]
  rfl

theorem isolated_silence (lined : tree.Lined feeds) (isTag : (tree.node id).isTag = true)
    (prints : isPrintingTag (tree.node id).body = true) :
    IsolatedBelow feeds parent tree (tree.setBody id (silentTag (tree.node id).body)) where
  lined := by
    refine lined.setBody ?_ (newlines_silentTag prints)
    simp only [Node.isTag, Bool.and_eq_true, decide_eq_true_eq] at isTag
    rw [isTag.1.2]
    rfl
  size := Nat.le_of_eq (size_update id _).symm
  children other _ := node_setBody_property tree Node.children (fun _ _ => rfl) id _ other

theorem settle_isolated {inside : Tree → NodeId → Tree}
    (isolates : ∀ tree : Tree, tree.Lined feeds → ∀ id < tree.size,
      IsolatedBelow feeds id tree (inside tree id))
    (lined : tree.Lined feeds) (children : tree.children parent = done ++ id :: rest)
    (depth : Depth) :
    Settled feeds parent done rest tree
      (settle inside tree parent done.length id (fate tree depth id).1) := by
  have bounds := lined.linked.ascending.of_children children
  cases fated : (fate tree depth id).1 with
  | keep => exact settled_of_children children ⟨lined, Nat.le_refl _, fun _ _ => rfl⟩ rfl
  | descend =>
      have below := isolates tree lined id bounds.2
      exact settled_of_children children ⟨below.lined, below.size, fun other before =>
        below.children other (Nat.lt_trans before bounds.1)⟩ (below.children parent bounds.1)
  | silence =>
      obtain ⟨isTag, prints⟩ := tag_of_silence fated
      have silenced : settle inside tree parent done.length id .silence =
          tree.setBody id (silentTag (tree.node id).body) := update_body id silentTag
      rw [silenced]
      exact settled_of_children children (isolated_silence lined isTag prints)
        (node_setBody_property tree Node.children (fun _ _ => rfl) id _ parent)
  | clear => exact settled_putCode lined children (Text.newlines_newlinesOnly _)
  | closeDirective =>
      have isCode := code_of_closeDirective fated
      refine settled_putCode lined children ?_
      rw [nodeText_of_bare lined bounds.2 isCode, Text.newlines_append,
        Text.newlines_newlinesOnly]
      rfl

end Child

theorem isolateChildren_isolated {inside : Tree → NodeId → Tree} {parent : Nat}
    (isolates : ∀ tree : Tree, tree.Lined feeds → ∀ id < tree.size,
      IsolatedBelow feeds id tree (inside tree id))
    (lined : tree.Lined feeds) {done rest : List Nat}
    (children : tree.children parent = done ++ rest)
    (depth : Depth) :
    IsolatedBelow feeds parent tree
      (isolateChildren inside parent tree depth done.length rest) := by
  induction rest generalizing tree done depth with
  | nil => exact ⟨lined, Nat.le_refl _, fun _ _ => rfl⟩
  | cons id rest ih =>
      have settled := settle_isolated isolates lined children depth
      obtain ⟨kept, length, remaining⟩ := settled.remaining
      have later := ih settled.lined remaining (fate tree depth id).2
      rw [isolateChildren, ← length]
      exact ⟨later.lined, Nat.le_trans settled.size later.size, fun other before =>
        (later.children other before).trans (settled.children other before)⟩

theorem isolateWithin_isolated (fuel : Nat) {tree : Tree} (lined : tree.Lined feeds) (parent : Nat)
    (_ : parent < tree.size) :
      IsolatedBelow feeds parent tree (isolateWithin fuel tree parent) := by
  induction fuel generalizing tree parent with
  | zero => exact ⟨lined, Nat.le_refl _, fun _ _ => rfl⟩
  | succ fuel ih =>
      rw [isolateWithin]
      have children : tree.children parent = [] ++ tree.children parent := rfl
      exact isolateChildren_isolated (fun tree lined id inside => ih lined id inside)
        lined children {}

theorem lined_isolate (lined : tree.Lined feeds) : (isolate tree).Lined feeds :=
  (isolateWithin_isolated tree.size lined root lined.linked.filled).lined

end Isolation
end PhpWeave
