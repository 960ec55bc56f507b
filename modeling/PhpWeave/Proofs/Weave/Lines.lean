import PhpWeave.Proofs.Grammar.Native
import PhpWeave.Proofs.Weave.Placement

set_option autoImplicit false

/-!
Trees with their lines in order: the text has the line feeds it had, and every piece of code that a
weaver put in stands on one line, the one it says. There are three things that weavers which keep
lines do to a tree, and each keeps this: they put another body with as many line feeds in the place
of a body, they put a line of code in, and they put code with as many line feeds in the place of a
child.
-/

namespace PhpWeave

namespace Node

structure Injected (node : Node) (front : Text) : Prop where
  flags : node.flags = Flags.injectedCode
  filled : node.body ≠ []
  oneLine : '\n' ∉ node.body
  start : node.lines.start = some (min (Text.newlines front + 1) lineLimit)

structure IsCodeLeaf (node : Node) : Prop where
  kind : node.kind = .code
  close : node.close = []
  imports : node.imports = []
  scope : node.scope = none
  function : node.function = none

end Node

namespace Tree

structure Lined (feeds : Nat) (tree : Tree) : Prop where
  linked : tree.Linked
  bare : tree.Bare
  imports : ∀ id : Nat, ∀ entry ∈ (tree.node id).imports, '\n' ∉ entry.2
  feeds : Text.newlines tree.source = feeds
  injected : ∀ id ∈ tree.preorder root, (tree.node id).flags.synthetic = true →
    (tree.node id).Injected (tree.frontText root id)

variable {tree after : Tree} {feeds parent : Nat} {front back : List Nat} {gone : Option Nat}
  {added : Option Node}

theorem Native.lined (native : tree.Native) : tree.Lined (Text.newlines tree.source) where
  linked := native.linked
  bare := native.bare
  imports := fun id entry member => ((native.node id).imports entry member).oneLine
  feeds := rfl
  injected := by
    intro id _ synthetic
    rw [(native.node id).written] at synthetic
    cases synthetic

theorem Lined.not_synthetic (lined : tree.Lined feeds) {id : Nat} (member : id ∈ tree.preorder root)
    (other : (tree.node id).flags ≠ Flags.injectedCode) :
    (tree.node id).flags.synthetic = false := by
  cases synthetic : (tree.node id).flags.synthetic with
  | false => rfl
  | true => exact absurd (lined.injected id member synthetic).flags other

/-! ### Bodies -/

theorem Lined.setBody (lined : tree.Lined feeds) {id : Nat} {body : Text}
    (written : (tree.node id).flags.synthetic = false)
    (same : Text.newlines body = Text.newlines (tree.node id).body) :
    (tree.setBody id body).Lined feeds := by
  have kept {α : Type} (property : Node → α)
      (each : ∀ node body, property { node with body := body } = property node) (other : Nat) :=
    node_setBody_property tree property each id body other
  constructor
  case linked => exact lined.linked.update rfl rfl fun refers => refers
  case bare =>
    intro other isCode
    rw [children, kept Node.children fun _ _ => rfl, kept Node.close fun _ _ => rfl]
    exact lined.bare other (kept Node.kind (fun _ _ => rfl) other ▸ isCode)
  case imports =>
    intro other
    rw [kept Node.imports fun _ _ => rfl]
    exact lined.imports other
  case feeds => exact (newlines_nodeText_setBody same root).trans lined.feeds
  case injected =>
    intro other member synthetic
    rw [kept Node.flags fun _ _ => rfl] at synthetic
    rw [preorder_eq_filterMap, tour_setBody, ← preorder_eq_filterMap] at member
    have injected := lined.injected other member synthetic
    have apart : other ≠ id := by
      rintro rfl
      rw [written] at synthetic
      cases synthetic
    have untouched : (tree.setBody id body).node other = tree.node other :=
      node_update_of_ne apart _
    constructor
    case start =>
      rw [untouched, newlines_frontText_setBody same]
      exact injected.start
    all_goals rw [untouched]
    exacts [injected.flags, injected.filled, injected.oneLine]

/-! ### Splices -/

theorem Lined.spliced (lined : tree.Lined feeds)
    (spliced : tree.Spliced after parent front gone added back)
    (keeps : tree.KeepsFeeds gone added) (solid : (tree.node parent).kind ≠ .code)
    (leaf : ∀ node ∈ added, node.IsCodeLeaf)
    (placed : ∀ node ∈ added, tree.Over root parent → node.flags.synthetic = true →
      node.Injected (tree.textUpTo root parent front)) : after.Lined feeds := by
  constructor
  case linked =>
    refine lined.linked.spliced spliced fun node comes => ?_
    have isLeaf := leaf node comes
    rw [Node.RefersBelow, isLeaf.scope, isLeaf.function]
    exact ⟨fun _ none => (by cases none), fun _ none => (by cases none)⟩
  case bare =>
    intro id isCode
    rcases spliced.node_cases id with same | ⟨node, rfl, rfl, same⟩
    · rw [Node.property_eq Node.kind (fun _ => rfl) same] at isCode
      rw [spliced.children id fun here => solid (here ▸ isCode),
        Node.property_eq Node.close (fun _ => rfl) same]
      exact lined.bare id isCode
    · rw [children, spliced.attached node rfl]
      exact ⟨rfl, (leaf node rfl).close⟩
  case imports =>
    intro id
    rcases spliced.node_cases id with same | ⟨node, rfl, -, same⟩
    · rw [Node.property_eq Node.imports (fun _ => rfl) same]
      exact lined.imports id
    · rw [Node.property_eq Node.imports (fun _ => rfl) same, (leaf node rfl).imports]
      exact fun _ none => by cases none
  case feeds => exact (newlines_source_splice lined.linked spliced keeps).trans lined.feeds
  case injected =>
    intro id member synthetic
    rcases frontText_splice lined.linked spliced keeps member with
      ⟨rfl, comes, atop, front⟩ | ⟨old, feeds⟩
    · obtain ⟨node, rfl⟩ := Option.isSome_iff_exists.mp comes
      have attached := spliced.attached node rfl
      rw [attached] at synthetic ⊢
      rw [front]
      have injected := placed node rfl atop synthetic
      exact ⟨injected.flags, injected.filled, injected.oneLine, injected.start⟩
    · have inside := ((mem_preorder lined.linked lined.linked.filled).mp old).1
      have same := spliced.unlinked id inside
      rw [Node.property_eq Node.flags (fun _ => rfl) same] at synthetic
      have injected := lined.injected id old synthetic
      constructor
      case flags => exact (Node.property_eq Node.flags (fun _ => rfl) same).trans injected.flags
      case filled => exact Node.property_eq Node.body (fun _ => rfl) same ▸ injected.filled
      case oneLine => exact Node.property_eq Node.body (fun _ => rfl) same ▸ injected.oneLine
      case start =>
        rw [Node.property_eq Node.lines (fun _ => rfl) same, feeds]
        exact injected.start

theorem Lined.insert (lined : tree.Lined feeds) {parent : Nat} (inside : parent < tree.size)
    (solid : (tree.node parent).kind ≠ .code) {body : Text} (filled : body ≠ [])
    (oneLine : '\n' ∉ body) (index : Nat) :
    (tree.insert parent index
      (Node.synthetic body (some (tree.placementLine parent index)))).Lined feeds := by
  have spliced := spliced_apply lined.linked.ascending
    (.insert parent index (Node.synthetic body (some (tree.placementLine parent index)))) inside
  refine lined.spliced spliced ?_ solid ?_ ?_
  · change Text.newlines [] = Text.newlines (body ++ [])
    rw [List.append_nil]
    exact (List.count_eq_zero.mpr oneLine).symm
  · rintro node ⟨⟩
    exact ⟨rfl, rfl, rfl, rfl, rfl⟩
  · rintro node ⟨⟩ atop -
    have under : tree.Over root parent := atop
    have line := placementLine_eq lined.linked under index
    rw [List.take_eq_take_min] at line
    exact ⟨rfl, filled, oneLine, congrArg some line⟩

theorem Lined.replace (lined : tree.Lined feeds) {parent id : Nat} (inside : parent < tree.size)
    (solid : (tree.node parent).kind ≠ .code) {index : Nat}
    (here : (tree.children parent)[index]? = some id) {code : Text}
    (same : Text.newlines code = Text.newlines (tree.nodeText id)) :
    (tree.replace parent index (Node.code code)).2.Lined feeds := by
  have spliced := spliced_replace lined.linked.ascending inside here (Node.code code)
  refine lined.spliced spliced ?_ solid ?_ ?_
  · change Text.newlines (tree.nodeText id ++ []) = Text.newlines (code ++ [])
    rw [List.append_nil, List.append_nil]
    exact same.symm
  · rintro node ⟨⟩
    exact ⟨rfl, rfl, rfl, rfl, rfl⟩
  · rintro node ⟨⟩ - synthetic
    cases synthetic

/-! ### Nodes that stay -/

def KeepsKinds (old new : Tree) : Prop :=
  ∀ id < old.size, id < new.size ∧ (new.node id).kind = (old.node id).kind

theorem KeepsKinds.refl (tree : Tree) : tree.KeepsKinds tree := fun _ inside => ⟨inside, rfl⟩

theorem KeepsKinds.trans {old middle new : Tree} (first : old.KeepsKinds middle)
    (second : middle.KeepsKinds new) : old.KeepsKinds new := by
  intro id inside
  obtain ⟨known, kind⟩ := first id inside
  obtain ⟨further, same⟩ := second id known
  exact ⟨further, same.trans kind⟩

theorem Spliced.keepsKinds (spliced : tree.Spliced after parent front gone added back) :
    tree.KeepsKinds after := fun _ inside =>
  ⟨Nat.lt_of_lt_of_le inside spliced.size_le, spliced.property Node.kind (fun _ => rfl) inside⟩

theorem keepsKinds_setBody (id : Nat) (body : Text) : tree.KeepsKinds (tree.setBody id body) := by
  intro other inside
  refine ⟨?_, node_setBody_property _ Node.kind (fun _ _ => rfl) id body other⟩
  rw [Tree.setBody, size_update]
  exact inside

theorem Lined.keepsKinds_insert (lined : tree.Lined feeds) {parent : Nat}
    (inside : parent < tree.size) (index : Nat) (added : Node) :
    tree.KeepsKinds (tree.insert parent index added) :=
  (spliced_apply lined.linked.ascending (.insert parent index added) inside).keepsKinds

end Tree
end PhpWeave
