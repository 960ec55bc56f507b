import PhpWeave.Proofs.Grammar.RoundTrip
import PhpWeave.Proofs.Weave.Placement
import PhpWeave.Proofs.Weave.Rewording
import PhpWeave.Weave.Words

set_option autoImplicit false

/-!
Weavers that only change what nodes hold. Such a weaver makes one change to every node of the file,
by what the node holds itself, and leaves functions and code that a weaver put in alone. Two of them
commute when their changes do on each node.
-/

namespace PhpWeave

namespace Tree

variable {tree other : Tree}

/-- One change made to every node of the file. -/
def revise (change : Node → Node) (tree : Tree) : Tree :=
  ⟨tree.nodes.mapIdx fun id node => if id ∈ tree.preorder root then change node else node⟩

theorem size_revise (change : Node → Node) : (tree.revise change).size = tree.size :=
  Array.size_mapIdx

theorem node_revise (linked : tree.Linked) (change : Node → Node) (id : Nat) :
    (tree.revise change).node id =
      if id ∈ tree.preorder root then change (tree.node id) else tree.node id := by
  unfold revise Tree.node
  rw [Array.getElem?_mapIdx]
  cases here : tree.nodes[id]? with
  | none =>
      have absent : id ∉ tree.preorder root := fun member => by
        have inside := ((mem_preorder linked linked.filled).mp member).1
        rw [Array.getElem?_eq_getElem inside] at here
        cases here
      rw [if_neg absent]
      rfl
  | some node =>
      rw [Option.map_some, Option.getD_some, Option.getD_some]

theorem size_foldl_update (change : Node → Node) (ids : List Nat) :
    (ids.foldl (fun edited id => edited.update id change) tree).size = tree.size := by
  induction ids generalizing tree with
  | nil => rfl
  | cons id ids ih => rw [List.foldl_cons, ih, size_update]

theorem node_foldl_update (change : Node → Node) {ids : List Nat} (nodup : ids.Nodup)
    (inside : ∀ id ∈ ids, id < tree.size) (below : Nat) :
    (ids.foldl (fun edited id => edited.update id change) tree).node below =
      if below ∈ ids then change (tree.node below) else tree.node below := by
  induction ids generalizing tree with
  | nil => rfl
  | cons id ids ih =>
      obtain ⟨apart, rest⟩ := List.nodup_cons.mp nodup
      obtain ⟨here, others⟩ := List.forall_mem_cons.mp inside
      rw [List.foldl_cons, ih rest fun other member => by
        rw [size_update]
        exact others other member]
      by_cases same : below = id
      · subst same
        rw [if_neg apart, if_pos List.mem_cons_self, node_update_self here]
      · simp only [node_update_of_ne same, List.mem_cons, same, false_or]

theorem foldl_update (linked : tree.Linked) (selects : Node → Bool) (change : Node → Node) :
    ((tree.preorder root).filter fun id => selects (tree.node id)).foldl
        (fun edited id => edited.update id change) tree =
      tree.revise fun node => if selects node then change node else node := by
  have nodup := nodup_preorder linked linked.filled
  have inside (id : Nat) (member : id ∈ tree.preorder root) : id < tree.size :=
    ((mem_preorder linked linked.filled).mp member).1
  refine ext_node ((size_foldl_update change _).trans (size_revise _).symm) fun below => ?_
  rw [node_foldl_update change (nodup.filter _) fun id member =>
    inside id (List.mem_filter.mp member).1, node_revise linked]
  by_cases member : below ∈ tree.preorder root
  · simp [List.mem_filter, member]
  · simp [List.mem_filter, member]

end Tree

/-! ### Revisions -/

namespace Node

/-- A change that looks at no lines, keeps the links, the references and the kind of a node, and
leaves functions and code that a weaver put in as they are. -/
structure Revision (change : Node → Node) : Prop where
  unlined : ∀ node, (change node).unlined = (change node.unlined).unlined
  parent : ∀ node, (change node).parent = node.parent
  children : ∀ node, (change node).children = node.children
  scope : ∀ node, (change node).scope = node.scope
  function : ∀ node, (change node).function = node.function
  kind : ∀ node, (change node).kind = node.kind
  functions : ∀ node, node.kind = .function → change node = node
  injected : ∀ node, node.kind = .code → node.flags = Flags.injectedCode → change node = node

theorem Revision.id : Revision id where
  unlined _ := rfl
  parent _ := rfl
  children _ := rfl
  scope _ := rfl
  function _ := rfl
  kind _ := rfl
  functions _ _ := rfl
  injected _ _ _ := rfl

end Node

namespace Tree

variable {tree other : Tree} {change another : Node → Node}

theorem property_revise (linked : tree.Linked) {α : Type} (property : Node → α)
    (kept : ∀ node, property (change node) = property node) (id : Nat) :
    property ((tree.revise change).node id) = property (tree.node id) := by
  rw [node_revise linked]
  split
  · rw [kept]
  · rfl

theorem Linked.revise (linked : tree.Linked) (revision : Node.Revision change) :
    (tree.revise change).Linked := by
  refine linked.congr (size_revise change) (property_revise linked Node.parent revision.parent)
    (property_revise linked Node.children revision.children) fun id inside => ?_
  have refers := linked.refers id inside
  rw [Node.RefersBelow] at refers ⊢
  rw [property_revise linked Node.scope revision.scope,
    property_revise linked Node.function revision.function]
  exact refers

theorem preorder_congr (size : other.size = tree.size)
    (children : ∀ id, other.children id = tree.children id) :
    other.preorder root = tree.preorder root := by
  rw [preorder_eq_filterMap, preorder_eq_filterMap, tour, tour, size, tourWithin_congr children]

theorem preorder_revise (linked : tree.Linked) (revision : Node.Revision change) :
    (tree.revise change).preorder root = tree.preorder root :=
  preorder_congr (size_revise change) (property_revise linked Node.children revision.children)

theorem revise_comm (linked : tree.Linked) (revision : Node.Revision change)
    (second : Node.Revision another)
    (comm : ∀ node, another (change node) = change (another node)) :
    (tree.revise change).revise another = (tree.revise another).revise change := by
  refine ext_node (by rw [size_revise, size_revise, size_revise, size_revise]) fun id => ?_
  rw [node_revise (linked.revise revision), node_revise (linked.revise second),
    preorder_revise linked revision, preorder_revise linked second, node_revise linked,
    node_revise linked]
  split
  · exact comm (tree.node id)
  · rfl

theorem revise_of_fixed (linked : tree.Linked)
    (fixed : ∀ id ∈ tree.preorder root, change (tree.node id) = tree.node id) :
    tree.revise change = tree := by
  refine ext_node (size_revise change) fun below => ?_
  rw [node_revise linked]
  split
  · next member => exact fixed below member
  · rfl

theorem revise_id (linked : tree.Linked) : tree.revise id = tree :=
  revise_of_fixed linked fun _ _ => rfl

/-! ### Up to lines -/

theorem Relined.refl (tree : Tree) : Relined tree tree := ⟨rfl, fun _ => rfl⟩

theorem Relined.symm (relined : Relined tree other) : Relined other tree :=
  ⟨relined.size.symm, fun id => (relined.node id).symm⟩

theorem Relined.preorder (relined : Relined tree other) :
    other.preorder root = tree.preorder root :=
  preorder_congr relined.size (relined.property Node.children fun _ => rfl)

theorem Relined.source (relined : Relined tree other) : other.source = tree.source := by
  have text : other.partText = tree.partText := funext relined.partText
  rw [source_eq, source_eq, relined.parts, text]

theorem Linked.relined (linked : tree.Linked) (relined : Relined tree other) : other.Linked := by
  refine linked.congr relined.size (relined.property Node.parent fun _ => rfl)
    (relined.property Node.children fun _ => rfl) fun id inside => ?_
  have scope := relined.property Node.scope (fun _ => rfl) id
  have function := relined.property Node.function (fun _ => rfl) id
  have refers := linked.refers id inside
  rw [Node.RefersBelow] at refers ⊢
  rw [scope, function]
  exact refers

theorem Relined.revise (relined : Relined tree other) (linked : tree.Linked)
    (revision : Node.Revision change) : Relined (tree.revise change) (other.revise change) := by
  refine ⟨by rw [size_revise, size_revise, relined.size], fun id => ?_⟩
  rw [node_revise linked, node_revise (linked.relined relined), relined.preorder]
  split
  · rw [revision.unlined, relined.node, ← revision.unlined]
  · exact relined.node id

end Tree

/-! ### Edits and unsealing -/

def Node.edited (choose : Tokens → Nat → Option Text) (node : Node) : Node :=
  if node.isEditable then { node with body := Fragment.edited choose node.body } else node

theorem Node.edited_of_fixed {choose : Tokens → Nat → Option Text} {node : Node}
    (fixed : node.isEditable = false) : node.edited choose = node := by
  rw [Node.edited, fixed]
  rfl

theorem Node.revision_edited (choose : Tokens → Nat → Option Text) :
    Node.Revision (Node.edited choose) := by
  have kept {α : Type} (property : Node → α)
      (each : ∀ node body, property { node with body := body } = property node) (node : Node) :
      property (node.edited choose) = property node := by
    unfold Node.edited
    split
    · exact each node _
    · rfl
  constructor
  case unlined =>
    intro node
    have same : node.unlined.isEditable = node.isEditable := rfl
    rw [Node.edited, Node.edited, same]
    split <;> rfl
  case functions =>
    intro node isFunction
    exact edited_of_fixed (by rw [isEditable, isFunction]; rfl)
  case injected =>
    intro node _ flags
    exact edited_of_fixed (by rw [isEditable, flags]; simp [Flags.injectedCode])
  all_goals exact kept _ fun _ _ => rfl

theorem Node.edited_comm {choose another : Tokens → Nat → Option Text}
    (comm : ∀ code, Fragment.edited another (Fragment.edited choose code) =
      Fragment.edited choose (Fragment.edited another code)) (node : Node) :
    (node.edited choose).edited another = (node.edited another).edited choose := by
  cases editable : node.isEditable with
  | false => simp only [Node.edited, editable, Bool.false_eq_true, if_false]
  | true =>
      have again (body : Text) : ({ node with body := body } : Node).isEditable = true := editable
      simp only [Node.edited, editable, again, if_true, comm]

def Node.unsealedHeader (node : Node) : Node :=
  match Unsealing.unsealed? node.body with
  | none => node
  | some header => { node with body := header, flags := { node.flags with sealed := false } }

def Node.unsealed (node : Node) : Node :=
  if node.kind.isClassLike && node.flags.sealed then node.unsealedHeader else node

theorem Node.unsealed_of_not_class {node : Node} (other : node.kind.isClassLike = false) :
    node.unsealed = node := by
  rw [Node.unsealed, other]
  rfl

theorem Node.unsealed_property {α : Type} (property : Node → α)
    (kept : ∀ node body flags, property { node with body := body, flags := flags } = property node)
    (node : Node) : property node.unsealed = property node := by
  unfold Node.unsealed Node.unsealedHeader
  split
  · split
    · rfl
    · exact kept node _ _
  · rfl

theorem Node.revision_unsealed : Node.Revision Node.unsealed := by
  constructor
  case unlined =>
    intro node
    change (if node.kind.isClassLike && node.flags.sealed then _ else node).unlined =
      (if node.kind.isClassLike && node.flags.sealed then node.unlined.unsealedHeader
        else node.unlined).unlined
    split
    · rw [Node.unsealedHeader, Node.unsealedHeader]
      change _ = (match Unsealing.unsealed? node.body with
        | none => node.unlined
        | some header => _).unlined
      split <;> rfl
    · rfl
  case functions =>
    intro node isFunction
    exact Node.unsealed_of_not_class (by rw [isFunction]; rfl)
  case injected =>
    intro node isCode _
    exact Node.unsealed_of_not_class (by rw [isCode]; rfl)
  all_goals exact Node.unsealed_property _ fun _ _ _ => rfl

theorem Node.unsealed_edited (choose : Tokens → Nat → Option Text) (node : Node) :
    (node.edited choose).unsealed = node.unsealed.edited choose := by
  have kind : node.unsealed.kind = node.kind :=
    Node.unsealed_property Node.kind (fun _ _ _ => rfl) node
  cases isClass : node.kind.isClassLike with
  | false =>
      have edited : (node.edited choose).kind = node.kind := (revision_edited choose).kind node
      rw [Node.unsealed_of_not_class isClass, Node.unsealed_of_not_class (by rw [edited, isClass])]
  | true =>
      have fixed {other : Node} (same : other.kind = node.kind) : other.edited choose = other := by
        have noCode : node.kind ≠ .code := by
          rintro isCode
          rw [isCode] at isClass
          cases isClass
        rw [Node.edited, isEditable, same, decide_eq_false noCode]
        rfl
      rw [fixed rfl, fixed kind]

theorem Tree.editCode_eq {tree : Tree} (linked : tree.Linked)
    (choose : Tokens → Nat → Option Text) :
    tree.editCode choose = tree.revise (Node.edited choose) := by
  have step : Tree.editNode choose = fun edited id =>
      edited.update id fun node => { node with body := Fragment.edited choose node.body } := by
    funext edited id
    rw [editNode]
    cases replaced : Fragment.replace choose (edited.node id).body with
    | none =>
        refine (update_eq_self ?_).symm
        rw [Fragment.edited, replaced]
        rfl
    | some body =>
        refine update_congr ?_
        rw [Fragment.edited, replaced]
        rfl
  rw [editCode, step]
  exact foldl_update linked Node.isEditable _

theorem Unsealing.weave_eq {tree : Tree} (linked : tree.Linked) (unsealing : Unsealing)
    (file : Option Path) : (Weaver.weave unsealing tree file).2 = tree.revise Node.unsealed := by
  have step (state : Unsealing × Tree) (id : Nat) :
      (unsealNode state id).2 = state.2.update id Node.unsealedHeader := by
    unfold unsealNode
    cases found : unsealed? (state.2.node id).body with
    | none =>
        refine (Tree.update_eq_self ?_).symm
        rw [Node.unsealedHeader, found]
    | some header =>
        refine Tree.update_congr ?_
        rw [Node.unsealedHeader, found]
  have trees (ids : List Nat) (state : Unsealing × Tree) : (ids.foldl unsealNode state).2 =
      ids.foldl (fun edited id => edited.update id Node.unsealedHeader) state.2 := by
    induction ids generalizing state with
    | nil => rfl
    | cons id ids ih => rw [List.foldl_cons, List.foldl_cons, ih, step]
  exact (trees _ _).trans (Tree.foldl_update linked
    (fun node => node.kind.isClassLike && node.flags.sealed) Node.unsealedHeader)

end PhpWeave
