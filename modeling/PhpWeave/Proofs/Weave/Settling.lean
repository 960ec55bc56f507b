import Mathlib.Data.List.Forall2
import PhpWeave.Proofs.Weave.Isolation

set_option autoImplicit false

/-!
What an isolation makes of every child of every level, where the levels are the file and the
namespaces in levels. Each child is met as it was in the beginning, for nothing in it has changed
when the ones in front of it were settled; and what it has become stays, for it does not change when
the ones behind it are.
-/

namespace PhpWeave

namespace Text

structure ByParts (Alike : Text → Text → Prop) : Prop where
  refl : ∀ text, Alike text text
  append : ∀ {front back front' back'}, Alike front front' → Alike back back' →
    Alike (front ++ back) (front' ++ back')

theorem ByParts.flatMap {Alike : Text → Text → Prop} (parts : ByParts Alike) {α β : Type}
    {f : α → Text} {g : β → Text} {left : List α} {right : List β}
    (all : List.Forall₂ (fun a b => Alike (f a) (g b)) left right) :
    Alike (left.flatMap f) (right.flatMap g) := by
  induction all with
  | nil => exact parts.refl []
  | cons first _ ih => exact parts.append first ih

end Text

namespace Tree

variable {old mid new : Tree} {id : Nat}

def Agrees (old new : Tree) (id : Nat) : Prop :=
  new.children id = old.children id ∧ (new.node id).unlinked = (old.node id).unlinked

theorem Agrees.trans (first : old.Agrees mid id) (second : mid.Agrees new id) :
    old.Agrees new id :=
  ⟨second.1.trans first.1, second.2.trans first.2⟩

theorem Agrees.property (agrees : old.Agrees new id) {α : Type} (property : Node → α)
    (kept : ∀ node, property node.unlinked = property node) :
    property (new.node id) = property (old.node id) := Node.property_eq property kept agrees.2

theorem nodeText_children (ascending : new.Ascending) (inside : id < new.size) :
    new.nodeText id =
      (new.node id).body ++ ((new.children id).flatMap new.nodeText ++ (new.node id).close) := by
  rw [nodeText_eq, tour_eq ascending inside, List.flatMap_cons, List.flatMap_append,
    flatMap_nodeText, List.flatMap_singleton]
  rfl

/-- The text of a node is made of what is below it. -/
theorem nodeText_of_agrees (linked : old.Linked) (after : new.Ascending)
    (size : old.size ≤ new.size) (inside : id < old.size)
    (agrees : ∀ below, old.Over id below → old.Agrees new below) :
    new.nodeText id = old.nodeText id := by
  induction gap : old.size - id using Nat.strongRecOn generalizing id with
  | ind gap ih =>
      have here := agrees id (.inl rfl)
      have below : (old.children id).flatMap new.nodeText =
          (old.children id).flatMap old.nodeText := by
        rw [List.flatMap_def, List.flatMap_def]
        congr 1
        apply List.map_congr_left
        intro child member
        have bounds := linked.ascending.children id child member
        have link := (linked.parent_iff child id).mpr member
        exact ih (old.size - child) (by omega) bounds.2
          (fun other atop => agrees other (.inr (atop.link linked.ascending link))) rfl
      rw [nodeText_children after (Nat.lt_of_lt_of_le inside size),
        nodeText_children linked.ascending inside, here.1, below,
        here.property Node.body fun _ => rfl, here.property Node.close fun _ => rfl]

end Tree

namespace Isolation

open PhpWeave.Tree

theorem fate_congr {old new : Tree} {id : Nat}
    (same : (new.node id).unlinked = (old.node id).unlinked) (depth : Depth) :
    fate new depth id = fate old depth id := by
  have kind := Node.property_eq Node.kind (fun _ => rfl) same
  have flags := Node.property_eq Node.flags (fun _ => rfl) same
  have body := Node.property_eq Node.body (fun _ => rfl) same
  simp only [fate, fateByKind, Tree.isDirective, Node.isEditable, Node.isTag, kind, flags, body]
  rfl

theorem fate_of_scope {tree : Tree} {id : Nat} (isScope : (tree.node id).kind = .scope)
    (depth : Depth) : fate tree depth id = (.descend, depth) := by
  unfold fate fateByKind
  simp [isScope]

/-- The levels at or under a node: the node, and the namespaces in its levels. -/
inductive LevelUnder (tree : Tree) : Nat → Nat → Prop where
  | here (top : Nat) : LevelUnder tree top top
  | further {top id level : Nat} (member : id ∈ tree.children top)
      (isScope : (tree.node id).kind = .scope) (inner : LevelUnder tree id level) :
      LevelUnder tree top level

theorem LevelUnder.over {tree : Tree} (linked : tree.Linked) {top level : Nat}
    (isLevel : LevelUnder tree top level) : tree.Over top level := by
  induction isLevel with
  | here top => exact .inl rfl
  | further member isScope inner ih =>
      exact .inr (ih.link linked.ascending ((linked.parent_iff _ _).mpr member))

theorem LevelUnder.inside {tree : Tree} {top level id : Nat} (outer : LevelUnder tree top level)
    (member : id ∈ tree.children level) (isScope : (tree.node id).kind = .scope) :
    LevelUnder tree top id := by
  induction outer with
  | here top => exact .further member isScope (.here id)
  | further isInner innerScope _ ih => exact .further isInner innerScope (ih member)

theorem LevelUnder.last_cases {tree : Tree} {top level : Nat}
    (isLevel : LevelUnder tree top level) :
    level = top ∨ ∃ outer, LevelUnder tree top outer ∧ level ∈ tree.children outer ∧
      (tree.node level).kind = .scope := by
  induction isLevel with
  | here top => exact .inl rfl
  | @further top id level member isScope inner ih =>
      rcases ih with rfl | ⟨outer, isOuter, last⟩
      · exact .inr ⟨top, .here top, member, isScope⟩
      · exact .inr ⟨outer, .further member isScope isOuter, last⟩

structure IsPut (origin new : Tree) (child : Nat) (code : Text) : Prop where
  fresh : origin.size ≤ child
  inside : child < new.size
  children : new.children child = []
  node : (new.node child).unlinked = (Node.code code).unlinked

theorem IsPut.property {origin new : Tree} {child : Nat} {code : Text}
    (isPut : IsPut origin new child code) {α : Type} (property : Node → α)
    (kept : ∀ node, property node.unlinked = property node) :
    property (new.node child) = property (Node.code code) :=
  Node.property_eq property kept isPut.node

/-- What a child has become. -/
def Becomes (origin new : Tree) (id child : Nat) : Fate → Prop
  | .keep => child = id ∧ ∀ below, origin.Over id below → origin.Agrees new below
  | .descend => child = id ∧ (new.node id).unlinked = (origin.node id).unlinked
  | .silence => child = id ∧ new.children id = origin.children id ∧
    (new.node id).unlinked =
      { origin.node id with body := silentTag (origin.node id).body }.unlinked
  | .clear => IsPut origin new child (Text.newlinesOnly (origin.nodeText id))
  | .closeDirective =>
    IsPut origin new child (Text.newlinesOnly (origin.node id).body ++ ['\x7d'])

inductive Settles (origin new : Tree) : Depth → List Nat → List Nat → Prop where
  | nil (depth : Depth) : Settles origin new depth [] []
  | cons {depth : Depth} {id child : Nat} {rest later : List Nat}
      (becomes : Becomes origin new id child (fate origin depth id).1)
      (settles : Settles origin new (fate origin depth id).2 rest later) :
      Settles origin new depth (id :: rest) (child :: later)

private theorem exists_related {α β : Type} {R : α → β → Prop} {left : List α} {right : List β}
    (all : List.Forall₂ R left right) {a : α} (member : a ∈ left) : ∃ b, R a b := by
  induction all with
  | nil => cases member
  | cons first _ ih =>
      rcases List.mem_cons.mp member with rfl | later
      · exact ⟨_, first⟩
      · exact ih later

theorem Settles.becomes_of_mem {origin new : Tree} {depth : Depth} {ids children : List Nat}
    (settles : Settles origin new depth ids children) {id : Nat} (member : id ∈ ids) :
    ∃ child ∈ children, ∃ depth, Becomes origin new id child (fate origin depth id).1 := by
  induction settles with
  | nil depth => cases member
  | @cons depth first child rest later becomes settles ih =>
      rcases List.mem_cons.mp member with rfl | among
      · exact ⟨child, List.mem_cons_self, depth, becomes⟩
      · obtain ⟨other, isOther, further⟩ := ih among
        exact ⟨other, .tail _ isOther, further⟩

theorem Settles.becomes_of_child {origin new : Tree} {depth : Depth} {ids children : List Nat}
    (settles : Settles origin new depth ids children) {child : Nat} (member : child ∈ children) :
    ∃ id ∈ ids, ∃ depth, Becomes origin new id child (fate origin depth id).1 := by
  induction settles with
  | nil depth => cases member
  | @cons depth id first rest later becomes settles ih =>
      rcases List.mem_cons.mp member with rfl | among
      · exact ⟨id, List.mem_cons_self, depth, becomes⟩
      · obtain ⟨other, isOther, further⟩ := ih among
        exact ⟨other, .tail _ isOther, further⟩

theorem Settles.forall {origin new : Tree} {depth : Depth} {ids children : List Nat}
    (settles : Settles origin new depth ids children) {R : Nat → Nat → Prop}
    (each : ∀ id ∈ ids, ∀ child ∈ children, ∀ depth,
      Becomes origin new id child (fate origin depth id).1 → R id child) :
    List.Forall₂ R ids children := by
  induction settles with
  | nil depth => exact .nil
  | cons becomes settles ih =>
      exact .cons (each _ List.mem_cons_self _ List.mem_cons_self _ becomes)
        (ih fun id among child listed => each id (.tail _ among) child (.tail _ listed))

theorem Settles.scopes {origin new : Tree} {depth : Depth} {ids children : List Nat}
    (settles : Settles origin new depth ids children) :
    List.Forall₂ (fun id child => (origin.node id).kind = .scope → child = id) ids children := by
  apply settles.forall
  intro id _ child _ depth becomes isScope
  rw [fate_of_scope isScope] at becomes
  exact becomes.1

theorem Becomes.of_scope {origin new : Tree} {id child : Nat} {fated : Fate}
    (becomes : Becomes origin new id child fated) (isScope : (new.node child).kind = .scope) :
    child = id ∧ (origin.node id).kind = .scope := by
  have noPut {code : Text} (isPut : IsPut origin new child code) : False := by
    rw [isPut.property Node.kind fun _ => rfl] at isScope
    cases isScope
  cases fated with
  | keep =>
      obtain ⟨rfl, agrees⟩ := becomes
      exact ⟨rfl, ((agrees child (.inl rfl)).property Node.kind fun _ => rfl).symm.trans isScope⟩
  | descend =>
      obtain ⟨rfl, same⟩ := becomes
      exact ⟨rfl, (Node.property_eq Node.kind (fun _ => rfl) same).symm.trans isScope⟩
  | silence =>
      obtain ⟨rfl, -, same⟩ := becomes
      exact ⟨rfl, (Node.property_eq Node.kind (fun _ => rfl) same).symm.trans isScope⟩
  | clear => exact (noPut becomes).elim
  | closeDirective => exact (noPut becomes).elim

section Later

variable {origin mid new : Tree}

theorem IsPut.later {child : Nat} {code : Text} (isPut : IsPut origin mid child code)
    (size : mid.size ≤ new.size) (agrees : mid.Agrees new child) : IsPut origin new child code where
  fresh := isPut.fresh
  inside := Nat.lt_of_lt_of_le isPut.inside size
  children := agrees.1.trans isPut.children
  node := agrees.2.trans isPut.node

theorem Becomes.later {id child : Nat} {fated : Fate} (becomes : Becomes origin mid id child fated)
    (size : mid.size ≤ new.size) (below : ∀ other, origin.Over id other → mid.Agrees new other)
    (fresh : ∀ other, origin.size ≤ other → other < mid.size → mid.Agrees new other) :
    Becomes origin new id child fated := by
  cases fated with
  | keep => exact ⟨becomes.1, fun other atop => (becomes.2 other atop).trans (below other atop)⟩
  | descend => exact ⟨becomes.1, (below id (.inl rfl)).2.trans becomes.2⟩
  | silence =>
      have agrees := below id (.inl rfl)
      exact ⟨becomes.1, agrees.1.trans becomes.2.1, agrees.2.trans becomes.2.2⟩
  | clear => exact IsPut.later becomes size (fresh child becomes.fresh becomes.inside)
  | closeDirective => exact IsPut.later becomes size (fresh child becomes.fresh becomes.inside)

theorem Settles.later {depth : Depth} {ids children : List Nat}
    (settles : Settles origin mid depth ids children) (size : mid.size ≤ new.size)
    (below : ∀ id ∈ ids, ∀ other, origin.Over id other → mid.Agrees new other)
    (fresh : ∀ other, origin.size ≤ other → other < mid.size → mid.Agrees new other) :
    Settles origin new depth ids children := by
  induction settles with
  | nil depth => exact .nil depth
  | cons becomes settles ih =>
      exact .cons (becomes.later size (below _ List.mem_cons_self) fresh)
        (ih fun id member => below id (.tail _ member))

end Later

/-- What the isolation of the nodes below a level has done. -/
structure Isolated (origin : Tree) (parent : Nat) (old new : Tree) : Prop where
  size : old.size ≤ new.size
  spares : ∀ other < old.size, ¬ origin.Over parent other → old.Agrees new other
  itself : (new.node parent).unlinked = (old.node parent).unlinked
  settles : ∀ level, LevelUnder origin parent level →
    Settles origin new {} (origin.children level) (new.children level)

/-! ### One child -/

section Child

variable {origin now : Tree} {feeds parent id : Nat} {done rest : List Nat}

structure Turned (origin : Tree) (parent id : Nat) (done rest : List Nat) (fated : Fate)
    (old new : Tree) : Prop where
  size : old.size ≤ new.size
  spares : ∀ other < old.size, other ≠ parent → ¬ origin.Over id other → old.Agrees new other
  itself : (new.node parent).unlinked = (old.node parent).unlinked
  placed : ∃ child, new.children parent = done ++ child :: rest ∧ Becomes origin new id child fated
  settles : (origin.node id).kind = .scope → ∀ level, LevelUnder origin id level →
    Settles origin new {} (origin.children level) (new.children level)

theorem turned_putCode (linked : now.Linked) (size : origin.size ≤ now.size)
    (children : now.children parent = done ++ id :: rest) (code : Text) {fated : Fate}
    (isPut : ∀ new child, IsPut origin new child code → Becomes origin new id child fated)
    (noScope : (origin.node id).kind ≠ .scope) :
    Turned origin parent id done rest fated now (putCode now parent done.length code) := by
  have spliced := spliced_putCode linked children code
  have bounds := linked.ascending.of_children children
  constructor
  case size => exact spliced.size_le
  case spares =>
    exact fun other inside apart _ => ⟨spliced.children other apart, spliced.unlinked other inside⟩
  case itself => exact spliced.unlinked parent (Nat.lt_trans bounds.1 bounds.2)
  case placed =>
    refine ⟨now.size, spliced.childrenAfter, isPut _ _ ⟨size, ?_, ?_, ?_⟩⟩
    · rw [spliced.size]
      exact Nat.lt_succ_self _
    · rw [Tree.children, spliced.attached _ rfl]
    · rw [spliced.attached _ rfl]
      rfl
  case settles => exact fun isScope => absurd isScope noScope

theorem turned_silence (linked : now.Linked) (children : now.children parent = done ++ id :: rest)
    (agrees : origin.Agrees now id) (noScope : (origin.node id).kind ≠ .scope) :
    Turned origin parent id done rest .silence now
      (now.setBody id (silentTag (now.node id).body)) := by
  have bounds := linked.ascending.of_children children
  have kept (other : Nat) : (now.setBody id (silentTag (now.node id).body)).children other =
      now.children other := node_setBody_property now Node.children (fun _ _ => rfl) id _ other
  have others {other : Nat} (apart : other ≠ id) :
      (now.setBody id (silentTag (now.node id).body)).node other = now.node other :=
    node_update_of_ne apart _
  constructor
  case size => exact Nat.le_of_eq (size_update id _).symm
  case spares =>
    intro other _ _ apart
    exact ⟨kept other, congrArg Node.unlinked (others fun same => apart (.inl same.symm))⟩
  case itself => exact congrArg Node.unlinked (others (Nat.ne_of_lt bounds.1))
  case placed =>
    refine ⟨id, (kept parent).trans children, rfl, (kept id).trans agrees.1, ?_⟩
    have body := agrees.property Node.body fun _ => rfl
    have changed : ((now.setBody id (silentTag (now.node id).body)).node id).unlinked =
        { (now.node id).unlinked with body := silentTag (now.node id).body } := by
      rw [setBody, node_update_self bounds.2]
      rfl
    rw [changed, agrees.2, body]
    rfl
  case settles => exact fun isScope => absurd isScope noScope

/-- A child that is still as it was becomes what its fate says. -/
theorem turned_of_fate (linked : origin.Linked) (lined : now.Lined feeds)
    (size : origin.size ≤ now.size) (children : now.children parent = done ++ id :: rest)
    (inside : id < origin.size)
    (agrees : ∀ below, origin.Over id below → origin.Agrees now below) (depth : Depth)
    {within : Tree → NodeId → Tree}
    (isolates : (origin.node id).kind = .scope → Isolated origin id now (within now id))
    (outer : ¬ origin.Over id parent) :
    Turned origin parent id done rest (fate origin depth id).1 now
      (settle within now parent done.length id (fate origin depth id).1) := by
  have bounds := lined.linked.ascending.of_children children
  have noScope (other : (fate origin depth id).1 ≠ .descend) :
      (origin.node id).kind ≠ .scope := fun isScope =>
    other (congrArg Prod.fst (fate_of_scope isScope depth))
  cases fated : (fate origin depth id).1 with
  | keep =>
      exact ⟨Nat.le_refl _, fun _ _ _ _ => ⟨rfl, rfl⟩, rfl, ⟨id, children, rfl, agrees⟩,
        fun isScope => absurd isScope (noScope (by simp [fated]))⟩
  | descend =>
      have isolated := isolates (scope_of_descend fated)
      have same := isolated.spares parent (Nat.lt_trans bounds.1 bounds.2) outer
      exact ⟨isolated.size, fun other inside _ apart => isolated.spares other inside apart, same.2,
        ⟨id, same.1.trans children, rfl, isolated.itself.trans (agrees id (.inl rfl)).2⟩,
        fun _ => isolated.settles⟩
  | silence =>
      have silenced : settle within now parent done.length id .silence =
          now.setBody id (silentTag (now.node id).body) := update_body id silentTag
      rw [silenced]
      exact turned_silence lined.linked children (agrees id (.inl rfl))
        (noScope (by simp [fated]))
  | clear =>
      refine turned_putCode lined.linked size children _ (fun new child isPut => ?_)
        (noScope (by simp [fated]))
      rw [nodeText_of_agrees linked lined.linked.ascending size inside agrees] at isPut
      exact isPut
  | closeDirective =>
      have body := (agrees id (.inl rfl)).property Node.body fun _ => rfl
      refine turned_putCode lined.linked size children _ (fun new child isPut => ?_)
        (noScope (by simp [fated]))
      rw [body] at isPut
      exact isPut

structure Ran (origin : Tree) (parent : Nat) (done rest : List Nat) (depth : Depth)
    (old new : Tree) : Prop where
  size : old.size ≤ new.size
  spares : ∀ other < old.size, other ≠ parent → (∀ id ∈ rest, ¬ origin.Over id other) →
    old.Agrees new other
  itself : (new.node parent).unlinked = (old.node parent).unlinked
  placed : ∃ later, new.children parent = done ++ later ∧ Settles origin new depth rest later
  settles : ∀ id ∈ rest, (origin.node id).kind = .scope → ∀ level, LevelUnder origin id level →
    Settles origin new {} (origin.children level) (new.children level)

/-- One child is settled, and then the others are. -/
theorem Ran.cons (linked : origin.Linked) (size : origin.size ≤ now.size) {front : List Nat}
    (among : origin.children parent = front ++ id :: rest) {depth : Depth} {mid new : Tree}
    (turned : Turned origin parent id done rest (fate origin depth id).1 now mid)
    (ran : ∀ child, mid.children parent = done ++ child :: rest →
      Ran origin parent (done ++ [child]) rest (fate origin depth id).2 mid new) :
    Ran origin parent done (id :: rest) depth now new := by
  obtain ⟨child, children, becomes⟩ := turned.placed
  have later := ran child children
  have bounds := linked.ascending.of_children among
  have grown := Nat.le_trans size turned.size
  -- What comes behind the child changes nothing below it, and nothing that was put in.
  have below (other : Nat) (atop : origin.Over id other) : mid.Agrees new other := by
    apply later.spares other
    · exact Nat.lt_of_lt_of_le (linked.lt_size_of_over bounds.2 atop) grown
    · rintro rfl
      exact absurd (atop.le linked.ascending) (Nat.not_le_of_lt bounds.1)
    · exact fun sibling isOther => linked.not_over_sibling among isOther atop
  have fresh (other : Nat) (isNew : origin.size ≤ other) (inside : other < mid.size) :
      mid.Agrees new other := by
    apply later.spares other inside
    · exact Nat.ne_of_gt (Nat.lt_of_lt_of_le (Nat.lt_trans bounds.1 bounds.2) isNew)
    · intro sibling isOther atop
      have listed : sibling ∈ origin.children parent := by
        rw [among]
        exact List.mem_append_right _ (.tail _ isOther)
      have old := (linked.ascending.children parent sibling listed).2
      exact absurd (linked.lt_size_of_over old atop) (Nat.not_lt_of_le isNew)
  constructor
  case size => exact Nat.le_trans turned.size later.size
  case spares =>
    intro other inside apart none
    exact (turned.spares other inside apart (none id List.mem_cons_self)).trans
      (later.spares other (Nat.lt_of_lt_of_le inside turned.size) apart
        fun some listed => none some (.tail _ listed))
  case itself => exact later.itself.trans turned.itself
  case placed =>
    obtain ⟨further, last, settles⟩ := later.placed
    refine ⟨child :: further, ?_, .cons (becomes.later later.size below fresh) settles⟩
    rw [last, List.append_assoc, List.singleton_append]
  case settles =>
    intro some listed isScope level isLevel
    rcases List.mem_cons.mp listed with rfl | listed
    · have atop := isLevel.over linked
      rw [(below level atop).1]
      refine (turned.settles isScope level isLevel).later later.size (fun inner isInner other => ?_)
        fresh
      intro among
      have link := (linked.parent_iff inner level).mpr isInner
      exact below other (atop.trans linked.ascending (.inr (among.link linked.ascending link)))
    · exact later.settles some listed isScope level isLevel

theorem isolateChildren_ran (linked : origin.Linked) {fuel : Nat}
    (isolates : ∀ id, parent < id → id < origin.size → ∀ now : Tree, now.Lined feeds →
      origin.size ≤ now.size → (∀ below, origin.Over id below → origin.Agrees now below) →
        Isolated origin id now (isolateWithin fuel now id))
    (lined : now.Lined feeds) (size : origin.size ≤ now.size)
    (children : now.children parent = done ++ rest) {front : List Nat}
    (among : origin.children parent = front ++ rest)
    (agrees : ∀ id ∈ rest, ∀ below, origin.Over id below → origin.Agrees now below)
    (depth : Depth) :
    Ran origin parent done rest depth now
      (isolateChildren (isolateWithin fuel) parent now depth done.length rest) := by
  induction rest generalizing now done front depth with
  | nil =>
      exact ⟨Nat.le_refl _, fun _ _ _ _ => ⟨rfl, rfl⟩, rfl, ⟨[], children, .nil depth⟩,
        fun _ none => by cases none⟩
  | cons id rest ih =>
      have bounds := linked.ascending.of_children among
      have here := agrees id List.mem_cons_self
      have settled := settle_isolated (fun tree lined => isolateWithin_isolated fuel lined) lined
        children depth
      have outer : ¬ origin.Over id parent := fun atop =>
        absurd (atop.le linked.ascending) (Nat.not_le_of_lt bounds.1)
      have isolated (_ : (origin.node id).kind = .scope) :
          Isolated origin id now (isolateWithin fuel now id) :=
        isolates id bounds.1 bounds.2 now lined size here
      have turned := turned_of_fate linked lined size children bounds.2 here depth isolated outer
      have same := fate_congr (here id (.inl rfl)).2 depth
      rw [isolateChildren, same]
      rw [same] at settled
      refine Ran.cons linked size among turned fun child placed => ?_
      have further : done.length + 1 = (done ++ [child]).length := by
        rw [List.length_append, List.length_singleton]
      have split : origin.children parent = (front ++ [id]) ++ rest := by
        rw [among, List.append_assoc, List.singleton_append]
      rw [further]
      refine ih settled.lined (Nat.le_trans size turned.size) ?_ split ?_ _
      · rw [placed, List.append_assoc, List.singleton_append]
      · intro other isOther below atop
        have member : other ∈ origin.children parent := by
          rw [split]
          exact List.mem_append_right _ isOther
        have beside := linked.ascending.children parent other member
        have known := linked.lt_size_of_over beside.2 atop
        refine (agrees other (.tail _ isOther) below atop).trans (turned.spares below ?_ ?_ ?_)
        · exact Nat.lt_of_lt_of_le known size
        · rintro rfl
          exact absurd (atop.le linked.ascending) (Nat.not_le_of_lt beside.1)
        · exact fun both => linked.not_over_sibling among isOther both atop

end Child

theorem isolateWithin_isolates {origin : Tree} {feeds : Nat} (linked : origin.Linked) (fuel : Nat)
    {parent : Nat} (inside : parent < origin.size) (enough : origin.size ≤ parent + fuel)
    {now : Tree} (lined : now.Lined feeds) (size : origin.size ≤ now.size)
    (agrees : ∀ below, origin.Over parent below → origin.Agrees now below) :
    Isolated origin parent now (isolateWithin fuel now parent) := by
  induction fuel generalizing parent now with
  | zero => omega
  | succ fuel ih =>
      have same := (agrees parent (.inl rfl)).1
      have below {id : Nat} (member : id ∈ origin.children parent) {other : Nat}
          (atop : origin.Over id other) : origin.Over parent other :=
        .inr (atop.link linked.ascending ((linked.parent_iff id parent).mpr member))
      have ran : Ran origin parent [] (origin.children parent) {} now
          (isolateChildren (isolateWithin fuel) parent now {} 0 (origin.children parent)) :=
        isolateChildren_ran linked
          (fun id later inside now lined size agrees => ih inside (by omega) lined size agrees)
          lined size same (List.nil_append _).symm
          (fun id member other atop => agrees other (below member atop)) {}
      rw [isolateWithin, same]
      constructor
      case size => exact ran.size
      case spares =>
        intro other among apart
        refine ran.spares other among (fun same => apart (.inl same.symm)) ?_
        exact fun id member atop => apart (below member atop)
      case itself => exact ran.itself
      case settles =>
        intro level isLevel
        cases isLevel with
        | here =>
            obtain ⟨later, children, settles⟩ := ran.placed
            rw [children]
            exact settles
        | further member isScope inner => exact ran.settles _ member isScope level inner

theorem size_isolate {tree : Tree} {feeds : Nat} (lined : tree.Lined feeds) :
    tree.size ≤ (isolate tree).size :=
  (isolateWithin_isolated tree.size lined root lined.linked.filled).size

section Isolate

variable {tree : Tree} {feeds : Nat} (lined : tree.Lined feeds)
include lined

/-- What an isolation makes of every child of every level. -/
theorem settles_isolate {level : Nat} (isLevel : LevelUnder tree root level) :
    Settles tree (isolate tree) {} (tree.children level) ((isolate tree).children level) :=
  (isolateWithin_isolates lined.linked tree.size lined.linked.filled (Nat.le_add_left _ _) lined
    (Nat.le_refl _) fun _ _ => ⟨rfl, rfl⟩).settles level isLevel

/-- The levels stay, and so does what they say of themselves. -/
theorem level_isolate {level : Nat} (isLevel : LevelUnder tree root level) :
    LevelUnder (isolate tree) root level ∧
      ((isolate tree).node level).unlinked = (tree.node level).unlinked := by
  induction level using Nat.strongRecOn with
  | ind level ih =>
      rcases isLevel.last_cases with rfl | ⟨outer, isOuter, member, isScope⟩
      · exact ⟨.here root, (isolateWithin_isolates lined.linked tree.size lined.linked.filled
          (Nat.le_add_left _ _) lined (Nat.le_refl _) fun _ _ => ⟨rfl, rfl⟩).itself⟩
      · have below := (lined.linked.ascending.children outer level member).1
        obtain ⟨child, among, depth, becomes⟩ :=
          (settles_isolate lined isOuter).becomes_of_mem member
        rw [fate_of_scope isScope] at becomes
        obtain ⟨rfl, same⟩ := becomes
        exact ⟨(ih outer below isOuter).1.inside among
          ((Node.property_eq Node.kind (fun _ => rfl) same).trans isScope), same⟩

theorem levelUnder_of_isolate {level : Nat} (isLevel : LevelUnder (isolate tree) root level) :
    LevelUnder tree root level := by
  have after := (lined_isolate lined).linked.ascending
  induction level using Nat.strongRecOn with
  | ind level ih =>
      rcases isLevel.last_cases with rfl | ⟨outer, isOuter, member, isScope⟩
      · exact .here root
      · have old := ih outer (after.children outer level member).1 isOuter
        obtain ⟨id, among, depth, becomes⟩ := (settles_isolate lined old).becomes_of_child member
        obtain ⟨rfl, wasScope⟩ := becomes.of_scope isScope
        exact old.inside among wasScope

/-! ### Texts -/

theorem body_level {level : Nat} (isLevel : LevelUnder tree root level) :
    ((isolate tree).node level).body = (tree.node level).body ∧
      ((isolate tree).node level).close = (tree.node level).close :=
  have same := (level_isolate lined isLevel).2
  ⟨Node.property_eq Node.body (fun _ => rfl) same,
    Node.property_eq Node.close (fun _ => rfl) same⟩

section Texts

variable {Alike : Text → Text → Prop} (parts : Text.ByParts Alike)
include parts

theorem fronts_rest {level : Nat} (isLevel : LevelUnder tree root level)
    (front : Alike (tree.frontText root level) ((isolate tree).frontText root level))
    {early rest earlyNew later : List Nat} (split : tree.children level = early ++ rest)
    (splitNew : (isolate tree).children level = earlyNew ++ later)
    (before : Alike (early.flatMap tree.nodeText) (earlyNew.flatMap (isolate tree).nodeText))
    (all : List.Forall₂ (fun id child => Alike (tree.nodeText id) ((isolate tree).nodeText child))
      rest later) :
    List.Forall₂ (fun id child =>
      Alike (tree.frontText root id) ((isolate tree).frontText root child)) rest later := by
  have after := (lined_isolate lined).linked
  induction all generalizing early earlyNew with
  | nil => exact .nil
  | @cons id child rest later alike all ih =>
      have behind : tree.children level = (early ++ [id]) ++ rest := by
        rw [split, List.append_assoc, List.singleton_append]
      have behindNew : (isolate tree).children level = (earlyNew ++ [child]) ++ later := by
        rw [splitNew, List.append_assoc, List.singleton_append]
      apply List.Forall₂.cons
      · rw [frontText_child lined.linked (isLevel.over lined.linked) split,
          frontText_child after ((level_isolate lined isLevel).1.over after) splitNew, textUpTo,
          textUpTo, (body_level lined isLevel).1]
        exact parts.append front (parts.append (parts.refl _) before)
      · apply ih behind behindNew
        rw [List.flatMap_append, List.flatMap_append, List.flatMap_singleton,
          List.flatMap_singleton]
        exact parts.append before alike

variable (each : ∀ level, LevelUnder tree root level →
  List.Forall₂ (fun id child => (tree.node id).kind = .scope ∧ child = id ∨
      Alike (tree.nodeText id) ((isolate tree).nodeText child))
    (tree.children level) ((isolate tree).children level))
include each

omit lined parts in
theorem texts_of_scopes {level : Nat} (isLevel : LevelUnder tree root level)
    (scopes : ∀ id ∈ tree.children level, (tree.node id).kind = .scope →
      Alike (tree.nodeText id) ((isolate tree).nodeText id)) :
    List.Forall₂ (fun id child => Alike (tree.nodeText id) ((isolate tree).nodeText child))
      (tree.children level) ((isolate tree).children level) := by
  have among := (List.forall₂_and_left _ _).mpr ⟨fun _ member => member, each level isLevel⟩
  refine among.imp ?_
  rintro id child ⟨member, ⟨isScope, rfl⟩ | alike⟩
  · exact scopes child member isScope
  · exact alike

theorem text_level {level : Nat} (isLevel : LevelUnder tree root level) :
    Alike (tree.nodeText level) ((isolate tree).nodeText level) := by
  have linked := lined.linked
  have inside := linked.lt_size_of_over linked.filled (isLevel.over linked)
  induction gap : tree.size - level using Nat.strongRecOn generalizing level with
  | ind gap ih =>
      have all := texts_of_scopes each isLevel fun id member isScope => by
        have bounds := linked.ascending.children level id member
        exact ih (tree.size - id) (by omega) (isLevel.inside member isScope) bounds.2 rfl
      obtain ⟨body, close⟩ := body_level lined isLevel
      rw [nodeText_children linked.ascending inside,
        nodeText_children (lined_isolate lined).linked.ascending
          (Nat.lt_of_lt_of_le inside (size_isolate lined)), body, close]
      exact parts.append (parts.refl _) (parts.append (parts.flatMap all) (parts.refl _))

theorem texts_children {level : Nat} (isLevel : LevelUnder tree root level) :
    List.Forall₂ (fun id child => Alike (tree.nodeText id) ((isolate tree).nodeText child))
      (tree.children level) ((isolate tree).children level) :=
  texts_of_scopes each isLevel fun _ member isScope =>
    text_level lined parts each (isLevel.inside member isScope)

/-- What stands in front of the children of a level is alike when the texts of all other nodes in the
levels are. -/
theorem fronts_children {level : Nat} (isLevel : LevelUnder tree root level) :
    List.Forall₂ (fun id child =>
        Alike (tree.frontText root id) ((isolate tree).frontText root child))
      (tree.children level) ((isolate tree).children level) := by
  have linked := lined.linked
  have after := (lined_isolate lined).linked
  induction level using Nat.strongRecOn with
  | ind level ih =>
      have front : Alike (tree.frontText root level) ((isolate tree).frontText root level) := by
        rcases isLevel.last_cases with rfl | ⟨outer, isOuter, member, isScope⟩
        · rw [frontText_root linked, frontText_root after]
          exact parts.refl []
        · have below := (linked.ascending.children outer level member).1
          have both := (settles_isolate lined isOuter).scopes.mp (fun _ _ same front =>
            And.intro same front) (ih outer below isOuter)
          obtain ⟨child, same, front⟩ := exists_related both member
          rw [same isScope] at front
          exact front
      exact fronts_rest lined parts isLevel front (List.nil_append _).symm
        (List.nil_append _).symm (parts.refl []) (texts_children lined parts each isLevel)

end Texts

end Isolate

end Isolation
end PhpWeave
