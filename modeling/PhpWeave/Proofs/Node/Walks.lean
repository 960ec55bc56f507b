import PhpWeave.Proofs.Node.Linked
import PhpWeave.Proofs.Node.Tour

set_option autoImplicit false

/-!
Walks over a linked tree. The way up from a node and the way down are told here without the bounds
that the walks themselves count down, as relations that look at nodes of the table alone. Links that
go up by one node only make the nodes below a node a branch of the tour, which holds each of them
once; so every walk ends, is where it should be at every step, and meets no node twice.
-/

namespace PhpWeave.Tree

variable {tree : Tree}

/-! ### The way up -/

/-- Whether one node is another one or above it. -/
def Over (tree : Tree) (above id : Nat) : Prop := above = id ∨ above ∈ tree.ancestors id

theorem Over.le (ascending : Ascending tree) {above id : Nat} (atop : tree.Over above id) :
    above ≤ id := by
  rcases atop with rfl | member
  · exact Nat.le_refl _
  · exact Nat.le_of_lt (lt_of_mem_ancestors ascending member)

theorem over_of_link (ascending : Ascending tree) {id next above : Nat}
    (link : tree.parent? id = some next) : above ∈ tree.ancestors id ↔ tree.Over above next := by
  rw [ancestors_of_child ascending link, List.mem_cons]
  rfl

theorem Over.link (ascending : Ascending tree) {above next id : Nat} (atop : tree.Over next id)
    (link : tree.parent? next = some above) : above ∈ tree.ancestors id := by
  induction id using Nat.strongRecOn with
  | ind id ih =>
      rcases atop with rfl | member
      · exact (over_of_link ascending link).mpr (.inl rfl)
      · cases up : tree.parent? id with
        | none =>
            rw [ancestors_of_root up] at member
            cases member
        | some outer =>
            have atop := (over_of_link ascending up).mp member
            have below := ascending.parent id outer up
            exact (over_of_link ascending up).mpr (.inr (ih outer below atop))

theorem Over.trans (ascending : Ascending tree) {above next id : Nat} (first : tree.Over above next)
    (second : tree.Over next id) : tree.Over above id := by
  induction next using Nat.strongRecOn with
  | ind next ih =>
      rcases first with rfl | member
      · exact second
      · cases up : tree.parent? next with
        | none =>
            rw [ancestors_of_root up] at member
            cases member
        | some outer =>
            have atop := (over_of_link ascending up).mp member
            exact ih outer (ascending.parent next outer up) atop (.inr (second.link ascending up))

theorem Over.linear (ascending : Ascending tree) {left right id : Nat} (first : tree.Over left id)
    (second : tree.Over right id) : tree.Over left right ∨ tree.Over right left := by
  induction id using Nat.strongRecOn with
  | ind id ih =>
      rcases first with rfl | first
      · exact .inr second
      · rcases second with rfl | second
        · exact .inl (.inr first)
        · cases up : tree.parent? id with
          | none =>
              rw [ancestors_of_root up] at first
              cases first
          | some outer =>
              rw [over_of_link ascending up] at first second
              exact ih outer (ascending.parent id outer up) first second

theorem nodup_ancestors (ascending : Ascending tree) (id : Nat) : (tree.ancestors id).Nodup := by
  induction id using Nat.strongRecOn with
  | ind id ih =>
      cases link : tree.parent? id with
      | none =>
          rw [ancestors_of_root link]
          exact List.nodup_nil
      | some above =>
          rw [ancestors_of_child ascending link]
          refine List.nodup_cons.mpr ⟨fun member => ?_, ih above (ascending.parent id above link)⟩
          exact Nat.lt_irrefl _ (lt_of_mem_ancestors ascending member)

/-! ### Branches of the tour -/

theorem tour_within_of_child (ascending : Ascending tree) {id child : Nat}
    (member : child ∈ tree.children id) : tree.tour child <:+: tree.tour id := by
  have bounds := ascending.children id child member
  obtain ⟨front, back, split⟩ := List.append_of_mem member
  refine ⟨.body id :: front.flatMap tree.tour, back.flatMap tree.tour ++ [.close id], ?_⟩
  rw [tour_eq ascending (Nat.lt_trans bounds.1 bounds.2), split, List.flatMap_append,
    List.flatMap_cons]
  simp only [List.cons_append, List.append_assoc]

/-- The tour of a node is a stretch of the tour of every node above. -/
theorem tour_within_of_over (linked : tree.Linked) {above id : Nat} (atop : tree.Over above id) :
    tree.tour id <:+: tree.tour above := by
  induction id using Nat.strongRecOn with
  | ind id ih =>
      rcases atop with rfl | member
      · exact List.infix_rfl
      · cases link : tree.parent? id with
        | none =>
            rw [ancestors_of_root link] at member
            cases member
        | some next =>
            have atop := (over_of_link linked.ascending link).mp member
            have child := (linked.parent_iff id next).mp link
            have outer := ih next (linked.lt_size link).1 atop
            exact (tour_within_of_child linked.ascending child).trans outer

theorem body_mem_tour (ascending : Ascending tree) {id : Nat} (inside : id < tree.size) :
    .body id ∈ tree.tour id := by
  rw [tour_eq ascending inside]
  exact List.mem_cons_self

theorem close_mem_tour (ascending : Ascending tree) {id : Nat} (inside : id < tree.size) :
    .close id ∈ tree.tour id := by
  rw [tour_eq ascending inside]
  simp

/-- The tour of a node has the parts of the nodes at or below it. -/
theorem mem_tour_iff (linked : tree.Linked) {id : Nat} (inside : id < tree.size) {part : Part} :
    part ∈ tree.tour id ↔ part.id < tree.size ∧ tree.Over id part.id := by
  have ascending := linked.ascending
  constructor
  · intro member
    refine ⟨(mem_tour ascending inside member).2, ?_⟩
    induction gap : tree.size - id using Nat.strongRecOn generalizing id with
    | ind gap ih =>
        rw [tour_eq ascending inside, List.mem_cons, List.mem_append, List.mem_flatMap,
          List.mem_singleton] at member
        rcases member with rfl | ⟨child, isChild, below⟩ | rfl
        · exact .inl rfl
        · have bounds := ascending.children id child isChild
          have atop := ih (tree.size - child) (by omega) bounds.2 below rfl
          exact .inr (atop.link ascending ((linked.parent_iff child id).mpr isChild))
        · exact .inl rfl
  · rintro ⟨known, atop⟩
    have branch := (tour_within_of_over linked atop).subset
    cases part with
    | body other => exact branch (body_mem_tour ascending known)
    | close other => exact branch (close_mem_tour ascending known)

theorem Linked.eq_of_over_both (linked : tree.Linked) {id left right below : Nat}
    (isLeft : left ∈ tree.children id) (isRight : right ∈ tree.children id)
    (first : tree.Over left below) (second : tree.Over right below) : left = right := by
  have ascending := linked.ascending
  -- Of two such children one would be above the other, and so above their parent or the parent.
  have apart {left right : Nat} (isLeft : left ∈ tree.children id)
      (isRight : right ∈ tree.children id) (atop : tree.Over left right) : left = right := by
    rcases atop with same | member
    · exact same
    · have up := (linked.parent_iff right id).mpr isRight
      have le := ((over_of_link ascending up).mp member).le ascending
      exact absurd (ascending.children id left isLeft).1 (Nat.not_lt_of_le le)
  rcases first.linear ascending second with atop | atop
  · exact apart isLeft isRight atop
  · exact (apart isRight isLeft atop).symm

/-- A node below another one is this one or below one of its children. -/
theorem Linked.over_cases (linked : tree.Linked) {above id : Nat}
    (atop : tree.Over above id) :
    above = id ∨ ∃ child ∈ tree.children above, tree.Over child id := by
  induction id using Nat.strongRecOn with
  | ind id ih =>
      rcases atop with same | member
      · exact .inl same
      · cases up : tree.parent? id with
        | none =>
            rw [ancestors_of_root up] at member
            cases member
        | some outer =>
            have atop := (over_of_link linked.ascending up).mp member
            rcases ih outer (linked.lt_size up).1 atop with rfl | ⟨child, isChild, below⟩
            · exact .inr ⟨id, (linked.parent_iff id above).mp up, .inl rfl⟩
            · exact .inr ⟨child, isChild, .inr (below.elim
                (fun same => (over_of_link linked.ascending up).mpr (.inl same))
                fun further => (over_of_link linked.ascending up).mpr (.inr further))⟩

theorem Linked.lt_size_of_over (linked : tree.Linked) {above id : Nat}
    (inside : above < tree.size) (atop : tree.Over above id) : id < tree.size := by
  rcases atop with rfl | member
  · exact inside
  · cases up : tree.parent? id with
    | none =>
        rw [ancestors_of_root up] at member
        cases member
    | some outer => exact (linked.lt_size up).2

/-- Children have no node below them in common. -/
theorem Linked.not_over_sibling (linked : tree.Linked) {parent id : Nat}
    {front rest : List Nat} (children : tree.children parent = front ++ id :: rest) {other : Nat}
    (isOther : other ∈ rest) {below : Nat} (atop : tree.Over id below) :
    ¬ tree.Over other below := by
  intro both
  have nodup := linked.nodup parent
  rw [children] at nodup
  have isChild {some : Nat} (listed : some ∈ id :: rest) : some ∈ tree.children parent := by
    rw [children]
    exact List.mem_append_right _ listed
  have same := linked.eq_of_over_both (isChild List.mem_cons_self) (isChild (.tail _ isOther)) atop
    both
  rw [← same] at isOther
  exact (List.nodup_cons.mp (List.nodup_append.mp nodup).2.1).1 isOther

theorem nodup_tour (linked : tree.Linked) {id : Nat} (inside : id < tree.size) :
    (tree.tour id).Nodup := by
  have ascending := linked.ascending
  induction gap : tree.size - id using Nat.strongRecOn generalizing id with
  | ind gap ih =>
      have bounds (child : Nat) (member : child ∈ tree.children id) :=
        ascending.children id child member
      have lower {part : Part} (member : part ∈ (tree.children id).flatMap tree.tour) :
          id < part.id := by
        obtain ⟨child, isChild, below⟩ := List.mem_flatMap.mp member
        have order := bounds child isChild
        have found := mem_tour ascending order.2 below
        omega
      have branches : ((tree.children id).flatMap tree.tour).Nodup := by
        refine List.nodup_flatMap.mpr ⟨fun child member => ?_, ?_⟩
        · have order := bounds child member
          exact ih (tree.size - child) (by omega) order.2 rfl
        · refine (linked.nodup id).imp_of_mem fun isLeft isRight ne part inLeft inRight => ?_
          have left := ((mem_tour_iff linked (bounds _ isLeft).2).mp inLeft).2
          have right := ((mem_tour_iff linked (bounds _ isRight).2).mp inRight).2
          exact ne (linked.eq_of_over_both isLeft isRight left right)
      rw [tour_eq ascending inside, List.nodup_cons, List.nodup_append]
      refine ⟨fun member => ?_, branches, List.nodup_singleton _, fun part member other last => ?_⟩
      · rcases List.mem_append.mp member with below | last
        · exact Nat.lt_irrefl _ (lower below)
        · cases List.mem_singleton.mp last
      · rintro rfl
        rw [List.mem_singleton.mp last] at member
        exact Nat.lt_irrefl _ (lower member)

/-! ### The way down -/

theorem mem_preorder (linked : tree.Linked) {id other : Nat} (inside : id < tree.size) :
    other ∈ tree.preorder id ↔ other < tree.size ∧ tree.Over id other := by
  rw [preorder_eq_filterMap, List.mem_filterMap]
  constructor
  · rintro ⟨part, member, body⟩
    cases part with
    | body found =>
        cases body
        exact (mem_tour_iff linked inside).mp member
    | close found => cases body
  · intro below
    exact ⟨.body other, (mem_tour_iff linked inside).mpr below, rfl⟩

theorem nodup_preorder (linked : tree.Linked) {id : Nat} (inside : id < tree.size) :
    (tree.preorder id).Nodup := by
  rw [preorder_eq_filterMap]
  refine (nodup_tour linked inside).filterMap fun left right found inLeft inRight => ?_
  cases left <;> cases right <;> simp_all [Part.bodyOf?]

theorem preorder_cons (ascending : Ascending tree) {id : Nat} (inside : id < tree.size) :
    tree.preorder id = id :: (tree.children id).flatMap tree.preorder := by
  have below : ((tree.children id).flatMap tree.tour).filterMap Part.bodyOf? =
      (tree.children id).flatMap tree.preorder := by
    rw [List.filterMap_flatMap]
    exact congrArg (List.flatMap · (tree.children id)) (funext fun child =>
      (preorder_eq_filterMap child).symm)
  rw [preorder_eq_filterMap, tour_eq ascending inside,
    List.filterMap_cons_some (f := Part.bodyOf?) (b := id) rfl, List.filterMap_append, below]
  exact congrArg (id :: ·) (List.append_nil _)

/-! ### Walks without a bound -/

/-- What a walk down finds that keeps the nodes to come on a stack: the first of them is found, and
its children come before the others. -/
inductive Visits (tree : Tree) : List Nat → List Nat → Prop where
  | done : Visits tree [] []
  | next {id : Nat} {stack visited : List Nat} (inside : id < tree.size)
      (rest : Visits tree (tree.children id ++ stack) visited) :
      Visits tree (id :: stack) (id :: visited)

inductive Climbs (tree : Tree) : Nat → List Nat → Prop where
  | top {id : Nat} (inside : id < tree.size) (link : tree.parent? id = none) : Climbs tree id []
  | up {id above : Nat} {rest : List Nat} (inside : id < tree.size)
      (link : tree.parent? id = some above) (further : Climbs tree above rest) :
      Climbs tree id (above :: rest)

/-- The name that a node gets through the classes around it. -/
inductive Named (tree : Tree) : Nat → Text → Prop where
  | scope {id : Nat} (inside : id < tree.size)
      (refers : (tree.node id).RefersBelow tree.size) (kind : (tree.node id).kind = .scope) :
      Named tree id (tree.node id).name
  | method {id owner : Nat} {around : Text} (inside : id < tree.size)
      (refers : (tree.node id).RefersBelow tree.size) (kind : (tree.node id).kind ≠ .scope)
      (method : (tree.node id).flags.method = true) (found : tree.enclosingClass? id = some owner)
      (outer : Named tree owner around) :
      Named tree id (around ++ "::".toList ++ ownName (tree.node id))
  | plain {id : Nat} (inside : id < tree.size)
      (refers : (tree.node id).RefersBelow tree.size) (kind : (tree.node id).kind ≠ .scope)
      (alone : (tree.node id).flags.method = false ∨ tree.enclosingClass? id = none) :
      Named tree id (inScope (tree.scopeName id) (ownName (tree.node id)))

/-- The walks from a node: each ends, stays in the table and meets no node twice. -/
structure Walked (tree : Tree) (id : Nat) : Prop where
  visits : tree.Visits [id] (tree.preorder id)
  visitsOnce : (tree.preorder id).Nodup
  climbs : tree.Climbs id (tree.ancestors id)
  climbsOnce : (tree.ancestors id).Nodup
  named : tree.Named id (tree.qualifiedName id)
  importScope : tree.importScope id < tree.size

private theorem visits_all {ids stack visited : List Nat}
    (each : ∀ id ∈ ids, ∀ stack visited, tree.Visits stack visited →
      tree.Visits (id :: stack) (tree.preorder id ++ visited))
    (others : tree.Visits stack visited) :
    tree.Visits (ids ++ stack) (ids.flatMap tree.preorder ++ visited) := by
  induction ids with
  | nil => exact others
  | cons first rest ih =>
      rw [List.flatMap_cons, List.append_assoc]
      refine each first List.mem_cons_self _ _ (ih fun id member => ?_)
      exact each id (List.mem_cons_of_mem _ member)

theorem visits_preorder (ascending : Ascending tree) {id : Nat} (inside : id < tree.size)
    {stack visited : List Nat} (others : tree.Visits stack visited) :
    tree.Visits (id :: stack) (tree.preorder id ++ visited) := by
  induction gap : tree.size - id using Nat.strongRecOn generalizing id stack visited with
  | ind gap ih =>
      rw [preorder_cons ascending inside]
      refine .next inside (visits_all (fun child member stack visited others => ?_) others)
      have bounds := ascending.children id child member
      exact ih (tree.size - child) (by omega) bounds.2 others rfl

theorem climbs_ancestors (ascending : Ascending tree) {id : Nat} (inside : id < tree.size) :
    tree.Climbs id (tree.ancestors id) := by
  induction id using Nat.strongRecOn with
  | ind id ih =>
      cases link : tree.parent? id with
      | none =>
          rw [ancestors_of_root link]
          exact .top inside link
      | some above =>
          have below := ascending.parent id above link
          rw [ancestors_of_child ascending link]
          exact .up inside link (ih above below (Nat.lt_trans below inside))

theorem named_within (linked : tree.Linked) {fuel id : Nat} (enough : id < fuel)
    (inside : id < tree.size) : tree.Named id (tree.qualifiedNameWithin fuel id) := by
  have refers := linked.refers
  induction fuel generalizing id with
  | zero => exact absurd enough (Nat.not_lt_zero _)
  | succ fuel ih =>
      unfold qualifiedNameWithin
      by_cases kind : (tree.node id).kind = .scope
      · simp only [if_pos kind]
        exact .scope inside (refers id inside) kind
      · simp only [if_neg kind]
        cases method : (tree.node id).flags.method with
        | false => exact .plain inside (refers id inside) kind (.inl method)
        | true =>
            cases found : tree.enclosingClass? id with
            | none => exact .plain inside (refers id inside) kind (.inr found)
            | some owner =>
                -- The class around a method has a smaller index, so one step less names it.
                have below := lt_of_mem_ancestors linked.ascending (List.mem_of_find?_eq_some found)
                exact .method inside (refers id inside) kind method found
                  (ih (by omega) (Nat.lt_trans below inside))

theorem Linked.walked (linked : tree.Linked) {id : Nat} (inside : id < tree.size) :
    tree.Walked id where
  visits := by
    have visits := visits_preorder linked.ascending inside .done
    rwa [List.append_nil] at visits
  visitsOnce := nodup_preorder linked inside
  climbs := climbs_ancestors linked.ascending inside
  climbsOnce := nodup_ancestors linked.ascending id
  named := named_within linked (Nat.lt_succ_self id) inside
  importScope := by
    unfold importScope
    split
    · exact inside
    · cases around : (tree.node id).scope with
      | none => exact linked.filled
      | some scope => exact (linked.refers id inside).1 scope around

/-! ### Trees that can be made -/

theorem linked_and_walked_of_reached (reached : Reached tree) :
    tree.Linked ∧ tree.parent? root = none ∧
      (∀ id : Nat, tree.links.count id = if (tree.parent? id).isSome then 1 else 0) ∧
      (∀ id < tree.size, tree.Walked id) ∧
      ∀ parent < tree.size, ∀ index, (tree.children parent).length ≤ index →
        tree.remove parent index = (none, tree) ∧
          ∀ added, tree.replace parent index added = (none, tree) := by
  have linked := reached.linked
  refine ⟨linked, linked.root_parent, linked.count_links, fun id inside => linked.walked inside, ?_⟩
  intro parent _ index missing
  exact ⟨remove_missing missing, replace_missing missing⟩

/-- A class taken out of its file, and one more method put into it there. -/
def orphaned : Tree :=
  let listed := empty.push root { kind := .classLike .ordinary, name := ['C'] }
  let filled := listed.push 1 { kind := .function, name := ['m'], flags := { method := true } }
  (filled.remove root 0).2.insert 1 0 { kind := .code, scope := some root }

theorem linked_and_walked_orphaned :
    Reached orphaned ∧ orphaned.links = [3, 2] ∧ orphaned.Walked 2 ∧
      orphaned.qualifiedName 2 = "C::m".toList ∧
      orphaned.remove root 0 = (none, orphaned) := by
  have reached : Reached orphaned :=
    (((Reached.empty.splice (.push root _) (by decide) (by decide)).splice (.push 1 _)
      (by decide) (by decide)).splice (.remove root 0) (by decide) (by decide)).splice
      (.insert 1 0 _) (by decide) (by decide)
  obtain ⟨-, -, -, walked, missing⟩ := linked_and_walked_of_reached reached
  exact ⟨reached, by decide, walked 2 (by decide), by decide,
    (missing root (by decide) 0 (by decide)).1⟩

end PhpWeave.Tree
