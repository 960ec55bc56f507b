import PhpWeave.Proofs.Grammar.Structure
import PhpWeave.Proofs.Node.Walks

set_option autoImplicit false

/-!
What a construct encloses. The ranges of the tokens of a file follow the tour of its tree, so the
tokens between the header of a node and its close are those of the nodes below it.
-/

namespace PhpWeave

namespace Stretch

theorem Consecutive.split {first stop : Nat} {front rest : List Stretch}
    (consecutive : Consecutive first (front ++ rest) stop) :
    ∃ middle, Consecutive first front middle ∧ Consecutive middle rest stop := by
  induction front generalizing first with
  | nil => exact ⟨first, rfl, consecutive⟩
  | cons head front ih =>
      obtain ⟨begins, order, later⟩ := consecutive
      obtain ⟨middle, left, right⟩ := ih later
      exact ⟨middle, ⟨begins, order, left⟩, right⟩

theorem Consecutive.ends {first stop : Nat} {head last : Stretch} {middle : List Stretch}
    (consecutive : Consecutive first (head :: (middle ++ [last])) stop) :
    head.first = first ∧ last.stop = stop := by
  obtain ⟨begins, -, later⟩ := consecutive
  obtain ⟨_, -, -, -, ending⟩ := later.split
  exact ⟨begins, ending⟩

/-- Where no token is empty, ranges that lie end to end are told by their parts and texts. -/
theorem Consecutive.unique {tokens : Tokens} (filled : ∀ token ∈ tokens.toList, token.text ≠ [])
    {text : Part → Text} {left : List Stretch} :
    ∀ {first : Nat} {right : List Stretch}, Consecutive first left tokens.size →
      Consecutive first right tokens.size → left.map Stretch.part = right.map Stretch.part →
      (∀ stretch ∈ left, text stretch.part = tokens.textBetween stretch.first stretch.stop) →
      (∀ stretch ∈ right, text stretch.part = tokens.textBetween stretch.first stretch.stop) →
      left = right := by
  -- Of two stops the later one leaves a text between them.
  have stops {first stop other : Nat} (order : first ≤ stop) (within : other ≤ tokens.size)
      (same : tokens.textBetween first stop = tokens.textBetween first other) : other ≤ stop := by
    rcases Nat.le_total other stop with before | behind
    · exact before
    · rw [← Tokens.textBetween_append order behind] at same
      exact Tokens.stop_le_of_textBetween filled within (List.self_eq_append_right.mp same)
  induction left with
  | nil =>
      intro first right _ _ parts _ _
      exact (List.map_eq_nil_iff.mp parts.symm).symm
  | cons head rest ih =>
      intro first right isLeft isRight parts leftText rightText
      obtain ⟨other, others, rfl, part, parts⟩ := List.map_eq_cons_iff.mp parts.symm
      obtain ⟨begins, order, later⟩ := isLeft
      obtain ⟨beginsToo, orderToo, laterToo⟩ := isRight
      have same : tokens.textBetween first head.stop = tokens.textBetween first other.stop := by
        have text := leftText head List.mem_cons_self
        rw [← part, rightText other List.mem_cons_self, begins, beginsToo] at text
        exact text.symm
      have stop : head.stop = other.stop :=
        Nat.le_antisymm (stops orderToo later.le same.symm) (stops order laterToo.le same)
      have one : head = other := by
        obtain ⟨_, _, _⟩ := head
        obtain ⟨_, _, _⟩ := other
        cases part
        cases stop
        cases begins.trans beginsToo.symm
        rfl
      rw [← stop] at laterToo
      rw [one, ih later laterToo parts.symm
        (fun stretch member => leftText stretch (List.mem_cons_of_mem _ member))
        (fun stretch member => rightText stretch (List.mem_cons_of_mem _ member))]

/-- A token stands between the header of a construct and its close. -/
def Around (stretches : List Stretch) (above index : Nat) : Prop :=
  ∃ header ∈ stretches, ∃ close ∈ stretches, header.part = .body above ∧
    close.part = .close above ∧ header.stop ≤ index ∧ index < close.first

end Stretch

namespace Tree

/-- A token is one of the plain code of a node. -/
def HoldsCode (tree : Tree) (stretches : List Stretch) (id index : Nat) : Prop :=
  (tree.node id).isEditable = true ∧
    ∃ first stop, ⟨.body id, first, stop⟩ ∈ stretches ∧ first ≤ index ∧ index < stop

/-- A token is one of the plain code of one node only. -/
theorem Ranges.same_part {tree : Tree} {tokens : Tokens} {stretches : List Stretch}
    (ranges : tree.Ranges tokens stretches) {index : Nat} (inside : index < tokens.size)
    {left right : Stretch} (isLeft : left ∈ stretches) (isRight : right ∈ stretches)
    (first : left.Covers index) (second : right.Covers index) : left = right := by
  obtain ⟨stretch, -, unique⟩ := ranges.consecutive.existsUnique (Nat.zero_le index) inside
  exact (unique left ⟨isLeft, first⟩).trans (unique right ⟨isRight, second⟩).symm

theorem Ranges.holdsCode_unique {tree : Tree} {tokens : Tokens} {stretches : List Stretch}
    (ranges : tree.Ranges tokens stretches) {id other index : Nat}
    (holds : tree.HoldsCode stretches id index) (another : tree.HoldsCode stretches other index) :
    id = other := by
  obtain ⟨-, first, stop, member, covers⟩ := holds
  obtain ⟨-, firstOther, stopOther, memberOther, coversOther⟩ := another
  have inside := Nat.lt_of_lt_of_le covers.2 (ranges.consecutive.stop_le _ member)
  cases ranges.same_part inside member memberOther covers coversOther
  rfl

/-- A part has one range. -/
theorem Ranges.same_stretch {tree : Tree} {tokens : Tokens} {stretches : List Stretch}
    (ranges : tree.Ranges tokens stretches) (linked : tree.Linked) {left right : Stretch}
    (isLeft : left ∈ stretches) (isRight : right ∈ stretches) (same : left.part = right.part) :
    left = right := by
  have nodup := nodup_tour linked linked.filled
  rw [← Tree.parts, ← ranges.parts] at nodup
  exact List.inj_on_of_nodup_map nodup isLeft isRight same

theorem Ranges.unique {tree : Tree} {tokens : Tokens} {stretches others : List Stretch}
    (filled : ∀ token ∈ tokens.toList, token.text ≠ []) (ranges : tree.Ranges tokens stretches)
    (another : tree.Ranges tokens others) : stretches = others :=
  ranges.consecutive.unique filled another.consecutive (ranges.parts.trans another.parts.symm)
    (fun stretch member => (ranges.made stretch member).text)
    (fun stretch member => (another.made stretch member).text)

theorem Ranges.over_root {tree : Tree} {tokens : Tokens} {stretches : List Stretch}
    (ranges : tree.Ranges tokens stretches) (linked : tree.Linked) {stretch : Stretch}
    (member : stretch ∈ stretches) :
    stretch.part.id < tree.size ∧ tree.Over root stretch.part.id := by
  have part : stretch.part ∈ tree.tour root := by
    rw [← Tree.parts, ← ranges.parts]
    exact List.mem_map_of_mem member
  exact (mem_tour_iff linked linked.filled).mp part

theorem Ranges.inside {tree : Tree} {tokens : Tokens} {stretches : List Stretch}
    (ranges : tree.Ranges tokens stretches) (linked : tree.Linked) {id index : Nat}
    (holds : tree.HoldsCode stretches id index) : id < tree.size := by
  obtain ⟨-, first, stop, member, -⟩ := holds
  exact (ranges.over_root linked member).1

/-- Ranges along the tour of a node begin with its header and end with its close. -/
theorem exists_ends_of_tour {tree : Tree} (linked : tree.Linked) {id : Nat}
    (inside : id < tree.size) {stretches : List Stretch}
    (parts : stretches.map Stretch.part = tree.tour id) :
    ∃ header middle close, stretches = header :: (middle ++ [close]) ∧
      header.part = .body id ∧ close.part = .close id := by
  rw [tour_eq linked.ascending inside] at parts
  obtain ⟨header, rest, rfl, isHeader, parts⟩ := List.map_eq_cons_iff.mp parts
  obtain ⟨middle, last, rfl, -, isLast⟩ := List.map_eq_append_iff.mp parts
  obtain ⟨close, rfl, isClose⟩ := List.map_eq_singleton_iff.mp isLast
  exact ⟨header, middle, close, rfl, isHeader, isClose⟩

theorem Ranges.close_root {tree : Tree} {tokens : Tokens} {stretches : List Stretch}
    (ranges : tree.Ranges tokens stretches) (linked : tree.Linked)
    (filled : ∀ token ∈ tokens.toList, token.text ≠ []) (unclosed : (tree.node root).close = [])
    {close : Stretch} (member : close ∈ stretches) (isClose : close.part = .close root) :
    close.first = tokens.size := by
  obtain ⟨header, middle, other, rfl, -, isOther⟩ :=
    exists_ends_of_tour linked linked.filled ranges.parts
  obtain rfl := ranges.same_stretch linked (by simp) member (isOther.trans isClose.symm)
  obtain ⟨-, -, rest⟩ := ranges.consecutive
  obtain ⟨_, -, begins, order, -⟩ := rest.split
  have stops := ranges.consecutive.ends.2
  have none := (ranges.made other member).text
  rw [isClose, partText, unclosed] at none
  have past := Tokens.stop_le_of_textBetween filled (Nat.le_of_eq stops) none.symm
  omega

/-- The ranges of a node lie between those of its header and of its close. -/
theorem Ranges.branch {tree : Tree} {tokens : Tokens} {stretches : List Stretch}
    (ranges : tree.Ranges tokens stretches) (linked : tree.Linked) {above : Nat}
    (inside : above < tree.size) (atop : tree.Over root above) :
    ∃ (left middle right : List Stretch) (header close : Stretch),
      stretches = left ++ header :: (middle ++ close :: right) ∧
        header.part = .body above ∧ close.part = .close above ∧
        middle.map Stretch.part = (tree.children above).flatMap tree.tour := by
  obtain ⟨left, right, whole⟩ := tour_within_of_over linked atop
  rw [tour_eq linked.ascending inside] at whole
  have parts := ranges.parts
  rw [Tree.parts, ← whole, List.append_assoc, List.cons_append, List.append_assoc] at parts
  obtain ⟨front, rest, rfl, -, parts⟩ := List.map_eq_append_iff.mp parts
  obtain ⟨header, rest, rfl, isHeader, parts⟩ := List.map_eq_cons_iff.mp parts
  obtain ⟨middle, rest, rfl, isMiddle, parts⟩ := List.map_eq_append_iff.mp parts
  obtain ⟨close, rest, rfl, isClose, -⟩ := List.map_eq_cons_iff.mp parts
  exact ⟨front, middle, rest, header, close, rfl, isHeader, isClose, isMiddle⟩

/-- A construct is above a node of plain code if and only if the tokens of the node stand between its
header and its close. -/
theorem Ranges.encloses {tree : Tree} {tokens : Tokens} {stretches : List Stretch}
    (ranges : tree.Ranges tokens stretches) (linked : tree.Linked) {above : Nat}
    (inside : above < tree.size) (atop : tree.Over root above) :
    ∃ header ∈ stretches, ∃ close ∈ stretches, header.part = .body above ∧
      close.part = .close above ∧ ∀ id index, tree.HoldsCode stretches id index →
        (above ∈ tree.ancestors id ↔ header.stop ≤ index ∧ index < close.first) := by
  obtain ⟨left, middle, right, header, close, rfl, isHeader, isClose, isMiddle⟩ :=
    ranges.branch linked inside atop
  obtain ⟨start, -, -, order, rest⟩ := ranges.consecutive.split
  obtain ⟨stop, within, ends, -, -⟩ := rest.split
  have inFront : header ∈ left ++ header :: (middle ++ close :: right) :=
    List.mem_append_right _ List.mem_cons_self
  have among {stretch : Stretch} (member : stretch ∈ middle) :
      stretch ∈ left ++ header :: (middle ++ close :: right) :=
    List.mem_append_right _ (List.mem_cons_of_mem _ (List.mem_append_left _ member))
  refine ⟨header, inFront, close, by simp, isHeader, isClose, ?_⟩
  rintro id index ⟨-, first, last, member, behind, before⟩
  rw [ends]
  constructor
  · intro below
    have under := lt_of_mem_ancestors linked.ascending below
    have known : id < tree.size := by
      by_contra outside
      rw [ancestors_of_root (by
        rw [parent?, node_of_size_le (Nat.le_of_not_lt outside)]
        rfl)] at below
      cases below
    have onTour : Part.body id ∈ tree.tour above :=
      (mem_tour_iff linked inside).mpr ⟨known, .inr below⟩
    rw [tour_eq linked.ascending inside, List.mem_cons, List.mem_append, ← isMiddle,
      List.mem_singleton] at onTour
    rcases onTour with same | below | none
    · cases same
      exact absurd under (Nat.lt_irrefl _)
    · obtain ⟨stretch, inMiddle, same⟩ := List.mem_map.mp below
      have equal := ranges.same_stretch linked (among inMiddle) member same
      rw [equal] at inMiddle
      exact ⟨Nat.le_trans (within.first_le _ inMiddle) behind,
        Nat.lt_of_lt_of_le before (within.stop_le _ inMiddle)⟩
    · cases none
  · rintro ⟨afterHeader, beforeClose⟩
    obtain ⟨stretch, ⟨inMiddle, covers⟩, -⟩ := within.existsUnique afterHeader beforeClose
    have size := Nat.lt_of_lt_of_le before (ranges.consecutive.stop_le _ member)
    have same := ranges.same_part size (among inMiddle) member covers ⟨behind, before⟩
    have onTour : Part.body id ∈ tree.tour above := by
      rw [tour_eq linked.ascending inside, ← isMiddle]
      refine List.mem_cons_of_mem _ (List.mem_append_left _ (List.mem_map.mpr ?_))
      exact ⟨stretch, inMiddle, by rw [same]⟩
    rcases ((mem_tour_iff linked inside).mp onTour).2 with same | below
    · -- A node is not below itself, so its own range is not one of those behind its header.
      have equal := ranges.same_stretch linked inFront member (isHeader.trans (by rw [same]; rfl))
      rw [equal] at afterHeader
      exact absurd before (Nat.not_lt_of_le afterHeader)
    · exact below

/-- The constructs around a token of plain code are those above its node. -/
theorem Ranges.around_iff {tree : Tree} {tokens : Tokens} {stretches : List Stretch}
    (ranges : tree.Ranges tokens stretches) (linked : tree.Linked) {id index above : Nat}
    (holds : tree.HoldsCode stretches id index) :
    Stretch.Around stretches above index ↔ above ∈ tree.ancestors id := by
  constructor
  · rintro ⟨header, isHeader, close, isClose, ofHeader, ofClose, behind, before⟩
    obtain ⟨inside, atop⟩ := ranges.over_root linked isHeader
    rw [ofHeader] at inside atop
    obtain ⟨first, isFirst, last, isLast, ofFirst, ofLast, all⟩ :=
      ranges.encloses linked inside atop
    refine (all id index holds).mpr ?_
    rw [ranges.same_stretch linked isFirst isHeader (ofFirst.trans ofHeader.symm),
      ranges.same_stretch linked isLast isClose (ofLast.trans ofClose.symm)]
    exact ⟨behind, before⟩
  · intro below
    have ⟨_, first, stop, member, _⟩ := holds
    obtain ⟨inside, atop⟩ := ranges.over_root linked member
    have atopAbove : tree.Over root above := by
      rcases Over.linear linked.ascending atop (.inr below) with fine | lower
      · exact fine
      · rcases lower with rfl | none
        · exact .inl rfl
        · rw [ancestors_of_root linked.root_parent] at none
          cases none
    have under := Nat.lt_trans (lt_of_mem_ancestors linked.ascending below) inside
    obtain ⟨header, isHeader, close, isClose, ofHeader, ofClose, all⟩ :=
      ranges.encloses linked under atopAbove
    exact ⟨header, isHeader, close, isClose, ofHeader, ofClose, (all id index holds).mp below⟩

theorem Ranges.around_between {tree : Tree} {tokens : Tokens} {stretches : List Stretch}
    (ranges : tree.Ranges tokens stretches) (linked : tree.Linked) {above first index last : Nat}
    (left : Stretch.Around stretches above first) (right : Stretch.Around stretches above last)
    (behind : first ≤ index) (before : index ≤ last) : Stretch.Around stretches above index := by
  obtain ⟨header, isHeader, close, isClose, ofHeader, ofClose, behindHeader, -⟩ := left
  obtain ⟨-, -, other, isOther, -, ofOther, -, beforeClose⟩ := right
  cases ranges.same_stretch linked isClose isOther (ofClose.trans ofOther.symm)
  exact ⟨header, isHeader, close, isClose, ofHeader, ofClose, Nat.le_trans behindHeader behind,
    Nat.lt_of_le_of_lt before beforeClose⟩

theorem descending_ancestors {tree : Tree} (ascending : Ascending tree) (id : Nat) :
    (tree.ancestors id).Pairwise (· > ·) := by
  induction id using Nat.strongRecOn with
  | ind id ih =>
      cases link : tree.parent? id with
      | none =>
          rw [ancestors_of_root link]
          exact .nil
      | some above =>
          rw [ancestors_of_child ascending link]
          exact .cons (fun _ member => lt_of_mem_ancestors ascending member)
            (ih above (ascending.parent id above link))

/-- A token stands between the braces of a function, and of no function inside: nodes are numbered
in the order of the text, so the innermost one has the largest number. -/
structure FunctionAround (tree : Tree) (stretches : List Stretch) (function index : Nat) :
    Prop where
  kind : (tree.node function).kind = .function
  around : Stretch.Around stretches function index
  innermost : ∀ other, (tree.node other).kind = .function → Stretch.Around stretches other index →
    other ≤ function

/-- The function that a node of plain code names is the innermost one around its tokens. -/
theorem Ranges.functionAround_iff {tree : Tree} {tokens : Tokens} {stretches : List Stretch}
    (ranges : tree.Ranges tokens stretches) (linked : tree.Linked) {id index function : Nat}
    (holds : tree.HoldsCode stretches id index) (placed : tree.Placed id) :
    tree.FunctionAround stretches function index ↔ (tree.node id).function = some function := by
  have nearest {found : Nat} (isOne : (tree.node id).function = some found) :
      tree.FunctionAround stretches found index := by
    rw [placed.function, List.find?_eq_some_iff_append] at isOne
    obtain ⟨isFunction, nearer, further, split, none⟩ := isOne
    refine ⟨of_decide_eq_true isFunction, ?_, fun other isOther around => ?_⟩
    · rw [ranges.around_iff linked holds, split]
      simp
    · rw [ranges.around_iff linked holds, split, List.mem_append, List.mem_cons] at around
      rcases around with before | rfl | behind
      · have other := none other before
        rw [decide_eq_true isOther] at other
        cases other
      · exact Nat.le_refl _
      · have order := descending_ancestors linked.ascending id
        rw [split, List.pairwise_append] at order
        exact Nat.le_of_lt ((List.pairwise_cons.mp order.2.1).1 other behind)
  refine ⟨fun around => ?_, nearest⟩
  cases isOne : (tree.node id).function with
  | none =>
      rw [placed.function, List.find?_eq_none] at isOne
      have member := (ranges.around_iff linked holds).mp around.around
      exact absurd (decide_eq_true around.kind) (isOne function member)
  | some found =>
      have other := nearest isOne
      rw [Nat.le_antisymm (around.innermost found other.kind other.around)
        (other.innermost function around.kind around.around)]

end Tree
end PhpWeave
