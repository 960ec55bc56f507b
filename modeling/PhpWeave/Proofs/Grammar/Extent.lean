import PhpWeave.Proofs.Grammar.Enclosure
import PhpWeave.Proofs.Grammar.Native
import PhpWeave.Proofs.Token.Numbering
import PhpWeave.Proofs.Weave.Placement

set_option autoImplicit false

/-!
The lines that nodes cover. While the tree is made, the first and the last token of a node are noted
when the node is attached, and again when its construct ends. What is noted are the tokens that the
node is printed from, so its lines are those of the first and of the last token of its text that is
not white space.
-/

namespace PhpWeave

open PhpWeave.Tree

/-! ### Lines of a range -/

namespace Tokens

variable {tokens : Tokens}

/-- There is nothing but white space from one position up to another. -/
def BlankBetween (tokens : Tokens) (first stop : Nat) : Prop :=
  ∀ (index : Nat) (token : Token), first ≤ index → index < stop → tokens[index]? = some token →
    token.kind = .whitespace

/-- The first token from a position on that is not white space. -/
structure FirstShown (tokens : Tokens) (first index : Nat) (token : Token) : Prop where
  here : tokens[index]? = some token
  shows : token.kind ≠ .whitespace
  behind : first ≤ index
  blank : tokens.BlankBetween first index

/-- The last token in front of a position that is not white space. -/
structure LastShown (tokens : Tokens) (stop index : Nat) (token : Token) : Prop where
  here : tokens[index]? = some token
  shows : token.kind ≠ .whitespace
  before : index < stop
  blank : tokens.BlankBetween (index + 1) stop

theorem FirstShown.le {first index other : Nat} {token later : Token}
    (found : tokens.FirstShown first index token) (there : tokens[other]? = some later)
    (shows : later.kind ≠ .whitespace) (behind : first ≤ other) : index ≤ other :=
  Nat.le_of_not_lt fun less => shows (found.blank other later behind less there)

theorem LastShown.ge {stop index other : Nat} {token earlier : Token}
    (found : tokens.LastShown stop index token) (there : tokens[other]? = some earlier)
    (shows : earlier.kind ≠ .whitespace) (before : other < stop) : other ≤ index :=
  Nat.le_of_not_lt fun less => shows (found.blank other earlier less before there)

/-- The lines that a range of tokens covers: from the line on which its first token begins that is
not white space to the line on which its last one ends. -/
inductive Covers (tokens : Tokens) (first stop : Nat) (lines : Lines) : Prop where
  | blank (none : lines.start = none) (blank : tokens.BlankBetween first stop)
  | shown {head tail : Nat} {initial final : Token} (opens : tokens.FirstShown first head initial)
      (closes : tokens.LastShown stop tail final) (order : head ≤ tail)
      (start : lines.start = some initial.line) (ends : lines.stop = final.endLine)

theorem Covers.congr {first stop : Nat} {lines others : Lines}
    (covers : tokens.Covers first stop lines) (start : others.start = lines.start)
    (ends : others.stop = lines.stop) : tokens.Covers first stop others := by
  cases covers with
  | blank none blank => exact .blank (start.trans none) blank
  | shown opens closes order starts stops =>
      exact .shown opens closes order (start.trans starts) (ends.trans stops)

theorem Covers.start_eq_none {first stop : Nat} {lines : Lines}
    (covers : tokens.Covers first stop lines) :
    lines.start = none ↔ tokens.BlankBetween first stop := by
  cases covers with
  | blank none blank => exact iff_of_true none blank
  | shown opens closes order start ends =>
      refine iff_of_false (by simp [start]) fun blank => opens.shows ?_
      exact blank _ _ opens.behind (Nat.lt_of_le_of_lt order closes.before) opens.here

theorem content_linesOf (first last : Nat) : (tokens.linesOf first last).content = [] := by
  unfold linesOf
  split <;> rfl

theorem blank_of_not_visible {token : Token} (hidden : isVisible token = false) :
    token.kind = .whitespace :=
  of_not_not (of_decide_eq_false hidden)

theorem covers_linesOf {first last : Nat} (inside : last < tokens.size) :
    tokens.Covers first (last + 1) (tokens.linesOf first last) := by
  unfold linesOf
  cases search : tokens.firstWithin isVisible (last + 1 - first) first with
  | none =>
      refine .blank rfl fun index token behind before here => blank_of_not_visible ?_
      exact firstWithin_none search behind (by omega) here
  | some head =>
      obtain ⟨behind, initial, here, shows⟩ := firstWithin_some search
      have before := firstWithin_lt search
      have opens : tokens.FirstShown first head initial :=
        ⟨here, of_decide_eq_true shows, behind, fun index token past less found =>
          blank_of_not_visible (firstWithin_before search index past less token found)⟩
      obtain ⟨tail, found, further⟩ :=
        lastBelow_of_lt (show head < last + 1 by omega) here shows
      obtain ⟨within, ⟨final, there, ends⟩, none⟩ := lastBelow_some found
      have closes : tokens.LastShown (last + 1) tail final :=
        ⟨there, of_decide_eq_true ends, within, fun index token past less found =>
          blank_of_not_visible (none index past less token found)⟩
      have backwards : tokens.lastBefore isVisible (last + 1) = some tail := by
        rw [lastBefore, Nat.min_eq_left inside, found]
      simp only [backwards, Option.getD_some]
      refine .shown opens closes further ?_ ?_
      · rw [lineAt, here]
        rfl
      · rw [there]
        rfl

theorem Covers.within (lined : tokens.Numbered) {first stop begins ends : Nat} {outer inner : Lines}
    (around : tokens.Covers first stop outer) (covers : tokens.Covers begins ends inner)
    (left : first ≤ begins) (right : ends ≤ stop) {start : Nat}
    (starts : inner.start = some start) :
    ∃ line, outer.start = some line ∧ line ≤ start ∧
      (tokens.feedsBefore tokens.size < lineLimit →
        start ≤ inner.stop ∧ inner.stop ≤ outer.stop) := by
  cases covers with
  | blank none => cases none.symm.trans starts
  | @shown head tail initial final opens closes order startsAt stopsAt =>
      obtain rfl : initial.line = start := Option.some.inj (startsAt.symm.trans starts)
      have behind := Nat.le_trans left opens.behind
      have before := Nat.lt_of_lt_of_le closes.before right
      cases around with
      | blank _ blank =>
          have inRange : head < stop := Nat.lt_of_le_of_lt order before
          exact absurd (blank head initial behind inRange opens.here) opens.shows
      | @shown outerHead outerTail _ outerFinal outerOpens outerCloses _ outerStart outerStop =>
          have headOrder := outerOpens.le opens.here opens.shows behind
          have tailOrder := outerCloses.ge closes.here closes.shows before
          refine ⟨_, outerStart, lined.line_le_line headOrder outerOpens.here opens.here,
            fun few => ?_⟩
          have initialFirst := lined.line_le_line order opens.here closes.here
          obtain ⟨-, ending⟩ := lined.counted rfl few closes.here
          rw [stopsAt, outerStop]
          refine ⟨by omega, ?_⟩
          rcases Nat.eq_or_lt_of_le tailOrder with rfl | earlier
          · rw [Option.some.inj (closes.here.symm.trans outerCloses.here)]
          · have finalFirst := lined.endLine_le_line earlier closes.here outerCloses.here
            obtain ⟨-, outerEnding⟩ := lined.counted rfl few outerCloses.here
            omega

theorem Covers.apart (lined : tokens.Numbered) {first stop begins ends : Nat} {front back : Lines}
    (covers : tokens.Covers first stop front) (behind : tokens.Covers begins ends back)
    (order : stop ≤ begins) (shows : front.start ≠ none) {start : Nat}
    (starts : back.start = some start) : front.stop ≤ start := by
  cases covers with
  | blank none => exact absurd none shows
  | @shown _ tail _ _ _ closes _ _ stopsAt =>
      cases behind with
      | blank none => cases none.symm.trans starts
      | @shown head _ _ _ opens _ _ startsAt =>
          have apart : tail < head :=
            Nat.lt_of_lt_of_le closes.before (Nat.le_trans order opens.behind)
          rw [stopsAt, ← Option.some.inj (startsAt.symm.trans starts)]
          exact lined.endLine_le_line apart closes.here opens.here

end Tokens

/-! ### Bounds of a node -/

structure Stretch.Bounds (stretches : List Stretch) (id first stop : Nat) : Prop where
  header : ∃ middle, ⟨.body id, first, middle⟩ ∈ stretches
  close : ∃ middle, ⟨.close id, middle, stop⟩ ∈ stretches

theorem Stretch.Bounds.mono {stretches others : List Stretch} {id first stop : Nat}
    (bounds : Bounds stretches id first stop) (among : stretches ⊆ others) :
    Bounds others id first stop where
  header := bounds.header.imp fun _ member => among member
  close := bounds.close.imp fun _ member => among member

namespace Outline

variable {tokens : Tokens} {outline : Outline} {covered : Nat}

/-- What is noted of the nodes: the first token of those that are open, the first and the last one
of all others. -/
structure Noted (outline : Outline) (stretches : List Stretch) : Prop where
  size : outline.extents.size = outline.tree.size
  entered : ∀ entry ∈ outline.entered, ∃ middle, ⟨.body entry.id, entry.first, middle⟩ ∈ stretches
  closed : ∀ id < outline.tree.size, id ∉ outline.opened → ∃ first last,
    outline.extents[id]? = some (some (first, last)) ∧ Stretch.Bounds stretches id first (last + 1)

theorem Noted.start : Noted start [⟨.body root, 0, 0⟩] where
  size := rfl
  entered := fun _ none => by cases none
  closed := by
    intro id inside closed
    have isRoot : id = root := Nat.lt_one_iff.mp inside
    exact absurd (List.mem_singleton.mpr isRoot) closed

private theorem extents_attach (node : Node) (first last : Nat) {id : Nat}
    {extent : Option (Nat × Nat)} (here : outline.extents[id]? = some extent) :
    (outline.attach node first last).extents[id]? = some extent := by
  have inside := (Array.getElem?_eq_some_iff.mp here).1
  change (outline.extents.push (some (first, last)))[id]? = some extent
  rw [Array.getElem?_push, if_neg (Nat.ne_of_lt inside), here]

theorem Noted.size_extents {stretches : List Stretch} (noted : outline.Noted stretches)
    (node : Node) (first last : Nat) : (outline.attach node first last).extents.size =
      (outline.attach node first last).tree.size := by
  change (outline.extents.push _).size = _
  rw [Array.size_push, noted.size, size_attach]

theorem Noted.leaf {stretches : List Stretch} (noted : outline.Noted stretches) (node : Node)
    (last : Nat) :
    Noted (outline.take (.leaf node covered last))
      (stretches ++ outline.fills covered (last + 1) (.leaf node covered last)) where
  size := noted.size_extents node covered last
  entered := by
    intro entry member
    obtain ⟨middle, among⟩ := noted.entered entry member
    exact ⟨middle, List.mem_append_left _ among⟩
  closed := by
    intro id inside closed
    change id < (outline.attach node covered last).tree.size at inside
    rw [size_attach] at inside
    rcases Nat.eq_or_lt_of_le (Nat.le_of_lt_succ inside) with rfl | old
    · refine ⟨covered, last, ?_, ⟨last + 1, by simp [fills]⟩, ⟨last + 1, by simp [fills]⟩⟩
      change (outline.extents.push _)[outline.tree.size]? = _
      rw [← noted.size, Array.getElem?_push_size]
    · obtain ⟨first, final, here, bounds⟩ := noted.closed id old closed
      exact ⟨first, final, extents_attach node covered last here,
        bounds.mono (List.subset_append_left _ _)⟩

theorem Noted.enter {stretches : List Stretch} (noted : outline.Noted stretches) (node : Node)
    (last : Nat) :
    Noted (outline.take (.enter node covered last))
      (stretches ++ outline.fills covered (last + 1) (.enter node covered last)) where
  size := noted.size_extents node covered last
  entered := by
    intro entry member
    rcases List.mem_cons.mp member with rfl | around
    · exact ⟨last + 1, by simp [fills]⟩
    · obtain ⟨middle, among⟩ := noted.entered entry around
      exact ⟨middle, List.mem_append_left _ among⟩
  closed := by
    intro id inside closed
    change id < (outline.attach node covered last).tree.size at inside
    rw [size_attach] at inside
    have opened : (outline.take (.enter node covered last)).opened =
        outline.tree.size :: outline.opened := rfl
    rw [opened] at closed
    obtain ⟨other, around⟩ := List.ne_and_not_mem_of_not_mem_cons closed
    obtain ⟨first, final, here, bounds⟩ := noted.closed id
      (Nat.lt_of_le_of_ne (Nat.le_of_lt_succ inside) other) around
    exact ⟨first, final, extents_attach node covered last here,
      bounds.mono (List.subset_append_left _ _)⟩

theorem Noted.leave {stretches : List Stretch} (noted : outline.Noted stretches)
    (laid : Laid tokens outline covered) {entry : OpenNode} {rest : List OpenNode}
    (entered : outline.entered = entry :: rest) (close : Text) {last stop : Nat}
    (ends : last + 1 = stop) :
    Noted (outline.take (.leave close last))
      (stretches ++ outline.fills covered stop (.leave close last)) := by
  have opened := opened_of_entered entered
  have inside : entry.id < outline.tree.size := laid.inside _ (opened ▸ List.mem_cons_self)
  have filling : outline.fills covered stop (.leave close last) =
      [⟨.close entry.id, covered, stop⟩] := by
    rw [fills, entered]
    rfl
  rw [take_leave entered, filling]
  constructor
  · rw [Array.size_setIfInBounds, size_update, noted.size]
  · intro other member
    obtain ⟨middle, among⟩ := noted.entered other (entered ▸ List.mem_cons_of_mem _ member)
    exact ⟨middle, List.mem_append_left _ among⟩
  · intro id known closed
    rw [size_update] at known
    change id ∉ rest.map OpenNode.id ++ [root] at closed
    change ∃ first last, (outline.extents.setIfInBounds entry.id _)[id]? = _ ∧ _
    by_cases same : entry.id = id
    · obtain ⟨middle, among⟩ := noted.entered entry (entered ▸ List.mem_cons_self)
      subst same
      refine ⟨entry.first, last, ?_, ⟨middle, List.mem_append_left _ among⟩, ⟨covered, ?_⟩⟩
      · rw [Array.getElem?_setIfInBounds_self_of_lt (noted.size ▸ inside)]
      · rw [ends]
        exact List.mem_append_right _ List.mem_cons_self
    · have around : id ∉ outline.opened := by
        rw [opened, List.mem_cons]
        exact not_or.mpr ⟨Ne.symm same, closed⟩
      obtain ⟨first, final, here, bounds⟩ := noted.closed id known around
      refine ⟨first, final, ?_, bounds.mono (List.subset_append_left _ _)⟩
      rw [Array.getElem?_setIfInBounds_ne same, here]

theorem Noted.update {stretches : List Stretch} (noted : outline.Noted stretches) (id : Nat)
    (change : Node → Node) :
    Noted { outline with tree := outline.tree.update id change } stretches where
  size := noted.size.trans (size_update _ _).symm
  entered := noted.entered
  closed := by
    intro other known closed
    rw [size_update] at known
    exact noted.closed other known closed

theorem Noted.step {stretches : List Stretch} {point next : Point} {event : Event}
    (noted : outline.Noted stretches) (laid : Laid tokens outline point.covered)
    (length : outline.entered.length = point.frames.length)
    (step : Event.Step tokens point event next) :
    Noted (outline.take event) (stretches ++ outline.fills point.covered next.covered event) := by
  cases step with
  | leaf => exact noted.leaf _ _
  | enter => exact noted.enter _ _
  | leave =>
      obtain ⟨entry, rest, entered⟩ := List.exists_cons_of_length_eq_add_one length
      exact noted.leave laid entered _ rfl
  | leaveOpen ends =>
      obtain ⟨entry, rest, entered⟩ := List.exists_cons_of_length_eq_add_one length
      exact noted.leave laid entered _ ends
  | yields =>
      rw [fills, List.append_nil]
      rcases outline.take_yields with same | ⟨id, same⟩
      · rw [same]
        exact noted
      · rw [same]
        exact noted.update id _
  | imports entries =>
      obtain ⟨id, same⟩ := outline.take_imports entries
      rw [same, fills, List.append_nil]
      exact noted.update id _

/-- Along a derivation, what is noted of a node are the bounds of its ranges. -/
theorem noted_of_derives {events : List Event} {point : Point}
    (derives : Derives tokens events point) :
    ∃ stretches : List Stretch, Filled tokens (ofEvents events) point.covered stretches ∧
      (ofEvents events).Noted stretches := by
  induction derives with
  | start => exact ⟨_, .start tokens, .start⟩
  | step before step ih =>
      obtain ⟨laid, length⟩ := laid_of_derives before
      obtain ⟨stretches, filled, noted⟩ := ih
      rw [ofEvents_snoc]
      exact ⟨_, filled.step laid length step, noted.step laid length step⟩

end Outline

namespace Tree

variable {tree : Tree} {tokens : Tokens} {stretches : List Stretch}

/-- The tokens of a node, with those of the nodes below it: they spell its text, and those in front
of them spell the text in front of it. -/
structure Occupies (tree : Tree) (tokens : Tokens) (id first stop : Nat) : Prop where
  order : first ≤ stop
  inside : stop ≤ tokens.size
  front : tree.frontText root id = tokens.textBetween 0 first
  text : tree.nodeText id = tokens.textBetween first stop

/-- The bounds of a node cut the ranges of a file at its parts. -/
theorem Ranges.cut (ranges : tree.Ranges tokens stretches) (linked : tree.Linked)
    {id first stop : Nat} (inside : id < tree.size)
    (bounds : Stretch.Bounds stretches id first stop) {left right : List Part} (split : tree.parts = left ++ (tree.tour id ++ right)) :
    ∃ before own after, stretches = before ++ (own ++ after) ∧ before.map Stretch.part = left ∧
      own.map Stretch.part = tree.tour id ∧ after.map Stretch.part = right ∧
      Stretch.Consecutive 0 before first ∧ Stretch.Consecutive first own stop ∧
      Stretch.Consecutive stop after tokens.size := by
  obtain ⟨⟨middle, isHeader⟩, ⟨further, isClose⟩⟩ := bounds
  obtain ⟨before, rest, rfl, isBefore, parts⟩ :=
    List.map_eq_append_iff.mp (ranges.parts.trans split)
  obtain ⟨own, after, rfl, isOwn, isAfter⟩ := List.map_eq_append_iff.mp parts
  refine ⟨before, own, after, rfl, isBefore, isOwn, isAfter, ?_⟩
  obtain ⟨begins, early, rest⟩ := ranges.consecutive.split
  obtain ⟨ends, within, late⟩ := rest.split
  obtain ⟨header, below, close, rfl, ofHeader, ofClose⟩ :=
    exists_ends_of_tour linked inside isOwn
  have same : header = ⟨.body id, first, middle⟩ :=
    ranges.same_stretch linked (by simp) isHeader ofHeader
  have sameClose : close = ⟨.close id, further, stop⟩ :=
    ranges.same_stretch linked (by simp) isClose ofClose
  have atFirst : begins = first := within.ends.1.symm.trans (congrArg Stretch.first same)
  have atStop : ends = stop := within.ends.2.symm.trans (congrArg Stretch.stop sameClose)
  rw [← atFirst, ← atStop]
  exact ⟨early, within, late⟩

theorem Ranges.bounds_root (ranges : tree.Ranges tokens stretches) (linked : tree.Linked) :
    Stretch.Bounds stretches root 0 tokens.size := by
  obtain ⟨header, middle, close, rfl, ofHeader, ofClose⟩ :=
    exists_ends_of_tour linked linked.filled ranges.parts
  obtain ⟨begins, stops⟩ := ranges.consecutive.ends
  refine ⟨⟨header.stop, ?_⟩, ⟨close.first, ?_⟩⟩
  · rw [← ofHeader, ← begins]
    exact List.mem_cons_self
  · rw [← ofClose, ← stops]
    simp

theorem Ranges.occupies (ranges : tree.Ranges tokens stretches) (linked : tree.Linked)
    {id first stop : Nat} (inside : id < tree.size) (atop : tree.Over root id)
    (bounds : Stretch.Bounds stretches id first stop) : tree.Occupies tokens id first stop := by
  obtain ⟨left, right, whole⟩ := tour_within_of_over linked atop
  rw [List.append_assoc] at whole
  obtain ⟨before, own, after, rfl, isBefore, isOwn, -, early, within, late⟩ :=
    ranges.cut linked inside bounds whole.symm
  have texts := fun stretch member => (ranges.made stretch member).text
  have nodup := nodup_tour linked linked.filled
  rw [← whole, tour_eq linked.ascending inside, List.cons_append] at nodup
  have split : tree.tour root = left ++ .body id ::
      ((tree.children id).flatMap tree.tour ++ [.close id] ++ right) := by
    rw [← whole, tour_eq linked.ascending inside, List.cons_append]
  have new : Part.body id ∉ left := fun member =>
    (List.nodup_cons.mp (List.nodup_middle.mp nodup)).1 (List.mem_append_left _ member)
  refine ⟨within.le, late.le, ?_, ?_⟩
  · rw [frontText_of_split split new, ← isBefore]
    exact early.printed fun stretch member => texts stretch (List.mem_append_left _ member)
  · rw [nodeText_eq, ← isOwn]
    exact within.printed fun stretch member =>
      texts stretch (List.mem_append_right _ (List.mem_append_left _ member))

theorem Ranges.bounds_child (ranges : tree.Ranges tokens stretches) (linked : tree.Linked)
    {id child first stop begins ends : Nat} (inside : id < tree.size) (atop : tree.Over root id)
    (member : child ∈ tree.children id) (bounds : Stretch.Bounds stretches id first stop)
    (inner : Stretch.Bounds stretches child begins ends) : first ≤ begins ∧ ends ≤ stop := by
  obtain ⟨left, right, whole⟩ := tour_within_of_over linked atop
  rw [List.append_assoc] at whole
  obtain ⟨before, own, after, rfl, -, isOwn, -, -, within, -⟩ :=
    ranges.cut linked inside bounds whole.symm
  have known := (linked.ascending.children id child member).2
  have below := (tour_within_of_child linked.ascending member).subset
  have among {stretch : Stretch} (isIn : stretch ∈ before ++ (own ++ after))
      (onTour : stretch.part ∈ tree.tour id) : stretch ∈ own := by
    rw [← isOwn] at onTour
    obtain ⟨other, isOther, same⟩ := List.mem_map.mp onTour
    rw [← ranges.same_stretch linked (by simp [isOther]) isIn same]
    exact isOther
  obtain ⟨⟨_, isHeader⟩, ⟨_, isClose⟩⟩ := inner
  exact ⟨within.first_le _ (among isHeader (below (body_mem_tour linked.ascending known))),
    within.stop_le _ (among isClose (below (close_mem_tour linked.ascending known)))⟩

theorem Ranges.bounds_siblings (ranges : tree.Ranges tokens stretches) (linked : tree.Linked)
    {id earlier later first stop begins ends : Nat} (inside : id < tree.size)
    (atop : tree.Over root id) (order : [earlier, later].Sublist (tree.children id))
    (left : Stretch.Bounds stretches earlier first stop)
    (right : Stretch.Bounds stretches later begins ends) : stop ≤ begins := by
  obtain ⟨front, back, whole⟩ := tour_within_of_over linked atop
  obtain ⟨upTo, beyond, among, isEarlier, isLater⟩ := List.cons_sublist_iff.mp order
  obtain ⟨before, between, rfl⟩ := List.append_of_mem isEarlier
  have isAfter : later ∈ between ++ beyond :=
    List.mem_append_right _ (List.singleton_sublist.mp isLater)
  rw [List.append_assoc, List.cons_append] at among
  have known := (linked.ascending.of_children among).2
  have split : tree.parts = (front ++ .body id :: before.flatMap tree.tour) ++
      (tree.tour earlier ++ ((between ++ beyond).flatMap tree.tour ++ (.close id :: back))) := by
    rw [Tree.parts, ← whole, tour_eq linked.ascending inside, among, List.flatMap_append,
      List.flatMap_cons]
    simp only [List.append_assoc, List.cons_append, List.nil_append]
  obtain ⟨_, own, after, rfl, -, -, isRest, -, -, late⟩ := ranges.cut linked known left split
  obtain ⟨_, isHeader⟩ := right.header
  have child : later ∈ tree.children id :=
    among ▸ List.mem_append_right _ (List.mem_cons_of_mem _ isAfter)
  have onTour : Part.body later ∈ after.map Stretch.part := by
    rw [isRest]
    refine List.mem_append_left _ (List.mem_flatMap.mpr ⟨later, isAfter, ?_⟩)
    exact body_mem_tour linked.ascending (linked.ascending.children id later child).2
  obtain ⟨other, isOther, same⟩ := List.mem_map.mp onTour
  rw [ranges.same_stretch linked (by simp [isOther]) isHeader same] at isOther
  exact late.first_le _ isOther

/-! ### Lines of a node -/

theorem lines_withLines {extents : Array (Option (Nat × Nat))} {id : Nat}
    (inside : id < tree.size) : ((tree.withLines tokens extents).node id).lines =
      ((extents[id]?).join.map fun extent => tokens.linesOf extent.1 extent.2).getD
        (tree.node id).lines := by
  have here : tree.nodes[id]? = some tree.nodes[id] := Array.getElem?_eq_getElem inside
  unfold Tree.node withLines
  rw [Array.getElem?_mapIdx, here]
  cases (extents[id]?).join with
  | none => rfl
  | some extent => rfl

theorem span_withContent (tree : Tree) (source : Text) (id : Nat) :
    ((tree.withContent source).node id).lines.start = (tree.node id).lines.start ∧
      ((tree.withContent source).node id).lines.stop = (tree.node id).lines.stop := by
  have start (node : Node) :
      (listed (tree.lineContent source) node).lines.start = node.lines.start := rfl
  have stop (node : Node) :
      (listed (tree.lineContent source) node).lines.stop = node.lines.stop := rfl
  rw [withContent_eq]
  exact ⟨node_update_property (fun node => node.lines.start) start id,
    node_update_property (fun node => node.lines.stop) stop id⟩

theorem covers_ofOutline {outline : Outline} (noted : outline.Noted stretches)
    (filled : outline.Filled tokens tokens.size stretches) (onlyFile : outline.opened = [root])
    {id : Nat} (inside : id < outline.tree.size) (other : id ≠ root) :
    ∃ first stop, Stretch.Bounds stretches id first stop ∧
      tokens.Covers first stop ((ofOutline outline tokens).node id).lines ∧
      ((ofOutline outline tokens).node id).lines.content = [] := by
  obtain ⟨first, last, here, bounds⟩ := noted.closed id inside (by simpa [onlyFile] using other)
  obtain ⟨middle, isClose⟩ := bounds.close
  have within : last < tokens.size := filled.consecutive.stop_le _ isClose
  refine ⟨first, last + 1, bounds, ?_⟩
  rw [ofOutline, lines_withLines inside, Array.getElem?_setIfInBounds_ne (Ne.symm other), here]
  exact ⟨Tokens.covers_linesOf within, Tokens.content_linesOf first last⟩

theorem covers_root {outline : Outline} (noted : outline.Noted stretches)
    (inside : root < outline.tree.size)
    (bare : tokens.size = 0 → (outline.tree.node root).lines = {}) :
    tokens.Covers 0 tokens.size ((ofOutline outline tokens).node root).lines ∧
      ((ofOutline outline tokens).node root).lines.content = [] := by
  have known : root < outline.extents.size := noted.size ▸ inside
  rw [ofOutline, lines_withLines inside, Array.getElem?_setIfInBounds_self_of_lt known, fileExtent]
  by_cases empty : tokens.size = 0
  · rw [if_pos empty]
    change tokens.Covers 0 tokens.size (outline.tree.node root).lines ∧ _
    rw [bare empty]
    refine ⟨.blank rfl fun index token _ before => ?_, rfl⟩
    omega
  · rw [if_neg empty]
    refine ⟨?_, Tokens.content_linesOf _ _⟩
    have covers : tokens.Covers 0 (tokens.size - 1 + 1) (tokens.linesOf 0 (tokens.size - 1)) :=
      Tokens.covers_linesOf (by omega)
    rw [Nat.sub_add_cancel (Nat.pos_of_ne_zero empty)] at covers
    exact covers

theorem bounds_of_plain {source : Text} {tree : Tree} (parsed : parse false source = .ok tree) :
    ∃ stretches, tree.Ranges (TokenStream.ofText .html source).tokens stretches ∧
      ∀ id < tree.size, (tree.node id).lines.content = [] ∧
        ∃ first stop, Stretch.Bounds stretches id first stop ∧
          (TokenStream.ofText .html source).tokens.Covers first stop (tree.node id).lines := by
  have linked := (native_of_parse parsed).linked
  obtain ⟨events, read, relined⟩ := outline_of_parse parsed
  obtain ⟨others, again, rfl⟩ := ofOutline_of_parse parsed
  obtain rfl := Except.ok.inj (read.symm.trans again)
  have derives := Reader.derives_eventsOf (Scan.spelled_scan .html source)
    (Scan.tagged_scan .html source) read
  obtain ⟨laid, length⟩ := Outline.laid_of_derives derives
  obtain ⟨stretches, filled, noted⟩ := Outline.noted_of_derives derives
  have onlyFile := Outline.opened_of_length_zero length
  have ranges := relined.ranges laid filled onlyFile
  refine ⟨_, ranges, fun id inside => ?_⟩
  rw [relined.size] at inside
  rw [if_neg Bool.false_ne_true]
  by_cases isRoot : id = root
  · subst isRoot
    have bare (empty : (TokenStream.ofText .html source).tokens.size = 0) :
        ((Outline.ofEvents events).tree.node root).lines = {} := by
      rw [Array.eq_empty_of_size_eq_zero empty] at read
      have none : Reader.eventsOf #[] = .ok [] := rfl
      obtain rfl := Except.ok.inj (none.symm.trans read)
      rfl
    obtain ⟨covers, plain⟩ := covers_root noted inside bare
    exact ⟨plain, _, _, ranges.bounds_root linked, covers⟩
  · obtain ⟨first, stop, bounds, covers, plain⟩ :=
      covers_ofOutline noted filled onlyFile inside isRoot
    exact ⟨plain, first, stop, bounds.mono (List.subset_append_left _ _), covers⟩

theorem bounds_of_parse {listLines : Bool} {source : Text} {tree : Tree}
    (parsed : parse listLines source = .ok tree) :
    ∃ stretches, tree.Ranges (TokenStream.ofText .html source).tokens stretches ∧
      ∀ id < tree.size, ∃ first stop, Stretch.Bounds stretches id first stop ∧
        (TokenStream.ofText .html source).tokens.Covers first stop (tree.node id).lines := by
  obtain ⟨plain, known, listed⟩ := plain_of_parse parsed
  obtain ⟨stretches, ranges, bounds⟩ := bounds_of_plain known
  cases listLines with
  | false =>
      rw [listed, if_neg Bool.false_ne_true]
      exact ⟨stretches, ranges, fun id inside => (bounds id inside).2⟩
  | true =>
      rw [listed, if_pos rfl]
      have relined := relined_withContent plain source
      refine ⟨stretches, ranges.relined relined, fun id inside => ?_⟩
      obtain ⟨-, first, stop, here, covers⟩ := bounds id (relined.size ▸ inside)
      have span := span_withContent plain source id
      exact ⟨first, stop, here, covers.congr span.1 span.2⟩

/-- The lines of the nodes of a file. They are counted in 32 bits: in a file with more of them the
line on which a node ends may be one of the first again. -/
structure Extents (tree : Tree) (source : Text) : Prop where
  numbered : (TokenStream.ofText .html source).tokens.Numbered
  node : ∀ id ∈ tree.preorder root, ∃ first stop,
    tree.Occupies (TokenStream.ofText .html source).tokens id first stop ∧
      (TokenStream.ofText .html source).tokens.Covers first stop (tree.node id).lines ∧
      ((tree.node id).lines.start = none ↔
        (TokenStream.ofText .html source).tokens.BlankBetween first stop)
  child : ∀ id ∈ tree.preorder root, ∀ child ∈ tree.children id, ∀ start : Nat,
    (tree.node child).lines.start = some start → ∃ line,
      (tree.node id).lines.start = some line ∧ line ≤ start ∧
        (Text.newlines source < lineLimit → start ≤ (tree.node child).lines.stop ∧
          (tree.node child).lines.stop ≤ (tree.node id).lines.stop)
  siblings : ∀ id ∈ tree.preorder root, ∀ earlier later : Nat,
    [earlier, later].Sublist (tree.children id) → (tree.node earlier).lines.start ≠ none →
      ∀ start : Nat, (tree.node later).lines.start = some start →
        (tree.node earlier).lines.stop ≤ start

theorem feedsBefore_ofText (source : Text) :
    (TokenStream.ofText .html source).tokens.feedsBefore
      (TokenStream.ofText .html source).tokens.size = Text.newlines source :=
  Tokens.feedsBefore_scan .html source

/-- The lines of a node are those of the first and of the last token of its text that are not white
space. So those of a child are among those of its parent, and a child ends no later than the next
one begins. -/
theorem extents_of_parse {listLines : Bool} {source : Text} {tree : Tree}
    (parsed : parse listLines source = .ok tree) : tree.Extents source := by
  have linked := (native_of_parse parsed).linked
  have lined : (TokenStream.ofText .html source).tokens.Numbered :=
    Tokens.numbered_scan .html source
  obtain ⟨stretches, ranges, bounds⟩ := bounds_of_parse parsed
  have reached {id : Nat} (member : id ∈ tree.preorder root) :
      id < tree.size ∧ tree.Over root id := (mem_preorder linked linked.filled).mp member
  refine ⟨lined, fun id member => ?_, fun id member child isChild start starts => ?_,
    fun id member earlier later order shows start starts => ?_⟩
  · obtain ⟨inside, atop⟩ := reached member
    obtain ⟨first, stop, here, covers⟩ := bounds id inside
    exact ⟨first, stop, ranges.occupies linked inside atop here, covers, covers.start_eq_none⟩
  · obtain ⟨inside, atop⟩ := reached member
    obtain ⟨first, stop, here, covers⟩ := bounds id inside
    obtain ⟨begins, ends, below, inner⟩ :=
      bounds child (linked.ascending.children id child isChild).2
    obtain ⟨left, right⟩ := ranges.bounds_child linked inside atop isChild here below
    rw [← feedsBefore_ofText]
    exact covers.within lined inner left right starts
  · obtain ⟨inside, atop⟩ := reached member
    have child (id' : Nat) (isOne : id' ∈ [earlier, later]) : id' < tree.size :=
      (linked.ascending.children id id' (order.subset isOne)).2
    obtain ⟨first, stop, here, covers⟩ := bounds earlier (child earlier (by simp))
    obtain ⟨begins, ends, there, behind⟩ := bounds later (child later (by simp))
    exact covers.apart lined behind (ranges.bounds_siblings linked inside atop order here there)
      shows starts

/-- A namespace without braces ends in front of the white space before the next one. -/
theorem extents_of_parse_scope :
    let source := "<?php\nnamespace A;\nf();\n\nnamespace B;\n\n".toList
    ∃ tree, parse false source = .ok tree ∧ tree.Extents source ∧
      (tree.preorder root).map (fun id => ((tree.node id).lines.start, (tree.node id).lines.stop)) =
        [(some 1, 5), (some 1, 1), (some 2, 3), (some 3, 3), (none, 0), (some 5, 5), (none, 0)] := by
  intro source
  have spans : (parse false source).toOption.map (fun tree => (tree.preorder root).map fun id =>
      ((tree.node id).lines.start, (tree.node id).lines.stop)) =
        some [(some 1, 5), (some 1, 1), (some 2, 3), (some 3, 3), (none, 0), (some 5, 5),
          (none, 0)] := by decide +kernel
  cases parsed : parse false source with
  | error fault =>
      rw [parsed] at spans
      cases spans
  | ok tree =>
      rw [parsed] at spans
      exact ⟨tree, rfl, extents_of_parse parsed, Option.some.inj spans⟩

end Tree
end PhpWeave
