import PhpWeave.Proofs.Grammar.Course
import PhpWeave.Proofs.Grammar.Passing
import PhpWeave.Proofs.Weave.Blocks

set_option autoImplicit false

/-!
The blocks that are open along a read. Those that directives opened are among the ones that the
frames of the read count. So none of them is open where an import statement may stand, and only the
pieces in which one was given up have braces in their middle.
-/

namespace PhpWeave

namespace Reader

/-- The blocks that directives opened are counted by the frames they are in, and every leaf that was
reported is ordered. -/
structure Held (reader : Reader) : Prop where
  frames : List.Forall₂ (fun blocks frame => Counts blocks (Frame.braces frame))
    (blocksOf reader.events.toList) (reader.top :: reader.outer)
  ordered : Event.AllOrdered [[]] reader.events.toList

theorem Held.of_events {reader next : Reader} (held : Held reader) {added : List Event}
    (events : next.events.toList = reader.events.toList ++ added)
    (ordered : Event.AllOrdered (blocksOf reader.events.toList) added)
    (frames : List.Forall₂ (fun blocks frame => Counts blocks (Frame.braces frame))
      (added.foldl Event.blocks (blocksOf reader.events.toList)) (next.top :: next.outer)) :
    Held next where
  frames := by
    rw [events, blocksOf_append]
    exact frames
  ordered := by
    rw [events]
    exact Event.allOrdered_append.mpr ⟨held.ordered, ordered⟩

theorem Held.of_same {reader next : Reader} (held : Held reader)
    (events : next.events = reader.events)
    (braces : next.top.braces = reader.top.braces) (outer : next.outer = reader.outer) :
    Held next where
  frames := by
    obtain ⟨here, rest, counts, others, ledger⟩ := List.forall₂_cons_right_iff.mp held.frames
    rw [events, ledger, outer]
    exact .cons (braces ▸ counts) others
  ordered := events ▸ held.ordered

section Held

variable {reader : Reader} (held : Held reader)
include held

theorem Held.cases : ∃ here outer, blocksOf reader.events.toList = here :: outer ∧
    Counts here reader.top.braces ∧
    List.Forall₂ (fun blocks frame => Counts blocks (Frame.braces frame)) outer reader.outer := by
  obtain ⟨here, outer, counts, others, ledger⟩ := List.forall₂_cons_right_iff.mp held.frames
  exact ⟨here, outer, ledger, counts, others⟩

theorem Held.report_leaf {node : Node} (fixed : node.isEditable = false) (first last : Nat) :
    Held (reader.report (.leaf node first last)) := by
  obtain ⟨here, outer, ledger, counts, others⟩ := held.cases
  refine held.of_events (events_report _) ?_ ?_
  · rw [ledger]
    exact ⟨Node.ordered_of_fixed fixed, trivial⟩
  · rw [ledger]
    change List.Forall₂ _ (node.blocksBehind here :: outer) _
    rw [Node.blocksBehind_of_fixed fixed]
    exact .cons counts others

theorem Held.report_enter (node : Node) (first last : Nat) (kind : FrameKind) (start : Nat) :
    Held ((reader.report (.enter node first last)).openFrame kind start) := by
  refine held.of_events (events_report _) ?_ ?_
  · exact ⟨by unfold Event.Ordered; split <;> trivial, trivial⟩
  · rw [List.foldl_cons, Event.blocks_enter]
    exact .cons (Counts.of_none List.not_mem_nil _) held.frames

theorem Held.report_silent {event : Event} (silent : event = .yields ∨ ∃ entries,
    event = .imports entries) : Held (reader.report event) := by
  refine held.of_events (events_report _) ?_ ?_
  · rcases silent with rfl | ⟨entries, rfl⟩
    · exact ⟨by unfold Event.Ordered; split <;> trivial, trivial⟩
    · exact ⟨by unfold Event.Ordered; split <;> trivial, trivial⟩
  · rcases silent with rfl | ⟨entries, rfl⟩
    · rw [List.foldl_cons, Event.blocks_yields]
      exact held.frames
    · rw [List.foldl_cons, Event.blocks_imports]
      exact held.frames

theorem Held.closeFrame (close : Text) (last : Nat) : Held (reader.closeFrame close last) := by
  cases around : reader.outer with
  | nil =>
      rw [Reader.closeFrame, around]
      exact held
  | cons next outer =>
      have events : (reader.closeFrame close last).events.toList =
          reader.events.toList ++ [.leave close last] := by
        rw [Reader.closeFrame, around]
        exact Array.toList_push
      refine held.of_events events ⟨by unfold Event.Ordered; split <;> trivial, trivial⟩ ?_
      obtain ⟨here, ledger, same, -, others⟩ := held.cases
      rw [List.foldl_cons, Event.blocks_leave, same, Reader.closeFrame, around]
      rw [around] at others
      exact others

end Held

theorem Held.none_of_level {reader : Reader} (held : Held reader)
    (level : reader.atFileLevel = true) {here : List Bool} {outer : List (List Bool)}
    (ledger : blocksOf reader.events.toList = here :: outer) : true ∉ here := by
  obtain ⟨head, rest, same, counts, -⟩ := held.cases
  cases ledger.symm.trans same
  have braces : reader.top.braces = 0 := by
    unfold atFileLevel at level
    split at level
    · exact beq_iff_eq.mp level
    · exact beq_iff_eq.mp level
    · cases level
  intro member
  obtain ⟨depth, isOpen⟩ := List.getElem?_of_mem member
  have counted := counts depth isOpen
  rw [braces] at counted
  exact absurd counted (Nat.not_lt_zero _)

section Flush

variable {source : Text} {reader : Reader} {stop : Nat} {front last : List Token} {here : List Bool}
variable (code : ∀ token ∈ ((TokenStream.ofText .html source).tokens.extract reader.pending
  stop).toList, token.kind.isMarkup = false)
variable (split : ((TokenStream.ofText .html source).tokens.extract reader.pending stop).toList =
  front ++ last)
include code split

theorem braces_plainNode : (plainNode (TokenStream.ofText .html source).tokens reader stop).braces =
    Token.bracesOf (front ++ last) := by
  obtain ⟨forgot, alike⟩ := Fragment.alike_between source code
  exact (bracesOf_of_alike alike).trans (congrArg Token.bracesOf split)

theorem endsAtBrace_plainNode (single : last.length ≤ 1)
    (none : ∀ token ∈ front, token.kind.isBrace = false) :
    (plainNode (TokenStream.ofText .html source).tokens reader stop).EndsAtBrace := by
  obtain ⟨forgot, alike⟩ := Fragment.alike_between source code
  refine forall_dropLast_of_alike alike fun token member => ?_
  rw [split] at member
  match last, single with
  | [], _ =>
      rw [List.append_nil] at member
      exact none token (List.dropLast_subset _ member)
  | [_], _ =>
      rw [List.dropLast_concat] at member
      exact none token member

theorem isDirective_plainNode (strays : Strays front) :
    (plainNode (TokenStream.ofText .html source).tokens reader stop).isDirective = false := by
  obtain ⟨forgot, alike⟩ := Fragment.alike_between source code
  obtain ⟨word, found, -, isUse⟩ := strays.append last
  have text := find?_of_alike alike
  rw [split, found, Option.map_some] at text
  obtain ⟨again, isFirst, same⟩ := Option.map_eq_some_iff.mp text
  apply Node.not_isDirective isFirst
  rw [same]
  exact TokenKind.not_declare_of_use isUse

/-- What is reported of the pending tokens keeps the blocks counted. -/
theorem Held.flush (single : last.length ≤ 1) (harmless : Harmless here front)
    {outer : List (List Bool)} (ledger : blocksOf reader.events.toList = here :: outer)
    {braces : Nat} (counts : Counts here braces)
    (counted : reader.top.braces = (Token.bracesOf last).foldl TokenKind.counted braces)
    (others : List.Forall₂ (fun blocks frame => Counts blocks (Frame.braces frame)) outer
      reader.outer)
    (ordered : Event.AllOrdered [[]] reader.events.toList) :
    Held (reader.flush (TokenStream.ofText .html source).tokens stop) := by
  have held (added : List Event) (blocks : List Bool)
      (events : plainEvents (TokenStream.ofText .html source).tokens reader stop = added)
      (isOrdered : Event.AllOrdered (here :: outer) added)
      (behind : added.foldl Event.blocks (here :: outer) = blocks :: outer)
      (counts : Counts blocks reader.top.braces) :
      Held (reader.flush (TokenStream.ofText .html source).tokens stop) := by
    have whole : (reader.flush (TokenStream.ofText .html source).tokens stop).events.toList =
        reader.events.toList ++ added := by
      rw [← events]
      exact events_flush stop
    constructor
    · rw [whole, blocksOf_append, ledger, behind, flush_top, flush_outer]
      exact .cons counts others
    · rw [whole]
      exact Event.allOrdered_append.mpr ⟨ordered, by rw [← blocksOf, ledger]; exact isOrdered⟩
  unfold plainEvents at held
  by_cases filled : reader.pending < stop
  · simp only [if_pos filled] at held
    refine held _ _ rfl ⟨fun _ => ?_, trivial⟩ rfl ?_
    · rcases harmless with none | ⟨strays, none⟩
      · exact .inl (endsAtBrace_plainNode code split single none)
      · exact .inr ⟨isDirective_plainNode code split strays, none⟩
    · rcases harmless with none | ⟨strays, none⟩
      · rw [counted, Node.blocksBehind, braces_plainNode code split, Token.bracesOf_append,
          Token.bracesOf_eq_nil none]
        exact counts.behind _ _
      · exact Counts.of_none
          (Node.blocksBehind_of_not_directive (isDirective_plainNode code split strays) none) _
  · simp only [if_neg filled] at held
    rw [Array.extract_empty_of_stop_le_start (Nat.le_of_not_lt filled)] at split
    obtain ⟨-, rfl⟩ := List.append_eq_nil_iff.mp split.symm
    exact held _ _ rfl trivial rfl (counted ▸ counts)

end Flush

structure Braced (source : Text) (reader : Reader) : Prop extends Held reader where
  harmless : ∀ here outer, blocksOf reader.events.toList = here :: outer →
    Harmless here ((TokenStream.ofText .html source).tokens.extract reader.pending
      reader.pos).toList

section Stride

variable {source : Text} {reader next : Reader} {token : Token} {frames : List FrameKind}

theorem Braced.of_settled (held : Held next) (none : next.pending = next.pos) :
    Braced source next where
  toHeld := held
  harmless := fun _ _ _ => by
    rw [none, Array.extract_empty_of_stop_le_start (Nat.le_refl _)]
    exact .inl fun _ member => absurd member List.not_mem_nil

theorem Braced.resumes (held : Held reader) (last : Nat) :
    Braced source (reader.resumeAfter last) :=
  .of_settled ⟨held.frames, held.ordered⟩ rfl

theorem Braced.pends (braced : Braced source reader) (order : reader.pending ≤ reader.pos)
    (here : (TokenStream.ofText .html source).tokens[reader.pos]? = some token)
    (noBrace : token.kind.isBrace = false) (held : Held next)
    (blocks : blocksOf next.events.toList = blocksOf reader.events.toList)
    (pending : next.pending = reader.pending) (pos : next.pos = reader.pos + 1) :
    Braced source next where
  toHeld := held
  harmless := fun head outer ledger => by
    rw [pending, pos, Tokens.extract_succ order here]
    rw [blocks] at ledger
    rcases braced.harmless head outer ledger with none | ⟨strays, none⟩
    · refine .inl fun other member => ?_
      rcases List.mem_append.mp member with early | isLast
      · exact none other early
      · rw [List.mem_singleton.mp isLast]
        exact noBrace
    · exact .inr ⟨strays.append _, none⟩

theorem Braced.flush (braced : Braced source reader) (sound : Sound
    (TokenStream.ofText .html source).tokens reader frames) {stop : Nat}
    (early : stop ≤ reader.pos) :
    Held (reader.flush (TokenStream.ofText .html source).tokens stop) := by
  obtain ⟨here, outer, ledger, counts, others⟩ := braced.toHeld.cases
  have code : ∀ token ∈ ((TokenStream.ofText .html source).tokens.extract reader.pending
      stop).toList, token.kind.isMarkup = false :=
    Tokens.Untagged.code fun index behind before => sound.untagged index behind
      (Nat.lt_of_lt_of_le before early)
  have harmless : Harmless here ((TokenStream.ofText .html source).tokens.extract reader.pending
      stop).toList := by
    have all := braced.harmless here outer ledger
    rcases Nat.le_total reader.pending stop with order | beyond
    · rw [← Tokens.extract_append order early] at all
      exact all.front
    · rw [Array.extract_empty_of_stop_le_start beyond]
      exact .inl fun _ member => absurd member List.not_mem_nil
  exact Held.flush code (List.append_nil _).symm (Nat.zero_le 1) harmless ledger counts rfl others
    braced.ordered

theorem Braced.settles (braced : Braced source reader) (sound : Sound
    (TokenStream.ofText .html source).tokens reader frames)
    (here : (TokenStream.ofText .html source).tokens[reader.pos]? = some token)
    (code : token.kind.isMarkup = false) (change : Frame → Frame)
    (counted : (change reader.top).braces =
      (Token.bracesOf [token]).foldl TokenKind.counted reader.top.braces) :
    Braced source ((reader.updateTop change).skip.flush (TokenStream.ofText .html source).tokens
      (reader.pos + 1)) := by
  obtain ⟨head, outer, ledger, counts, others⟩ := braced.toHeld.cases
  have passed : ((reader.updateTop change).skip.flush (TokenStream.ofText .html source).tokens
      (reader.pos + 1)).pos = reader.pos + 1 := flush_pos _
  have untagged : (TokenStream.ofText .html source).tokens.Untagged
      (reader.updateTop change).skip.pending (reader.pos + 1) := by
    intro index behind before
    rcases Nat.lt_succ_iff_lt_or_eq.mp before with early | rfl
    · exact sound.untagged index behind early
    · exact untagged_here here code _ (Nat.le_refl _) (Nat.lt_succ_self _)
  apply Braced.of_settled _ ((flush_pending _).trans passed.symm)
  exact Held.flush untagged.code (Tokens.extract_succ sound.pending_le here) (Nat.le_refl 1)
    (braced.harmless head outer ledger) ledger counts counted others braced.ordered

theorem Braced.astray (braced : Braced source reader) (order : reader.pending ≤ reader.pos)
    (here : (TokenStream.ofText .html source).tokens[reader.pos]? = some token)
    (isOne : token.kind = .kwUse) (level : reader.atFileLevel = true)
    (start : reader.atStatementStart (TokenStream.ofText .html source).tokens reader.pos = true)
    {last : Nat} (onward : reader.pos + 1 ≤ last) : Braced source (reader.skipTo last) where
  frames := braced.frames
  ordered := braced.ordered
  harmless := fun head outer ledger => by
    refine .inr ⟨?_, braced.none_of_level level ledger⟩
    change Strays ((TokenStream.ofText .html source).tokens.extract reader.pending last).toList
    rw [← Tokens.extract_append (Nat.le_succ_of_le order) onward, Tokens.extract_succ order here]
    refine Strays.append ⟨token, ?_, isOne, ?_⟩ _
    · have solid : Tokens.isSignificant token = true := by
        rw [Tokens.isSignificant, isOne]
        rfl
      have blank := blank_of_atStatementStart start order here solid
      rw [List.find?_append, List.find?_eq_none.mpr, Option.none_or, List.find?_singleton,
        if_pos solid]
      intro other member
      obtain ⟨offset, inside, rfl⟩ :=
        Array.mem_extract_iff_getElem.mp (Array.mem_toList_iff.mp member)
      rw [blank (reader.pending + offset) (Nat.le_add_right _ _) (by omega) _
        (Array.getElem?_eq_getElem _)]
      exact Bool.false_ne_true
    · have member : token ∈ scan .html source :=
        List.mem_toArray.mp (Array.mem_of_getElem? here)
      rw [Scan.ofWord_of_mem member (by rw [isOne]; rfl), isOne]

theorem Braced.stride (braced : Braced source reader) (sound : Sound
    (TokenStream.ofText .html source).tokens reader frames)
    (here : (TokenStream.ofText .html source).tokens[reader.pos]? = some token)
    (stride : Stride (TokenStream.ofText .html source).tokens reader token next) :
    Braced source next := by
  have flushed {first : Nat} (early : first ≤ reader.pos) := braced.flush sound early
  cases stride with
  | leaf header isOne noImports =>
      exact .resumes ((flushed header.first_le).report_leaf header.fixed _ _) _
  | imports header isOne =>
      exact .resumes (((flushed header.first_le).report_leaf header.fixed _ _).report_silent
        (.inr ⟨_, rfl⟩)) _
  | enter header opens brace =>
      exact .resumes ((flushed header.first_le).report_enter _ _ _ _ _) _
  | scope level header isOne =>
      refine .resumes (Held.report_enter ?_ _ _ _ _ _) _
      unfold endOpenScope
      split
      · exact (flushed (Nat.le_refl _)).closeFrame _ _
      · exact flushed (Nat.le_refl _)
  | leave isOne closes => exact .resumes ((flushed (Nat.le_refl _)).closeFrame _ _) _
  | astray isOne level start search =>
      exact braced.astray sound.pending_le here isOne level start (Tokens.firstFrom_some search).1
  | arrow begins =>
      obtain ⟨found, same, isOne⟩ := Tokens.kindAt_eq_some.mp (kind_of_arrowStop? begins)
      rw [here] at same
      cases same
      exact braced.pends sound.pending_le here (by rw [isOne]; rfl)
        (braced.toHeld.of_same rfl rfl rfl) rfl rfl rfl
  | yields isOne own =>
      refine braced.pends sound.pending_le here (by rw [isOne]; rfl)
        ((braced.toHeld.report_silent (.inl rfl)).of_same rfl rfl rfl) ?_ rfl rfl
      change blocksOf (reader.report .yields).events.toList = _
      rw [events_report, blocksOf_append, List.foldl_cons, Event.blocks_yields]
      rfl
  | opening isOne =>
      exact braced.settles sound here (by rw [isOne]; rfl) _
        (by simp [Token.bracesOf, isOne]; rfl)
  | closing isOne stays =>
      exact braced.settles sound here (by rw [isOne]; rfl) _
        (by simp [Token.bracesOf, isOne]; rfl)
  | openingParen isOne =>
      exact braced.pends sound.pending_le here (by rw [isOne]; rfl)
        (braced.toHeld.of_same rfl rfl rfl) rfl rfl rfl
  | closingParen isOne =>
      exact braced.pends sound.pending_le here (by rw [isOne]; rfl)
        (braced.toHeld.of_same rfl rfl rfl) rfl rfl rfl
  | ending isOne outside =>
      exact braced.settles sound here (by rw [isOne]; rfl) id
        (by simp [Token.bracesOf, isOne]; rfl)
  | idle idle =>
      refine braced.pends sound.pending_le here ?_ (braced.toHeld.of_same rfl rfl rfl) rfl rfl rfl
      simp [TokenKind.isBrace, idle.noBrace.1, idle.noBrace.2]

end Stride

theorem Reached.braced {source : Text} {reader : Reader}
    (reached : Reached (TokenStream.ofText .html source).tokens reader) :
    Braced source reader := by
  induction reached with
  | refl =>
      refine .of_settled ⟨.cons (Counts.of_none List.not_mem_nil _) .nil, trivial⟩ rfl
  | tail reached moves ih =>
      obtain ⟨frames, sound⟩ := Reached.sound (Scan.spelled_scan .html source)
        (Scan.tagged_scan .html source) reached
      obtain ⟨token, here, done⟩ := moves
      exact ih.stride sound here (stride_of_step sound.pending_le here done)

theorem allOrdered_of_eventsOf {source : Text} {events : List Event}
    (read : eventsOf (TokenStream.ofText .html source).tokens = .ok events) :
    Event.AllOrdered [[]] events := by
  have spelled := Scan.spelled_scan .html source
  have tagged := Scan.tagged_scan .html source
  obtain ⟨last, ends⟩ := ends_of_eventsOf spelled tagged read
  obtain ⟨frames, sound⟩ := ends.reached.sound spelled tagged
  obtain ⟨closed, rfl, leaves⟩ := ends.events
  have held := ends.reached.braced.flush sound (Nat.le_of_eq ends.pos.symm)
  have ordered := held.ordered
  rw [events_flush] at ordered
  rw [← List.append_assoc]
  refine Event.allOrdered_append.mpr ⟨ordered, ?_⟩
  generalize List.foldl Event.blocks [[]] _ = ledger
  clear ordered held ends read
  induction closed generalizing ledger with
  | nil => trivial
  | cons event closed ih =>
      obtain ⟨isLeave, others⟩ := List.forall_mem_cons.mp leaves
      obtain ⟨stop, rfl⟩ := isLeave
      exact ⟨by unfold Event.Ordered; split <;> trivial, ih others _⟩

end Reader

end PhpWeave
