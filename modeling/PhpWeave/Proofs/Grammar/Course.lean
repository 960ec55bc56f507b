import PhpWeave.Proofs.Grammar.Enclosure
import PhpWeave.Proofs.Grammar.Nodes
import PhpWeave.Proofs.Grammar.Report
import PhpWeave.Proofs.Grammar.Run
import PhpWeave.Proofs.Grammar.Stride

set_option autoImplicit false

/-!
What becomes of the tokens that a read comes by. A pending token stays pending until a move settles
it, and until then no construct is opened or closed; so it comes into plain code under the nodes that
were open when the read stood at it. The other way round, the read has stood at every token of plain
code, but for those of an import statement that it gave up.
-/

namespace PhpWeave

theorem Nested.scopes {frames : List FrameKind} (nested : Nested frames)
    (first : ∀ frame, frames.head? = some frame → ∃ braced, frame = .scope braced) :
    ∀ frame ∈ frames, ∃ braced, frame = .scope braced := by
  induction frames with
  | nil => exact fun _ none => by cases none
  | cons head rest ih =>
      obtain ⟨braced, rfl⟩ := first head rfl
      obtain ⟨outer, below⟩ := nested
      intro frame member
      rcases List.mem_cons.mp member with rfl | later
      · exact ⟨braced, rfl⟩
      · refine ih below (fun frame isFirst => ?_) frame later
        rcases outer with rfl | same
        · cases isFirst
        · rw [same] at isFirst
          exact ⟨true, (Option.some.inj isFirst).symm⟩

theorem Outline.Mirrors.scope {tree : Tree} {entered : List OpenNode} {frames : List FrameKind}
    (mirrors : Mirrors tree entered frames)
    (scopes : ∀ frame ∈ frames, ∃ braced, frame = .scope braced) :
    ∀ entry ∈ entered, (tree.node entry.id).kind = .scope := by
  induction entered generalizing frames with
  | nil => exact fun _ none => by cases none
  | cons head rest ih =>
      cases frames with
      | nil => exact mirrors.elim
      | cons frame frames =>
          obtain ⟨opens, later⟩ := mirrors
          obtain ⟨⟨braced, rfl⟩, others⟩ := List.forall_mem_cons.mp scopes
          intro entry member
          rcases List.mem_cons.mp member with rfl | among
          · exact opens.1
          · exact ih later others entry among

namespace Reader

variable {tokens : Tokens} {reader next : Reader} {token : Token}

def plainNode (tokens : Tokens) (reader : Reader) (stop : Nat) : Node :=
  { Node.code (tokens.textBetween reader.pending stop) with
    flags := { Flags.editableCode with
      coverable := isCoverable tokens reader reader.pending stop } }

/-- The report of the pending tokens before a position; there may be none. -/
def plainEvents (tokens : Tokens) (reader : Reader) (stop : Nat) : List Event :=
  if reader.pending < stop then
    [.leaf (plainNode tokens reader stop) reader.pending (stop - 1)]
  else []

theorem events_flush (stop : Nat) : (reader.flush tokens stop).events.toList =
    reader.events.toList ++ plainEvents tokens reader stop := by
  unfold flush plainEvents
  simp only
  split
  · exact Array.toList_push
  · exact (List.append_nil _).symm

theorem flush_arrows (stop : Nat) : (reader.flush tokens stop).arrows = reader.arrows := by
  unfold flush
  simp only
  split <;> rfl

theorem events_report (event : Event) :
    (reader.report event).events.toList = reader.events.toList ++ [event] := Array.toList_push

theorem events_closeFrame (reader : Reader) (close : Text) (last : Nat) :
    (reader.closeFrame close last).events.toList = reader.events.toList ∨
      (reader.closeFrame close last).events.toList =
        reader.events.toList ++ [.leave close last] := by
  unfold closeFrame
  split
  · exact .inl rfl
  · exact .inr Array.toList_push

theorem events_endOpenScope (reader : Reader) (index : Nat) :
    ∃ closed : List Event, (reader.endOpenScope index).events.toList =
      reader.events.toList ++ closed ∧ ∀ event ∈ closed, ∃ last, event = .leave [] last := by
  unfold endOpenScope
  split
  · rcases events_closeFrame reader [] (index - 1) with same | same
    · exact ⟨[], by rw [same, List.append_nil], fun _ none => by cases none⟩
    · exact ⟨_, same, fun event member => ⟨index - 1, List.mem_singleton.mp member⟩⟩
  · exact ⟨[], (List.append_nil _).symm, fun _ none => by cases none⟩

inductive Trails (tokens : Tokens) (node : Node) (first last : Nat) : Event → List Event → Prop where
  | nothing {report : Event} (other : node.kind ≠ .imports) :
      Trails tokens node first last report []
  | imports {entries : List (Text × Text)} (isOne : node.kind = .imports)
      (ends : tokens.isAt last .semicolon = true)
      (read : Import.read? (tokens.clauses first last) = some entries) :
      Trails tokens node first last (.leaf node first last) [.imports entries]

theorem Trails.imports_of_mem {node : Node} {first last : Nat} {report event : Event}
    {after : List Event} (trails : Trails tokens node first last report after)
    (member : event ∈ after) : ∃ entries, event = .imports entries := by
  cases trails with
  | nothing => cases member
  | imports => exact ⟨_, List.mem_singleton.mp member⟩

/-- One move, told by what it does to the pending tokens. -/
inductive Course (tokens : Tokens) (reader : Reader) (token : Token) (next : Reader) : Prop where
  /-- The tokens stay pending, with the one that is read. -/
  | stays (noBrace : token.kind ≠ .openBrace ∧ token.kind ≠ .closeBrace)
      (pos : next.pos = reader.pos + 1) (pending : next.pending = reader.pending)
      (events : next.events.toList = reader.events.toList ∨
        next.events.toList = reader.events.toList ++ [.yields] ∧ token.kind = .kwYield ∧
          reader.inArrowBody reader.pos = false)
  /-- The tokens stay pending, with those of an import statement that is given up. -/
  | astray (isOne : token.kind = .kwUse) (level : reader.atFileLevel = true)
      (onward : reader.pos < next.pos) (pending : next.pending = reader.pending)
      (events : next.events.toList = reader.events.toList)
  /-- The pending tokens are settled, with the one that is read. -/
  | settles (isOne : token.kind = .openBrace ∨ token.kind = .closeBrace ∨ token.kind = .semicolon)
      (pos : next.pos = reader.pos + 1) (pending : next.pending = reader.pos + 1)
      (events : next.events.toList =
        reader.events.toList ++ plainEvents tokens reader (reader.pos + 1))
  /-- The pending tokens in front of a construct are settled, and the construct is reported. -/
  | declares {node : Node} {first last : Nat} {report : Event} {closed after : List Event}
      (header : Header tokens reader token node first last)
      (reports : report = .leaf node first last ∨ report = .enter node first last)
      (closes : ∀ event ∈ closed, ∃ last, event = .leave [] last)
      (imports : Trails tokens node first last report after)
      (pos : next.pos = last + 1) (pending : next.pending = last + 1)
      (events : next.events.toList =
        reader.events.toList ++ (plainEvents tokens reader first ++ (closed ++ report :: after)))
  /-- The pending tokens are settled, and the construct around them ends. -/
  | leaves (isOne : token.kind = .closeBrace) (pos : next.pos = reader.pos + 1)
      (pending : next.pending = reader.pos + 1) (events : next.events.toList = reader.events.toList ++
        (plainEvents tokens reader reader.pos ++ [.leave ['\x7d'] reader.pos]))

theorem Sound.outer_of_closes {frames : List FrameKind} (sound : Sound tokens reader frames)
    (closes : closesFrame reader.top = true) : ∃ next outer, reader.outer = next :: outer := by
  cases frames with
  | nil =>
      rw [closesFrame, sound.top_of_nil, Bool.and_false] at closes
      cases closes
  | cons frame frames =>
      obtain ⟨next, outer, around, -⟩ := sound.outer_of_cons
      exact ⟨next, outer, around⟩

private theorem closes_nil : ∀ event ∈ ([] : List Event), ∃ last, event = .leave [] last :=
  fun _ none => by cases none

def Splits (property : List Event → Event → Prop) (events : List Event) : Prop :=
  ∀ before event after, events = before ++ event :: after → property before event

section Splits

variable {property : List Event → Event → Prop}

theorem Splits.nil : Splits property [] := by
  intro before event after split
  simp at split

theorem Splits.append {front one rest : List Event} (splits : Splits property front)
    (short : one.length ≤ 1) (here : ∀ event ∈ one, property front event)
    (others : ∀ event ∈ rest, ∀ before, property before event) :
    Splits property (front ++ (one ++ rest)) := by
  intro before event after split
  rcases List.append_eq_append_iff.mp split with ⟨middle, rfl, same⟩ | ⟨middle, rfl, same⟩
  · rcases List.append_eq_append_iff.mp same with ⟨more, rfl, behind⟩ | ⟨more, rfl, behind⟩
    · exact others event (behind ▸ List.mem_append_right _ List.mem_cons_self) _
    · cases more with
      | nil =>
          have first : event :: after = rest := behind
          exact others event (first ▸ List.mem_cons_self) _
      | cons head more =>
          obtain ⟨rfl, -⟩ := List.cons.inj behind
          -- The event is the only one that must be told, so nothing is between.
          obtain rfl : middle = [] := by
            rw [List.length_append, List.length_cons] at short
            exact List.eq_nil_of_length_eq_zero (by omega)
          rw [List.append_nil]
          exact here _ List.mem_cons_self
  · cases middle with
    | nil =>
        rw [List.append_nil] at splits here
        cases one with
        | nil =>
            have first : event :: after = rest := same
            exact others event (first ▸ List.mem_cons_self) _
        | cons head rest =>
            obtain ⟨rfl, -⟩ := List.cons.inj same
            exact here _ List.mem_cons_self
    | cons head middle =>
        obtain ⟨rfl, -⟩ := List.cons.inj same
        exact splits before event middle rfl

end Splits

theorem kind_of_arrowStop? {index stop : Nat} (begins : tokens.arrowStop? index = some stop) :
    tokens.kindAt index = some .identifier := by
  unfold Tokens.arrowStop? at begins
  obtain ⟨token, here, isArrow⟩ := Option.bind_eq_some_iff.mp begins
  split at isArrow
  · next all => exact Tokens.kindAt_eq_some.mpr ⟨token, here, all.1⟩
  · cases isArrow

theorem Stride.course {frames : List FrameKind} (stride : Stride tokens reader token next)
    (here : tokens[reader.pos]? = some token) (sound : Sound tokens reader frames) :
    Course tokens reader token next := by
  have apart {kind : TokenKind} (isOne : token.kind = kind)
      (other : kind ≠ .openBrace ∧ kind ≠ .closeBrace) :
      token.kind ≠ .openBrace ∧ token.kind ≠ .closeBrace := isOne ▸ other
  cases stride with
  | @leaf node first last header isOne noImports =>
      refine .declares header (.inl rfl) closes_nil (.nothing noImports) rfl rfl ?_
      change ((reader.flush tokens first).report _).events.toList = _
      rw [events_report, events_flush, List.append_assoc]
      rfl
  | @imports node last entries header isOne ends read =>
      refine .declares header (.inl rfl) closes_nil (.imports isOne ends read) rfl rfl ?_
      change (((reader.flush tokens reader.pos).report _).report _).events.toList = _
      rw [events_report, events_report, events_flush, List.append_assoc, List.append_assoc]
      rfl
  | @enter node first last frame header opens brace =>
      have noImports : node.kind ≠ .imports := by
        rintro isImports
        rcases opens with ⟨-, isClass⟩ | ⟨-, isFunction, -⟩
        · rw [isImports] at isClass
          cases isClass
        · rw [isImports] at isFunction
          cases isFunction
      refine .declares header (.inr rfl) closes_nil (.nothing noImports) rfl rfl ?_
      change ((reader.flush tokens first).report _).events.toList = _
      rw [events_report, events_flush, List.append_assoc]
      rfl
  | @scope node last level header isOne =>
      obtain ⟨closed, events, closes⟩ :=
        events_endOpenScope (reader.flush tokens reader.pos) reader.pos
      refine .declares header (.inr rfl) closes
        (.nothing (by rw [isOne]; exact NodeKind.noConfusion)) rfl rfl ?_
      change (((reader.flush tokens reader.pos).endOpenScope reader.pos).report _).events.toList = _
      rw [events_report, events, events_flush, List.append_assoc, List.append_assoc]
  | leave isOne closes =>
      obtain ⟨outer, rest, around⟩ := sound.outer_of_closes closes
      refine .leaves isOne rfl rfl ?_
      change ((reader.flush tokens reader.pos).closeFrame _ _).events.toList = _
      rw [closeFrame, flush_outer, around]
      change ((reader.flush tokens reader.pos).events.push _).toList = _
      rw [Array.toList_push, events_flush, List.append_assoc]
  | astray isOne level start search =>
      exact .astray isOne level (Tokens.firstFrom_some search).1 rfl rfl
  | arrow begins =>
      obtain ⟨found, same, isOne⟩ := Tokens.kindAt_eq_some.mp (kind_of_arrowStop? begins)
      rw [here] at same
      cases same
      exact .stays (apart isOne (by decide)) rfl rfl (.inl rfl)
  | yields isOne own =>
      exact .stays (apart isOne (by decide)) rfl rfl (.inr ⟨Array.toList_push, isOne, own⟩)
  | opening isOne => exact .settles (.inl isOne) (flush_pos _) (flush_pending _) (events_flush _)
  | closing isOne stays =>
      exact .settles (.inr (.inl isOne)) (flush_pos _) (flush_pending _) (events_flush _)
  | openingParen isOne => exact .stays (apart isOne (by decide)) rfl rfl (.inl rfl)
  | closingParen isOne => exact .stays (apart isOne (by decide)) rfl rfl (.inl rfl)
  | ending isOne outside =>
      exact .settles (.inr (.inr isOne)) (flush_pos _) (flush_pending _) (events_flush _)
  | idle idle => exact .stays idle.noBrace rfl rfl (.inl rfl)

theorem Course.onward {next : Reader} (course : Course tokens reader token next) :
    reader.events.toList <+: next.events.toList := by
  cases course with
  | stays noBrace pos pending events =>
      rcases events with same | ⟨same, -⟩
      · exact ⟨[], (List.append_nil _).trans same.symm⟩
      · rw [same]
        exact List.prefix_append _ _
  | astray isOne level onward pending events =>
      exact ⟨[], (List.append_nil _).trans events.symm⟩
  | settles isOne pos pending events =>
      rw [events]
      exact List.prefix_append _ _
  | declares header reports closes imports pos pending events =>
      rw [events]
      exact List.prefix_append _ _
  | leaves isOne pos pending events =>
      rw [events]
      exact List.prefix_append _ _

/-- A move with what it does. -/
structure Goes (tokens : Tokens) (reader : Reader) (token : Token) (next : Reader) : Prop where
  here : tokens[reader.pos]? = some token
  stride : Stride tokens reader token next
  course : Course tokens reader token next
  onward : reader.pos < next.pos
  pending_le : reader.pending ≤ reader.pos

theorem closeAll_leaves {top : Frame} {outer : List Frame} {last : List Event}
    (done : closeAll tokens top outer = .ok last) :
    ∀ event ∈ last, ∃ stop, event = .leave [] stop := by
  induction outer generalizing top last with
  | nil =>
      cases done
      exact closes_nil
  | cons next outer ih =>
      rw [closeAll] at done
      split at done
      · split at done
        · cases done
        · next rest closed =>
            cases done
            intro event member
            rcases List.mem_cons.mp member with rfl | later
            · exact ⟨_, rfl⟩
            · exact ih closed event later
      · cases done

section Whole

variable (spelled : Spelled tokens) (tagged : Tagged tokens)
include spelled tagged

theorem Moves.goes (moves : Moves tokens reader next) (reached : Reached tokens reader) :
    ∃ token, Goes tokens reader token next := by
  obtain ⟨frames, sound⟩ := reached.sound spelled tagged
  have onward := (moves.advances spelled tagged reached).1
  obtain ⟨token, here, done⟩ := moves
  have stride := stride_of_step sound.pending_le here done
  exact ⟨token, here, stride, stride.course here sound, onward, sound.pending_le⟩

/-- Where the read of a file ends, and what is reported there. -/
structure Ends (tokens : Tokens) (events : List Event) (last : Reader) : Prop where
  reached : Reached tokens last
  pos : last.pos = tokens.size
  pending_le : last.pending ≤ tokens.size
  events : ∃ closed, events =
    last.events.toList ++ (plainEvents tokens last tokens.size ++ closed) ∧
      ∀ event ∈ closed, ∃ stop, event = .leave [] stop

theorem ends_of_eventsOf {events : List Event} (done : eventsOf tokens = .ok events) :
    ∃ last, Ends tokens events last := by
  unfold eventsOf at done
  split at done
  · cases done
  · next last run =>
      obtain ⟨pos, reached, frames, sound⟩ := runWithin_sound spelled tagged .refl
        (Sound.start tokens) (by exact Nat.le_add_left _ _) run
      simp only at done
      split at done
      · cases done
      · next closed closing =>
          cases done
          refine ⟨last, reached, pos, pos ▸ sound.pending_le, closed, ?_, closeAll_leaves closing⟩
          rw [events_flush, List.append_assoc]

omit spelled tagged in
/-- The read goes from every state that it comes to on to its end. -/
theorem Ends.later {events : List Event} {last : Reader} (ends : Ends tokens events last)
    (reached : Reached tokens reader) : Relation.ReflTransGen (Moves tokens) reader last := by
  rcases Relation.ReflTransGen.total_of_right_unique moves_unique reached ends.reached with
    later | earlier
  · exact later
  · rcases Relation.ReflTransGen.cases_head earlier with rfl | ⟨next, ⟨token, here, -⟩, -⟩
    · exact .refl
    · have inside := lt_size here
      rw [ends.pos] at inside
      exact absurd inside (Nat.lt_irrefl _)

theorem Ends.onward {events : List Event} {last : Reader} (ends : Ends tokens events last)
    (reached : Reached tokens reader) : reader.events.toList <+: events := by
  have toEnd : last.events.toList <+: events := by
    obtain ⟨closed, split, -⟩ := ends.events
    rw [split]
    exact List.prefix_append _ _
  have later := ends.later reached
  induction later using Relation.ReflTransGen.head_induction_on with
  | refl => exact toEnd
  | head moves rest ih =>
      obtain ⟨token, goes⟩ := moves.goes spelled tagged reached
      exact goes.course.onward.trans (ih (reached.tail moves))

theorem Ends.around {events : List Event} {last : Reader} (ends : Ends tokens events last)
    {index : Nat} (inside : index < tokens.size) :
    ∃ reader token next, Reached tokens reader ∧ Moves tokens reader next ∧
      Goes tokens reader token next ∧ reader.pos ≤ index ∧ index < next.pos := by
  have go {reader : Reader} (reached : Reached tokens reader)
      (later : Relation.ReflTransGen (Moves tokens) reader last) (behind : reader.pos ≤ index) :
      ∃ reader token next, Reached tokens reader ∧ Moves tokens reader next ∧
        Goes tokens reader token next ∧ reader.pos ≤ index ∧ index < next.pos := by
    induction later using Relation.ReflTransGen.head_induction_on with
    | refl =>
        rw [ends.pos] at behind
        exact absurd inside (Nat.not_lt_of_le behind)
    | @head reader next moves rest ih =>
        obtain ⟨token, goes⟩ := moves.goes spelled tagged reached
        rcases Nat.lt_or_ge index next.pos with here | further
        · exact ⟨reader, token, next, reached, moves, goes, behind, here⟩
        · exact ih (reached.tail moves) further
  exact go .refl (ends.later .refl) (Nat.zero_le _)

omit spelled tagged in
theorem plainEvents_short (stop : Nat) : (plainEvents tokens reader stop).length ≤ 1 := by
  unfold plainEvents
  split
  · exact Nat.le_refl _
  · exact Nat.zero_le _

/-- What is true of the pending tokens, of the constructs and of the words `yield` that a read
reports, each told with the reports in front of it, is true of all its reports. -/
theorem forall_reports {events : List Event} (done : eventsOf tokens = .ok events)
    {property : List Event → Event → Prop}
    (plain : ∀ reader stop, Reached tokens reader →
      ∀ event ∈ plainEvents tokens reader stop, property reader.events.toList event)
    (construct : ∀ before reader token node first last, Reached tokens reader →
      Header tokens reader token node first last → tokens[reader.pos]? = some token →
        property before (.leaf node first last) ∧ property before (.enter node first last))
    (leave : ∀ before close last, property before (.leave close last))
    (yields : ∀ reader, Reached tokens reader → tokens.kindAt reader.pos = some .kwYield →
      reader.inArrowBody reader.pos = false → property reader.events.toList .yields)
    (imports : ∀ before entries, property before (.imports entries)) :
    Splits property events := by
  have all {reader : Reader} (reached : Reached tokens reader) :
      Splits property reader.events.toList := by
    induction reached with
    | refl => exact .nil
    | @tail reader next reached moves ih =>
        obtain ⟨token, goes⟩ := moves.goes spelled tagged reached
        cases goes.course with
        | stays noBrace pos pending events =>
            rcases events with same | ⟨same, isYield, own⟩
            · rw [same]
              exact ih
            · rw [same, ← List.append_nil [_]]
              refine ih.append (Nat.le_refl _) (fun event member => ?_) fun _ none => by cases none
              rw [List.mem_singleton.mp member]
              exact yields reader reached (Tokens.kindAt_eq_some.mpr ⟨token, goes.here, isYield⟩) own
        | astray isOne level onward pending events =>
            rw [events]
            exact ih
        | settles isOne pos pending events =>
            rw [events, ← List.append_nil (plainEvents _ _ _)]
            exact ih.append (plainEvents_short _) (plain reader _ reached) fun _ none => by cases none
        | @declares node first last report closed after header reports closes imported pos pending
            events =>
            rw [events]
            refine ih.append (plainEvents_short _) (plain reader _ reached) ?_
            intro event member before
            rw [List.mem_append, List.mem_cons] at member
            rcases member with close | rfl | behind
            · obtain ⟨last, rfl⟩ := closes event close
              exact leave _ _ _
            · obtain ⟨leaf, enter⟩ :=
                construct before reader token node first last reached header goes.here
              rcases reports with rfl | rfl
              · exact leaf
              · exact enter
            · obtain ⟨entries, rfl⟩ := imported.imports_of_mem behind
              exact imports _ _
        | leaves isOne pos pending events =>
            rw [events]
            refine ih.append (plainEvents_short _) (plain reader _ reached) fun event member _ => ?_
            rw [List.mem_singleton.mp member]
            exact leave _ _ _
  obtain ⟨last, ends⟩ := ends_of_eventsOf spelled tagged done
  obtain ⟨closed, rfl, closes⟩ := ends.events
  refine (all ends.reached).append (plainEvents_short _) (plain last _ ends.reached) ?_
  intro event member before
  obtain ⟨stop, rfl⟩ := closes event member
  exact leave _ _ _

/-- What is true of the pending tokens and of the constructs that a read reports is true of all its
reports. -/
theorem forall_events {events : List Event} (done : eventsOf tokens = .ok events)
    {property : Event → Prop}
    (plain : ∀ reader stop, Reached tokens reader →
      ∀ event ∈ plainEvents tokens reader stop, property event)
    (construct : ∀ reader token node first last, Reached tokens reader →
      Header tokens reader token node first last → tokens[reader.pos]? = some token →
        property (.leaf node first last) ∧ property (.enter node first last))
    (leave : ∀ close last, property (.leave close last)) (yields : property .yields)
    (imports : ∀ entries, property (.imports entries)) : ∀ event ∈ events, property event := by
  intro event member
  obtain ⟨before, after, split⟩ := List.append_of_mem member
  exact forall_reports spelled tagged done plain (fun _ => construct) (fun _ => leave)
    (fun _ _ _ _ => yields) (fun _ => imports) before event after split

/-- A construct among the reports of a read was reported where the read stood at its word. -/
theorem header_of_eventsOf {events : List Event} (done : eventsOf tokens = .ok events) :
    ∀ event ∈ events, ∀ node first last,
      (event = .leaf node first last ∨ event = .enter node first last) → node.kind ≠ .code →
      ∃ reader token, Reached tokens reader ∧ tokens[reader.pos]? = some token ∧
        Header tokens reader token node first last := by
  refine forall_events spelled tagged done ?_ ?_ ?_ ?_ ?_
  · intro reader stop _ event member node first last reports noCode
    unfold plainEvents at member
    split at member
    · cases List.mem_singleton.mp member
      rcases reports with same | same
      · cases same
        exact absurd rfl noCode
      · cases same
    · cases member
  · intro reader token node first last reached header here
    constructor
    · intro other from_ upto reports _
      rcases reports with same | same <;> cases same
      exact ⟨reader, token, reached, here, header⟩
    · intro other from_ upto reports _
      rcases reports with same | same <;> cases same
      exact ⟨reader, token, reached, here, header⟩
  · exact fun close last node first upto reports => by rcases reports with same | same <;> cases same
  · exact fun node first last reports => by rcases reports with same | same <;> cases same
  · exact fun entries node first last reports => by rcases reports with same | same <;> cases same

theorem Reached.depth_eq (reached : Reached tokens reader) :
    (Outline.ofEvents reader.events.toList).opened.length = reader.depth := by
  obtain ⟨frames, sound⟩ := reached.sound spelled tagged
  have length := (Outline.laid_of_derives sound.derives).2
  have stack := congrArg List.length sound.stack
  simp only [List.length_cons, List.length_map, List.length_append, List.length_nil] at stack
  rw [Outline.opened, List.length_append, List.length_map, length, depth]
  simp only [List.length_cons, List.length_nil]
  omega

theorem Reached.no_function (reached : Reached tokens reader) (level : reader.atFileLevel = true) :
    (Outline.ofEvents reader.events.toList).innermost .function = none := by
  obtain ⟨frames, sound⟩ := reached.sound spelled tagged
  have mirrors := (Outline.built_of_derives sound.derives).mirrors
  have scopes : ∀ frame ∈ frames, ∃ braced, frame = .scope braced := by
    refine Nested.scopes sound.derives.nested fun frame first => ?_
    cases frames with
    | nil => cases first
    | cons head rest =>
        cases first
        unfold atFileLevel at level
        rw [sound.top_of_cons] at level
        have nested : Nested (frame :: rest) := sound.derives.nested
        cases frame with
        | file => exact nested.elim
        | scope braced => exact ⟨braced, rfl⟩
        | classLike | function => cases level
  rw [Outline.innermost, Option.map_eq_none_iff, List.find?_eq_none]
  intro entry member isFunction
  rw [mirrors.scope scopes entry member] at isFunction
  exact absurd isFunction (by decide)

end Whole

end Reader

/-! ### Plain code -/

namespace Outline

/-- An outline after the report that a function yields has the same nodes open. -/
theorem opened_yields (outline : Outline) : (outline.take .yields).opened = outline.opened ∧
    (outline.take .yields).innermost .function = outline.innermost .function := by
  rcases outline.take_yields with same | ⟨id, same⟩
  · rw [same]
    exact ⟨rfl, rfl⟩
  · rw [same]
    refine ⟨rfl, ?_⟩
    have silent (node : Node) : (yielding node).kind = node.kind := rfl
    have kept (other : Nat) :
        ((outline.tree.update id yielding).node other).kind = (outline.tree.node other).kind :=
      Tree.node_update_property Node.kind silent other
    simp only [innermost, kept]

end Outline

namespace Told

open Reader

variable {tokens : Tokens} {events : List Event} {tree : Tree} {stretches : List Stretch}
  {reader next last : Reader} {index : Nat}

section Whole

variable (told : Told tokens events tree stretches)
include told

theorem holds_of_plain {stop : Nat} {more : List Event}
    (split : events = reader.events.toList ++ (plainEvents tokens reader stop ++ more))
    (filled : reader.pending < stop) :
    ∃ id, ⟨.body id, reader.pending, stop⟩ ∈ stretches ∧ (tree.node id).isEditable = true ∧
      tree.ancestors id = (Outline.ofEvents reader.events.toList).opened ∧
      (tree.node id).function =
        (Outline.ofEvents reader.events.toList).innermost .function := by
  rw [plainEvents, if_pos filled] at split
  have housed := told.housed _ _ _ _ _ (.inl split)
  have range : stop - 1 + 1 = stop := by omega
  refine ⟨_, ?_, ?_, housed.ancestors, housed.function⟩
  · have among := housed.among
    rw [range] at among
    exact among
  · rw [housed.property Node.isEditable fun _ => rfl]
    rfl

theorem housed_of_report {before after : List Event} {report : Event} {node : Node}
    {first last : Nat} (reports : report = .leaf node first last ∨ report = .enter node first last)
    (split : events = before ++ report :: after) :
    ∃ id, Housed tree stretches before node first last id := by
  refine ⟨_, told.housed before node first last after ?_⟩
  rcases reports with rfl | rfl
  · exact .inl split
  · exact .inr split

variable (spelled : Spelled tokens) (tagged : Tagged tokens)
include spelled tagged

/-- The pending tokens up to one that may not begin a header come into the plain code of one
node. -/
theorem holds_of_pending (reached : Reached tokens reader) (behind : reader.pending ≤ index)
    (before : index < reader.pos) {kind : TokenKind} (here : tokens.kindAt index = some kind)
    (solid : kind.leads = false) :
    ∃ id, (∀ other, reader.pending ≤ other → other ≤ index → tree.HoldsCode stretches id other) ∧
      tree.ancestors id = (Outline.ofEvents reader.events.toList).opened ∧
      (tree.node id).function =
        (Outline.ofEvents reader.events.toList).innermost .function := by
  obtain ⟨last, ends⟩ := ends_of_eventsOf spelled tagged told.read
  have later := ends.later reached
  -- A stretch of plain code from the first pending token on that goes on behind the token.
  have settled {reader : Reader} {stop : Nat} {more : List Event} (behind : reader.pending ≤ index)
      (before : index < stop)
      (split : events = reader.events.toList ++ (plainEvents tokens reader stop ++ more)) :
      ∃ id, (∀ other, reader.pending ≤ other → other ≤ index →
          tree.HoldsCode stretches id other) ∧
        tree.ancestors id = (Outline.ofEvents reader.events.toList).opened ∧
        (tree.node id).function =
          (Outline.ofEvents reader.events.toList).innermost .function := by
    obtain ⟨id, among, editable, ancestors, function⟩ :=
      told.holds_of_plain split (Nat.lt_of_le_of_lt behind before)
    exact ⟨id, fun other since upto =>
      ⟨editable, _, _, among, since, Nat.lt_of_le_of_lt upto before⟩, ancestors, function⟩
  induction later using Relation.ReflTransGen.head_induction_on with
  | refl =>
      obtain ⟨closed, split, -⟩ := ends.events
      exact settled behind (Tokens.lt_size_of_kindAt here) split
  | @head reader next moves rest ih =>
      obtain ⟨token, goes⟩ := moves.goes spelled tagged reached
      have reachedNext := reached.tail moves
      obtain ⟨more, whole⟩ := ends.onward spelled tagged reachedNext
      have further := Nat.lt_trans before goes.onward
      have reported {stop : Nat} {news : List Event} (before : index < stop)
          (events : next.events.toList =
            reader.events.toList ++ (plainEvents tokens reader stop ++ news)) :=
        settled behind before (show _ = _ ++ (_ ++ (news ++ more)) by
          rw [← whole, events, List.append_assoc, List.append_assoc])
      cases goes.course with
      | stays noBrace pos pending events =>
          obtain ⟨id, holds, ancestors, function⟩ := ih reachedNext (pending ▸ behind) further
          rw [pending] at holds
          rcases events with same | ⟨same, -⟩
          · rw [same] at ancestors function
            exact ⟨id, holds, ancestors, function⟩
          · rw [same, Outline.ofEvents_snoc] at ancestors function
            obtain ⟨opened, innermost⟩ :=
              (Outline.ofEvents reader.events.toList).opened_yields
            exact ⟨id, holds, ancestors.trans opened, function.trans innermost⟩
      | astray isOne level onward pending events =>
          have found := ih reachedNext (pending ▸ behind) further
          rw [events, pending] at found
          exact found
      | settles isOne pos pending events =>
          rw [← List.append_nil (plainEvents _ _ _)] at events
          exact reported (Nat.lt_succ_of_lt before) events
      | @declares node first last report closed after header reports closes imports pos pending
          events =>
          refine reported ?_ events
          by_contra beyond
          obtain ⟨other, found, leads⟩ := header.leads index (Nat.le_of_not_lt beyond) before
          rw [here] at found
          cases found
          rw [leads] at solid
          cases solid
      | leaves isOne pos pending events => exact reported before events

/-- The move that passes a token of plain code stands at the token, or gives an import statement
up. -/
theorem passed_of_holds {id : Nat} (holds : tree.HoldsCode stretches id index) :
    ∃ reader token next, Reached tokens reader ∧ Moves tokens reader next ∧
      Goes tokens reader token next ∧
      (reader.pos = index ∧ next.pos = index + 1 ∧ token.kind ≠ .openBrace ∧
          token.kind ≠ .closeBrace ∧ next.pending = reader.pending ∨
        reader.pos = index ∧ next.pos = index + 1 ∧ (token.kind = .openBrace ∨
          token.kind = .closeBrace ∨ token.kind = .semicolon) ∧ next.events.toList =
            reader.events.toList ++ plainEvents tokens reader (reader.pos + 1) ∨
        token.kind = .kwUse ∧ reader.atFileLevel = true ∧ reader.pos ≤ index ∧
          index < next.pos ∧ next.pending = reader.pending ∧
          next.events.toList = reader.events.toList) := by
  obtain ⟨editable, first, stop, among, behind, before⟩ := holds
  have inside : index < tokens.size :=
    Nat.lt_of_lt_of_le before (told.ranges.consecutive.stop_le _ among)
  obtain ⟨last, ends⟩ := ends_of_eventsOf spelled tagged told.read
  obtain ⟨reader, token, next, reached, moves, goes, since, until_⟩ :=
    ends.around spelled tagged inside
  refine ⟨reader, token, next, reached, moves, goes, ?_⟩
  cases goes.course with
  | stays noBrace pos pending events =>
      exact .inl ⟨by omega, by omega, noBrace.1, noBrace.2, pending⟩
  | settles isOne pos pending events => exact .inr (.inl ⟨by omega, by omega, isOne, events⟩)
  | astray isOne level onward pending events =>
      exact .inr (.inr ⟨isOne, level, since, until_, pending, events⟩)
  | @declares node from_ upto report closed after header reports closes imports pos pending
      added =>
      -- The token is one of a header, which is no plain code.
      exfalso
      obtain ⟨more, whole⟩ := ends.onward spelled tagged (reached.tail moves)
      have split : events = (reader.events.toList ++
          (plainEvents tokens reader from_ ++ closed)) ++ report :: (after ++ more) := by
        rw [← whole, added]
        simp only [List.append_assoc, List.cons_append]
      obtain ⟨other, housed⟩ := told.housed_of_report reports split
      have same := told.ranges.same_part inside among housed.among ⟨behind, before⟩
        ⟨Nat.le_trans header.first_le since, pos ▸ until_⟩
      cases same
      rw [housed.property Node.isEditable fun _ => rfl, header.fixed] at editable
      cases editable
  | leaves isOne pos pending events =>
      exfalso
      obtain ⟨more, whole⟩ := ends.onward spelled tagged (reached.tail moves)
      rw [events, ← List.append_assoc, List.append_assoc _ _ more, List.singleton_append] at whole
      obtain ⟨other, closes⟩ := told.ends _ _ _ whole.symm
      have same := told.ranges.same_part inside among closes ⟨behind, before⟩
        ⟨since, by rw [← pos]; exact until_⟩
      cases same

/-- The read has stood at every token of plain code, but for those of an import statement that it
gave up. -/
theorem reached_of_holds {id : Nat} (holds : tree.HoldsCode stretches id index) :
    (∃ reader, Reached tokens reader ∧ reader.pos = index) ∨
      ∃ reader next token, Reached tokens reader ∧ Moves tokens reader next ∧
        token.kind = .kwUse ∧ tokens[reader.pos]? = some token ∧ reader.atFileLevel = true ∧
        reader.pos < index ∧ index < next.pos ∧ next.pending = reader.pending ∧
        next.events.toList = reader.events.toList := by
  obtain ⟨reader, token, next, reached, moves, goes, passed⟩ :=
    told.passed_of_holds spelled tagged holds
  rcases passed with ⟨here, -⟩ | ⟨here, -⟩ | ⟨isOne, level, since, rest⟩
  · exact .inl ⟨reader, reached, here⟩
  · exact .inl ⟨reader, reached, here⟩
  · rcases Nat.eq_or_lt_of_le since with here | past
    · exact .inl ⟨reader, reached, here⟩
    · exact .inr ⟨reader, next, token, reached, moves, isOne, goes.here, level, past, rest⟩

/-- The word of an import statement that was given up is in the piece of each of its tokens. -/
theorem use_of_astray {id : Nat} (holds : tree.HoldsCode stretches id index) {kind : TokenKind}
    (here : tokens.kindAt index = some kind) (solid : kind.leads = false)
    (reached : Reached tokens reader) (moves : Moves tokens reader next) {token : Token}
    (goes : Goes tokens reader token next) (isOne : token.kind = .kwUse)
    (since : reader.pos ≤ index) (until_ : index < next.pos)
    (pending : next.pending = reader.pending) :
    tree.HoldsCode stretches id reader.pos ∧ tokens.kindAt reader.pos = some .kwUse := by
  have behind : next.pending ≤ reader.pos := pending ▸ goes.pending_le
  obtain ⟨other, all, -⟩ := told.holds_of_pending spelled tagged (reached.tail moves)
    (Nat.le_trans behind since) until_ here solid
  obtain rfl := told.ranges.holdsCode_unique holds
    (all index (Nat.le_trans behind since) (Nat.le_refl _))
  exact ⟨all reader.pos behind since, Tokens.kindAt_eq_some.mpr ⟨token, goes.here, isOne⟩⟩

theorem last_of_settled {id : Nat} (holds : tree.HoldsCode stretches id reader.pos)
    (reached : Reached tokens reader) (moves : Moves tokens reader next) {token : Token}
    (goes : Goes tokens reader token next) (added : next.events.toList =
      reader.events.toList ++ plainEvents tokens reader (reader.pos + 1)) :
    ∃ first, ⟨.body id, first, reader.pos + 1⟩ ∈ stretches := by
  obtain ⟨last, ends⟩ := ends_of_eventsOf spelled tagged told.read
  obtain ⟨more, whole⟩ := ends.onward spelled tagged (reached.tail moves)
  rw [added, List.append_assoc] at whole
  obtain ⟨other, among, editable, -⟩ :=
    told.holds_of_plain whole.symm (Nat.lt_succ_of_le goes.pending_le)
  obtain rfl := told.ranges.holdsCode_unique holds
    ⟨editable, _, _, among, goes.pending_le, Nat.lt_succ_self _⟩
  exact ⟨_, among⟩

/-- A brace is the last token of a piece of plain code, unless an import statement was given up in
it. -/
theorem brace_last {id : Nat} (holds : tree.HoldsCode stretches id index) {kind : TokenKind}
    (here : tokens.kindAt index = some kind) (isBrace : kind = .openBrace ∨ kind = .closeBrace) :
    (∃ first, ⟨.body id, first, index + 1⟩ ∈ stretches) ∨
      ∃ word, tree.HoldsCode stretches id word ∧ tokens.kindAt word = some .kwUse := by
  obtain ⟨reader, token, next, reached, moves, goes, passed⟩ :=
    told.passed_of_holds spelled tagged holds
  have solid : kind.leads = false := by
    rcases isBrace with rfl | rfl <;> rfl
  rcases passed with ⟨rfl, -, noOpening, noClosing, -⟩ | ⟨rfl, -, -, added⟩ |
    ⟨isOne, level, since, until_, pending, -⟩
  · obtain ⟨found, same, rfl⟩ := Tokens.kindAt_eq_some.mp here
    rw [goes.here] at same
    cases same
    exact (isBrace.elim noOpening noClosing).elim
  · exact .inl (told.last_of_settled spelled tagged holds reached moves goes added)
  · exact .inr ⟨reader.pos, told.use_of_astray spelled tagged holds here solid reached moves goes
      isOne since until_ pending⟩

end Whole

end Told

namespace Tree

/-- Code that is not plain code is a token of markup. -/
theorem markup_of_parse {listLines : Bool} {source : Text} {tree : Tree}
    (parsed : parse listLines source = .ok tree) {id : Nat} (inside : id < tree.size)
    (isCode : (tree.node id).kind = .code) :
    (tree.node id).isEditable = true ∨ ∃ token ∈ scan .html source,
      token.kind.isMarkup = true ∧ (tree.node id).body = token.text ∧
        (tree.node id).flags = if token.kind = .inlineHtml then Flags.none else Flags.fixedCode := by
  have below : root < id :=
    below_of_kind parsed inside (by rw [isCode]; exact NodeKind.noConfusion)
  obtain ⟨events, read, origins⟩ := origins_of_parse parsed
  obtain ⟨node, among, same⟩ := exists_origin origins inside below
  have kind : node.kind = .code := (congrArg Prod.fst same).symm.trans isCode
  obtain ⟨-, body, flags⟩ := Node.of_origin same (by rw [kind]; exact NodeKind.noConfusion)
  obtain ⟨event, member, isNode⟩ := List.mem_filterMap.mp among
  -- What holds of the code that is reported holds of the node.
  have reported : ∀ event ∈ events, ∀ node, event.node? = some node → node.kind = .code →
      node.flags = { Flags.editableCode with coverable := node.flags.coverable } ∨
        ∃ token ∈ scan .html source, token.kind.isMarkup = true ∧ node.body = token.text ∧
          node.flags = if token.kind = .inlineHtml then Flags.none else Flags.fixedCode := by
    refine Reader.forall_events (Scan.spelled_scan .html source) (Scan.tagged_scan .html source)
      read ?_ ?_ ?_ ?_ ?_
    · intro reader stop _ event member node isNode isCode
      unfold Reader.plainEvents at member
      split at member
      · cases List.mem_singleton.mp member
        cases isNode
        exact .inl rfl
      · cases member
    · intro reader token node first last reached header here
      have markup (isCode : node.kind = .code) : ∃ token ∈ scan .html source,
          token.kind.isMarkup = true ∧ node.body = token.text ∧
            node.flags = if token.kind = .inlineHtml then Flags.none else Flags.fixedCode := by
        have declares := header.declares
        rw [Reader.Declares, isCode] at declares
        obtain ⟨isMarkup, -, -, rfl⟩ := declares
        exact ⟨token, List.mem_toArray.mp (Array.mem_of_getElem? here), isMarkup, rfl, rfl⟩
      constructor
      · intro other isNode isCode
        cases isNode
        exact .inr (markup isCode)
      · intro other isNode isCode
        cases isNode
        exact .inr (markup isCode)
    · exact fun close last node isNode => by cases isNode
    · exact fun node isNode => by cases isNode
    · exact fun entries node isNode => by cases isNode
  rcases reported event member node isNode kind with plain | ⟨token, among, isMarkup, text, tagged⟩
  · left
    rw [Node.isEditable, isCode, flags, plain]
    rfl
  · exact .inr ⟨token, among, isMarkup, body.trans text, flags.trans tagged⟩

/-- Code that is not plain code stands outside PHP or is a tag. -/
theorem code_of_parse {listLines : Bool} {source : Text} {tree : Tree}
    (parsed : parse listLines source = .ok tree) {id : Nat} (inside : id < tree.size)
    (isCode : (tree.node id).kind = .code) :
    (tree.node id).isEditable = true ∨ (tree.node id).flags.inPhp = false ∨
      (tree.node id).isTag = true := by
  refine (markup_of_parse parsed inside isCode).imp_right ?_
  rintro ⟨token, among, isMarkup, text, tagged⟩
  by_cases html : token.kind = .inlineHtml
  · left
    rw [tagged, if_pos html]
    rfl
  · right
    rw [if_neg html] at tagged
    have spelled := Scan.tag_of_mem among isMarkup html
    rw [Node.isTag, isCode, tagged, text]
    simp only [decide_true, Bool.true_and, Bool.or_eq_true, List.isPrefixOf_iff_prefix]
    exact spelled

/-- A tag that prints is nothing but its three characters. -/
theorem printingTag_of_parse {listLines : Bool} {source : Text} {tree : Tree}
    (parsed : parse listLines source = .ok tree) {id : Nat} (inside : id < tree.size)
    (isTag : (tree.node id).isTag = true) (prints : ['<', '?', '='] <+: (tree.node id).body) :
    (tree.node id).body = ['<', '?', '='] := by
  unfold Node.isTag at isTag
  simp only [Bool.and_eq_true, decide_eq_true_eq] at isTag
  rcases markup_of_parse parsed inside isTag.1.1 with editable | ⟨token, among, isMarkup, text, tagged⟩
  · unfold Node.isEditable at editable
    rw [isTag.1.2] at editable
    simp [Flags.fixedCode] at editable
  · have noHtml : token.kind ≠ .inlineHtml := by
      intro html
      rw [if_pos html, isTag.1.2] at tagged
      cases congrArg Flags.inPhp tagged
    rw [text] at prints ⊢
    exact Scan.printingTag_of_mem among isMarkup noHtml prints

end Tree
end PhpWeave
