import PhpWeave.Proofs.Grammar.Arrow
import PhpWeave.Proofs.Grammar.Extent
import PhpWeave.Proofs.Grammar.Pairing
import PhpWeave.Proofs.Grammar.Stuck

set_option autoImplicit false

/-!
What keeps a file from having a tree. A read may be stuck at a declaration; or at the end of the
tokens some construct still lacks its brace. Nothing else goes wrong: whatever a read looks for, it
looks at tokens that there are, and it closes only frames that it has opened.
-/

namespace PhpWeave

open Reader

/-- Whether a token may begin a declaration or a namespace. -/
def Token.mayDeclare (token : Token) : Bool :=
  match token.kind with
  | .kwClass | .kwInterface | .kwTrait | .kwFunction | .kwNamespace => true
  | .identifier => token.isWord "enum"
  | _ => false

/-- The innermost open construct that a brace has to close; namespaces without braces are passed
over. -/
def Outline.unclosed? (outline : Outline) : Option OpenNode :=
  outline.entered.find? fun entry => (outline.tree.node entry.id).isEnclosed

/-- Why tokens have no tree. -/
inductive Unclosed (tokens : Tokens) : BracketFault → Prop where
  /-- The read is stuck at a declaration. -/
  | header {reader : Reader} {token : Token} {fault : BracketFault}
      (reached : Reached tokens reader) (here : tokens[reader.pos]? = some token)
      (stuck : Stuck tokens reader token fault) : Unclosed tokens fault
  /-- At the end of the tokens a construct is open that a brace has to close. -/
  | body {reader : Reader} {entry : OpenNode} {token : Token} (reached : Reached tokens reader)
      (ended : reader.pos = tokens.size)
      (isOpen : (Outline.ofEvents reader.events.toList).unclosed? = some entry)
      (here : tokens[entry.first]? = some token) : Unclosed tokens (.unbalanced .curly token.line)

namespace Reader

variable {tokens : Tokens} {reader next : Reader} {token : Token} {fault : BracketFault}

/-! ### Where the frames begin -/

def Begun (reader : Reader) : Prop :=
  reader.top.first :: reader.outer.map Frame.first =
    (Outline.ofEvents reader.events.toList).entered.map OpenNode.first ++ [0]

theorem Reached.begun (spelled : Spelled tokens) (tagged : Tagged tokens)
    (reached : Reached tokens reader) : Begun reader := by
  have paired : Paired (fun frame entry => frame.first = entry.first) reader := by
    induction reached with
    | refl => exact .cons rfl .nil
    | tail before moves ih =>
        obtain ⟨token, goes⟩ := moves.goes spelled tagged before
        exact ih.stride goes.stride (fun _ _ _ same => same) (fun _ _ _ _ same => same)
          fun _ _ _ _ _ _ _ => rfl
  rw [Begun, ← Outline.firsts_levels, ← List.map_cons (f := Frame.first), ← List.forall₂_eq_eq_eq,
    List.forall₂_map_left_iff, List.forall₂_map_right_iff]
  exact paired

end Reader

/-! ### What a read leaves open -/

/-- The tokens that an event tells of are in front of a position. -/
def Event.Within (covered : Nat) : Event → Prop
  | .leaf _ first last | .enter _ first last => first ≤ last ∧ last < covered
  | .leave _ last => last < covered
  | .yields | .imports _ => True

theorem Event.Within.mono {event : Event} {covered further : Nat} (within : event.Within covered)
    (order : covered ≤ further) : event.Within further := by
  cases event with
  | leaf node first last => exact ⟨within.1, Nat.lt_of_lt_of_le within.2 order⟩
  | enter node first last => exact ⟨within.1, Nat.lt_of_lt_of_le within.2 order⟩
  | leave close last => exact Nat.lt_of_lt_of_le within order
  | yields => trivial
  | imports => trivial

theorem Event.Step.within {tokens : Tokens} {point next : Point} {event : Event}
    (step : Event.Step tokens point event next) : event.Within next.covered := by
  cases step with
  | leaf spans => exact ⟨spans.order, Nat.lt_succ_self _⟩
  | enter spans => exact ⟨spans.order, Nat.lt_succ_self _⟩
  | leave => exact Nat.lt_succ_self _
  | leaveOpen ends => exact Nat.lt_of_lt_of_eq (Nat.lt_succ_self _) ends
  | yields => trivial
  | imports => trivial

theorem Derives.within {tokens : Tokens} {events : List Event} {point : Point}
    (derives : Derives tokens events point) : ∀ event ∈ events, event.Within point.covered := by
  induction derives with
  | start => exact fun _ none => by cases none
  | step before step ih =>
      intro event member
      rcases List.mem_append.mp member with old | new
      · exact (ih event old).mono step.covered_le
      · cases List.mem_singleton.mp new
        exact step.within

namespace Outline

variable {tokens : Tokens}

/-- The first token of an open construct is covered. -/
theorem entered_lt_of_derives {events : List Event} {point : Point}
    (derives : Derives tokens events point) :
    ∀ entry ∈ (ofEvents events).entered, entry.first < point.covered := by
  induction derives with
  | start => exact fun _ none => by cases none
  | @step events event point next before step ih =>
      have kept : ∀ entry ∈ (ofEvents events).entered, entry.first < next.covered :=
        fun entry member => Nat.lt_of_lt_of_le (ih entry member) step.covered_le
      rw [ofEvents_snoc]
      cases step with
      | leaf => exact kept
      | enter spans =>
          intro entry member
          rcases List.mem_cons.mp member with rfl | old
          · exact Nat.lt_succ_of_le spans.order
          · exact kept entry old
      | leave =>
          rw [entered_take_leave]
          exact fun entry member => kept entry (List.mem_of_mem_tail member)
      | leaveOpen =>
          rw [entered_take_leave]
          exact fun entry member => kept entry (List.mem_of_mem_tail member)
      | yields =>
          rcases (ofEvents events).take_yields with same | ⟨id, same⟩ <;> rw [same] <;> exact kept
      | imports => exact kept

end Outline

namespace Reader

variable {tokens : Tokens} {reader next : Reader} {token : Token} {fault : BracketFault}

/-- The frames that are left cannot be closed when one of them needs a brace; the innermost such one
is reported. -/
theorem closeAll_error_iff {tree : Tree} {top : Frame} {outer : List Frame}
    {entered : List OpenNode} {frames : List FrameKind}
    (mirrors : Outline.Mirrors tree entered frames)
    (stack : top.kind :: outer.map Frame.kind = frames ++ [.file])
    (begun : top.first :: outer.map Frame.first = entered.map OpenNode.first ++ [0]) :
    closeAll tokens top outer = .error fault ↔
      ∃ entry, entered.find? (fun entry => (tree.node entry.id).isEnclosed) = some entry ∧
        fault = .unbalanced .curly (tokens.lineAt entry.first) := by
  induction outer generalizing top entered frames with
  | nil =>
      cases entered with
      | nil =>
          constructor
          · intro failed
            cases failed
          · rintro ⟨entry, none, -⟩
            cases none
      | cons entry entered =>
          have short := congrArg List.length begun
          simp at short
  | cons next outer ih =>
      cases entered with
      | nil =>
          have long := congrArg List.length begun
          simp at long
      | cons entry entered =>
          cases frames with
          | nil => exact mirrors.elim
          | cons frame frames =>
              obtain ⟨opens, later⟩ := mirrors
              obtain ⟨kind, below⟩ := List.cons.inj stack
              obtain ⟨first, behind⟩ := List.cons.inj begun
              have enclosed := opens.isEnclosed
              rw [closeAll, List.find?_cons, enclosed, kind]
              -- A namespace without braces is closed; any other frame is the one reported.
              by_cases isOpen : frame = .scope false
              · rw [if_pos isOpen, isOpen]
                simp only [FrameKind.isBraced]
                rw [← ih later below behind]
                cases closeAll tokens next outer with
                | error other => rfl
                | ok events => simp only [reduceCtorEq]
              · have braced : frame.isBraced = true := by
                  cases frame with
                  | file => exact opens.elim
                  | scope braced =>
                      cases braced with
                      | true => rfl
                      | false => exact absurd rfl isOpen
                  | classLike => rfl
                  | function => rfl
                rw [if_neg isOpen, braced, first]
                simp only [Except.error.injEq, Option.some.injEq, exists_eq_left', eq_comm]

section Whole

variable (spelled : Spelled tokens) (tagged : Tagged tokens)
include spelled tagged

theorem Reached.entered_lt (reached : Reached tokens reader) :
    ∀ entry ∈ (Outline.ofEvents reader.events.toList).entered, entry.first < reader.pending := by
  obtain ⟨frames, sound⟩ := reached.sound spelled tagged
  exact Outline.entered_lt_of_derives sound.derives

theorem Reached.closeAll_error_iff (reached : Reached tokens reader) :
    closeAll tokens reader.top reader.outer = .error fault ↔
      ∃ entry token, (Outline.ofEvents reader.events.toList).unclosed? = some entry ∧
        tokens[entry.first]? = some token ∧ fault = .unbalanced .curly token.line := by
  obtain ⟨frames, sound⟩ := reached.sound spelled tagged
  have mirrors := (Outline.built_of_derives sound.derives).mirrors
  rw [Reader.closeAll_error_iff mirrors sound.stack (reached.begun spelled tagged)]
  constructor
  · rintro ⟨entry, search, rfl⟩
    have before := reached.entered_lt spelled tagged entry (List.mem_of_find?_eq_some search)
    have inside : entry.first < tokens.size :=
      Nat.lt_of_lt_of_le before (Nat.le_trans sound.pending_le sound.pos_le)
    have here : tokens[entry.first]? = some tokens[entry.first] := Array.getElem?_eq_getElem inside
    exact ⟨entry, _, search, here, by rw [lineAt_of_getElem? here]⟩
  · rintro ⟨entry, token, search, here, rfl⟩
    exact ⟨entry, search, by rw [lineAt_of_getElem? here]⟩

/-- A read that fails is stuck, or leaves a construct open. -/
theorem unclosed_of_eventsOf (failed : eventsOf tokens = .error fault) :
    Unclosed tokens fault := by
  unfold eventsOf at failed
  cases run : runWithin tokens tokens.size start with
  | error other =>
      rw [run] at failed
      cases failed
      obtain ⟨reader, token, reached, here, stuck⟩ :=
        (runWithin_start_error_iff spelled tagged).mp run
      exact .header reached here stuck
  | ok last =>
      obtain ⟨pos, reached, -⟩ := runWithin_sound spelled tagged .refl (Sound.start tokens)
        (by exact Nat.le_add_left _ _) run
      rw [run] at failed
      simp only [flush_top, flush_outer] at failed
      cases closed : closeAll tokens last.top last.outer with
      | error other =>
          rw [closed] at failed
          cases failed
          obtain ⟨entry, token, isOpen, here, rfl⟩ :=
            (reached.closeAll_error_iff spelled tagged).mp closed
          exact .body reached pos isOpen here
      | ok events =>
          rw [closed] at failed
          cases failed

theorem eventsOf_of_unclosed (unclosed : Unclosed tokens fault) :
    eventsOf tokens = .error fault := by
  cases unclosed with
  | header reached here stuck =>
      have run := (runWithin_start_error_iff spelled tagged).mpr ⟨_, _, reached, here, stuck⟩
      rw [eventsOf, run]
  | body reached ended isOpen here =>
      have run : runWithin tokens tokens.size start = .ok _ :=
        runWithin_of_moves spelled tagged .refl (Nat.le_add_left _ _) reached
          (Array.getElem?_eq_none (Nat.le_of_eq ended.symm))
      have closing := (reached.closeAll_error_iff spelled tagged).mpr ⟨_, _, isOpen, here, rfl⟩
      rw [eventsOf, run]
      simp only [flush_top, flush_outer, closing]

end Whole

/-! ### Positions -/

theorem file_notMem_of_nested {frames : List FrameKind} (nested : Nested frames) :
    .file ∉ frames := by
  induction frames with
  | nil => exact List.not_mem_nil
  | cons frame frames ih =>
      intro member
      rcases List.mem_cons.mp member with rfl | later
      · exact nested.elim
      · exact ih nested.tail later

/-- Where the positions that a read keeps lie. -/
structure Safe (tokens : Tokens) (reader : Reader) : Prop where
  pending_le : reader.pending ≤ reader.pos
  pos_le : reader.pos ≤ tokens.size
  /-- The file is the outermost frame, and no other one. -/
  stack : ∃ frames, reader.top.kind :: reader.outer.map Frame.kind = frames ++ [.file] ∧
    .file ∉ frames
  first_lt : ∀ frame ∈ reader.top :: reader.outer, frame.kind ≠ .file → frame.first < reader.pending
  /-- Where a frame is closed there is one around it, and a token has been read. -/
  closes : closesFrame reader.top = true ∨ reader.top.kind = .scope false →
    reader.outer ≠ [] ∧ 0 < reader.pos
  events : ∀ event ∈ reader.events.toList, event.Within reader.pending
  opened : ∀ id ∈ (Outline.ofEvents reader.events.toList).opened,
    id < (Outline.ofEvents reader.events.toList).tree.size
  extents : (Outline.ofEvents reader.events.toList).extents.size =
    (Outline.ofEvents reader.events.toList).tree.size

theorem Reached.first_lt (spelled : Spelled tokens) (tagged : Tagged tokens)
    (reached : Reached tokens reader) :
    ∀ frame ∈ reader.top :: reader.outer, frame.kind ≠ .file → frame.first < reader.pending := by
  obtain ⟨frames, sound⟩ := reached.sound spelled tagged
  have kinds : (reader.top :: reader.outer).map Frame.kind = frames ++ [.file] := sound.stack
  have firsts : (reader.top :: reader.outer).map Frame.first =
      (Outline.ofEvents reader.events.toList).entered.map OpenNode.first ++ [0] :=
    reached.begun spelled tagged
  -- Kinds and first tokens cut the frames at the same place, above the file.
  obtain ⟨front, rest, split, -, lowest⟩ := List.map_eq_append_iff.mp kinds
  obtain ⟨file, rfl, isFile⟩ := List.map_eq_singleton_iff.mp lowest
  rw [split, List.map_append, List.map_singleton] at firsts
  rw [split]
  intro frame member noFile
  rcases List.mem_append.mp member with above | same
  · have begins := (List.append_inj' firsts rfl).1 ▸ List.mem_map_of_mem above
    obtain ⟨entry, among, same⟩ := List.mem_map.mp begins
    exact same ▸ reached.entered_lt spelled tagged entry among
  · rw [List.mem_singleton.mp same] at noFile
    exact absurd isFile noFile

theorem Sound.filled_of_closes {frames : List FrameKind} (sound : Sound tokens reader frames)
    (closes : closesFrame reader.top = true ∨ reader.top.kind = .scope false) : frames ≠ [] := by
  rintro rfl
  have isFile := sound.top_of_nil
  rcases closes with closes | isOpen
  · rw [closesFrame, isFile, Bool.and_false] at closes
    cases closes
  · rw [isFile] at isOpen
    cases isOpen

theorem Reached.safe (spelled : Spelled tokens) (tagged : Tagged tokens)
    (reached : Reached tokens reader) : Safe tokens reader := by
  obtain ⟨frames, sound⟩ := reached.sound spelled tagged
  obtain ⟨stretches, -, noted⟩ := Outline.noted_of_derives sound.derives
  constructor
  case pending_le => exact sound.pending_le
  case pos_le => exact sound.pos_le
  case stack => exact ⟨frames, sound.stack, file_notMem_of_nested sound.derives.nested⟩
  case first_lt => exact reached.first_lt spelled tagged
  case closes =>
    intro closes
    have filled := sound.filled_of_closes closes
    have read := Nat.lt_of_lt_of_le (sound.derives.covered_pos filled) sound.pending_le
    obtain ⟨frame, rest, rfl⟩ := List.exists_cons_of_ne_nil filled
    obtain ⟨next, outer, around, -⟩ := sound.outer_of_cons
    rw [around]
    exact ⟨List.cons_ne_nil next outer, read⟩
  case events => exact sound.derives.within
  case opened => exact (Outline.laid_of_derives sound.derives).1.inside
  case extents => exact noted.size

end Reader

/-- What a search finds is the position of a token, from where it begins on or before there. -/
structure Tokens.Bounded (tokens : Tokens) : Prop where
  firstFrom : ∀ p index found, tokens.firstFrom p index = some found →
    index ≤ found ∧ found < tokens.size
  lastBefore : ∀ p index found, tokens.lastBefore p index = some found →
    found < index ∧ found < tokens.size
  firstOutside : ∀ kinds index found, tokens.firstOutside kinds index = some found →
    index ≤ found ∧ found < tokens.size
  closing : ∀ bracket index found, tokens.closing bracket index = .ok found →
    index ≤ found ∧ found < tokens.size
  scopeHeader : ∀ count index text last name,
    scopeHeader tokens count index text = some (last, name) → index ≤ last ∧ last < tokens.size
  modifierStart : ∀ reader index, reader.pending ≤ index →
    reader.pending ≤ modifierStart tokens reader index ∧ modifierStart tokens reader index ≤ index
  expressionEnd : ∀ index, tokens.expressionEnd index ≤ tokens.size

theorem Tokens.bounded (tokens : Tokens) : tokens.Bounded where
  firstFrom := by
    intro p index found search
    obtain ⟨behind, token, here, -⟩ := firstFrom_some search
    exact ⟨behind, (Array.getElem?_eq_some_iff.mp here).1⟩
  lastBefore := by
    intro p index found search
    exact Nat.lt_min.mp (lastBelow_some search).1
  firstOutside := by
    intro kinds index found search
    obtain ⟨behind, kind, isOne, -⟩ := firstOutside_some search
    exact ⟨behind, lt_size_of_kindAt isOne⟩
  closing := by
    intro bracket index found search
    exact ⟨closing_ge search, lt_size_of_kindAt (closing_kind search)⟩
  scopeHeader := by
    intro count index text last name header
    obtain ⟨behind, ends⟩ := scopeHeader_some header
    exact ⟨behind, ends.elim lt_size_of_kindAt lt_size_of_kindAt⟩
  modifierStart := fun reader index before => modifierStart_bounds tokens before
  expressionEnd := by
    intro index
    unfold Tokens.expressionEnd
    cases found : tokens.expressionEndWithin (tokens.size - index) 0 index with
    | none => exact Nat.le_refl _
    | some stop => exact Nat.le_of_lt (expressionEndWithin_lt_size found)

/-! ### Sources without declarations -/

namespace Reader

variable {tokens : Tokens} {reader next : Reader} {token : Token} {fault : BracketFault}

theorem Stuck.mayDeclare (stuck : Stuck tokens reader token fault) : token.mayDeclare = true := by
  unfold Token.mayDeclare
  rcases stuck.word with isOne | isOne | isOne | isOne | ⟨isOne, begins⟩
  · rw [isOne]
  · rw [isOne]
  · rw [isOne]
  · rw [isOne]
  · rw [isOne]
    unfold isEnumeration at begins
    rw [Bool.and_eq_true, Bool.and_eq_true] at begins
    exact begins.1.1

theorem Header.mayDeclare {node : Node} {first last : Nat}
    (header : Header tokens reader token node first last)
    (opens : node.kind = .scope ∨ node.kind.isClassLike = true ∨ node.kind = .function) :
    token.mayDeclare = true := by
  have declares := header.declares
  unfold Token.mayDeclare
  rcases opens with isOne | isOne | isOne
  · rw [Declares, isOne] at declares
    rw [declares.1]
  · cases kind : node.kind with
    | classLike sort =>
        rw [Declares, kind] at declares
        obtain ⟨isWord | isWord | isWord | ⟨isWord, spelled⟩, -⟩ := declares
        · rw [isWord]
        · rw [isWord]
        · rw [isWord]
        · rw [isWord]
          exact spelled
    | _ =>
        rw [kind] at isOne
        cases isOne
  · rw [Declares, isOne] at declares
    rw [declares.1]

theorem Stride.outer_nil (stride : Stride tokens reader token next)
    (silent : token.mayDeclare = false) (alone : reader.outer = []) : next.outer = [] := by
  have flushed (stop : Nat) : (reader.flush tokens stop).outer = [] :=
    (flush_outer stop).trans alone
  have loud {node : Node} {first last : Nat} (header : Header tokens reader token node first last)
      (opens : node.kind = .scope ∨ node.kind.isClassLike = true ∨ node.kind = .function) :
      False := by
    rw [header.mayDeclare opens] at silent
    cases silent
  cases stride with
  | leaf => exact flushed _
  | imports => exact flushed _
  | enter header opens =>
      rcases opens with ⟨-, isClass⟩ | ⟨-, isFunction, -⟩
      · exact (loud header (.inr (.inl isClass))).elim
      · exact (loud header (.inr (.inr isFunction))).elim
  | scope level header isOne => exact (loud header (.inl isOne)).elim
  | leave =>
      have same : (reader.flush tokens reader.pos).closeFrame ['\x7d'] reader.pos =
          reader.flush tokens reader.pos := by
        rw [closeFrame, flushed]
      rw [same]
      exact flushed _
  | astray => exact alone
  | arrow => exact alone
  | yields => exact alone
  | opening => exact (flush_outer _).trans alone
  | closing => exact (flush_outer _).trans alone
  | openingParen => exact alone
  | closingParen => exact alone
  | ending => exact (flush_outer _).trans alone
  | idle => exact alone

theorem Reached.outer_nil (spelled : Spelled tokens) (tagged : Tagged tokens)
    (silent : ∀ token ∈ tokens.toList, token.mayDeclare = false) (reached : Reached tokens reader) :
    reader.outer = [] := by
  induction reached with
  | refl => rfl
  | tail before moves ih =>
      obtain ⟨token, goes⟩ := moves.goes spelled tagged before
      exact goes.stride.outer_nil
        (silent token (Array.mem_toList_iff.mpr (Array.mem_of_getElem? goes.here))) ih

theorem not_unclosed (spelled : Spelled tokens) (tagged : Tagged tokens)
    (silent : ∀ token ∈ tokens.toList, token.mayDeclare = false) : ¬ Unclosed tokens fault := by
  intro unclosed
  cases unclosed with
  | header reached here stuck =>
      have quiet := silent _ (Array.mem_toList_iff.mpr (Array.mem_of_getElem? here))
      rw [stuck.mayDeclare] at quiet
      cases quiet
  | @body reader entry token reached ended isOpen here =>
      have begun := congrArg List.length (reached.begun spelled tagged)
      rw [reached.outer_nil spelled tagged silent] at begun
      simp only [List.length_cons, List.length_append, List.length_map, List.length_nil,
        Nat.zero_add, Nat.right_eq_add, List.length_eq_zero_iff] at begun
      rw [Outline.unclosed?, begun] at isOpen
      cases isOpen

end Reader

namespace Tree

theorem line_of_unclosed {tokens : Tokens} {fault : BracketFault}
    (unclosed : Unclosed tokens fault) : ∃ bracket, (bracket = .curly ∨ bracket = .paren) ∧
      ∃ token ∈ tokens, fault = .unbalanced bracket token.line := by
  cases unclosed with
  | header reached here stuck =>
      cases stuck with
      | parameters isOne noMember named isParen =>
          exact ⟨_, .inr rfl, _, Array.mem_of_getElem? isParen, rfl⟩
      | function => exact ⟨_, .inl rfl, _, Array.mem_of_getElem? here, rfl⟩
      | classLike => exact ⟨_, .inl rfl, _, Array.mem_of_getElem? here, rfl⟩
  | body reached ended isOpen here => exact ⟨_, .inl rfl, _, Array.mem_of_getElem? here, rfl⟩

theorem parse_eq_error (listLines : Bool) (source : Text) {fault : BracketFault} :
    parse listLines source = .error fault ↔
      eventsOf (TokenStream.ofText .html source).tokens = .error fault := by
  have same : (TokenStream.ofText .html source).tokens = (scan .html source).toArray := rfl
  rw [parse, ofTokens?, same]
  cases eventsOf (scan .html source).toArray with
  | error other => simp only [Except.error.injEq]
  | ok events => simp only [reduceCtorEq]

/-- A source has a tree unless a parameter list, the header of a declaration or the body of a
construct is not closed; then the fault names the brace or the parenthesis that is missing and the
line of a token. No read leaves the tokens, and a source in which no declaration may begin always
has a tree. -/
theorem parse_error_iff (listLines : Bool) (source : Text) :
    (∀ fault, parse listLines source = .error fault ↔
        Unclosed (TokenStream.ofText .html source).tokens fault) ∧
      (∀ fault, parse listLines source = .error fault →
        ∃ bracket, (bracket = .curly ∨ bracket = .paren) ∧
          ∃ token ∈ scan .html source, fault = .unbalanced bracket token.line) ∧
      (TokenStream.ofText .html source).tokens.Bounded ∧
      (∀ reader, Reader.Reached (TokenStream.ofText .html source).tokens reader →
        Safe (TokenStream.ofText .html source).tokens reader) ∧
      ((∀ token ∈ scan .html source, token.mayDeclare = false) →
        ∃ tree, parse listLines source = .ok tree) := by
  have spelled : Spelled (TokenStream.ofText .html source).tokens := Scan.spelled_scan .html source
  have tagged : Tagged (TokenStream.ofText .html source).tokens := Scan.tagged_scan .html source
  have fails (fault : BracketFault) : parse listLines source = .error fault ↔
      Unclosed (TokenStream.ofText .html source).tokens fault :=
    (parse_eq_error listLines source).trans
      ⟨unclosed_of_eventsOf spelled tagged, eventsOf_of_unclosed spelled tagged⟩
  refine ⟨fails, fun fault failed => ?_, Tokens.bounded _, fun reader reached => ?_,
    fun silent => ?_⟩
  · obtain ⟨bracket, sort, token, member, same⟩ := line_of_unclosed ((fails fault).mp failed)
    exact ⟨bracket, sort, token, List.mem_toArray.mp member, same⟩
  · exact reached.safe spelled tagged
  · cases parsed : parse listLines source with
    | error fault => exact absurd ((fails fault).mp parsed) (not_unclosed spelled tagged silent)
    | ok tree => exact ⟨tree, rfl⟩

/-- Stray brackets and an import that cannot be read; a parameter list that is not closed. -/
theorem parse_error_iff_stray :
    (∀ token ∈ scan .html "<?php \x7d use A as; echo (1]);".toList, token.mayDeclare = false) ∧
      (∃ tree, parse true "<?php \x7d use A as; echo (1]);".toList = .ok tree) ∧
      Unclosed (TokenStream.ofText .html "<?php\nfunction f($a \x7b".toList).tokens
        (.unbalanced .paren 2) := by
  have silent : ∀ token ∈ scan .html "<?php \x7d use A as; echo (1]);".toList,
      token.mayDeclare = false := by decide
  refine ⟨silent, (parse_error_iff true _).2.2.2.2 silent, ?_⟩
  exact ((parse_error_iff false _).1 _).mp (by rfl)

end Tree
end PhpWeave
