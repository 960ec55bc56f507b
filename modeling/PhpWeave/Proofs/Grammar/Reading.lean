import PhpWeave.Proofs.Grammar.Derivation
import PhpWeave.Proofs.Grammar.Lookahead
import PhpWeave.Proofs.Token.Symbol

set_option autoImplicit false

/-!
What a read keeps. At every point the events so far lead to the point where the pending tokens
begin, and the frames of the read lie on the stack over the file. No tag is pending. Each construct
reports the pending tokens in front of it, then itself, and goes on behind it. So when the tokens are
read, the events cover all of them.
-/

namespace PhpWeave.Reader

variable {tokens : Tokens} {reader : Reader} {frames : List FrameKind}

/-- The events of a read lead to its first pending token and to its frames. -/
structure Sound (tokens : Tokens) (reader : Reader) (frames : List FrameKind) : Prop where
  derives : Derives tokens reader.events.toList ⟨reader.pending, frames⟩
  stack : reader.top.kind :: reader.outer.map Frame.kind = frames ++ [.file]
  pending_le : reader.pending ≤ reader.pos
  pos_le : reader.pos ≤ tokens.size
  untagged : tokens.Untagged reader.pending reader.pos

def Advances (tokens : Tokens) (reader next : Reader) : Prop :=
  reader.pos < next.pos ∧ ∃ frames, Sound tokens next frames

theorem untagged_self (tokens : Tokens) (index : Nat) : tokens.Untagged index index :=
  fun _ behind before => absurd before (Nat.not_lt_of_le behind)

theorem Sound.start (tokens : Tokens) : Sound tokens Reader.start [] :=
  ⟨.start, rfl, Nat.le_refl 0, Nat.zero_le _, untagged_self tokens 0⟩

/-! ### The stack -/

theorem Sound.top_of_nil (sound : Sound tokens reader []) : reader.top.kind = .file :=
  (List.cons.inj sound.stack).1

theorem Sound.top_of_cons {frame : FrameKind} (sound : Sound tokens reader (frame :: frames)) :
    reader.top.kind = frame := (List.cons.inj sound.stack).1

theorem Sound.outer_of_cons {frame : FrameKind} (sound : Sound tokens reader (frame :: frames)) :
    ∃ next outer, reader.outer = next :: outer ∧
      next.kind :: outer.map Frame.kind = frames ++ [.file] := by
  have below : reader.outer.map Frame.kind = frames ++ [.file] := (List.cons.inj sound.stack).2
  cases around : reader.outer with
  | nil =>
      rw [around] at below
      cases frames <;> cases below
  | cons next outer =>
      rw [around] at below
      exact ⟨next, outer, rfl, below⟩

theorem Sound.inClass_iff (sound : Sound tokens reader frames) (covered : Nat) :
    (Point.mk covered frames).InClass ↔ reader.top.kind = .classLike := by
  unfold Point.InClass
  cases frames with
  | nil =>
      rw [sound.top_of_nil]
      constructor
      · intro none
        cases none
      · intro none
        cases none
  | cons frame frames =>
      rw [sound.top_of_cons]
      exact Option.some_inj

/-! ### Moves -/

theorem Sound.skipTo (sound : Sound tokens reader frames) {index : Nat}
    (onward : reader.pos ≤ index) (inside : index ≤ tokens.size)
    (untagged : tokens.Untagged reader.pos index) :
    Sound tokens (reader.skipTo index) frames where
  derives := sound.derives
  stack := sound.stack
  pending_le := Nat.le_trans sound.pending_le onward
  pos_le := inside
  untagged := by
    intro other behind before
    rcases Nat.lt_or_ge other reader.pos with early | late
    · exact sound.untagged other behind early
    · exact untagged other late before

theorem Sound.updateTop (sound : Sound tokens reader frames) {change : Frame → Frame}
    (kept : ∀ frame, (change frame).kind = frame.kind) :
    Sound tokens (reader.updateTop change) frames where
  derives := sound.derives
  stack := by
    rw [← sound.stack, ← kept reader.top]
    rfl
  pending_le := sound.pending_le
  pos_le := sound.pos_le
  untagged := sound.untagged

variable {token : Token}

theorem lt_size (here : tokens[reader.pos]? = some token) : reader.pos < tokens.size :=
  (Array.getElem?_eq_some_iff.mp here).1

theorem untagged_here (here : tokens[reader.pos]? = some token)
    (code : token.kind.isMarkup = false) : tokens.Untagged reader.pos (reader.pos + 1) := by
  intro index behind before other found
  rw [Nat.le_antisymm (Nat.le_of_lt_succ before) behind, here] at found
  cases found
  exact code

theorem Sound.advances_skip (sound : Sound tokens reader frames)
    (here : tokens[reader.pos]? = some token) (code : token.kind.isMarkup = false) :
    Advances tokens reader reader.skip :=
  ⟨Nat.lt_succ_self _, frames,
    sound.skipTo (Nat.le_succ _) (lt_size here) (untagged_here here code)⟩

theorem flush_pending (stop : Nat) : (reader.flush tokens stop).pending = stop := by
  unfold flush
  simp only
  split <;> rfl

theorem flush_pos (stop : Nat) : (reader.flush tokens stop).pos = reader.pos := by
  unfold flush
  simp only
  split <;> rfl

theorem flush_top (stop : Nat) : (reader.flush tokens stop).top = reader.top := by
  unfold flush
  simp only
  split <;> rfl

theorem flush_outer (stop : Nat) : (reader.flush tokens stop).outer = reader.outer := by
  unfold flush
  simp only
  split <;> rfl

private theorem marked_of_plain {node : Node} {inClass : Prop} (plain : node.kind ≠ .function)
    (noMethod : node.flags.method = false) : node.Marked inClass where
  method := by
    rw [noMethod]
    exact ⟨fun none => (by cases none), fun both => absurd both.1 plain⟩
  closure := fun isOne => absurd isOne plain

theorem Sound.flush (sound : Sound tokens reader frames) {stop : Nat}
    (before : reader.pending ≤ stop) (inside : stop ≤ reader.pos) :
    Sound tokens (reader.flush tokens stop) frames where
  derives := by
    rw [flush_pending]
    unfold Reader.flush
    simp only
    split
    · next some =>
        rw [report, Array.toList_push]
        refine sound.derives.step ?_
        have last : stop = stop - 1 + 1 := by omega
        conv => rhs; rw [last]
        have order : reader.pending ≤ stop - 1 := by omega
        refine .leaf ⟨order, ?_, rfl, fun _ => ?_, NodeKind.noConfusion⟩
          (marked_of_plain NodeKind.noConfusion rfl) rfl
        · rw [← last]
          rfl
        · rw [← last]
          exact fun index behind before => sound.untagged index behind (by omega)
    · have same : reader.pending = stop := by omega
      rw [← same]
      exact sound.derives
  stack := by rw [flush_top, flush_outer, sound.stack]
  pending_le := by rw [flush_pending, flush_pos]; exact inside
  pos_le := by rw [flush_pos]; exact sound.pos_le
  untagged := by
    rw [flush_pending, flush_pos]
    exact fun index behind before => sound.untagged index (Nat.le_trans ‹_› behind) before

/-! ### Reports -/

theorem Sound.report (sound : Sound tokens reader frames) {event : Event} {point : Point}
    (step : Event.Step tokens ⟨reader.pending, frames⟩ event point) :
    Derives tokens (reader.report event).events.toList point := by
  rw [Reader.report, Array.toList_push]
  exact sound.derives.step step

theorem Sound.leaf (sound : Sound tokens reader frames) {node : Node} {first last : Nat}
    (pending : reader.pending = first) (spans : Spans tokens node first last)
    (marked : node.Marked (reader.top.kind = .classLike)) (isOne : node.isLeaf = true)
    (inside : last < tokens.size) :
    Sound tokens ((reader.report (.leaf node first last)).resumeAfter last) frames where
  derives := by
    subst pending
    rw [← sound.inClass_iff reader.pending] at marked
    exact sound.report (.leaf spans marked isOne)
  stack := sound.stack
  pending_le := Nat.le_refl _
  pos_le := inside
  untagged := untagged_self tokens _

theorem Sound.enter (sound : Sound tokens reader frames) {node : Node} {first last : Nat}
    {frame : FrameKind} (pending : reader.pending = first) (spans : Spans tokens node first last)
    (marked : node.Marked (reader.top.kind = .classLike)) (opens : node.Opens frame)
    (admitted : node.kind = .scope → frames = [] ∨ frames.head? = some (.scope true))
    (inside : last < tokens.size) :
    Sound tokens (((reader.report (.enter node first last)).openFrame frame first).resumeAfter last)
      (frame :: frames) where
  derives := by
    subst pending
    rw [← sound.inClass_iff reader.pending] at marked
    exact sound.report (.enter spans marked opens admitted)
  stack := by
    rw [List.cons_append, ← sound.stack]
    rfl
  pending_le := Nat.le_refl _
  pos_le := inside
  untagged := untagged_self tokens _

private theorem closeFrame_eq {next : Frame} {outer : List Frame}
    (around : reader.outer = next :: outer) (close : Text) (last : Nat) :
    reader.closeFrame close last =
      { reader with top := next, outer := outer }.report (.leave close last) := by
  unfold closeFrame
  rw [around]

theorem Sound.leave {frame : FrameKind} (sound : Sound tokens reader (frame :: frames)) {last : Nat}
    (pending : reader.pending = last) (braced : frame.isBraced = true)
    (brace : tokens.textBetween last (last + 1) = ['\x7d']) (inside : last < tokens.size) :
    Sound tokens ((reader.closeFrame ['\x7d'] last).resumeAfter last) frames := by
  obtain ⟨next, outer, around, stack⟩ := sound.outer_of_cons
  subst pending
  rw [closeFrame_eq around]
  exact ⟨sound.report (.leave braced brace), stack, Nat.le_refl _, inside, untagged_self tokens _⟩

theorem Sound.leaveOpen (sound : Sound tokens reader (.scope false :: frames)) {last : Nat}
    (ends : last + 1 = reader.pending) : Sound tokens (reader.closeFrame [] last) frames := by
  obtain ⟨next, outer, around, stack⟩ := sound.outer_of_cons
  rw [closeFrame_eq around]
  exact ⟨sound.report (.leaveOpen ends), stack, sound.pending_le, sound.pos_le, sound.untagged⟩

theorem Sound.note (sound : Sound tokens reader frames) {event : Event}
    (step : Event.Step tokens ⟨reader.pending, frames⟩ event ⟨reader.pending, frames⟩) :
    Sound tokens (reader.report event) frames :=
  ⟨sound.report step, sound.stack, sound.pending_le, sound.pos_le, sound.untagged⟩

/-! ### Tags and literals -/

theorem fits_of_fixed {node : Node} {first stop : Nat} (fixed : node.isEditable = false)
    (plain : node.kind ≠ .function) : node.Fits tokens first stop where
  untagged := fun editable => absurd editable (by rw [fixed]; exact Bool.false_ne_true)
  braced := fun isOne => absurd isOne plain

theorem Sound.advances_token (sound : Sound tokens reader frames)
    (here : tokens[reader.pos]? = some token) {node : Node} (body : node.body = token.text)
    (close : node.close = []) (fixed : node.isEditable = false)
    (plain : node.kind ≠ .function) (noMethod : node.flags.method = false)
    (isOne : node.isLeaf = true) :
    Advances tokens reader (((reader.flush tokens reader.pos).report
      (.leaf node reader.pos reader.pos)).resumeAfter reader.pos) := by
  have flushed := sound.flush sound.pending_le (Nat.le_refl _)
  refine ⟨Nat.lt_succ_self _, frames, flushed.leaf (flush_pending _)
    ⟨Nat.le_refl _, ?_, close, fits_of_fixed fixed plain⟩ (marked_of_plain plain noMethod) isOne
    (lt_size here)⟩
  rw [body, Tokens.textBetween_single here]

theorem advances_markup (sound : Sound tokens reader frames)
    (here : tokens[reader.pos]? = some token) :
    Advances tokens reader (reader.markup tokens token) := by
  refine sound.advances_token here rfl rfl ?_ NodeKind.noConfusion ?_ rfl
  · change (true && (if _ then _ else _ : Flags).inPhp && (if _ then _ else _ : Flags).editable) =
      false
    split <;> rfl
  · change (if _ then _ else _ : Flags).method = false
    split <;> rfl

theorem advances_literal (sound : Sound tokens reader frames)
    (here : tokens[reader.pos]? = some token) :
    Advances tokens reader (reader.literal tokens token) :=
  sound.advances_token here rfl rfl rfl NodeKind.noConfusion rfl rfl

/-! ### Namespaces -/

theorem Sound.endOpenScope (sound : Sound tokens reader frames)
    (fileLevel : reader.atFileLevel = true) {index : Nat} (pending : reader.pending = index) :
    ∃ frames, Sound tokens (reader.endOpenScope index) frames ∧
      (frames = [] ∨ frames.head? = some (.scope true)) := by
  have nested : Nested frames := sound.derives.nested
  unfold Reader.endOpenScope
  unfold atFileLevel at fileLevel
  cases frames with
  | nil =>
      rw [if_neg (by rw [sound.top_of_nil]; exact FrameKind.noConfusion)]
      exact ⟨[], sound, .inl rfl⟩
  | cons frame frames =>
      rw [sound.top_of_cons] at fileLevel ⊢
      cases frame with
      | file => exact nested.elim
      | classLike => cases fileLevel
      | function => cases fileLevel
      | scope braced =>
          cases braced with
          | true =>
              rw [if_neg (by decide)]
              exact ⟨_, sound, .inr rfl⟩
          | false =>
              have some := sound.derives.covered_pos (List.cons_ne_nil _ _)
              rw [if_pos rfl, ← pending]
              exact ⟨frames, sound.leaveOpen (Nat.sub_add_cancel some), nested.1⟩

theorem endOpenScope_pending (index : Nat) :
    (reader.endOpenScope index).pending = reader.pending := by
  unfold Reader.endOpenScope closeFrame
  split
  · split <;> rfl
  · rfl

private theorem getLast?_header (spelled : Spelled tokens) {index last : Nat} (order : index ≤ last)
    (ends : tokens.kindAt last = some .semicolon ∨ tokens.kindAt last = some .openBrace) :
    ((tokens.textBetween index (last + 1)).getLast? == some '\x7b') =
      tokens.isAt last .openBrace := by
  have symbol {kind : TokenKind} {c : Char} (isOne : Scan.punctuation? c = some kind)
      (found : tokens.kindAt last = some kind) :
      (tokens.textBetween index (last + 1)).getLast? = some c := by
    obtain ⟨token, here, rfl⟩ := Tokens.kindAt_eq_some.mp found
    have text := spelled token (Array.mem_of_getElem? here) c isOne
    rw [Tokens.textBetween_succ order here, text, List.getLast?_append, List.getLast?_singleton]
    rfl
  rcases ends with semicolon | brace
  · rw [symbol (c := ';') rfl semicolon, Tokens.isAt, semicolon]
    rfl
  · rw [symbol (c := '\x7b') rfl brace, Tokens.isAt, brace]
    rfl

theorem advances_namespaceWord (spelled : Spelled tokens) (sound : Sound tokens reader frames)
    (here : tokens[reader.pos]? = some token) (code : token.kind.isMarkup = false)
    (fileLevel : reader.atFileLevel = true) :
    Advances tokens reader (reader.namespaceWord tokens) := by
  unfold namespaceWord
  simp only
  split
  · exact sound.advances_skip here code
  · next last name header =>
      obtain ⟨behind, ends⟩ := scopeHeader_some header
      have inside : last < tokens.size :=
        ends.elim Tokens.lt_size_of_kindAt Tokens.lt_size_of_kindAt
      have order : reader.pos ≤ last := Nat.le_of_succ_le behind
      have flushed := sound.flush sound.pending_le (Nat.le_refl _)
      have sameLevel : (reader.flush tokens reader.pos).atFileLevel = true := by
        unfold atFileLevel at fileLevel ⊢
        rw [flush_top]
        exact fileLevel
      obtain ⟨frames, closed, admitted⟩ := flushed.endOpenScope sameLevel (flush_pending _)
      have pending :
          ((reader.flush tokens reader.pos).endOpenScope reader.pos).pending = reader.pos := by
        rw [endOpenScope_pending, flush_pending]
      exact ⟨Nat.lt_succ_of_le order, _, closed.enter pending
        ⟨order, rfl, rfl, fits_of_fixed rfl NodeKind.noConfusion⟩
        (marked_of_plain NodeKind.noConfusion rfl) ⟨rfl, getLast?_header spelled order ends⟩
        (fun _ => admitted) inside⟩

/-! ### Imports -/

theorem advances_useWord (tagged : Tagged tokens) (sound : Sound tokens reader frames)
    (here : tokens[reader.pos]? = some token) (code : token.kind.isMarkup = false) :
    Advances tokens reader (reader.useWord tokens) := by
  unfold useWord
  simp only
  split
  · exact sound.advances_skip here code
  · next last search =>
      obtain ⟨behind, ending, found, -⟩ := Tokens.firstFrom_some search
      have inside : last < tokens.size := (Array.getElem?_eq_some_iff.mp found).1
      have order : reader.pos ≤ last := Nat.le_of_succ_le behind
      split
      · split
        · refine ⟨behind, frames, sound.skipTo order (Nat.le_of_lt inside) (tagged.code ?_ ?_)⟩
          · intro other found
            rw [here] at found
            cases found
            exact code
          · intro index past before other found closes
            have skipped := Tokens.firstFrom_before search index past before other found
            rw [closes] at skipped
            cases skipped
        · next entries read =>
            have flushed := sound.flush sound.pending_le (Nat.le_refl _)
            refine ⟨Nat.lt_succ_of_le order, frames, ?_⟩
            exact (flushed.leaf (flush_pending _)
              ⟨order, rfl, rfl, fits_of_fixed rfl NodeKind.noConfusion⟩
              (marked_of_plain NodeKind.noConfusion rfl) rfl inside).note (.imports entries)
      · exact sound.advances_skip here code

/-! ### Class-like declarations -/

theorem advances_classWord (sound : Sound tokens reader frames)
    (here : tokens[reader.pos]? = some token) (code : token.kind.isMarkup = false)
    {kind : ClassKind} {next : Reader} (done : reader.classWord tokens kind = .ok next) :
    Advances tokens reader next := by
  have skipped := sound.advances_skip here code
  unfold classWord at done
  simp only at done
  split at done
  · cases done
    exact skipped
  · split at done
    · cases done
      exact skipped
    · next name named =>
        split at done
        · cases done
        · next last search =>
            obtain ⟨behind, ending, found, -⟩ := Tokens.firstOutside_some search
            have inside := Tokens.lt_size_of_kindAt found
            split at done
            · cases done
              exact skipped
            · cases done
              have run := modifierStart_bounds tokens sound.pending_le
              have bounds : reader.pending ≤ (if tokens.prevKind reader.pos = some .kwNew then
                  reader.pos else modifierStart tokens reader reader.pos) ∧
                  (if tokens.prevKind reader.pos = some .kwNew then reader.pos
                    else modifierStart tokens reader reader.pos) ≤ reader.pos := by
                split
                · exact ⟨sound.pending_le, Nat.le_refl _⟩
                · exact run
              generalize (if tokens.prevKind reader.pos = some .kwNew then reader.pos
                else modifierStart tokens reader reader.pos) = first at bounds
              have flushed := sound.flush bounds.1 bounds.2
              exact ⟨Nat.lt_succ_of_lt behind, _, flushed.enter (flush_pending _)
                ⟨by omega, rfl, rfl, fits_of_fixed rfl NodeKind.noConfusion⟩
                (marked_of_plain NodeKind.noConfusion rfl) rfl (fun none => (by cases none)) inside⟩

/-! ### Functions -/

theorem functionNode_marked (name : Text) (first index opening close last : Nat) :
    (functionNode tokens reader name first index opening close last).Marked
      (reader.top.kind = .classLike) where
  method := by
    refine ⟨fun isOne => ⟨rfl, ?_⟩, fun both => ?_⟩
    · exact of_decide_eq_true isOne
    · exact decide_eq_true both.2
  closure := fun _ => decide_eq_true_iff

theorem functionNode_fits (tokens : Tokens) (reader : Reader) (name : Text) {first last : Nat}
    (index opening close : Nat) (order : first ≤ last)
    (enters : tokens.isAt last .openBrace = true → Enters tokens last) :
    (functionNode tokens reader name first index opening close last).Fits tokens first
      (last + 1) where
  untagged := fun editable => absurd editable Bool.false_ne_true
  braced := fun _ brace => ⟨last, order, rfl, brace, enters brace⟩

theorem advances_functionWord (reached : Reached tokens reader) (sound : Sound tokens reader frames)
    (here : tokens[reader.pos]? = some token) (isOne : token.kind = .kwFunction) {next : Reader}
    (done : reader.functionWord tokens = .ok next) : Advances tokens reader next := by
  have code : token.kind.isMarkup = false := isOne ▸ rfl
  have skipped := sound.advances_skip here code
  have moves : Moves tokens reader next := by
    refine ⟨token, here, ?_⟩
    rw [step, isOne]
    exact done
  have word : tokens.kindAt reader.pos = some .kwFunction := by
    rw [Tokens.kindAt, here, Option.map_some, isOne]
  unfold functionWord at done
  simp only at done
  split at done
  · cases done
    exact skipped
  · split at done
    · cases done
      exact skipped
    · next opening named =>
        have openingBehind := functionName_ge named
        split at done
        · split at done
          · cases done
          · next close closing =>
              have closeBehind := Tokens.closing_ge closing
              split at done
              · cases done
              · next last search =>
                  obtain ⟨behind, ending, found, -⟩ := Tokens.firstOutside_some search
                  have inside := Tokens.lt_size_of_kindAt found
                  have run := modifierStart_bounds tokens sound.pending_le
                  have flushed := sound.flush run.1 run.2
                  have order : modifierStart tokens reader reader.pos ≤ last := by omega
                  have onward : reader.pos < last + 1 := by omega
                  have marked : (functionNode tokens reader (functionName tokens reader.pos).1
                      (modifierStart tokens reader reader.pos) reader.pos opening close last).Marked
                      ((reader.flush tokens (modifierStart tokens reader reader.pos)).top.kind =
                        .classLike) := by
                    rw [flush_top]
                    exact functionNode_marked _ _ _ _ _ _
                  have fits := functionNode_fits tokens reader
                    (functionName tokens reader.pos).1 reader.pos opening close order
                  split at done
                  · next brace =>
                      cases done
                      have fits := fits fun _ => ⟨reader, _, reached, word, moves, rfl⟩
                      exact ⟨onward, _, flushed.enter (flush_pending _) ⟨order, rfl, rfl, fits⟩
                        marked ⟨rfl, brace⟩ (fun none => (by cases none)) inside⟩
                  · next noBrace =>
                      cases done
                      have fits := fits fun brace => absurd brace noBrace
                      refine ⟨onward, _, flushed.leaf (flush_pending _) ⟨order, rfl, rfl, fits⟩
                        marked ?_ inside⟩
                      change (!tokens.isAt last .openBrace) = true
                      rw [eq_false_of_ne_true noBrace]
                      rfl
        · cases done
          exact skipped

theorem advances_arrowWord (sound : Sound tokens reader frames)
    (here : tokens[reader.pos]? = some token) (code : token.kind.isMarkup = false) :
    Advances tokens reader (reader.arrowWord tokens) := by
  have skipped := sound.advances_skip here code
  unfold arrowWord
  simp only
  split
  · exact skipped
  · split
    · exact skipped
    · -- Remembering an arrow body changes nothing that the events depend on.
      obtain ⟨onward, frames, kept⟩ := skipped
      exact ⟨onward, frames, kept.derives, kept.stack, kept.pending_le, kept.pos_le,
        kept.untagged⟩

theorem advances_yieldWord (sound : Sound tokens reader frames)
    (here : tokens[reader.pos]? = some token) (code : token.kind.isMarkup = false) :
    Advances tokens reader reader.yieldWord := by
  unfold yieldWord
  split
  · exact sound.advances_skip here code
  · exact (sound.note .yields).advances_skip here code

/-! ### Punctuation -/

theorem Sound.advances_flush (sound : Sound tokens reader frames)
    (here : tokens[reader.pos]? = some token) (code : token.kind.isMarkup = false)
    {change : Frame → Frame} (kept : ∀ frame, (change frame).kind = frame.kind) :
    Advances tokens reader
      ((reader.updateTop change).skip.flush tokens (reader.updateTop change).skip.pos) := by
  obtain ⟨onward, frames, skipped⟩ := (sound.updateTop kept).advances_skip here code
  refine ⟨?_, frames, skipped.flush skipped.pending_le (Nat.le_refl _)⟩
  rw [flush_pos]
  exact onward

theorem advances_closingBrace (spelled : Spelled tokens) (sound : Sound tokens reader frames)
    (here : tokens[reader.pos]? = some token) (isOne : token.kind = .closeBrace) :
    Advances tokens reader (reader.closingBrace tokens) := by
  unfold closingBrace
  simp only
  split
  · next closes =>
      have flushed := sound.flush sound.pending_le (Nat.le_refl _)
      have brace : tokens.textBetween reader.pos (reader.pos + 1) = ['\x7d'] := by
        rw [Tokens.textBetween_single here]
        exact spelled token (Array.mem_of_getElem? here) '\x7d' (by rw [isOne]; rfl)
      have closed := (Bool.and_eq_true_iff.mp closes).2
      cases frames with
      | nil =>
          rw [sound.top_of_nil] at closed
          cases closed
      | cons frame frames =>
          rw [sound.top_of_cons] at closed
          have braced : frame.isBraced = true := by
            cases frame with
            | file => cases closed
            | scope braced =>
                cases braced with
                | true => rfl
                | false => cases closed
            | classLike => rfl
            | function => rfl
          exact ⟨Nat.lt_succ_self _, frames,
            flushed.leave (flush_pending _) braced brace (lt_size here)⟩
  · exact sound.advances_flush here (by rw [isOne]; rfl) fun _ => rfl

theorem advances_openingParen (sound : Sound tokens reader frames)
    (here : tokens[reader.pos]? = some token) (code : token.kind.isMarkup = false) :
    Advances tokens reader reader.openingParen := by
  have counted : Sound tokens (reader.updateTop fun frame =>
      { frame with parens := frame.parens + 1 }) frames := sound.updateTop fun _ => rfl
  exact counted.advances_skip here code

theorem advances_closingParen (sound : Sound tokens reader frames)
    (here : tokens[reader.pos]? = some token) (code : token.kind.isMarkup = false) :
    Advances tokens reader reader.closingParen := by
  have counted : Sound tokens (reader.updateTop fun frame =>
      { frame with parens := frame.parens - 1 }) frames := sound.updateTop fun _ => rfl
  exact counted.advances_skip here code

theorem advances_statementEnd (sound : Sound tokens reader frames)
    (here : tokens[reader.pos]? = some token) (code : token.kind.isMarkup = false) :
    Advances tokens reader (reader.statementEnd tokens) := by
  unfold statementEnd
  simp only
  split
  · have kept : ∀ frame : Frame, (id frame).kind = frame.kind := fun _ => rfl
    exact sound.advances_flush here code kept
  · exact sound.advances_skip here code

/-! ### Runs -/

/-- Every step of a read moves on and keeps what holds of it. -/
theorem advances_step (spelled : Spelled tokens) (tagged : Tagged tokens)
    (reached : Reached tokens reader) (sound : Sound tokens reader frames)
    (here : tokens[reader.pos]? = some token) {next : Reader}
    (done : reader.step tokens token = .ok next) : Advances tokens reader next := by
  unfold step at done
  split at done
  · cases done
    exact advances_markup sound here
  · next noTag =>
    have code : token.kind.isMarkup = false := eq_false_of_ne_true noTag
    have skipped := sound.advances_skip here code
    split at done
    · cases done
      exact advances_literal sound here
    · split at done
      · cases done
        split
        · next fileLevel => exact advances_namespaceWord spelled sound here code fileLevel
        · exact skipped
      · cases done
        split
        · exact advances_useWord tagged sound here code
        · exact skipped
      · exact advances_classWord sound here code done
      · exact advances_classWord sound here code done
      · exact advances_classWord sound here code done
      · split at done
        · exact advances_classWord sound here code done
        · split at done
          · cases done
            exact advances_arrowWord sound here code
          · cases done
            exact skipped
      · next isOne => exact advances_functionWord reached sound here isOne done
      · cases done
        exact advances_yieldWord sound here code
      · cases done
        exact sound.advances_flush here code fun _ => rfl
      · next isOne =>
          cases done
          exact advances_closingBrace spelled sound here isOne
      · cases done
        exact advances_openingParen sound here code
      · cases done
        exact advances_closingParen sound here code
      · cases done
        exact advances_statementEnd sound here code
      · cases done
        exact skipped

/-- A read with a step left for each token comes to the end of the tokens. -/
theorem runWithin_sound (spelled : Spelled tokens) (tagged : Tagged tokens) {fuel : Nat}
    (reached : Reached tokens reader) (sound : Sound tokens reader frames)
    (enough : tokens.size ≤ reader.pos + fuel) {last : Reader}
    (done : runWithin tokens fuel reader = .ok last) :
    last.pos = tokens.size ∧ Reached tokens last ∧ ∃ frames, Sound tokens last frames := by
  induction fuel generalizing reader frames with
  | zero =>
      cases done
      exact ⟨Nat.le_antisymm sound.pos_le enough, reached, frames, sound⟩
  | succ fuel ih =>
      rw [runWithin] at done
      split at done
      · next none =>
          cases done
          exact ⟨Nat.le_antisymm sound.pos_le (Array.getElem?_eq_none_iff.mp none), reached, frames,
            sound⟩
      · next token here =>
          split at done
          · cases done
          · next next stepped =>
              obtain ⟨onward, nextFrames, kept⟩ :=
                advances_step spelled tagged reached sound here stepped
              exact ih (reached.tail ⟨token, here, stepped⟩) kept (by omega) done

theorem derives_closeAll {top : Frame} {outer : List Frame} {events last : List Event}
    (derives : Derives tokens events ⟨tokens.size, frames⟩)
    (stack : top.kind :: outer.map Frame.kind = frames ++ [.file])
    (done : closeAll tokens top outer = .ok last) :
    Derives tokens (events ++ last) ⟨tokens.size, []⟩ := by
  induction outer generalizing top frames events last with
  | nil =>
      cases done
      cases frames with
      | nil => rw [List.append_nil]; exact derives
      | cons frame frames => cases frames <;> cases (List.cons.inj stack).2
  | cons next outer ih =>
      rw [closeAll] at done
      split at done
      · next isOpen =>
          split at done
          · cases done
          · next rest closed =>
              cases done
              cases frames with
              | nil => cases (List.cons.inj stack).2
              | cons frame frames =>
                  obtain ⟨same, below⟩ := List.cons.inj stack
                  rw [isOpen] at same
                  subst same
                  have some := derives.covered_pos (List.cons_ne_nil _ _)
                  have one : Derives tokens (events ++ [.leave [] (tokens.size - 1)])
                      ⟨tokens.size, frames⟩ :=
                    derives.step (.leaveOpen (Nat.sub_add_cancel some))
                  have all := ih one below closed
                  rw [List.append_assoc] at all
                  exact all
      · cases done

/-- The events of a file lead from its first token past its last one, with nothing left open. -/
theorem derives_eventsOf (spelled : Spelled tokens) (tagged : Tagged tokens)
    {events : List Event} (done : eventsOf tokens = .ok events) :
    Derives tokens events ⟨tokens.size, []⟩ := by
  unfold eventsOf at done
  split at done
  · cases done
  · next reader run =>
      obtain ⟨stands, -, frames, sound⟩ := runWithin_sound spelled tagged .refl
        (Sound.start tokens) (by exact Nat.le_add_left _ _) run
      have before : reader.pending ≤ tokens.size := stands ▸ sound.pending_le
      have flushed := sound.flush before (Nat.le_of_eq stands.symm)
      simp only at done
      split at done
      · cases done
      · next last closed =>
          cases done
          have derives := flushed.derives
          rw [flush_pending] at derives
          exact derives_closeAll derives flushed.stack closed

end PhpWeave.Reader
