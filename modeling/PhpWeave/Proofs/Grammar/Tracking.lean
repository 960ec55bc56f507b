import PhpWeave.Proofs.Grammar.Header
import PhpWeave.Proofs.Grammar.Passing

set_option autoImplicit false

/-!
Reading a token list that has grown. What is put in begins no construct, so a read of the grown list
goes on as the read of the first list does, and where code was put in behind the brace of a function
it reads that code first. Both reads report the same declarations.
-/

namespace PhpWeave.Reader

open Scan

variable {isPut : Nat → Prop} {tokens others : Tokens} {index place : Nat} {token : Token}
  {reader next other after : Reader}

/-! ### Reads that go together -/

/-- A read of the first list and a read of the grown list that stand at the same token. -/
structure Tracks (isPut : Nat → Prop) (tokens others : Tokens) (reader other : Reader) : Prop
    extends Alike reader other where
  aligned : Aligned isPut tokens others reader.pos other.pos
  idle : other.atStatementStart others other.pos = reader.atStatementStart tokens reader.pos
  pending_le : reader.pending ≤ reader.pos
  otherPending_le : other.pending ≤ other.pos

theorem Alike.tracks (alike : Alike reader other)
    (aligned : Aligned isPut tokens others reader.pos other.pos)
    (none : reader.pending = reader.pos) (otherNone : other.pending = other.pos) :
    Tracks isPut tokens others reader other where
  toAlike := alike
  aligned := aligned
  idle := by
    rw [atStatementStart_of_pending_le (Nat.le_of_eq none.symm),
      atStatementStart_of_pending_le (Nat.le_of_eq otherNone.symm)]
  pending_le := Nat.le_of_eq none
  otherPending_le := Nat.le_of_eq otherNone

theorem Alike.resumeAfter (alike : Alike reader other) {last otherLast : Nat}
    (aligned : Aligned isPut tokens others (last + 1) (otherLast + 1)) :
    Tracks isPut tokens others (reader.resumeAfter last) (other.resumeAfter otherLast) :=
  Alike.tracks ⟨⟨alike.top, alike.outer⟩, alike.declared⟩ aligned rfl rfl

structure Faces (isPut : Nat → Prop) (tokens others : Tokens) (next entered : Reader)
    (added rest : List Token) : Prop extends Alike next entered where
  stands : others.toList.drop entered.pos = added ++ rest
  aligned : Aligned isPut tokens others next.pos (entered.pos + added.length)
  fresh : entered.top.shape = (.function, 0, 0)
  inset : Inset added
  none : next.pending = next.pos

theorem Alike.enter (alike : Alike reader other) {last otherLast : Nat}
    (aligned : Aligned isPut tokens others last otherLast) (there : tokens[last]? = some token)
    {node otherNode : Node} (same : otherNode.declaration? = node.declaration?)
    (first otherFirst : Nat) :
    let next := ((reader.report (.enter node first last)).openFrame .function
      first).resumeAfter last
    let entered := ((other.report (.enter otherNode otherFirst otherLast)).openFrame .function
      otherFirst).resumeAfter otherLast
    Tracks isPut tokens others next entered ∨
      ∃ added rest, Faces isPut tokens others next entered added rest := by
  intro next entered
  have reported : Alike (reader.report (.enter node first last))
      (other.report (.enter otherNode otherFirst otherLast)) := alike.report same
  have opened := reported.openFrame .function first otherFirst
  obtain ⟨added, rest, onward⟩ := aligned.onward there
  rcases onward.put with rfl | ⟨-, -, inset⟩
  · exact .inl (opened.resumeAfter onward.aligned)
  · exact .inr ⟨added, rest, ⟨⟨opened.top, opened.outer⟩, opened.declared⟩, onward.stands,
      onward.aligned, rfl, inset, rfl⟩

theorem functionNode_declared {last otherLast : Nat}
    (aligned : Aligned isPut tokens others last otherLast) (name : Text)
    (first index opening close otherFirst otherIndex otherOpening otherClose : Nat) :
    (functionNode others other name otherFirst otherIndex otherOpening otherClose
      otherLast).declaration? =
        (functionNode tokens reader name first index opening close last).declaration? := by
  change some (NodeKind.function, name, others.isAt otherLast .openBrace) =
    some (NodeKind.function, name, tokens.isAt last .openBrace)
  rw [aligned.isAt]

def ImportsAt (tokens : Tokens) (index : Nat) : Prop :=
  ∃ last entries, tokens.firstFrom (fun token =>
      token.kind = .semicolon || token.kind = .closeTag) (index + 1) = some last ∧
    tokens.isAt last .semicolon = true ∧
    Import.read? ((tokens.extract (index + 1) last).toList.filter Tokens.isSignificant) =
      some entries

namespace Tracks

variable (tracks : Tracks isPut tokens others reader other)
include tracks

theorem here (here : tokens[reader.pos]? = some token) : others[other.pos]? = some token :=
  tracks.aligned.here.trans here

/-- Both reads step over a token. -/
theorem passes (here : tokens[reader.pos]? = some token) (first : Passes reader token next)
    (second : Passes other token after)
    (aligned : Aligned isPut tokens others (reader.pos + 1) (other.pos + 1)) :
    Tracks isPut tokens others next after where
  top := by rw [first.top, second.top, tracks.kind, tracks.braces, tracks.parens]
  outer := by rw [first.outer, second.outer, tracks.outer]
  declared := by rw [first.declared, second.declared, tracks.declared]
  aligned := by
    rw [first.pos, second.pos]
    exact aligned
  idle := by
    have pending := first.pending
    have otherPending := second.pending
    rw [tracks.parens] at otherPending
    rw [first.pos, second.pos]
    split at pending
    · next settles =>
        rw [if_pos settles] at otherPending
        rw [atStatementStart_of_pending_le (Nat.le_of_eq pending.symm),
          atStatementStart_of_pending_le (Nat.le_of_eq otherPending.symm)]
    · next keeps =>
        rw [if_neg keeps] at otherPending
        rw [atStatementStart_succ here (pending ▸ tracks.pending_le),
          atStatementStart_succ (tracks.here here) (otherPending ▸ tracks.otherPending_le)]
        have idle := tracks.idle
        unfold atStatementStart at idle ⊢
        rw [pending, otherPending, idle]
  pending_le := by
    rw [first.pos, first.pending]
    have before := tracks.pending_le
    split <;> omega
  otherPending_le := by
    rw [second.pos, second.pending]
    have before := tracks.otherPending_le
    split <;> omega

theorem isEnumeration_eq
    (aligned : Aligned isPut tokens others (reader.pos + 1) (other.pos + 1)) :
    isEnumeration others other token = isEnumeration tokens reader token := by
  unfold isEnumeration
  rw [tracks.idle]
  have found := aligned.nextSignificant
  generalize tokens.nextSignificant (reader.pos + 1) = first at found ⊢
  generalize others.nextSignificant (other.pos + 1) = second at found ⊢
  cases found with
  | none => rfl
  | @some name otherName same =>
      simp only [same.isAt]
      cases isName : tokens.isAt name .identifier with
      | false => rfl
      | true =>
          obtain ⟨word, isThere, kind⟩ := Tokens.kindAt_eq_some.mp (eq_of_beq isName)
          have behind := same.next_of_kind isThere (kind ▸ TokenKind.noConfusion)
          have found := behind.nextSignificant
          generalize tokens.nextSignificant (name + 1) = first at found ⊢
          generalize others.nextSignificant (otherName + 1) = second at found ⊢
          cases found with
          | none => rfl
          | some same => rw [Option.bind_some, Option.bind_some, same.here]

theorem skip (here : tokens[reader.pos]? = some token) (quiet : Quiet token.kind)
    (aligned : Aligned isPut tokens others (reader.pos + 1) (other.pos + 1)) :
    Tracks isPut tokens others reader.skip other.skip :=
  tracks.passes here (passes_skip quiet) (passes_skip quiet) aligned

theorem markup (aligned : Aligned isPut tokens others (reader.pos + 1) (other.pos + 1)) :
    Tracks isPut tokens others (reader.markup tokens token) (other.markup others token) := by
  refine Alike.resumeAfter (Alike.report ?_ ?_) aligned
  · exact tracks.flush _ _
  · rfl

theorem literal (aligned : Aligned isPut tokens others (reader.pos + 1) (other.pos + 1)) :
    Tracks isPut tokens others (reader.literal tokens token) (other.literal others token) := by
  refine Alike.resumeAfter (Alike.report ?_ ?_) aligned
  · exact tracks.flush _ _
  · rfl

theorem closingBrace (closes : closesFrame reader.top = true)
    (aligned : Aligned isPut tokens others (reader.pos + 1) (other.pos + 1)) :
    Tracks isPut tokens others (reader.closingBrace tokens) (other.closingBrace others) := by
  unfold Reader.closingBrace
  simp only
  rw [if_pos closes, if_pos (tracks.closesFrame.trans closes)]
  exact ((tracks.flush _ _).closeFrame _ _ _).resumeAfter aligned

theorem namespaceWord (here : tokens[reader.pos]? = some token) (quiet : Quiet token.kind)
    (next : Aligned isPut tokens others (reader.pos + 1) (other.pos + 1))
    (clear : ∀ brace, isPut brace → reader.pos ≤ brace →
      (reader.namespaceWord tokens).pos ≤ brace) :
    Tracks isPut tokens others (reader.namespaceWord tokens) (other.namespaceWord others) := by
  have found := scopeHeader_aligned next []
  unfold Reader.namespaceWord at clear ⊢
  simp only at clear ⊢
  cases header : scopeHeader tokens (tokens.size - (reader.pos + 1)) (reader.pos + 1) [] with
  | none =>
      rw [header] at found
      generalize scopeHeader others (others.size - (other.pos + 1)) (other.pos + 1) [] = second
        at found ⊢
      cases found
      exact tracks.skip here quiet next
  | some first =>
      obtain ⟨last, name⟩ := first
      obtain ⟨behind, ends⟩ := scopeHeader_some header
      have inside : last < tokens.size :=
        ends.elim Tokens.lt_size_of_kindAt Tokens.lt_size_of_kindAt
      have notPut : ¬ isPut last := fun put => by
        rw [header] at clear
        exact absurd (clear last put (by omega)) (Nat.not_succ_le_self last)
      rw [header] at found
      generalize scopeHeader others (others.size - (other.pos + 1)) (other.pos + 1) [] = second
        at found ⊢
      cases found with
      | some both =>
          obtain ⟨same, rfl⟩ := both
          simp only [same.isAt]
          refine Alike.resumeAfter (Alike.openFrame (Alike.report ?_ ?_) _ _ _)
            (same.next (Array.getElem?_eq_getElem inside) notPut)
          · exact Alike.endOpenScope (tracks.flush _ _) _ _
          · rfl

theorem useWord (next : Aligned isPut tokens others (reader.pos + 1) (other.pos + 1))
    (imports : ImportsAt tokens reader.pos)
    (clear : ∀ brace, isPut brace → reader.pos ≤ brace → (reader.useWord tokens).pos ≤ brace) :
    Tracks isPut tokens others (reader.useWord tokens) (other.useWord others) := by
  obtain ⟨last, entries, found, semicolon, read⟩ := imports
  have stands : (reader.useWord tokens).pos = last + 1 := by
    unfold Reader.useWord
    simp only [found, semicolon, if_true, read]
    rfl
  rw [stands] at clear
  obtain ⟨behind, ending, there, ends⟩ := Tokens.firstFrom_some found
  have before := Tokens.firstFrom_before found
  have inside := (Array.getElem?_eq_some_iff.mp there).1
  obtain ⟨gap, rfl⟩ := Nat.exists_eq_add_of_le behind
  obtain ⟨same, range⟩ := next.through (Nat.le_of_lt inside) fun brace put past => by
    have far := clear brace put (by omega)
    omega
  have otherFound : others.firstFrom (fun token =>
      token.kind = .semicolon || token.kind = .closeTag) (other.pos + 1) =
        some (other.pos + 1 + gap) := by
    refine Tokens.firstFrom_of_before (same.here.trans there) ends ?_
    intro less within found isThere
    have taken := congrArg (·[less]?) range
    simp only [List.getElem?_take, within, if_true, List.getElem?_drop, Array.getElem?_toList]
      at taken
    exact before (reader.pos + 1 + less) (Nat.le_add_right _ _) (by omega) found
      (taken.symm.trans isThere)
  have extract : (others.extract (other.pos + 1) (other.pos + 1 + gap)).toList =
      (tokens.extract (reader.pos + 1) (reader.pos + 1 + gap)).toList := by
    rw [Array.toList_extract, Array.toList_extract, List.extract_eq_take_drop,
      List.extract_eq_take_drop, Nat.add_sub_cancel_left, Nat.add_sub_cancel_left, range]
  have notPut : ¬ isPut (reader.pos + 1 + gap) := fun put => by
    have far := clear _ put (by omega)
    omega
  unfold Reader.useWord
  simp only [found, otherFound, same.isAt, semicolon, if_true, extract, read]
  refine Alike.resumeAfter (Alike.report (Alike.report ?_ ?_) ?_) (same.next there notPut)
  · exact tracks.flush _ _
  · rfl
  · rfl

theorem classWord (here : tokens[reader.pos]? = some token) (quiet : Quiet token.kind)
    (aligned : Aligned isPut tokens others (reader.pos + 1) (other.pos + 1)) {kind : ClassKind}
    {next : Reader}
    (done : reader.classWord tokens kind = .ok next)
    (clear : ∀ brace, isPut brace → reader.pos ≤ brace → next.pos ≤ brace) :
    ∃ after, other.classWord others kind = .ok after ∧
      Tracks isPut tokens others next after := by
  have skipped := tracks.skip here quiet aligned
  unfold Reader.classWord at done ⊢
  simp only [tracks.aligned.isMemberName, className?_aligned tracks.aligned aligned] at done ⊢
  split at done
  · next member =>
      cases done
      rw [if_pos member]
      exact ⟨_, rfl, skipped⟩
  · next noMember =>
      rw [if_neg noMember]
      cases named : className? tokens reader.pos with
      | none =>
          rw [named] at done
          cases done
          exact ⟨_, rfl, skipped⟩
      | some name =>
          rw [named] at done
          simp only at done ⊢
          cases search : tokens.firstOutside [.openBrace, .semicolon] (reader.pos + 1) with
          | none =>
              rw [search] at done
              cases done
          | some last =>
              obtain ⟨behind, ⟨ending, there⟩, otherLast, otherSearch, same⟩ :=
                headerEnd_aligned aligned search
              rw [search] at done
              simp only [otherSearch, same.isAt] at done ⊢
              split at done
              · next semicolon =>
                  cases done
                  rw [if_pos semicolon]
                  exact ⟨_, rfl, skipped⟩
              · next noSemicolon =>
                  cases done
                  rw [if_neg noSemicolon]
                  have notPut : ¬ isPut last := fun put =>
                    absurd (clear last put (by omega)) (Nat.not_succ_le_self last)
                  refine ⟨_, rfl, Alike.resumeAfter (Alike.openFrame (Alike.report ?_ ?_) _ _ _)
                    (same.next there notPut)⟩
                  · exact tracks.flush _ _
                  · rfl

theorem functionWord (here : tokens[reader.pos]? = some token) (quiet : Quiet token.kind)
    (aligned : Aligned isPut tokens others (reader.pos + 1) (other.pos + 1)) {next : Reader}
    (done : reader.functionWord tokens = .ok next) :
    ∃ entered, other.functionWord others = .ok entered ∧
      (Tracks isPut tokens others next entered ∨
        ∃ added rest, Faces isPut tokens others next entered added rest) := by
  have skipped := tracks.skip here quiet aligned
  obtain ⟨name, named⟩ := functionName_aligned aligned
  unfold Reader.functionWord at done ⊢
  simp only [tracks.aligned.isMemberName, name] at done ⊢
  split at done
  · next member =>
      cases done
      rw [if_pos member]
      exact ⟨_, rfl, .inl skipped⟩
  · next noMember =>
      rw [if_neg noMember]
      generalize (functionName tokens reader.pos).2 = first at named done ⊢
      generalize (functionName others other.pos).2 = second at named ⊢
      cases named with
      | none =>
          cases done
          exact ⟨_, rfl, .inl skipped⟩
      | @some opening otherOpening same =>
          simp only [same.isAt] at done ⊢
          split at done
          · next parenthesis =>
              rw [if_pos parenthesis]
              cases closing : tokens.closing .paren opening with
              | error fault =>
                  rw [closing] at done
                  cases done
              | ok close =>
                  rw [closing] at done
                  simp only at done
                  cases search : tokens.firstOutside [.openBrace, .semicolon] (close + 1) with
                  | none =>
                      rw [search] at done
                      cases done
                  | some last =>
                      obtain ⟨⟨ending, there⟩, otherClose, otherLast, otherClosing, otherSearch,
                        sameLast⟩ := functionHeader_aligned same closing search
                      rw [search] at done
                      rw [otherClosing]
                      simp only [otherSearch, sameLast.isAt] at done ⊢
                      split at done
                      · next brace =>
                          cases done
                          rw [if_pos brace]
                          exact ⟨_, rfl, Alike.enter (tracks.flush _ _) sameLast there
                            (functionNode_declared sameLast _ _ _ _ _ _ _ _ _) _ _⟩
                      · next noBrace =>
                          cases done
                          rw [if_neg noBrace]
                          have noOpening : ending.kind ≠ .openBrace := fun isBrace =>
                            noBrace (beq_of_eq (Tokens.kindAt_eq_some.mpr ⟨ending, there, isBrace⟩))
                          refine ⟨_, rfl, .inl (Alike.resumeAfter (Alike.report ?_ ?_)
                            (sameLast.next_of_kind there noOpening))⟩
                          · exact tracks.flush _ _
                          · exact functionNode_declared sameLast _ _ _ _ _ _ _ _ _
          · next noParenthesis =>
              cases done
              rw [if_neg noParenthesis]
              exact ⟨_, rfl, .inl skipped⟩

end Tracks

/-! ### Behind what was put in -/

theorem Faces.crosses {added rest : List Token} {entered : Reader}
    (faces : Faces isPut tokens others next entered added rest)
    (crosses : Crosses others entered 0 0 added after) : Tracks isPut tokens others next after := by
  have kind := (Frame.of_shape faces.fresh).1
  have alike : Alike next after := by
    refine ⟨⟨?_, ?_⟩, ?_⟩
    · rw [crosses.top, kind, ← faces.top, faces.fresh]
    · rw [crosses.outer, faces.outer]
    · rw [crosses.declared, faces.declared]
  refine alike.tracks ?_ faces.none (crosses.pending faces.inset.closes)
  rw [crosses.pos]
  exact faces.aligned

theorem Faces.exists_tracks {added rest : List Token} {entered : Reader}
    (faces : Faces isPut tokens others next entered added rest) :
    ∃ after, Relation.ReflTransGen (Moves others) entered after ∧
      Tracks isPut tokens others next after := by
  have fresh : entered.top.shape = (.function, 0 + 0, 0 + 0) := faces.fresh
  obtain ⟨after, crosses⟩ := exists_crosses faces.inset.settles fresh faces.stands
  exact ⟨after, crosses.moves, faces.crosses crosses⟩

/-! ### Imports -/

/-- Every word `use` that begins a statement at file level is read as an import. -/
def ImportsRead (tokens : Tokens) : Prop :=
  ∀ reader, Reached tokens reader → tokens.kindAt reader.pos = some .kwUse →
    reader.atFileLevel = true → reader.atStatementStart tokens reader.pos = true →
      ∃ node last, node.kind = .imports ∧
        Event.leaf node reader.pos last ∈ (reader.useWord tokens).events.toList

theorem ImportsRead.importsAt (read : ImportsRead tokens) (reached : Reached tokens reader)
    {frames : List FrameKind} (sound : Sound tokens reader frames)
    (word : tokens.kindAt reader.pos = some .kwUse) (fileLevel : reader.atFileLevel = true)
    (start : reader.atStatementStart tokens reader.pos = true) :
    ImportsAt tokens reader.pos := by
  obtain ⟨node, stop, -, member⟩ := read reader reached word fileLevel start
  -- What was reported before lies in front of the word.
  have fresh : Event.leaf node reader.pos stop ∉ reader.events.toList := fun old =>
    absurd (sound.derives.leaf_covered old) (Nat.not_lt_of_le sound.pending_le)
  unfold useWord at member
  simp only at member
  split at member
  · exact absurd member fresh
  · next last found =>
      split at member
      · next semicolon =>
          split at member
          · exact absurd member fresh
          · next entries read => exact ⟨last, entries, found, semicolon, read⟩
      · exact absurd member fresh

/-! ### Runs -/

theorem plain_or (tokens : Tokens) (reader : Reader) (token : Token) :
    Plain tokens reader token ∨ token.kind.isMarkup = true ∨
      token.kind.isMarkup = false ∧ token.kind.isLiteral = true ∨
      beginsConstruct token.kind = true ∨
      token.kind = .identifier ∧ isEnumeration tokens reader token = true ∨
      token.kind = .closeBrace ∧ closesFrame reader.top = true := by
  by_cases tag : token.kind.isMarkup = true
  · exact .inr (.inl tag)
  by_cases literal : token.kind.isLiteral = true
  · exact .inr (.inr (.inl ⟨eq_false_of_ne_true tag, literal⟩))
  by_cases word : beginsConstruct token.kind = true
  · exact .inr (.inr (.inr (.inl word)))
  by_cases enumeration : token.kind = .identifier ∧ isEnumeration tokens reader token = true
  · exact .inr (.inr (.inr (.inr (.inl enumeration))))
  by_cases partner : token.kind = .closeBrace ∧ closesFrame reader.top = true
  · exact .inr (.inr (.inr (.inr (.inr partner))))
  exact .inl ⟨eq_false_of_ne_true tag, eq_false_of_ne_true literal, eq_false_of_ne_true word,
    fun isOne => eq_false_of_ne_true fun both => enumeration ⟨isOne, both⟩,
    fun isOne => eq_false_of_ne_true fun both => partner ⟨isOne, both⟩⟩

theorem Tracks.step_plain (tracks : Tracks isPut tokens others reader other)
    (here : tokens[reader.pos]? = some token) (plain : Plain tokens reader token)
    (done : reader.step tokens token = .ok next)
    (aligned : Aligned isPut tokens others (reader.pos + 1) (other.pos + 1)) :
    ∃ after, other.step others token = .ok after ∧ Tracks isPut tokens others next after := by
  have otherPlain : Plain others other token := by
    refine ⟨plain.tag, plain.literal, plain.word, fun isOne => ?_, fun isOne => ?_⟩
    · rw [tracks.isEnumeration_eq aligned]
      exact plain.enumeration isOne
    · rw [tracks.closesFrame]
      exact plain.partner isOne
  obtain ⟨next', done', first⟩ := passes_step plain
  obtain ⟨after, otherDone, second⟩ := passes_step otherPlain
  obtain rfl := Except.ok.inj (done'.symm.trans done)
  exact ⟨after, otherDone, tracks.passes here first second aligned⟩

theorem clear_of_moves (spelled : Spelled tokens) (tagged : Tagged tokens)
    (puts : ∀ brace, isPut brace → Enters tokens brace) (reached : Reached tokens reader)
    (moves : Moves tokens reader next) (noFunction : tokens.kindAt reader.pos ≠ some .kwFunction) :
    ∀ brace, isPut brace → reader.pos ≤ brace → next.pos ≤ brace := by
  intro brace put behind
  by_contra past
  have entered := (puts brace put).here spelled tagged reached moves behind (Nat.lt_of_not_le past)
  exact noFunction entered.1

theorem Tracks.step_word (tracks : Tracks isPut tokens others reader other)
    (here : tokens[reader.pos]? = some token) (word : beginsConstruct token.kind = true)
    (done : reader.step tokens token = .ok next)
    (clear : token.kind ≠ .kwFunction →
      ∀ brace, isPut brace → reader.pos ≤ brace → next.pos ≤ brace)
    (reads : token.kind = .kwUse → reader.atFileLevel = true →
      reader.atStatementStart tokens reader.pos = true → ImportsAt tokens reader.pos) :
    ∃ after, Relation.ReflTransGen (Moves others) other after ∧
      Tracks isPut tokens others next after := by
  have there := tracks.here here
  have single {after : Reader} (step : other.step others token = .ok after)
      (tracked : Tracks isPut tokens others next after) :
      ∃ after, Relation.ReflTransGen (Moves others) other after ∧
        Tracks isPut tokens others next after := ⟨after, .single ⟨token, there, step⟩, tracked⟩
  have quiet := quiet_of_word word
  have noBrace : token.kind ≠ .openBrace := fun isOne => by
    rw [isOne] at word
    cases word
  have aligned := tracks.aligned.next_of_kind here noBrace
  have skipped := tracks.skip here quiet aligned
  cases word_of_beginsConstruct word with
  | scope isOne stepped =>
      have clear := clear (isOne ▸ TokenKind.noConfusion)
      rw [stepped] at done
      refine single (stepped others other) ?_
      rw [tracks.atFileLevel]
      split at done
      · next fileLevel =>
          cases done
          rw [if_pos fileLevel]
          exact tracks.namespaceWord here quiet aligned clear
      · next inside =>
          cases done
          rw [if_neg inside]
          exact skipped
  | imports isOne stepped =>
      have clear := clear (isOne ▸ TokenKind.noConfusion)
      rw [stepped] at done
      refine single (stepped others other) ?_
      rw [tracks.atFileLevel, tracks.idle]
      split at done
      · next starts =>
          cases done
          rw [if_pos starts]
          obtain ⟨fileLevel, start⟩ := Bool.and_eq_true_iff.mp starts
          exact tracks.useWord aligned (reads isOne fileLevel start) clear
      · next inside =>
          cases done
          rw [if_neg inside]
          exact skipped
  | classLike kind noFunction stepped =>
      obtain ⟨after, otherDone, tracked⟩ := tracks.classWord here quiet aligned
        ((stepped tokens reader).symm.trans done) (clear noFunction)
      exact single ((stepped others other).trans otherDone) tracked
  | function isOne stepped =>
      obtain ⟨entered, otherDone, tracked | ⟨added, rest, faces⟩⟩ :=
        tracks.functionWord here quiet aligned ((stepped tokens reader).symm.trans done)
      · exact single ((stepped others other).trans otherDone) tracked
      · obtain ⟨after, later, tracked⟩ := faces.exists_tracks
        exact ⟨after, .head ⟨token, there, (stepped others other).trans otherDone⟩ later, tracked⟩

/-- Where the first read makes a move, the second makes one, and more when it goes past code that
was put in. -/
theorem Tracks.moves (spelled : Spelled tokens) (tagged : Tagged tokens) (read : ImportsRead tokens)
    (puts : ∀ brace, isPut brace → Enters tokens brace) (reached : Reached tokens reader)
    (tracks : Tracks isPut tokens others reader other) (moves : Moves tokens reader next) :
    ∃ after, Relation.ReflTransGen (Moves others) other after ∧
      Tracks isPut tokens others next after := by
  obtain ⟨frames, sound⟩ := reached.sound spelled tagged
  have onward := (moves.advances spelled tagged reached).1
  have goesOn := clear_of_moves spelled tagged puts reached moves
  obtain ⟨token, here, done⟩ := moves
  have there := tracks.here here
  have kindHere {kind : TokenKind} (isOne : token.kind = kind) :
      tokens.kindAt reader.pos = some kind := Tokens.kindAt_eq_some.mpr ⟨token, here, isOne⟩
  have clear (noFunction : token.kind ≠ .kwFunction) :
      ∀ brace, isPut brace → reader.pos ≤ brace → next.pos ≤ brace := by
    refine goesOn fun isOne => noFunction ?_
    rw [kindHere rfl] at isOne
    exact Option.some.inj isOne
  have aligned (noFunction : token.kind ≠ .kwFunction) :
      Aligned isPut tokens others (reader.pos + 1) (other.pos + 1) :=
    tracks.aligned.next here fun put =>
      absurd (clear noFunction _ put (Nat.le_refl _)) (Nat.not_le_of_lt onward)
  have single {after : Reader} (step : other.step others token = .ok after)
      (tracked : Tracks isPut tokens others next after) :
      ∃ after, Relation.ReflTransGen (Moves others) other after ∧
        Tracks isPut tokens others next after := ⟨after, .single ⟨token, there, step⟩, tracked⟩
  rcases plain_or tokens reader token with plain | tag | ⟨noTag, literal⟩ | word |
    ⟨isOne, enumeration⟩ | ⟨isOne, closes⟩
  · have noFunction : token.kind ≠ .kwFunction := fun isOne => by
      have word := plain.word
      rw [isOne] at word
      cases word
    obtain ⟨after, otherDone, tracked⟩ :=
      tracks.step_plain here plain done (aligned noFunction)
    exact single otherDone tracked
  · have noFunction : token.kind ≠ .kwFunction := fun isOne => by
      rw [isOne] at tag
      cases tag
    rw [step, if_pos tag] at done
    cases done
    exact single (by rw [step, if_pos tag]) (tracks.markup (aligned noFunction))
  · have noFunction : token.kind ≠ .kwFunction := fun isOne => by
      rw [isOne] at literal
      cases literal
    rw [step, noTag, if_neg Bool.false_ne_true, if_pos literal] at done
    cases done
    exact single (by rw [step, noTag, if_neg Bool.false_ne_true, if_pos literal])
      (tracks.literal (aligned noFunction))
  · exact tracks.step_word here word done clear fun isOne fileLevel start =>
      read.importsAt reached sound (kindHere isOne) fileLevel start
  · have noFunction : token.kind ≠ .kwFunction := isOne ▸ TokenKind.noConfusion
    have quiet : Quiet token.kind := by
      rw [isOne]
      exact ⟨fun _ => rfl, fun _ => rfl, fun _ => rfl⟩
    obtain ⟨after, otherDone, tracked⟩ := tracks.classWord here quiet
      (aligned noFunction) ((step_enumeration isOne enumeration).symm.trans done) (clear noFunction)
    rw [← tracks.isEnumeration_eq (aligned noFunction)] at enumeration
    exact single ((step_enumeration isOne enumeration).trans otherDone) tracked
  · have noFunction : token.kind ≠ .kwFunction := isOne ▸ TokenKind.noConfusion
    rw [step_closeBrace isOne] at done
    cases done
    exact single (step_closeBrace isOne) (tracks.closingBrace closes (aligned noFunction))

theorem Tracks.start (grown : Grown isPut 0 tokens.toList others.toList) :
    Tracks isPut tokens others Reader.start Reader.start := by
  have nothing (tokens : Tokens) : tokens.prevKind 0 = none := by
    rw [Tokens.prevKind, Tokens.prevSignificant, Tokens.lastBefore, Nat.zero_min]
    rfl
  refine (Alike.refl _).tracks ⟨grown, .inl ?_⟩ rfl rfl
  rw [show Reader.start.pos = 0 from rfl, nothing, nothing]

theorem exists_tracks (spelled : Spelled tokens) (tagged : Tagged tokens)
    (read : ImportsRead tokens) (puts : ∀ brace, isPut brace → Enters tokens brace)
    (grown : Grown isPut 0 tokens.toList others.toList) (reached : Reached tokens reader) :
    ∃ other, Reached others other ∧ Tracks isPut tokens others reader other := by
  induction reached with
  | refl => exact ⟨Reader.start, .refl, .start grown⟩
  | tail before moves ih =>
      obtain ⟨other, otherReached, tracks⟩ := ih
      obtain ⟨after, later, tracked⟩ := tracks.moves spelled tagged read puts before moves
      exact ⟨after, otherReached.trans later, tracked⟩

theorem closeAll_alike (others : Tokens) {top otherTop : Frame} {outer otherOuter : List Frame}
    (sameTop : otherTop.shape = top.shape)
    (sameOuter : otherOuter.map Frame.shape = outer.map Frame.shape) {events : List Event}
    (done : closeAll tokens top outer = .ok events) :
    ∃ otherEvents, closeAll others otherTop otherOuter = .ok otherEvents ∧
      events.filterMap Event.declaration? = [] ∧
      otherEvents.filterMap Event.declaration? = [] := by
  induction outer generalizing top otherTop otherOuter events with
  | nil =>
      cases done
      rw [List.map_eq_nil_iff.mp sameOuter]
      exact ⟨[], rfl, rfl, rfl⟩
  | cons next outer ih =>
      obtain ⟨otherNext, otherRest, rfl, sameNext, sameRest⟩ := List.map_eq_cons_iff.mp sameOuter
      have kind : otherTop.kind = top.kind := congrArg Prod.fst sameTop
      rw [closeAll] at done ⊢
      rw [kind]
      split at done
      · next isOpen =>
          rw [if_pos isOpen]
          split at done
          · cases done
          · next later closed =>
              obtain ⟨otherEvents, otherDone, none, otherNone⟩ := ih sameNext sameRest closed
              cases done
              rw [otherDone]
              exact ⟨_, rfl, none, otherNone⟩
      · cases done

/-- A list of tokens that has grown behind the braces of functions is read when the list was, with
the same declarations. -/
theorem eventsOf_grown (spelled : Spelled tokens) (tagged : Tagged tokens)
    (otherSpelled : Spelled others) (otherTagged : Tagged others) (read : ImportsRead tokens)
    (puts : ∀ brace, isPut brace → Enters tokens brace)
    (grown : Grown isPut 0 tokens.toList others.toList) {events : List Event}
    (done : eventsOf tokens = .ok events) :
    ∃ otherEvents, eventsOf others = .ok otherEvents ∧
      otherEvents.filterMap Event.declaration? = events.filterMap Event.declaration? := by
  unfold eventsOf at done
  split at done
  · cases done
  · next reader run =>
      obtain ⟨stands, reached, -⟩ := runWithin_sound spelled tagged .refl
        (Sound.start tokens) (by exact Nat.le_add_left _ _) run
      obtain ⟨other, otherReached, tracks⟩ := exists_tracks spelled tagged read puts grown reached
      have ends : others[other.pos]? = none := by
        rw [tracks.aligned.here, stands]
        exact Array.getElem?_eq_none (Nat.le_refl _)
      have otherRun : runWithin others others.size Reader.start = .ok other :=
        runWithin_of_moves otherSpelled otherTagged .refl (by exact Nat.le_add_left _ _)
          otherReached ends
      have flushed : Alike (reader.flush tokens tokens.size) (other.flush others others.size) :=
        tracks.flush _ _
      simp only at done
      split at done
      · cases done
      · next last closed =>
          cases done
          obtain ⟨otherLast, otherClosed, none, otherNone⟩ :=
            closeAll_alike others flushed.top flushed.outer closed
          refine ⟨(other.flush others others.size).events.toList ++ otherLast, ?_, ?_⟩
          · rw [eventsOf, otherRun]
            simp only [otherClosed]
          · rw [List.filterMap_append, List.filterMap_append, none, otherNone, List.append_nil,
              List.append_nil]
            exact flushed.declared

end PhpWeave.Reader
