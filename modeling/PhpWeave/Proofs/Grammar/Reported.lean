import PhpWeave.Grammar.Construct
import PhpWeave.Proofs.Token.Search

set_option autoImplicit false

/-!
What the reader of a file reports. No node that it makes was put in by a weaver or imports anything
by itself, a namespace has the name that its header spells, and imports are those of a statement
among the tokens. The constructs are gone through once, for all that is to be known of their events.
-/

namespace PhpWeave

/-- A range of tokens that is an import statement, from its word through its semicolon. -/
structure Tokens.IsImport (tokens : Tokens) (first last : Nat) : Prop where
  order : first < last
  word : tokens.kindAt first = some .kwUse
  ends : tokens.kindAt last = some .semicolon
  untagged : ∀ index, first < index → index < last → ∀ token, tokens[index]? = some token →
    token.kind ≠ .closeTag
  read : (Import.read?
    ((tokens.extract (first + 1) last).toList.filter Tokens.isSignificant)).isSome = true

structure Node.Reported (node : Node) (tokens : Tokens) : Prop where
  written : node.flags.synthetic = false
  imports : node.imports = []
  scope : node.kind = .scope → ∃ first count last,
    node.body = tokens.textBetween first (last + 1) ∧
      Reader.scopeHeader tokens count (first + 1) [] = some (last, node.name)
  statement : node.kind = .imports → ∃ first last,
    node.body = tokens.textBetween first (last + 1) ∧ tokens.IsImport first last

def Event.Reported (tokens : Tokens) : Event → Prop
  | .leaf node _ _ | .enter node _ _ => node.Reported tokens
  | .leave _ _ | .yields => True
  | .imports entries => ∃ significant : List Token, (∀ token ∈ significant, token ∈ tokens) ∧
      Import.read? significant = some entries

theorem Node.Reported.plain {node : Node} (written : node.flags.synthetic = false)
    (imports : node.imports = []) (noScope : node.kind ≠ .scope)
    (noStatement : node.kind ≠ .imports) (tokens : Tokens) : node.Reported tokens :=
  ⟨written, imports, fun isOne => absurd isOne noScope, fun isOne => absurd isOne noStatement⟩

namespace Reader

variable {tokens : Tokens} {reader : Reader}

def Reported (tokens : Tokens) (reader : Reader) : Prop :=
  ∀ event ∈ reader.events, event.Reported tokens

theorem Reported.report (reported : Reported tokens reader) {event : Event}
    (known : event.Reported tokens) : Reported tokens (reader.report event) := by
  intro other member
  rcases Array.mem_push.mp member with old | rfl
  · exact reported other old
  · exact known

theorem Reported.leaf (reported : Reported tokens reader) {node : Node} {first last : Nat}
    (known : node.Reported tokens) : Reported tokens (reader.report (.leaf node first last)) :=
  reported.report (show Event.Reported tokens (.leaf _ _ _) from known)

theorem Reported.enter (reported : Reported tokens reader) {node : Node} {first last : Nat}
    (known : node.Reported tokens) : Reported tokens (reader.report (.enter node first last)) :=
  reported.report (show Event.Reported tokens (.enter _ _ _) from known)

theorem Reported.flush (reported : Reported tokens reader) (stop : Nat) :
    Reported tokens (reader.flush tokens stop) := by
  unfold Reader.flush
  simp only
  split
  · have kept : Reported tokens { reader with pending := stop } := reported
    exact kept.leaf (.plain rfl rfl NodeKind.noConfusion NodeKind.noConfusion tokens)
  · exact reported

theorem Reported.closeFrame (reported : Reported tokens reader) (close : Text) (last : Nat) :
    Reported tokens (reader.closeFrame close last) := by
  unfold Reader.closeFrame
  split
  · exact reported
  · next next outer around =>
      have kept : Reported tokens { reader with top := next, outer := outer } := reported
      exact kept.report trivial

theorem Reported.markup (reported : Reported tokens reader) (token : Token) :
    Reported tokens (reader.markup tokens token) := by
  have flags : (if token.kind = .inlineHtml then Flags.none else Flags.fixedCode).synthetic =
      false := by split <;> rfl
  exact (reported.flush reader.pos).leaf
    (.plain flags rfl NodeKind.noConfusion NodeKind.noConfusion tokens)

theorem Reported.namespaceWord (reported : Reported tokens reader) :
    Reported tokens (reader.namespaceWord tokens) := by
  unfold Reader.namespaceWord
  simp only
  split
  · exact reported
  · next last name header =>
      have ended : Reported tokens
          ((reader.flush tokens reader.pos).endOpenScope reader.pos) := by
        unfold Reader.endOpenScope
        split
        · exact (reported.flush _).closeFrame _ _
        · exact reported.flush _
      exact ended.enter ⟨rfl, rfl, fun _ => ⟨_, _, last, rfl, header⟩, NodeKind.noConfusion⟩

theorem Reported.useWord (reported : Reported tokens reader)
    (word : tokens.kindAt reader.pos = some .kwUse) :
    Reported tokens (reader.useWord tokens) := by
  unfold Reader.useWord
  simp only
  split
  · exact reported
  · next last search =>
      split
      · next ends =>
        split
        · exact reported
        · next entries read =>
            have untagged (index : Nat) (behind : reader.pos < index) (before : index < last)
                (token : Token) (here : tokens[index]? = some token) : token.kind ≠ .closeTag := by
              have passed := Tokens.firstFrom_before search index behind before token here
              exact of_decide_eq_false (Bool.or_eq_false_iff.mp passed).2
            have isImport : tokens.IsImport reader.pos last :=
              ⟨(Tokens.firstFrom_some search).1, word, eq_of_beq ends, untagged, by rw [read]; rfl⟩
            have statement : Node.Reported { Node.ofKind .imports with
                body := tokens.textBetween reader.pos (last + 1) } tokens :=
              ⟨rfl, rfl, NodeKind.noConfusion, fun _ => ⟨_, last, rfl, isImport⟩⟩
            have leaf : Reported tokens ((reader.flush tokens reader.pos).report
                (.leaf _ reader.pos last)) := (reported.flush reader.pos).leaf statement
            refine leaf.report ⟨_, fun token member => ?_, read⟩
            have among := (List.mem_filter.mp member).1
            rw [Array.toList_extract] at among
            exact Array.mem_toList_iff.mp (List.mem_of_mem_drop (List.mem_of_mem_take among))
      · exact reported

theorem Reported.classWord (reported : Reported tokens reader) {kind : ClassKind} {next : Reader}
    (done : reader.classWord tokens kind = .ok next) : Reported tokens next := by
  unfold Reader.classWord at done
  simp only at done
  split at done
  · cases done
    exact reported
  · split at done
    · cases done
      exact reported
    · split at done
      · cases done
      · split at done
        · cases done
          exact reported
        · cases done
          exact (reported.flush _).enter (.plain rfl rfl NodeKind.noConfusion NodeKind.noConfusion tokens)

theorem Reported.functionWord (reported : Reported tokens reader) {next : Reader}
    (done : reader.functionWord tokens = .ok next) : Reported tokens next := by
  have function (name : Text) (first index opening close last : Nat) :
      (functionNode tokens reader name first index opening close last).Reported tokens :=
    .plain rfl rfl NodeKind.noConfusion NodeKind.noConfusion tokens
  unfold Reader.functionWord at done
  simp only at done
  split at done
  · cases done
    exact reported
  · split at done
    · cases done
      exact reported
    · split at done
      · split at done
        · cases done
        · split at done
          · cases done
          · split at done
            · cases done
              exact (reported.flush _).enter (function ..)
            · cases done
              exact (reported.flush _).leaf (function ..)
      · cases done
        exact reported

theorem Reported.arrowWord (reported : Reported tokens reader) :
    Reported tokens (reader.arrowWord tokens) := by
  unfold Reader.arrowWord
  simp only
  split
  · exact reported
  · split <;> exact reported

theorem Reported.yieldWord (reported : Reported tokens reader) :
    Reported tokens reader.yieldWord := by
  unfold Reader.yieldWord
  split
  · exact reported
  · exact reported.report (show Event.Reported tokens .yields from trivial)

theorem Reported.flushTop (reported : Reported tokens reader) (change : Frame → Frame)
    (stop : Nat) : Reported tokens ((reader.updateTop change).skip.flush tokens stop) := by
  have kept : Reported tokens (reader.updateTop change).skip := reported
  exact kept.flush stop

theorem Reported.closingBrace (reported : Reported tokens reader) :
    Reported tokens (reader.closingBrace tokens) := by
  unfold Reader.closingBrace
  simp only
  split
  · exact (reported.flush _).closeFrame _ _
  · exact reported.flushTop _ _

theorem Reported.statementEnd (reported : Reported tokens reader) :
    Reported tokens (reader.statementEnd tokens) := by
  have skipped : Reported tokens reader.skip := reported
  unfold Reader.statementEnd
  simp only
  split
  · exact skipped.flush _
  · exact skipped

theorem Reported.step (reported : Reported tokens reader) {token : Token}
    (here : tokens[reader.pos]? = some token) {next : Reader}
    (done : reader.step tokens token = .ok next) : Reported tokens next := by
  unfold Reader.step at done
  split at done
  · cases done
    exact reported.markup token
  · split at done
    · cases done
      exact (reported.flush reader.pos).leaf (.plain rfl rfl NodeKind.noConfusion NodeKind.noConfusion tokens)
    · split at done
      · cases done
        split
        · exact reported.namespaceWord
        · exact reported
      · next isOne =>
        cases done
        split
        · exact reported.useWord (by rw [Tokens.kindAt, here, Option.map_some, isOne])
        · exact reported
      · exact reported.classWord done
      · exact reported.classWord done
      · exact reported.classWord done
      · split at done
        · exact reported.classWord done
        · split at done
          · cases done
            exact reported.arrowWord
          · cases done
            exact reported
      · exact reported.functionWord done
      · cases done
        exact reported.yieldWord
      · cases done
        exact reported.flushTop _ _
      · cases done
        exact reported.closingBrace
      · cases done
        exact reported
      · cases done
        exact reported
      · cases done
        exact reported.statementEnd
      · cases done
        exact reported

theorem Reported.runWithin {fuel : Nat} (reported : Reported tokens reader) {last : Reader}
    (done : runWithin tokens fuel reader = .ok last) : Reported tokens last := by
  induction fuel generalizing reader with
  | zero =>
      cases done
      exact reported
  | succ fuel ih =>
      rw [Reader.runWithin] at done
      split at done
      · cases done
        exact reported
      · next token here =>
        split at done
        · cases done
        · next next stepped => exact ih (reported.step here stepped) done

theorem reported_closeAll {top : Frame} {outer : List Frame} {last : List Event}
    (done : closeAll tokens top outer = .ok last) : ∀ event ∈ last, event.Reported tokens := by
  induction outer generalizing top last with
  | nil =>
      cases done
      exact fun _ none => by cases none
  | cons next outer ih =>
      rw [closeAll] at done
      split at done
      · split at done
        · cases done
        · next rest closed =>
            cases done
            intro event member
            rcases List.mem_cons.mp member with rfl | later
            · trivial
            · exact ih closed event later
      · cases done

theorem reported_eventsOf {events : List Event} (done : eventsOf tokens = .ok events) :
    ∀ event ∈ events, event.Reported tokens := by
  unfold eventsOf at done
  split at done
  · cases done
  · next reader run =>
      have fresh : Reported tokens Reader.start := fun _ none => absurd none (Array.not_mem_empty _)
      have reported := (fresh.runWithin run).flush tokens.size
      simp only at done
      split at done
      · cases done
      · next last closed =>
          cases done
          intro event member
          rcases List.mem_append.mp member with early | late
          · exact reported event (Array.mem_toList_iff.mp early)
          · exact reported_closeAll closed event late

end Reader
end PhpWeave
