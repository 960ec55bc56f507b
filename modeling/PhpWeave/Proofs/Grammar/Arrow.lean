import PhpWeave.Proofs.Grammar.Course

set_option autoImplicit false

/-!
Arrow functions while a file is read. At every word that an arrow function begins with the read
remembers where its body ends and how many constructs are open there, so at a later word it knows
the last one whose body goes on behind the word. A function is flagged where it is innermost when it
is reported that one yields.
-/

namespace PhpWeave

/-! ### The flag -/

namespace Outline

variable {tokens : Tokens} {outline : Outline} {covered : Nat}

/-- An event flags the innermost function if it is the report that it yields. -/
theorem Laid.generator_take (laid : Laid tokens outline covered) {event : Event}
    (silent : ∀ node, event.node? = some node → node.flags.generator = false) (id : Nat) :
    ((outline.take event).tree.node id).flags.generator = true ↔
      (outline.tree.node id).flags.generator = true ∨
        event = .yields ∧ outline.innermost .function = some id := by
  have kept {new : Tree} (same : (new.node id).flags.generator =
      (outline.tree.node id).flags.generator) (noYield : event ≠ .yields) :
      (new.node id).flags.generator = true ↔
        (outline.tree.node id).flags.generator = true ∨
          event = .yields ∧ outline.innermost .function = some id := by
    rw [same]
    exact ⟨.inl, fun either => either.resolve_right fun both => noYield both.1⟩
  have attached (node : Node) (first last : Nat) (quiet : node.flags.generator = false) :
      ((outline.attach node first last).tree.node id).flags.generator =
        (outline.tree.node id).flags.generator := by
    rcases Nat.lt_trichotomy id outline.tree.size with old | rfl | outside
    · rw [tree_attach]
      have silent (node : Node) (children : List Nat) :
          ({ node with children := children } : Node).flags.generator = node.flags.generator := rfl
      exact Tree.node_push_property (fun node => node.flags.generator) silent old laid.current_lt _
    · rw [laid.node_attach, Tree.node_of_size_le (Nat.le_refl _)]
      exact quiet
    · rw [Tree.node_of_size_le (Nat.le_of_lt outside),
        Tree.node_of_size_le (by rw [size_attach]; exact outside)]
  cases event with
  | leaf node first last => exact kept (attached node first last (silent node rfl)) Event.noConfusion
  | enter node first last =>
      exact kept (attached node first last (silent node rfl)) Event.noConfusion
  | leave close last =>
      refine kept ?_ Event.noConfusion
      cases entered : outline.entered with
      | nil => rw [take, entered]
      | cons entry rest =>
          rw [take_leave entered]
          have silent (node : Node) :
              (closedBy close node).flags.generator = node.flags.generator := rfl
          exact Tree.node_update_property (fun node => node.flags.generator) silent id
  | imports entries =>
      refine kept ?_ Event.noConfusion
      obtain ⟨other, same⟩ := outline.take_imports entries
      rw [same]
      have silent (node : Node) :
          (importing entries node).flags.generator = node.flags.generator := rfl
      exact Tree.node_update_property (fun node => node.flags.generator) silent id
  | yields =>
      cases found : outline.innermost .function with
      | none =>
          have same : outline.take .yields = outline := by rw [take, found]
          rw [same]
          exact ⟨.inl, fun either => either.resolve_right fun both => by cases both.2⟩
      | some function =>
          have same : (outline.take .yields).tree = outline.tree.update function yielding := by
            rw [take, found]
            rfl
          rw [same]
          by_cases here : id = function
          · subst here
            rw [Tree.node_update_self (laid.innermost_lt found)]
            exact ⟨fun _ => .inr ⟨rfl, rfl⟩, fun _ => rfl⟩
          · rw [Tree.node_update_of_ne here]
            exact ⟨.inl, fun either => either.resolve_right fun both =>
              here (Option.some.inj both.2).symm⟩

/-- The flagged functions are those that were innermost when it was reported that one yields. -/
theorem generator_of_derives {events : List Event} {point : Point}
    (derives : Derives tokens events point)
    (silent : ∀ event ∈ events, ∀ node, event.node? = some node → node.flags.generator = false)
    (id : Nat) : ((ofEvents events).tree.node id).flags.generator = true ↔
      ∃ before after, events = before ++ .yields :: after ∧
        (ofEvents before).innermost .function = some id := by
  induction derives with
  | start =>
      constructor
      · intro flagged
        rcases Nat.lt_or_ge id 1 with first | beyond
        · rw [Nat.lt_one_iff.mp first] at flagged
          cases flagged
        · rw [show (ofEvents []).tree.node id = Node.ofKind .code from
            Tree.node_of_size_le beyond] at flagged
          cases flagged
      · rintro ⟨before, after, none, -⟩
        simp at none
  | @step events event point next derives step ih =>
      obtain ⟨laid, -⟩ := laid_of_derives derives
      rw [ofEvents_snoc, laid.generator_take (silent event (by simp)),
        ih fun other member => silent other (List.mem_append_left _ member)]
      constructor
      · rintro (⟨before, after, rfl, innermost⟩ | ⟨rfl, innermost⟩)
        · exact ⟨before, after ++ [event], by simp, innermost⟩
        · exact ⟨events, [], rfl, innermost⟩
      · rintro ⟨before, after, split, innermost⟩
        rcases List.eq_nil_or_concat after with rfl | ⟨after, last, rfl⟩
        · obtain ⟨rfl, same⟩ := List.append_inj' split rfl
          exact .inr ⟨List.singleton_inj.mp same, innermost⟩
        · rw [List.concat_eq_append, ← List.cons_append, ← List.append_assoc] at split
          exact .inl ⟨before, after, (List.append_inj' split rfl).1, innermost⟩

end Outline

/-! ### Arrow functions -/

namespace Tokens

variable {tokens : Tokens}

theorem expressionEndWithin_lt_size {count depth index stop : Nat}
    (found : tokens.expressionEndWithin count depth index = some stop) : stop < tokens.size := by
  induction count generalizing depth index with
  | zero => cases found
  | succ count ih =>
      rw [expressionEndWithin] at found
      cases here : tokens.kindAt index with
      | none =>
          rw [here] at found
          cases found
      | some kind =>
          rw [here] at found
          simp only at found
          have ends {depth other : Nat} (found : (if depth = 0 then some index
              else tokens.expressionEndWithin count other (index + 1)) = some stop) :
              stop < tokens.size := by
            split at found
            · exact Option.some.inj found ▸ lt_size_of_kindAt here
            · exact ih found
          split at found <;> first | exact ih found | exact ends found

theorem arrowStop?_le_size {index stop : Nat} (begins : tokens.arrowStop? index = some stop) :
    stop ≤ tokens.size := by
  obtain ⟨token, -, begins⟩ := Option.bind_eq_some_iff.mp begins
  split at begins
  · obtain ⟨body, -, rfl⟩ := Option.map_eq_some_iff.mp begins
    rw [expressionEnd]
    cases found : tokens.expressionEndWithin (tokens.size - body) 0 body with
    | none => exact Nat.le_refl _
    | some stop => exact Nat.le_of_lt (expressionEndWithin_lt_size found)
  · cases begins

end Tokens

namespace Reader

variable {tokens : Tokens} {reader next : Reader} {token : Token}

theorem Header.no_arrow {node : Node} {first last : Nat}
    (header : Header tokens reader token node first last)
    (here : tokens[reader.pos]? = some token) : tokens.arrowStop? reader.pos = none := by
  have declares := header.declares
  unfold Declares at declares
  have ofMarkup {kind : TokenKind} (isOne : kind.isMarkup = true) : kind ≠ .identifier := by
    rintro rfl
    cases isOne
  have ofLiteral {kind : TokenKind} (isOne : kind.isLiteral = true) : kind ≠ .identifier := by
    rintro rfl
    cases isOne
  split at declares
  · exact declares.elim
  · exact arrowStop?_of_kind here (declares.1 ▸ TokenKind.noConfusion)
  · exact arrowStop?_of_kind here (declares.1 ▸ TokenKind.noConfusion)
  · rcases declares.1 with isOne | isOne | isOne | ⟨-, isWord⟩
    · exact arrowStop?_of_kind here (isOne ▸ TokenKind.noConfusion)
    · exact arrowStop?_of_kind here (isOne ▸ TokenKind.noConfusion)
    · exact arrowStop?_of_kind here (isOne ▸ TokenKind.noConfusion)
    · exact arrowStop?_of_word here isWord (by decide)
  · exact arrowStop?_of_kind here (declares.1 ▸ TokenKind.noConfusion)
  · exact arrowStop?_of_kind here (ofMarkup declares.1)
  · exact arrowStop?_of_kind here (ofLiteral declares.1)

theorem closeFrame_arrows (close : Text) (last : Nat) :
    (reader.closeFrame close last).arrows = reader.arrows := by
  unfold closeFrame
  split <;> rfl

theorem endOpenScope_arrows (index : Nat) :
    (reader.endOpenScope index).arrows = reader.arrows := by
  unfold endOpenScope
  split
  · exact closeFrame_arrows _ _
  · rfl

theorem Stride.arrows (stride : Stride tokens reader token next)
    (here : tokens[reader.pos]? = some token) :
    next.arrows = ((tokens.arrowStop? reader.pos).map fun stop =>
      ArrowBody.mk stop reader.depth).toList ++ reader.arrows := by
  have kept (none : tokens.arrowStop? reader.pos = none) (same : next.arrows = reader.arrows) :
      next.arrows = ((tokens.arrowStop? reader.pos).map fun stop =>
        ArrowBody.mk stop reader.depth).toList ++ reader.arrows := by
    rw [none, same]
    rfl
  have symbol {kind : TokenKind} (isOne : token.kind = kind) (other : kind ≠ .identifier) :=
    arrowStop?_of_kind here (isOne ▸ other)
  cases stride with
  | leaf header isOne noImports => exact kept (header.no_arrow here) (flush_arrows _)
  | imports header => exact kept (header.no_arrow here) (flush_arrows _)
  | enter header opens brace => exact kept (header.no_arrow here) (flush_arrows _)
  | scope level header isOne =>
      exact kept (header.no_arrow here) ((endOpenScope_arrows _).trans (flush_arrows _))
  | leave isOne closes =>
      exact kept (symbol isOne TokenKind.noConfusion)
        ((closeFrame_arrows _ _).trans (flush_arrows _))
  | astray isOne level start search => exact kept (symbol isOne TokenKind.noConfusion) rfl
  | arrow begins =>
      rw [begins]
      rfl
  | yields isOne own => exact kept (symbol isOne TokenKind.noConfusion) rfl
  | opening isOne => exact kept (symbol isOne TokenKind.noConfusion) (flush_arrows _)
  | closing isOne stays => exact kept (symbol isOne TokenKind.noConfusion) (flush_arrows _)
  | openingParen isOne => exact kept (symbol isOne TokenKind.noConfusion) rfl
  | closingParen isOne => exact kept (symbol isOne TokenKind.noConfusion) rfl
  | ending isOne outside => exact kept (symbol isOne TokenKind.noConfusion) (flush_arrows _)
  | idle idle => exact kept idle.arrow rfl

def NoneReaches (tokens : Tokens) (index since until_ : Nat) : Prop :=
  ∀ reader, Reached tokens reader → since < reader.pos → reader.pos < until_ →
    ∀ stop, tokens.arrowStop? reader.pos = some stop → stop ≤ index

section Whole

variable (spelled : Spelled tokens) (tagged : Tagged tokens)
include spelled tagged

/-- What a read remembers of a token it has not come to yet: the last arrow function whose body goes
on behind the token. -/
theorem find_arrows (reached : Reached tokens reader) (index : Nat) :
    match reader.arrows.find? fun body => index < body.stop with
    | none => ∀ other, Reached tokens other → other.pos < reader.pos →
        ∀ stop, tokens.arrowStop? other.pos = some stop → stop ≤ index
    | some body => ∃ other, Reached tokens other ∧ other.pos < reader.pos ∧
        tokens.arrowStop? other.pos = some body.stop ∧ index < body.stop ∧
        other.depth = body.depth ∧ NoneReaches tokens index other.pos reader.pos := by
  induction reached with
  | refl => exact fun other _ before => absurd before (Nat.not_lt_zero _)
  | @tail reader next reached moves ih =>
      obtain ⟨token, goes⟩ := moves.goes spelled tagged reached
      -- A state before the next one is before this one, or this one itself.
      have early {other : Reader} (known : Reached tokens other) (before : other.pos < next.pos) :
          other.pos < reader.pos ∨ other = reader := by
        rcases Nat.lt_or_ge other.pos reader.pos with less | more
        · exact .inl less
        · rcases known.total spelled tagged reached with same | ⟨after, step, near⟩ |
            ⟨after, step, near⟩
          · exact .inr same
          · have onward := (step.advances spelled tagged known).1
            omega
          · obtain rfl := moves_unique moves step
            omega
      -- An arrow function that ends too early changes nothing for the token.
      have kept (short : ∀ stop, tokens.arrowStop? reader.pos = some stop → stop ≤ index) :
          match reader.arrows.find? fun body => index < body.stop with
          | none => ∀ other, Reached tokens other → other.pos < next.pos →
              ∀ stop, tokens.arrowStop? other.pos = some stop → stop ≤ index
          | some body => ∃ other, Reached tokens other ∧ other.pos < next.pos ∧
              tokens.arrowStop? other.pos = some body.stop ∧ index < body.stop ∧
              other.depth = body.depth ∧ NoneReaches tokens index other.pos next.pos := by
        cases found : reader.arrows.find? fun body => index < body.stop with
        | none =>
            rw [found] at ih
            intro other known before stop isStop
            rcases early known before with less | rfl
            · exact ih other known less stop isStop
            · exact short stop isStop
        | some body =>
            rw [found] at ih
            obtain ⟨other, known, before, isStop, further, depth, between⟩ := ih
            refine ⟨other, known, Nat.lt_trans before goes.onward, isStop, further, depth, ?_⟩
            intro later isLater behind upto stop laterStop
            rcases early isLater upto with less | rfl
            · exact between later isLater behind less stop laterStop
            · exact short stop laterStop
      rw [goes.stride.arrows goes.here]
      cases begins : tokens.arrowStop? reader.pos with
      | none => exact kept fun stop isStop => by rw [begins] at isStop; cases isStop
      | some stop =>
          rw [Option.map_some, Option.toList_some, List.singleton_append, List.find?_cons]
          by_cases reaches : index < stop
          · rw [decide_eq_true reaches]
            refine ⟨reader, reached, goes.onward, begins, reaches, rfl, ?_⟩
            intro later isLater behind upto
            rcases early isLater upto with less | rfl <;> omega
          · rw [decide_eq_false reaches]
            refine kept fun other isStop => ?_
            rw [begins] at isStop
            cases isStop
            exact Nat.le_of_not_lt reaches

theorem Reached.inArrowBody_iff (reached : Reached tokens reader) (index : Nat) :
    reader.inArrowBody index = true ↔ ∃ other stop, Reached tokens other ∧
      other.pos < reader.pos ∧ tokens.arrowStop? other.pos = some stop ∧ index < stop ∧
      other.depth = reader.depth ∧ NoneReaches tokens index other.pos reader.pos := by
  have found := find_arrows spelled tagged reached index
  unfold inArrowBody
  cases search : reader.arrows.find? fun body => index < body.stop with
  | none =>
      rw [search] at found
      constructor
      · intro none
        cases none
      · rintro ⟨other, stop, known, before, isStop, reaches, -⟩
        exact absurd reaches (Nat.not_lt_of_le (found other known before stop isStop))
  | some body =>
      rw [search] at found
      obtain ⟨other, known, before, isStop, reaches, depth, between⟩ := found
      simp only [beq_iff_eq]
      constructor
      · intro same
        exact ⟨other, body.stop, known, before, isStop, reaches, depth.trans same, between⟩
      · rintro ⟨another, stop, isOne, early, ends, further, level, rest⟩
        have same : other = another := by
          refine known.eq_of_pos spelled tagged isOne ?_
          rcases Nat.lt_trichotomy other.pos another.pos with less | equal | more
          · exact absurd further (Nat.not_lt_of_le (between another isOne less early stop ends))
          · exact equal
          · exact absurd reaches (Nat.not_lt_of_le (rest other known more before _ isStop))
        rw [← depth, same, level]

theorem yields_of_split {events before after : List Event} (done : eventsOf tokens = .ok events)
    (split : events = before ++ .yields :: after) : ∃ reader, Reached tokens reader ∧
      reader.events.toList = before ∧ tokens.kindAt reader.pos = some .kwYield ∧
      reader.inArrowBody reader.pos = false := by
  have told : Splits (fun before event => event = .yields → ∃ reader, Reached tokens reader ∧
      reader.events.toList = before ∧ tokens.kindAt reader.pos = some .kwYield ∧
      reader.inArrowBody reader.pos = false) events := by
    refine forall_reports spelled tagged done ?_ ?_ ?_ ?_ ?_
    · rintro reader stop - event member rfl
      unfold plainEvents at member
      split at member
      · cases List.mem_singleton.mp member
      · cases member
    · intro before reader token node first last reached header here
      exact ⟨fun none => (by cases none), fun none => (by cases none)⟩
    · exact fun _ _ _ none => by cases none
    · exact fun reader reached isYield own _ => ⟨reader, reached, rfl, isYield, own⟩
    · exact fun _ _ none => by cases none
  exact told before .yields after split rfl

end Whole

end Reader

end PhpWeave
