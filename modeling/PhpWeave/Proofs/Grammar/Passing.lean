import PhpWeave.Proofs.Grammar.Listing
import PhpWeave.Proofs.Grammar.Run
import PhpWeave.Proofs.Token.Growth

set_option autoImplicit false

/-!
Tokens that a read steps over. A token where no construct begins or ends changes the counts of the
innermost frame and what is pending, and nothing else that a read depends on. So a read goes past
code that closes what it opens, and is where it was.
-/

namespace PhpWeave

def Frame.shape (frame : Frame) : FrameKind × Nat × Nat := (frame.kind, frame.braces, frame.parens)

theorem Frame.of_shape {frame : Frame} {kind : FrameKind} {braces parens : Nat}
    (same : frame.shape = (kind, braces, parens)) :
    frame.kind = kind ∧ frame.braces = braces ∧ frame.parens = parens := by
  simpa only [Frame.shape, Prod.mk.injEq] using same

/-- The range of the plain code that an event reports. -/
def Event.piece? : Event → Option (Nat × Nat)
  | .leaf node first last | .enter node first last =>
    if node.isEditable then some (first, last + 1) else none
  | _ => none

namespace Reader

open Scan

variable {tokens others : Tokens} {index : Nat} {token : Token} {reader next other : Reader}

/-! ### Starts of statements -/

theorem atStatementStart_of_pending_le (none : index ≤ reader.pending) :
    reader.atStatementStart tokens index = true := by
  unfold atStatementStart
  split
  · rfl
  · next first found => exact decide_eq_true (Nat.le_trans none (Tokens.nextSignificant_ge found))

theorem atStatementStart_succ (here : tokens[index]? = some token)
    (before : reader.pending ≤ index) : reader.atStatementStart tokens (index + 1) =
      (reader.atStatementStart tokens index && token.kind.isTrivia) := by
  unfold atStatementStart
  cases found : tokens.nextSignificant reader.pending with
  | none =>
      obtain ⟨gap, rfl⟩ := Nat.exists_eq_add_of_le before
      have trivia := Tokens.firstFrom_none found here
      rw [Tokens.isSignificant, Bool.not_eq_false'] at trivia
      exact trivia.symm
  | some first =>
      obtain ⟨-, significant, there, isOne⟩ := Tokens.firstFrom_some found
      rcases Nat.lt_trichotomy index first with early | rfl | late
      · have trivia := Tokens.firstFrom_before found index before early token here
        rw [Tokens.isSignificant, Bool.not_eq_false'] at trivia
        simp [trivia, Nat.le_of_lt early, Nat.succ_le_of_lt early]
      · rw [here] at there
        cases there
        rw [Tokens.isSignificant, Bool.not_eq_true'] at isOne
        simp [isOne]
      · have passed : ¬ index ≤ first := Nat.not_le_of_lt late
        have passedNext : ¬ index + 1 ≤ first := fun ahead => passed (Nat.le_of_succ_le ahead)
        simp only [decide_eq_false passed, decide_eq_false passedNext, Bool.false_and]

/-- Where a statement starts at a token, nothing but trivia is pending in front of it. -/
theorem blank_of_atStatementStart (start : reader.atStatementStart tokens index = true)
    (before : reader.pending ≤ index) (here : tokens[index]? = some token)
    (solid : Tokens.isSignificant token = true) :
    ∀ other, reader.pending ≤ other → other < index →
      ∀ token, tokens[other]? = some token → Tokens.isSignificant token = false := by
  unfold atStatementStart at start
  cases search : tokens.nextSignificant reader.pending with
  | none =>
      rw [← Nat.add_sub_cancel' before] at here
      rw [Tokens.firstFrom_none search here] at solid
      cases solid
  | some first =>
      rw [search] at start
      intro other behind early
      exact Tokens.firstFrom_before search other behind
        (Nat.lt_of_lt_of_le early (of_decide_eq_true start))

/-! ### Readers that have reported the same -/

def declared (reader : Reader) : List (NodeKind × Text × Bool) :=
  reader.events.toList.filterMap Event.declaration?

def pieces (reader : Reader) : List (Nat × Nat) := reader.events.toList.filterMap Event.piece?

/-- The piece that the pending tokens before a position become; there may be none. -/
def pendingPiece (reader : Reader) (stop : Nat) : List (Nat × Nat) :=
  if reader.pending < stop then [(reader.pending, stop)] else []

structure Abreast (reader other : Reader) : Prop where
  top : other.top.shape = reader.top.shape
  outer : other.outer.map Frame.shape = reader.outer.map Frame.shape

/-- Two reads that have the same constructs open and have declared the same. -/
structure Alike (reader other : Reader) : Prop extends Abreast reader other where
  declared : other.declared = reader.declared

theorem declared_report (event : Event) :
    (reader.report event).declared = reader.declared ++ event.declaration?.toList := by
  rw [declared, report, Array.toList_push, List.filterMap_append, List.filterMap_cons]
  cases event.declaration? <;> rfl

theorem declared_flush (stop : Nat) : (reader.flush tokens stop).declared = reader.declared := by
  unfold flush
  simp only
  split
  · rw [declared_report]
    exact List.append_nil _
  · rfl

theorem declared_closeFrame (close : Text) (last : Nat) :
    (reader.closeFrame close last).declared = reader.declared := by
  unfold closeFrame
  split
  · rfl
  · rw [declared_report]
    exact List.append_nil _

theorem declared_endOpenScope (index : Nat) :
    (reader.endOpenScope index).declared = reader.declared := by
  unfold endOpenScope
  split
  · exact declared_closeFrame _ _
  · rfl

theorem pieces_report (event : Event) :
    (reader.report event).pieces = reader.pieces ++ event.piece?.toList := by
  rw [pieces, report, Array.toList_push, List.filterMap_append, List.filterMap_cons]
  cases event.piece? <;> rfl

theorem pieces_flush (stop : Nat) :
    (reader.flush tokens stop).pieces = reader.pieces ++ reader.pendingPiece stop := by
  unfold flush pendingPiece
  simp only
  split
  · next filled =>
      have range : stop - 1 + 1 = stop := by omega
      rw [pieces_report]
      change reader.pieces ++ [(reader.pending, stop - 1 + 1)] = _
      rw [range]
  · exact (List.append_nil _).symm

theorem pieces_closeFrame (close : Text) (last : Nat) :
    (reader.closeFrame close last).pieces = reader.pieces := by
  unfold closeFrame
  split
  · rfl
  · rw [pieces_report]
    exact List.append_nil _

theorem pieces_endOpenScope (index : Nat) :
    (reader.endOpenScope index).pieces = reader.pieces := by
  unfold endOpenScope
  split
  · exact pieces_closeFrame _ _
  · rfl

namespace Abreast

theorem refl (reader : Reader) : Abreast reader reader := ⟨rfl, rfl⟩

variable (abreast : Abreast reader other)
include abreast

theorem kind : other.top.kind = reader.top.kind := (Frame.of_shape abreast.top).1

theorem braces : other.top.braces = reader.top.braces := (Frame.of_shape abreast.top).2.1

theorem parens : other.top.parens = reader.top.parens := (Frame.of_shape abreast.top).2.2

theorem atFileLevel : other.atFileLevel = reader.atFileLevel := by
  unfold Reader.atFileLevel
  rw [abreast.kind, abreast.braces]

theorem closesFrame : closesFrame other.top = closesFrame reader.top := by
  unfold Reader.closesFrame
  rw [abreast.kind, abreast.braces]

theorem flush (stop otherStop : Nat) :
    Abreast (reader.flush tokens stop) (other.flush others otherStop) where
  top := by rw [flush_top, flush_top, abreast.top]
  outer := by rw [flush_outer, flush_outer, abreast.outer]

theorem openFrame (kind : FrameKind) (first otherFirst : Nat) :
    Abreast (reader.openFrame kind first) (other.openFrame kind otherFirst) where
  top := rfl
  outer := by
    change other.top.shape :: other.outer.map Frame.shape = _
    rw [abreast.top, abreast.outer]
    rfl

theorem closeFrame (close : Text) (last otherLast : Nat) :
    Abreast (reader.closeFrame close last) (other.closeFrame close otherLast) := by
  have outer := abreast.outer
  unfold Reader.closeFrame
  cases around : reader.outer with
  | nil =>
      rw [around] at outer
      rw [List.map_eq_nil_iff.mp outer]
      exact abreast
  | cons frame rest =>
      rw [around] at outer
      obtain ⟨frame', rest', around', top, below⟩ := List.map_eq_cons_iff.mp outer
      rw [around']
      exact ⟨top, below⟩

theorem endOpenScope (index otherIndex : Nat) :
    Abreast (reader.endOpenScope index) (other.endOpenScope otherIndex) := by
  unfold Reader.endOpenScope
  rw [abreast.kind]
  split
  · exact abreast.closeFrame _ _ _
  · exact abreast

end Abreast

namespace Alike

theorem refl (reader : Reader) : Alike reader reader := ⟨.refl reader, rfl⟩

variable (alike : Alike reader other)
include alike

theorem report {first second : Event} (same : second.declaration? = first.declaration?) :
    Alike (reader.report first) (other.report second) where
  top := alike.top
  outer := alike.outer
  declared := by rw [declared_report, declared_report, alike.declared, same]

theorem flush (stop otherStop : Nat) :
    Alike (reader.flush tokens stop) (other.flush others otherStop) where
  toAbreast := alike.toAbreast.flush _ _
  declared := by rw [declared_flush, declared_flush, alike.declared]

theorem openFrame (kind : FrameKind) (first otherFirst : Nat) :
    Alike (reader.openFrame kind first) (other.openFrame kind otherFirst) where
  toAbreast := alike.toAbreast.openFrame _ _ _
  declared := alike.declared

theorem closeFrame (close : Text) (last otherLast : Nat) :
    Alike (reader.closeFrame close last) (other.closeFrame close otherLast) where
  toAbreast := alike.toAbreast.closeFrame _ _ _
  declared := by rw [declared_closeFrame, declared_closeFrame, alike.declared]

theorem endOpenScope (index otherIndex : Nat) :
    Alike (reader.endOpenScope index) (other.endOpenScope otherIndex) where
  toAbreast := alike.toAbreast.endOpenScope _ _
  declared := by rw [declared_endOpenScope, declared_endOpenScope, alike.declared]

end Alike

/-! ### Tokens that begin and end no construct -/

structure Plain (tokens : Tokens) (reader : Reader) (token : Token) : Prop where
  tag : token.kind.isMarkup = false
  literal : token.kind.isLiteral = false
  word : beginsConstruct token.kind = false
  enumeration : token.kind = .identifier → isEnumeration tokens reader token = false
  partner : token.kind = .closeBrace → closesFrame reader.top = false

/-- Whether nothing is pending behind a token, with some parentheses open. -/
def settlesAt (kind : TokenKind) (parens : Nat) : Bool :=
  match kind with
  | .openBrace | .closeBrace => true
  | .semicolon => parens == 0
  | _ => false

/-- A read steps over a token. -/
structure Passes (reader : Reader) (token : Token) (next : Reader) : Prop where
  pos : next.pos = reader.pos + 1
  pending : next.pending =
    if settlesAt token.kind reader.top.parens then reader.pos + 1 else reader.pending
  top : next.top.shape = (reader.top.kind, bracesAfter token.kind reader.top.braces,
    parensAfter token.kind reader.top.parens)
  outer : next.outer = reader.outer
  declared : next.declared = reader.declared
  pieces : next.pieces = reader.pieces ++
    if settlesAt token.kind reader.top.parens then reader.pendingPiece (reader.pos + 1) else []

structure Quiet (kind : TokenKind) : Prop where
  braces : ∀ braces, bracesAfter kind braces = braces
  parens : ∀ parens, parensAfter kind parens = parens
  pending : ∀ parens, settlesAt kind parens = false

theorem quiet_of_ne {kind : TokenKind} (noBrace : kind ≠ .openBrace) (noClose : kind ≠ .closeBrace)
    (noParen : kind ≠ .openParen) (noCloseParen : kind ≠ .closeParen)
    (noSemicolon : kind ≠ .semicolon) : Quiet kind where
  braces := fun _ => by rw [bracesAfter, if_neg noBrace, if_neg noClose]
  parens := fun _ => by rw [parensAfter, if_neg noParen, if_neg noCloseParen]
  pending := fun _ => by
    unfold settlesAt
    split
    · contradiction
    · contradiction
    · contradiction
    · rfl

theorem quiet_of_word {kind : TokenKind} (word : beginsConstruct kind = true) : Quiet kind := by
  have differs {other : TokenKind} (none : beginsConstruct other = false) : kind ≠ other :=
    fun isOne => by
      rw [isOne, none] at word
      cases word
  exact quiet_of_ne (differs rfl) (differs rfl) (differs rfl) (differs rfl) (differs rfl)

inductive Word (token : Token) : Prop where
  | scope (isOne : token.kind = .kwNamespace)
      (stepped : ∀ (tokens : Tokens) (reader : Reader), reader.step tokens token =
        .ok (if reader.atFileLevel then reader.namespaceWord tokens else reader.skip))
  | imports (isOne : token.kind = .kwUse)
      (stepped : ∀ (tokens : Tokens) (reader : Reader), reader.step tokens token =
        .ok (if reader.atFileLevel && reader.atStatementStart tokens reader.pos then
          reader.useWord tokens else reader.skip))
  | classLike (kind : ClassKind) (noFunction : token.kind ≠ .kwFunction)
      (stepped : ∀ (tokens : Tokens) (reader : Reader),
        reader.step tokens token = reader.classWord tokens kind)
  | function (isOne : token.kind = .kwFunction)
      (stepped : ∀ (tokens : Tokens) (reader : Reader),
        reader.step tokens token = reader.functionWord tokens)

theorem word_of_beginsConstruct (word : beginsConstruct token.kind = true) : Word token := by
  unfold beginsConstruct at word
  split at word
  · next isOne => exact .scope isOne fun _ _ => by rw [step, isOne]; rfl
  · next isOne => exact .imports isOne fun _ _ => by rw [step, isOne]; rfl
  · next isOne =>
      exact .classLike .ordinary (isOne ▸ TokenKind.noConfusion) fun _ _ => by rw [step, isOne]; rfl
  · next isOne =>
      exact .classLike .interfaceLike (isOne ▸ TokenKind.noConfusion) fun _ _ => by
        rw [step, isOne]
        rfl
  · next isOne =>
      exact .classLike .traitLike (isOne ▸ TokenKind.noConfusion) fun _ _ => by
        rw [step, isOne]
        rfl
  · next isOne => exact .function isOne fun _ _ => by rw [step, isOne]; rfl
  · cases word

theorem step_enumeration (isOne : token.kind = .identifier)
    (enumeration : isEnumeration tokens reader token = true) :
    reader.step tokens token = reader.classWord tokens .enumeration := by
  rw [step, isOne]
  exact if_pos enumeration

theorem step_closeBrace (isOne : token.kind = .closeBrace) :
    reader.step tokens token = .ok (reader.closingBrace tokens) := by
  rw [step, isOne]
  rfl

theorem Quiet.passes (quiet : Quiet token.kind) (pos : next.pos = reader.pos + 1)
    (pending : next.pending = reader.pending) (top : next.top = reader.top)
    (outer : next.outer = reader.outer) (declared : next.declared = reader.declared)
    (pieces : next.pieces = reader.pieces) : Passes reader token next where
  pos := pos
  pending := by rw [quiet.pending, if_neg Bool.false_ne_true, pending]
  top := by
    rw [quiet.braces, quiet.parens, top]
    rfl
  outer := outer
  declared := declared
  pieces := by rw [quiet.pending, if_neg Bool.false_ne_true, List.append_nil, pieces]

theorem passes_skip (quiet : Quiet token.kind) : Passes reader token reader.skip :=
  quiet.passes rfl rfl rfl rfl rfl rfl

theorem passes_arrowWord (quiet : Quiet token.kind) :
    Passes reader token (reader.arrowWord tokens) := by
  unfold arrowWord
  simp only
  split
  · exact passes_skip quiet
  · split
    · exact passes_skip quiet
    · exact quiet.passes rfl rfl rfl rfl rfl rfl

theorem passes_yieldWord (quiet : Quiet token.kind) : Passes reader token reader.yieldWord := by
  unfold yieldWord
  split
  · exact passes_skip quiet
  · refine quiet.passes rfl rfl rfl rfl ?_ ?_
    · change (reader.report .yields).declared = _
      rw [declared_report]
      exact List.append_nil _
    · change (reader.report .yields).pieces = _
      rw [pieces_report]
      exact List.append_nil _

theorem passes_flush (change : Frame → Frame)
    (settles : settlesAt token.kind reader.top.parens = true)
    (counts : (change reader.top).shape = (reader.top.kind,
      bracesAfter token.kind reader.top.braces, parensAfter token.kind reader.top.parens)) :
    Passes reader token ((reader.updateTop change).skip.flush tokens (reader.pos + 1)) where
  pos := by
    rw [flush_pos]
    rfl
  pending := by rw [flush_pending, if_pos settles]
  top := by
    rw [flush_top]
    exact counts
  outer := by
    rw [flush_outer]
    rfl
  declared := by
    rw [declared_flush]
    rfl
  pieces := by
    rw [pieces_flush, if_pos settles]
    rfl

theorem passes_step (plain : Plain tokens reader token) :
    ∃ next, reader.step tokens token = .ok next ∧ Passes reader token next := by
  have word := plain.word
  unfold step
  rw [plain.tag, plain.literal]
  simp only [Bool.false_eq_true, if_false]
  split
  · next isOne => exact absurd word (by rw [isOne]; exact Bool.noConfusion)
  · next isOne => exact absurd word (by rw [isOne]; exact Bool.noConfusion)
  · next isOne => exact absurd word (by rw [isOne]; exact Bool.noConfusion)
  · next isOne => exact absurd word (by rw [isOne]; exact Bool.noConfusion)
  · next isOne => exact absurd word (by rw [isOne]; exact Bool.noConfusion)
  · next isOne =>
      have quiet : Quiet token.kind := by
        rw [isOne]
        exact ⟨fun _ => rfl, fun _ => rfl, fun _ => rfl⟩
      rw [plain.enumeration isOne, if_neg Bool.false_ne_true]
      split
      · exact ⟨_, rfl, passes_arrowWord quiet⟩
      · exact ⟨_, rfl, passes_skip quiet⟩
  · next isOne => exact absurd word (by rw [isOne]; exact Bool.noConfusion)
  · next isOne =>
      have quiet : Quiet token.kind := by
        rw [isOne]
        exact ⟨fun _ => rfl, fun _ => rfl, fun _ => rfl⟩
      exact ⟨_, rfl, passes_yieldWord quiet⟩
  · next isOne =>
      refine ⟨_, rfl, passes_flush _ ?_ ?_⟩
      · rw [isOne]
        rfl
      · rw [isOne]
        rfl
  · next isOne =>
      unfold closingBrace
      rw [plain.partner isOne]
      refine ⟨_, rfl, passes_flush _ ?_ ?_⟩
      · rw [isOne]
        rfl
      · rw [isOne]
        rfl
  · next isOne =>
      exact ⟨_, rfl, rfl, by rw [isOne]; rfl, by rw [isOne]; rfl, rfl, rfl,
        by rw [isOne]; exact (List.append_nil _).symm⟩
  · next isOne =>
      exact ⟨_, rfl, rfl, by rw [isOne]; rfl, by rw [isOne]; rfl, rfl, rfl,
        by rw [isOne]; exact (List.append_nil _).symm⟩
  · next isOne =>
      unfold statementEnd
      simp only
      split
      · next closed =>
          refine ⟨_, rfl, passes_flush id ?_ ?_⟩
          · rw [isOne, show reader.top.parens = 0 from closed]
            rfl
          · rw [isOne]
            rfl
      · next opened =>
          have goesOn : ¬ settlesAt token.kind reader.top.parens = true := by
            rw [isOne]
            exact fun closed => opened (eq_of_beq closed)
          refine ⟨_, rfl, rfl, ?_, ?_, rfl, rfl, ?_⟩
          · rw [if_neg goesOn]
            rfl
          · rw [isOne]
            rfl
          · rw [if_neg goesOn, List.append_nil]
            rfl
  · next noBrace noClose noParen noCloseParen noSemicolon =>
      exact ⟨_, rfl, passes_skip (quiet_of_ne noBrace noClose noParen noCloseParen noSemicolon)⟩

/-! ### Reading what was put in -/

theorem plain_of_inert (inert : isInert (shape token) = true)
    (brace : token.kind = .closeBrace → reader.top.braces ≠ 0) : Plain tokens reader token := by
  obtain ⟨⟨⟨⟨⟨tag, literal⟩, word⟩, noEnum⟩, -⟩, -⟩ := by
    simpa only [isInert, shape, Bool.and_eq_true, Bool.not_eq_true'] using inert
  refine ⟨tag, literal, word, fun _ => ?_, fun isOne => ?_⟩
  · rw [isEnumeration, show token.isWord "enum" = false from noEnum]
    rfl
  · rw [closesFrame, beq_false_of_ne (brace isOne)]
    rfl

/-- A read has gone past code that closes what it opens. -/
structure Crosses (tokens : Tokens) (reader : Reader) (braces parens : Nat) (added : List Token)
    (last : Reader) : Prop where
  moves : Relation.ReflTransGen (Moves tokens) reader last
  pos : last.pos = reader.pos + added.length
  top : last.top.shape = (reader.top.kind, braces, parens)
  outer : last.outer = reader.outer
  declared : last.declared = reader.declared
  stays : added = [] → last = reader
  pending : added.getLast?.map Token.kind = some .closeBrace → last.pending = last.pos
  keeps : (∀ token ∈ added, ∀ parens, settlesAt token.kind parens = false) →
    last.pending = reader.pending ∧ last.pieces = reader.pieces

/-- Code that closes what it opens leaves open what was open in front of it. -/
theorem exists_crosses {added rest : List Token} {braces parens : Nat} {kind : FrameKind}
    (settled : settles braces parens (added.map shape) = true) {aroundBraces aroundParens : Nat}
    (top : reader.top.shape = (kind, aroundBraces + braces, aroundParens + parens))
    (stands : tokens.toList.drop reader.pos = added ++ rest) :
    ∃ last, Crosses tokens reader aroundBraces aroundParens added last := by
  induction added generalizing reader braces parens with
  | nil =>
      obtain ⟨noBraces, noParens⟩ := Bool.and_eq_true_iff.mp settled
      obtain ⟨-, braces, parens⟩ := Frame.of_shape top
      refine ⟨reader, .refl, rfl, ?_, rfl, rfl, fun _ => rfl, fun none => (by cases none),
        fun _ => ⟨rfl, rfl⟩⟩
      rw [Frame.shape, braces, parens, eq_of_beq noBraces, eq_of_beq noParens]
      rfl
  | cons token added ih =>
      obtain ⟨here, later⟩ := getElem?_of_drop stands
      have walks := walks_of_settles settled
      obtain ⟨sameKind, sameBraces, sameParens⟩ := Frame.of_shape top
      have opened : token.kind = .closeBrace → reader.top.braces ≠ 0 := fun isOne => by
        have some := walks.brace isOne
        omega
      have plain : Plain tokens reader token := plain_of_inert walks.inert opened
      obtain ⟨next, done, passes⟩ := passes_step plain
      have onward : next.top.shape = (kind, aroundBraces + bracesAfter token.kind braces,
          aroundParens + parensAfter token.kind parens) := by
        rw [passes.top, sameKind, sameBraces, sameParens, walks.braces, walks.parens]
      obtain ⟨last, crosses⟩ := ih walks.later onward (passes.pos ▸ later)
      have nextKind : next.top.kind = reader.top.kind := (Frame.of_shape passes.top).1
      refine ⟨last, .head ⟨token, here, done⟩ crosses.moves, ?_, ?_, ?_, ?_,
        fun none => (by cases none), fun ends => ?_, fun silent => ?_⟩
      · rw [crosses.pos, passes.pos, List.length_cons]
        omega
      · rw [crosses.top, nextKind]
      · rw [crosses.outer, passes.outer]
      · rw [crosses.declared, passes.declared]
      · cases added with
        | nil =>
            have brace : token.kind = .closeBrace := Option.some.inj ends
            obtain rfl := crosses.stays rfl
            rw [passes.pending, passes.pos, brace]
            rfl
        | cons second added =>
            rw [List.getLast?_cons_cons] at ends
            exact crosses.pending ends
      · obtain ⟨noSettling, others⟩ := List.forall_mem_cons.mp silent
        obtain ⟨pending, pieces⟩ := crosses.keeps others
        rw [pending, pieces, passes.pending, passes.pieces, noSettling,
          if_neg Bool.false_ne_true, if_neg Bool.false_ne_true, List.append_nil]
        exact ⟨rfl, rfl⟩

end Reader
end PhpWeave
