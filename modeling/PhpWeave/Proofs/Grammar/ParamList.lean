import Mathlib.Data.List.ReduceOption
import PhpWeave.Proofs.Grammar.Course
import PhpWeave.Proofs.Token.Balance

set_option autoImplicit false

/-!
What a parameter list declares. In a list whose brackets are properly nested a token stands outside
brackets when the tokens in front of it are balanced themselves. The list is cut at the commas
outside brackets, and every segment is told by its first variable there. The two scans that read a
list carry a depth each; both pass over balanced tokens as if over one.
-/

namespace PhpWeave.Param

/-- Tokens whose round, square and curly brackets are properly nested. The opening of an attribute
counts for no bracket, as in the scans. -/
inductive Balanced : List Token → Prop where
  | nil : Balanced []
  | plain {token : Token} {rest : List Token}
      (opensNone : ∀ bracket : Bracket, token.kind ≠ bracket.opening)
      (closesNone : ∀ bracket : Bracket, token.kind ≠ bracket.closing) (later : Balanced rest) :
      Balanced (token :: rest)
  | span {bracket : Bracket} {opening closing : Token} {inner rest : List Token}
      (opens : opening.kind = bracket.opening) (closes : closing.kind = bracket.closing)
      (within : Balanced inner) (later : Balanced rest) :
      Balanced (opening :: (inner ++ closing :: rest))

/-- No token of a kind stands outside brackets. -/
def Lacks (kind : TokenKind) (tokens : List Token) : Prop :=
  ∀ front token back, tokens = front ++ token :: back → Balanced front → token.kind ≠ kind

/-- A token is the first of a kind that stands outside brackets, between those in front of it and
those behind it. -/
structure First (kind : TokenKind) (tokens front : List Token) (token : Token)
    (back : List Token) : Prop where
  split : tokens = front ++ token :: back
  outside : Balanced front
  isOne : token.kind = kind
  noneBefore : Lacks kind front

/-- The segments that the commas outside brackets cut a list into. -/
inductive Cut : List Token → List (List Token) → Prop where
  | last {tokens : List Token} (lacks : Lacks .comma tokens) : Cut tokens [tokens]
  | comma {tokens segment rest : List Token} {comma : Token} {more : List (List Token)}
      (first : First .comma tokens segment comma rest) (later : Cut rest more) :
      Cut tokens (segment :: more)

/-- The parameter that a segment declares. -/
inductive Declares : List Token → Option Param → Prop where
  | nothing {segment : List Token} (lacks : Lacks .variableName segment) : Declares segment none
  | bare {segment front back : List Token} {named : Token}
      (first : First .variableName segment front named back) (lacks : Lacks .assign back) :
      Declares segment (some ⟨named.text, []⟩)
  | defaulting {segment front back middle default : List Token} {named equals : Token}
      (first : First .variableName segment front named back)
      (assigned : First .assign back middle equals default) :
      Declares segment (some ⟨named.text, Text.trim (Token.textOf default)⟩)

/-! ### Balanced tokens -/

theorem opening_injective {bracket other : Bracket} (same : bracket.opening = other.opening) :
    bracket = other := by
  cases bracket <;> cases other <;> first | rfl | cases same

theorem Balanced.head {token : Token} {rest : List Token} (balanced : Balanced (token :: rest))
    (bracket : Bracket) : token.kind ≠ bracket.closing := by
  cases balanced with
  | plain _ closesNone _ => exact closesNone bracket
  | span opens _ _ _ =>
      rw [opens]
      exact Bracket.opening_ne_closing _ bracket

theorem Balanced.tail {token : Token} {rest : List Token} (balanced : Balanced (token :: rest))
    (opensNone : ∀ bracket : Bracket, token.kind ≠ bracket.opening) : Balanced rest := by
  cases balanced with
  | plain _ _ later => exact later
  | span opens _ _ _ => exact absurd opens (opensNone _)

theorem Balanced.inside {token : Token} {rest : List Token} (balanced : Balanced (token :: rest))
    {bracket : Bracket} (opens : token.kind = bracket.opening) :
    ∃ inner closing later, rest = inner ++ closing :: later ∧ closing.kind = bracket.closing ∧
      Balanced inner ∧ Balanced later := by
  cases balanced with
  | plain opensNone _ _ => exact absurd opens (opensNone bracket)
  | span opened closes within later =>
      have same := opening_injective (opened.symm.trans opens)
      subst same
      exact ⟨_, _, _, rfl, closes, within, later⟩

theorem Balanced.append {front back : List Token} (before : Balanced front)
    (behind : Balanced back) : Balanced (front ++ back) := by
  induction before with
  | nil => exact behind
  | plain opensNone closesNone _ ih => exact .plain opensNone closesNone ih
  | span opens closes within _ _ ih =>
      rw [List.cons_append, List.append_assoc, List.cons_append]
      exact .span opens closes within ih

/-- What is balanced ends where the first bracket closes that was not opened in it. -/
theorem Balanced.unique {inner : List Token} (balanced : Balanced inner) :
    ∀ {other rest later : List Token} {closing end_ : Token} {bracket final : Bracket},
      Balanced other → closing.kind = bracket.closing → end_.kind = final.closing →
      inner ++ closing :: rest = other ++ end_ :: later →
      inner = other ∧ closing = end_ ∧ rest = later := by
  induction balanced with
  | nil =>
      intro other rest later closing end_ bracket final others closes ends same
      cases other with
      | nil =>
          obtain ⟨rfl, rfl⟩ := List.cons.inj same
          exact ⟨rfl, rfl, rfl⟩
      | cons token other =>
          obtain ⟨rfl, -⟩ := List.cons.inj same
          exact absurd closes (others.head bracket)
  | plain opensNone closesNone _ ih =>
      intro other rest later closing end_ bracket final others closes ends same
      cases other with
      | nil =>
          obtain ⟨rfl, -⟩ := List.cons.inj same
          exact absurd ends (closesNone final)
      | cons token other =>
          obtain ⟨rfl, behind⟩ := List.cons.inj same
          obtain ⟨rfl, rest⟩ := ih (others.tail opensNone) closes ends behind
          exact ⟨rfl, rest⟩
  | span opens closed _ _ ihWithin ihLater =>
      intro other rest later closing end_ bracket final others closes ends same
      cases other with
      | nil =>
          obtain ⟨rfl, -⟩ := List.cons.inj same
          rw [opens] at ends
          exact absurd ends (Bracket.opening_ne_closing _ final)
      | cons token other =>
          rw [List.cons_append, List.cons_append] at same
          obtain ⟨rfl, behind⟩ := List.cons.inj same
          obtain ⟨middle, partner, last, rfl, closesToo, within, onward⟩ := others.inside opens
          rw [List.append_assoc, List.append_assoc, List.cons_append, List.cons_append] at behind
          obtain ⟨rfl, rfl, further⟩ := ihWithin within closed closesToo behind
          obtain ⟨rfl, rest⟩ := ihLater onward closes ends further
          exact ⟨rfl, rest⟩

/-- Behind a balanced front the rest of what is balanced is balanced. -/
theorem Balanced.cancel {front back : List Token} (before : Balanced front)
    (whole : Balanced (front ++ back)) : Balanced back := by
  induction before with
  | nil => exact whole
  | plain opensNone _ _ ih => exact ih (whole.tail opensNone)
  | span opens closes within _ _ ih =>
      rw [List.cons_append, List.append_assoc, List.cons_append] at whole
      obtain ⟨inner, closing, later, same, closesToo, others, onward⟩ := whole.inside opens
      obtain ⟨-, -, rfl⟩ := within.unique others closes closesToo same
      exact ih onward

/-! ### The first token of a kind -/

variable {kind : TokenKind} {tokens front back : List Token}

theorem Lacks.head {token : Token} {rest : List Token} (lacks : Lacks kind (token :: rest)) :
    token.kind ≠ kind := lacks [] token rest rfl .nil

theorem Lacks.behind (lacks : Lacks kind (front ++ back)) (balanced : Balanced front) :
    Lacks kind back := by
  intro before token rest split outside
  subst split
  exact lacks (front ++ before) token rest (List.append_assoc ..).symm (balanced.append outside)

theorem lacks_or_first (kind : TokenKind) (tokens : List Token) :
    Lacks kind tokens ∨ ∃ front token back, First kind tokens front token back := by
  by_cases lacks : Lacks kind tokens
  · exact .inl lacks
  · right
    unfold Lacks at lacks
    push Not at lacks
    obtain ⟨front, token, back, split, outside, isOne⟩ := lacks
    -- the front that is shortest has none before
    induction length : front.length using Nat.strongRecOn
      generalizing front token back with
    | _ count ih =>
      by_cases noneBefore : Lacks kind front
      · exact ⟨front, token, back, split, outside, isOne, noneBefore⟩
      · unfold Lacks at noneBefore
        push Not at noneBefore
        obtain ⟨before, earlier, between, rfl, outsideToo, isOneToo⟩ := noneBefore
        refine ih before.length ?_ before earlier (between ++ token :: back) ?_ outsideToo
          isOneToo rfl
        · rw [← length, List.length_append, List.length_cons]
          omega
        · rw [split, List.append_assoc, List.cons_append]

theorem First.behind {token : Token} (first : First kind tokens front token back)
    (balanced : Balanced tokens) (opensNone : ∀ bracket : Bracket, kind ≠ bracket.opening) :
    Balanced back := by
  have whole := balanced
  rw [first.split] at whole
  refine (first.outside.cancel whole).tail ?_
  rw [first.isOne]
  exact opensNone

/-! ### Scans that carry a depth -/

theorem depthAfter_opening {token : Token} {bracket : Bracket}
    (opens : token.kind = bracket.opening) (depth : Nat) :
    depthAfter depth token = depth + 1 := by
  cases bracket <;> simp only [depthAfter, opens, Bracket.opening]

theorem depthAfter_closing {token : Token} {bracket : Bracket}
    (closes : token.kind = bracket.closing) (depth : Nat) :
    depthAfter depth token = depth - 1 := by
  cases bracket <;> simp only [depthAfter, closes, Bracket.closing]

theorem depthAfter_plain {token : Token}
    (opensNone : ∀ bracket : Bracket, token.kind ≠ bracket.opening)
    (closesNone : ∀ bracket : Bracket, token.kind ≠ bracket.closing) (depth : Nat) :
    depthAfter depth token = depth := by
  unfold depthAfter
  split
  · next opens => exact absurd opens (opensNone .paren)
  · next opens => exact absurd opens (opensNone .square)
  · next opens => exact absurd opens (opensNone .curly)
  · next closes => exact absurd closes (closesNone .paren)
  · next closes => exact absurd closes (closesNone .square)
  · next closes => exact absurd closes (closesNone .curly)
  · rfl

def Passes {α : Type} (kind : TokenKind) (put : Token → α → α)
    (scan : Nat → List Token → α) : Prop :=
  ∀ depth token rest, (depth = 0 → token.kind ≠ kind) →
    scan depth (token :: rest) = put token (scan (depthAfter depth token) rest)

variable {α : Type} {put : Token → α → α} {scan : Nat → List Token → α}

theorem Passes.within (passes : Passes kind put scan) (balanced : Balanced front) :
    ∀ (depth : Nat) (back : List Token),
      scan (depth + 1) (front ++ back) = front.foldr put (scan (depth + 1) back) := by
  have deep (depth : Nat) (token : Token) : depth + 1 = 0 → token.kind ≠ kind :=
    fun shallow => absurd shallow (Nat.succ_ne_zero depth)
  induction balanced with
  | nil => intro depth back; rfl
  | plain opensNone closesNone _ ih =>
      intro depth back
      rw [List.cons_append, passes _ _ _ (deep depth _), depthAfter_plain opensNone closesNone, ih]
      rfl
  | span opens closes _ _ ihWithin ihLater =>
      intro depth back
      rw [List.cons_append, List.append_assoc, List.cons_append, passes _ _ _ (deep depth _),
        depthAfter_opening opens, ihWithin, passes _ _ _ (deep (depth + 1) _),
        depthAfter_closing closes, Nat.add_sub_cancel, ihLater, List.foldr_cons,
        List.foldr_append, List.foldr_cons]

theorem Passes.outside (passes : Passes kind put scan) (balanced : Balanced front) :
    Lacks kind front → ∀ back, scan 0 (front ++ back) = front.foldr put (scan 0 back) := by
  induction balanced with
  | nil => intro lacks back; rfl
  | @plain token rest opensNone closesNone _ ih =>
      intro lacks back
      have alone : Balanced [token] := .plain opensNone closesNone .nil
      have later : Lacks kind rest := Lacks.behind lacks alone
      rw [List.cons_append, passes _ _ _ (fun _ => lacks.head),
        depthAfter_plain opensNone closesNone, ih later]
      rfl
  | @span bracket opening closing inner rest opens closes within _ _ ih =>
      intro lacks back
      have enclosed : Balanced (opening :: (inner ++ [closing])) := .span opens closes within .nil
      have later : Lacks kind rest := by
        refine Lacks.behind ?_ enclosed
        rw [List.cons_append, List.append_assoc]
        exact lacks
      rw [List.cons_append, List.append_assoc, List.cons_append, passes _ _ _ (fun _ => lacks.head),
        depthAfter_opening opens, passes.within within,
        passes _ _ _ (fun shallow => absurd shallow (Nat.succ_ne_zero 0)),
        depthAfter_closing closes, ih later, List.foldr_cons, List.foldr_append, List.foldr_cons]

/-! ### Segments -/

theorem segments_ne_nil (depth : Nat) (tokens : List Token) : segments depth tokens ≠ [] := by
  cases tokens with
  | nil => exact List.cons_ne_nil _ _
  | cons token rest =>
      rw [segments]
      split
      · exact List.cons_ne_nil _ _
      · split <;> exact List.cons_ne_nil _ _

theorem passes_segments :
    Passes .comma (fun token => List.modifyHead (token :: ·)) segments := by
  intro depth token rest stays
  have passed : ¬ (decide (token.kind = .comma) && decide (depth = 0)) = true := by
    rw [Bool.and_eq_true, decide_eq_true_iff, decide_eq_true_iff]
    exact fun both => stays both.2 both.1
  rw [segments, if_neg passed]
  cases cut : segments (depthAfter depth token) rest with
  | nil => exact absurd cut (segments_ne_nil _ _)
  | cons segment more => rfl

theorem foldr_modifyHead (front segment : List Token) (more : List (List Token)) :
    front.foldr (fun token => List.modifyHead (token :: ·)) (segment :: more) =
      (front ++ segment) :: more := by
  induction front with
  | nil => rfl
  | cons token front ih => rw [List.foldr_cons, ih, List.modifyHead_cons, List.cons_append]

theorem comma_ne_opening (bracket : Bracket) : TokenKind.comma ≠ bracket.opening := by
  cases bracket <;> decide

theorem cut_segments (balanced : Balanced tokens) : Cut tokens (segments 0 tokens) := by
  induction length : tokens.length using Nat.strongRecOn generalizing tokens with
  | _ count ih =>
    rcases lacks_or_first .comma tokens with lacks | ⟨segment, comma, rest, first⟩
    · have whole := passes_segments.outside balanced lacks []
      rw [segments, foldr_modifyHead, List.append_nil] at whole
      rw [whole]
      exact .last lacks
    · have cut := passes_segments.outside first.outside first.noneBefore (comma :: rest)
      rw [segments, if_pos (by simp only [first.isOne, decide_true, Bool.and_self]),
        foldr_modifyHead, List.append_nil, ← first.split] at cut
      rw [cut]
      refine .comma first (ih rest.length ?_ (first.behind balanced comma_ne_opening) rfl)
      rw [← length, first.split, List.length_append, List.length_cons]
      omega

theorem First.unique {token other : Token} {before rest : List Token}
    (first : First kind tokens front token back) (second : First kind tokens before other rest) :
    front = before ∧ token = other ∧ back = rest := by
  have same := first.split.symm.trans second.split
  rcases List.append_eq_append_iff.mp same with ⟨more, rfl, behind⟩ | ⟨more, rfl, behind⟩
  · cases more with
    | nil =>
        obtain ⟨rfl, rfl⟩ := List.cons.inj behind
        exact ⟨(List.append_nil _).symm, rfl, rfl⟩
    | cons next more =>
        obtain ⟨rfl, -⟩ := List.cons.inj behind
        exact absurd first.isOne (second.noneBefore front _ more rfl first.outside)
  · cases more with
    | nil =>
        obtain ⟨rfl, rfl⟩ := List.cons.inj behind
        exact ⟨List.append_nil _, rfl, rfl⟩
    | cons next more =>
        obtain ⟨rfl, -⟩ := List.cons.inj behind
        exact absurd second.isOne (first.noneBefore before _ more rfl second.outside)

theorem First.not_lacks {token : Token} (first : First kind tokens front token back) :
    ¬ Lacks kind tokens := fun lacks =>
  lacks front token back first.split first.outside first.isOne

theorem Cut.unique {cuts others : List (List Token)} (cut : Cut tokens cuts) :
    Cut tokens others → cuts = others := by
  induction cut generalizing others with
  | last lacks =>
      intro other
      cases other with
      | last _ => rfl
      | comma first _ => exact absurd lacks first.not_lacks
  | comma first _ ih =>
      intro other
      cases other with
      | last lacks => exact absurd lacks first.not_lacks
      | comma second later =>
          obtain ⟨rfl, rfl, rfl⟩ := first.unique second
          rw [ih later]

theorem Cut.balanced {cuts : List (List Token)} (cut : Cut tokens cuts) :
    Balanced tokens → ∀ segment ∈ cuts, Balanced segment := by
  induction cut with
  | last lacks =>
      intro balanced segment among
      rw [List.mem_singleton.mp among]
      exact balanced
  | comma first _ ih =>
      intro balanced segment among
      rcases List.mem_cons.mp among with rfl | among
      · exact first.outside
      · exact ih (first.behind balanced comma_ne_opening) segment among

/-! ### Parameters -/

def wanted : Option Text → TokenKind
  | none => .variableName
  | some _ => .assign

theorem passes_ofSegment (found : Option Text) :
    Passes (wanted found) (fun _ param => param) (ofSegment · found) := by
  intro depth token rest stays
  cases found with
  | none =>
      have passed : ¬ (depth = 0 ∧ token.kind = .variableName ∧ (none : Option Text) = none) :=
        fun all => stays all.1 all.2.1
      change ofSegment depth none (token :: rest) = ofSegment (depthAfter depth token) none rest
      rw [ofSegment, if_neg passed]
  | some name =>
      have passed : ¬ (depth = 0 ∧ token.kind = .assign) := fun both => stays both.1 both.2
      have noName : ¬ (depth = 0 ∧ token.kind = .variableName ∧ some name = none) :=
        fun all => Option.some_ne_none _ all.2.2
      change ofSegment depth (some name) (token :: rest) =
        ofSegment (depthAfter depth token) (some name) rest
      rw [ofSegment, if_neg noName]
      exact if_neg passed

theorem foldr_skip {β : Type} (front : List Token) (result : β) :
    front.foldr (fun _ result => result) result = result := by
  induction front with
  | nil => rfl
  | cons token front ih => rw [List.foldr_cons, ih]

theorem variable_ne_opening (bracket : Bracket) : TokenKind.variableName ≠ bracket.opening := by
  cases bracket <;> decide

theorem ofSegment_outside (found : Option Text) (balanced : Balanced front)
    (lacks : Lacks (wanted found) front) (back : List Token) :
    ofSegment 0 found (front ++ back) = ofSegment 0 found back := by
  have passed := (passes_ofSegment found).outside balanced lacks back
  rw [foldr_skip] at passed
  exact passed

theorem declares_ofSegment (balanced : Balanced tokens) :
    Declares tokens (ofSegment 0 none tokens) := by
  rcases lacks_or_first .variableName tokens with lacks | ⟨front, named, back, first⟩
  · have passed := ofSegment_outside none balanced lacks []
    rw [List.append_nil] at passed
    rw [passed]
    exact .nothing lacks
  · have behind := first.behind balanced variable_ne_opening
    have begun : ofSegment 0 none tokens = ofSegment 0 (some named.text) back := by
      rw [first.split, ofSegment_outside none first.outside first.noneBefore, ofSegment,
        if_pos ⟨rfl, first.isOne, rfl⟩]
    rw [begun]
    rcases lacks_or_first .assign back with lacks | ⟨middle, equals, default, assigned⟩
    · have passed := ofSegment_outside (some named.text) behind lacks []
      rw [List.append_nil] at passed
      rw [passed]
      exact .bare first lacks
    · have isNoVariable : ¬ ((0 : Nat) = 0 ∧ equals.kind = .variableName ∧
          some named.text = none) := fun all => Option.some_ne_none _ all.2.2
      have read : ofSegment 0 (some named.text) back =
          some ⟨named.text, Text.trim (Token.textOf default)⟩ := by
        rw [assigned.split, ofSegment_outside (some named.text) assigned.outside
          assigned.noneBefore, ofSegment, if_neg isNoVariable]
        exact if_pos ⟨rfl, assigned.isOne⟩
      rw [read]
      exact .defaulting first assigned

theorem Declares.unique {param other : Option Param} (declares : Declares tokens param)
    (declared : Declares tokens other) : param = other := by
  cases declares with
  | nothing lacks =>
      cases declared with
      | nothing _ => rfl
      | bare first _ => exact absurd lacks first.not_lacks
      | defaulting first _ => exact absurd lacks first.not_lacks
  | bare first lacks =>
      cases declared with
      | nothing lacks => exact absurd lacks first.not_lacks
      | bare second _ =>
          obtain ⟨-, rfl, -⟩ := first.unique second
          rfl
      | defaulting second assigned =>
          obtain ⟨-, -, rfl⟩ := first.unique second
          exact absurd lacks assigned.not_lacks
  | defaulting first assigned =>
      cases declared with
      | nothing lacks => exact absurd lacks first.not_lacks
      | bare second lacks =>
          obtain ⟨-, -, rfl⟩ := first.unique second
          exact absurd lacks assigned.not_lacks
      | defaulting second equally =>
          obtain ⟨-, rfl, rfl⟩ := first.unique second
          obtain ⟨-, -, rfl⟩ := assigned.unique equally
          rfl

theorem listOf_iff (balanced : Balanced tokens) (params : List Param) :
    listOf tokens = params ↔ ∃ cuts declared, Cut tokens cuts ∧
      List.Forall₂ Declares cuts declared ∧ params = declared.reduceOption := by
  have cut := cut_segments balanced
  have each : List.Forall₂ Declares (segments 0 tokens)
      ((segments 0 tokens).map (ofSegment 0 none)) := by
    rw [List.forall₂_map_right_iff, List.forall₂_same]
    exact fun segment among => declares_ofSegment (cut.balanced balanced segment among)
  have read : listOf tokens = ((segments 0 tokens).map (ofSegment 0 none)).reduceOption := by
    rw [listOf, List.reduceOption, List.filterMap_map]
    rfl
  constructor
  · rintro rfl
    exact ⟨_, _, cut, each, read⟩
  · rintro ⟨cuts, declared, otherCut, others, rfl⟩
    obtain rfl := cut.unique otherCut
    have oneEach : Relator.RightUnique Declares := fun _ _ _ => Declares.unique
    rw [read, List.right_unique_forall₂' oneEach each others]

/-! ### Between parentheses -/

theorem drop_behind {whole front back : List Token} {index : Nat}
    (stands : whole.drop index = front ++ back) : whole.drop (index + front.length) = back := by
  rw [← List.drop_drop, stands, List.drop_left]

/-- Inside parentheses the search for their end passes over what is balanced. -/
theorem balancedWithin_balanced {tokens : Tokens} {inner : List Token}
    (balanced : Balanced inner) :
    ∀ {depth index : Nat} {rest : List Token}, depth ≠ 0 →
      tokens.toList.drop index = inner ++ rest →
      tokens.balancedWithin .paren (tokens.size - index) depth index =
        tokens.balancedWithin .paren (tokens.size - (index + inner.length)) depth
          (index + inner.length) := by
  induction balanced with
  | nil => intros; rfl
  | @plain token inner opensNone closesNone _ ih =>
      intro depth index rest deep stands
      obtain ⟨here, behind⟩ := getElem?_of_drop stands
      have noOpening : token.kind ≠ .openParen := opensNone .paren
      have noClosing : token.kind ≠ .closeParen := closesNone .paren
      have stays : parensAfter token.kind depth = depth := by
        rw [parensAfter, if_neg noOpening, if_neg noClosing]
      have passes : ¬ (token.kind = .closeParen ∧ depth ≤ 1) := fun both => noClosing both.1
      rw [balancedWithin_here here, if_neg passes, stays, ih deep behind, List.length_cons,
        Nat.add_right_comm, Nat.add_assoc]
  | @span bracket opening closing inner rest opens closes _ _ ihWithin ihLater =>
      intro depth index behind deep stands
      obtain ⟨deeper, isDeeper⟩ : ∃ deeper, parensAfter opening.kind depth = deeper := ⟨_, rfl⟩
      have around : deeper ≠ 0 ∧ parensAfter closing.kind deeper = depth ∧
          ¬ (closing.kind = .closeParen ∧ deeper ≤ 1) := by
        rw [opens] at isDeeper
        rw [closes]
        subst isDeeper
        cases bracket with
        | paren =>
            exact ⟨Nat.succ_ne_zero _, rfl,
              fun both => deep (Nat.le_zero.mp (Nat.le_of_succ_le_succ both.2))⟩
        | square => exact ⟨deep, rfl, fun both => TokenKind.noConfusion both.1⟩
        | curly => exact ⟨deep, rfl, fun both => TokenKind.noConfusion both.1⟩
      have passes : ¬ (opening.kind = .closeParen ∧ depth ≤ 1) := fun both =>
        Bracket.opening_ne_closing bracket .paren (opens.symm.trans both.1)
      rw [List.cons_append, List.append_assoc, List.cons_append] at stands
      obtain ⟨here, within⟩ := getElem?_of_drop stands
      obtain ⟨there, further⟩ := getElem?_of_drop (drop_behind within)
      rw [balancedWithin_here here, if_neg passes, isDeeper, ihWithin around.1 within,
        balancedWithin_here there, if_neg around.2.2, around.2.1, ihLater deep further]
      simp only [List.length_cons, List.length_append]
      congr 1 <;> omega

theorem closing_of_balanced {tokens : Tokens} {opening close : Nat}
    (opens : tokens.isAt opening .openParen = true) (closes : tokens.isAt close .closeParen = true)
    (before : opening < close)
    (balanced : Balanced (tokens.extract (opening + 1) close).toList) :
    tokens.closing .paren opening = .ok close := by
  obtain ⟨first, here, isOpening⟩ := Tokens.kindAt_eq_some.mp (eq_of_beq opens)
  obtain ⟨last, there, isClosing⟩ := Tokens.kindAt_eq_some.mp (eq_of_beq closes)
  obtain ⟨inside, rfl⟩ := Array.getElem?_eq_some_iff.mp there
  have stands : tokens.toList.drop (opening + 1) =
      (tokens.extract (opening + 1) close).toList ++ tokens.toList.drop close := by
    rw [Array.toList_extract, List.extract_eq_take_drop]
    conv_lhs => rw [← List.take_append_drop (close - (opening + 1)) (tokens.toList.drop _)]
    rw [List.drop_drop, show opening + 1 + (close - (opening + 1)) = close by omega]
  have length : opening + 1 + (tokens.extract (opening + 1) close).toList.length = close := by
    rw [Array.length_toList, Array.size_extract]
    omega
  have found := balancedWithin_balanced balanced Nat.one_ne_zero stands
  rw [length, balancedWithin_here there, if_pos ⟨isClosing, Nat.le_refl 1⟩,
    ← balancedWithin_open here isOpening] at found
  rw [Tokens.closing, here]
  simp only [Bracket.opening, isOpening, reduceIte, found]

/-- A list of parameters between parentheses, its brackets properly nested: the parentheses are
partners, and the parameters are those of the segments that the commas outside brackets cut the list
into, one for each segment with a variable outside brackets. -/
theorem listOf_of_balanced {tokens : Tokens} {opening close : Nat}
    (opens : tokens.isAt opening .openParen = true) (closes : tokens.isAt close .closeParen = true)
    (before : opening < close)
    (balanced : Balanced (tokens.extract (opening + 1) close).toList) :
    tokens.closing .paren opening = .ok close ∧
      ∀ params, listOf (tokens.extract (opening + 1) close).toList = params ↔
        ∃ cuts declared, Cut (tokens.extract (opening + 1) close).toList cuts ∧
          List.Forall₂ Declares cuts declared ∧ params = declared.reduceOption :=
  ⟨closing_of_balanced opens closes before balanced, listOf_iff balanced⟩

/-- A list with a bracketed default and one parameter more. -/
theorem listOf_of_balanced_default :
    ∃ tokens : Tokens, Token.textOf tokens.toList = "($a = [1, 2], $b)".toList ∧
      tokens.closing .paren 0 = .ok 14 ∧
      listOf (tokens.extract 1 14).toList =
        [⟨"$a".toList, "[1, 2]".toList⟩, ⟨"$b".toList, []⟩] ∧
      ∀ params, listOf (tokens.extract 1 14).toList = params ↔
        ∃ cuts declared, Cut (tokens.extract 1 14).toList cuts ∧
          List.Forall₂ Declares cuts declared ∧ params = declared.reduceOption := by
  have plain {kind : TokenKind} {text : Text} {line : Nat} {rest : List Token}
      (apart : ∀ bracket ∈ [Bracket.paren, .square, .curly],
        kind ≠ bracket.opening ∧ kind ≠ bracket.closing) (later : Balanced rest) :
      Balanced (⟨kind, text, line⟩ :: rest) := by
    have all (bracket : Bracket) : bracket ∈ [Bracket.paren, .square, .curly] := by
      cases bracket <;> decide
    exact .plain (fun bracket => (apart bracket (all bracket)).1)
      (fun bracket => (apart bracket (all bracket)).2) later
  let tokens := (TokenStream.ofText .php "($a = [1, 2], $b)".toList).tokens
  have between : (tokens.extract 1 14).toList =
      [⟨.variableName, "$a".toList, 1⟩, ⟨.whitespace, " ".toList, 1⟩, ⟨.assign, "=".toList, 1⟩,
        ⟨.whitespace, " ".toList, 1⟩] ++ ⟨.openBracket, "[".toList, 1⟩ ::
          ([⟨.numberLiteral, "1".toList, 1⟩, ⟨.comma, ",".toList, 1⟩, ⟨.whitespace, " ".toList, 1⟩,
            ⟨.numberLiteral, "2".toList, 1⟩] ++ ⟨.closeBracket, "]".toList, 1⟩ ::
              [⟨.comma, ",".toList, 1⟩, ⟨.whitespace, " ".toList, 1⟩,
                ⟨.variableName, "$b".toList, 1⟩]) := by
    decide +kernel
  have balanced : Balanced (tokens.extract 1 14).toList := by
    rw [between]
    refine plain (by decide) (plain (by decide) (plain (by decide) (plain (by decide) ?_)))
    have opens : TokenKind.openBracket = Bracket.square.opening := rfl
    refine .span opens rfl ?_ ?_
    · exact plain (by decide) (plain (by decide) (plain (by decide) (plain (by decide) .nil)))
    · exact plain (by decide) (plain (by decide) (plain (by decide) .nil))
  have isOpening : tokens.isAt 0 .openParen = true := by decide +kernel
  have isClosing : tokens.isAt 14 .closeParen = true := by decide +kernel
  obtain ⟨partner, cuts⟩ := listOf_of_balanced isOpening isClosing (by decide) balanced
  exact ⟨tokens, by decide +kernel, partner, by decide +kernel, cuts⟩

end PhpWeave.Param
