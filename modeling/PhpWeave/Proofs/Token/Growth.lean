import Mathlib.Data.Nat.Init
import PhpWeave.Grammar.Reader
import PhpWeave.Proofs.Token.Rescan

set_option autoImplicit false

/-!
Token lists that grow. Behind some opening braces code is put in that closes what it opens. A search
that stops at an opening brace finds the same in both lists, and so does a search that is inside
brackets where it passes one.
-/

namespace PhpWeave

open Scan

/-! ### Code that is put in -/

def beginsConstruct : TokenKind → Bool
  | .kwNamespace | .kwUse | .kwClass | .kwInterface | .kwTrait | .kwFunction => true
  | _ => false

def isInert (shape : TokenKind × Text) : Bool :=
  !shape.1.isMarkup && !shape.1.isLiteral && !beginsConstruct shape.1 &&
    !Text.sameWord shape.2 "enum".toList && shape.1 != .openBracket && shape.1 != .closeBracket

def bracesAfter (kind : TokenKind) (braces : Nat) : Nat :=
  if kind = .openBrace then braces + 1 else if kind = .closeBrace then braces - 1 else braces

def parensAfter (kind : TokenKind) (parens : Nat) : Nat :=
  if kind = .openParen then parens + 1 else if kind = .closeParen then parens - 1 else parens

/-- Whether inert tokens close what is open before them and what they open, and no more. -/
def settles : Nat → Nat → List (TokenKind × Text) → Bool
  | braces, parens, [] => braces == 0 && parens == 0
  | braces, parens, shape :: rest =>
    isInert shape && (shape.1 != .closeBrace || braces != 0) &&
      (shape.1 != .closeParen || parens != 0) &&
        settles (bracesAfter shape.1 braces) (parensAfter shape.1 parens) rest

/-- Code that may be put in behind a brace. It ends in a brace. -/
structure Inset (added : List Token) : Prop where
  settles : settles 0 0 (added.map shape) = true
  closes : added.getLast?.map Token.kind = some .closeBrace

/-- `Grown isPut index tokens others`: the second list has code put in behind some braces of the
first, which begins at a position; the braces are where the predicate allows. -/
inductive Grown (isPut : Nat → Prop) : Nat → List Token → List Token → Prop where
  | nil {index : Nat} : Grown isPut index [] []
  | keep {index : Nat} {rest others : List Token} (token : Token)
      (later : Grown isPut (index + 1) rest others) :
      Grown isPut index (token :: rest) (token :: others)
  | put {index : Nat} {rest others added : List Token} (token : Token) (here : isPut index)
      (brace : token.kind = .openBrace) (inset : Inset added)
      (later : Grown isPut (index + 1) rest others) :
      Grown isPut index (token :: rest) (token :: (added ++ others))

structure Walks (braces parens : Nat) (token : Token) (rest : List Token) : Prop where
  inert : isInert (shape token) = true
  brace : token.kind = .closeBrace → braces ≠ 0
  paren : token.kind = .closeParen → parens ≠ 0
  later : settles (bracesAfter token.kind braces) (parensAfter token.kind parens)
    (rest.map shape) = true

theorem walks_of_settles {braces parens : Nat} {token : Token} {rest : List Token}
    (settled : settles braces parens ((token :: rest).map shape) = true) :
    Walks braces parens token rest := by
  simp only [List.map_cons, settles, Bool.and_eq_true, Bool.or_eq_true, bne_iff_ne] at settled
  obtain ⟨⟨⟨inert, brace⟩, paren⟩, later⟩ := settled
  exact ⟨inert, fun isOne => brace.resolve_left fun other => other isOne,
    fun isOne => paren.resolve_left fun other => other isOne, later⟩

theorem Grown.keep_front {isPut : Nat → Prop} {index : Nat} {rest others : List Token}
    (front : List Token) (later : Grown isPut (index + front.length) rest others) :
    Grown isPut index (front ++ rest) (front ++ others) := by
  induction front generalizing index with
  | nil => exact later
  | cons token front ih =>
      refine .keep token (ih ?_)
      rw [List.length_cons, ← Nat.add_assoc, Nat.add_right_comm] at later
      exact later

theorem Grown.put_last {isPut : Nat → Prop} {index : Nat} {front rest others added : List Token}
    {brace : Token} (later : Grown isPut (index + (front ++ [brace]).length) rest others)
    (here : isPut (index + front.length)) (isOpen : brace.kind = .openBrace)
    (inset : Inset added) :
    Grown isPut index (front ++ [brace] ++ rest) (front ++ [brace] ++ (added ++ others)) := by
  rw [List.length_append, List.length_singleton, ← Nat.add_assoc] at later
  rw [List.append_assoc, List.append_assoc, List.singleton_append, List.singleton_append]
  exact .keep_front front (.put brace here isOpen inset later)

theorem Inset.congr {added other : List Token} (inset : Inset added)
    (same : other.map shape = added.map shape) : Inset other where
  settles := same ▸ inset.settles
  closes := by
    have last := congrArg (fun shapes => shapes.getLast?.map Prod.fst) same
    simp only [List.getLast?_map, Option.map_map] at last
    exact last.trans inset.closes

/-! ### Lines -/

def lineAfter (line : Nat) (shapes : List (TokenKind × Text)) : Nat :=
  shapes.foldl (fun line shape => min (line + Text.newlines shape.2) lineLimit) line

def numbered : Nat → List (TokenKind × Text) → List Token
  | _, [] => []
  | line, shape :: rest => ⟨shape.1, shape.2, line⟩ :: numbered (lineAfter line [shape]) rest

theorem map_shape_numbered (line : Nat) (shapes : List (TokenKind × Text)) :
    (numbered line shapes).map shape = shapes := by
  induction shapes generalizing line with
  | nil => rfl
  | cons first shapes ih =>
      rw [numbered, List.map_cons, ih]
      rfl

theorem length_numbered (line : Nat) (shapes : List (TokenKind × Text)) :
    (numbered line shapes).length = shapes.length := by
  rw [← List.length_map shape, map_shape_numbered]

theorem numbered_append (line : Nat) (left right : List (TokenKind × Text)) :
    numbered line (left ++ right) = numbered line left ++ numbered (lineAfter line left) right := by
  induction left generalizing line with
  | nil => rfl
  | cons shape left ih =>
      rw [List.cons_append, numbered, numbered, ih, List.cons_append]
      rfl

theorem numbered_tokensFrom (state : State) (text : Text) :
    numbered state.line ((tokensFrom state text).map shape) = tokensFrom state text := by
  induction length : text.length using Nat.strongRecOn generalizing state text with
  | ind size ih =>
      by_cases empty : text = []
      · rw [empty]
        rfl
      · have positive := List.length_pos_of_ne_nil (token_text_ne_nil state empty)
        have filled := List.length_pos_of_ne_nil empty
        rw [tokensFrom_step state empty, List.map_cons, numbered]
        congr 1
        refine ih _ ?_ (state.after (state.token text)) _ rfl
        rw [List.length_drop]
        omega

theorem numbered_of_cut {state : State} {text : Text} {front after : List Token}
    (cut : tokensFrom state text = front ++ after) :
    numbered state.line (front.map shape) = front ∧
      numbered (lineAfter state.line (front.map shape)) (after.map shape) = after := by
  have lined := numbered_tokensFrom state text
  rw [cut, List.map_append, numbered_append] at lined
  exact List.append_inj lined (by rw [length_numbered, List.length_map])

theorem lineAfter_le {line : Nat} (limited : line ≤ lineLimit)
    (shapes : List (TokenKind × Text)) : lineAfter line shapes ≤ lineLimit := by
  induction shapes generalizing line with
  | nil => exact limited
  | cons shape shapes ih => exact ih (Nat.min_le_right _ _)

/-- Text without a line feed ends on the line that it begins on. -/
theorem lineAfter_of_oneLine {line : Nat} (limited : line ≤ lineLimit)
    {shapes : List (TokenKind × Text)} (oneLine : '\n' ∉ shapes.flatMap Prod.snd) :
    lineAfter line shapes = line := by
  induction shapes with
  | nil => rfl
  | cons shape shapes ih =>
      rw [List.flatMap_cons, List.mem_append, not_or] at oneLine
      have none : Text.newlines shape.2 = 0 := List.count_eq_zero.mpr oneLine.1
      have here : min (line + Text.newlines shape.2) lineLimit = line := by
        rw [none, Nat.add_zero, Nat.min_eq_left limited]
      rw [lineAfter, List.foldl_cons, here]
      exact ih oneLine.2

/-! ### Places in both lists -/

variable {isPut : Nat → Prop} {tokens others : Tokens} {index place : Nat} {token : Token}

theorem drop_of_getElem? (here : tokens[index]? = some token) :
    tokens.toList.drop index = token :: tokens.toList.drop (index + 1) := by
  obtain ⟨inside, rfl⟩ := Array.getElem?_eq_some_iff.mp here
  exact List.drop_eq_getElem_cons inside

theorem getElem?_of_drop {rest : List Token} (here : tokens.toList.drop index = token :: rest) :
    tokens[index]? = some token ∧ tokens.toList.drop (index + 1) = rest := by
  have head := congrArg List.head? here
  rw [List.head?_drop, Array.getElem?_toList] at head
  refine ⟨head, ?_⟩
  rw [← List.tail_drop, here]
  rfl

theorem getElem?_of_drop_nil (ended : tokens.toList.drop index = []) :
    tokens[index]? = none := by
  rw [← Array.getElem?_toList, ← List.head?_drop, ended]
  rfl

theorem prevKind_next (here : tokens[index]? = some token) : tokens.prevKind (index + 1) =
    if token.kind.isTrivia then tokens.prevKind index else some token.kind := by
  obtain ⟨inside, rfl⟩ := Array.getElem?_eq_some_iff.mp here
  exact prevKind_succ inside

theorem Tokens.prevKind_of_trivia {tokens : Tokens} {before index : Nat} {kind : TokenKind}
    (order : before < index) (inside : index ≤ tokens.size)
    (here : tokens.kindAt before = some kind)
    (solid : kind.isTrivia = false)
    (trivia : ∀ other, before < other → other < index →
      ∃ found, tokens.kindAt other = some found ∧ found.isTrivia = true) :
    tokens.prevKind index = some kind := by
  induction index, order using Nat.le_induction with
  | base =>
      obtain ⟨token, there, rfl⟩ := Tokens.kindAt_eq_some.mp here
      obtain ⟨within, rfl⟩ := Array.getElem?_eq_some_iff.mp there
      rw [prevKind_succ within, solid]
      rfl
  | succ index order ih =>
      obtain ⟨found, isAt, isTrivia⟩ := trivia index order (Nat.lt_succ_self index)
      obtain ⟨token, there, rfl⟩ := Tokens.kindAt_eq_some.mp isAt
      obtain ⟨within, rfl⟩ := Array.getElem?_eq_some_iff.mp there
      rw [prevKind_succ within, isTrivia, if_pos rfl]
      exact ih (Nat.le_of_succ_le inside) fun other behind early =>
        trivia other behind (Nat.lt_succ_of_lt early)

theorem Tokens.prevKind_of_nextSignificant {tokens : Tokens} {index found : Nat} {kind : TokenKind}
    (here : tokens.kindAt index = some kind) (solid : kind.isTrivia = false)
    (search : tokens.nextSignificant (index + 1) = some found) :
    tokens.prevKind found = some kind := by
  have inside := Tokens.nextSignificant_lt search
  refine Tokens.prevKind_of_trivia (Tokens.nextSignificant_ge search) (Nat.le_of_lt inside) here
    solid fun other behind before => ?_
  have there : tokens[other]? = some tokens[other] := Array.getElem?_eq_getElem (by omega)
  have trivia := Tokens.firstFrom_before search other behind before _ there
  rw [Tokens.isSignificant, Bool.not_eq_false'] at trivia
  exact ⟨_, Tokens.kindAt_eq_some.mpr ⟨_, there, rfl⟩, trivia⟩

theorem exists_last_place {added rest : List Token} {last : Token}
    (stands : others.toList.drop place = added ++ rest) (ends : added.getLast? = some last) :
    ∃ before, place + added.length = before + 1 ∧ others[before]? = some last := by
  obtain ⟨front, rfl⟩ := List.getLast?_eq_some_iff.mp ends
  have dropped : others.toList.drop (place + front.length) = last :: rest := by
    rw [← List.drop_drop, stands, List.append_assoc, List.drop_left]
    rfl
  refine ⟨place + front.length, ?_, (getElem?_of_drop dropped).1⟩
  rw [List.length_append, List.length_singleton, Nat.add_assoc]

theorem Inset.prevKind {added rest : List Token} (inset : Inset added)
    (stands : others.toList.drop place = added ++ rest) :
    others.prevKind (place + added.length) = some .closeBrace := by
  obtain ⟨brace, found, isOne⟩ := Option.map_eq_some_iff.mp inset.closes
  obtain ⟨before, same, there⟩ := exists_last_place stands found
  rw [same, prevKind_next there, isOne]
  rfl

def Behind (tokens others : Tokens) (index place : Nat) : Prop :=
  others.prevKind place = tokens.prevKind index ∨
    tokens.prevKind index = some .openBrace ∧ others.prevKind place = some .closeBrace

/-- Two places from which the second list has what the first has, grown. -/
structure Aligned (isPut : Nat → Prop) (tokens others : Tokens) (index place : Nat) : Prop where
  grown : Grown isPut index (tokens.toList.drop index) (others.toList.drop place)
  behind : Behind tokens others index place

theorem Behind.next (behind : Behind tokens others index place)
    (here : tokens[index]? = some token) (there : others[place]? = some token) :
    Behind tokens others (index + 1) (place + 1) := by
  rw [Behind, prevKind_next here, prevKind_next there]
  split
  · exact behind
  · exact .inl rfl

structure Onward (isPut : Nat → Prop) (tokens others : Tokens) (index place : Nat) (token : Token)
    (added rest : List Token) : Prop where
  stands : others.toList.drop (place + 1) = added ++ rest
  settles : settles 0 0 (added.map shape) = true
  aligned : Aligned isPut tokens others (index + 1) (place + 1 + added.length)
  put : added = [] ∨ isPut index ∧ token.kind = .openBrace ∧ Inset added

namespace Aligned

variable (aligned : Aligned isPut tokens others index place)
include aligned

theorem here : others[place]? = tokens[index]? := by
  have grown := aligned.grown
  generalize first : tokens.toList.drop index = front at grown
  generalize second : others.toList.drop place = back at grown
  cases grown with
  | nil => rw [getElem?_of_drop_nil first, getElem?_of_drop_nil second]
  | keep token later => rw [(getElem?_of_drop first).1, (getElem?_of_drop second).1]
  | put token isOne brace inset later =>
      rw [(getElem?_of_drop first).1, (getElem?_of_drop second).1]

theorem onward (here : tokens[index]? = some token) :
    ∃ added rest, Onward isPut tokens others index place token added rest := by
  have there : others[place]? = some token := aligned.here.trans here
  have behind := aligned.behind.next here there
  have grown := aligned.grown
  rw [drop_of_getElem? here, drop_of_getElem? there] at grown
  generalize second : others.toList.drop (place + 1) = back at grown
  cases grown with
  | keep token later => exact ⟨[], back, second, rfl, ⟨second ▸ later, behind⟩, .inl rfl⟩
  | @put _ _ rest added token isOne brace inset later =>
      have dropped : others.toList.drop (place + 1 + added.length) = rest := by
        rw [← List.drop_drop, second, List.drop_left]
      have opens : tokens.prevKind (index + 1) = some .openBrace := by
        rw [prevKind_next here, brace]
        rfl
      exact ⟨added, rest, second, inset.settles,
        ⟨dropped.symm ▸ later, .inr ⟨opens, inset.prevKind second⟩⟩, .inr ⟨isOne, brace, inset⟩⟩

theorem next (here : tokens[index]? = some token) (notPut : ¬ isPut index) :
    Aligned isPut tokens others (index + 1) (place + 1) := by
  obtain ⟨added, rest, onward⟩ := aligned.onward here
  obtain rfl := onward.put.resolve_right fun put => notPut put.1
  exact onward.aligned

theorem next_of_kind (here : tokens[index]? = some token) (noBrace : token.kind ≠ .openBrace) :
    Aligned isPut tokens others (index + 1) (place + 1) := by
  obtain ⟨added, rest, onward⟩ := aligned.onward here
  obtain rfl := onward.put.resolve_right fun put => noBrace put.2.1
  exact onward.aligned

theorem kindAt : others.kindAt place = tokens.kindAt index := by
  rw [Tokens.kindAt, Tokens.kindAt, aligned.here]

theorem isAt (kind : TokenKind) : others.isAt place kind = tokens.isAt index kind := by
  rw [Tokens.isAt, Tokens.isAt, aligned.kindAt]

theorem isMemberName : others.isMemberName place = tokens.isMemberName index := by
  rw [Tokens.isMemberName, Tokens.isMemberName]
  rcases aligned.behind with same | ⟨opens, closes⟩
  · rw [same]
  · rw [opens, closes]
    rfl

theorem prevKind_new :
    others.prevKind place = some .kwNew ↔ tokens.prevKind index = some .kwNew := by
  rcases aligned.behind with same | ⟨opens, closes⟩
  · rw [same]
  · rw [opens, closes]
    simp

theorem through {count : Nat} (inside : index + count ≤ tokens.size)
    (clear : ∀ brace, isPut brace → index ≤ brace → index + count ≤ brace) :
    Aligned isPut tokens others (index + count) (place + count) ∧
      (others.toList.drop place).take count = (tokens.toList.drop index).take count := by
  induction count generalizing index place with
  | zero => exact ⟨aligned, by rw [List.take_zero, List.take_zero]⟩
  | succ count ih =>
      have here : tokens[index]? = some tokens[index] := Array.getElem?_eq_getElem (by omega)
      have notPut : ¬ isPut index := fun isOne => by
        have far := clear index isOne (Nat.le_refl _)
        omega
      have rest := ih (aligned.next here notPut) (by omega) fun brace isOne behind => by
        have far := clear brace isOne (by omega)
        omega
      rw [Nat.add_right_comm index, Nat.add_right_comm place] at rest
      refine ⟨rest.1, ?_⟩
      rw [drop_of_getElem? here, drop_of_getElem? (aligned.here.trans here), List.take_succ_cons,
        List.take_succ_cons, rest.2]

end Aligned

/-! ### Searches that stop at every brace -/

section Searches

variable {p : Token → Bool} {kinds : List TokenKind} {depth : Nat}

theorem firstFrom_aligned (stops : ∀ token, token.kind = .openBrace → p token = true)
    (aligned : Aligned isPut tokens others index place) :
    Option.Rel (Aligned isPut tokens others) (tokens.firstFrom p index)
      (others.firstFrom p place) := by
  induction left : tokens.size - index generalizing index place with
  | zero =>
      have ended : tokens[index]? = none := Array.getElem?_eq_none (by omega)
      rw [Tokens.firstFrom_ended ended, Tokens.firstFrom_ended (aligned.here.trans ended)]
      exact .none
  | succ left ih =>
      have here : tokens[index]? = some tokens[index] := Array.getElem?_eq_getElem (by omega)
      rw [Tokens.firstFrom_here here, Tokens.firstFrom_here (aligned.here.trans here)]
      split
      · exact .some aligned
      · next fails =>
          have noBrace : tokens[index].kind ≠ .openBrace := fun brace => fails (stops _ brace)
          exact ih (aligned.next_of_kind here noBrace) (by omega)

theorem Aligned.nextSignificant (aligned : Aligned isPut tokens others index place) :
    Option.Rel (Aligned isPut tokens others) (tokens.nextSignificant index)
      (others.nextSignificant place) := by
  refine firstFrom_aligned (fun token brace => ?_) aligned
  rw [Tokens.isSignificant, brace]
  rfl

/-! ### Searches outside brackets -/

def depthAfter (kind : TokenKind) (depth : Nat) : Nat :=
  if kind = .openParen ∨ kind = .openBracket then depth + 1
  else if kind = .closeParen ∨ kind = .closeBracket then depth - 1
  else depth

theorem outsideWithin_here (here : tokens[index]? = some token) :
    tokens.outsideWithin kinds (tokens.size - index) depth index =
      if depth = 0 ∧ token.kind ∈ kinds then some index
      else tokens.outsideWithin kinds (tokens.size - (index + 1)) (depthAfter token.kind depth)
        (index + 1) := by
  have inside := (Array.getElem?_eq_some_iff.mp here).1
  have kind : tokens.kindAt index = some token.kind := by
    rw [Tokens.kindAt, here, Option.map_some]
  rw [show tokens.size - index = tokens.size - (index + 1) + 1 by omega, Tokens.outsideWithin, kind]
  simp only
  split
  · rfl
  · split
    · next isOne => rw [isOne]; rfl
    · next isOne => rw [isOne]; rfl
    · next isOne => rw [isOne]; rfl
    · next isOne => rw [isOne]; rfl
    · next noParen noBracket noClose noCloseBracket =>
        rw [depthAfter, if_neg (not_or.mpr ⟨noParen, noBracket⟩),
          if_neg (not_or.mpr ⟨noClose, noCloseBracket⟩)]

theorem outsideWithin_ended (ended : tokens[index]? = none) :
    tokens.outsideWithin kinds (tokens.size - index) depth index = none := by
  have outside := Array.getElem?_eq_none_iff.mp ended
  rw [show tokens.size - index = 0 by omega, Tokens.outsideWithin]

theorem depthAfter_of_inert (inert : isInert (shape token) = true) (depth : Nat) :
    depthAfter token.kind depth = parensAfter token.kind depth := by
  obtain ⟨⟨-, noBracket⟩, noCloseBracket⟩ := by
    simpa only [isInert, Bool.and_eq_true, bne_iff_ne] using inert
  simp only [depthAfter, parensAfter, show token.kind ≠ .openBracket from noBracket,
    show token.kind ≠ .closeBracket from noCloseBracket, or_false]

theorem Walks.parens {braces parens : Nat} {rest : List Token}
    (walks : Walks braces parens token rest) (depth : Nat) :
    parensAfter token.kind (depth + parens) = depth + parensAfter token.kind parens := by
  have paren := walks.paren
  unfold parensAfter
  split
  · rfl
  · split
    · next isOne => exact Nat.add_sub_assoc (Nat.pos_of_ne_zero (paren isOne)) depth
    · rfl

theorem Walks.braces {braces parens : Nat} {rest : List Token}
    (walks : Walks braces parens token rest) (around : Nat) :
    bracesAfter token.kind (around + braces) = around + bracesAfter token.kind braces := by
  have brace := walks.brace
  unfold bracesAfter
  split
  · rfl
  · split
    · next isOne => exact Nat.add_sub_assoc (Nat.pos_of_ne_zero (brace isOne)) around
    · rfl

theorem outsideWithin_pass {added rest : List Token} {braces parens : Nat}
    (settled : settles braces parens (added.map shape) = true)
    (stands : others.toList.drop place = added ++ rest)
    (passes : depth ≠ 0 ∨ ∀ token ∈ added, token.kind ∉ kinds) :
    others.outsideWithin kinds (others.size - place) (depth + parens) place =
      others.outsideWithin kinds (others.size - (place + added.length)) depth
        (place + added.length) := by
  induction added generalizing place braces parens with
  | nil =>
      have closed := (Bool.and_eq_true_iff.mp settled).2
      rw [eq_of_beq closed]
      rfl
  | cons token added ih =>
      obtain ⟨here, later⟩ := getElem?_of_drop stands
      have walks := walks_of_settles settled
      have goesOn : ¬ (depth + parens = 0 ∧ token.kind ∈ kinds) := fun both => by
        rcases passes with inside | other
        · exact inside (Nat.add_eq_zero_iff.mp both.1).1
        · exact other token List.mem_cons_self both.2
      have further : depth ≠ 0 ∨ ∀ token ∈ added, token.kind ∉ kinds :=
        passes.imp_right fun other _ member => other _ (List.mem_cons_of_mem _ member)
      rw [outsideWithin_here here, if_neg goesOn, depthAfter_of_inert walks.inert, walks.parens,
        ih walks.later later further, List.length_cons, Nat.add_right_comm, Nat.add_assoc]

theorem outsideWithin_aligned (stops : .openBrace ∈ kinds)
    (aligned : Aligned isPut tokens others index place) :
    Option.Rel (Aligned isPut tokens others)
      (tokens.outsideWithin kinds (tokens.size - index) depth index)
      (others.outsideWithin kinds (others.size - place) depth place) := by
  obtain ⟨left, behind⟩ : ∃ left, tokens.size - index = left := ⟨_, rfl⟩
  induction left generalizing index place depth with
  | zero =>
      have ended : tokens[index]? = none := Array.getElem?_eq_none (by omega)
      rw [outsideWithin_ended ended, outsideWithin_ended (aligned.here.trans ended)]
      exact .none
  | succ left ih =>
      have here : tokens[index]? = some tokens[index] := Array.getElem?_eq_getElem (by omega)
      rw [outsideWithin_here here, outsideWithin_here (aligned.here.trans here)]
      split
      · exact .some aligned
      · next passes =>
          obtain ⟨added, rest, onward⟩ := aligned.onward here
          have passed : others.outsideWithin kinds (others.size - (place + 1))
              (depthAfter tokens[index].kind depth) (place + 1) =
              others.outsideWithin kinds (others.size - (place + 1 + added.length))
                (depthAfter tokens[index].kind depth) (place + 1 + added.length) := by
            rcases onward.put with rfl | ⟨-, brace, -⟩
            · rfl
            · have inside : depth ≠ 0 := fun none => passes ⟨none, brace ▸ stops⟩
              rw [brace]
              exact outsideWithin_pass onward.settles onward.stands (.inl inside)
          rw [passed]
          exact ih onward.aligned (by omega)

theorem Aligned.firstOutside (aligned : Aligned isPut tokens others index place)
    (stops : .openBrace ∈ kinds) :
    Option.Rel (Aligned isPut tokens others) (tokens.firstOutside kinds index)
      (others.firstOutside kinds place) := outsideWithin_aligned stops aligned

/-! ### Partners of parentheses -/

theorem balancedWithin_here (here : tokens[index]? = some token) :
    tokens.balancedWithin .paren (tokens.size - index) depth index =
      if token.kind = .closeParen ∧ depth ≤ 1 then some index
      else tokens.balancedWithin .paren (tokens.size - (index + 1)) (parensAfter token.kind depth)
        (index + 1) := by
  have inside := (Array.getElem?_eq_some_iff.mp here).1
  rw [show tokens.size - index = tokens.size - (index + 1) + 1 by omega, Tokens.balancedWithin,
    here]
  simp only [Bracket.opening, Bracket.closing]
  by_cases opens : token.kind = .openParen
  · simp only [opens, parensAfter, reduceIte, reduceCtorEq, false_and]
  · by_cases closes : token.kind = .closeParen
    · simp only [closes, parensAfter, reduceIte, reduceCtorEq, true_and]
    · simp only [opens, closes, parensAfter, reduceIte, false_and]

theorem balancedWithin_ended (ended : tokens[index]? = none) :
    tokens.balancedWithin .paren (tokens.size - index) depth index = none := by
  have outside := Array.getElem?_eq_none_iff.mp ended
  rw [show tokens.size - index = 0 by omega, Tokens.balancedWithin]

theorem balancedWithin_pass {added rest : List Token} {braces parens : Nat}
    (settled : settles braces parens (added.map shape) = true)
    (stands : others.toList.drop place = added ++ rest) (inside : depth ≠ 0) :
    others.balancedWithin .paren (others.size - place) (depth + parens) place =
      others.balancedWithin .paren (others.size - (place + added.length)) depth
        (place + added.length) := by
  induction added generalizing place braces parens with
  | nil =>
      have closed := (Bool.and_eq_true_iff.mp settled).2
      rw [eq_of_beq closed]
      rfl
  | cons token added ih =>
      obtain ⟨here, later⟩ := getElem?_of_drop stands
      have walks := walks_of_settles settled
      have passes : ¬ (token.kind = .closeParen ∧ depth + parens ≤ 1) := fun both => by
        have opened := walks.paren both.1
        omega
      rw [balancedWithin_here here, if_neg passes, walks.parens, ih walks.later later,
        List.length_cons, Nat.add_right_comm, Nat.add_assoc]

theorem parensAfter_ne_zero {kind : TokenKind} (inside : depth ≠ 0)
    (passes : ¬ (kind = .closeParen ∧ depth ≤ 1)) : parensAfter kind depth ≠ 0 := by
  unfold parensAfter
  split
  · exact Nat.succ_ne_zero _
  · split
    · next isOne =>
        have deeper : ¬ depth ≤ 1 := fun shallow => passes ⟨isOne, shallow⟩
        omega
    · exact inside

theorem balancedWithin_aligned (inside : depth ≠ 0)
    (aligned : Aligned isPut tokens others index place) :
    Option.Rel (Aligned isPut tokens others)
      (tokens.balancedWithin .paren (tokens.size - index) depth index)
      (others.balancedWithin .paren (others.size - place) depth place) := by
  obtain ⟨left, behind⟩ : ∃ left, tokens.size - index = left := ⟨_, rfl⟩
  induction left generalizing index place depth with
  | zero =>
      have ended : tokens[index]? = none := Array.getElem?_eq_none (by omega)
      rw [balancedWithin_ended ended, balancedWithin_ended (aligned.here.trans ended)]
      exact .none
  | succ left ih =>
      have here : tokens[index]? = some tokens[index] := Array.getElem?_eq_getElem (by omega)
      rw [balancedWithin_here here, balancedWithin_here (aligned.here.trans here)]
      split
      · exact .some aligned
      · next passes =>
          obtain ⟨added, rest, onward⟩ := aligned.onward here
          have deep := parensAfter_ne_zero inside passes
          have passed : others.balancedWithin .paren (others.size - (place + 1))
              (parensAfter tokens[index].kind depth) (place + 1) =
              others.balancedWithin .paren (others.size - (place + 1 + added.length))
                (parensAfter tokens[index].kind depth) (place + 1 + added.length) :=
            balancedWithin_pass onward.settles onward.stands deep
          rw [passed]
          exact ih deep onward.aligned (by omega)

theorem balancedWithin_open (here : tokens[index]? = some token) (opens : token.kind = .openParen) :
    tokens.balancedWithin .paren (tokens.size - index) 0 index =
      tokens.balancedWithin .paren (tokens.size - (index + 1)) 1 (index + 1) := by
  rw [balancedWithin_here here, opens]
  rfl

theorem Aligned.closing (aligned : Aligned isPut tokens others index place)
    {close : Nat} (found : tokens.closing .paren index = .ok close) :
    ∃ other, others.closing .paren place = .ok other ∧
      Aligned isPut tokens others close other := by
  unfold Tokens.closing at found ⊢
  rw [aligned.here]
  cases here : tokens[index]? with
  | none =>
      rw [here] at found
      cases found
  | some token =>
      rw [here] at found
      by_cases opens : token.kind = .openParen
      · have noBrace : token.kind ≠ .openBrace := opens ▸ TokenKind.noConfusion
        have partner := balancedWithin_aligned Nat.one_ne_zero (aligned.next_of_kind here noBrace)
        rw [← balancedWithin_open here opens,
          ← balancedWithin_open (aligned.here.trans here) opens] at partner
        simp only [Bracket.opening, opens, reduceIte] at found ⊢
        generalize tokens.balancedWithin .paren (tokens.size - index) 0 index = first
          at found partner
        generalize others.balancedWithin .paren (others.size - place) 0 place = second at partner
        cases partner with
        | none => cases found
        | some same =>
            cases found
            exact ⟨_, rfl, same⟩
      · simp only [Bracket.opening, opens, reduceIte] at found
        cases found

end Searches

end PhpWeave
