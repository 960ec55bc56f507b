import PhpWeave.Proofs.Grammar.Header
import PhpWeave.Proofs.Weave.Rewording

set_option autoImplicit false

/-!
Token lists in which calls of the hook stand in the place of exits. A call closes what it opens and
holds nothing that a search for the end of a header or of a statement stops at, so such searches
find the same in both lists, each token at the place where it has come to stand.
-/

namespace PhpWeave

open Scan

def IsHook (added : List Token) : Prop :=
  added.map shape = ExitHook.hookShapes ∨ added.map shape = ExitHook.callShapes

/-- The kinds that the word of an exit has in a file. Behind an arrow it is a plain name, but code
that is cut off from its arrow takes it for an exit again. -/
def exitKinds : List TokenKind := [.kwExit, .identifier]

def endKinds : List TokenKind := [.identifier, .closeParen]

def hookKinds : List TokenKind :=
  [.fullyQualifiedName, .doubleColon, .identifier, .openParen, .closeParen]

namespace IsHook

variable {added rest : List Token} (isHook : IsHook added)
include isHook

theorem settles : settles 0 0 (added.map shape) = true := by
  rcases isHook with same | same
  · rw [same]
    decide
  · rw [same]
    decide

theorem kind_mem {token : Token} (member : token ∈ added) : token.kind ∈ hookKinds := by
  have among : shape token ∈ added.map shape := List.mem_map_of_mem member
  have all : ∀ shape ∈ ExitHook.callShapes, shape.1 ∈ hookKinds := by decide
  rcases isHook with same | same
  · rw [same] at among
    exact all _ (List.mem_append_left _ among)
  · rw [same] at among
    exact all _ among

theorem begins : ∃ name colons more, added = name :: colons :: more ∧
    name.kind = .fullyQualifiedName ∧ name.text = "\\Kahlan\\Plugin\\Quit".toList ∧
      colons.kind = .doubleColon ∧ colons.text = [':', ':'] := by
  obtain ⟨shapes, same⟩ : ∃ shapes, added.map shape =
      (.fullyQualifiedName, "\\Kahlan\\Plugin\\Quit".toList) :: (.doubleColon, [':', ':']) ::
        shapes := by
    rcases isHook with same | same
    · exact ⟨_, same⟩
    · exact ⟨_, same⟩
  obtain ⟨name, others, rfl, isName, same⟩ := List.map_eq_cons_iff.mp same
  obtain ⟨colons, more, rfl, areColons, -⟩ := List.map_eq_cons_iff.mp same
  exact ⟨name, colons, more, rfl, congrArg Prod.fst isName, congrArg Prod.snd isName,
    congrArg Prod.fst areColons, congrArg Prod.snd areColons⟩

theorem ends : ∃ last, added.getLast? = some last ∧ last.kind ∈ endKinds := by
  have last {last : Shape} (same : (added.map shape).getLast? = some last) :
      ∃ token, added.getLast? = some token ∧ token.kind = last.1 := by
    rw [List.getLast?_map] at same
    obtain ⟨token, found, isOne⟩ := Option.map_eq_some_iff.mp same
    exact ⟨token, found, congrArg Prod.fst isOne⟩
  rcases isHook with same | same
  · obtain ⟨token, found, isOne⟩ := last (congrArg List.getLast? same)
    exact ⟨token, found, isOne ▸ by decide⟩
  · obtain ⟨token, found, isOne⟩ := last (congrArg List.getLast? same)
    exact ⟨token, found, isOne ▸ by decide⟩

end IsHook

structure ExitAt (tokens : Tokens) (index : Nat) (token : Token) : Prop where
  here : tokens[index]? = some token
  kind : token.kind ∈ exitKinds
  member : token.kind = .identifier → tokens.isMemberName index = true
  word : TokenKind.ofWord token.text = .kwExit

structure PutAt (spot : Nat → Nat) (tokens others : Tokens) (index : Nat) (token : Token)
    (added : List Token) : Prop extends ExitAt tokens index token where
  isHook : IsHook added
  stands : others.toList.drop (spot index) = added ++ others.toList.drop (spot (index + 1))
  next : spot (index + 1) = spot index + added.length

structure KeptAt (spot : Nat → Nat) (tokens others : Tokens) (index : Nat) (token : Token) :
    Prop where
  here : tokens[index]? = some token
  there : others[spot index]? = some token
  next : spot (index + 1) = spot index + 1

theorem KeptAt.inside {spot : Nat → Nat} {tokens others : Tokens} {index : Nat} {token : Token}
    (kept : KeptAt spot tokens others index token) : index < tokens.size :=
  (Array.getElem?_eq_some_iff.mp kept.here).1

theorem KeptAt.isAt {spot : Nat → Nat} {tokens others : Tokens} {index : Nat} {token : Token}
    (kept : KeptAt spot tokens others index token) (kind : TokenKind) :
    others.isAt (spot index) kind = tokens.isAt index kind := by
  rw [Tokens.isAt, Tokens.isAt, Tokens.kindAt, Tokens.kindAt, kept.here, kept.there]

/-- The second list is the first with calls in the place of some exits. Each token of the first, and
its end, has a place in the second. -/
structure Hooked (isPut : Nat → Prop) (spot : Nat → Nat) (tokens others : Tokens) : Prop where
  start : spot 0 = 0
  size : spot tokens.size = others.size
  kept : ∀ index token, tokens[index]? = some token → ¬ isPut index →
    KeptAt spot tokens others index token
  put : ∀ index, isPut index → ∃ token added, PutAt spot tokens others index token added

variable {isPut : Nat → Prop} {spot : Nat → Nat} {tokens others : Tokens} {index first stop : Nat}
  {token : Token} {added : List Token}

namespace PutAt

variable (put : PutAt spot tokens others index token added)
include put

theorem begins : ∃ name colons, others[spot index]? = some name ∧
    others[spot index + 1]? = some colons ∧ name.kind = .fullyQualifiedName ∧
      name.text = "\\Kahlan\\Plugin\\Quit".toList ∧ colons.kind = .doubleColon ∧
        colons.text = [':', ':'] := by
  obtain ⟨name, colons, more, rfl, isName, nameText, areColons, colonsText⟩ := put.isHook.begins
  obtain ⟨here, behind⟩ := getElem?_of_drop put.stands
  exact ⟨name, colons, here, (getElem?_of_drop behind).1, isName, nameText, areColons, colonsText⟩

theorem isWord {word : Text} (other : TokenKind.ofWord word ≠ .kwExit) :
    token.isWord word = false := by
  rw [Token.isWord, Text.sameWord, beq_eq_false_iff_ne]
  intro same
  have isExit := put.word
  rw [TokenKind.ofWord, same] at isExit
  exact other isExit

theorem two_le : spot index + 2 ≤ spot (index + 1) := by
  obtain ⟨name, colons, more, rfl, -⟩ := put.isHook.begins
  rw [put.next]
  exact Nat.add_le_add_left (Nat.le_add_left 2 more.length) _

theorem exists_last : ∃ before kind, spot (index + 1) = before + 1 ∧ kind ∈ endKinds ∧
    others.kindAt before = some kind := by
  obtain ⟨last, found, isOne⟩ := put.isHook.ends
  obtain ⟨before, same, there⟩ := exists_last_place put.stands found
  exact ⟨before, last.kind, put.next.trans same, isOne,
    Tokens.kindAt_eq_some.mpr ⟨last, there, rfl⟩⟩

theorem prevKind : ∃ kind ∈ endKinds, others.prevKind (spot (index + 1)) = some kind := by
  obtain ⟨before, kind, same, isOne, there⟩ := put.exists_last
  obtain ⟨last, found, rfl⟩ := Tokens.kindAt_eq_some.mp there
  have solid : ∀ kind ∈ endKinds, kind.isTrivia = false := by decide
  refine ⟨last.kind, isOne, ?_⟩
  rw [same, prevKind_next found, solid _ isOne, if_neg Bool.false_ne_true]

end PutAt

namespace Hooked

/-! ### Places -/

variable (hooked : Hooked isPut spot tokens others)
include hooked

theorem cases (here : tokens[index]? = some token) :
    KeptAt spot tokens others index token ∨
      ∃ added, isPut index ∧ PutAt spot tokens others index token added := by
  by_cases isOne : isPut index
  · obtain ⟨other, added, put⟩ := hooked.put index isOne
    have same := put.here
    rw [here] at same
    cases same
    exact .inr ⟨added, isOne, put⟩
  · exact .inl (hooked.kept index token here isOne)

theorem kept_of_kind (here : tokens[index]? = some token) (other : token.kind ∉ exitKinds) :
    KeptAt spot tokens others index token := by
  rcases hooked.cases here with kept | ⟨added, -, put⟩
  · exact kept
  · exact absurd put.kind other

theorem spot_lt_succ (inside : index < tokens.size) : spot index < spot (index + 1) := by
  rcases hooked.cases (Array.getElem?_eq_getElem inside) with kept | ⟨added, -, put⟩
  · rw [kept.next]
    exact Nat.lt_succ_self _
  · exact Nat.lt_of_succ_lt put.two_le

theorem spot_lt (order : first < stop) (inside : stop ≤ tokens.size) : spot first < spot stop := by
  induction stop with
  | zero => exact absurd order (Nat.not_lt_zero first)
  | succ stop ih =>
      have here := hooked.spot_lt_succ inside
      rcases Nat.lt_succ_iff_lt_or_eq.mp order with before | rfl
      · exact Nat.lt_trans (ih before (Nat.le_of_succ_le inside)) here
      · exact here

theorem spot_le (order : first ≤ stop) (inside : stop ≤ tokens.size) : spot first ≤ spot stop := by
  rcases Nat.eq_or_lt_of_le order with rfl | before
  · exact Nat.le_refl _
  · exact Nat.le_of_lt (hooked.spot_lt before inside)

theorem spot_lt_iff (firstInside : first ≤ tokens.size) (stopInside : stop ≤ tokens.size) :
    spot first < spot stop ↔ first < stop := by
  refine ⟨fun order => ?_, fun order => hooked.spot_lt order stopInside⟩
  by_contra behind
  exact absurd (hooked.spot_le (Nat.le_of_not_lt behind) firstInside) (Nat.not_le_of_lt order)

theorem spot_le_iff (firstInside : first ≤ tokens.size) (stopInside : stop ≤ tokens.size) :
    spot first ≤ spot stop ↔ first ≤ stop := by
  rw [← Nat.not_lt, hooked.spot_lt_iff stopInside firstInside, Nat.not_lt]

/-- The token at a place is the same, or a call stands in the place of an exit. -/
theorem kindAt (inside : index ≤ tokens.size) :
    others.kindAt (spot index) = tokens.kindAt index ∨
      (∃ kind ∈ exitKinds, tokens.kindAt index = some kind) ∧
        others.kindAt (spot index) = some .fullyQualifiedName := by
  rcases Nat.lt_or_ge index tokens.size with before | ended
  · rcases hooked.cases (Array.getElem?_eq_getElem before) with kept | ⟨added, -, put⟩
    · rw [Tokens.kindAt, Tokens.kindAt, kept.here, kept.there]
      exact .inl rfl
    · obtain ⟨name, colons, there, -, isName, -⟩ := put.begins
      exact .inr ⟨⟨_, put.kind, Tokens.kindAt_eq_some.mpr ⟨_, put.here, rfl⟩⟩,
        Tokens.kindAt_eq_some.mpr ⟨name, there, isName⟩⟩
  · obtain rfl := Nat.le_antisymm inside ended
    left
    rw [hooked.size, Tokens.kindAt, Tokens.kindAt, Array.getElem?_eq_none (Nat.le_refl _),
      Array.getElem?_eq_none (Nat.le_refl _)]

theorem isAt {kind : TokenKind} (inside : index ≤ tokens.size) (noExit : kind ∉ exitKinds)
    (noName : kind ≠ .fullyQualifiedName) :
    others.isAt (spot index) kind = tokens.isAt index kind := by
  rw [Tokens.isAt, Tokens.isAt]
  rcases hooked.kindAt inside with same | ⟨⟨exit, isExit, here⟩, isName⟩
  · rw [same]
  · rw [here, isName, Bool.eq_iff_iff, beq_iff_eq, beq_iff_eq, Option.some.injEq,
      Option.some.injEq]
    refine ⟨fun same => absurd same.symm noName, fun same => absurd ?_ noExit⟩
    rw [← same]
    exact isExit

theorem prevKind (inside : index ≤ tokens.size) :
    others.prevKind (spot index) = tokens.prevKind index ∨
      (∃ kind ∈ exitKinds, tokens.prevKind index = some kind) ∧
        ∃ kind ∈ endKinds, others.prevKind (spot index) = some kind := by
  induction index with
  | zero =>
      rw [hooked.start, prevKind_zero, prevKind_zero]
      exact .inl rfl
  | succ index ih =>
      rcases hooked.cases (Array.getElem?_eq_getElem inside) with kept | ⟨added, -, put⟩
      · rw [kept.next, prevKind_next kept.here, prevKind_next kept.there]
        split
        · exact ih (Nat.le_of_succ_le inside)
        · exact .inl rfl
      · have solid : ∀ kind ∈ exitKinds, kind.isTrivia = false := by decide
        rw [prevKind_next put.here, solid _ put.kind, if_neg Bool.false_ne_true]
        exact .inr ⟨⟨_, put.kind, rfl⟩, put.prevKind⟩

omit hooked in
theorem not_access_of_mem {kind : TokenKind} (member : kind ∈ exitKinds ∨ kind ∈ endKinds) :
    kind.isMemberAccess = false ∧ kind ≠ .kwNew := by
  have all : ∀ kind ∈ exitKinds ++ endKinds, kind.isMemberAccess = false ∧ kind ≠ .kwNew := by
    decide
  exact all kind (List.mem_append.mpr member)

theorem isMemberName (inside : index ≤ tokens.size) :
    others.isMemberName (spot index) = tokens.isMemberName index := by
  rw [Tokens.isMemberName, Tokens.isMemberName]
  rcases hooked.prevKind inside with same | ⟨⟨exit, isExit, before⟩, last, isLast, behind⟩
  · rw [same]
  · rw [before, behind, Option.map_some, Option.map_some, (not_access_of_mem (.inl isExit)).1,
      (not_access_of_mem (.inr isLast)).1]

theorem prevKind_new (inside : index ≤ tokens.size) :
    others.prevKind (spot index) = some .kwNew ↔ tokens.prevKind index = some .kwNew := by
  rcases hooked.prevKind inside with same | ⟨⟨exit, isExit, before⟩, last, isLast, behind⟩
  · rw [same]
  · rw [before, behind, Option.some.injEq, Option.some.injEq]
    exact ⟨fun isNew => absurd isNew (not_access_of_mem (.inr isLast)).2,
      fun isNew => absurd isNew (not_access_of_mem (.inl isExit)).2⟩

/-! ### Ranges -/

theorem extract_eq (order : first ≤ stop) (inside : stop ≤ tokens.size)
    (clear : ∀ index, first ≤ index → index < stop → ¬ isPut index) :
    (others.extract (spot first) (spot stop)).toList = (tokens.extract first stop).toList := by
  induction stop, order using Nat.le_induction with
  | base =>
      rw [Array.extract_empty_of_stop_le_start (Nat.le_refl _),
        Array.extract_empty_of_stop_le_start (Nat.le_refl _)]
  | succ stop order ih =>
      have here : tokens[stop]? = some tokens[stop] := Array.getElem?_eq_getElem inside
      have kept := hooked.kept stop _ here (clear stop order (Nat.lt_succ_self stop))
      have before := hooked.spot_le order (Nat.le_of_succ_le inside)
      rw [kept.next, Tokens.extract_succ before kept.there, Tokens.extract_succ order here,
        ih (Nat.le_of_succ_le inside) fun index behind early =>
          clear index behind (Nat.lt_succ_of_lt early)]

theorem exists_colons (put : isPut index) (behind : first ≤ index) (before : index < stop)
    (inside : stop ≤ tokens.size) :
    ∃ colons ∈ (others.extract (spot first) (spot stop)).toList,
      colons.kind = .doubleColon ∧ colons.text = [':', ':'] := by
  obtain ⟨token, added, isOne⟩ := hooked.put index put
  obtain ⟨name, colons, -, there, -, -, areColons, text⟩ := isOne.begins
  have atLeast := hooked.spot_le behind (by omega)
  have atMost : spot (index + 1) ≤ spot stop := hooked.spot_le before inside
  have two := isOne.two_le
  refine ⟨colons, ?_, areColons, text⟩
  rw [Tokens.mem_extract_iff]
  exact ⟨spot index + 1, by omega, by omega, there⟩

/-! ### Searches -/

section Searches

variable {p : Token → Bool}

omit hooked in
theorem firstFrom_pass {place : Nat} {rest : List Token}
    (stands : others.toList.drop place = added ++ rest)
    (misses : ∀ token ∈ added, p token = false) :
    others.firstFrom p place = others.firstFrom p (place + added.length) := by
  induction added generalizing place with
  | nil => rfl
  | cons token added ih =>
      obtain ⟨here, later⟩ := getElem?_of_drop stands
      obtain ⟨miss, others⟩ := List.forall_mem_cons.mp misses
      rw [Tokens.firstFrom_here here, miss, if_neg Bool.false_ne_true, ih later others,
        List.length_cons, Nat.add_right_comm, Nat.add_assoc]

/-- A search that takes the tokens of a call as it takes an exit finds the same in both lists. -/
theorem firstFrom (same : ∀ token other : Token, token.kind ∈ exitKinds →
      other.kind ∈ hookKinds → p other = p token) (inside : index ≤ tokens.size) :
    others.firstFrom p (spot index) = (tokens.firstFrom p index).map spot := by
  obtain ⟨left, behind⟩ : ∃ left, tokens.size - index = left := ⟨_, rfl⟩
  induction left generalizing index with
  | zero =>
      obtain rfl : index = tokens.size := by omega
      rw [hooked.size, Tokens.firstFrom_ended (Array.getElem?_eq_none (Nat.le_refl _)),
        Tokens.firstFrom_ended (Array.getElem?_eq_none (Nat.le_refl _))]
      rfl
  | succ left ih =>
      have before : index < tokens.size := by omega
      have later := ih before (by omega)
      have here : tokens[index]? = some tokens[index] := Array.getElem?_eq_getElem before
      rw [Tokens.firstFrom_here here]
      rcases hooked.cases here with kept | ⟨added, -, put⟩
      · rw [Tokens.firstFrom_here kept.there, ← kept.next, later]
        split
        · rfl
        · rfl
      · have takes : ∀ other ∈ added, p other = p tokens[index] := fun other member =>
          same _ other put.kind (put.isHook.kind_mem member)
        cases holds : p tokens[index] with
        | true =>
            obtain ⟨name, colons, more, rfl, -⟩ := put.isHook.begins
            obtain ⟨there, -⟩ := getElem?_of_drop put.stands
            rw [Tokens.firstFrom_here there, takes name List.mem_cons_self, holds, if_pos rfl,
              if_pos rfl]
            rfl
        | false =>
            have passed := firstFrom_pass put.stands fun other member =>
              (takes other member).trans holds
            rw [passed, ← put.next, later, if_neg Bool.false_ne_true]

theorem nextSignificant (inside : index ≤ tokens.size) :
    others.nextSignificant (spot index) = (tokens.nextSignificant index).map spot := by
  refine hooked.firstFrom (fun token other isExit member => ?_) inside
  have solid : ∀ kind ∈ exitKinds ++ hookKinds, kind.isTrivia = false := by decide
  rw [Tokens.isSignificant, Tokens.isSignificant, solid _ (List.mem_append_left _ isExit),
    solid _ (List.mem_append_right _ member)]

omit hooked in
theorem not_ends_of_mem {kind : TokenKind} (member : kind ∈ exitKinds ∨ kind ∈ hookKinds) :
    kind ≠ .openBrace ∧ kind ≠ .semicolon ∧ kind ≠ .closeTag := by
  have all : ∀ kind ∈ exitKinds ++ hookKinds,
      kind ≠ .openBrace ∧ kind ≠ .semicolon ∧ kind ≠ .closeTag := by decide
  exact all kind (List.mem_append.mpr member)

theorem headerEndWithin {depth : Nat} (inside : index ≤ tokens.size) :
    others.outsideWithin [.openBrace, .semicolon] (others.size - spot index) depth (spot index) =
      (tokens.outsideWithin [.openBrace, .semicolon] (tokens.size - index) depth index).map
        spot := by
  obtain ⟨left, behind⟩ : ∃ left, tokens.size - index = left := ⟨_, rfl⟩
  induction left generalizing index depth with
  | zero =>
      obtain rfl : index = tokens.size := by omega
      rw [hooked.size, outsideWithin_ended (Array.getElem?_eq_none (Nat.le_refl _)),
        outsideWithin_ended (Array.getElem?_eq_none (Nat.le_refl _))]
      rfl
  | succ left ih =>
      have before : index < tokens.size := by omega
      have here : tokens[index]? = some tokens[index] := Array.getElem?_eq_getElem before
      rw [outsideWithin_here here]
      rcases hooked.cases here with kept | ⟨added, -, put⟩
      · rw [outsideWithin_here kept.there, ← kept.next, ih before (by omega)]
        split
        · rfl
        · rfl
      · have passes : ∀ token ∈ added, token.kind ∉ [TokenKind.openBrace, .semicolon] := by
          intro token member
          obtain ⟨noBrace, noSemicolon, -⟩ := not_ends_of_mem (.inr (put.isHook.kind_mem member))
          simp [noBrace, noSemicolon]
        have passed : others.outsideWithin [.openBrace, .semicolon] (others.size - spot index)
            (depth + 0) (spot index) = _ :=
          outsideWithin_pass put.isHook.settles put.stands (.inr passes)
        rw [Nat.add_zero] at passed
        have goesOn : ¬ (depth = 0 ∧ (tokens[index]).kind ∈ [TokenKind.openBrace, .semicolon]) := by
          obtain ⟨noBrace, noSemicolon, -⟩ := not_ends_of_mem (.inl put.kind)
          simp [noBrace, noSemicolon]
        have flat : ∀ kind ∈ exitKinds, ∀ depth, depthAfter kind depth = depth := by
          simp [exitKinds, depthAfter]
        rw [passed, ← put.next, ih before (by omega), if_neg goesOn, flat _ put.kind]

theorem headerEnd (inside : index ≤ tokens.size) :
    others.firstOutside [.openBrace, .semicolon] (spot index) =
      (tokens.firstOutside [.openBrace, .semicolon] index).map spot :=
  hooked.headerEndWithin inside

theorem kept_of_headerEnd {last : Nat}
    (search : tokens.firstOutside [.openBrace, .semicolon] index = some last) :
    ∃ ending, KeptAt spot tokens others last ending := by
  obtain ⟨-, kind, isThere, among⟩ := Tokens.firstOutside_some search
  obtain ⟨ending, there, rfl⟩ := Tokens.kindAt_eq_some.mp isThere
  refine ⟨ending, hooked.kept_of_kind there fun isExit => ?_⟩
  obtain ⟨noBrace, noSemicolon, -⟩ := not_ends_of_mem (.inl isExit)
  simp [noBrace, noSemicolon] at among

theorem balanced {depth : Nat} (deep : depth ≠ 0) (inside : index ≤ tokens.size) :
    others.balancedWithin .paren (others.size - spot index) depth (spot index) =
      (tokens.balancedWithin .paren (tokens.size - index) depth index).map spot := by
  obtain ⟨left, behind⟩ : ∃ left, tokens.size - index = left := ⟨_, rfl⟩
  induction left generalizing index depth with
  | zero =>
      obtain rfl : index = tokens.size := by omega
      rw [hooked.size, balancedWithin_ended (Array.getElem?_eq_none (Nat.le_refl _)),
        balancedWithin_ended (Array.getElem?_eq_none (Nat.le_refl _))]
      rfl
  | succ left ih =>
      have before : index < tokens.size := by omega
      have here : tokens[index]? = some tokens[index] := Array.getElem?_eq_getElem before
      rw [balancedWithin_here here]
      rcases hooked.cases here with kept | ⟨added, -, put⟩
      · rw [balancedWithin_here kept.there, ← kept.next]
        split
        · rfl
        · next passes => exact ih (parensAfter_ne_zero deep passes) before (by omega)
      · have passed : others.balancedWithin .paren (others.size - spot index) (depth + 0)
            (spot index) = _ := balancedWithin_pass put.isHook.settles put.stands deep
        rw [Nat.add_zero] at passed
        have goesOn : ¬ ((tokens[index]).kind = .closeParen ∧ depth ≤ 1) := by
          have other : ∀ kind ∈ exitKinds, kind ≠ .closeParen := by decide
          exact fun both => other _ put.kind both.1
        have flat : ∀ kind ∈ exitKinds, ∀ depth, parensAfter kind depth = depth := by
          simp [exitKinds, parensAfter]
        rw [passed, ← put.next, ih deep before (by omega), if_neg goesOn, flat _ put.kind]

theorem closing {close : Nat} (found : tokens.closing .paren index = .ok close) :
    others.closing .paren (spot index) = .ok (spot close) := by
  unfold Tokens.closing at found ⊢
  cases here : tokens[index]? with
  | none =>
      rw [here] at found
      cases found
  | some token =>
      rw [here] at found
      by_cases opens : token.kind = .openParen
      · have kept := hooked.kept_of_kind here (opens ▸ by decide)
        have before := (Array.getElem?_eq_some_iff.mp here).1
        have partner := hooked.balanced Nat.one_ne_zero before
        rw [kept.next, ← balancedWithin_open here opens,
          ← balancedWithin_open kept.there opens] at partner
        rw [kept.there]
        simp only [Bracket.opening, opens, reduceIte, partner] at found ⊢
        generalize tokens.balancedWithin .paren (tokens.size - index) 0 index = first at found ⊢
        cases first with
        | none => cases found
        | some last =>
            cases found
            rfl
      · simp only [Bracket.opening, opens, reduceIte] at found
        cases found

theorem functionHeader {close last : Nat} (found : tokens.closing .paren index = .ok close)
    (search : tokens.firstOutside [.openBrace, .semicolon] (close + 1) = some last) :
    others.closing .paren (spot index) = .ok (spot close) ∧
      others.firstOutside [.openBrace, .semicolon] (spot close + 1) = some (spot last) := by
  obtain ⟨paren, here, closes⟩ := Tokens.kindAt_eq_some.mp (Tokens.closing_kind found)
  have kept := hooked.kept_of_kind here (closes ▸ by decide)
  refine ⟨hooked.closing found, ?_⟩
  rw [← kept.next, hooked.headerEnd kept.inside, search]
  rfl

end Searches

/-! ### Headers -/

open Reader

theorem behind_word (here : tokens.kindAt index = some .identifier) {found : Nat}
    (search : tokens.nextSignificant (index + 1) = some found) :
    (∃ token, KeptAt spot tokens others found token) ∨
      ∃ token added, PutAt spot tokens others found token added ∧ token.kind = .kwExit := by
  have inside := Tokens.nextSignificant_lt search
  rcases hooked.cases (Array.getElem?_eq_getElem inside) with kept | ⟨added, -, put⟩
  · exact .inl ⟨_, kept⟩
  · refine .inr ⟨_, added, put, ?_⟩
    have kind := put.kind
    simp only [exitKinds, List.mem_cons, List.not_mem_nil, or_false] at kind
    refine kind.resolve_right fun isName => ?_
    have isMember := put.member isName
    rw [Tokens.isMemberName, Tokens.prevKind_of_nextSignificant here rfl search] at isMember
    cases isMember

theorem pastAmpersand (inside : index ≤ tokens.size) :
    pastAmpersand others (spot index) = (pastAmpersand tokens index).map spot := by
  unfold Reader.pastAmpersand
  rw [hooked.nextSignificant inside]
  cases search : tokens.nextSignificant index with
  | none => rfl
  | some found =>
      obtain ⟨-, token, here, -⟩ := Tokens.firstFrom_some search
      have before := (Array.getElem?_eq_some_iff.mp here).1
      rw [Option.map_some, Option.bind_some, Option.bind_some,
        hooked.isAt (Nat.le_of_lt before) (by decide) (by decide)]
      split
      · next isOne =>
          obtain ⟨other, there, ampersand⟩ := Tokens.kindAt_eq_some.mp (eq_of_beq isOne)
          have kept := hooked.kept_of_kind there (ampersand ▸ by decide)
          rw [← kept.next, hooked.nextSignificant before]
      · rfl

theorem className?_isSome (kept : KeptAt spot tokens others index token) :
    (className? others (spot index)).isSome = (className? tokens index).isSome := by
  have before := kept.inside
  unfold className?
  simp only [hooked.prevKind_new (Nat.le_of_lt before)]
  split
  · rfl
  · rw [← kept.next, hooked.nextSignificant before]
    cases search : tokens.nextSignificant (index + 1) with
    | none => rfl
    | some found =>
        obtain ⟨-, other, here, -⟩ := Tokens.firstFrom_some search
        rw [Option.map_some, Option.bind_some, Option.bind_some, here, Option.bind_some]
        rcases hooked.cases here with kept | ⟨added, -, put⟩
        · rw [kept.there, Option.bind_some]
        · obtain ⟨name, colons, there, -, isName, -⟩ := put.begins
          have likeName : ∀ kind ∈ exitKinds, kind.isIdentifierLike = true := by decide
          rw [there, Option.bind_some, isName, likeName _ put.kind]
          rfl

/-- What comes behind the name of a function is the same in both lists, unless a call stands for
the name; then no parameter list comes there. -/
theorem functionName (kept : KeptAt spot tokens others index token) :
    (functionName others (spot index)).2 = (functionName tokens index).2.map spot ∨
      ∃ place, isPut place ∧ index < place ∧
        (∀ opening, (functionName tokens index).2 = some opening → place < opening) ∧
        ∃ behind, (functionName others (spot index)).2 = some behind ∧
          others.isAt behind .openParen = false := by
  have before := kept.inside
  unfold Reader.functionName
  rw [← kept.next, hooked.pastAmpersand before]
  cases search : Reader.pastAmpersand tokens (index + 1) with
  | none => exact .inl rfl
  | some found =>
      have behind := pastAmpersand_ge search
      have inside := pastAmpersand_lt search
      have here : tokens[found]? = some tokens[found] := Array.getElem?_eq_getElem inside
      simp only [Option.map_some, here]
      rcases hooked.cases here with same | ⟨added, isOne, put⟩
      · left
        simp only [same.there]
        split
        · rw [← same.next, hooked.nextSignificant inside]
        · rfl
      · right
        obtain ⟨class_, colons, there, next, isName, -, areColons, -⟩ := put.begins
        have significant : Tokens.isSignificant colons = true := by
          rw [Tokens.isSignificant, areColons]
          rfl
        have likeName : ∀ kind ∈ exitKinds, kind.isIdentifierLike = true := by decide
        refine ⟨found, isOne, behind, fun opening after => ?_, spot found + 1, ?_, ?_⟩
        · rw [if_pos (likeName _ put.kind)] at after
          exact Tokens.nextSignificant_ge after
        · simp only [there, isName]
          rw [Tokens.nextSignificant, Tokens.firstFrom_here next, if_pos significant]
          rfl
        · rw [Tokens.isAt, Tokens.kindAt, next, Option.map_some, areColons]
          rfl

theorem modifierRun {pending found : Nat} (inside : index ≤ tokens.size)
    (pendingInside : pending ≤ tokens.size) :
    modifierRun others (spot pending) (spot index) (spot found) =
      spot (modifierRun tokens pending index found) := by
  induction index generalizing found with
  | zero =>
      rw [hooked.start]
      rfl
  | succ index ih =>
      have earlier : index ≤ tokens.size := Nat.le_of_succ_le inside
      rw [Reader.modifierRun]
      rcases hooked.cases (Array.getElem?_eq_getElem inside) with kept | ⟨added, -, put⟩
      · rw [kept.next, Reader.modifierRun]
        simp only [hooked.spot_lt_iff earlier pendingInside, Tokens.kindAt, kept.here, kept.there,
          Option.map_some]
        split
        · rfl
        · split
          · exact ih earlier
          · split
            · exact ih earlier
            · rfl
      · obtain ⟨last, kind, same, isLast, there⟩ := put.exists_last
        have ended : ∀ kind ∈ exitKinds ++ endKinds,
            kind.isModifier = false ∧ kind ≠ .whitespace := by decide
        obtain ⟨noModifier, noSpace⟩ := ended kind (List.mem_append_right _ isLast)
        obtain ⟨noModifierHere, noSpaceHere⟩ := ended _ (List.mem_append_left endKinds put.kind)
        have stops : Reader.modifierRun others (spot pending) (last + 1) (spot found) =
            spot found := by
          rw [Reader.modifierRun, there]
          simp [noModifier, noSpace]
        rw [same, stops, Tokens.kindAt, put.here, Option.map_some]
        simp [noModifierHere, noSpaceHere]

/-- The header of a namespace is the same in both lists when no call stands in it. -/
theorem scopeHeader (inside : index ≤ tokens.size) (name : Text)
    (clear : ∀ last text, scopeHeader tokens (tokens.size - index) index name = some (last, text) →
      ∀ place, isPut place → index ≤ place → last < place) :
    scopeHeader others (others.size - spot index) (spot index) name =
      (scopeHeader tokens (tokens.size - index) index name).map (Prod.map spot id) := by
  obtain ⟨left, behind⟩ : ∃ left, tokens.size - index = left := ⟨_, rfl⟩
  induction left generalizing index name with
  | zero =>
      obtain rfl : index = tokens.size := by omega
      rw [hooked.size, scopeHeader_ended (Array.getElem?_eq_none (Nat.le_refl _)),
        scopeHeader_ended (Array.getElem?_eq_none (Nat.le_refl _))]
      rfl
  | succ left ih =>
      have before : index < tokens.size := by omega
      have here : tokens[index]? = some tokens[index] := Array.getElem?_eq_getElem before
      rcases hooked.cases here with kept | ⟨added, isOne, put⟩
      · have later (name : Text) (same : Reader.scopeHeader tokens (tokens.size - index) index _ =
            Reader.scopeHeader tokens (tokens.size - (index + 1)) (index + 1) name) :=
          ih before name (fun last text found place isOne past =>
            clear last text (same.trans found) place isOne (Nat.le_of_succ_le past)) (by omega)
        rw [scopeHeader_here here] at later ⊢
        rw [scopeHeader_here kept.there, ← kept.next]
        split
        · rfl
        · next goesOn =>
            rw [if_neg goesOn] at later
            split
            · next isName =>
                rw [if_pos isName] at later
                exact later _ rfl
            · next noName =>
                rw [if_neg noName] at later
                split
                · next trivia =>
                    rw [if_pos trivia] at later
                    exact later _ rfl
                · rfl
      · have none : Reader.scopeHeader tokens (tokens.size - index) index name = none := by
          cases found : Reader.scopeHeader tokens (tokens.size - index) index name with
          | none => rfl
          | some header =>
              have past := clear header.1 header.2 found index isOne (Nat.le_refl _)
              exact absurd (scopeHeader_some found).1 (Nat.not_le_of_lt past)
        obtain ⟨class_, colons, there, -, isName, -⟩ := put.begins
        rw [none, scopeHeader_here there, isName]
        rfl

end Hooked
end PhpWeave
