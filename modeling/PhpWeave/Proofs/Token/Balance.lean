import PhpWeave.Proofs.Token.Growth

set_option autoImplicit false

/-!
The searches that keep a depth, told by counting. A bracket is closed where for the first time as
many brackets of its sort close as open from it on. A search outside brackets lets closing brackets
pass that close nothing, so a token is inside brackets for it when some range that ends there opens
more than it closes.
-/

namespace PhpWeave

theorem Bracket.opening_ne_closing (bracket other : Bracket) :
    bracket.opening ≠ other.closing := by
  cases bracket <;> cases other <;> decide

namespace Tokens

variable {tokens : Tokens} {bracket : Bracket} {kinds : List TokenKind} {token : Token}
  {first index stop depth : Nat}

/-! ### Counts -/

/-- How many tokens of some kinds stand from one position up to another. -/
def countOf (kinds : List TokenKind) (tokens : Tokens) (first stop : Nat) : Nat :=
  (tokens.extract first stop).toList.countP fun token => token.kind ∈ kinds

theorem countOf_of_le (order : stop ≤ first) : tokens.countOf kinds first stop = 0 := by
  rw [countOf, Array.extract_empty_of_stop_le_start order, Array.toList_empty, List.countP_nil]

theorem countOf_left (here : tokens[first]? = some token) (before : first < stop)
    (kinds : List TokenKind) :
    tokens.countOf kinds first stop =
      tokens.countOf kinds (first + 1) stop + if token.kind ∈ kinds then 1 else 0 := by
  rw [countOf, extract_cons here before, List.countP_cons]
  simp only [decide_eq_true_eq]
  rfl

theorem countOf_of_mem (here : tokens[first]? = some token) (isOne : token.kind ∈ kinds)
    (before : first < stop) :
    tokens.countOf kinds first stop = tokens.countOf kinds (first + 1) stop + 1 := by
  rw [countOf_left here before, if_pos isOne]

theorem countOf_of_not_mem (here : tokens[first]? = some token) (other : token.kind ∉ kinds)
    (before : first < stop) :
    tokens.countOf kinds first stop = tokens.countOf kinds (first + 1) stop := by
  rw [countOf_left here before, if_neg other, Nat.add_zero]

theorem forall_stops {property : Nat → Prop} (inside : first < tokens.size) :
    (∀ stop, first ≤ stop → stop ≤ tokens.size → property stop) ↔
      property first ∧ ∀ stop, first + 1 ≤ stop → stop ≤ tokens.size → property stop := by
  constructor
  · intro all
    exact ⟨all first (Nat.le_refl _) (Nat.le_of_lt inside),
      fun stop since upto => all stop (Nat.le_of_succ_le since) upto⟩
  · rintro ⟨here, later⟩ stop since upto
    rcases Nat.eq_or_lt_of_le since with rfl | further
    · exact here
    · exact later stop further upto

/-! ### Partners -/

/-- The bracket opened at a position is closed nowhere: however far one reads on from there, more
brackets of its sort open than close. -/
def NeverCloses (bracket : Bracket) (tokens : Tokens) (opening : Nat) : Prop :=
  ∀ stop, opening < stop → stop ≤ tokens.size →
    tokens.countOf [bracket.closing] opening stop < tokens.countOf [bracket.opening] opening stop

theorem not_closing_of_opens (opens : token.kind = bracket.opening) :
    token.kind ∉ [bracket.closing] := fun closes =>
  bracket.opening_ne_closing bracket (opens.symm.trans (List.mem_singleton.mp closes))

theorem balancedWithin_none (inside : depth ≠ 0) :
    tokens.balancedWithin bracket (tokens.size - index) depth index = none ↔
      ∀ stop, index ≤ stop → stop ≤ tokens.size → tokens.countOf [bracket.closing] index stop <
        depth + tokens.countOf [bracket.opening] index stop := by
  obtain ⟨left, behind⟩ : ∃ left, tokens.size - index = left := ⟨_, rfl⟩
  induction left generalizing index depth with
  | zero =>
      rw [behind, balancedWithin]
      refine ⟨fun _ stop since upto => ?_, fun _ => rfl⟩
      rw [countOf_of_le (by omega)]
      omega
  | succ left ih =>
      have before : index < tokens.size := by omega
      have here : tokens[index]? = some tokens[index] := Array.getElem?_eq_getElem before
      have rest : tokens.size - (index + 1) = left := by omega
      rw [behind, balancedWithin, here, forall_stops before, countOf_of_le (Nat.le_refl _),
        countOf_of_le (Nat.le_refl _)]
      simp only [Nat.add_zero, Nat.pos_of_ne_zero inside, true_and]
      by_cases opens : tokens[index].kind = bracket.opening
      · have noClosing := not_closing_of_opens opens
        rw [if_pos opens, ← rest, ih (Nat.succ_ne_zero depth) rest]
        refine forall_congr' fun stop => forall_congr' fun since => forall_congr' fun _ => ?_
        rw [countOf_of_not_mem here noClosing since,
          countOf_of_mem here (List.mem_singleton.mpr opens) since]
        omega
      · have noOpening : tokens[index].kind ∉ [bracket.opening] := fun opened =>
          opens (List.mem_singleton.mp opened)
        rw [if_neg opens]
        by_cases closes : tokens[index].kind = bracket.closing
        · have isClosing : tokens[index].kind ∈ [bracket.closing] := List.mem_singleton.mpr closes
          rw [if_pos closes]
          by_cases last : depth ≤ 1
          · rw [if_pos last]
            refine ⟨fun none => (Option.some_ne_none _ none).elim, fun all => ?_⟩
            have stop := all (index + 1) (Nat.le_refl _) before
            rw [countOf_of_mem here isClosing (Nat.lt_succ_self _),
              countOf_of_not_mem here noOpening (Nat.lt_succ_self _),
              countOf_of_le (Nat.le_refl _), countOf_of_le (Nat.le_refl _)] at stop
            omega
          · rw [if_neg last, ← rest, ih (by omega) rest]
            refine forall_congr' fun stop => forall_congr' fun since => forall_congr' fun _ => ?_
            rw [countOf_of_mem here isClosing since, countOf_of_not_mem here noOpening since]
            omega
        · have noClosing : tokens[index].kind ∉ [bracket.closing] := fun closed =>
            closes (List.mem_singleton.mp closed)
          rw [if_neg closes, ← rest, ih inside rest]
          refine forall_congr' fun stop => forall_congr' fun since => forall_congr' fun _ => ?_
          rw [countOf_of_not_mem here noClosing since, countOf_of_not_mem here noOpening since]

theorem balancedWithin_begun (here : tokens[index]? = some token)
    (opens : token.kind = bracket.opening) :
    tokens.balancedWithin bracket (tokens.size - index) 0 index =
      tokens.balancedWithin bracket (tokens.size - (index + 1)) 1 (index + 1) := by
  have before := (Array.getElem?_eq_some_iff.mp here).1
  rw [show tokens.size - index = tokens.size - (index + 1) + 1 by omega, balancedWithin, here]
  exact if_pos opens

/-- No partner is found for a bracket that is closed nowhere, and only for such a one. -/
theorem closing_error_iff (here : tokens[index]? = some token)
    (opens : token.kind = bracket.opening) (fault : BracketFault) :
    tokens.closing bracket index = .error fault ↔
      fault = .unbalanced bracket token.line ∧ tokens.NeverCloses bracket index := by
  have never : tokens.NeverCloses bracket index ↔
      tokens.balancedWithin bracket (tokens.size - index) 0 index = none := by
    rw [balancedWithin_begun here opens, balancedWithin_none Nat.one_ne_zero]
    have noClosing := not_closing_of_opens opens
    refine forall_congr' fun stop => forall_congr' fun since => forall_congr' fun _ => ?_
    rw [countOf_of_not_mem here noClosing since,
      countOf_of_mem here (List.mem_singleton.mpr opens) since, Nat.add_comm 1]
  rw [never, closing, here]
  simp only [opens, reduceIte]
  cases tokens.balancedWithin bracket (tokens.size - index) 0 index with
  | none => simp only [Except.error.injEq, and_true, eq_comm]
  | some last => simp only [reduceCtorEq, and_false]

/-! ### Outside brackets -/

/-- A position is inside parentheses or square brackets that were opened since another one. -/
def Sheltered (tokens : Tokens) (first index : Nat) : Prop :=
  ∃ start, first ≤ start ∧ start < index ∧
    tokens.countOf [.closeParen, .closeBracket] start index <
      tokens.countOf [.openParen, .openBracket] start index

def Covered (tokens : Tokens) (depth first index : Nat) : Prop :=
  tokens.countOf [.closeParen, .closeBracket] first index <
      depth + tokens.countOf [.openParen, .openBracket] first index ∨
    tokens.Sheltered first index

theorem covered_zero : tokens.Covered 0 first index ↔ tokens.Sheltered first index := by
  refine ⟨fun covered => ?_, .inr⟩
  rcases covered with more | sheltered
  · rw [Nat.zero_add] at more
    refine ⟨first, Nat.le_refl _, Nat.lt_of_not_le fun beyond => ?_, more⟩
    rw [countOf_of_le beyond, countOf_of_le beyond] at more
    exact Nat.lt_irrefl 0 more
  · exact sheltered

theorem covered_self : tokens.Covered depth first first ↔ depth ≠ 0 := by
  constructor
  · rintro (more | ⟨start, since, before, -⟩)
    · rw [countOf_of_le (Nat.le_refl _), countOf_of_le (Nat.le_refl _)] at more
      exact Nat.ne_of_gt more
    · exact absurd since (Nat.not_le_of_lt before)
  · intro inside
    left
    rw [countOf_of_le (Nat.le_refl _), countOf_of_le (Nat.le_refl _)]
    exact Nat.pos_of_ne_zero inside

theorem sheltered_left (before : first < index) : tokens.Sheltered first index ↔
    tokens.countOf [.closeParen, .closeBracket] first index <
        tokens.countOf [.openParen, .openBracket] first index ∨
      tokens.Sheltered (first + 1) index := by
  constructor
  · rintro ⟨start, since, upto, more⟩
    rcases Nat.eq_or_lt_of_le since with rfl | further
    · exact .inl more
    · exact .inr ⟨start, further, upto, more⟩
  · rintro (more | ⟨start, since, upto, more⟩)
    · exact ⟨first, Nat.le_refl _, before, more⟩
    · exact ⟨start, Nat.le_of_succ_le since, upto, more⟩

/-- The depth follows the token that is passed. -/
theorem covered_left (here : tokens[first]? = some token) (before : first < index) :
    tokens.Covered depth first index ↔
      tokens.Covered (depthAfter token.kind depth) (first + 1) index := by
  have opened := countOf_left here before [.openParen, .openBracket]
  have closed := countOf_left here before [.closeParen, .closeBracket]
  -- Brackets that open more than they close behind the token are a shelter.
  have further (more : tokens.countOf [.closeParen, .closeBracket] (first + 1) index <
      tokens.countOf [.openParen, .openBracket] (first + 1) index) :
      tokens.Sheltered (first + 1) index := by
    refine ⟨first + 1, Nat.le_refl _, Nat.lt_of_not_le fun beyond => ?_, more⟩
    rw [countOf_of_le beyond, countOf_of_le beyond] at more
    exact Nat.lt_irrefl 0 more
  unfold Covered depthAfter
  rw [sheltered_left before, opened, closed]
  by_cases opens : token.kind = .openParen ∨ token.kind = .openBracket
  · have isOpening : token.kind ∈ [TokenKind.openParen, .openBracket] := by
      simpa only [List.mem_cons, List.not_mem_nil, or_false] using opens
    have noClosing : token.kind ∉ [TokenKind.closeParen, .closeBracket] := by
      rcases opens with isOne | isOne <;> rw [isOne] <;> decide
    rw [if_pos isOpening, if_neg noClosing, if_pos opens]
    constructor
    · rintro (more | more | sheltered)
      · exact .inl (by omega)
      · exact .inl (by omega)
      · exact .inr sheltered
    · rintro (more | sheltered)
      · exact .inl (by omega)
      · exact .inr (.inr sheltered)
  · have noOpening : token.kind ∉ [TokenKind.openParen, .openBracket] := by
      simpa only [List.mem_cons, List.not_mem_nil, or_false] using opens
    rw [if_neg noOpening, if_neg opens]
    by_cases closes : token.kind = .closeParen ∨ token.kind = .closeBracket
    · have isClosing : token.kind ∈ [TokenKind.closeParen, .closeBracket] := by
        simpa only [List.mem_cons, List.not_mem_nil, or_false] using closes
      rw [if_pos isClosing, if_pos closes]
      constructor
      · rintro (more | more | sheltered)
        · exact .inl (by omega)
        · exact .inr (further (by omega))
        · exact .inr sheltered
      · rintro (more | sheltered)
        · -- A closing bracket that closes nothing leaves the depth as it is.
          rcases Nat.eq_zero_or_pos depth with rfl | inside
          · exact .inr (.inr (further (by omega)))
          · exact .inl (by omega)
        · exact .inr (.inr sheltered)
    · have noClosing : token.kind ∉ [TokenKind.closeParen, .closeBracket] := by
        simpa only [List.mem_cons, List.not_mem_nil, or_false] using closes
      rw [if_neg noClosing, if_neg closes]
      constructor
      · rintro (more | more | sheltered)
        · exact .inl more
        · exact .inr (further more)
        · exact .inr sheltered
      · rintro (more | sheltered)
        · exact .inl more
        · exact .inr (.inr sheltered)

theorem outsideWithin_none :
    tokens.outsideWithin kinds (tokens.size - first) depth first = none ↔
      ∀ index kind, first ≤ index → tokens.kindAt index = some kind → kind ∈ kinds →
        tokens.Covered depth first index := by
  obtain ⟨left, behind⟩ : ∃ left, tokens.size - first = left := ⟨_, rfl⟩
  induction left generalizing first depth with
  | zero =>
      rw [behind, outsideWithin]
      refine ⟨fun _ index kind since isOne => ?_, fun _ => rfl⟩
      have inside := lt_size_of_kindAt isOne
      omega
  | succ left ih =>
      have before : first < tokens.size := by omega
      have here : tokens[first]? = some tokens[first] := Array.getElem?_eq_getElem before
      rw [outsideWithin_here here]
      by_cases outside : depth = 0 ∧ tokens[first].kind ∈ kinds
      · rw [if_pos outside]
        refine ⟨fun none => (Option.some_ne_none _ none).elim, fun all => ?_⟩
        have covered := all first _ (Nat.le_refl _) (kindAt_eq_some.mpr ⟨_, here, rfl⟩) outside.2
        exact absurd outside.1 (covered_self.mp covered)
      · rw [if_neg outside, ih (by omega)]
        constructor
        · intro later index kind since isOne among
          rcases Nat.eq_or_lt_of_le since with rfl | further
          · obtain ⟨found, same, rfl⟩ := kindAt_eq_some.mp isOne
            cases here.symm.trans same
            exact covered_self.mpr fun shallow => outside ⟨shallow, among⟩
          · exact (covered_left here further).mpr (later index kind further isOne among)
        · intro all index kind since isOne among
          exact (covered_left here since).mp
            (all index kind (Nat.le_of_succ_le since) isOne among)

theorem firstOutside_none : tokens.firstOutside kinds first = none ↔
    ∀ index kind, first ≤ index → tokens.kindAt index = some kind → kind ∈ kinds →
      tokens.Sheltered first index := by
  rw [firstOutside, outsideWithin_none]
  simp only [covered_zero]

end Tokens
end PhpWeave
