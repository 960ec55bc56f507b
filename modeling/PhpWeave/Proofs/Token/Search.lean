import PhpWeave.Token.Search

set_option autoImplicit false

/-!
What is found in a token list lies where the search looked, and the texts of neighbouring ranges put
together are the text of both.
-/

namespace PhpWeave.Tokens

variable {tokens : Tokens}

/-! ### Ranges -/

theorem split_at (tokens : Tokens) (first stop : Nat) :
    tokens.toList = tokens.toList.take first ++
      ((tokens.extract first stop).toList ++ (tokens.toList.drop first).drop (stop - first)) := by
  rw [Array.toList_extract, List.extract_eq_take_drop, List.take_append_drop,
    List.take_append_drop]

theorem extract_append {first middle last : Nat} (before : first ≤ middle) (after : middle ≤ last) :
    (tokens.extract first middle).toList ++ (tokens.extract middle last).toList =
      (tokens.extract first last).toList := by
  rw [← Array.toList_append, Array.extract_append_extract, Nat.min_eq_left before,
    Nat.max_eq_right after]

theorem extract_succ {first index : Nat} (before : first ≤ index) {token : Token}
    (here : tokens[index]? = some token) :
    (tokens.extract first (index + 1)).toList = (tokens.extract first index).toList ++ [token] := by
  obtain ⟨inside, rfl⟩ := Array.getElem?_eq_some_iff.mp here
  rw [Array.extract_succ_right (Nat.lt_succ_of_le before) inside, Array.toList_push]

theorem extract_cons {first stop : Nat} {token : Token} (here : tokens[first]? = some token)
    (before : first < stop) :
    (tokens.extract first stop).toList = token :: (tokens.extract (first + 1) stop).toList := by
  have one : (tokens.extract first (first + 1)).toList = [token] := by
    rw [extract_succ (Nat.le_refl first) here, Array.extract_empty_of_stop_le_start (Nat.le_refl _)]
    rfl
  rw [← extract_append (Nat.le_succ first) before, one]
  rfl

theorem mem_extract_iff {first stop : Nat} {token : Token} :
    token ∈ (tokens.extract first stop).toList ↔
      ∃ index, first ≤ index ∧ index < stop ∧ tokens[index]? = some token := by
  rw [Array.mem_toList_iff, Array.mem_extract_iff_getElem]
  constructor
  · rintro ⟨place, inside, rfl⟩
    exact ⟨first + place, by omega, by omega, Array.getElem?_eq_getElem (by omega)⟩
  · rintro ⟨index, behind, early, here⟩
    obtain ⟨inside, rfl⟩ := Array.getElem?_eq_some_iff.mp here
    refine ⟨index - first, by omega, ?_⟩
    simp only [Nat.add_sub_cancel' behind]

theorem textBetween_self (first : Nat) : tokens.textBetween first first = [] := by
  have none : tokens.extract first first = #[] :=
    Array.extract_empty_of_stop_le_start (Nat.le_refl first)
  rw [textBetween, none]
  rfl

theorem textBetween_append {first middle last : Nat} (before : first ≤ middle)
    (after : middle ≤ last) :
    tokens.textBetween first middle ++ tokens.textBetween middle last =
      tokens.textBetween first last := by
  rw [textBetween, textBetween, textBetween, ← Token.textOf_append, extract_append before after]

theorem textBetween_succ {first index : Nat} (before : first ≤ index) {token : Token}
    (here : tokens[index]? = some token) :
    tokens.textBetween first (index + 1) = tokens.textBetween first index ++ token.text := by
  rw [textBetween, extract_succ before here, Token.textOf_append, Token.textOf_cons,
    Token.textOf_nil, List.append_nil]
  rfl

theorem textBetween_single {index : Nat} {token : Token} (here : tokens[index]? = some token) :
    tokens.textBetween index (index + 1) = token.text := by
  rw [textBetween_succ (Nat.le_refl index) here, textBetween_self, List.nil_append]

theorem first_of_textBetween (filled : ∀ token ∈ tokens.toList, token.text ≠ [])
    {first stop : Nat} {c : Char} (single : tokens.textBetween first stop = [c]) :
    tokens[first]?.map Token.text = some [c] := by
  rw [textBetween] at single
  cases range : (tokens.extract first stop).toList with
  | nil =>
      rw [range] at single
      cases single
  | cons token rest =>
      have here : tokens[first]? = some token := by
        have head : (tokens.extract first stop).toList[0]? = some token := by
          rw [range]
          rfl
        rw [Array.getElem?_toList, Array.getElem?_extract] at head
        split at head
        · exact head
        · cases head
      have filled := filled token (Array.mem_toList_iff.mpr (Array.mem_of_getElem? here))
      rw [range, Token.textOf_cons] at single
      rw [here, Option.map_some]
      cases text : token.text with
      | nil => exact absurd text filled
      | cons first rest =>
          rw [text, List.cons_append] at single
          obtain ⟨rfl, none⟩ := List.cons.inj single
          rw [(List.append_eq_nil_iff.mp none).1]

theorem stop_le_of_textBetween (filled : ∀ token ∈ tokens.toList, token.text ≠ [])
    {first stop : Nat} (within : stop ≤ tokens.size) (none : tokens.textBetween first stop = []) :
    stop ≤ first := by
  refine Nat.le_of_not_lt fun order => ?_
  have inside := Nat.lt_of_lt_of_le order within
  have here : tokens[first] ∈ (tokens.extract first stop).toList := by
    rw [Array.mem_toList_iff, Array.mem_extract_iff_getElem]
    exact ⟨0, by omega, rfl⟩
  refine filled tokens[first] (Array.getElem_mem_toList inside) ?_
  exact List.flatMap_eq_nil_iff.mp none _ here

/-! ### Kinds -/

theorem kindAt_eq_some {index : Nat} {kind : TokenKind} :
    tokens.kindAt index = some kind ↔ ∃ token, tokens[index]? = some token ∧ token.kind = kind := by
  rw [kindAt, Option.map_eq_some_iff]

theorem any_extract_iff {first stop : Nat} {p : TokenKind → Bool} :
    (tokens.extract first stop).toList.any (fun token => p token.kind) = true ↔
      ∃ index kind, first ≤ index ∧ index < stop ∧ tokens.kindAt index = some kind ∧
        p kind = true := by
  simp only [List.any_eq_true, mem_extract_iff, kindAt_eq_some]
  constructor
  · rintro ⟨token, ⟨index, behind, early, here⟩, isOne⟩
    exact ⟨index, token.kind, behind, early, ⟨token, here, rfl⟩, isOne⟩
  · rintro ⟨index, kind, behind, early, ⟨token, here, rfl⟩, isOne⟩
    exact ⟨token, ⟨index, behind, early, here⟩, isOne⟩

theorem lt_size_of_kindAt {index : Nat} {kind : TokenKind}
    (here : tokens.kindAt index = some kind) : index < tokens.size := by
  obtain ⟨token, found, -⟩ := kindAt_eq_some.mp here
  exact (Array.getElem?_eq_some_iff.mp found).1

/-! ### Searches -/

theorem firstWithin_some {p : Token → Bool} {count index found : Nat}
    (search : tokens.firstWithin p count index = some found) :
    index ≤ found ∧ ∃ token, tokens[found]? = some token ∧ p token = true := by
  induction count generalizing index with
  | zero => cases search
  | succ count ih =>
      rw [firstWithin] at search
      split at search
      · cases search
      · next token here =>
          split at search
          · next holds =>
              cases search
              exact ⟨Nat.le_refl _, token, here, holds⟩
          · obtain ⟨later, rest⟩ := ih search
            exact ⟨Nat.le_of_succ_le later, rest⟩

theorem firstFrom_some {p : Token → Bool} {index found : Nat}
    (search : tokens.firstFrom p index = some found) :
    index ≤ found ∧ ∃ token, tokens[found]? = some token ∧ p token = true :=
  firstWithin_some search

/-- A search stops at the first token of its kind. -/
theorem firstWithin_before {p : Token → Bool} {count index found : Nat}
    (search : tokens.firstWithin p count index = some found) :
    ∀ other, index ≤ other → other < found → ∀ token, tokens[other]? = some token →
      p token = false := by
  induction count generalizing index with
  | zero => cases search
  | succ count ih =>
      rw [firstWithin] at search
      split at search
      · cases search
      · next token here =>
          split at search
          · cases search
            intro other behind before
            omega
          · next misses =>
              intro other behind before token found
              rcases Nat.eq_or_lt_of_le behind with rfl | past
              · rw [here] at found
                cases found
                exact eq_false_of_ne_true misses
              · exact ih search other past before token found

theorem firstWithin_lt {p : Token → Bool} {count index found : Nat}
    (search : tokens.firstWithin p count index = some found) : found < index + count := by
  induction count generalizing index with
  | zero => cases search
  | succ count ih =>
      rw [firstWithin] at search
      split at search
      · cases search
      · split at search
        · cases search
          omega
        · have later := ih search
          omega

/-- A search that finds nothing has passed no token of its kind. -/
theorem firstWithin_none {p : Token → Bool} {count index : Nat}
    (search : tokens.firstWithin p count index = none) {other : Nat} (behind : index ≤ other)
    (before : other < index + count) {token : Token} (here : tokens[other]? = some token) :
    p token = false := by
  induction count generalizing index with
  | zero => omega
  | succ count ih =>
      rw [firstWithin] at search
      split at search
      · next ended =>
          have beyond := Array.getElem?_eq_none_iff.mp ended
          have inside := (Array.getElem?_eq_some_iff.mp here).1
          omega
      · next first found =>
          split at search
          · cases search
          · next misses =>
              rcases Nat.eq_or_lt_of_le behind with rfl | past
              · rw [here] at found
                cases found
                exact eq_false_of_ne_true misses
              · exact ih search past (by omega)

theorem firstFrom_before {p : Token → Bool} {index found : Nat}
    (search : tokens.firstFrom p index = some found) :
    ∀ other, index ≤ other → other < found → ∀ token, tokens[other]? = some token →
      p token = false :=
  firstWithin_before search

/-- A search from a position looks at the token there and goes on behind it. -/
theorem firstFrom_here {p : Token → Bool} {index : Nat} {token : Token}
    (here : tokens[index]? = some token) :
    tokens.firstFrom p index = if p token then some index else tokens.firstFrom p (index + 1) := by
  have inside := (Array.getElem?_eq_some_iff.mp here).1
  rw [firstFrom, firstFrom, show tokens.size - index = tokens.size - (index + 1) + 1 by omega,
    firstWithin, here]

theorem firstFrom_ended {p : Token → Bool} {index : Nat} (ended : tokens[index]? = none) :
    tokens.firstFrom p index = none := by
  have outside := Array.getElem?_eq_none_iff.mp ended
  rw [firstFrom, show tokens.size - index = 0 by omega, firstWithin]

theorem firstFrom_of_before {p : Token → Bool} {index gap : Nat} {token : Token}
    (here : tokens[index + gap]? = some token) (holds : p token = true)
    (before : ∀ less < gap, ∀ other, tokens[index + less]? = some other → p other = false) :
    tokens.firstFrom p index = some (index + gap) := by
  induction gap generalizing index with
  | zero =>
      rw [Nat.add_zero] at here
      rw [firstFrom_here here, if_pos holds, Nat.add_zero]
  | succ gap ih =>
      have inside := (Array.getElem?_eq_some_iff.mp here).1
      have first : tokens[index]? = some tokens[index] := Array.getElem?_eq_getElem (by omega)
      have misses := before 0 (Nat.succ_pos gap) _ first
      rw [firstFrom_here first, misses, if_neg Bool.false_ne_true, ← Nat.add_assoc,
        Nat.add_right_comm]
      rw [← Nat.add_assoc, Nat.add_right_comm] at here
      refine ih here fun less within other found =>
        before (less + 1) (Nat.succ_lt_succ within) other ?_
      rw [← Nat.add_assoc, Nat.add_right_comm]
      exact found

theorem firstFrom_none {p : Token → Bool} {index gap : Nat}
    (search : tokens.firstFrom p index = none) {token : Token}
    (here : tokens[index + gap]? = some token) : p token = false := by
  have inside := (Array.getElem?_eq_some_iff.mp here).1
  exact firstWithin_none search (Nat.le_add_right _ _) (by omega) here

theorem nextSignificant_ge {index found : Nat}
    (search : tokens.nextSignificant index = some found) : index ≤ found :=
  (firstFrom_some search).1

theorem nextSignificant_lt {index found : Nat}
    (search : tokens.nextSignificant index = some found) : found < tokens.size := by
  obtain ⟨-, token, here, -⟩ := firstFrom_some search
  exact (Array.getElem?_eq_some_iff.mp here).1

theorem lastBelow_some {p : Token → Bool} {index found : Nat}
    (search : tokens.lastBelow p index = some found) :
    found < index ∧ (∃ token, tokens[found]? = some token ∧ p token = true) ∧
      ∀ other, found < other → other < index →
        ∀ token, tokens[other]? = some token → p token = false := by
  induction index with
  | zero => cases search
  | succ index ih =>
      rw [lastBelow] at search
      split at search
      · next holds =>
          have same : index = found := Option.some.inj search
          subst same
          refine ⟨Nat.lt_succ_self _, ?_, fun other behind before => by omega⟩
          cases here : tokens[index]? with
          | none =>
              rw [here] at holds
              cases holds
          | some token =>
              rw [here] at holds
              exact ⟨token, rfl, holds⟩
      · next fails =>
          obtain ⟨before, holds, none⟩ := ih search
          refine ⟨Nat.lt_succ_of_lt before, holds, fun other behind upto token here => ?_⟩
          rcases Nat.eq_or_lt_of_le (Nat.le_of_lt_succ upto) with rfl | less
          · rw [here] at fails
            exact eq_false_of_ne_true fails
          · exact none other behind less token here

/-- A search backwards finds a token when there is one of its kind. -/
theorem lastBelow_of_lt {p : Token → Bool} {index found : Nat} (before : found < index)
    {token : Token} (here : tokens[found]? = some token) (holds : p token = true) :
    ∃ last, tokens.lastBelow p index = some last ∧ found ≤ last := by
  induction index with
  | zero => omega
  | succ index ih =>
      rw [lastBelow]
      split
      · exact ⟨index, rfl, Nat.le_of_lt_succ before⟩
      · next fails =>
          refine ih (Nat.lt_of_le_of_ne (Nat.le_of_lt_succ before) fun same => fails ?_)
          rw [← same, here]
          exact holds

theorem balancedWithin_ge {bracket : Bracket} {count depth index found : Nat}
    (search : tokens.balancedWithin bracket count depth index = some found) : index ≤ found := by
  induction count generalizing depth index with
  | zero => cases search
  | succ count ih =>
      rw [balancedWithin] at search
      split at search
      · cases search
      · split at search
        · exact Nat.le_of_succ_le (ih search)
        · split at search
          · split at search
            · cases search
              exact Nat.le_refl _
            · exact Nat.le_of_succ_le (ih search)
          · exact Nat.le_of_succ_le (ih search)

theorem balancedWithin_kind {bracket : Bracket} {count depth index found : Nat}
    (search : tokens.balancedWithin bracket count depth index = some found) :
    tokens.kindAt found = some bracket.closing := by
  induction count generalizing depth index with
  | zero => cases search
  | succ count ih =>
      rw [balancedWithin] at search
      split at search
      · cases search
      · next token here =>
          split at search
          · exact ih search
          · split at search
            · next closes =>
                split at search
                · cases search
                  exact kindAt_eq_some.mpr ⟨token, here, closes⟩
                · exact ih search
            · exact ih search

theorem closing_kind {bracket : Bracket} {index found : Nat}
    (search : tokens.closing bracket index = .ok found) :
    tokens.kindAt found = some bracket.closing := by
  rw [closing] at search
  split at search
  · cases search
  · split at search
    · split at search
      · next balanced =>
          cases search
          exact balancedWithin_kind balanced
      · cases search
    · cases search

theorem closing_ge {bracket : Bracket} {index found : Nat}
    (search : tokens.closing bracket index = .ok found) : index ≤ found := by
  rw [closing] at search
  split at search
  · cases search
  · split at search
    · split at search
      · next balanced =>
          cases search
          exact balancedWithin_ge balanced
      · cases search
    · cases search

/-! ### Token lists that a search cannot tell apart -/

section Congr

variable {other : Tokens} {p : Token → Bool}
  (same : ∀ index : Nat, other[index]?.map p = tokens[index]?.map p)
include same

theorem firstWithin_congr (count index : Nat) :
    other.firstWithin p count index = tokens.firstWithin p count index := by
  induction count generalizing index with
  | zero => rfl
  | succ count ih =>
      have here := same index
      rw [firstWithin, firstWithin]
      cases found : tokens[index]? with
      | none =>
          rw [found, Option.map_none, Option.map_eq_none_iff] at here
          rw [here]
      | some token =>
          rw [found, Option.map_some] at here
          obtain ⟨token', found', sameHere⟩ := Option.map_eq_some_iff.mp here
          rw [found']
          simp only [sameHere, ih]

theorem lastBelow_congr (index : Nat) : other.lastBelow p index = tokens.lastBelow p index := by
  induction index with
  | zero => rfl
  | succ index ih => rw [lastBelow, lastBelow, same, ih]

end Congr

end PhpWeave.Tokens
