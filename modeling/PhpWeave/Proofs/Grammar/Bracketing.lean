import PhpWeave.Proofs.Grammar.Arrow
import PhpWeave.Proofs.Grammar.ParamList

set_option autoImplicit false

/-!
Arrow functions between nested brackets. Balanced tokens open as many brackets as they close, a part
in front of them closes no more than it opens, and a part behind opens no more than it closes. The
search for the end of an expression passes a closing bracket only where more are open than closed,
so it goes on behind none that closes what was opened in front of the arrow function.
-/

namespace PhpWeave

namespace Param

/-! ### Kinds of brackets -/

def openings : List TokenKind := [.openParen, .openBracket, .openBrace]

def closings : List TokenKind := [.closeParen, .closeBracket, .closeBrace]

theorem opening_mem (bracket : Bracket) :
    bracket.opening ∈ openings ∧ bracket.opening ∉ closings := by
  cases bracket <;> decide

theorem closing_mem (bracket : Bracket) :
    bracket.closing ∈ closings ∧ bracket.closing ∉ openings := by
  cases bracket <;> decide

theorem exists_of_mem_openings {kind : TokenKind} (isOne : kind ∈ openings) :
    ∃ bracket : Bracket, kind = bracket.opening := by
  simp only [openings, List.mem_cons, List.not_mem_nil, or_false] at isOne
  rcases isOne with rfl | rfl | rfl
  exacts [⟨.paren, rfl⟩, ⟨.square, rfl⟩, ⟨.curly, rfl⟩]

theorem exists_of_mem_closings {kind : TokenKind} (isOne : kind ∈ closings) :
    ∃ bracket : Bracket, kind = bracket.closing := by
  simp only [closings, List.mem_cons, List.not_mem_nil, or_false] at isOne
  rcases isOne with rfl | rfl | rfl
  exacts [⟨.paren, rfl⟩, ⟨.square, rfl⟩, ⟨.curly, rfl⟩]

/-! ### Counts of balanced tokens -/

def count (kinds : List TokenKind) (tokens : List Token) : Nat :=
  tokens.countP fun token => token.kind ∈ kinds

@[simp] theorem count_nil (kinds : List TokenKind) : count kinds [] = 0 := rfl

@[simp] theorem count_append (kinds : List TokenKind) (front back : List Token) :
    count kinds (front ++ back) = count kinds front + count kinds back :=
  List.countP_append

theorem count_cons_of_mem {kinds : List TokenKind} {token : Token} (isOne : token.kind ∈ kinds)
    (rest : List Token) : count kinds (token :: rest) = count kinds rest + 1 :=
  List.countP_cons_of_pos (decide_eq_true isOne)

theorem count_cons_of_not_mem {kinds : List TokenKind} {token : Token}
    (other : token.kind ∉ kinds) (rest : List Token) :
    count kinds (token :: rest) = count kinds rest :=
  List.countP_cons_of_neg fun isOne => other (of_decide_eq_true isOne)

section Token

variable {bracket : Bracket} {token : Token} (rest : List Token)

theorem count_opening (opens : token.kind = bracket.opening) :
    count openings (token :: rest) = count openings rest + 1 ∧
      count closings (token :: rest) = count closings rest :=
  ⟨count_cons_of_mem (opens ▸ (opening_mem bracket).1) rest,
    count_cons_of_not_mem (opens ▸ (opening_mem bracket).2) rest⟩

theorem count_closing (closes : token.kind = bracket.closing) :
    count openings (token :: rest) = count openings rest ∧
      count closings (token :: rest) = count closings rest + 1 :=
  ⟨count_cons_of_not_mem (closes ▸ (closing_mem bracket).2) rest,
    count_cons_of_mem (closes ▸ (closing_mem bracket).1) rest⟩

theorem count_plain (opensNone : ∀ bracket : Bracket, token.kind ≠ bracket.opening)
    (closesNone : ∀ bracket : Bracket, token.kind ≠ bracket.closing) :
    count openings (token :: rest) = count openings rest ∧
      count closings (token :: rest) = count closings rest := by
  constructor
  · refine count_cons_of_not_mem (fun isOne => ?_) rest
    obtain ⟨bracket, opens⟩ := exists_of_mem_openings isOne
    exact opensNone bracket opens
  · refine count_cons_of_not_mem (fun isOne => ?_) rest
    obtain ⟨bracket, closes⟩ := exists_of_mem_closings isOne
    exact closesNone bracket closes

end Token

variable {tokens : List Token}

theorem Balanced.count_eq (balanced : Balanced tokens) :
    count openings tokens = count closings tokens := by
  induction balanced with
  | nil => rfl
  | @plain token rest opensNone closesNone _ ih =>
      obtain ⟨opened, closed⟩ := count_plain rest opensNone closesNone
      rw [opened, closed, ih]
  | @span bracket opening closing inner rest opens closes _ _ ihWithin ihLater =>
      obtain ⟨opened, kept⟩ := count_opening (inner ++ closing :: rest) opens
      obtain ⟨lasting, closed⟩ := count_closing rest closes
      rw [opened, kept, count_append, count_append, lasting, closed]
      omega

/-- What is left of balanced tokens behind some of them opens no more than it closes. -/
theorem Balanced.count_drop_le (balanced : Balanced tokens) (index : Nat) :
    count openings (tokens.drop index) ≤ count closings (tokens.drop index) := by
  induction balanced generalizing index with
  | nil => rw [List.drop_nil]; exact Nat.le_refl _
  | @plain token rest opensNone closesNone later ih =>
      cases index with
      | zero => exact Nat.le_of_eq (Balanced.plain opensNone closesNone later).count_eq
      | succ index => exact ih index
  | @span bracket opening closing inner rest opens closes within later ihWithin ihLater =>
      cases index with
      | zero => exact Nat.le_of_eq (Balanced.span opens closes within later).count_eq
      | succ index =>
          rw [List.drop_succ_cons, List.drop_append, count_append, count_append]
          have front := ihWithin index
          rcases Nat.lt_or_ge inner.length index with behind | before
          · obtain ⟨left, isLeft⟩ := Nat.exists_eq_add_of_lt behind
            have past : index - inner.length = left + 1 := by omega
            rw [past, List.drop_succ_cons]
            exact Nat.add_le_add front (ihLater left)
          · obtain ⟨lasting, closed⟩ := count_closing rest closes
            rw [Nat.sub_eq_zero_of_le before, List.drop_zero, lasting, closed]
            have back := later.count_eq
            omega

theorem Balanced.count_take_le (balanced : Balanced tokens) (index : Nat) :
    count closings (tokens.take index) ≤ count openings (tokens.take index) := by
  have whole := balanced.count_eq
  have back := balanced.count_drop_le index
  rw [← List.take_append_drop index tokens, count_append, count_append] at whole
  omega

end Param

/-! ### Ranges of tokens -/

namespace Tokens

open Param

variable {tokens : Tokens} {first index stop : Nat}

theorem countOf_eq_count (kinds : List TokenKind) (first stop : Nat) :
    tokens.countOf kinds first stop = count kinds (tokens.extract first stop).toList := rfl

theorem countOf_behind (balanced : Balanced (tokens.extract first stop).toList)
    (since : first ≤ index) :
    tokens.countOf openings index stop ≤ tokens.countOf closings index stop := by
  have behind : (tokens.extract index stop).toList =
      (tokens.extract first stop).toList.drop (index - first) := by
    rw [Array.toList_extract, Array.toList_extract, List.extract_eq_take_drop,
      List.extract_eq_take_drop, List.drop_take, List.drop_drop, Nat.add_sub_cancel' since]
    congr 1
    omega
  rw [countOf_eq_count, countOf_eq_count, behind]
  exact balanced.count_drop_le _

theorem countOf_before (balanced : Balanced (tokens.extract first stop).toList)
    (upto : index ≤ stop) :
    tokens.countOf closings first index ≤ tokens.countOf openings first index := by
  have before : (tokens.extract first index).toList =
      (tokens.extract first stop).toList.take (index - first) := by
    rw [Array.toList_extract, Array.toList_extract, List.extract_eq_take_drop,
      List.extract_eq_take_drop, List.take_take, Nat.min_eq_left (by omega)]
  rw [countOf_eq_count, countOf_eq_count, before]
  exact balanced.count_take_le _

theorem depth_of_expressionEnd {count depth close : Nat} {kind : TokenKind}
    (here : tokens.kindAt index = some kind) (ahead : index < close)
    (before : close < (tokens.expressionEndWithin (count + 1) depth index).getD tokens.size) :
    ∃ level, close < (tokens.expressionEndWithin count level (index + 1)).getD tokens.size ∧
      level + (if kind ∈ closings then 1 else 0) = depth + (if kind ∈ openings then 1 else 0) := by
  -- Where the search ends at the token itself, it does not come to what stands behind.
  have onward {next : Option Nat}
      (before : close < (if depth = 0 then some index else next).getD tokens.size) :
      depth ≠ 0 ∧ close < next.getD tokens.size := by
    split at before
    · exact absurd before (Nat.lt_asymm ahead)
    · next open_ => exact ⟨open_, before⟩
  rw [expressionEndWithin, here] at before
  simp only at before
  split at before
  case h_1 | h_2 | h_3 => exact ⟨depth + 1, before, rfl⟩
  case h_4 | h_5 | h_6 =>
    obtain ⟨open_, later⟩ := onward before
    exact ⟨depth - 1, later, Nat.succ_pred open_⟩
  case h_7 | h_8 | h_9 => exact ⟨depth, (onward before).2, rfl⟩
  case h_10 =>
    refine ⟨depth, before, ?_⟩
    rw [if_neg (by simp_all [closings]), if_neg (by simp_all [openings])]

/-- The end of an expression is searched behind a closing bracket only if more brackets are open
there than the tokens in front of it close. -/
theorem countOf_lt_of_expressionEnd {bracket : Bracket} {close depth : Nat}
    (closes : tokens.isAt close bracket.closing = true) (since : index ≤ close)
    (before : close < (tokens.expressionEndWithin (tokens.size - index) depth index).getD
      tokens.size) :
    tokens.countOf closings index close < depth + tokens.countOf openings index close := by
  have isClosing := eq_of_beq closes
  have inside := lt_size_of_kindAt isClosing
  obtain ⟨gap, further⟩ : ∃ gap, close - index = gap := ⟨_, rfl⟩
  induction gap generalizing index depth with
  | zero =>
      obtain rfl : index = close := by omega
      have left : tokens.size - index = tokens.size - (index + 1) + 1 := by omega
      rw [countOf_of_le (Nat.le_refl _), countOf_of_le (Nat.le_refl _)]
      refine Nat.pos_of_ne_zero fun level => ?_
      obtain rfl : depth = 0 := level
      rw [left, expressionEndWithin, isClosing] at before
      cases bracket <;> exact Nat.lt_irrefl _ before
  | succ gap ih =>
      have ahead : index < close := by omega
      have left : tokens.size - index = tokens.size - (index + 1) + 1 := by omega
      have here : tokens[index]? = some tokens[index] :=
        Array.getElem?_eq_getElem (Nat.lt_trans ahead inside)
      rw [left] at before
      obtain ⟨level, search, account⟩ :=
        depth_of_expressionEnd (kindAt_eq_some.mpr ⟨_, here, rfl⟩) ahead before
      have later := ih (show index + 1 ≤ close from ahead) search (by omega)
      rw [countOf_left here ahead, countOf_left here ahead]
      omega

theorem lt_of_arrowBody? {arrow body : Nat} (search : Reader.arrowBody? tokens arrow = some body) :
    arrow < body := by
  obtain ⟨opening, isOpening, search⟩ := Option.bind_eq_some_iff.mp search
  obtain ⟨-, -, search⟩ := Option.bind_eq_some_iff.mp search
  obtain ⟨close, isClose, search⟩ := Option.bind_eq_some_iff.mp search
  obtain ⟨last, isLast, search⟩ := Option.bind_eq_some_iff.mp search
  obtain ⟨-, -, ends⟩ := Option.bind_eq_some_iff.mp search
  have word := Reader.pastAmpersand_ge isOpening
  have params := (firstOutside_some isClose).1
  have head := (firstOutside_some isLast).1
  cases ends
  omega

/-- Where the brackets from a position in front of an arrow function up to a closing bracket are
nested, and those between its word and its arrow, the body ends at the bracket at the latest. -/
theorem arrowStop?_le_of_balanced {bracket : Bracket} {arrow close : Nat}
    (heads : ∀ body, Reader.arrowBody? tokens arrow = some body →
      Balanced (tokens.extract arrow body).toList)
    (begins : tokens.arrowStop? arrow = some stop)
    (closes : tokens.isAt close bracket.closing = true)
    (nested : Balanced (tokens.extract first close).toList) (since : first ≤ arrow)
    (before : arrow < close) : stop ≤ close := by
  obtain ⟨token, -, begins⟩ := Option.bind_eq_some_iff.mp begins
  split at begins
  case isFalse => cases begins
  obtain ⟨body, isBody, rfl⟩ := Option.map_eq_some_iff.mp begins
  refine Nat.le_of_not_lt fun past => ?_
  have outer := countOf_behind nested since
  rcases Nat.lt_or_ge close body with inHead | behind
  · -- The bracket would close what was opened between the word and the arrow.
    have head := countOf_before (heads body isBody) inHead
    obtain ⟨last, there, isClosing⟩ := kindAt_eq_some.mp (eq_of_beq closes)
    rw [countOf_eq_count, countOf_eq_count, extract_succ (Nat.le_of_lt before) there, count_append,
      count_append, (count_closing [] isClosing).1, (count_closing [] isClosing).2,
      ← countOf_eq_count, ← countOf_eq_count, count_nil, count_nil] at head
    omega
  · have word := lt_of_arrowBody? isBody
    have inner := countOf_behind nested (Nat.le_trans since (Nat.le_of_lt word))
    have expression := countOf_lt_of_expressionEnd closes behind past
    omega

end Tokens
end PhpWeave
