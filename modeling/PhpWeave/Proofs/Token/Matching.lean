import PhpWeave.Proofs.Token.Balance
import PhpWeave.Proofs.Token.Ending

set_option autoImplicit false

/-!
The walk from a bracket to its partner. The partner stands where as many brackets of the sort have
closed as opened for the first time. The text through both, scanned by itself, has the tokens that
were walked over, whatever tags, strings and other brackets stand among them. A walk that fails
leaves the cursor where it was.
-/

namespace PhpWeave

open Scan

namespace Tokens

variable {tokens : Tokens} {bracket : Bracket} {token : Token} {depth index last count : Nat}

/-! ### Partners -/

/-- From a position on, with some brackets open in front of it, all of them are closed with a token
and not before. -/
structure Balances (bracket : Bracket) (tokens : Tokens) (depth first last : Nat) : Prop where
  level : tokens.countOf [bracket.closing] first (last + 1) =
    depth + tokens.countOf [bracket.opening] first (last + 1)
  above : ∀ stop, first ≤ stop → stop ≤ last → tokens.countOf [bracket.closing] first stop <
    depth + tokens.countOf [bracket.opening] first stop

theorem balances_ended : tokens.Balances bracket 0 (index + 1) index where
  level := by
    rw [countOf_of_le (Nat.le_refl _), countOf_of_le (Nat.le_refl _)]
  above := fun _ since upto => absurd (Nat.le_trans since upto) (Nat.not_succ_le_self index)

theorem Balances.left {after : Nat} (later : tokens.Balances bracket after (index + 1) last)
    (here : tokens[index]? = some token) (order : index ≤ last) (inside : 0 < depth)
    (turn : (after + if token.kind ∈ [bracket.closing] then 1 else 0) =
      depth + if token.kind ∈ [bracket.opening] then 1 else 0) :
    tokens.Balances bracket depth index last where
  level := by
    have before : index < last + 1 := Nat.lt_succ_of_le order
    have level := later.level
    rw [countOf_left here before, countOf_left here before]
    omega
  above := by
    intro stop since upto
    rcases Nat.eq_or_lt_of_le since with rfl | further
    · rw [countOf_of_le (Nat.le_refl _), countOf_of_le (Nat.le_refl _)]
      exact inside
    · have above := later.above stop further upto
      rw [countOf_left here further, countOf_left here further]
      omega

theorem balances_of_within (inside : 0 < depth)
    (found : tokens.balancedWithin bracket count depth index = some last) :
    tokens.Balances bracket depth index last := by
  induction count generalizing depth index with
  | zero => cases found
  | succ count ih =>
      have order := balancedWithin_ge found
      rw [balancedWithin] at found
      split at found
      · cases found
      · next token here =>
          by_cases opens : token.kind = bracket.opening
          · rw [if_pos opens] at found
            refine (ih (Nat.succ_pos depth) found).left here order inside ?_
            rw [if_neg (not_closing_of_opens opens), if_pos (List.mem_singleton.mpr opens)]
          · have noOpening : token.kind ∉ [bracket.opening] := fun opened =>
              opens (List.mem_singleton.mp opened)
            rw [if_neg opens] at found
            by_cases closes : token.kind = bracket.closing
            · have isClosing : token.kind ∈ [bracket.closing] := List.mem_singleton.mpr closes
              rw [if_pos closes] at found
              by_cases outermost : depth ≤ 1
              · rw [if_pos outermost, Option.some.injEq] at found
                subst found
                refine balances_ended.left here order inside ?_
                rw [if_pos isClosing, if_neg noOpening]
                omega
              · rw [if_neg outermost] at found
                refine (ih (by omega) found).left here order inside ?_
                rw [if_pos isClosing, if_neg noOpening]
                omega
            · have noClosing : token.kind ∉ [bracket.closing] := fun closed =>
                closes (List.mem_singleton.mp closed)
              rw [if_neg closes] at found
              refine (ih inside found).left here order inside ?_
              rw [if_neg noClosing, if_neg noOpening]

/-- The bracket at a position is closed by a token: from the one through the other as many brackets
of the sort close as open, and up to no token between them. -/
structure Closes (bracket : Bracket) (tokens : Tokens) (opening last : Nat) : Prop where
  order : opening < last
  inside : last < tokens.size
  level : tokens.countOf [bracket.closing] opening (last + 1) =
    tokens.countOf [bracket.opening] opening (last + 1)
  above : ∀ stop, opening < stop → stop ≤ last →
    tokens.countOf [bracket.closing] opening stop < tokens.countOf [bracket.opening] opening stop

theorem Closes.unique {other : Nat} (closes : tokens.Closes bracket index last)
    (again : tokens.Closes bracket index other) : last = other := by
  rcases Nat.lt_trichotomy last other with less | same | less
  · have above := again.above (last + 1) (Nat.lt_succ_of_lt closes.order) less
    rw [closes.level] at above
    exact absurd above (Nat.lt_irrefl _)
  · exact same
  · have above := closes.above (other + 1) (Nat.lt_succ_of_lt again.order) less
    rw [again.level] at above
    exact absurd above (Nat.lt_irrefl _)

theorem closes_of_closing (here : tokens[index]? = some token)
    (opens : token.kind = bracket.opening) (search : tokens.closing bracket index = .ok last) :
    tokens.Closes bracket index last := by
  obtain ⟨partner, there, -⟩ := kindAt_eq_some.mp (closing_kind search)
  have found : tokens.balancedWithin bracket (tokens.size - (index + 1)) 1 (index + 1) =
      some last := by
    rw [closing, here] at search
    simp only [opens, reduceIte, balancedWithin_begun here opens] at search
    split at search
    · next within =>
        cases search
        exact within
    · cases search
  have order : index < last := balancedWithin_ge found
  have later := balances_of_within Nat.one_pos found
  have noClosing := not_closing_of_opens opens
  have isOpening : token.kind ∈ [bracket.opening] := List.mem_singleton.mpr opens
  refine ⟨order, (Array.getElem?_eq_some_iff.mp there).1, ?_, fun stop since upto => ?_⟩
  · rw [countOf_of_not_mem here noClosing (Nat.lt_succ_of_lt order),
      countOf_of_mem here isOpening (Nat.lt_succ_of_lt order), later.level, Nat.add_comm]
  · have above := later.above stop since upto
    rw [countOf_of_not_mem here noClosing since, countOf_of_mem here isOpening since]
    omega

theorem closing_ok_iff (here : tokens[index]? = some token) (opens : token.kind = bracket.opening) :
    tokens.closing bracket index = .ok last ↔ tokens.Closes bracket index last := by
  refine ⟨closes_of_closing here opens, fun closes => ?_⟩
  cases search : tokens.closing bracket index with
  | ok other => rw [closes.unique (closes_of_closing here opens search)]
  | error fault =>
      have never := ((closing_error_iff here opens fault).mp search).2
      have more := never (last + 1) (Nat.lt_succ_of_lt closes.order) closes.inside
      rw [closes.level] at more
      exact absurd more (Nat.lt_irrefl _)

theorem exists_closes_iff (here : tokens[index]? = some token)
    (opens : token.kind = bracket.opening) :
    (∃ last, tokens.closing bracket index = .ok last) ↔
      ∃ stop, index < stop ∧ stop ≤ tokens.size ∧ tokens.countOf [bracket.closing] index stop =
        tokens.countOf [bracket.opening] index stop := by
  constructor
  · rintro ⟨last, search⟩
    have closes := (closing_ok_iff here opens).mp search
    exact ⟨last + 1, Nat.lt_succ_of_lt closes.order, closes.inside, closes.level⟩
  · rintro ⟨stop, since, upto, level⟩
    cases search : tokens.closing bracket index with
    | ok last => exact ⟨last, rfl⟩
    | error fault =>
        have more := ((closing_error_iff here opens fault).mp search).2 stop since upto
        rw [level] at more
        exact absurd more (Nat.lt_irrefl _)

end Tokens

theorem Bracket.isSymbol (bracket : Bracket) :
    bracket.opening.isSymbol = true ∧ bracket.closing.isSymbol = true := by
  cases bracket <;> exact ⟨rfl, rfl⟩

/-! ### The text through both -/

/-- A text scanned by itself has the tokens of a range. A scan counts lines from the first, so the
tokens of a range that begins further down say other lines. -/
structure Rescans (tokens : Tokens) (first stop line : Nat) (text : Text) : Prop where
  spelled : text = tokens.textBetween first stop
  same : (TokenStream.ofText .php text).tokens.toList.map shape =
    (tokens.extract first stop).toList.map shape
  /-- Begun on the line of the range, as it is when that is the first, the scan finds the tokens
  themselves. -/
  placed : tokensFrom ⟨.php, false, line⟩ text = (tokens.extract first stop).toList

theorem Scan.rescans_of_closing {mode : Mode} {source : Text} {tokens : Tokens} {bracket : Bracket}
    {token : Token} {index last : Nat} (scanned : tokens.toList = scan mode source)
    (here : tokens[index]? = some token) (opens : token.kind = bracket.opening)
    (search : tokens.closing bracket index = .ok last) :
    Rescans tokens index (last + 1) token.line (tokens.textBetween index (last + 1)) := by
  have closes := Tokens.closes_of_closing here opens search
  obtain ⟨ending, there, isClosing⟩ := Tokens.kindAt_eq_some.mp (Tokens.closing_kind search)
  have range : (tokens.extract index (last + 1)).toList =
      token :: ((tokens.extract (index + 1) last).toList ++ [ending]) := by
    rw [Tokens.extract_cons here (Nat.lt_succ_of_lt closes.order),
      Tokens.extract_succ closes.order there]
  have whole : tokensFrom (State.start mode) source = tokens.toList := scanned.symm
  rw [Tokens.split_at tokens index (last + 1)] at whole
  obtain ⟨-, cut⟩ := tokensFrom_resume whole
  have lined := (numbered_of_cut cut).1
  rw [range] at cut lined
  rw [List.cons_append, List.append_assoc] at cut
  have line := congrArg Token.line (scan_cons cut).1
  have same (other : State) (php : other.mode = .php) :
      (tokensFrom other (tokens.textBetween index (last + 1))).map shape =
        (tokens.extract index (last + 1)).toList.map shape := by
    rw [Tokens.textBetween, range]
    exact tokensFrom_between cut (opens ▸ bracket.isSymbol.1) (isClosing ▸ bracket.isSymbol.2) php
  refine ⟨rfl, same (State.start .php) rfl, ?_⟩
  rw [← numbered_tokensFrom, same _ rfl, range]
  exact line ▸ lined

/-! ### Walks -/

namespace TokenStream

variable {stream : TokenStream} {bracket : Bracket}

/-- What the walk from a bracket to its partner does. -/
structure Matches (stream : TokenStream) (bracket : Bracket) : Prop where
  /-- It ends when up to some position as many brackets of the sort close as open. -/
  found : ∀ token, stream.current? = some token → token.kind = bracket.opening →
    ((∃ text, (stream.matching bracket).1 = .ok text) ↔
      ∃ stop, stream.cursor < stop ∧ stop ≤ stream.tokens.size ∧
        stream.tokens.countOf [bracket.closing] stream.cursor stop =
          stream.tokens.countOf [bracket.opening] stream.cursor stop)
  /-- Then the cursor is left on the token that closes the bracket. -/
  closed : ∀ token text, stream.current? = some token → token.kind = bracket.opening →
    (stream.matching bracket).1 = .ok text →
    ∃ last, stream.tokens.Closes bracket stream.cursor last ∧
      (stream.matching bracket).2 = { stream with cursor := last } ∧
      Rescans stream.tokens stream.cursor (last + 1) token.line text
  unclosed : ∀ token, stream.current? = some token → token.kind = bracket.opening →
    (¬ ∃ text, (stream.matching bracket).1 = .ok text) →
    (stream.matching bracket).1 = .error (.unbalanced bracket token.line)
  astray : (∀ token, stream.current? = some token → token.kind ≠ bracket.opening) →
    (stream.matching bracket).1 =
      .error (.notOpening bracket stream.cursor (stream.current?.map Token.text))
  kept : ∀ fault, (stream.matching bracket).1 = .error fault → (stream.matching bracket).2 = stream

theorem matching_of_closing {last : Nat}
    (search : stream.tokens.closing bracket stream.cursor = .ok last) :
    stream.matching bracket = (.ok (stream.tokens.textBetween stream.cursor (last + 1)),
      { stream with cursor := last }) := by
  rw [matching, search]

theorem matching_of_error {fault : BracketFault}
    (search : stream.tokens.closing bracket stream.cursor = .error fault) :
    stream.matching bracket = (.error fault, stream) := by
  rw [matching, search]

theorem matching_ok_iff {text : Text} : (stream.matching bracket).1 = .ok text ↔
    ∃ last, stream.tokens.closing bracket stream.cursor = .ok last ∧
      stream.tokens.textBetween stream.cursor (last + 1) = text := by
  cases search : stream.tokens.closing bracket stream.cursor with
  | error fault => simp only [matching_of_error search, reduceCtorEq, false_and, exists_false]
  | ok last => simp only [matching_of_closing search, Except.ok.injEq, exists_eq_left']

/-- The walk over any scanned text ends at the partner of the bracket it begins at, or fails and
leaves the cursor alone. -/
theorem matching_of_scan {mode : Mode} {source : Text}
    (scanned : stream.tokens = (ofText mode source).tokens) (bracket : Bracket) :
    stream.Matches bracket := by
  constructor
  case found =>
    intro token here opens
    rw [← Tokens.exists_closes_iff here opens]
    constructor
    · rintro ⟨text, walked⟩
      obtain ⟨last, search, -⟩ := matching_ok_iff.mp walked
      exact ⟨last, search⟩
    · rintro ⟨last, search⟩
      exact ⟨_, matching_ok_iff.mpr ⟨last, search, rfl⟩⟩
  case closed =>
    intro token text here opens walked
    obtain ⟨last, search, rfl⟩ := matching_ok_iff.mp walked
    have list : stream.tokens.toList = scan mode source := congrArg Array.toList scanned
    refine ⟨last, Tokens.closes_of_closing here opens search, ?_,
      rescans_of_closing list here opens search⟩
    rw [matching_of_closing search]
  case unclosed =>
    intro token here opens never
    cases search : stream.tokens.closing bracket stream.cursor with
    | ok last => exact absurd ⟨_, matching_ok_iff.mpr ⟨last, search, rfl⟩⟩ never
    | error fault =>
        rw [matching_of_error search, ((Tokens.closing_error_iff here opens fault).mp search).1]
  case astray =>
    intro other
    have search : stream.tokens.closing bracket stream.cursor =
        .error (.notOpening bracket stream.cursor (stream.current?.map Token.text)) := by
      unfold Tokens.closing
      cases here : stream.tokens[stream.cursor]? with
      | none => rw [current?, here, Option.map_none]
      | some token =>
          rw [current?, here, Option.map_some]
          exact if_neg (other token here)
    rw [matching_of_error search]
  case kept =>
    intro fault walked
    cases search : stream.tokens.closing bracket stream.cursor with
    | ok last =>
        rw [matching_of_closing search] at walked
        cases walked
    | error fault => rw [matching_of_error search]

/-- A bracket and its partner with text outside PHP code between them. -/
theorem matching_of_scan_tags :
    let source := "<?php f[(?>) <?= ']' ?>](<?php )]".toList
    let stream := (ofText .html source).seek 2
    stream.Matches .square ∧ (stream.matching .square).1 =
      .ok "[(?>) <?= ']' ?>](<?php )]".toList := by
  intro source stream
  have scanned : stream.tokens = (ofText .html source).tokens := rfl
  exact ⟨matching_of_scan scanned .square, by decide +kernel⟩

end TokenStream
end PhpWeave
