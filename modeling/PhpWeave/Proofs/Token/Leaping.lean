import PhpWeave.Proofs.Token.Enclosure
import PhpWeave.Proofs.Token.Heredoc

set_option autoImplicit false

/-!
Leaps against the measures that read one character at a time. A search passes only places that the
measure passes too, so a jump takes as many characters as the measure takes one by one. From the
place where a jump lands both go on alike, and the two agree wherever they begin.
-/

namespace PhpWeave

namespace Text

variable {p : Text → Bool} {text : Text} {place : Nat}

theorem seek?_eq_none (missing : seek? p text = none) :
    ∀ place < text.length, p (text.drop place) = false := by
  induction text with
  | nil => exact fun place inside => absurd inside (Nat.not_lt_zero _)
  | cons c rest ih =>
      rw [seek?_cons] at missing
      split at missing
      · cases missing
      · next notHere =>
          intro place inside
          cases place with
          | zero => exact eq_false_of_ne_true notHere
          | succ place =>
              exact ih (Option.map_eq_none_iff.mp missing) place (Nat.lt_of_succ_lt_succ inside)

def before (p : Text → Bool) (text : Text) : Nat := (seek? p text).getD text.length

theorem before_cons (p : Text → Bool) (c : Char) (rest : Text) :
    before p (c :: rest) = if p (c :: rest) then 0 else 1 + before p rest := by
  rw [before, seek?_cons, before]
  split
  · rfl
  · cases seek? p rest with
    | none => exact Nat.add_comm _ 1
    | some later => exact Nat.add_comm _ 1

theorem before_skip (count : Nat) (inside : count ≤ text.length)
    (passed : ∀ place < count, p (text.drop place) = false) :
    before p text = count + before p (text.drop count) := by
  induction count generalizing text with
  | zero => rw [List.drop_zero, Nat.zero_add]
  | succ count ih =>
      cases text with
      | nil => exact absurd inside (Nat.not_succ_le_zero _)
      | cons c rest =>
          have notHere : p (c :: rest) = false := passed 0 (Nat.succ_pos _)
          rw [before_cons, notHere, if_neg Bool.false_ne_true, List.drop_succ_cons,
            ih (Nat.le_of_succ_le_succ inside) fun place before =>
              passed (place + 1) (Nat.succ_lt_succ before)]
          omega

end Text

namespace Leap

open Lexeme Text

/-! ### Text outside PHP code and comments -/

section
variable {may ends : Text → Bool} {text : Text}

theorem within?_eq (possible : ∀ text, ends text = true → may text = true) (fuel start : Nat)
    (inside : start ≤ text.length) (enough : text.length < start + fuel) :
    within? may ends text fuel start = some (start + before ends (text.drop start)) := by
  induction fuel generalizing start with
  | zero => omega
  | succ fuel ih =>
      have size : (text.drop start).length = text.length - start := List.length_drop
      have impossible {rest : Text} (fails : may rest = false) : ends rest = false :=
        eq_false_of_ne_true fun holds => by rw [possible rest holds] at fails; cases fails
      rw [within?]
      cases search : seek? may (text.drop start) with
      | none =>
          -- Nowhere may the text end, so nowhere does it.
          have passed := before_skip (p := ends) (text.drop start).length (Nat.le_refl _)
            fun place before => impossible (seek?_eq_none search place before)
          rw [List.drop_length] at passed
          change some text.length = _
          rw [passed, size]
          change some text.length = some (start + (text.length - start + 0))
          rw [Nat.add_zero, Nat.add_sub_cancel' inside]
      | some skipped =>
          obtain ⟨short, -, first⟩ := seek?_eq_some search
          have inText : start + skipped < text.length := by omega
          have spelled := List.drop_eq_getElem_cons inText
          have passed := before_skip (p := ends) skipped (Nat.le_of_lt short)
            fun place before => impossible (first place before)
          rw [List.drop_drop, spelled, before_cons] at passed
          dsimp only
          rw [spelled, passed]
          split
          · rfl
          · rw [ih (start + skipped + 1) inText (by omega), Nat.add_assoc, Nat.add_assoc]

theorem within_eq (possible : ∀ text, ends text = true → may text = true) {start : Nat}
    (inside : start ≤ text.length) :
    within may ends text start = start + before ends (text.drop start) :=
  Option.get_of_eq_some _ (within?_eq possible _ start inside (by omega))

end

theorem inlineHtml_eq_before (text : Text) :
    inlineHtml text = before (fun text => (openTag? text).isSome) text := by
  induction text with
  | nil => rfl
  | cons c rest ih => rw [inlineHtml, before_cons, ih]

theorem lineComment_eq_before (text : Text) : Lexeme.lineComment text = before endsLine text := by
  induction text with
  | nil => rfl
  | cons c rest ih =>
      rw [Lexeme.lineComment, before_cons, ih]
      rfl

theorem isPrefixOf_pair (first second c : Char) (rest : Text) :
    [first, second].isPrefixOf (c :: rest) = (c == first && startsWhere (· == second) rest) := by
  cases rest with
  | nil =>
      rw [List.isPrefixOf_cons_cons, startsWhere, Bool.and_false]
      exact Bool.and_false _
  | cons d tail =>
      rw [List.isPrefixOf_cons_cons, List.isPrefixOf_cons_cons, List.isPrefixOf_nil_left,
        Bool.and_true, Bool.beq_comm, Bool.beq_comm (a := second)]
      rfl

theorem blockComment_eq_seek (text : Text) :
    Lexeme.blockComment text =
      ((seek? (['*', '/'].isPrefixOf ·) text).map (· + 2)).getD text.length := by
  induction text with
  | nil => rfl
  | cons c rest ih =>
      rw [Lexeme.blockComment, ih, seek?_cons, isPrefixOf_pair]
      split
      · rfl
      · cases seek? (['*', '/'].isPrefixOf ·) rest with
        | none => exact Nat.add_comm 1 _
        | some later => exact Nat.add_comm 1 _

theorem html_eq {text : Text} {start : Nat} (fits : start + 1 ≤ text.length) :
    html text start = start + 1 + inlineHtml (text.drop (start + 1)) := by
  rw [inlineHtml_eq_before]
  refine within_eq (fun text holds => ?_) fits
  unfold openTag? at holds
  split at holds
  · exact List.isPrefixOf_iff_prefix.mpr (List.prefix_append ['<', '?'] _)
  · cases holds

theorem lineComment_eq {text : Text} {start : Nat} (fits : start + 1 ≤ text.length) :
    lineComment text start = start + 1 + Lexeme.lineComment (text.drop (start + 1)) := by
  rw [lineComment_eq_before]
  refine within_eq (fun text holds => ?_) fits
  cases text with
  | nil => cases holds
  | cons c rest =>
      simp only [endsLine, startsWhere, mayEndLine, Bool.or_eq_true, Bool.and_eq_true] at holds ⊢
      exact holds.imp_right And.left

theorem blockComment_eq {text : Text} {start : Nat} (fits : start + 2 ≤ text.length) :
    blockComment text start = start + 2 + Lexeme.blockComment (text.drop (start + 2)) := by
  rw [blockComment_eq_seek, blockComment]
  cases seek? (['*', '/'].isPrefixOf ·) (text.drop (start + 2)) with
  | some skipped => exact Nat.add_assoc _ _ _
  | none =>
      change text.length = start + 2 + (text.drop (start + 2)).length
      rw [List.length_drop]
      omega

/-! ### Heredocs -/

theorem heredocBody_eq_seek (label text : Text) :
    heredocBody label false text =
      match seek? (startsWhere (· == '\n')) text with
      | some skipped => skipped + 1 + heredocBody label true (text.drop (skipped + 1))
      | none => text.length := by
  induction text with
  | nil => rfl
  | cons c rest ih =>
      rw [heredocBody_cons, seek?_cons]
      change 1 + heredocBody label (c == '\n') rest = _
      by_cases feed : (c == '\n') = true
      · have here : startsWhere (· == '\n') (c :: rest) = true := feed
        rw [feed, if_pos here]
        rfl
      · have notHere : startsWhere (· == '\n') (c :: rest) ≠ true := feed
        rw [eq_false_of_ne_true feed, if_neg notHere, ih]
        cases seek? (startsWhere (· == '\n')) rest with
        | none => exact Nat.add_comm 1 _
        | some later =>
            change 1 + (later + 1 + heredocBody label true (rest.drop (later + 1))) =
              later + 1 + 1 + heredocBody label true (rest.drop (later + 1))
            omega

theorem heredocBody_of_no_end {label text : Text} (goesOn : heredocEnd? label text = none) :
    heredocBody label true text = heredocBody label false text := by
  cases text with
  | nil => rfl
  | cons c rest => rw [heredocBody_cons, heredocBody_cons, if_pos rfl, goesOn]; rfl

theorem heredocEnd?_nil {label : Text} {length : Nat}
    (found : heredocEnd? label [] = some length) : length = 0 := by
  cases label with
  | nil =>
      cases found
      rfl
  | cons c rest => cases found

theorem heredocWithin?_eq (label text : Text) (fuel lineStart : Nat)
    (inside : lineStart ≤ text.length) (enough : text.length < lineStart + fuel) :
    heredocWithin? label text fuel lineStart =
      some (lineStart + heredocBody label true (text.drop lineStart)) := by
  induction fuel generalizing lineStart with
  | zero => omega
  | succ fuel ih =>
      have size : (text.drop lineStart).length = text.length - lineStart := List.length_drop
      rw [heredocWithin?]
      cases ending : heredocEnd? label (text.drop lineStart) with
      | some length =>
          cases spelled : text.drop lineStart with
          | nil =>
              rw [spelled] at ending
              rw [heredocEnd?_nil ending]
              rfl
          | cons c rest =>
              rw [spelled] at ending
              rw [heredocBody_cons, if_pos rfl, ending]
              rfl
      | none =>
          rw [heredocBody_of_no_end ending, heredocBody_eq_seek]
          cases search : seek? (startsWhere (· == '\n')) (text.drop lineStart) with
          | none =>
              dsimp only
              rw [size, Nat.add_sub_cancel' inside]
          | some skipped =>
              have short := seek?_drop_lt search
              dsimp only
              rw [List.drop_drop, ← Nat.add_assoc, ← Nat.add_assoc]
              split
              · next last =>
                  rw [List.drop_eq_nil_iff.mpr last, heredocBody, Nat.add_zero,
                    Nat.le_antisymm last short]
              · exact ih (lineStart + skipped + 1) short (by omega)

theorem heredoc_eq {text : Text} {start : Nat} (head : Head)
    (fits : start + 3 + head.length ≤ text.length) :
    heredoc head text start =
      start + 3 + head.length +
        heredocBody head.label true (text.drop (start + 3 + head.length)) :=
  Option.get_of_eq_some _ (heredocWithin?_eq head.label text _ _ fits (by omega))

/-! ### Strings -/

section
variable {mark : Char} {lead : Lead}

theorem quotedWithin?_past {text : Text} {start fuel : Nat} (past : text.length ≤ start)
    (jumps : 0 < fuel) : quotedWithin? text fuel mark start = some text.length := by
  cases fuel with
  | zero => exact absurd jumps (Nat.lt_irrefl _)
  | succ fuel => rw [quotedWithin?, List.drop_eq_nil_iff.mpr past, seek?]

theorem drop_of_getElem? {text : Text} {place : Nat} {c : Char} (here : text[place]? = some c) :
    text.drop place = c :: text.drop (place + 1) := by
  obtain ⟨inside, rfl⟩ := List.getElem?_eq_some_iff.mp here
  exact List.drop_eq_getElem_cons inside

/-- A dollar sign behind a brace, or one directly in front of it: the walk looks at the text, the scan
of single characters remembers what it has read. -/
theorem opens_iff (text : Text) (start skipped : Nat) :
    (text[start + skipped + 1]? = some '$' ∨
        start < start + skipped ∧ text[start + skipped - 1]? = some '$') ↔
      startsWhere (· == '$') (text.drop (start + skipped + 1)) = true ∨
        leadAt (text.drop start) skipped = .dollar := by
  refine or_congr ?_ ?_
  · constructor
    · intro dollar
      rw [drop_of_getElem? dollar]
      rfl
    · intro begins
      obtain ⟨rest, spelled⟩ := startsWhere_beq begins
      have first := congrArg (·[0]?) spelled
      simp only [List.getElem?_drop, Nat.add_zero, List.getElem?_cons_zero] at first
      exact first
  · unfold leadAt
    rw [List.getElem?_drop]
    split
    · next behind =>
        rw [show start + skipped - 1 = start + (skipped - 1) by omega]
        exact iff_of_true ⟨by omega, behind.2⟩ rfl
    · next notBehind =>
        refine iff_of_false (fun behind => notBehind ⟨by omega, ?_⟩) Lead.noConfusion
        rw [show start + (skipped - 1) = start + skipped - 1 by omega]
        exact behind.2

def StringsAgree (text : Text) (fuel : Nat) : Prop :=
  ∀ mark start, isQuote mark = true → start ≤ text.length → text.length < start + fuel →
    quotedWithin? text fuel mark start =
      some (start + enclosed [.quote mark] .plain (text.drop start))

def BracesAgree (text : Text) (fuel : Nat) : Prop :=
  ∀ depth start, start ≤ text.length → text.length < start + fuel →
    interpolationWithin? text fuel (depth + 1) start =
      some (start + enclosed (List.replicate (depth + 1) .braces) .plain (text.drop start))

/-- From the character where a jump stops both go on alike. -/
private theorem stop_agrees {text : Text} {fuel place : Nat} {c : Char} {opened : Prop}
    [Decidable opened] (strings : StringsAgree text fuel)
    (interpolations : BracesAgree text fuel) (isOne : isQuote mark = true)
    (inside : place < text.length) (enough : text.length < place + 1 + fuel)
    (stops : stopsString mark c = true) (passed : Lead.Passed lead)
    (opens : opened ↔ startsWhere (· == '$') (text.drop (place + 1)) = true ∨ lead = .dollar) :
    (if some c = some '\\' then quotedWithin? text fuel mark (place + 2)
      else if some c = some '\x7b' then
        if opened then
          (interpolationWithin? text fuel 1 (place + 1)).bind fun behind =>
            quotedWithin? text fuel mark behind
        else quotedWithin? text fuel mark (place + 1)
      else some (place + 1)) =
      some (place + enclosed [.quote mark] lead (c :: text.drop (place + 1))) := by
  have size : (text.drop (place + 1)).length = text.length - (place + 1) := List.length_drop
  simp only [Option.some_inj]
  -- A stop is a backslash, a brace or the mark, in the order in which the jump asks.
  by_cases backslash : c = '\\'
  · rw [if_pos backslash, backslash]
    cases behind : text.drop (place + 1) with
    | nil =>
        rw [behind, List.length_nil] at size
        rw [quotedWithin?_past (by omega) (by omega), enclosed, enclosed_nil, Option.some_inj]
        omega
    | cons d tail =>
        rw [behind, List.length_cons] at size
        have later : text.drop (place + 2) = tail := by
          rw [← List.drop_drop (i := 1) (j := place + 1), behind]
          rfl
        rw [enclosed_backslash passed, strings mark (place + 2) isOne (by omega) (by omega), later,
          Nat.add_assoc]
  rw [if_neg backslash]
  by_cases brace : c = '\x7b'
  · rw [if_pos brace]
    have double : mark ≠ '\'' := by
      rintro rfl
      rw [brace] at stops
      cases stops
    by_cases isOpened : opened
    · have taken := enclosed_le [.braces] .plain (text.drop (place + 1))
      have whole := enclosed_over (List.cons_ne_nil .braces []) [.quote mark] .plain
        (text.drop (place + 1))
      have closed : interpolationWithin? text fuel 1 (place + 1) =
          some (place + 1 + enclosed [.braces] .plain (text.drop (place + 1))) :=
        interpolations 0 (place + 1) inside enough
      rw [if_pos isOpened, brace, enclosed_opens isOne double passed (opens.mp isOpened)]
      change _ = some (place + (1 + enclosed ([.braces] ++ [.quote mark]) .plain _))
      rw [closed, Option.bind_some, whole, strings mark _ isOne (by omega) (by omega),
        List.drop_drop, Option.some_inj]
      omega
    · rw [if_neg isOpened, brace, enclosed_brace isOne double passed (isOpened ∘ opens.mpr),
        strings mark (place + 1) isOne inside enough, Nat.add_assoc]
  · rw [if_neg brace]
    have isMark : c = mark := by simpa [stopsString, backslash, brace] using stops
    rw [isMark, enclosed_mark isOne passed, enclosed]

theorem StringsAgree.succ {text : Text} {fuel : Nat} (strings : StringsAgree text fuel)
    (interpolations : BracesAgree text fuel) : StringsAgree text (fuel + 1) := by
  intro mark start isOne inside enough
  have size : (text.drop start).length = text.length - start := List.length_drop
  rw [quotedWithin?]
  cases search : seek? (startsWhere (stopsString mark)) (text.drop start) with
  | none =>
      rw [enclosed_skip (text.drop start).length (Nat.le_refl _) (seek?_eq_none search) [],
        List.drop_length, enclosed_nil, size, Nat.add_zero, Nat.add_sub_cancel' inside]
  | some skipped =>
      obtain ⟨short, stops, first⟩ := seek?_eq_some search
      have before : start + skipped < text.length := by omega
      have spelled := List.drop_eq_getElem_cons before
      rw [List.drop_drop, spelled] at stops
      rw [enclosed_skip skipped (Nat.le_of_lt short) first [], ← Nat.add_assoc, List.drop_drop,
        spelled]
      dsimp only
      rw [List.getElem?_eq_getElem before]
      exact stop_agrees strings interpolations isOne before (by omega) stops
        (passed_leadAt _ skipped) (opens_iff text start skipped)

theorem BracesAgree.succ {text : Text} {fuel : Nat} (strings : StringsAgree text fuel)
    (interpolations : BracesAgree text fuel) : BracesAgree text (fuel + 1) := by
  intro depth start inside enough
  rw [interpolationWithin?]
  cases here : text[start]? with
  | none =>
      have past : text.length ≤ start := List.getElem?_eq_none_iff.mp here
      rw [List.drop_eq_nil_iff.mpr past, enclosed_nil]
      change some text.length = some (start + 0)
      rw [Nat.add_zero, Nat.le_antisymm inside past]
  | some c =>
      have short : start + 1 ≤ text.length := (List.getElem?_eq_some_iff.mp here).1
      rw [drop_of_getElem? here, List.replicate_succ]
      dsimp only
      by_cases quote : isQuote c = true
      · -- The string in the interpolation is jumped through, and the braces go on behind it.
        have taken := enclosed_le [.quote c] .plain (text.drop (start + 1))
        have size : (text.drop (start + 1)).length = text.length - (start + 1) := List.length_drop
        have whole := enclosed_over (List.cons_ne_nil (.quote c) [])
          (List.replicate (depth + 1) .braces) .plain (text.drop (start + 1))
        rw [if_pos quote, braces_quote quote, ← List.replicate_succ]
        change _ =
          some (start + (1 + enclosed ([.quote c] ++ List.replicate (depth + 1) _) .plain _))
        rw [whole, strings c (start + 1) quote short (by omega), Option.bind_some,
          interpolations depth _ (by omega) (by omega), List.drop_drop, Option.some_inj]
        omega
      rw [if_neg quote]
      by_cases opening : c = '\x7b'
      · rw [if_pos opening, opening, braces_opening, ← List.replicate_succ, ← List.replicate_succ,
          interpolations (depth + 1) _ short (by omega), Nat.add_assoc]
      rw [if_neg opening]
      by_cases closing : c = '\x7d'
      · rw [if_pos closing, closing, braces_closing]
        cases depth with
        | zero => rw [if_pos (by omega), List.replicate_zero, enclosed]
        | succ depth =>
            rw [if_neg (by omega), Nat.add_sub_cancel, interpolations depth _ short (by omega),
              Nat.add_assoc]
      · rw [if_neg closing, braces_other quote opening closing, ← List.replicate_succ,
          interpolations depth _ short (by omega), Nat.add_assoc]

/-- Jumps through a string, and steps through an interpolation with the jumps through the strings in
it, end where the scan of single characters ends. -/
theorem jumps_agree (text : Text) (fuel : Nat) :
    StringsAgree text fuel ∧ BracesAgree text fuel := by
  -- Strings and interpolations use each other with less fuel, so both go by one induction.
  induction fuel with
  | zero => exact ⟨fun _ _ _ _ _ => by omega, fun _ _ _ _ => by omega⟩
  | succ fuel ih => exact ⟨ih.1.succ ih.2, BracesAgree.succ ih.1 ih.2⟩

theorem quoted_eq {text : Text} {start : Nat} (isOne : isQuote mark = true)
    (fits : start + 1 ≤ text.length) :
    quoted mark text start = start + 1 + Lexeme.quoted mark (text.drop (start + 1)) :=
  Option.get_of_eq_some _ ((jumps_agree text _).1 mark (start + 1) isOne fits (by omega))

end

/-! ### Tokens at the front of a text -/

theorem html_front (c : Char) (rest : Text) : html (c :: rest) 0 = 1 + inlineHtml rest :=
  html_eq (Nat.succ_le_succ (Nat.zero_le _))

theorem lineComment_front (c : Char) (rest : Text) :
    lineComment (c :: rest) 0 = 1 + Lexeme.lineComment rest :=
  lineComment_eq (Nat.succ_le_succ (Nat.zero_le _))

theorem blockComment_front (c d : Char) (rest : Text) :
    blockComment (c :: d :: rest) 0 = 2 + Lexeme.blockComment rest :=
  blockComment_eq (Nat.succ_le_succ (Nat.succ_le_succ (Nat.zero_le _)))

theorem quoted_front {mark : Char} (isOne : isQuote mark = true) (c : Char) (rest : Text) :
    quoted mark (c :: rest) 0 = 1 + Lexeme.quoted mark rest :=
  quoted_eq isOne (Nat.succ_le_succ (Nat.zero_le _))

theorem heredoc_front {rest : Text} {head : Head} (found : heredocHead? rest = some head)
    (first second third : Char) :
    heredoc head (first :: second :: third :: rest) 0 =
      3 + head.length + heredocBody head.label true (rest.drop head.length) := by
  have fits := heredocHead?_length_le found
  have size : (first :: second :: third :: rest).length = rest.length + 3 := rfl
  rw [heredoc_eq head (by omega), Nat.zero_add, Nat.add_comm 3, List.drop_succ_cons,
    List.drop_succ_cons, List.drop_succ_cons]

end Leap
end PhpWeave
