import PhpWeave.Proofs.Token.Enclosure

set_option autoImplicit false

/-!
What may stand in a string, as a grammar. A string holds any characters but its mark, characters
behind a backslash, and interpolations unless single quotes hold it; an interpolation holds code
with whole strings and balanced braces. The scan of a string takes exactly a text of this grammar
and the mark behind it, and where no such text has the mark behind it, all there is.
-/

namespace PhpWeave.Lexeme

open Leap (stopsString)

/-- The two characters that open an interpolation. -/
inductive Opener : Text → Prop where
  | brace : Opener ['\x7b', '$']
  | dollar : Opener ['$', '\x7b']

/-- An interpolation opens at the front of what remains of a string. Single quotes have none. -/
def Opens (mark : Char) (text : Text) : Prop :=
  mark ≠ '\'' ∧ ∃ opener, Opener opener ∧ opener <+: text

def Enclosure.closer : Enclosure → Char
  | .quote mark => mark
  | .braces => '\x7d'

def Enclosure.Valid : Enclosure → Prop
  | .quote mark => isQuote mark = true
  | .braces => True

/-- `Inside enclosure body`: the body stands in the enclosure as a whole, with every interpolation,
string and brace in it closed again. -/
inductive Inside : Enclosure → Text → Prop where
  | nil (enclosure : Enclosure) : Inside enclosure []
  | character {mark c : Char} {rest : Text} (notMark : c ≠ mark) (notBackslash : c ≠ '\\')
      (noOpener : ¬ Opens mark (c :: rest)) (behind : Inside (.quote mark) rest) :
      Inside (.quote mark) (c :: rest)
  | escaped {mark c : Char} {rest : Text} (behind : Inside (.quote mark) rest) :
      Inside (.quote mark) ('\\' :: c :: rest)
  | interpolation {mark : Char} {opener code rest : Text} (double : mark ≠ '\'')
      (opens : Opener opener) (inner : Inside .braces code) (behind : Inside (.quote mark) rest) :
      Inside (.quote mark) (opener ++ (code ++ '\x7d' :: rest))
  | code {c : Char} {rest : Text} (noQuote : ¬ isQuote c = true) (notOpening : c ≠ '\x7b')
      (notClosing : c ≠ '\x7d') (behind : Inside .braces rest) : Inside .braces (c :: rest)
  | string {mark : Char} {body rest : Text} (isOne : isQuote mark = true)
      (inner : Inside (.quote mark) body) (behind : Inside .braces rest) :
      Inside .braces (mark :: (body ++ mark :: rest))
  | braces {code rest : Text} (inner : Inside .braces code) (behind : Inside .braces rest) :
      Inside .braces ('\x7b' :: (code ++ '\x7d' :: rest))

variable {mark : Char}

/-! ### Characters and openers -/

theorem passed_plain : Lead.Passed .plain := ⟨Lead.noConfusion, Lead.noConfusion⟩

private theorem enclosed_dollar {rest : Text}
    (noBrace : mark = '\'' ∨ startsWhere (· == '\x7b') rest = false) (outer : List Enclosure) :
    enclosed (.quote mark :: outer) .dollar rest = enclosed (.quote mark :: outer) .plain rest := by
  cases rest with
  | nil => rfl
  | cons d tail =>
      have same : enclosureStep (.quote mark) outer .dollar d =
          enclosureStep (.quote mark) outer .plain d := by
        rcases noBrace with single | other
        · simp [enclosureStep, quoteStep, single]
        · have notBrace : d ≠ '\x7b' := beq_eq_false_iff_ne.mp other
          simp [enclosureStep, quoteStep, notBrace]
      rw [enclosed, enclosed, same]

theorem opens_of_pair {first second : Char} {rest : Text} (double : mark ≠ '\'')
    (opener : Opener [first, second]) (follows : startsWhere (· == second) rest = true) :
    Opens mark (first :: rest) := by
  obtain ⟨tail, rfl⟩ := startsWhere_beq follows
  exact ⟨double, _, opener, List.prefix_append [first, second] tail⟩

theorem quote_character {c : Char} {rest : Text} (notMark : c ≠ mark) (notBackslash : c ≠ '\\')
    (noOpener : ¬ Opens mark (c :: rest)) (isOne : isQuote mark = true) (outer : List Enclosure) :
    enclosed (.quote mark :: outer) .plain (c :: rest) =
      1 + enclosed (.quote mark :: outer) .plain rest := by
  cases stops : stopsString mark c with
  | true =>
      have brace : c = '\x7b' ∧ mark ≠ '\'' := by
        simpa [stopsString, notMark, notBackslash] using stops
      obtain ⟨rfl, double⟩ := brace
      refine enclosed_brace isOne double passed_plain ?_ outer
      rintro (follows | dollar)
      · exact noOpener (opens_of_pair double .brace follows)
      · cases dollar
  | false =>
      rw [enclosed, enclosureStep_passed stops passed_plain]
      dsimp only
      split
      · next dollar =>
          rw [enclosed_dollar]
          by_cases single : mark = '\''
          · exact .inl single
          · refine .inr (eq_false_of_ne_true fun follows => noOpener ?_)
            rw [dollar]
            exact opens_of_pair single .dollar follows
      · rfl

theorem quote_opener {opener : Text} (opens : Opener opener) (double : mark ≠ '\'')
    (isOne : isQuote mark = true) (outer : List Enclosure) (rest : Text) :
    enclosed (.quote mark :: outer) .plain (opener ++ rest) =
      2 + enclosed (.braces :: .quote mark :: outer) .plain rest := by
  cases opens with
  | brace =>
      have dollar : enclosed (.braces :: .quote mark :: outer) .plain ('$' :: rest) =
          1 + enclosed (.braces :: .quote mark :: outer) .plain rest :=
        braces_other (by decide) (by decide) (by decide) _ rest
      have opened : enclosed (.quote mark :: outer) .plain ('\x7b' :: '$' :: rest) =
          1 + enclosed (.braces :: .quote mark :: outer) .plain ('$' :: rest) :=
        enclosed_opens isOne double passed_plain (.inl rfl) outer
      change enclosed (.quote mark :: outer) .plain ('\x7b' :: '$' :: rest) = _
      rw [opened, dollar, ← Nat.add_assoc]
  | dollar =>
      have goesOn : stopsString mark '$' = false := by
        have notMark : '$' ≠ mark := (ne_of_class isOne '$' rfl).symm
        simp [stopsString, notMark]
      have opened : enclosed (.quote mark :: outer) .dollar ('\x7b' :: rest) =
          1 + enclosed (.braces :: .quote mark :: outer) .plain rest :=
        enclosed_opens isOne double ⟨Lead.noConfusion, Lead.noConfusion⟩ (.inr rfl) outer
      change enclosed (.quote mark :: outer) .plain ('$' :: '\x7b' :: rest) = _
      rw [enclosed, enclosureStep_passed goesOn passed_plain]
      change 1 + enclosed (.quote mark :: outer) .dollar ('\x7b' :: rest) = _
      rw [opened, ← Nat.add_assoc]

/-! ### Whole bodies -/

private theorem noOpener_append {c : Char} {rest : Text} (isOne : isQuote mark = true)
    (noOpener : ¬ Opens mark (c :: rest)) (after : Text) :
    ¬ Opens mark (c :: (rest ++ mark :: after)) := by
  rintro ⟨double, opener, opens, isPrefix⟩
  refine noOpener ⟨double, opener, opens, ?_⟩
  cases rest with
  | cons d tail =>
      refine List.prefix_of_prefix_length_le isPrefix (List.prefix_append (c :: d :: tail) _) ?_
      cases opens <;> exact Nat.succ_le_succ (Nat.succ_le_succ (Nat.zero_le _))
  | nil =>
      have notBrace : '\x7b' ≠ mark := (ne_of_class isOne '\x7b' rfl).symm
      have notDollar : '$' ≠ mark := (ne_of_class isOne '$' rfl).symm
      cases opens with
      | brace =>
          have behind := (List.cons_prefix_cons.mp isPrefix).2
          exact absurd (List.cons_prefix_cons.mp behind).1 notDollar
      | dollar =>
          have behind := (List.cons_prefix_cons.mp isPrefix).2
          exact absurd (List.cons_prefix_cons.mp behind).1 notBrace

/-- The scan of an enclosure takes a whole body and the character that leaves it. -/
theorem Inside.enclosed_eq {enclosure : Enclosure} {body : Text} (inside : Inside enclosure body)
    (valid : enclosure.Valid) (outer : List Enclosure) (after : Text) :
    enclosed (enclosure :: outer) .plain (body ++ enclosure.closer :: after) =
      body.length + 1 + enclosed outer .plain after := by
  induction inside generalizing outer after with
  | nil enclosure =>
      rw [List.nil_append, List.length_nil]
      cases enclosure with
      | quote mark => exact enclosed_mark valid passed_plain outer after
      | braces => exact braces_closing outer after
  | character notMark notBackslash noOpener behind ih =>
      have goesOn := noOpener_append valid noOpener after
      rw [List.cons_append, Enclosure.closer, quote_character notMark notBackslash goesOn valid]
      have next := ih valid outer after
      rw [Enclosure.closer] at next
      rw [next, List.length_cons]
      omega
  | escaped behind ih =>
      have next := ih valid outer after
      rw [List.cons_append, List.cons_append, enclosed_backslash passed_plain, next,
        List.length_cons, List.length_cons]
      omega
  | @interpolation mark opener code rest double opens inner behind ihInner ihBehind =>
      have two : opener.length = 2 := by cases opens <;> rfl
      have within := ihInner trivial (.quote mark :: outer) (rest ++ mark :: after)
      have next := ihBehind valid outer after
      have flat : opener ++ (code ++ '\x7d' :: rest) ++ mark :: after =
          opener ++ (code ++ '\x7d' :: (rest ++ mark :: after)) := by
        simp only [List.append_assoc, List.cons_append]
      simp only [Enclosure.closer] at within next ⊢
      rw [flat, quote_opener opens double valid, within, next, List.length_append,
        List.length_append, List.length_cons]
      omega
  | code noQuote notOpening notClosing behind ih =>
      have next := ih valid outer after
      rw [List.cons_append, braces_other noQuote notOpening notClosing, next, List.length_cons]
      omega
  | @string mark body rest isOne inner behind ihInner ihBehind =>
      have within := ihInner isOne (.braces :: outer) (rest ++ '\x7d' :: after)
      have next := ihBehind trivial outer after
      have flat : mark :: (body ++ mark :: rest) ++ '\x7d' :: after =
          mark :: (body ++ mark :: (rest ++ '\x7d' :: after)) := by
        simp only [List.append_assoc, List.cons_append]
      simp only [Enclosure.closer] at within next ⊢
      rw [flat, braces_quote isOne, within, next, List.length_cons, List.length_append,
        List.length_cons]
      omega
  | @braces code rest inner behind ihInner ihBehind =>
      have within := ihInner trivial (.braces :: outer) (rest ++ '\x7d' :: after)
      have next := ihBehind trivial outer after
      have flat : '\x7b' :: (code ++ '\x7d' :: rest) ++ '\x7d' :: after =
          '\x7b' :: (code ++ '\x7d' :: (rest ++ '\x7d' :: after)) := by
        simp only [List.append_assoc, List.cons_append]
      simp only [Enclosure.closer] at within next ⊢
      rw [flat, braces_opening, within, next, List.length_cons, List.length_append,
        List.length_cons]
      omega

def Leaves (enclosure : Enclosure) (text : Text) : Prop :=
  ∃ body after, text = body ++ enclosure.closer :: after ∧ Inside enclosure body

theorem Opens.append {text : Text} (opens : Opens mark text) (after : Text) :
    Opens mark (text ++ after) := by
  obtain ⟨double, opener, isOpener, isPrefix⟩ := opens
  exact ⟨double, opener, isOpener, isPrefix.trans (List.prefix_append _ _)⟩

def TakesAll (size : Nat) : Prop :=
  ∀ (enclosure : Enclosure), enclosure.Valid → ∀ text : Text, text.length ≤ size →
    ¬ Leaves enclosure text → ∀ outer : List Enclosure,
      enclosed (enclosure :: outer) .plain text = text.length

/-- An enclosure in another one that is never left, be it that the text never leaves the inner one
or that it stays in the outer one from there. -/
private theorem TakesAll.nested {size : Nat} (all : TakesAll size) (inner enclosure : Enclosure)
    (validInner : inner.Valid) (valid : enclosure.Valid) {text : Text} (short : text.length ≤ size)
    (stays : ∀ body after, text = body ++ inner.closer :: after → Inside inner body →
      ¬ Leaves enclosure after) (outer : List Enclosure) :
    enclosed (inner :: enclosure :: outer) .plain text = text.length := by
  by_cases leaves : Leaves inner text
  · obtain ⟨body, after, rfl, inside⟩ := leaves
    rw [List.length_append, List.length_cons] at short
    rw [inside.enclosed_eq validInner, all enclosure valid after (by omega)
      (stays body after rfl inside) outer, List.length_append, List.length_cons]
    omega
  · exact all inner validInner text short leaves _

private theorem TakesAll.quote {size : Nat} (all : TakesAll size) (isOne : isQuote mark = true)
    {c : Char} {rest : Text} (short : rest.length ≤ size)
    (stays : ¬ Leaves (.quote mark) (c :: rest)) (outer : List Enclosure) :
    enclosed (.quote mark :: outer) .plain (c :: rest) = rest.length + 1 := by
  have notMark : c ≠ mark := by
    rintro rfl
    exact stays ⟨[], rest, rfl, .nil _⟩
  by_cases backslash : c = '\\'
  · subst backslash
    cases rest with
    | nil =>
        rw [enclosed, enclosed_nil]
        rfl
    | cons d tail =>
        have later : ¬ Leaves (.quote mark) tail := by
          rintro ⟨body, after, rfl, inside⟩
          exact stays ⟨'\\' :: d :: body, after, rfl, inside.escaped⟩
        rw [List.length_cons] at short ⊢
        rw [enclosed_backslash passed_plain,
          all (.quote mark) isOne tail (by omega) later outer]
        omega
  by_cases opens : Opens mark (c :: rest)
  · -- Had the interpolation and then the string been closed, the whole would be a body.
    obtain ⟨double, opener, isOpener, tail, spelled⟩ := opens
    have two : opener.length = 2 := by cases isOpener <;> rfl
    have size := congrArg List.length spelled
    rw [List.length_append, List.length_cons] at size
    have later : ∀ code after, tail = code ++ '\x7d' :: after → Inside .braces code →
        ¬ Leaves (.quote mark) after := by
      rintro code _ rfl inner ⟨body, after, rfl, behind⟩
      refine stays ⟨opener ++ (code ++ '\x7d' :: body), after, ?_,
        .interpolation double isOpener inner behind⟩
      simp only [← spelled, List.append_assoc, List.cons_append]
    rw [← spelled, quote_opener isOpener double isOne,
      all.nested .braces (.quote mark) trivial isOne (by omega) later outer]
    omega
  · have later : ¬ Leaves (.quote mark) rest := by
      rintro ⟨body, after, rfl, inside⟩
      exact stays ⟨c :: body, after, rfl,
        inside.character notMark backslash fun early => opens (early.append _)⟩
    rw [quote_character notMark backslash opens isOne,
      all (.quote mark) isOne rest short later outer, Nat.add_comm]

private theorem TakesAll.braces {size : Nat} (all : TakesAll size) {c : Char} {rest : Text}
    (short : rest.length ≤ size) (stays : ¬ Leaves .braces (c :: rest)) (outer : List Enclosure) :
    enclosed (.braces :: outer) .plain (c :: rest) = rest.length + 1 := by
  have notClosing : c ≠ '\x7d' := by
    rintro rfl
    exact stays ⟨[], rest, rfl, .nil _⟩
  by_cases quote : isQuote c = true
  · have later : ∀ body after, rest = body ++ c :: after → Inside (.quote c) body →
        ¬ Leaves .braces after := by
      rintro body _ rfl inner ⟨code, after, rfl, behind⟩
      refine stays ⟨c :: (body ++ c :: code), after, ?_, .string quote inner behind⟩
      simp only [List.cons_append, List.append_assoc]
    rw [braces_quote quote, all.nested (.quote c) .braces quote trivial short later outer,
      Nat.add_comm]
  by_cases opening : c = '\x7b'
  · subst opening
    have later : ∀ code after, rest = code ++ '\x7d' :: after → Inside .braces code →
        ¬ Leaves .braces after := by
      rintro inside _ rfl inner ⟨code, after, rfl, behind⟩
      refine stays ⟨'\x7b' :: (inside ++ '\x7d' :: code), after, ?_, .braces inner behind⟩
      simp only [List.cons_append, List.append_assoc]
    rw [braces_opening, all.nested .braces .braces trivial trivial short later outer,
      Nat.add_comm]
  · have later : ¬ Leaves .braces rest := by
      rintro ⟨body, after, rfl, inside⟩
      exact stays ⟨c :: body, after, rfl, inside.code quote opening notClosing⟩
    rw [braces_other quote opening notClosing, all .braces trivial rest short later outer,
      Nat.add_comm]

theorem takesAll (size : Nat) : TakesAll size := by
  induction size with
  | zero =>
      intro enclosure _ text short _ outer
      rw [List.eq_nil_of_length_eq_zero (Nat.le_zero.mp short)]
      rfl
  | succ size ih =>
      intro enclosure valid text short stays outer
      cases text with
      | nil => rfl
      | cons c rest =>
          have shorter : rest.length ≤ size := Nat.le_of_succ_le_succ short
          cases enclosure with
          | quote mark => exact ih.quote valid shorter stays outer
          | braces => exact ih.braces shorter stays outer

end PhpWeave.Lexeme
