import PhpWeave.Proofs.Token.Progress

set_option autoImplicit false

/-!
Cutting a text behind a token. A rule looks past the token it makes only to see that the token does
not go on, and at the end of a text no token goes on. So the rule still applies when what comes
after the token is cut off. The one exception is a line comment that a close tag ends: cut between
the two characters of the tag, the comment would take the first of them.
-/

namespace PhpWeave

namespace Lexeme

/-- A measure that stays the same when the text is cut at its end or later. -/
def Stable (measure : Text → Nat) : Prop :=
  ∀ front after : Text, measure (front ++ after) ≤ front.length →
    measure front = measure (front ++ after)

theorem startsWhere_of_append {p : Char → Bool} {front after : Text}
    (fails : startsWhere p (front ++ after) = false) : startsWhere p front = false := by
  cases front with
  | nil => rfl
  | cons c tail => exact fails

theorem length_pos_of_startsWhere {p : Char → Bool} {text : Text}
    (holds : startsWhere p text = true) : 0 < text.length := by
  obtain ⟨c, rest, rfl, -⟩ := startsWhere_true holds
  exact Nat.succ_pos _

theorem Stable.seq {first second : Text → Nat} (firstStable : Stable first)
    (secondStable : Stable second) :
    Stable fun text => first text + second (text.drop (first text)) := by
  intro front after inside
  change first (front ++ after) + second ((front ++ after).drop (first (front ++ after))) ≤ _
    at inside
  have enough : first (front ++ after) ≤ front.length := by omega
  have same := firstStable front after enough
  have cut : (front ++ after).drop (first (front ++ after)) =
      front.drop (first front) ++ after := by
    rw [same, List.drop_append_of_le_length enough]
  rw [cut] at inside
  have later := secondStable (front.drop (first front)) after (by rw [List.length_drop]; omega)
  change first front + second (front.drop (first front)) =
    first (front ++ after) + second ((front ++ after).drop (first (front ++ after)))
  rw [cut, later, same]

theorem Stable.of_cons {measure : Text → Nat} (empty : measure [] = 0)
    (behind : ∀ (c : Char) (tail after : Text),
      (measure (tail ++ after) ≤ tail.length → measure tail = measure (tail ++ after)) →
      measure (c :: (tail ++ after)) ≤ tail.length + 1 →
      measure (c :: tail) = measure (c :: (tail ++ after))) : Stable measure := by
  intro front after inside
  induction front with
  | nil =>
      have none : measure after = 0 := Nat.le_zero.mp inside
      rw [List.nil_append, none, empty]
  | cons c tail ih => exact behind c tail after ih inside

/-! ### Runs and names -/

theorem run_cons (p : Char → Bool) (c : Char) (rest : Text) :
    run p (c :: rest) = if p c then 1 + run p rest else 0 := by
  simp only [run, List.takeWhile_cons]
  split
  · rw [List.length_cons, Nat.add_comm]
  · rfl

theorem stable_run (p : Char → Bool) : Stable (run p) := by
  apply Stable.of_cons rfl
  intro c tail after ih inside
  rw [run_cons] at inside
  rw [run_cons, run_cons]
  split at inside
  · rw [ih (by omega)]
  · next fails => rw [if_neg fails, if_neg fails]

theorem run_append_of_lt {p : Char → Bool} {front : Text} (stops : run p front < front.length)
    (after : Text) : run p (front ++ after) = run p front := by
  have short : (front.takeWhile p).length ≠ front.length := Nat.ne_of_lt stops
  rw [run, List.takeWhile_append, if_neg short]
  rfl

theorem takeWhile_front {p : Char → Bool} {front after : Text}
    (inside : run p (front ++ after) ≤ front.length) :
    front.takeWhile p = (front ++ after).takeWhile p := by
  have length : (front.takeWhile p).length = ((front ++ after).takeWhile p).length :=
    stable_run p front after inside
  have first : front.takeWhile p <+: front ++ after :=
    (List.takeWhile_prefix p).trans (List.prefix_append _ _)
  rw [List.prefix_iff_eq_take.mp first, length,
    ← List.prefix_iff_eq_take.mp (List.takeWhile_prefix p)]

theorem run_le_name (text : Text) : run isNameChar text ≤ name text := by
  induction text with
  | nil => exact Nat.le_refl 0
  | cons c rest ih =>
      rw [run_cons, name]
      cases named : isNameChar c with
      | true =>
          simp only [Bool.true_or, if_true]
          omega
      | false => exact Nat.zero_le _

theorem stable_name : Stable name := by
  apply Stable.of_cons rfl
  intro c tail after ih inside
  rw [name] at inside
  rw [name, name]
  split at inside
  · next goesOn =>
      have same := ih (by omega)
      have test : startsWhere isNameStart tail = startsWhere isNameStart (tail ++ after) ∨
          isNameChar c = true := by
        cases named : isNameChar c with
        | true => exact .inr rfl
        | false =>
            -- A backslash goes on only with a name behind it, which then lies inside too.
            rw [named, Bool.false_or] at goesOn
            obtain ⟨d, rest, spelled, begins⟩ := startsWhere_true (Bool.and_eq_true_iff.mp goesOn).2
            have positive := name_pos begins rest
            rw [← spelled] at positive
            have nonempty : tail ≠ [] := by
              rintro rfl
              rw [List.length_nil] at inside
              omega
            exact .inl (startsWhere_append after nonempty).symm
      rcases test with sameTest | named
      · rw [sameTest, if_pos goesOn, if_pos goesOn, same]
      · rw [named, Bool.true_or, Bool.true_or, if_pos rfl, if_pos rfl, same]
  · next stops =>
      have both := Bool.or_eq_false_iff.mp (eq_false_of_ne_true stops)
      have stopsHere : (isNameChar c || (c == '\\' && startsWhere isNameStart tail)) = false := by
        rw [both.1, Bool.false_or]
        rcases Bool.and_eq_false_iff.mp both.2 with other | bare
        · rw [other, Bool.false_and]
        · rw [startsWhere_of_append bare, Bool.and_false]
      rw [if_neg stops, stopsHere]
      rfl

theorem nameKind_front {front after : Text} (afterArrow : Bool)
    (inside : name (front ++ after) ≤ front.length) :
    nameKind afterArrow front = nameKind afterArrow (front ++ after) := by
  have word := takeWhile_front (Nat.le_trans (run_le_name (front ++ after)) inside)
  simp only [nameKind, word, stable_name front after inside]

/-! ### Numbers -/

theorem digits_front (tail after : Text)
    (inside : startsWhere Char.isDigit (tail ++ after) = true →
      run isDigitOrUnderscore (tail ++ after) ≤ tail.length) :
    startsWhere Char.isDigit tail = startsWhere Char.isDigit (tail ++ after) := by
  cases digit : startsWhere Char.isDigit (tail ++ after) with
  | false => exact startsWhere_of_append digit
  | true =>
      have positive := digits_pos digit
      have enough := inside digit
      have nonempty : tail ≠ [] := List.ne_nil_of_length_pos (by omega)
      rw [startsWhere_append after nonempty] at digit
      exact digit

theorem stable_fraction : Stable fraction := by
  apply Stable.of_cons rfl
  intro c tail after _ inside
  by_cases point : c = '.'
  · subst point
    rw [fraction] at inside
    have same := digits_front tail after fun digit => by
      rw [if_pos digit] at inside
      omega
    rw [fraction, fraction, same]
    split
    · next digit =>
        rw [if_pos digit] at inside
        rw [stable_run isDigitOrUnderscore tail after (by omega)]
    · rfl
  · rw [fraction_of_ne point, fraction_of_ne point]

theorem stable_exponentTail : Stable exponentTail := by
  apply Stable.of_cons rfl
  intro c tail after _ inside
  rw [exponentTail] at inside
  rw [exponentTail, exponentTail]
  split at inside
  · next digit =>
      rw [if_pos digit, if_pos digit]
      exact stable_run isDigitOrUnderscore (c :: tail) after inside
  · next noDigit =>
      rw [if_neg noDigit, if_neg noDigit]
      cases sign : (c == '+' || c == '-') with
      | false => rfl
      | true =>
          rw [sign, Bool.true_and] at inside
          rw [Bool.true_and, Bool.true_and]
          have same := digits_front tail after fun digit => by
            rw [if_pos digit] at inside
            omega
          rw [same]
          split
          · next digit =>
              rw [if_pos digit] at inside
              rw [stable_run isDigitOrUnderscore tail after (by omega)]
          · rfl

theorem stable_exponent : Stable exponent := by
  apply Stable.of_cons rfl
  intro c tail after _ inside
  cases letter : (c == 'e' || c == 'E') with
  | false => rw [exponent_of_plain letter, exponent_of_plain letter]
  | true =>
      rw [exponent_of_letter letter] at inside
      rw [exponent_of_letter letter, exponent_of_letter letter]
      have enough : exponentTail (tail ++ after) ≤ tail.length := by
        split at inside <;> omega
      rw [stable_exponentTail tail after enough]

theorem hasBaseMark_front {front after : Text} (two : 2 ≤ front.length) :
    hasBaseMark front = hasBaseMark (front ++ after) := by
  match front, two with
  | c :: d :: tail, _ =>
      rw [List.cons_append, List.cons_append]
      by_cases zero : c = '0'
      · subst zero
        rfl
      · rw [hasBaseMark_of_ne zero, hasBaseMark_of_ne zero]

theorem stable_number : Stable number := by
  intro front after inside
  cases based : hasBaseMark (front ++ after) with
  | true =>
      rw [number, if_pos based] at inside
      have two : 2 ≤ front.length := by omega
      rw [List.drop_append_of_le_length two] at inside
      have same := stable_run isHexDigitOrUnderscore (front.drop 2) after
        (by rw [List.length_drop]; omega)
      rw [number, number, hasBaseMark_front two, if_pos based, if_pos based,
        List.drop_append_of_le_length two, same]
  | false =>
      have plain : hasBaseMark front = false := by
        apply eq_false_of_ne_true
        intro marked
        rw [hasBaseMark_front (hasBaseMark_length marked), based] at marked
        cases marked
      have stable := ((stable_run isDigitOrUnderscore).seq stable_fraction).seq stable_exponent
      simp only [number, based, plain, Bool.false_eq_true, if_false] at inside ⊢
      exact stable front after inside

/-! ### Comments -/

theorem stable_blockComment : Stable blockComment := by
  apply Stable.of_cons rfl
  intro c tail after ih inside
  rw [blockComment] at inside
  rw [blockComment, blockComment]
  split at inside
  · next closes =>
      have nonempty : tail ≠ [] := List.ne_nil_of_length_pos (by omega)
      rw [startsWhere_append after nonempty] at closes ⊢
      rw [if_pos closes, if_pos closes]
  · next goesOn =>
      rw [if_neg goesOn, ih (by omega)]
      rcases Bool.and_eq_false_iff.mp (eq_false_of_ne_true goesOn) with other | bare
      · rw [other, Bool.false_and]
        rfl
      · rw [startsWhere_of_append bare, Bool.and_false]
        rfl

theorem blockComment_pos (c : Char) (rest : Text) : 0 < blockComment (c :: rest) := by
  rw [blockComment]
  split <;> omega

theorem blockCommentKind_front {front after : Text}
    (inside : blockComment (front ++ after) ≤ front.length) :
    blockCommentKind front = blockCommentKind (front ++ after) := by
  cases after with
  | nil => rw [List.append_nil]
  | cons d rest =>
      cases front with
      | nil =>
          have positive := blockComment_pos d rest
          rw [List.nil_append, List.length_nil] at inside
          omega
      | cons c tail =>
          rw [List.cons_append] at inside ⊢
          by_cases star : c = '*'
          · subst star
            have nonempty : tail ≠ [] := by
              rintro rfl
              have positive := blockComment_pos d rest
              rw [List.nil_append, blockComment, List.length_singleton] at inside
              split at inside <;> omega
            simp only [blockCommentKind, startsWhere_append _ nonempty]
          · rw [blockCommentKind_of_ne star, blockCommentKind_of_ne star]

/-- A line comment that is not cut between the two characters of a close tag. -/
theorem lineComment_front {front after : Text}
    (inside : lineComment (front ++ after) ≤ front.length)
    (whole : lineComment (front ++ after) + 1 = front.length →
      ¬ ['?', '>'] <+: (front ++ after).drop (lineComment (front ++ after))) :
    lineComment front = lineComment (front ++ after) := by
  induction front with
  | nil =>
      have none : lineComment after = 0 := Nat.le_zero.mp inside
      rw [List.nil_append, none]
      rfl
  | cons c tail ih =>
      rw [List.cons_append, lineComment] at inside whole ⊢
      rw [lineComment]
      split at inside
      · next stops =>
          rw [if_pos stops] at whole ⊢
          have test : (c == '?' && startsWhere (· == '>') tail) =
              (c == '?' && startsWhere (· == '>') (tail ++ after)) := by
            by_cases last : tail = []
            · rw [last, List.nil_append] at whole ⊢
              change (c == '?' && false) = _
              rw [Bool.and_false, eq_comm]
              refine eq_false_of_ne_true fun tag => whole rfl ?_
              obtain ⟨isMark, follows⟩ := Bool.and_eq_true_iff.mp tag
              obtain ⟨rest, spelled⟩ := startsWhere_beq follows
              rw [eq_of_beq isMark, spelled]
              exact List.prefix_append ['?', '>'] rest
            · rw [startsWhere_append after last]
          rw [test, if_pos stops]
      · next goesOn =>
          rw [if_neg goesOn] at whole ⊢
          rw [List.length_cons] at inside whole
          have same := ih (by omega) fun last => by
            have behind := whole (by omega)
            rw [Nat.add_comm, List.drop_succ_cons] at behind
            exact behind
          rw [same]
          obtain ⟨noBreak, noTag⟩ := Bool.or_eq_false_iff.mp (eq_false_of_ne_true goesOn)
          rcases Bool.and_eq_false_iff.mp noTag with other | bare
          · rw [noBreak, other, Bool.false_and]
            rfl
          · rw [noBreak, startsWhere_of_append bare, Bool.and_false]
            rfl

/-! ### Strings and heredocs -/

theorem stable_enclosed (stack : List Enclosure) (lead : Lead) : Stable (enclosed stack lead) := by
  intro front after inside
  induction front generalizing stack lead with
  | nil =>
      have none : enclosed stack lead after = 0 := Nat.le_zero.mp inside
      rw [List.nil_append, none]
      cases stack <;> rfl
  | cons c tail ih =>
      cases stack with
      | nil => rfl
      | cons inner outer =>
          rw [List.cons_append, enclosed, List.length_cons] at inside
          rw [List.cons_append, enclosed, enclosed, ih _ _ (by omega)]

theorem heredocHead?_front {front after : Text} {head : Head}
    (found : heredocHead? (front ++ after) = some head) (inside : head.length ≤ front.length) :
    heredocHead? front = some head := by
  obtain ⟨parts, rest, spelled⟩ := headParts_of_heredocHead? found
  have isPrefix : parts.spelling <+: front := by
    refine List.prefix_of_prefix_length_le ?_ (List.prefix_append front after) ?_
    · rw [spelled]
      exact List.prefix_append _ _
    · have length := parts.length_eq
      rw [← HeadParts.spelling] at length
      omega
  obtain ⟨more, rfl⟩ := isPrefix
  exact parts.heredocHead?_eq more

theorem heredocHead?_append {front : Text} {head : Head} (found : heredocHead? front = some head)
    (after : Text) : heredocHead? (front ++ after) = some head := by
  obtain ⟨parts, rest, rfl⟩ := headParts_of_heredocHead? found
  rw [List.append_assoc]
  exact parts.heredocHead?_eq _

/-- A label at the front of a line, with nothing cut off before it ends. -/
theorem heredocEnd?_eq_some {label text : Text} {length : Nat}
    (found : heredocEnd? label text = some length) :
    length = run isIndent text + label.length ∧ label <+: text.drop (run isIndent text) ∧
      startsWhere isNameChar (text.drop length) = false := by
  simp only [heredocEnd?] at found
  split at found
  · next ends =>
      cases found
      obtain ⟨marked, stops⟩ := Bool.and_eq_true_iff.mp ends
      rw [List.drop_drop, Bool.not_eq_true'] at stops
      exact ⟨rfl, List.isPrefixOf_iff_prefix.mp marked, stops⟩
  · cases found

theorem heredocEnd?_of_parts {label text : Text}
    (marked : label <+: text.drop (run isIndent text))
    (stops : startsWhere isNameChar (text.drop (run isIndent text + label.length)) = false) :
    heredocEnd? label text = some (run isIndent text + label.length) := by
  simp only [heredocEnd?, List.isPrefixOf_iff_prefix.mpr marked, List.drop_drop, stops,
    Bool.not_false, Bool.and_self, if_true]

theorem heredocEnd?_front {label front after : Text} {length : Nat}
    (found : heredocEnd? label (front ++ after) = some length) (inside : length ≤ front.length) :
    heredocEnd? label front = some length := by
  obtain ⟨rfl, marked, stops⟩ := heredocEnd?_eq_some found
  have sameRun := stable_run isIndent front after (by omega)
  rw [← sameRun] at inside marked stops ⊢
  rw [List.drop_append_of_le_length (by omega)] at marked
  rw [List.drop_append_of_le_length inside] at stops
  refine heredocEnd?_of_parts ?_ (startsWhere_of_append stops)
  refine List.prefix_of_prefix_length_le marked (List.prefix_append _ _) ?_
  rw [List.length_drop]
  omega

theorem length_lt_heredocBody (label : Text) {line after : Text} (oneLine : '\n' ∉ line)
    (nonempty : after ≠ []) : line.length < heredocBody label false (line ++ after) := by
  induction line with
  | nil =>
      cases after with
      | nil => exact absurd rfl nonempty
      | cons d rest =>
          rw [List.nil_append, heredocBody_cons]
          exact Nat.lt_of_lt_of_le Nat.zero_lt_one (Nat.le_add_right 1 _)
  | cons c line ih =>
      obtain ⟨notFeed, later⟩ := List.ne_and_not_mem_of_not_mem_cons oneLine
      have more := ih later
      have test : (c == '\n') = false := beq_eq_false_iff_ne.mpr (Ne.symm notFeed)
      rw [List.cons_append, heredocBody_cons, test, List.length_cons]
      change line.length + 1 < 1 + _
      omega

theorem isIndent_notFeed {text : Text} : '\n' ∉ text.takeWhile isIndent := by
  intro member
  exact absurd (List.all_eq_true.mp List.all_takeWhile _ member) (by decide)

private theorem heredocEnd?_cut {label front after : Text} {length : Nat} (filled : label ≠ [])
    (oneLine : '\n' ∉ label) (missing : heredocEnd? label (front ++ after) = none)
    (found : heredocEnd? label front = some length) : '\n' ∉ front ∧ after ≠ [] := by
  obtain ⟨rfl, marked, stops⟩ := heredocEnd?_eq_some found
  obtain ⟨more, spelled⟩ := marked
  have length : label.length + more.length = front.length - run isIndent front := by
    rw [← List.length_append, spelled, List.length_drop]
  have positive := List.length_pos_iff.mpr filled
  have sameRun : run isIndent (front ++ after) = run isIndent front :=
    run_append_of_lt (by omega) after
  have goesOn : startsWhere isNameChar
      (front.drop (run isIndent front + label.length) ++ after) = true := by
    apply eq_true_of_ne_false
    intro stops
    rw [← List.drop_append_of_le_length (by omega), ← sameRun] at stops
    have marked : label <+: (front ++ after).drop (run isIndent (front ++ after)) := by
      rw [sameRun, List.drop_append_of_le_length (by omega), ← spelled, List.append_assoc]
      exact List.prefix_append _ _
    have ends := heredocEnd?_of_parts marked stops
    rw [missing] at ends
    cases ends
  have cut : front.drop (run isIndent front + label.length) = more := by
    rw [← List.drop_drop, ← spelled, List.drop_left]
  rw [cut] at goesOn stops
  cases more with
  | cons c tail =>
      rw [startsWhere_append after (List.cons_ne_nil c tail), stops] at goesOn
      cases goesOn
  | nil =>
      refine ⟨?_, List.ne_nil_of_length_pos (length_pos_of_startsWhere goesOn)⟩
      rw [split_at_run isIndent front, ← spelled, List.append_nil, List.mem_append, not_or]
      exact ⟨isIndent_notFeed, oneLine⟩

theorem stable_heredocBody {label : Text} (filled : label ≠ []) (oneLine : '\n' ∉ label)
    (lineStart : Bool) : Stable (heredocBody label lineStart) := by
  intro front after inside
  induction front generalizing lineStart with
  | nil =>
      have none : heredocBody label lineStart after = 0 := Nat.le_zero.mp inside
      rw [List.nil_append, none]
      rfl
  | cons c tail ih =>
      rw [List.cons_append, heredocBody_cons] at inside ⊢
      rw [heredocBody_cons]
      have sameEnd : (if lineStart then heredocEnd? label (c :: tail) else none) =
          if lineStart then heredocEnd? label (c :: (tail ++ after)) else none := by
        cases lineStart with
        | false => rfl
        | true =>
            rw [if_pos rfl] at inside ⊢
            rw [if_pos rfl]
            cases whole : heredocEnd? label (c :: (tail ++ after)) with
            | some length =>
                rw [whole] at inside
                exact heredocEnd?_front whole inside
            | none =>
                cases part : heredocEnd? label (c :: tail) with
                | none => rfl
                | some length =>
                    -- The label would end the line, but what is cut off goes on with its name, and
                    -- the body reaches into that.
                    obtain ⟨inLine, more⟩ := heredocEnd?_cut filled oneLine whole part
                    have beyond := length_lt_heredocBody label inLine more
                    rw [List.cons_append, heredocBody_cons] at beyond
                    rw [whole] at inside
                    change (c :: tail).length < 1 + _ at beyond
                    change 1 + _ ≤ (c :: tail).length at inside
                    omega
      rw [sameEnd]
      cases ends : if lineStart then heredocEnd? label (c :: (tail ++ after)) else none with
      | some length => rfl
      | none =>
          rw [ends, Option.getD_none, List.length_cons] at inside
          rw [Option.getD_none, Option.getD_none, ih _ (by omega)]

/-! ### Line breaks and operators -/

theorem stable_lineBreak : Stable lineBreak := by
  apply Stable.of_cons rfl
  intro c tail after _ inside
  by_cases isFeed : c = '\n'
  · rw [isFeed]
    rfl
  by_cases isReturn : c = '\r'
  · rw [isReturn] at inside ⊢
    rw [lineBreak_return] at inside
    rw [lineBreak_return, lineBreak_return]
    by_cases last : tail = []
    · rw [last, List.nil_append] at inside ⊢
      -- Cut behind a carriage return, no line feed may come next.
      have noFeed : ¬ startsWhere (· == '\n') after = true := fun feed => by
        rw [if_pos feed] at inside
        exact absurd inside (by decide)
      rw [if_neg noFeed]
      rfl
    · rw [startsWhere_append after last]
  · rw [lineBreak_of_ne _ isFeed isReturn, lineBreak_of_ne _ isFeed isReturn]

theorem operator_front {front after : Text}
    (inside : (operator (front ++ after)).2 ≤ front.length) :
    operator front = operator (front ++ after) := by
  have cutFails {spelling : Text} (fails : ¬ spelling <+: front ++ after) : ¬ spelling <+: front :=
    fun isPrefix => fails (isPrefix.trans (List.prefix_append _ _))
  cases found : operators.find? fun entry => entry.1.isPrefixOf (front ++ after) with
  | none =>
      have none : operators.find? (fun entry => entry.1.isPrefixOf front) = none := by
        rw [List.find?_eq_none] at found ⊢
        intro entry member
        rw [List.isPrefixOf_iff_prefix]
        have fails := found entry member
        rw [List.isPrefixOf_iff_prefix] at fails
        exact cutFails fails
      rw [operator, operator, found, none]
  | some entry =>
      rw [operator, found] at inside
      obtain ⟨matched, before, later, spelled, fail⟩ := List.find?_eq_some_iff_append.mp found
      have fits : entry.1.isPrefixOf front = true := by
        rw [List.isPrefixOf_iff_prefix] at matched ⊢
        exact List.prefix_of_prefix_length_le matched (List.prefix_append _ _) inside
      have same : operators.find? (fun entry => entry.1.isPrefixOf front) = some entry := by
        refine List.find?_eq_some_iff_append.mpr ⟨fits, before, later, spelled, ?_⟩
        intro other member
        have fails := fail other member
        rw [Bool.not_eq_true', Bool.eq_false_iff, Ne, List.isPrefixOf_iff_prefix] at fails ⊢
        exact cutFails fails
      rw [operator, operator, found, same]

end Lexeme

namespace Scan

open Lexeme

variable {afterArrow : Bool}

private theorem beginsOther_front {front after : Text}
    (noOther : beginsOther (front ++ after) = false) : beginsOther front = false := by
  apply eq_false_of_ne_true
  intro other
  unfold beginsOther at other
  split at other
  · cases noOther
  · cases noOther
  · cases noOther
  · next c rest =>
      change c.isDigit = false at noOther
      rw [other] at noOther
      cases noOther
  · next rest =>
      obtain ⟨head, found⟩ := Option.isSome_iff_exists.mp other
      change (heredocHead? (rest ++ after)).isSome = false at noOther
      rw [heredocHead?_append found] at noOther
      cases noOther
  · cases other

/-- What comes after a token takes no part in its rule, but that a close tag must not be cut in two
behind a line comment. -/
theorem Rule.front {front after : Text} {kind : TokenKind} {length : Nat}
    (rule : Rule afterArrow (front ++ after) kind length) (inside : length ≤ front.length)
    (whole : length + 1 = front.length → ¬ ['?', '>'] <+: (front ++ after).drop length) :
    Rule afterArrow front kind length := by
  have bounds := rule.length_bounds
  have cut {c : Char} {rest part : Text} (same : part ++ after = c :: rest)
      (filled : 0 < part.length) : ∃ tail, part = c :: tail ∧ rest = tail ++ after := by
    cases part with
    | nil => cases filled
    | cons d tail =>
        obtain ⟨rfl, rfl⟩ := List.cons.inj same
        exact ⟨tail, rfl, rfl⟩
  generalize spelled : front ++ after = text at rule whole bounds
  cases rule with
  | space c rest isOne =>
      obtain ⟨tail, rfl, rfl⟩ := cut spelled (by omega)
      rw [← List.cons_append, ← stable_run isSpace (c :: tail) after inside]
      exact .space c tail isOne
  | close rest =>
      obtain ⟨tail, rfl, again⟩ := cut spelled (by omega)
      rw [List.length_cons] at inside
      obtain ⟨tail, rfl, rfl⟩ := cut again.symm (by rw [closeTag] at inside; omega)
      rw [closeTag, List.length_cons] at inside
      rw [closeTag, ← stable_lineBreak tail after (by omega)]
      exact .close tail
  | attributeOpen rest =>
      obtain ⟨tail, rfl, again⟩ := cut spelled (by omega)
      obtain ⟨tail, rfl, rfl⟩ := cut again.symm (by rw [List.length_cons] at inside; omega)
      exact .attributeOpen tail
  | hash rest noBracket =>
      obtain ⟨tail, rfl, rfl⟩ := cut spelled (by omega)
      rw [List.length_cons] at inside whole
      rw [← lineComment_front (by omega) fun last => by
        have behind := whole (by omega)
        rw [Nat.add_comm, List.drop_succ_cons] at behind
        exact behind]
      exact .hash tail (startsWhere_of_append noBracket)
  | slashes rest =>
      obtain ⟨tail, rfl, again⟩ := cut spelled (by omega)
      rw [List.length_cons] at inside whole
      have more : lineComment ('/' :: rest) = 1 + lineComment rest := rfl
      obtain ⟨tail, rfl, rfl⟩ := cut again.symm (by omega)
      rw [← List.cons_append] at inside whole ⊢
      rw [← lineComment_front (by omega) fun last => by
        have behind := whole (by omega)
        rw [Nat.add_comm, List.drop_succ_cons] at behind
        exact behind]
      exact .slashes tail
  | block rest =>
      obtain ⟨tail, rfl, again⟩ := cut spelled (by omega)
      rw [List.length_cons] at inside
      obtain ⟨tail, rfl, rfl⟩ := cut again.symm (by omega)
      rw [List.length_cons] at inside
      have enough : blockComment (tail ++ after) ≤ tail.length := by omega
      rw [← stable_blockComment tail after enough, ← blockCommentKind_front enough]
      exact .block tail
  | string mark rest isOne =>
      obtain ⟨tail, rfl, rfl⟩ := cut spelled (by omega)
      rw [List.length_cons] at inside
      rw [quoted, ← stable_enclosed [.quote mark] .plain tail after
        (by rw [quoted] at inside; omega)]
      exact .string mark tail isOne
  | heredoc rest head found =>
      obtain ⟨tail, rfl, again⟩ := cut spelled (by omega)
      rw [List.length_cons] at inside
      obtain ⟨tail, rfl, third⟩ := cut again.symm (by omega)
      rw [List.length_cons] at inside
      obtain ⟨tail, rfl, rfl⟩ := cut third.symm (by omega)
      rw [List.length_cons] at inside
      have headInside : head.length ≤ tail.length := by omega
      obtain ⟨filled, oneLine⟩ := heredocHead?_label found
      rw [List.drop_append_of_le_length headInside] at inside ⊢
      rw [← stable_heredocBody filled oneLine true (tail.drop head.length) after
        (by rw [List.length_drop]; omega)]
      exact .heredoc tail head (heredocHead?_front found headInside)
  | variableName c rest begins =>
      have positive := run_pos (p := isNameChar) (c := c) (by simp [isNameChar, begins]) rest
      obtain ⟨tail, rfl, again⟩ := cut spelled (by omega)
      rw [List.length_cons] at inside
      obtain ⟨tail, rfl, rfl⟩ := cut again.symm (by omega)
      rw [← List.cons_append, ← stable_run isNameChar (c :: tail) after
        (by rw [List.cons_append]; omega)]
      exact .variableName c tail begins
  | dollar rest noName =>
      obtain ⟨tail, rfl, rfl⟩ := cut spelled (by omega)
      exact .dollar tail (startsWhere_of_append noName)
  | number c rest begins =>
      obtain ⟨tail, rfl, rfl⟩ := cut spelled (by omega)
      have same := stable_number (c :: tail) after inside
      rw [← List.cons_append, ← same]
      rcases begins with digit | ⟨rfl, digit⟩
      · exact .number c tail (.inl digit)
      · have nonempty : tail ≠ [] := by
          rintro rfl
          have positive := number_pos (.inr ⟨rfl, digit⟩)
          rw [← List.cons_append, ← same] at positive
          exact absurd positive (by decide)
        rw [startsWhere_append after nonempty] at digit
        exact .number '.' tail (.inr ⟨rfl, digit⟩)
  | rooted c rest begins =>
      have positive := name_pos begins rest
      obtain ⟨tail, rfl, again⟩ := cut spelled (by omega)
      rw [List.length_cons] at inside
      obtain ⟨tail, rfl, rfl⟩ := cut again.symm (by omega)
      rw [← List.cons_append, ← stable_name (c :: tail) after (by rw [List.cons_append]; omega)]
      exact .rooted c tail begins
  | separator rest noName =>
      obtain ⟨tail, rfl, rfl⟩ := cut spelled (by omega)
      exact .separator tail (startsWhere_of_append noName)
  | name c rest begins =>
      obtain ⟨tail, rfl, rfl⟩ := cut spelled (by omega)
      rw [← List.cons_append, ← stable_name (c :: tail) after inside,
        ← nameKind_front afterArrow inside]
      exact .name c tail begins
  | punctuation c rest kind isOne =>
      obtain ⟨tail, rfl, rfl⟩ := cut spelled (by omega)
      exact .punctuation c tail kind isOne
  | operator c rest plain noOther =>
      obtain ⟨tail, rfl, rfl⟩ := cut spelled (by omega)
      rw [← List.cons_append] at noOther ⊢
      rw [← operator_front inside]
      exact .operator c tail plain (beginsOther_front noOther)

end Scan
end PhpWeave
