import PhpWeave.Proofs.Token.Bytewise
import PhpWeave.Proofs.Token.Truncation

set_option autoImplicit false

/-!
Texts that part at a place where one goes on with a name or a brace and the other with a mark: a
backslash, a single quote, a dollar sign or a brace. A token before the place that looks further sees
there a name or something that is neither part of a name nor a blank nor any part of an operator.
Where it could take in the name it would have reached beyond the place, and it takes in nothing else;
so in front of the place both texts have the same tokens. Only the head of a heredoc and an open tag
look further than that.
-/

namespace PhpWeave

namespace Lexeme

def opensFork (c : Char) : Bool := isNameStart c || c == '\\' || c == '\x7b' || c == '\x7d'

def marks : Text := ['\\', '\'', '$', '\x7b', '\x7d']

def isMark (c : Char) : Bool := marks.contains c

/-- One text goes on with a name or a brace, the other with a mark. Where the first one goes on with
a brace, so that a name may end in front of it, no name goes on into the mark. -/
structure Forks (left right : Text) : Prop where
  opens : startsWhere opensFork left = true
  mark : startsWhere isMark right = true
  ends : 0 < name left ∨ name right = 0

/-- A measure that is the same before a fork, as long as it does not reach beyond it. -/
def Forked (left right : Text) (measure : Text → Nat) : Prop :=
  ∀ front : Text, measure (front ++ left) ≤ front.length →
    measure (front ++ right) = measure (front ++ left)

variable {left right : Text}

theorem opensFork_cases {c : Char} (opens : opensFork c = true) :
    isNameStart c = true ∨ c = '\\' ∨ c = '\x7b' ∨ c = '\x7d' := by
  simpa [opensFork, or_assoc] using opens

/-- A class of characters that no name begins with and no fork goes on with. -/
theorem outside_of_opensFork {p : Char → Bool} (named : ∀ c, isNameStart c = true → p c = false)
    (others : ['\\', '\x7b', '\x7d'].any p = false) {c : Char} (opens : opensFork c = true) :
    p c = false := by
  have outside : ∀ d ∈ ['\\', '\x7b', '\x7d'], p d = false := fun d member =>
    Bool.eq_false_iff.mpr (List.any_eq_false.mp others d member)
  rcases opensFork_cases opens with begins | rfl | rfl | rfl
  · exact named c begins
  · exact outside _ (by simp)
  · exact outside _ (by simp)
  · exact outside _ (by simp)

theorem Forks.left_cons (forks : Forks left right) :
    ∃ c rest, left = c :: rest ∧ opensFork c = true := startsWhere_true forks.opens

theorem Forks.left_ne_nil (forks : Forks left right) : left ≠ [] := by
  obtain ⟨c, rest, rfl, -⟩ := forks.left_cons
  exact List.cons_ne_nil c rest

theorem Forks.left_stops (forks : Forks left right) {d : Char} (other : opensFork d = false) :
    startsWhere (· == d) left = false := by
  obtain ⟨c, rest, rfl, opens⟩ := forks.left_cons
  exact beq_eq_false_iff_ne.mpr (ne_of_class opens d other)

theorem Forks.right_cons (forks : Forks left right) : ∃ c rest, right = c :: rest ∧ c ∈ marks := by
  obtain ⟨c, rest, same, mark⟩ := startsWhere_true forks.mark
  exact ⟨c, rest, same, List.contains_iff_mem.mp mark⟩

theorem Forks.right_stops (forks : Forks left right) {p : Char → Bool}
    (noMark : marks.any p = false) : startsWhere p right = false := by
  obtain ⟨c, rest, rfl, mark⟩ := forks.right_cons
  exact Bool.eq_false_iff.mpr (List.any_eq_false.mp noMark c mark)

theorem startsWhere_fork {p : Char → Bool} (same : startsWhere p left = startsWhere p right)
    (front : Text) : startsWhere p (front ++ left) = startsWhere p (front ++ right) := by
  cases front with
  | nil => exact same
  | cons c tail => rfl

theorem Forks.startsWhere_beq (forks : Forks left right) {d : Char} (other : opensFork d = false)
    (noMark : isMark d = false) (front : Text) :
    startsWhere (· == d) (front ++ left) = startsWhere (· == d) (front ++ right) := by
  have stops : startsWhere (· == d) right = false := by
    obtain ⟨c, rest, rfl, mark⟩ := startsWhere_true forks.mark
    exact beq_eq_false_iff_ne.mpr (ne_of_class mark d noMark)
  exact startsWhere_fork ((forks.left_stops other).trans stops.symm) front

theorem Forked.of_cons {measure : Text → Nat} (here : measure left = 0 → measure right = 0)
    (behind : ∀ (c : Char) (tail : Text),
      (measure (tail ++ left) ≤ tail.length → measure (tail ++ right) = measure (tail ++ left)) →
      measure (c :: (tail ++ left)) ≤ tail.length + 1 →
      measure (c :: (tail ++ right)) = measure (c :: (tail ++ left))) :
    Forked left right measure := by
  intro front inside
  induction front with
  | nil =>
      have none : measure left = 0 := Nat.le_zero.mp inside
      rw [List.nil_append, List.nil_append, none, here none]
  | cons c tail ih => exact behind c tail ih inside

theorem Forked.seq {first second : Text → Nat} (firstForked : Forked left right first)
    (secondForked : Forked left right second) :
    Forked left right fun text => first text + second (text.drop (first text)) := by
  intro front inside
  change first (front ++ left) + second ((front ++ left).drop (first (front ++ left))) ≤ _ at inside
  have enough : first (front ++ left) ≤ front.length := by omega
  have same := firstForked front enough
  rw [List.drop_append_of_le_length enough] at inside
  have later := secondForked (front.drop (first (front ++ left)))
    (by rw [List.length_drop]; omega)
  change first (front ++ right) + second ((front ++ right).drop (first (front ++ right))) =
    first (front ++ left) + second ((front ++ left).drop (first (front ++ left)))
  rw [same, List.drop_append_of_le_length enough, List.drop_append_of_le_length enough, later]

/-! ### Runs and names -/

theorem Forks.run (forks : Forks left right) {p : Char → Bool}
    (noMark : marks.any p = false) : Forked left right (run p) := by
  refine Forked.of_cons (fun _ => ?_) fun c tail ih inside => ?_
  · have stops := forks.right_stops noMark
    cases right with
    | nil => rfl
    | cons c rest => rw [run_cons, show p c = false from stops]; rfl
  · rw [run_cons] at inside
    rw [run_cons, run_cons]
    split at inside
    · next goesOn => rw [if_pos goesOn, if_pos goesOn, ih (by omega)]
    · next stops => rw [if_neg stops, if_neg stops]

theorem Forks.takeWhile (forks : Forks left right) {p : Char → Bool}
    (noMark : marks.any p = false) {front : Text}
    (inside : Lexeme.run p (front ++ left) ≤ front.length) :
    (front ++ right).takeWhile p = (front ++ left).takeWhile p := by
  have same := forks.run noMark front inside
  have onRight := takeWhile_front ((Nat.le_of_eq same).trans inside)
  rw [← onRight, takeWhile_front inside]

theorem Forks.name (forks : Forks left right) : Forked left right name := by
  have ends := forks.ends
  refine Forked.of_cons (fun none => by omega) fun c tail ih inside => ?_
  rw [Lexeme.name] at inside
  rw [Lexeme.name, Lexeme.name]
  cases tail with
  | nil =>
      have plain : startsWhere isNameStart right = false := forks.right_stops (by decide)
      rw [List.nil_append] at inside
      rw [List.nil_append, List.nil_append, plain, Bool.and_false, Bool.or_false]
      -- Where a name goes on into the left side, it reaches beyond the fork.
      have stays (goesOn : (isNameChar c || (c == '\\' && startsWhere isNameStart left)) = true) :
          Lexeme.name left = 0 := by
        rw [if_pos goesOn, List.length_nil] at inside
        omega
      cases named : isNameChar c with
      | true =>
          have stopsLeft := stays (by rw [named, Bool.true_or])
          have stopsRight : Lexeme.name right = 0 := by omega
          rw [Bool.true_or, stopsLeft, stopsRight]
      | false =>
          rw [named, Bool.false_or] at stays
          rw [Bool.false_or, if_neg Bool.false_ne_true, if_neg]
          intro goesOn
          obtain ⟨d, rest, rfl, begins⟩ := startsWhere_true (Bool.and_eq_true_iff.mp goesOn).2
          have positive := name_pos begins rest
          have none := stays goesOn
          omega
  | cons d tail =>
      split at inside
      · next goesOn =>
          rw [if_pos goesOn, ih (by omega)]
          rw [if_pos]
          exact goesOn
      · next stops =>
          rw [if_neg stops, if_neg]
          exact stops

theorem Forks.nameKind (forks : Forks left right) (afterArrow : Bool) {front : Text}
    (inside : Lexeme.name (front ++ left) ≤ front.length) :
    nameKind afterArrow (front ++ right) = nameKind afterArrow (front ++ left) := by
  have word := forks.takeWhile (p := isNameChar) (by decide)
    (Nat.le_trans (run_le_name (front ++ left)) inside)
  simp only [Lexeme.nameKind, word, forks.name front inside]

theorem Forks.noName (forks : Forks left right) {front : Text}
    (noName : startsWhere isNameStart (front ++ left) = false) :
    startsWhere isNameStart (front ++ right) = false := by
  cases front with
  | nil => exact forks.right_stops (by decide)
  | cons c tail => exact noName

/-! ### Numbers -/

theorem Forks.startsWhere_isDigit (forks : Forks left right) (front : Text) :
    startsWhere Char.isDigit (front ++ left) = startsWhere Char.isDigit (front ++ right) := by
  have onLeft : startsWhere Char.isDigit left = false :=
    startsWhere_mono (fun c => outside_of_opensFork (fun _ => Scan.notDigit_of_nameStart)
      (by decide)) forks.opens
  exact startsWhere_fork (onLeft.trans (forks.right_stops (by decide)).symm) front

theorem Forks.fraction (forks : Forks left right) : Forked left right fraction := by
  refine Forked.of_cons (fun _ => ?_) fun c tail _ inside => ?_
  · have stops := forks.right_stops (p := (· == '.')) (by decide)
    cases right with
    | nil => rfl
    | cons c rest => exact fraction_of_ne (beq_eq_false_iff_ne.mp stops) rest
  · by_cases point : c = '.'
    · subst point
      rw [Lexeme.fraction] at inside
      rw [Lexeme.fraction, Lexeme.fraction, ← forks.startsWhere_isDigit]
      split
      · next digit =>
          rw [if_pos digit] at inside
          rw [forks.run (p := isDigitOrUnderscore) (by decide) tail (by omega)]
      · rfl
    · rw [fraction_of_ne point, fraction_of_ne point]

theorem Forks.exponentTail (forks : Forks left right) : Forked left right exponentTail := by
  refine Forked.of_cons (fun _ => ?_) fun c tail _ inside => ?_
  · have noDigit := forks.right_stops (p := Char.isDigit) (by decide)
    have noSign := forks.right_stops (p := fun c => c == '+' || c == '-') (by decide)
    cases right with
    | nil => rfl
    | cons c rest =>
        rw [Lexeme.exponentTail, if_neg (Bool.not_eq_true _ ▸ noDigit),
          show (c == '+' || c == '-') = false from noSign]
        rfl
  · rw [Lexeme.exponentTail] at inside
    rw [Lexeme.exponentTail, Lexeme.exponentTail, ← forks.startsWhere_isDigit]
    split at inside
    · next digit =>
        rw [if_pos digit, if_pos digit]
        exact forks.run (p := isDigitOrUnderscore) (by decide) (c :: tail) inside
    · next noDigit =>
        rw [if_neg noDigit, if_neg noDigit]
        split at inside
        · next signed =>
            rw [if_pos signed, if_pos signed, forks.run (p := isDigitOrUnderscore) (by decide) tail
              (by omega)]
        · next plain => rw [if_neg plain, if_neg plain]

theorem Forks.exponent (forks : Forks left right) : Forked left right exponent := by
  refine Forked.of_cons (fun _ => ?_) fun c tail _ inside => ?_
  · have plain := forks.right_stops (p := fun c => c == 'e' || c == 'E') (by decide)
    cases right with
    | nil => rfl
    | cons c rest => exact exponent_of_plain plain rest
  · cases letter : (c == 'e' || c == 'E') with
    | false => rw [exponent_of_plain letter, exponent_of_plain letter]
    | true =>
        rw [exponent_of_letter letter] at inside
        have enough : Lexeme.exponentTail (tail ++ left) ≤ tail.length := by
          split at inside <;> omega
        rw [exponent_of_letter letter, exponent_of_letter letter, forks.exponentTail tail enough]

theorem Forks.noBaseMark (forks : Forks left right) {front : Text}
    (plain : hasBaseMark (front ++ left) = false) : hasBaseMark (front ++ right) = false := by
  rcases front with _ | ⟨c, _ | ⟨d, tail⟩⟩
  · have stops := forks.right_stops (p := (· == '0')) (by decide)
    cases right with
    | nil => rfl
    | cons c rest => exact hasBaseMark_of_ne (beq_eq_false_iff_ne.mp stops) rest
  · obtain ⟨d, rest, rfl, mark⟩ := forks.right_cons
    by_cases zero : c = '0'
    · subst zero
      exact (show ∀ d ∈ marks, hasBaseMark ('0' :: d :: rest) = false by simp [marks, hasBaseMark])
        d mark
    · exact hasBaseMark_of_ne zero (d :: rest)
  · have two : 2 ≤ (c :: d :: tail).length := by simp
    rw [← hasBaseMark_front two] at plain ⊢
    exact plain

theorem Forks.number (forks : Forks left right) : Forked left right number := by
  intro front inside
  cases based : hasBaseMark (front ++ left) with
  | true =>
      rw [Lexeme.number, if_pos based] at inside
      have two : 2 ≤ front.length := by omega
      have alsoRight : hasBaseMark (front ++ right) = true := by
        rw [← hasBaseMark_front two] at based ⊢
        exact based
      rw [List.drop_append_of_le_length two] at inside
      have same := forks.run (p := isHexDigitOrUnderscore) (by decide) (front.drop 2)
        (by rw [List.length_drop]; omega)
      rw [Lexeme.number, Lexeme.number, if_pos based, if_pos alsoRight,
        List.drop_append_of_le_length two, List.drop_append_of_le_length two, same]
  | false =>
      have plain := forks.noBaseMark based
      have forked := ((forks.run (p := isDigitOrUnderscore) (by decide)).seq forks.fraction).seq
        forks.exponent
      simp only [Lexeme.number, based, plain, Bool.false_eq_true, if_false] at inside ⊢
      exact forked front inside

/-! ### Comments -/

theorem Forks.lineComment (forks : Forks left right) : Forked left right lineComment := by
  refine Forked.of_cons (fun none => ?_) fun c tail ih inside => ?_
  · obtain ⟨c, rest, rfl, opens⟩ := forks.left_cons
    have other := ne_of_class opens
    rw [Lexeme.lineComment, if_neg (by simp [other '\n' rfl, other '\r' rfl,
      other '?' rfl])] at none
    omega
  · rw [Lexeme.lineComment] at inside
    rw [Lexeme.lineComment, Lexeme.lineComment, ← forks.startsWhere_beq (d := '>') rfl rfl tail]
    split at inside
    · next stops => rw [if_pos stops, if_pos stops]
    · next goesOn => rw [if_neg goesOn, if_neg goesOn, ih (by omega)]

theorem Forks.blockComment (forks : Forks left right) : Forked left right blockComment := by
  refine Forked.of_cons (fun none => ?_) fun c tail ih inside => ?_
  · obtain ⟨c, rest, rfl, -⟩ := forks.left_cons
    have positive := blockComment_pos c rest
    omega
  · rw [Lexeme.blockComment] at inside
    rw [Lexeme.blockComment, Lexeme.blockComment,
      ← forks.startsWhere_beq (d := '/') rfl rfl tail]
    split at inside
    · next closes => rw [if_pos closes, if_pos closes]
    · next goesOn => rw [if_neg goesOn, if_neg goesOn, ih (by omega)]

theorem Forks.blockCommentKind (forks : Forks left right) {front : Text}
    (inside : Lexeme.blockComment (front ++ left) ≤ front.length) :
    blockCommentKind (front ++ right) = blockCommentKind (front ++ left) := by
  have onRight : Lexeme.blockComment (front ++ right) ≤ front.length :=
    (Nat.le_of_eq (forks.blockComment front inside)).trans inside
  rw [← blockCommentKind_front onRight, blockCommentKind_front inside]

/-! ### Strings and heredocs -/

theorem Forks.enclosed (forks : Forks left right) (stack : List Enclosure) (lead : Lead) :
    Forked left right (enclosed stack lead) := by
  intro front inside
  induction front generalizing stack lead with
  | nil =>
      have none : Lexeme.enclosed stack lead left = 0 := Nat.le_zero.mp inside
      cases stack with
      | nil => rw [Lexeme.enclosed, Lexeme.enclosed]
      | cons inner outer =>
          obtain ⟨c, rest, rfl, -⟩ := forks.left_cons
          rw [Lexeme.enclosed] at none
          omega
  | cons c tail ih =>
      cases stack with
      | nil => rfl
      | cons inner outer =>
          rw [List.cons_append, Lexeme.enclosed, List.length_cons] at inside
          rw [List.cons_append, List.cons_append, Lexeme.enclosed, Lexeme.enclosed,
            ih _ _ (by omega)]

theorem prefix_of_prefix_append {p : Char → Bool} {word front rest : Text}
    (all : ∀ c ∈ word, p c = true) (stops : startsWhere p rest = false)
    (isPrefix : word <+: front ++ rest) : word <+: front := by
  rcases Nat.le_total word.length front.length with short | long
  · exact List.prefix_of_prefix_length_le isPrefix (List.prefix_append front rest) short
  · obtain ⟨more, rfl⟩ := List.prefix_of_prefix_length_le (List.prefix_append front rest)
        isPrefix long
    cases more with
    | nil => simp
    | cons c tail =>
        obtain ⟨after, rfl⟩ := (List.prefix_append_right_inj front).mp isPrefix
        have goesOn := all c (List.mem_append_right front List.mem_cons_self)
        rw [show p c = false from stops] at goesOn
        cases goesOn

theorem Forks.peel (forks : Forks left right) {p : Char → Bool} {front piece rest : Text}
    (same : front ++ right = piece ++ rest) (all : ∀ c ∈ piece, p c = true)
    (noMark : marks.any p = false) :
    ∃ tail, front = piece ++ tail ∧ tail ++ right = rest := by
  obtain ⟨tail, rfl⟩ := prefix_of_prefix_append all (forks.right_stops noMark)
    (same ▸ List.prefix_append piece rest)
  rw [List.append_assoc, List.append_cancel_left_eq] at same
  exact ⟨tail, rfl, same⟩

/-- Where a label ends a line in front of some text, it does so whatever that text is. -/
private theorem heredocEnd?_of_front {label front after : Text} (filled : label ≠ [])
    (marked : label <+: front.drop (Lexeme.run isIndent front))
    (stops : startsWhere isNameChar
      (front.drop (Lexeme.run isIndent front + label.length) ++ after) = false)
    (short : Lexeme.run isIndent front + label.length ≤ front.length) :
    Lexeme.heredocEnd? label (front ++ after) =
      some (Lexeme.run isIndent front + label.length) := by
  have positive := List.length_pos_iff.mpr filled
  have sameRun : Lexeme.run isIndent (front ++ after) = Lexeme.run isIndent front :=
    run_append_of_lt (by omega) after
  rw [← sameRun] at marked stops short ⊢
  rw [← List.drop_append_of_le_length short] at stops
  refine heredocEnd?_of_parts ?_ stops
  rw [List.drop_append_of_le_length (by omega)]
  exact marked.trans (List.prefix_append _ _)

private theorem Forks.front_of_heredocEnd? (forks : Forks left right) {label front : Text}
    {length : Nat} (named : ∀ c ∈ label, isNameChar c = true)
    (ends : Lexeme.heredocEnd? label (front ++ right) = some length) :
    label <+: front.drop (Lexeme.run isIndent front) ∧
      Lexeme.run isIndent front + label.length ≤ front.length ∧
      startsWhere isNameChar
        (front.drop (Lexeme.run isIndent front + label.length) ++ right) = false := by
  obtain ⟨rfl, marked, stops⟩ := heredocEnd?_eq_some ends
  have indent : (front ++ right).takeWhile isIndent <+: front :=
    prefix_of_prefix_append (List.all_eq_true.mp List.all_takeWhile) (forks.right_stops (by decide))
      (List.takeWhile_prefix isIndent)
  have indentInside : Lexeme.run isIndent (front ++ right) ≤ front.length := indent.length_le
  rw [← stable_run isIndent front right indentInside] at marked stops indentInside
  rw [List.drop_append_of_le_length indentInside] at marked
  have inFront := prefix_of_prefix_append named (forks.right_stops (by decide)) marked
  have short := inFront.length_le
  rw [List.length_drop] at short
  rw [List.drop_append_of_le_length (by omega)] at stops
  exact ⟨inFront, by omega, stops⟩

/-- A label ends a line on both sides or on neither, unless the name that goes on behind it on one
side is the word at the fork, in the first line. -/
theorem Forks.heredocEnd? (forks : Forks left right) {label : Text} (front : Text)
    (filled : label ≠ []) (named : ∀ c ∈ label, isNameChar c = true)
    (inside : ∀ length, heredocEnd? label (front ++ left) = some length → length ≤ front.length)
    (goesOn : Lexeme.heredocEnd? label (front ++ left) = none → '\n' ∈ front) :
    heredocEnd? label (front ++ right) = Lexeme.heredocEnd? label (front ++ left) := by
  cases onLeft : Lexeme.heredocEnd? label (front ++ left) with
  | some length =>
      have short := inside length onLeft
      obtain ⟨rfl, marked, stops⟩ := heredocEnd?_eq_some (heredocEnd?_front onLeft short)
      refine heredocEnd?_of_front filled marked ?_ short
      generalize front.drop (Lexeme.run isIndent front + label.length) = behind at stops
      cases behind with
      | nil => exact forks.right_stops (by decide)
      | cons c tail => exact stops
  | none =>
      cases onRight : Lexeme.heredocEnd? label (front ++ right) with
      | none => rfl
      | some length =>
          exfalso
          obtain ⟨marked, short, stops⟩ := forks.front_of_heredocEnd? named onRight
          cases behind : front.drop (Lexeme.run isIndent front + label.length) with
          | cons c tail =>
              rw [behind] at stops
              have stopsLeft : startsWhere isNameChar (front.drop
                  (Lexeme.run isIndent front + label.length) ++ left) = false := by
                rw [behind]
                exact stops
              have alsoLeft := heredocEnd?_of_front filled marked stopsLeft short
              rw [onLeft] at alsoLeft
              cases alsoLeft
          | nil =>
              -- The line is indent and label only, so the line feed is in one of them.
              have feed := goesOn onLeft
              obtain ⟨more, spelled⟩ := marked
              have none : more = [] := by
                rw [← List.drop_drop, ← spelled, List.drop_left] at behind
                exact behind
              rw [split_at_run isIndent front, ← spelled, none, List.append_nil, List.mem_append]
                at feed
              rcases feed with inIndent | inLabel
              · exact isIndent_notFeed inIndent
              · exact absurd (named _ inLabel) (by decide)

theorem Forks.heredocBody (forks : Forks left right) {label : Text} (filled : label ≠ [])
    (named : ∀ c ∈ label, isNameChar c = true) (lineStart : Bool) :
    Forked left right (heredocBody label lineStart) := by
  have positive := List.length_pos_iff.mpr filled
  intro front inside
  induction front generalizing lineStart with
  | nil =>
      obtain ⟨c, rest, rfl, -⟩ := forks.left_cons
      rw [List.nil_append, List.length_nil, heredocBody_cons] at inside
      cases ends : if lineStart then Lexeme.heredocEnd? label (c :: rest) else none with
      | none =>
          rw [ends, Option.getD_none] at inside
          omega
      | some length =>
          rw [ends, Option.getD_some] at inside
          cases lineStart with
          | false => cases ends
          | true =>
              have length := (heredocEnd?_eq_some ends).1
              omega
  | cons c tail ih =>
      rw [List.cons_append, heredocBody_cons] at inside
      rw [List.cons_append, List.cons_append, heredocBody_cons, heredocBody_cons]
      have sameEnd : (if lineStart then Lexeme.heredocEnd? label (c :: (tail ++ right)) else none) =
          if lineStart then Lexeme.heredocEnd? label (c :: (tail ++ left)) else none := by
        cases lineStart with
        | false => rfl
        | true =>
            rw [if_pos rfl] at inside ⊢
            rw [if_pos rfl]
            refine forks.heredocEnd? (c :: tail) filled named (fun length ends => ?_)
              fun goesOn => ?_
            · rw [List.cons_append] at ends
              rw [ends, Option.getD_some] at inside
              exact inside
            · by_contra oneLine
              have beyond := length_lt_heredocBody label oneLine forks.left_ne_nil
              rw [List.cons_append] at goesOn beyond
              rw [heredocBody_cons] at beyond
              rw [goesOn] at inside
              change 1 + _ ≤ (c :: tail).length at inside
              change (c :: tail).length < 1 + _ at beyond
              omega
      rw [sameEnd]
      cases ends : if lineStart then Lexeme.heredocEnd? label (c :: (tail ++ left)) else none with
      | some length => rfl
      | none =>
          rw [ends, Option.getD_none, List.length_cons] at inside
          rw [Option.getD_none, Option.getD_none, ih _ (by omega)]

/-! ### Line breaks and operators -/

private theorem lineBreak_of_stops {text : Text} (noFeed : startsWhere (· == '\n') text = false)
    (noReturn : startsWhere (· == '\r') text = false) : lineBreak text = 0 := by
  cases text with
  | nil => rfl
  | cons c rest =>
      exact lineBreak_of_ne rest (beq_eq_false_iff_ne.mp noFeed) (beq_eq_false_iff_ne.mp noReturn)

theorem Forks.lineBreak (forks : Forks left right) (front : Text) :
    lineBreak (front ++ right) = lineBreak (front ++ left) := by
  cases front with
  | nil =>
      rw [List.nil_append, List.nil_append,
        lineBreak_of_stops (forks.left_stops rfl) (forks.left_stops rfl),
        lineBreak_of_stops (forks.right_stops (by decide)) (forks.right_stops (by decide))]
  | cons c tail =>
      rw [List.cons_append, List.cons_append]
      by_cases feed : c = '\n'
      · rw [feed]
        rfl
      · by_cases carriage : c = '\r'
        · rw [carriage, lineBreak_return, lineBreak_return, forks.startsWhere_beq rfl rfl]
        · rw [lineBreak_of_ne _ feed carriage, lineBreak_of_ne _ feed carriage]

def isOperatorChar (c : Char) : Bool :=
  !(isNameStart c || isMark c)

theorem Forks.operator (forks : Forks left right) (front : Text) :
    operator (front ++ right) = operator (front ++ left) := by
  have spelled : ∀ entry ∈ operators, entry.1.all isOperatorChar = true := by decide
  have leftStops : startsWhere isOperatorChar left = false :=
    startsWhere_mono (fun c => outside_of_opensFork
      (fun _ begins => by rw [isOperatorChar, begins, Bool.true_or, Bool.not_true]) (by decide))
      forks.opens
  have rightStops : startsWhere isOperatorChar right = false := forks.right_stops (by decide)
  have test : operators.find? (fun entry => entry.1.isPrefixOf (front ++ right)) =
      operators.find? fun entry => entry.1.isPrefixOf (front ++ left) := by
    apply List.find?_congr
    intro entry member
    have all := List.all_eq_true.mp (spelled entry member)
    apply Bool.eq_iff_iff.mpr
    rw [List.isPrefixOf_iff_prefix, List.isPrefixOf_iff_prefix]
    exact ⟨fun isOne =>
        (prefix_of_prefix_append all rightStops isOne).trans (List.prefix_append front left),
      fun isOne =>
        (prefix_of_prefix_append all leftStops isOne).trans (List.prefix_append front right)⟩
  rw [Lexeme.operator, Lexeme.operator, test]

/-! ### Tags -/

theorem Forks.left_notSpace (forks : Forks left right) : startsWhere isSpace left = false :=
  startsWhere_mono (fun _ => outside_of_opensFork
    (fun _ begins => Scan.notSpace_of_class begins (by decide)) (by decide)) forks.opens

theorem Forks.wordTag (forks : Forks left right) (front : Text) :
    wordTag (front ++ right) = wordTag (front ++ left) := by
  have none (c : Char) (rest : Text) (plain : isSpace c = false) :
      Lexeme.wordTag (c :: rest) = none := by
    rw [wordTag_of_ne (by rintro rfl; cases plain), plain]
    rfl
  cases front with
  | nil =>
      have leftPlain := forks.left_notSpace
      have rightPlain := forks.right_stops (p := isSpace) (by decide)
      obtain ⟨c, rest, rfl, -⟩ := forks.left_cons
      obtain ⟨d, more, rfl, -⟩ := forks.right_cons
      exact (none d more rightPlain).trans (none c rest leftPlain).symm
  | cons c tail =>
      rw [List.cons_append, List.cons_append]
      by_cases carriage : c = '\r'
      · rw [carriage, wordTag_return, wordTag_return, forks.startsWhere_beq rfl rfl]
      · rw [wordTag_of_ne carriage, wordTag_of_ne carriage]

theorem Forks.bareTag (forks : Forks left right) (front : Text) :
    bareTag (front ++ right) = bareTag (front ++ left) := by
  cases front with
  | nil =>
      have leftPlain := forks.left_notSpace
      have rightPlain := forks.right_stops (p := isSpace) (by decide)
      obtain ⟨c, rest, rfl, -⟩ := forks.left_cons
      obtain ⟨d, more, rfl, -⟩ := forks.right_cons
      change (if isSpace d then _ else none) = if isSpace c then _ else none
      rw [show isSpace c = false from leftPlain, show isSpace d = false from rightPlain]
  | cons c tail => rfl

def opensTagWord (text : Text) : Bool :=
  startsWhere (fun c => c == 'p' || c == 'h') (Text.lower text)

theorem Forks.openTag? (forks : Forks left right) (tagless : opensTagWord left = false)
    (front : Text) : openTag? (front ++ right) = openTag? (front ++ left) := by
  have leftStops : startsWhere (fun c => c == '<' || c == '?') left = false :=
    startsWhere_mono (fun c opens => by
      have other := ne_of_class opens
      simp [other '<' rfl, other '?' rfl]) forks.opens
  have rightStops : startsWhere (fun c => c == '<' || c == '?') right = false :=
    forks.right_stops (by decide)
  by_cases opens : ['<', '?'] <+: front
  · obtain ⟨tail, rfl⟩ := opens
    have taglessRight : opensTagWord right = false := by
      have stops := forks.right_stops (p := fun c => c.toLower == 'p' || c.toLower == 'h')
        (by decide)
      cases right with
      | nil => rfl
      | cons c rest => exact stops
    have inFront {after : Text} (stops : opensTagWord after = false) :
        ("php".toList).isPrefixOf (Text.lower (tail ++ after)) =
          ("php".toList).isPrefixOf (Text.lower tail) := by
      apply Bool.eq_iff_iff.mpr
      rw [List.isPrefixOf_iff_prefix, List.isPrefixOf_iff_prefix, Text.lower_append]
      exact ⟨prefix_of_prefix_append (List.all_eq_true.mp (by decide)) stops, fun isOne =>
        isOne.trans (List.prefix_append _ _)⟩
    change Lexeme.openTag? ('<' :: '?' :: (tail ++ right)) =
      Lexeme.openTag? ('<' :: '?' :: (tail ++ left))
    rw [openTag?_eq, openTag?_eq, forks.startsWhere_beq rfl rfl, inFront tagless,
      inFront taglessRight, forks.bareTag]
    by_cases word : ("php".toList).isPrefixOf (Text.lower tail) = true
    · have three : 3 ≤ tail.length := by
        have length := (List.isPrefixOf_iff_prefix.mp word).length_le
        rw [Text.lower, List.length_map] at length
        exact length
      rw [List.drop_append_of_le_length three, List.drop_append_of_le_length three, forks.wordTag]
    · rw [if_neg word, if_neg word]
  · have short {rest : Text} (stops : startsWhere (fun c => c == '<' || c == '?') rest = false)
        (isOne : ['<', '?'] <+: front ++ rest) : ['<', '?'] <+: front :=
      prefix_of_prefix_append (List.all_eq_true.mp (by decide)) stops isOne
    rw [openTag?_eq_none fun isOne => opens (short leftStops isOne),
      openTag?_eq_none fun isOne => opens (short rightStops isOne)]

theorem Forks.inlineHtml (forks : Forks left right) (tagless : opensTagWord left = false) :
    Forked left right inlineHtml := by
  refine Forked.of_cons (fun none => ?_) fun c tail ih inside => ?_
  · have noTag : Lexeme.openTag? left = Option.none := by
      refine openTag?_eq_none fun isOne => ?_
      have opens := forks.left_stops (d := '<') rfl
      obtain ⟨rest, rfl⟩ := isOne
      cases opens
    obtain ⟨c, rest, rfl, -⟩ := forks.left_cons
    rw [Lexeme.inlineHtml, noTag] at none
    change 1 + _ = 0 at none
    omega
  · have sameTag : Lexeme.openTag? (c :: (tail ++ right)) = Lexeme.openTag? (c :: (tail ++ left)) :=
      forks.openTag? tagless (c :: tail)
    rw [Lexeme.inlineHtml] at inside
    rw [Lexeme.inlineHtml, Lexeme.inlineHtml, sameTag]
    split at inside
    · next tag => rw [if_pos tag, if_pos tag]
    · next noTag => rw [if_neg noTag, if_neg noTag, ih (by omega)]

end Lexeme

namespace Scan

open Lexeme

variable {left right : Text}

theorem htmlLexeme_fork (forks : Forks left right) (tagless : opensTagWord left = false)
    {front : Text} (filled : front ≠ [])
    (inside : (htmlLexeme (front ++ left)).2 ≤ front.length) :
    htmlLexeme (front ++ right) = htmlLexeme (front ++ left) := by
  cases front with
  | nil => exact absurd rfl filled
  | cons c tail =>
      have sameTag : openTag? (c :: (tail ++ right)) = openTag? (c :: (tail ++ left)) :=
        forks.openTag? tagless (c :: tail)
      rw [List.cons_append, htmlLexeme_cons] at inside
      rw [List.cons_append, List.cons_append, htmlLexeme_cons, htmlLexeme_cons, sameTag]
      cases tag : openTag? (c :: (tail ++ left)) with
      | some found => rfl
      | none =>
          rw [tag, Option.getD_none, List.length_cons] at inside
          rw [Option.getD_none, Option.getD_none, forks.inlineHtml tagless tail (by omega)]

/-- A fork behind three angle brackets does not bring out the head of a heredoc. -/
def Headless (left right front : Text) : Prop :=
  ∀ rest, front = '<' :: '<' :: '<' :: rest → heredocHead? (rest ++ left) = none →
    heredocHead? (rest ++ right) = none

private theorem beginsOther_fork (forks : Forks left right) {front : Text}
    (headless : Headless left right front) (noOther : beginsOther (front ++ left) = false) :
    beginsOther (front ++ right) = false := by
  have inFront (opener : Text) {rest : Text} (spelled : front ++ right = opener ++ rest)
      (all : opener.all isOperatorChar = true) :
      ∃ tail, front = opener ++ tail ∧ tail ++ right = rest :=
    forks.peel spelled (List.all_eq_true.mp all) (by decide)
  apply eq_false_of_ne_true
  intro other
  generalize spelled : front ++ right = text at other
  unfold beginsOther at other
  split at other
  · next rest =>
      obtain ⟨tail, rfl, -⟩ := inFront ['?', '>'] spelled (by decide)
      cases noOther
  · next rest =>
      obtain ⟨tail, rfl, -⟩ := inFront ['/', '/'] spelled (by decide)
      cases noOther
  · next rest =>
      obtain ⟨tail, rfl, -⟩ := inFront ['/', '*'] spelled (by decide)
      cases noOther
  · next c rest =>
      obtain ⟨tail, rfl, follows⟩ := inFront ['.'] spelled (by decide)
      have digit : startsWhere Char.isDigit (tail ++ right) = true := by rwa [follows]
      rw [← forks.startsWhere_isDigit] at digit
      obtain ⟨d, more, same, isDigit⟩ := startsWhere_true digit
      change beginsOther ('.' :: (tail ++ left)) = false at noOther
      rw [same] at noOther
      change d.isDigit = false at noOther
      rw [isDigit] at noOther
      cases noOther
  · next rest =>
      obtain ⟨tail, rfl, rfl⟩ := inFront ['<', '<', '<'] spelled (by decide)
      have none : heredocHead? (tail ++ left) = none := Option.isSome_eq_false_iff.mp noOther |>
        Option.isNone_iff_eq_none.mp
      rw [headless tail rfl none] at other
      cases other
  · cases other

theorem Rule.fork {afterArrow : Bool} {kind : TokenKind} {length : Nat} (front : Text)
    (rule : Rule afterArrow (front ++ left) kind length) (forks : Forks left right)
    (inside : length ≤ front.length) (headless : Headless left right front) :
    Rule afterArrow (front ++ right) kind length := by
  have bounds := rule.length_bounds
  have cut {c : Char} {rest part : Text} (same : part ++ left = c :: rest)
      (filled : 0 < part.length) : ∃ tail, part = c :: tail ∧ rest = tail ++ left := by
    cases part with
    | nil => cases filled
    | cons d tail =>
        obtain ⟨rfl, rfl⟩ := List.cons.inj same
        exact ⟨tail, rfl, rfl⟩
  generalize spelled : front ++ left = text at rule bounds
  cases rule with
  | space c rest isOne =>
      obtain ⟨tail, rfl, rfl⟩ := cut spelled (by omega)
      rw [← List.cons_append, ← forks.run (p := isSpace) (by decide) (c :: tail) inside]
      exact .space c (tail ++ right) isOne
  | close rest =>
      rw [closeTag] at inside ⊢
      obtain ⟨tail, rfl, again⟩ := cut spelled (by omega)
      rw [List.length_cons] at inside
      obtain ⟨tail, rfl, rfl⟩ := cut again.symm (by omega)
      rw [← forks.lineBreak]
      exact .close (tail ++ right)
  | attributeOpen rest =>
      obtain ⟨tail, rfl, again⟩ := cut spelled (by omega)
      obtain ⟨tail, rfl, rfl⟩ := cut again.symm (by rw [List.length_cons] at inside; omega)
      exact .attributeOpen (tail ++ right)
  | hash rest noBracket =>
      obtain ⟨tail, rfl, rfl⟩ := cut spelled (by omega)
      rw [List.length_cons] at inside
      rw [forks.startsWhere_beq rfl rfl] at noBracket
      rw [← forks.lineComment tail (by omega)]
      exact .hash (tail ++ right) noBracket
  | slashes rest =>
      obtain ⟨tail, rfl, again⟩ := cut spelled (by omega)
      rw [List.length_cons] at inside
      have more : lineComment ('/' :: rest) = 1 + lineComment rest := rfl
      obtain ⟨tail, rfl, rfl⟩ := cut again.symm (by omega)
      rw [← List.cons_append] at inside ⊢
      rw [← forks.lineComment ('/' :: tail) (by omega)]
      exact .slashes (tail ++ right)
  | block rest =>
      obtain ⟨tail, rfl, again⟩ := cut spelled (by omega)
      rw [List.length_cons] at inside
      obtain ⟨tail, rfl, rfl⟩ := cut again.symm (by omega)
      rw [List.length_cons] at inside
      have enough : blockComment (tail ++ left) ≤ tail.length := by omega
      rw [← forks.blockComment tail enough, ← forks.blockCommentKind enough]
      exact .block (tail ++ right)
  | string mark rest isOne =>
      obtain ⟨tail, rfl, rfl⟩ := cut spelled (by omega)
      rw [List.length_cons] at inside
      rw [quoted, ← forks.enclosed [.quote mark] .plain tail (by rw [quoted] at inside; omega)]
      exact .string mark (tail ++ right) isOne
  | heredoc rest head found =>
      obtain ⟨tail, rfl, again⟩ := cut spelled (by omega)
      rw [List.length_cons] at inside
      obtain ⟨tail, rfl, third⟩ := cut again.symm (by omega)
      rw [List.length_cons] at inside
      obtain ⟨tail, rfl, rfl⟩ := cut third.symm (by omega)
      rw [List.length_cons] at inside
      have headInside : head.length ≤ tail.length := by omega
      obtain ⟨filled, named⟩ := heredocHead?_named found
      rw [List.drop_append_of_le_length headInside] at inside ⊢
      rw [← forks.heredocBody filled named true (tail.drop head.length)
        (by rw [List.length_drop]; omega), ← List.drop_append_of_le_length headInside]
      exact .heredoc (tail ++ right) head
        (heredocHead?_append (heredocHead?_front found headInside) right)
  | variableName c rest begins =>
      have positive := run_pos (p := isNameChar) (c := c) (by simp [isNameChar, begins]) rest
      obtain ⟨tail, rfl, again⟩ := cut spelled (by omega)
      rw [List.length_cons] at inside
      obtain ⟨tail, rfl, rfl⟩ := cut again.symm (by omega)
      rw [← List.cons_append, ← forks.run (p := isNameChar) (by decide) (c :: tail)
        (by rw [List.cons_append]; omega)]
      exact .variableName c (tail ++ right) begins
  | dollar rest noName =>
      obtain ⟨tail, rfl, rfl⟩ := cut spelled (by omega)
      exact .dollar (tail ++ right) (forks.noName noName)
  | number c rest begins =>
      obtain ⟨tail, rfl, rfl⟩ := cut spelled (by omega)
      rw [forks.startsWhere_isDigit] at begins
      rw [← List.cons_append, ← forks.number (c :: tail) inside]
      exact .number c (tail ++ right) begins
  | rooted c rest begins =>
      have positive := name_pos begins rest
      obtain ⟨tail, rfl, again⟩ := cut spelled (by omega)
      rw [List.length_cons] at inside
      obtain ⟨tail, rfl, rfl⟩ := cut again.symm (by omega)
      rw [← List.cons_append, ← forks.name (c :: tail) (by rw [List.cons_append]; omega)]
      exact .rooted c (tail ++ right) begins
  | separator rest noName =>
      obtain ⟨tail, rfl, rfl⟩ := cut spelled (by omega)
      exact .separator (tail ++ right) (forks.noName noName)
  | name c rest begins =>
      obtain ⟨tail, rfl, rfl⟩ := cut spelled (by omega)
      rw [← List.cons_append, ← forks.nameKind afterArrow inside, ← forks.name (c :: tail) inside]
      exact .name c (tail ++ right) begins
  | punctuation c rest kind isOne =>
      obtain ⟨tail, rfl, rfl⟩ := cut spelled (by omega)
      exact .punctuation c (tail ++ right) kind isOne
  | operator c rest plain noOther =>
      obtain ⟨tail, rfl, rfl⟩ := cut spelled (by omega)
      rw [← List.cons_append] at noOther ⊢
      rw [← forks.operator]
      exact .operator c (tail ++ right) plain
        (beginsOther_fork forks headless noOther)

theorem State.lexeme_fork (forks : Forks left right) (state : State) {front : Text}
    (filled : front ≠ []) (inside : (state.lexeme (front ++ left)).2 ≤ front.length)
    (tagless : state.mode = .html → opensTagWord left = false)
    (headless : state.mode = .php → Headless left right front) :
    state.lexeme (front ++ right) = state.lexeme (front ++ left) := by
  unfold State.lexeme at inside ⊢
  cases mode : state.mode with
  | html =>
      rw [mode] at inside
      exact htmlLexeme_fork forks (tagless mode) filled inside
  | php =>
      rw [mode] at inside
      cases front with
      | nil => exact absurd rfl filled
      | cons c tail =>
          have rule : Rule state.afterArrow (c :: (tail ++ left)) _ _ := rule_of_phpLexeme rfl
          exact (rule.fork (c :: tail) forks inside (headless mode)).phpLexeme_eq

end Scan
end PhpWeave
