import Mathlib.Data.List.Find
import PhpWeave.Proofs.Text.Bytewise
import PhpWeave.Proofs.Token.Scan

set_option autoImplicit false

/-!
Scanning byte by byte. Every test of the scanner is for an ASCII character or does not tell the
characters beyond ASCII apart. A scan of the bytes of a text therefore goes through the same rules
as a scan of its characters, and where the one cuts the other does: no token begins or ends inside
a character.
-/

namespace PhpWeave

open Text

namespace Lexeme

/-! ### Tests -/

private theorem uniform_of_wide {p : Char → Bool} (answer : Bool)
    (known : ∀ c, isWide c = true → p c = answer) : Uniform p := by
  intro c d first second
  rw [known c first, known d second]

theorem narrow_of_class {p : Char → Bool} (fails : ∀ {c}, isWide c = true → p c = false) {c : Char}
    (holds : p c = true) : isWide c = false := by
  apply eq_false_of_ne_true
  intro wide
  rw [fails wide] at holds
  cases holds

theorem isNameStart_wide {c : Char} (wide : isWide c = true) : isNameStart c = true := by
  have large : (decide (0x80 ≤ c.val)) = true := wide
  simp only [isNameStart, large, Bool.or_true]

theorem uniform_isNameStart : Uniform isNameStart := uniform_of_wide true fun _ => isNameStart_wide

theorem isNameChar_wide {c : Char} (wide : isWide c = true) : isNameChar c = true := by
  simp only [isNameChar, isNameStart_wide wide, Bool.true_or]

theorem uniform_isNameChar : Uniform isNameChar := uniform_of_wide true fun _ => isNameChar_wide

theorem isDigit_wide {c : Char} (wide : isWide c = true) : c.isDigit = false := by
  apply eq_false_of_ne_true
  intro digit
  simp only [Char.isDigit, Bool.and_eq_true, decide_eq_true_eq, UInt32.le_iff_toNat_le] at digit
  have upper : c.val.toNat ≤ 57 := digit.2
  have lower := (isWide_iff c).mp wide
  omega

theorem uniform_isDigit : Uniform Char.isDigit := uniform_of_wide false fun _ => isDigit_wide

private theorem uniform_between (low high : Char) (narrow : high.val.toNat < 128) :
    Uniform fun c => decide (low ≤ c) && decide (c ≤ high) := by
  apply uniform_of_wide false
  intro c wide
  have above : ¬ c ≤ high := fun below => by
    have upper : c.val.toNat ≤ high.val.toNat := UInt32.le_iff_toNat_le.mp below
    have lower := (isWide_iff c).mp wide
    omega
  simp only [above, decide_false, Bool.and_false]

theorem uniform_isSpace : Uniform isSpace :=
  ((((uniform_beq rfl).or (uniform_beq rfl)).or (uniform_beq rfl)).or (uniform_beq rfl)).or
    (uniform_beq rfl) |>.or (uniform_beq rfl)

theorem uniform_isIndent : Uniform isIndent := (uniform_beq rfl).or (uniform_beq rfl)

theorem uniform_isDigitOrUnderscore : Uniform isDigitOrUnderscore :=
  uniform_isDigit.or (uniform_beq rfl)

theorem uniform_isHexDigitOrUnderscore : Uniform isHexDigitOrUnderscore := by
  have small := uniform_between 'a' 'f' (by decide)
  have large := uniform_between 'A' 'F' (by decide)
  exact ((uniform_isDigit.or small).or large).or (uniform_beq rfl)

theorem startsWhere_bytewise {p : Char → Bool} (uniform : Uniform p) (text : Text) :
    startsWhere p (bytewise text) = startsWhere p text := by
  cases text with
  | nil => rfl
  | cons c rest =>
      obtain ⟨u, more, bytes, same⟩ := uniform.bytewise_cons c rest
      rw [bytes]
      exact same

theorem run_bytewise {p : Char → Bool} (uniform : Uniform p) (text : Text) :
    run p (bytewise text) = offset (run p text) text := by
  rw [run, bytewise_takeWhile uniform, offset, run,
    ← List.prefix_iff_eq_take.mp (List.takeWhile_prefix p)]

/-! ### Measures that go on over characters beyond ASCII -/

private theorem measure_append (measure : Text → Nat)
    (passes : ∀ u rest, isWide u = true → measure (u :: rest) = 1 + measure rest)
    {front : Text} (wide : ∀ u ∈ front, isWide u = true) (rest : Text) :
    measure (front ++ rest) = front.length + measure rest := by
  induction front with
  | nil => simp
  | cons u front ih =>
      rw [List.cons_append, passes u _ (wide u List.mem_cons_self),
        ih fun v member => wide v (List.mem_cons_of_mem u member), List.length_cons]
      omega

private theorem measure_bytewise (measure : Text → Nat) (empty : measure [] = 0)
    (passes : ∀ u rest, isWide u = true → measure (u :: rest) = 1 + measure rest)
    (narrow : ∀ c rest, isWide c = false → measure (bytewise rest) = offset (measure rest) rest →
      measure (c :: bytewise rest) = offset (measure (c :: rest)) (c :: rest))
    (text : Text) : measure (bytewise text) = offset (measure text) text := by
  induction text with
  | nil => rw [bytewise_nil, empty]; rfl
  | cons c rest ih =>
      cases wide : isWide c with
      | false =>
          rw [bytewise_cons_narrow wide]
          exact narrow c rest wide ih
      | true =>
          rw [bytewise_cons, measure_append measure passes (units_wide wide), ih,
            passes c rest wide, Nat.add_comm 1, offset_succ]

theorem name_bytewise (text : Text) : name (bytewise text) = offset (name text) text := by
  refine measure_bytewise name rfl ?_ ?_ text
  · intro u rest wide
    simp only [name, isNameChar_wide wide, Bool.true_or, if_true]
  · intro c rest narrow next
    simp only [name, startsWhere_bytewise uniform_isNameStart, next]
    split
    · exact (offset_one_add narrow _ _).symm
    · rfl

theorem lineComment_bytewise (text : Text) :
    lineComment (bytewise text) = offset (lineComment text) text := by
  refine measure_bytewise lineComment rfl ?_ ?_ text
  · intro u rest wide
    have other (d : Char) (narrow : isWide d = false) : (u == d) = false := by
      exact beq_eq_false_iff_ne.mpr (ne_of_class wide d narrow)
    simp only [lineComment, other '\n' rfl, other '\r' rfl, other '?' rfl, Bool.false_and,
      Bool.or_self, Bool.false_eq_true, if_false]
  · intro c rest narrow next
    simp only [lineComment, startsWhere_bytewise (uniform_beq (d := '>') rfl), next]
    split
    · rfl
    · exact (offset_one_add narrow _ _).symm

theorem blockComment_bytewise (text : Text) :
    blockComment (bytewise text) = offset (blockComment text) text := by
  refine measure_bytewise blockComment rfl ?_ ?_ text
  · intro u rest wide
    have other : (u == '*') = false := beq_eq_false_iff_ne.mpr (ne_of_class wide '*' rfl)
    simp only [blockComment, other, Bool.false_and, Bool.false_eq_true, if_false]
  · intro c rest narrow next
    simp only [blockComment, startsWhere_bytewise (uniform_beq (d := '/') rfl), next]
    split
    · next closes =>
        obtain ⟨tail, rfl⟩ := startsWhere_beq (Bool.and_eq_true_iff.mp closes).2
        rw [offset_succ_narrow narrow, offset_succ_narrow rfl, offset_zero]
    · exact (offset_one_add narrow _ _).symm

/-- What is read behind one mark only is the same for all texts that do not begin with the mark. -/
private theorem begins_or_same {α : Type} {read : Text → α} (value : α) {mark : Char}
    (narrow : isWide mark = false) (empty : read [] = value)
    (other : ∀ {c}, c ≠ mark → ∀ rest, read (c :: rest) = value) (text : Text) :
    (∃ rest, text = mark :: rest) ∨ read (bytewise text) = value ∧ read text = value := by
  cases text with
  | nil => exact .inr ⟨empty, empty⟩
  | cons c rest =>
      by_cases same : c = mark
      · exact .inl ⟨rest, by rw [same]⟩
      · obtain ⟨u, more, bytes, first⟩ := (uniform_beq narrow).bytewise_cons c rest
        rw [beq_eq_false_iff_ne.mpr same] at first
        rw [bytes]
        exact .inr ⟨other (beq_eq_false_iff_ne.mp first) more, other same rest⟩

theorem blockCommentKind_bytewise (text : Text) :
    blockCommentKind (bytewise text) = blockCommentKind text := by
  obtain ⟨rest, rfl⟩ | ⟨bytes, characters⟩ :=
    begins_or_same TokenKind.comment rfl rfl blockCommentKind_of_ne text
  · rw [bytewise_cons_narrow rfl]
    simp only [blockCommentKind, startsWhere_bytewise (uniform_beq (d := '/') rfl)]
  · rw [bytes, characters]

/-! ### Numbers -/

theorem fraction_bytewise (text : Text) :
    fraction (bytewise text) = offset (fraction text) text := by
  obtain ⟨rest, rfl⟩ | ⟨bytes, characters⟩ := begins_or_same 0 rfl rfl fraction_of_ne text
  · rw [bytewise_cons_narrow rfl]
    simp only [fraction, startsWhere_bytewise uniform_isDigit,
      run_bytewise uniform_isDigitOrUnderscore]
    split
    · exact (offset_one_add rfl _ _).symm
    · rfl
  · rw [bytes, characters, offset_zero]

theorem exponentTail_bytewise (text : Text) :
    exponentTail (bytewise text) = offset (exponentTail text) text := by
  have notSign {c : Char} (wide : isWide c = true) : (c == '+' || c == '-') = false := by
    simp [ne_of_class wide '+' rfl, ne_of_class wide '-' rfl]
  cases text with
  | nil => rfl
  | cons c rest =>
      cases wide : isWide c with
      | true =>
          obtain ⟨u, more, bytes, first⟩ := bytewise_cons_wide wide rest
          rw [bytes]
          simp only [exponentTail, isDigit_wide first, isDigit_wide wide, notSign first,
            notSign wide, Bool.false_and, Bool.false_eq_true, if_false, offset_zero]
      | false =>
          have digits := run_bytewise uniform_isDigitOrUnderscore (c :: rest)
          rw [bytewise_cons_narrow wide] at digits ⊢
          simp only [exponentTail, digits, startsWhere_bytewise uniform_isDigit,
            run_bytewise uniform_isDigitOrUnderscore]
          split
          · rfl
          · split
            · exact (offset_one_add wide _ _).symm
            · rfl

theorem exponent_bytewise (text : Text) :
    exponent (bytewise text) = offset (exponent text) text := by
  have notLetter {c : Char} (wide : isWide c = true) : (c == 'e' || c == 'E') = false := by
    simp [ne_of_class wide 'e' rfl, ne_of_class wide 'E' rfl]
  cases text with
  | nil => rfl
  | cons c rest =>
      cases wide : isWide c with
      | true =>
          obtain ⟨u, more, bytes, first⟩ := bytewise_cons_wide wide rest
          rw [bytes, exponent_of_plain (notLetter first), exponent_of_plain (notLetter wide),
            offset_zero]
      | false =>
          rw [bytewise_cons_narrow wide]
          cases letter : (c == 'e' || c == 'E') with
          | false => rw [exponent_of_plain letter, exponent_of_plain letter, offset_zero]
          | true =>
              rw [exponent_of_letter letter, exponent_of_letter letter, exponentTail_bytewise]
              by_cases missing : exponentTail rest = 0
              · rw [missing, offset_zero]
                rfl
              · have positive := Nat.pos_of_ne_zero missing
                have nonempty : rest ≠ [] := by
                  rintro rfl
                  exact missing rfl
                have bytes := offset_pos positive nonempty
                rw [if_neg missing, if_neg (Nat.ne_of_gt bytes), offset_one_add wide]

theorem hasBaseMark_bytewise (text : Text) :
    hasBaseMark (bytewise text) = hasBaseMark text := by
  have notMark {c : Char} (rest : Text) (wide : isWide c = true) :
      hasBaseMark ('0' :: c :: rest) = false := by
    simp [hasBaseMark, ne_of_class wide 'x' rfl, ne_of_class wide 'X' rfl, ne_of_class wide 'b' rfl,
      ne_of_class wide 'B' rfl, ne_of_class wide 'o' rfl, ne_of_class wide 'O' rfl]
  obtain ⟨rest, rfl⟩ | ⟨bytes, characters⟩ := begins_or_same false rfl rfl hasBaseMark_of_ne text
  · rw [bytewise_cons_narrow rfl]
    cases rest with
    | nil => rfl
    | cons d tail =>
        cases wide : isWide d with
        | true =>
            obtain ⟨u, more, bytes, first⟩ := bytewise_cons_wide wide tail
            rw [bytes, notMark more first, notMark tail wide]
        | false =>
            rw [bytewise_cons_narrow wide]
            rfl
  · rw [bytes, characters]

private theorem offset_two_of_hasBaseMark {text : Text} (based : hasBaseMark text = true) :
    offset 2 text = 2 := by
  unfold hasBaseMark at based
  split at based
  · next mark rest =>
      have narrow : isWide mark = false := by
        simp only [Bool.or_eq_true, beq_iff_eq] at based
        rcases based with ((((rfl | rfl) | rfl) | rfl) | rfl) | rfl <;> rfl
      rw [offset_succ_narrow rfl, offset_succ_narrow narrow, offset_zero]
  · cases based

theorem number_bytewise (text : Text) : number (bytewise text) = offset (number text) text := by
  cases based : hasBaseMark text with
  | true =>
      have two := offset_two_of_hasBaseMark based
      have dropped : (bytewise text).drop 2 = bytewise (text.drop 2) := by
        rw [← bytewise_drop, two]
      simp only [number, hasBaseMark_bytewise, based, if_true, dropped,
        run_bytewise uniform_isHexDigitOrUnderscore, offset_add, two]
  | false =>
      simp only [number, hasBaseMark_bytewise, based, Bool.false_eq_true, if_false,
        run_bytewise uniform_isDigitOrUnderscore, bytewise_drop, fraction_bytewise]
      rw [← offset_add, bytewise_drop, exponent_bytewise, ← offset_add]

/-! ### Strings -/

def Quoted (stack : List Enclosure) : Prop :=
  ∀ mark, Enclosure.quote mark ∈ stack → isQuote mark = true

theorem isQuote_wide {c : Char} (wide : isWide c = true) : isQuote c = false := by
  simp [isQuote, ne_of_class wide '\'' rfl, ne_of_class wide '"' rfl, ne_of_class wide '\x60' rfl]

private theorem enclosureStep_quoted {inner : Enclosure} {outer : List Enclosure}
    (quoted : Quoted (inner :: outer)) (lead : Lead) (c : Char) :
    Quoted (enclosureStep inner outer lead c).1 := by
  have below : Quoted outer := fun mark member => quoted mark (List.mem_cons_of_mem _ member)
  have nested : Quoted (.braces :: inner :: outer) := by
    intro mark member
    rcases List.mem_cons.mp member with same | inside
    · cases same
    · exact quoted mark inside
  cases inner with
  | quote mark =>
      simp only [enclosureStep, quoteStep]
      repeat' split
      all_goals assumption
  | braces =>
      simp only [enclosureStep, braceStep]
      split
      · next isOne =>
          intro mark member
          rcases List.mem_cons.mp member with same | inside
          · cases same
            exact isOne
          · exact quoted mark inside
      · split
        · exact nested
        · split
          · exact below
          · exact quoted

private theorem enclosureStep_wide {inner : Enclosure} {outer : List Enclosure}
    (quoted : Quoted (inner :: outer)) (lead : Lead) {c : Char} (wide : isWide c = true) :
    enclosureStep inner outer lead c = (inner :: outer, .plain) := by
  have other (d : Char) (narrow : isWide d = false) : c ≠ d := ne_of_class wide d narrow
  cases inner with
  | quote mark =>
      have notMark : c ≠ mark := by
        rintro rfl
        have isOne := quoted c List.mem_cons_self
        rw [isQuote_wide wide] at isOne
        cases isOne
      simp [enclosureStep, quoteStep, other '$' rfl, other '\\' rfl, other '\x7b' rfl, notMark]
  | braces =>
      simp [enclosureStep, braceStep, isQuote_wide wide, other '\x7b' rfl, other '\x7d' rfl]

private theorem enclosed_append {inner : Enclosure} {outer : List Enclosure}
    (quoted : Quoted (inner :: outer)) {front : Text} (wide : ∀ u ∈ front, isWide u = true)
    (rest : Text) :
    enclosed (inner :: outer) .plain (front ++ rest) =
      front.length + enclosed (inner :: outer) .plain rest := by
  induction front with
  | nil => simp
  | cons u front ih =>
      rw [List.cons_append, enclosed, enclosureStep_wide quoted _ (wide u List.mem_cons_self),
        ih fun v member => wide v (List.mem_cons_of_mem u member), List.length_cons]
      omega

theorem enclosed_bytewise {stack : List Enclosure} (quoted : Quoted stack) (lead : Lead)
    (text : Text) :
    enclosed stack lead (bytewise text) = offset (enclosed stack lead text) text := by
  induction text generalizing stack lead with
  | nil => cases stack <;> rfl
  | cons c rest ih =>
      cases stack with
      | nil => simp only [enclosed, offset_zero]
      | cons inner outer =>
          cases wide : isWide c with
          | false =>
              rw [bytewise_cons_narrow wide, enclosed, enclosed,
                ih (enclosureStep_quoted quoted lead c), offset_one_add wide]
          | true =>
              rw [enclosed, enclosureStep_wide quoted lead wide, Nat.add_comm 1, offset_succ,
                ← ih quoted, bytewise_cons]
              have all := units_wide wide
              cases bytes : units c with
              | nil => exact absurd bytes (units_ne_nil c)
              | cons u more =>
                  rw [bytes] at all
                  rw [List.cons_append, enclosed,
                    enclosureStep_wide quoted lead (all u List.mem_cons_self),
                    enclosed_append quoted fun v member => all v (List.mem_cons_of_mem u member),
                    List.length_cons, ← Nat.add_assoc, Nat.add_comm 1]

theorem quoted_bytewise {mark : Char} (isOne : isQuote mark = true) (text : Text) :
    quoted mark (bytewise text) = offset (quoted mark text) text := by
  apply enclosed_bytewise
  intro other member
  cases List.mem_singleton.mp member
  exact isOne

/-! ### Heredocs -/

theorem lineBreak_bytewise (text : Text) : lineBreak (bytewise text) = lineBreak text := by
  cases text with
  | nil => rfl
  | cons c rest =>
      cases wide : isWide c with
      | true =>
          obtain ⟨u, more, bytes, first⟩ := bytewise_cons_wide wide rest
          rw [bytes, lineBreak_of_ne _ (ne_of_class first '\n' rfl) (ne_of_class first '\r' rfl),
            lineBreak_of_ne _ (ne_of_class wide '\n' rfl) (ne_of_class wide '\r' rfl)]
      | false =>
          rw [bytewise_cons_narrow wide]
          by_cases carriage : c = '\r'
          · rw [carriage, lineBreak_return, lineBreak_return,
              startsWhere_bytewise (uniform_beq (d := '\n') rfl)]
          · by_cases feed : c = '\n'
            · rw [feed]
              rfl
            · rw [lineBreak_of_ne _ feed carriage, lineBreak_of_ne _ feed carriage]

theorem offset_lineBreak (text : Text) : offset (lineBreak text) text = lineBreak text := by
  unfold lineBreak
  split <;> rfl

theorem isPrefixOf_bytewise (label text : Text) :
    (bytewise label).isPrefixOf (bytewise text) = label.isPrefixOf text := by
  apply Bool.eq_iff_iff.mpr
  simp only [List.isPrefixOf_iff_prefix]
  exact bytewise_prefix_iff

private theorem offset_front {front text : Text} (isPrefix : front <+: text) :
    offset front.length text = (bytewise front).length := by
  obtain ⟨rest, rfl⟩ := isPrefix
  exact offset_length front rest

private theorem drop_prefix_bytewise {front text : Text} (isPrefix : front <+: text) :
    (bytewise text).drop (bytewise front).length = bytewise (text.drop front.length) := by
  obtain ⟨rest, rfl⟩ := isPrefix
  rw [bytewise_append, List.drop_left, List.drop_left]

private theorem mark_bytewise (text : Text) :
    (((bytewise text).takeWhile fun c => c == '\'' || c == '"').take 1 =
      (text.takeWhile fun c => c == '\'' || c == '"').take 1) ∧
      bytewise ((text.takeWhile fun c => c == '\'' || c == '"').take 1) =
        (text.takeWhile fun c => c == '\'' || c == '"').take 1 := by
  have uniform : Uniform fun c => c == '\'' || c == '"' :=
    (uniform_beq (d := '\'') rfl).or (uniform_beq (d := '"') rfl)
  have narrow : ∀ c ∈ text.takeWhile (fun c => c == '\'' || c == '"'), isWide c = false := by
    intro c member
    have quote := List.all_eq_true.mp List.all_takeWhile c member
    simp only [Bool.or_eq_true, beq_iff_eq] at quote
    rcases quote with rfl | rfl <;> rfl
  rw [bytewise_takeWhile uniform, bytewise_narrow narrow]
  exact ⟨rfl, bytewise_narrow fun c member => narrow c (List.mem_of_mem_take member)⟩

theorem heredocHead?_bytewise (text : Text) :
    heredocHead? (bytewise text) =
      (heredocHead? text).map fun head => ⟨bytewise head.label, offset head.length text⟩ := by
  have indentRun := run_bytewise uniform_isIndent text
  simp only [heredocHead?, indentRun, bytewise_drop]
  generalize run isIndent text = indent at *
  generalize marked : text.drop indent = afterIndent at *
  obtain ⟨markRead, markNarrow⟩ := mark_bytewise afterIndent
  have markPrefix : (afterIndent.takeWhile fun c => c == '\'' || c == '"').take 1 <+: afterIndent :=
    (List.take_prefix _ _).trans (List.takeWhile_prefix _)
  rw [markRead]
  generalize (afterIndent.takeWhile fun c => c == '\'' || c == '"').take 1 = mark at *
  have afterMark := drop_prefix_bytewise markPrefix
  rw [markNarrow] at afterMark
  rw [afterMark, bytewise_takeWhile uniform_isNameChar,
    startsWhere_bytewise uniform_isNameStart,
    drop_prefix_bytewise (List.takeWhile_prefix isNameChar)]
  have labelPrefix := List.takeWhile_prefix (l := afterIndent.drop mark.length) isNameChar
  generalize (afterIndent.drop mark.length).takeWhile isNameChar = label at *
  have closing := isPrefixOf_bytewise mark ((afterIndent.drop mark.length).drop label.length)
  rw [markNarrow] at closing
  rw [closing]
  have markOffset {rest : Text} (isPrefix : mark <+: rest) :
      offset mark.length rest = mark.length := by
    rw [offset_front isPrefix, markNarrow]
  have labelOffset := offset_front labelPrefix
  split
  · next valid =>
      have again := List.isPrefixOf_iff_prefix.mp (Bool.and_eq_true_iff.mp valid).2
      have afterLabel := drop_prefix_bytewise again
      rw [markNarrow] at afterLabel
      rw [afterLabel, lineBreak_bytewise]
      split
      · rfl
      · simp only [Option.map_some, offset_add, ← List.drop_drop, marked, markOffset markPrefix,
          labelOffset, markOffset again, offset_lineBreak]
  · rfl

theorem heredocEnd?_bytewise (label text : Text) :
    heredocEnd? (bytewise label) (bytewise text) =
      (heredocEnd? label text).map fun length => offset length text := by
  simp only [heredocEnd?, run_bytewise uniform_isIndent text, bytewise_drop, isPrefixOf_bytewise]
  cases marked : label.isPrefixOf (text.drop (run isIndent text)) with
  | false => rfl
  | true =>
      have isPrefix := List.isPrefixOf_iff_prefix.mp marked
      rw [drop_prefix_bytewise isPrefix, startsWhere_bytewise uniform_isNameChar]
      split
      · rw [Option.map_some, offset_add, offset_front isPrefix]
      · rfl

theorem heredocBody_bytewise (label : Text) (lineStart : Bool) (text : Text) :
    heredocBody (bytewise label) lineStart (bytewise text) =
      offset (heredocBody label lineStart text) text := by
  have notFeed {u : Char} (wide : isWide u = true) : (u == '\n') = false :=
    beq_eq_false_iff_ne.mpr (ne_of_class wide '\n' rfl)
  have passes (u : Char) (rest : Text) (wide : isWide u = true) :
      heredocBody (bytewise label) false (u :: rest) =
        1 + heredocBody (bytewise label) false rest := by
    rw [heredocBody_cons, notFeed wide]
    rfl
  induction text generalizing lineStart with
  | nil => rfl
  | cons c rest ih =>
      have ends :
          (if lineStart then heredocEnd? (bytewise label) (bytewise (c :: rest)) else none) =
          (if lineStart then heredocEnd? label (c :: rest) else none).map
            fun length => offset length (c :: rest) := by
        split
        · exact heredocEnd?_bytewise label (c :: rest)
        · rfl
      rw [heredocBody_cons label]
      cases wide : isWide c with
      | false =>
          rw [bytewise_cons_narrow wide] at ends ⊢
          rw [heredocBody_cons, ends, ih]
          cases if lineStart then heredocEnd? label (c :: rest) else none with
          | some length => rfl
          | none => exact (offset_one_add wide _ _).symm
      | true =>
          have all := units_wide wide
          rw [bytewise_cons] at ends ⊢
          cases bytes : units c with
          | nil => exact absurd bytes (units_ne_nil c)
          | cons u more =>
              have later := measure_append (heredocBody (bytewise label) false) passes
                (fun v member => all v (bytes ▸ List.mem_cons_of_mem u member)) (bytewise rest)
              have first := all u (bytes ▸ List.mem_cons_self)
              rw [bytes, List.cons_append] at ends
              rw [List.cons_append, heredocBody_cons, ends, notFeed first, notFeed wide, later, ih]
              cases if lineStart then heredocEnd? label (c :: rest) else none with
              | some length => rfl
              | none =>
                  rw [Option.map_none, Option.getD_none, Option.getD_none,
                    Nat.add_comm 1 (heredocBody _ _ _), offset_succ, bytes, List.length_cons]
                  omega

/-! ### Names, operators and tags -/

private theorem lookup_bytewise (table : List (Text × TokenKind))
    (narrow : ∀ entry ∈ table, bytewise entry.1 = entry.1) (word : Text) :
    table.lookup (bytewise word) = table.lookup word := by
  induction table with
  | nil => rfl
  | cons entry table ih =>
      have same : (bytewise word == entry.1) = (word == entry.1) := by
        apply Bool.eq_iff_iff.mpr
        rw [beq_iff_eq, beq_iff_eq]
        constructor
        · intro equal
          rw [← narrow entry List.mem_cons_self] at equal
          exact bytewise_injective equal
        · intro equal
          rw [equal, narrow entry List.mem_cons_self]
      rw [List.lookup_cons, List.lookup_cons, same,
        ih fun other member => narrow other (List.mem_cons_of_mem entry member)]

private theorem ofWord_bytewise (word : Text) :
    TokenKind.ofWord (bytewise word) = TokenKind.ofWord word := by
  have narrow : ∀ entry ∈ TokenKind.keywords, bytewise entry.1 = entry.1 := by decide
  rw [TokenKind.ofWord, lower_bytewise, lookup_bytewise _ narrow, TokenKind.ofWord]

theorem nameKind_bytewise (afterArrow : Bool) (text : Text) :
    nameKind afterArrow (bytewise text) = nameKind afterArrow text := by
  have word : ((bytewise text).takeWhile isNameChar).length < name (bytewise text) ↔
      (text.takeWhile isNameChar).length < name text := by
    rw [name_bytewise, bytewise_takeWhile uniform_isNameChar,
      ← offset_front (List.takeWhile_prefix isNameChar)]
    exact offset_lt_offset (name_le text)
  have spelling : sameWord (bytewise (text.takeWhile isNameChar)) "namespace" =
      sameWord (text.takeWhile isNameChar) "namespace" := sameWord_bytewise _ "namespace"
  rw [bytewise_takeWhile uniform_isNameChar] at word
  simp only [nameKind, bytewise_takeWhile uniform_isNameChar, word, spelling, ofWord_bytewise]

theorem operator_bytewise {c : Char} (narrow : isWide c = false) (rest : Text) :
    operator (bytewise (c :: rest)) =
      ((operator (c :: rest)).1, offset (operator (c :: rest)).2 (c :: rest)) := by
  have ascii : ∀ entry ∈ operators, bytewise entry.1 = entry.1 := by decide
  have test : operators.find? (fun entry => entry.1.isPrefixOf (bytewise (c :: rest))) =
      operators.find? fun entry => entry.1.isPrefixOf (c :: rest) := by
    apply List.find?_congr
    intro entry member
    have same := isPrefixOf_bytewise entry.1 (c :: rest)
    rw [ascii entry member] at same
    exact same
  simp only [operator, test]
  cases found : operators.find? fun entry => entry.1.isPrefixOf (c :: rest) with
  | none =>
      rw [offset_succ_narrow narrow, offset_zero]
  | some entry =>
      have matched := List.find?_some found
      have isPrefix : entry.1 <+: c :: rest := List.isPrefixOf_iff_prefix.mp matched
      rw [offset_front isPrefix, ascii entry (List.mem_of_find?_eq_some found)]

theorem openTag?_eq_none {text : Text} (other : ¬ ['<', '?'] <+: text) :
    openTag? text = none := by
  unfold openTag?
  split
  · next rest => exact absurd (List.prefix_append ['<', '?'] rest) other
  · rfl

theorem isSpace_wide {c : Char} (wide : isWide c = true) : isSpace c = false :=
  (uniform_isSpace c '\x80' wide rfl).trans (by decide)

theorem sameWord_take (rest : Text) :
    sameWord (rest.take 3) "php" = ("php".toList).isPrefixOf (lower rest) := by
  have three : lower "php" = "php".toList := by decide
  apply Bool.eq_iff_iff.mpr
  rw [sameWord, three, beq_iff_eq, List.isPrefixOf_iff_prefix, List.prefix_iff_eq_take]
  change lower (rest.take 3) = _ ↔ _ = (lower rest).take 3
  rw [lower, lower, List.map_take]
  exact eq_comm

def wordTag : Text → Option (TokenKind × Nat)
  | [] => some (.openTag, 5)
  | '\r' :: '\n' :: _ => some (.openTag, 7)
  | c :: _ => if isSpace c then some (.openTag, 6) else none

def bareTag : Text → Option (TokenKind × Nat)
  | [] => some (.openTag, 2)
  | c :: _ => if isSpace c then some (.openTag, 2) else none

theorem openTag?_eq (rest : Text) :
    openTag? ('<' :: '?' :: rest) =
      if startsWhere (· == '=') rest then some (.openTagWithEcho, 3)
      else if ("php".toList).isPrefixOf (lower rest) then wordTag (rest.drop 3)
      else bareTag rest := by
  rw [← sameWord_take]
  rfl

theorem wordTag_of_ne {c : Char} (other : c ≠ '\r') (rest : Text) :
    wordTag (c :: rest) = if isSpace c then some (.openTag, 6) else none := by
  unfold wordTag
  split
  · next same =>
      cases same
  · next same =>
      cases same
      exact absurd rfl other
  · next same =>
      cases same
      rfl

theorem wordTag_return (rest : Text) :
    wordTag ('\r' :: rest) =
      if startsWhere (· == '\n') rest then some (.openTag, 7) else some (.openTag, 6) := by
  cases rest with
  | nil => rfl
  | cons c tail =>
      by_cases feed : c = '\n'
      · rw [feed]
        rfl
      · have no : startsWhere (· == '\n') (c :: tail) = false := by simpa [startsWhere] using feed
        rw [no]
        unfold wordTag
        split
        · next same => cases same
        · next same =>
            cases same
            exact absurd rfl feed
        · next same =>
            cases same
            rfl

private theorem wordTag_bytewise (text : Text) : wordTag (bytewise text) = wordTag text := by
  cases text with
  | nil => rfl
  | cons c rest =>
      cases wide : isWide c with
      | true =>
          obtain ⟨u, more, bytes, first⟩ := bytewise_cons_wide wide rest
          rw [bytes, wordTag_of_ne (ne_of_class first '\r' rfl),
            wordTag_of_ne (ne_of_class wide '\r' rfl), isSpace_wide first, isSpace_wide wide]
      | false =>
          rw [bytewise_cons_narrow wide]
          by_cases carriage : c = '\r'
          · rw [carriage, wordTag_return, wordTag_return,
              startsWhere_bytewise (uniform_beq (d := '\n') rfl)]
          · rw [wordTag_of_ne carriage, wordTag_of_ne carriage]

private theorem bareTag_bytewise (text : Text) : bareTag (bytewise text) = bareTag text := by
  cases text with
  | nil => rfl
  | cons c rest =>
      cases wide : isWide c with
      | true =>
          obtain ⟨u, more, bytes, first⟩ := bytewise_cons_wide wide rest
          rw [bytes, bareTag, bareTag, isSpace_wide first, isSpace_wide wide]
      | false =>
          rw [bytewise_cons_narrow wide]
          rfl

private theorem offset_wordTag {text : Text} {found : TokenKind × Nat}
    (tag : wordTag text = some found) :
    ∃ more, found.2 = 5 + more ∧ offset more text = more := by
  unfold wordTag at tag
  split at tag
  · cases tag
    exact ⟨0, rfl, rfl⟩
  · cases tag
    exact ⟨2, rfl, rfl⟩
  · split at tag
    · next c rest _ space =>
        cases tag
        exact ⟨1, rfl, offset_one (narrow_of_class isSpace_wide space) rest⟩
    · cases tag

private theorem offset_word {rest : Text} (word : ("php".toList).isPrefixOf (lower rest) = true) :
    offset 3 rest = 3 := by
  rw [← offset_lower]
  exact offset_front (List.isPrefixOf_iff_prefix.mp word)

theorem offset_openTag? {text : Text} {found : TokenKind × Nat} (tag : openTag? text = some found) :
    offset found.2 text = found.2 := by
  by_cases opens : ['<', '?'] <+: text
  · obtain ⟨rest, rfl⟩ := opens
    have front (more : Nat) : offset (2 + more) (['<', '?'] ++ rest) = 2 + offset more rest := by
      rw [offset_add]
      rfl
    change openTag? ('<' :: '?' :: rest) = _ at tag
    rw [openTag?_eq] at tag
    split at tag
    · next equals =>
        obtain ⟨tail, rfl⟩ := startsWhere_beq equals
        cases tag
        exact front 1
    · split at tag
      · next word =>
          have three := offset_word word
          obtain ⟨more, length, same⟩ := offset_wordTag tag
          rw [length, show 5 + more = 2 + (3 + more) by omega, front, offset_add, three, same]
      · have two : found.2 = 2 := by
          unfold bareTag at tag
          split at tag
          · cases tag
            rfl
          · split at tag <;> cases tag
            rfl
        rw [two]
        exact front 0
  · rw [openTag?_eq_none opens] at tag
    cases tag

theorem openTag?_bytewise (text : Text) : openTag? (bytewise text) = openTag? text := by
  by_cases opens : ['<', '?'] <+: text
  · obtain ⟨rest, rfl⟩ := opens
    rw [bytewise_append]
    change openTag? ('<' :: '?' :: bytewise rest) = openTag? ('<' :: '?' :: rest)
    have word : ("php".toList).isPrefixOf (lower (bytewise rest)) =
        ("php".toList).isPrefixOf (lower rest) := by
      rw [lower_bytewise]
      exact isPrefixOf_bytewise "php".toList (lower rest)
    rw [openTag?_eq, openTag?_eq, startsWhere_bytewise (uniform_beq (d := '=') rfl), word]
    split
    · rfl
    · split
      · next isWord =>
          have dropped := bytewise_drop 3 rest
          rw [offset_word isWord] at dropped
          rw [dropped, wordTag_bytewise]
      · exact bareTag_bytewise rest
  · have other : ¬ ['<', '?'] <+: bytewise text := by
      have narrow : bytewise ['<', '?'] = ['<', '?'] := by decide
      rw [← narrow, bytewise_prefix_iff]
      exact opens
    rw [openTag?_eq_none opens, openTag?_eq_none other]

theorem inlineHtml_bytewise (text : Text) :
    inlineHtml (bytewise text) = offset (inlineHtml text) text := by
  refine measure_bytewise inlineHtml rfl ?_ ?_ text
  · intro u rest wide
    have other : ¬ ['<', '?'] <+: u :: rest := by
      rintro ⟨tail, same⟩
      cases same
      cases wide
    rw [inlineHtml, openTag?_eq_none other]
    rfl
  · intro c rest narrow next
    have same := openTag?_bytewise (c :: rest)
    rw [bytewise_cons_narrow narrow] at same
    rw [inlineHtml, inlineHtml, same, next]
    split
    · rfl
    · exact (offset_one_add narrow _ _).symm

end Lexeme
end PhpWeave
