import PhpWeave.Proofs.Token.Interpolation
import PhpWeave.Proofs.Token.Truncation

set_option autoImplicit false

/-!
Where the long tokens end: strings, comments, heredocs and the text outside PHP code. For each, a
place in the body closes it or does not, whatever the scan does. The jumps and the scan of single
characters both find the first place that closes the body, and without one they take all of it.
-/

namespace PhpWeave

/-- `EndsBy closes size length`: a body of some size takes this length, by the first place that
closes it or by having none. Here `closes place stop` says that a place closes the body and that the
token then stops at `stop`. -/
inductive EndsBy (closes : Nat → Nat → Prop) (size : Nat) : Nat → Prop where
  | closed {place stop : Nat} (here : closes place stop)
      (first : ∀ earlier < place, ∀ stop, ¬ closes earlier stop) : EndsBy closes size stop
  | missing (nowhere : ∀ place stop, ¬ closes place stop) : EndsBy closes size size

theorem EndsBy.congr {closes others : Nat → Nat → Prop} {size length : Nat}
    (same : ∀ place stop, others place stop ↔ closes place stop)
    (ends : EndsBy closes size length) : EndsBy others size length := by
  have equal : others = closes := funext fun place => funext fun stop => propext (same place stop)
  rw [equal]
  exact ends

theorem EndsBy.shift {closes shifted : Nat → Nat → Prop} {size length : Nat}
    (notHere : ∀ stop, ¬ shifted 0 stop)
    (behind : ∀ place stop,
      shifted (place + 1) stop ↔ ∃ before, stop = 1 + before ∧ closes place before)
    (ends : EndsBy closes size length) : EndsBy shifted (size + 1) (1 + length) := by
  cases ends with
  | closed here first =>
      refine .closed ((behind _ _).mpr ⟨_, rfl, here⟩) fun earlier before stop => ?_
      cases earlier with
      | zero => exact notHere stop
      | succ earlier =>
          intro closed
          obtain ⟨_, -, closed⟩ := (behind _ _).mp closed
          exact first earlier (Nat.lt_of_succ_lt_succ before) _ closed
  | missing nowhere =>
      rw [Nat.add_comm 1]
      refine .missing fun place stop closed => ?_
      cases place with
      | zero => exact notHere stop closed
      | succ place =>
          obtain ⟨_, -, closed⟩ := (behind _ _).mp closed
          exact nowhere place _ closed

namespace Lexeme

open Scan

/-- The tokens that may be long. A heredoc comes with its head. -/
inductive Form where
  | string (mark : Char) (isOne : isQuote mark = true)
  | html
  | lineComment
  | blockComment
  | heredoc (head : Head) (named : startsWhere isNameStart head.label = true)

namespace Form

/-- Where tokens of a form occur. -/
def mode : Form → Mode
  | html => .html
  | _ => .php

/-- Tokens of this form begin at the front of a text. -/
def Begins : Form → Text → Prop
  | string mark _, text => [mark] <+: text
  | html, text => text ≠ [] ∧ openTag? text = none
  | lineComment, text => ['/', '/'] <+: text ∨ ['#'] <+: text ∧ ¬ ['#', '['] <+: text
  | blockComment, text => ['/', '*'] <+: text
  | heredoc head _, text => ∃ rest, text = '<' :: '<' :: '<' :: rest ∧ heredocHead? rest = some head

/-- The characters before the body. -/
def opening : Form → Nat
  | string _ _ | html | lineComment => 1
  | blockComment => 2
  | heredoc head _ => 3 + head.length

/-- The end of a token that begins at a place, found by jumps. -/
def leap : Form → Text → Nat → Nat
  | string mark _ => Leap.quoted mark
  | html => Leap.html
  | lineComment => Leap.lineComment
  | blockComment => Leap.blockComment
  | heredoc head _ => Leap.heredoc head

/-- The length that a body takes, one character at a time. -/
def measure : Form → Text → Nat
  | string mark _ => quoted mark
  | html => inlineHtml
  | lineComment => Lexeme.lineComment
  | blockComment => Lexeme.blockComment
  | heredoc head _ => heredocBody head.label true

/-- The label of a heredoc at the front of a text, with no name going on, takes so many
characters with the blanks before it. -/
def LabelEnds (label text : Text) (length : Nat) : Prop :=
  ∃ indent after : Text, text = indent ++ (label ++ after) ∧ (∀ c ∈ indent, isIndent c = true) ∧
    startsWhere isNameChar after = false ∧ length = indent.length + label.length

/-- A place closes a body, and the token stops at or behind it. -/
def Closes : Form → Text → Nat → Nat → Prop
  | string mark _, body, place, stop =>
    Inside (.quote mark) (body.take place) ∧ body[place]? = some mark ∧ stop = place + 1
  | html, body, place, stop =>
    (openTag? (body.drop place)).isSome = true ∧ stop = place
  | lineComment, body, place, stop =>
    (['\n'] <+: body.drop place ∨ ['\r'] <+: body.drop place ∨ ['?', '>'] <+: body.drop place) ∧
      stop = place
  | blockComment, body, place, stop => ['*', '/'] <+: body.drop place ∧ stop = place + 2
  | heredoc head _, body, place, stop =>
    (place = 0 ∨ body[place - 1]? = some '\n') ∧
      ∃ length, LabelEnds head.label (body.drop place) length ∧ stop = place + length

end Form

/-! ### The first place that closes a body -/

theorem seek_ends {p : Text → Bool} (filled : p [] = false) (extra : Nat) (text : Text) :
    EndsBy (fun place stop => p (text.drop place) = true ∧ stop = place + extra) text.length
      (((Text.seek? p text).map (· + extra)).getD text.length) := by
  cases search : Text.seek? p text with
  | some place =>
      obtain ⟨-, holds, first⟩ := Text.seek?_eq_some search
      refine .closed ⟨holds, rfl⟩ fun earlier before stop closed => ?_
      rw [first earlier before] at closed
      exact Bool.false_ne_true closed.1
  | none =>
      refine .missing fun place stop closed => ?_
      by_cases inside : place < text.length
      · rw [Text.seek?_eq_none search place inside] at closed
        exact Bool.false_ne_true closed.1
      · rw [List.drop_eq_nil_iff.mpr (Nat.le_of_not_lt inside), filled] at closed
        exact Bool.false_ne_true closed.1

theorem before_ends {p : Text → Bool} (filled : p [] = false) (text : Text) :
    EndsBy (fun place stop => p (text.drop place) = true ∧ stop = place) text.length
      (Text.before p text) := by
  have ends := seek_ends filled 0 text
  simp only [Nat.add_zero, Option.map_id_fun', id_eq] at ends
  exact ends

theorem html_ends (text : Text) : EndsBy (Form.html.Closes text) text.length (inlineHtml text) := by
  rw [Leap.inlineHtml_eq_before]
  exact before_ends (p := fun text => (openTag? text).isSome) rfl text

theorem endsLine_iff (text : Text) :
    (['\n'] <+: text ∨ ['\r'] <+: text ∨ ['?', '>'] <+: text) ↔ Leap.endsLine text = true := by
  cases text with
  | nil => simp [Leap.endsLine]
  | cons c rest => cases rest <;> grind [Leap.endsLine, startsWhere]

theorem lineComment_ends (text : Text) :
    EndsBy (Form.lineComment.Closes text) text.length (lineComment text) := by
  rw [Leap.lineComment_eq_before]
  exact (before_ends rfl text).congr fun place stop => and_congr_left fun _ => endsLine_iff _

theorem blockComment_ends (text : Text) :
    EndsBy (Form.blockComment.Closes text) text.length (blockComment text) := by
  rw [Leap.blockComment_eq_seek]
  exact (seek_ends (p := (['*', '/'].isPrefixOf ·)) rfl 2 text).congr fun place stop =>
    and_congr_left fun _ => List.isPrefixOf_iff_prefix.symm

/-! ### Heredocs -/

theorem labelEnds_iff {label : Text} (named : startsWhere isNameStart label = true) {text : Text}
    {length : Nat} : Form.LabelEnds label text length ↔ heredocEnd? label text = some length := by
  constructor
  · rintro ⟨indent, after, rfl, blank, stops, rfl⟩
    have filled : label ≠ [] := by
      rintro rfl
      cases named
    have notBlank : startsWhere isIndent (label ++ after) = false := by
      rw [startsWhere_append after filled]
      exact startsWhere_mono nameStart_notIndent named
    have indented : run isIndent (indent ++ (label ++ after)) = indent.length := by
      rw [run, takeWhile_append_stop blank notBlank]
    rw [← indented]
    refine heredocEnd?_of_parts ?_ ?_
    · rw [indented, List.drop_left]
      exact List.prefix_append label after
    · rw [indented, ← List.drop_drop, List.drop_left, List.drop_left]
      exact stops
  · intro found
    obtain ⟨rfl, ⟨after, spelled⟩, stops⟩ := heredocEnd?_eq_some found
    refine ⟨text.takeWhile isIndent, after, ?_, List.all_eq_true.mp List.all_takeWhile, ?_, rfl⟩
    · rw [spelled]
      exact split_at_run isIndent text
    · rw [← List.drop_drop, ← spelled, List.drop_left] at stops
      exact stops

def LineCloses (label : Text) (lineStart : Bool) (text : Text) (place stop : Nat) : Prop :=
  (place = 0 ∧ lineStart = true ∨ 0 < place ∧ text[place - 1]? = some '\n') ∧
    ∃ length, Form.LabelEnds label (text.drop place) length ∧ stop = place + length

theorem heredocBody_ends {label : Text} (named : startsWhere isNameStart label = true)
    (lineStart : Bool) (text : Text) :
    EndsBy (LineCloses label lineStart text) text.length (heredocBody label lineStart text) := by
  induction text generalizing lineStart with
  | nil =>
      refine .missing fun place stop closed => ?_
      obtain ⟨-, length, ends, -⟩ := closed
      rw [List.drop_nil, labelEnds_iff named] at ends
      cases label with
      | nil => cases named
      | cons d label => cases ends
  | cons c rest ih =>
      rw [heredocBody_cons]
      cases found : (if lineStart then heredocEnd? label (c :: rest) else none) with
      | some length =>
          have here : lineStart = true ∧ heredocEnd? label (c :: rest) = some length := by
            simpa using found
          have closes : LineCloses label lineStart (c :: rest) 0 length :=
            ⟨.inl ⟨rfl, here.1⟩, length, (labelEnds_iff named).mpr here.2, (Nat.zero_add _).symm⟩
          exact .closed closes fun earlier before => absurd before (Nat.not_lt_zero _)
      | none =>
          refine (ih (c == '\n')).shift ?_ fun place stop => ?_
          · rintro stop ⟨begins, length, ends, -⟩
            have starts : lineStart = true :=
              begins.elim And.right fun later => absurd later.1 (Nat.lt_irrefl 0)
            rw [if_pos starts] at found
            rw [List.drop_zero, labelEnds_iff named, found] at ends
            cases ends
          · have begins : (place + 1 = 0 ∧ lineStart = true ∨
                  0 < place + 1 ∧ (c :: rest)[place + 1 - 1]? = some '\n') ↔
                (place = 0 ∧ (c == '\n') = true ∨ 0 < place ∧ rest[place - 1]? = some '\n') := by
              cases place with
              | zero => simp
              | succ place => simp
            rw [LineCloses, begins]
            constructor
            · rintro ⟨begins, length, ends, rfl⟩
              exact ⟨place + length, by omega, begins, length, ends, rfl⟩
            · rintro ⟨_, rfl, begins, length, ends, rfl⟩
              exact ⟨begins, length, ends, by omega⟩

theorem heredoc_ends (head : Head) (named : startsWhere isNameStart head.label = true)
    (text : Text) :
    EndsBy ((Form.heredoc head named).Closes text) text.length
      (heredocBody head.label true text) := by
  refine (heredocBody_ends named true text).congr fun place stop => and_congr_left fun _ => ?_
  rcases Nat.eq_zero_or_pos place with rfl | later
  · simp
  · simp [later, Nat.ne_of_gt later]

/-! ### Strings -/

theorem quoted_of_closes {mark : Char} {isOne : isQuote mark = true} {text : Text}
    {place stop : Nat} (closes : (Form.string mark isOne).Closes text place stop) :
    quoted mark text = stop ∧ stop = place + 1 ∧ Leaves (.quote mark) text := by
  obtain ⟨inside, here, rfl⟩ := closes
  obtain ⟨within, -⟩ := List.getElem?_eq_some_iff.mp here
  have spelled : text = text.take place ++ mark :: text.drop (place + 1) := by
    rw [← Leap.drop_of_getElem? here, List.take_append_drop]
  have taken := inside.enclosed_eq isOne [] (text.drop (place + 1))
  rw [Enclosure.closer, ← spelled, enclosed, List.length_take_of_le (Nat.le_of_lt within)] at taken
  exact ⟨taken, rfl, _, _, spelled, inside⟩

theorem quoted_ends {mark : Char} (isOne : isQuote mark = true) (text : Text) :
    EndsBy ((Form.string mark isOne).Closes text) text.length (quoted mark text) := by
  by_cases leaves : Leaves (.quote mark) text
  · obtain ⟨body, after, spelled, inside⟩ := leaves
    have closes : (Form.string mark isOne).Closes text body.length (body.length + 1) := by
      rw [spelled, Enclosure.closer]
      refine ⟨?_, ?_, rfl⟩
      · rw [List.take_left]
        exact inside
      · rw [List.getElem?_append_right (Nat.le_refl _), Nat.sub_self, List.getElem?_cons_zero]
    rw [(quoted_of_closes closes).1]
    refine .closed closes fun earlier before stop early => ?_
    obtain ⟨first, place, -⟩ := quoted_of_closes early
    have second := (quoted_of_closes closes).1
    omega
  · rw [quoted, takesAll text.length (.quote mark) isOne text (Nat.le_refl _) leaves []]
    exact .missing fun place stop closes => leaves (quoted_of_closes closes).2.2

/-! ### All forms -/

namespace Form

theorem leap_eq (form : Form) {text : Text} {start : Nat}
    (fits : start + form.opening ≤ text.length) :
    form.leap text start =
      start + form.opening + form.measure (text.drop (start + form.opening)) := by
  cases form with
  | string mark isOne => exact Leap.quoted_eq isOne fits
  | html => exact Leap.html_eq fits
  | lineComment => exact Leap.lineComment_eq fits
  | blockComment => exact Leap.blockComment_eq fits
  | heredoc head named =>
      rw [opening, ← Nat.add_assoc] at fits ⊢
      exact Leap.heredoc_eq head fits

theorem measure_ends (form : Form) (body : Text) :
    EndsBy (form.Closes body) body.length (form.measure body) := by
  cases form with
  | string mark isOne => exact quoted_ends isOne body
  | html => exact html_ends body
  | lineComment => exact lineComment_ends body
  | blockComment => exact blockComment_ends body
  | heredoc head named => exact heredoc_ends head named body

theorem lexeme_eq (form : Form) {text : Text} (begins : form.Begins text) {state : State}
    (inMode : state.mode = form.mode) :
    (state.lexeme text).2 = form.opening + form.measure (text.drop form.opening) := by
  have php {kind : TokenKind} {length : Nat} (isPhp : form.mode = .php)
      (rule : Rule state.afterArrow text kind length) : (state.lexeme text).2 = length := by
    rw [State.lexeme, inMode, isPhp]
    exact congrArg Prod.snd rule.phpLexeme_eq
  cases form with
  | string mark isOne =>
      obtain ⟨rest, rfl⟩ := begins
      exact php rfl (.string mark rest isOne)
  | html =>
      obtain ⟨filled, noTag⟩ := begins
      obtain ⟨c, rest, rfl⟩ := List.exists_cons_of_ne_nil filled
      rw [State.lexeme, inMode]
      change (htmlLexeme (c :: rest)).2 = _
      rw [htmlLexeme_cons, noTag]
      rfl
  | lineComment =>
      rcases begins with ⟨rest, rfl⟩ | ⟨⟨rest, rfl⟩, noAttribute⟩
      · exact php rfl (.slashes rest)
      · refine php rfl (.hash rest (eq_false_of_ne_true fun bracket => noAttribute ?_))
        obtain ⟨tail, rfl⟩ := startsWhere_beq bracket
        exact List.prefix_append ['#', '['] tail
  | blockComment =>
      obtain ⟨rest, rfl⟩ := begins
      exact php rfl (.block rest)
  | heredoc head named =>
      obtain ⟨rest, rfl, found⟩ := begins
      rw [php rfl (.heredoc rest head found), opening, measure, Nat.add_comm 3,
        List.drop_succ_cons, List.drop_succ_cons, List.drop_succ_cons]

/-- The jumps through a token agree with the scan of single characters, and both end at the first
place that closes the body or, without one, with the text. Where such a token begins, this is how
far the next token of a scan goes. -/
theorem leap_ends (form : Form) (text : Text) (start : Nat)
    (fits : start + form.opening ≤ text.length) :
    let body := text.drop (start + form.opening)
    form.leap text start = start + form.opening + form.measure body ∧
      EndsBy (form.Closes body) body.length (form.measure body) ∧
      (form.Begins (text.drop start) → ∀ state : State, state.mode = form.mode →
        start + (state.lexeme (text.drop start)).2 = form.leap text start) := by
  refine ⟨form.leap_eq fits, form.measure_ends _, fun begins state inMode => ?_⟩
  rw [form.lexeme_eq begins inMode, form.leap_eq fits, List.drop_drop, Nat.add_assoc]

/-- Code with a string that has an escaped mark, an interpolation with a mark and a brace of its
own, and an escaped dollar sign before a brace. -/
def sample : Text := "$a . \"x\\\"\x7b$m[\"\x7d\"]\x7d\\$\x7by\" . 1".toList

theorem leap_ends_sample :
    5 + (Form.string '"' rfl).opening ≤ sample.length ∧
      (Form.string '"' rfl).Begins (sample.drop 5) ∧
      EndsBy ((Form.string '"' rfl).Closes (sample.drop 6)) (sample.drop 6).length 17 ∧
      5 + ((State.start .php).lexeme (sample.drop 5)).2 = 23 := by
  have fits : 5 + (Form.string '"' rfl).opening ≤ sample.length := by decide
  have begins : (Form.string '"' rfl).Begins (sample.drop 5) := ⟨sample.drop 6, rfl⟩
  have ends := leap_ends (.string '"' rfl) sample 5 fits
  have taken : (Form.string '"' rfl).measure (sample.drop 6) = 17 := by decide
  have leapt : (Form.string '"' rfl).leap sample 5 = 23 := by decide
  exact ⟨fits, begins, taken ▸ ends.2.1, (ends.2.2 begins (State.start .php) rfl).trans leapt⟩

end Form
end Lexeme
end PhpWeave
