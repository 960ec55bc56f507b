import PhpWeave.Token.Lexeme

/-!
Leaps: how far the long tokens go, found by jumps. Strings, comments, heredocs and the text outside
PHP code can be long, and most of their characters mean nothing. A leap searches the next character
that may mean something, decides there whether the token ends, and goes on behind it. Places count
from the front of the text that holds the token; a token whose end is missing goes on to the end of
that text. A jump leads over a character at least, so a jump more than there are characters is
always enough, and a leap has an end.
-/

namespace PhpWeave

/-- The first place of a text from which on it has a property. -/
def Text.seek? (p : Text → Bool) : Text → Option Nat
  | [] => none
  | c :: rest => if p (c :: rest) then some 0 else (seek? p rest).map (· + 1)

theorem Text.seek?_cons (p : Text → Bool) (c : Char) (rest : Text) :
    seek? p (c :: rest) = if p (c :: rest) then some 0 else (seek? p rest).map (· + 1) := rfl

/-- A search finds a place of the text that has the property, and none before it has. -/
theorem Text.seek?_eq_some {p : Text → Bool} {text : Text} {place : Nat}
    (found : seek? p text = some place) :
    place < text.length ∧ p (text.drop place) = true ∧
      ∀ earlier < place, p (text.drop earlier) = false := by
  induction text generalizing place with
  | nil => cases found
  | cons c rest ih =>
      rw [seek?_cons] at found
      split at found
      · next here =>
          cases found
          exact ⟨Nat.succ_pos _, here, fun earlier before => absurd before (Nat.not_lt_zero _)⟩
      · next notHere =>
          obtain ⟨later, behind, rfl⟩ := Option.map_eq_some_iff.mp found
          obtain ⟨inside, holds, first⟩ := ih behind
          refine ⟨Nat.succ_lt_succ inside, holds, fun earlier before => ?_⟩
          cases earlier with
          | zero => exact eq_false_of_ne_true notHere
          | succ earlier => exact first earlier (Nat.lt_of_succ_lt_succ before)

theorem Text.seek?_drop_lt {p : Text → Bool} {text : Text} {start skipped : Nat}
    (found : seek? p (text.drop start) = some skipped) : start + skipped < text.length := by
  have short := (seek?_eq_some found).1
  rw [List.length_drop] at short
  omega

namespace Leap

open Lexeme

/-! ### Text outside PHP code and comments -/

section
variable (may ends : Text → Bool) (text : Text)

/-- Goes on to the next place where the text ends; none when that takes more than `fuel` jumps. A
jump leads to the next place where the text may end, and behind it when it does not. -/
def within? : Nat → Nat → Option Nat
  | 0, _ => none
  | fuel + 1, start =>
    match Text.seek? may (text.drop start) with
    | none => some text.length
    | some skipped =>
      let place := start + skipped
      if ends (text.drop place) then some place else within? fuel (place + 1)

theorem within?_isSome (fuel start : Nat) (jumps : 0 < fuel)
    (enough : text.length < start + fuel) : (within? may ends text fuel start).isSome = true := by
  induction fuel generalizing start with
  | zero => exact absurd jumps (Nat.lt_irrefl _)
  | succ fuel ih =>
      rw [within?]
      split
      · rfl
      · next skipped found =>
          have inside := Text.seek?_drop_lt found
          dsimp only
          split
          · rfl
          · exact ih (start + skipped + 1) (by omega) (by omega)

def within (start : Nat) : Nat :=
  (within? may ends text (text.length + 1) start).get
    (within?_isSome may ends text _ start (Nat.succ_pos _) (by omega))

end

def html (text : Text) (start : Nat) : Nat :=
  within (['<', '?'].isPrefixOf ·) (fun text => (openTag? text).isSome) text (start + 1)

def mayEndLine (c : Char) : Bool := c == '\n' || c == '\r' || c == '?'

def endsLine : Text → Bool
  | [] => false
  | c :: rest => c == '\n' || c == '\r' || (c == '?' && startsWhere (· == '>') rest)

def lineComment (text : Text) (start : Nat) : Nat :=
  within (startsWhere mayEndLine) endsLine text (start + 1)

def blockComment (text : Text) (start : Nat) : Nat :=
  match Text.seek? (['*', '/'].isPrefixOf ·) (text.drop (start + 2)) with
  | some skipped => start + 2 + skipped + 2
  | none => text.length

/-! ### Strings -/

/-- The characters of a string that mean something: its mark, a backslash, and the brace that may
open an interpolation, which single quotes do not have. -/
def stopsString (mark c : Char) : Bool :=
  c == mark || c == '\\' || (c == '\x7b' && mark != '\'')

mutual

/-- Goes on behind the mark that ends a string; none when that takes more than `fuel` jumps. Whether
a dollar sign opens an interpolation with the brace behind it is seen from the brace, and only if
the jump led over the dollar sign. -/
def quotedWithin? (text : Text) : Nat → Char → Nat → Option Nat
  | 0, _, _ => none
  | fuel + 1, mark, start =>
    match Text.seek? (startsWhere (stopsString mark)) (text.drop start) with
    | none => some text.length
    | some skipped =>
      let place := start + skipped
      if text[place]? = some '\\' then quotedWithin? text fuel mark (place + 2)
      else if text[place]? = some '\x7b' then
        if text[place + 1]? = some '$' ∨ start < place ∧ text[place - 1]? = some '$' then
          (interpolationWithin? text fuel 1 (place + 1)).bind fun behind =>
            quotedWithin? text fuel mark behind
        else quotedWithin? text fuel mark (place + 1)
      else some (place + 1)

/-- Goes on behind the brace that ends the outermost of some open braces. -/
def interpolationWithin? (text : Text) : Nat → Nat → Nat → Option Nat
  | 0, _, _ => none
  | fuel + 1, depth, start =>
    match text[start]? with
    | none => some text.length
    | some c =>
      if isQuote c then
        (quotedWithin? text fuel c (start + 1)).bind fun behind =>
          interpolationWithin? text fuel depth behind
      else if c = '\x7b' then interpolationWithin? text fuel (depth + 1) (start + 1)
      else if c = '\x7d' then
        if depth ≤ 1 then some (start + 1)
        else interpolationWithin? text fuel (depth - 1) (start + 1)
      else interpolationWithin? text fuel depth (start + 1)

end

/-- A walk through a text comes to an end, and not before its start unless the text ends there. -/
def Arrives (text : Text) (start : Nat) (stop : Option Nat) : Prop :=
  ∃ place, stop = some place ∧ min start text.length ≤ place

theorem Arrives.bind {text : Text} {start : Nat} {first : Option Nat}
    {second : Nat → Option Nat} (arrives : Arrives text start first)
    (goesOn : ∀ place, min start text.length ≤ place → Arrives text place (second place)) :
    Arrives text start (first.bind second) := by
  obtain ⟨middle, rfl, behind⟩ := arrives
  obtain ⟨place, stop, further⟩ := goesOn middle behind
  exact ⟨place, stop, by omega⟩

theorem Arrives.mono {text : Text} {start later : Nat} {stop : Option Nat}
    (arrives : Arrives text later stop) (order : start ≤ later) : Arrives text start stop := by
  obtain ⟨place, same, behind⟩ := arrives
  exact ⟨place, same, by omega⟩

/-- A jump more than characters are left is enough for strings and for interpolations. -/
theorem strings_arrive (text : Text) (fuel : Nat) :
    (∀ mark start, 0 < fuel → text.length < start + fuel →
      Arrives text start (quotedWithin? text fuel mark start)) ∧
    ∀ depth start, 0 < fuel → text.length < start + fuel →
      Arrives text start (interpolationWithin? text fuel depth start) := by
  -- Strings and interpolations use each other with less fuel, so both go by one induction.
  induction fuel with
  | zero =>
      exact ⟨fun _ _ jumps => absurd jumps (Nat.lt_irrefl _),
        fun _ _ jumps => absurd jumps (Nat.lt_irrefl _)⟩
  | succ fuel ih =>
      obtain ⟨strings, interpolations⟩ := ih
      constructor
      · intro mark start _ enough
        rw [quotedWithin?]
        split
        · exact ⟨_, rfl, Nat.min_le_right _ _⟩
        · next skipped found =>
            have inside := Text.seek?_drop_lt found
            have goesOn (later : Nat) (behind : start + skipped < later) :
                Arrives text start (quotedWithin? text fuel mark later) :=
              (strings mark later (by omega) (by omega)).mono (by omega)
            dsimp only
            split
            · exact goesOn _ (by omega)
            split
            · split
              · have enclosed := interpolations 1 (start + skipped + 1) (by omega) (by omega)
                refine (enclosed.bind fun place behind => ?_).mono (by omega)
                exact strings mark place (by omega) (by omega)
              · exact goesOn _ (by omega)
            · exact ⟨_, rfl, by omega⟩
      · intro depth start _ enough
        rw [interpolationWithin?]
        split
        · exact ⟨_, rfl, Nat.min_le_right _ _⟩
        · next c here =>
            have inside : start < text.length := (List.getElem?_eq_some_iff.mp here).1
            have goesOn (depth : Nat) :
                Arrives text start (interpolationWithin? text fuel depth (start + 1)) :=
              (interpolations depth (start + 1) (by omega) (by omega)).mono (Nat.le_succ _)
            split
            · have string := strings c (start + 1) (by omega) (by omega)
              refine (string.bind fun place behind => ?_).mono (Nat.le_succ _)
              exact interpolations depth place (by omega) (by omega)
            split
            · exact goesOn _
            split
            · split
              · exact ⟨_, rfl, by omega⟩
              · exact goesOn _
            · exact goesOn _

theorem quotedWithin?_isSome (mark : Char) (text : Text) (start : Nat) :
    (quotedWithin? text (text.length + 1) mark start).isSome = true := by
  obtain ⟨place, stop, -⟩ :=
    (strings_arrive text (text.length + 1)).1 mark start (Nat.succ_pos _) (by omega)
  exact Option.isSome_of_eq_some stop

def quoted (mark : Char) (text : Text) (start : Nat) : Nat :=
  (quotedWithin? text (text.length + 1) mark (start + 1)).get
    (quotedWithin?_isSome mark text (start + 1))

/-! ### Heredocs -/

/-- Goes on to the end of a heredoc from the start of a line in its body; none when it is more than
`fuel` lines away. -/
def heredocWithin? (label text : Text) : Nat → Nat → Option Nat
  | 0, _ => none
  | fuel + 1, lineStart =>
    match heredocEnd? label (text.drop lineStart) with
    | some length => some (lineStart + length)
    | none =>
      match Text.seek? (startsWhere (· == '\n')) (text.drop lineStart) with
      | none => some text.length
      | some skipped =>
        let next := lineStart + skipped + 1
        if text.length ≤ next then some text.length else heredocWithin? label text fuel next

theorem heredocWithin?_isSome (label text : Text) (fuel lineStart : Nat) (jumps : 0 < fuel)
    (enough : text.length < lineStart + fuel) :
    (heredocWithin? label text fuel lineStart).isSome = true := by
  induction fuel generalizing lineStart with
  | zero => exact absurd jumps (Nat.lt_irrefl _)
  | succ fuel ih =>
      rw [heredocWithin?]
      split
      · rfl
      split
      · rfl
      · next skipped found =>
          have inside := Text.seek?_drop_lt found
          dsimp only
          split
          · rfl
          · exact ih (lineStart + skipped + 1) (by omega) (by omega)

def heredoc (head : Head) (text : Text) (start : Nat) : Nat :=
  let body := start + 3 + head.length
  (heredocWithin? head.label text (text.length + 1) body).get
    (heredocWithin?_isSome head.label text _ body (Nat.succ_pos _) (by omega))

end Leap
end PhpWeave
