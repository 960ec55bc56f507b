import PhpWeave.Proofs.Token.Replacement
import PhpWeave.Proofs.Weave.Fragment
import PhpWeave.Weave.Words

set_option autoImplicit false

/-!
Edits of code as rewordings of its tokens. The hook for exits and pinned paths choose what to put in
the place of a word by the kinds of the tokens around it, and a scan of what they write finds just
the tokens they meant. So both can be followed on lists of tokens, where they are seen to commute.
-/

namespace PhpWeave

namespace Fragment

open Scan Lexeme

/-- What stands in the place of a token, by the kinds of the significant token before it, of the
token and of the significant token after it. -/
abbrev Choice := Option TokenKind → TokenKind → Option TokenKind → Option (List Shape)

def lastKind (last : Option TokenKind) (kind : TokenKind) : Option TokenKind :=
  if kind.isTrivia then last else some kind

def firstKind (shapes : List Shape) : Option TokenKind :=
  (shapes.find? fun shape => !shape.1.isTrivia).map Prod.fst

def reworded (choice : Choice) : Option TokenKind → List Shape → List Shape
  | _, [] => []
  | last, shape :: rest =>
    (choice last shape.1 (firstKind rest)).getD [shape] ++
      reworded choice (lastKind last shape.1) rest

structure Follows (choose : Tokens → Nat → Option Text) (choice : Choice) : Prop where
  chosen : ∀ (tokens : Tokens) (index : Nat) (token : Token), tokens[index]? = some token →
    choose tokens index =
      (choice (tokens.prevKind index) token.kind (tokens.nextKind index)).map spell
  stands : ∀ last kind next added, choice last kind next = some added →
    isReplaceable kind = true ∧ StandsForWord added

def edited (choose : Tokens → Nat → Option Text) (code : Text) : Text :=
  (replace choose code).getD code

def shapes (code : Text) : List Shape := (scan .php code).map shape

theorem reworded_append {choice : Choice} {front : List Shape}
    (keeps : ∀ shape ∈ front, ∀ last next, choice last shape.1 next = none)
    (last : Option TokenKind) (rest : List Shape) :
    reworded choice last (front ++ rest) =
      front ++
        reworded choice (front.foldl (fun last shape => lastKind last shape.1) last) rest := by
  induction front generalizing last with
  | nil => rfl
  | cons shape front ih =>
      obtain ⟨here, others⟩ := List.forall_mem_cons.mp keeps
      rw [List.cons_append, reworded, here, ih others]
      rfl

/-! ### Edits of token lists -/

theorem firstWithin_eq (p : Token → Bool) {tokens : Tokens} (before : List Token)
    {after : List Token} (split : tokens.toList = before ++ after) :
    (tokens.firstWithin p after.length before.length).bind tokens.kindAt =
      (after.find? p).map Token.kind := by
  induction after generalizing before with
  | nil => rfl
  | cons token after ih =>
      have here : tokens[before.length]? = some token := by
        rw [← Array.getElem?_toList, split]
        simp
      have behind := ih (before ++ [token]) (by rw [split, List.append_assoc]; rfl)
      rw [List.length_append, List.length_singleton] at behind
      rw [List.length_cons, Tokens.firstWithin, here, List.find?_cons]
      cases found : p token with
      | true => simp [found, Tokens.kindAt, here]
      | false => simpa [found] using behind

theorem nextKind_eq {tokens : Tokens} {before after : List Token} {token : Token}
    (split : tokens.toList = before ++ token :: after) :
    tokens.nextKind before.length = firstKind (after.map shape) := by
  have size : tokens.size = before.length + 1 + after.length := by
    rw [← Array.length_toList, split]
    simp
    omega
  have found := firstWithin_eq Tokens.isSignificant (before ++ [token])
    (show tokens.toList = _ ++ after by rw [split, List.append_assoc]; rfl)
  rw [List.length_append, List.length_singleton] at found
  rw [Tokens.nextKind, Tokens.nextSignificant, Tokens.firstFrom, size, Nat.add_sub_cancel_left,
    found, firstKind, List.find?_map, Option.map_map]
  rfl

theorem flatMap_put {choose : Tokens → Nat → Option Text} {choice : Choice}
    (follows : Follows choose choice) {tokens : Tokens} (before : List Token) {after : List Token}
    (split : tokens.toList = before ++ after) :
    (after.zip ((List.range' before.length after.length).map (choose tokens))).flatMap put =
      spell (reworded choice (tokens.prevKind before.length) (after.map shape)) := by
  induction after generalizing before with
  | nil => rfl
  | cons token after ih =>
      have size : tokens.size = before.length + 1 + after.length := by
        rw [← Array.length_toList, split]
        simp
        omega
      have inside : before.length < tokens.size := by omega
      have here : tokens[before.length]? = some token := by
        rw [← Array.getElem?_toList, split]
        simp
      have same : tokens[before.length] = token := by
        rw [Array.getElem?_eq_getElem inside] at here
        exact Option.some.inj here
      have behind := ih (before ++ [token]) (by rw [split, List.append_assoc]; rfl)
      rw [List.length_append, List.length_singleton, prevKind_succ inside, same] at behind
      rw [List.length_cons, List.range'_succ, List.map_cons, List.zip_cons_cons, List.flatMap_cons,
        behind, List.map_cons, reworded, spell_append, follows.chosen tokens _ token here,
        nextKind_eq split]
      congr 1
      change Option.getD (Option.map spell _) token.text = _
      change Option.getD (Option.map spell (choice _ token.kind _)) token.text =
        spell ((choice _ token.kind _).getD [shape token])
      cases choice (tokens.prevKind before.length) token.kind (firstKind (after.map shape)) with
      | none => exact (List.append_nil _).symm
      | some added => rfl

private theorem flatMap_put_none {tokens : List Token} {choices : List (Option Text)}
    (none : ∀ choice ∈ choices, choice = none) (length : choices.length = tokens.length) :
    (tokens.zip choices).flatMap put = Token.textOf tokens := by
  induction tokens generalizing choices with
  | nil => rfl
  | cons token tokens ih =>
      cases choices with
      | nil => cases length
      | cons choice choices =>
          obtain ⟨rfl, later⟩ := List.forall_mem_cons.mp none
          rw [List.zip_cons_cons, List.flatMap_cons, ih later (Nat.succ.inj length)]
          rfl

variable {choose : Tokens → Nat → Option Text} {choice : Choice}

theorem edited_put (choose : Tokens → Nat → Option Text) (code : Text) :
    edited choose code = ((tokens code).toList.zip
      ((List.range' 0 (tokens code).toList.length).map (choose (tokens code)))).flatMap put := by
  rw [edited, replace, Array.length_toList, ← List.range_eq_range']
  split
  · rfl
  · next noChoice =>
      rw [flatMap_put_none, textOf_tokens]
      · rfl
      · intro chosen member
        cases chosen with
        | none => rfl
        | some text => exact absurd (List.any_eq_true.mpr ⟨some text, member, rfl⟩) noChoice
      · rw [List.length_map, List.length_range, Array.length_toList]

theorem edited_eq (follows : Follows choose choice) (code : Text) :
    edited choose code = spell (reworded choice none (shapes code)) := by
  rw [edited_put]
  exact flatMap_put follows [] rfl

theorem gives_of_choice (follows : Follows choose choice) {last next : Option TokenKind}
    {token : Token} {added : List Shape} (chosen : choice last token.kind next = some added)
    (keyword : token.kind.isKeyword = true → TokenKind.ofWord token.text = token.kind) :
    Gives false token added ∧ Stands (isBrace token.kind) added := by
  obtain ⟨isOne, stands⟩ := follows.stands _ _ _ _ chosen
  obtain ⟨isKeyword, like⟩ := isKeyword_of_isReplaceable isOne
  exact stands.gives like (by rw [keyword isKeyword, isOne])

theorem replaced_reworded (follows : Follows choose choice) (last : Option TokenKind)
    {tokens : List Token}
    (keyword : ∀ token ∈ tokens, token.kind.isKeyword = true →
      TokenKind.ofWord token.text = token.kind) :
    Replaced false tokens (reworded choice last (tokens.map shape)) := by
  induction tokens generalizing last with
  | nil => exact .nil
  | cons token tokens ih =>
      obtain ⟨here, others⟩ := List.forall_mem_cons.mp keyword
      rw [List.map_cons, reworded]
      cases chosen : choice last (shape token).1 (firstKind (tokens.map shape)) with
      | none => exact .keep token (ih _ others)
      | some added =>
          obtain ⟨gives, stands⟩ := gives_of_choice follows chosen here
          exact .put token gives stands (ih _ others)

theorem shapes_edited (follows : Follows choose choice) (code : Text) :
    shapes (edited choose code) = reworded choice none (shapes code) := by
  have spelled := (tokensFrom_spells (State.start .php) code).1
  have cut : tokensFrom (State.start .php) (Token.textOf (scan .php code)) = scan .php code := by
    rw [scan_eq, spelled]
  rw [edited_eq follows, shapes, scan_eq]
  exact rescan_of_replaced (replaced_reworded follows none fun _ => ofWord_of_mem) cut rfl rfl
    fun never => absurd never Bool.false_ne_true

theorem edited_edited {other : Tokens → Nat → Option Text} {otherChoice : Choice}
    (follows : Follows choose choice) (otherFollows : Follows other otherChoice) (code : Text) :
    edited other (edited choose code) =
      spell (reworded otherChoice none (reworded choice none (shapes code))) := by
  rw [edited_eq otherFollows, shapes_edited follows]

end Fragment

open Scan Lexeme

/-! ### Pinned paths -/

namespace PathPin

theorem enclosed_escaped (lead : Lead) (noEscape : lead ≠ .escape) (noBrace : lead ≠ .brace)
    (path rest : Text) : enclosed [.quote '\''] lead (path.flatMap escaped ++ '\'' :: rest) =
      (path.flatMap escaped).length + 1 := by
  induction path generalizing lead with
  | nil =>
      have closes : enclosureStep (.quote '\'') [] lead '\'' = ([], .plain) := by
        simp [enclosureStep, quoteStep, noEscape]
      rw [List.flatMap_nil, List.nil_append, enclosed, closes]
      simp [enclosed]
  | cons c path ih =>
      rw [List.flatMap_cons, List.append_assoc]
      by_cases marked : c = '\\' ∨ c = '\''
      · have backslash : enclosureStep (.quote '\'') [] lead '\\' = ([.quote '\''], .escape) := by
          simp [enclosureStep, quoteStep, noEscape, noBrace]
        have later := ih .plain Lead.noConfusion Lead.noConfusion
        have pair : escaped c = ['\\', c] := if_pos marked
        rw [pair, List.cons_append, List.singleton_append, enclosed, backslash, enclosed]
        change 1 + (1 + enclosed [.quote '\''] .plain _) = _
        rw [later, List.length_append]
        simp only [List.length_cons, List.length_nil]
        omega
      · obtain ⟨next, noEscape, noBrace, step⟩ : ∃ next : Lead, next ≠ .escape ∧ next ≠ .brace ∧
            enclosureStep (.quote '\'') [] lead c = ([.quote '\''], next) := by
          rw [not_or] at marked
          by_cases dollar : c = '$'
          · exact ⟨.dollar, Lead.noConfusion, Lead.noConfusion, by
              simp [enclosureStep, quoteStep, noEscape, noBrace, dollar]⟩
          · exact ⟨.plain, Lead.noConfusion, Lead.noConfusion, by
              simp [enclosureStep, quoteStep, noEscape, noBrace, marked, dollar]⟩
        have single : escaped c = [c] := if_neg marked
        rw [single, List.singleton_append, enclosed, step, ih next noEscape noBrace,
          List.length_append, List.length_singleton]
        omega

theorem eq_of_escaped_eq (path : Text) {label rest tail : Text}
    (named : ∀ c ∈ label, isNameChar c = true)
    (same : path.flatMap escaped ++ '\'' :: rest = label ++ '\'' :: tail) : rest = tail := by
  induction path generalizing label with
  | nil =>
      cases label with
      | nil => exact (List.cons.inj same).2
      | cons d label =>
          have quote := (List.cons.inj same).1
          exact absurd (named d List.mem_cons_self) (by rw [← quote]; decide)
  | cons c path ih =>
      rw [List.flatMap_cons] at same
      by_cases marked : c = '\\' ∨ c = '\''
      · rw [show escaped c = ['\\', c] from if_pos marked] at same
        cases label with
        | nil => exact absurd (List.cons.inj same).1 (by decide)
        | cons d label =>
            have backslash := (List.cons.inj same).1
            exact absurd (named d List.mem_cons_self) (by rw [← backslash]; decide)
      · rw [show escaped c = [c] from if_neg marked] at same
        cases label with
        | nil => exact absurd (.inr (List.cons.inj same).1) marked
        | cons d label =>
            exact ih (fun e member => named e (List.mem_cons_of_mem d member))
              (List.cons.inj same).2

theorem stands_literal (path : Text) : StandsForWord [(.quotedString, literal path)] where
  mark := rfl
  scanned := by
    intro state rest php _
    have rule : Rule state.afterArrow ('\'' :: (path.flatMap escaped ++ '\'' :: rest)) _ _ :=
      .string '\'' _ rfl
    have lexeme := rule.phpLexeme_eq
    have length : 1 + quoted '\'' (path.flatMap escaped ++ '\'' :: rest) =
        (literal path).length := by
      rw [quoted, enclosed_escaped .plain Lead.noConfusion Lead.noConfusion,
        literal, List.length_append, List.length_cons, List.length_singleton]
      omega
    have whole : spell [(.quotedString, literal path)] ++ rest = literal path ++ rest := by
      simp [spell]
    have flat : '\'' :: (path.flatMap escaped ++ '\'' :: rest) = literal path ++ rest := by
      simp [literal]
    rw [length, flat] at lexeme
    refine ⟨state.after ⟨.quotedString, literal path, state.line⟩, php, rfl, ?_⟩
    rw [whole, tokensFrom_lexeme php (by simp [literal]) lexeme, List.map_cons]
    rfl
  quoted := by
    intro label rest tail named same
    refine eq_of_escaped_eq path named ?_
    simpa [spell, literal] using same

def choice (path : Path) : Fragment.Choice := fun _ kind _ =>
  if kind = .magicDir then some [(.quotedString, literal (path.parent?.getD []))]
  else if kind = .magicFile then some [(.quotedString, literal path)]
  else none

theorem follows (path : Path) : Fragment.Follows (choose path) (choice path) where
  chosen := by
    intro tokens index token here
    have kind : tokens.kindAt index = some token.kind := by rw [Tokens.kindAt, here]; rfl
    simp only [choose, choice, Tokens.isAt, kind, beq_iff_eq, Option.some.injEq]
    split
    · simp [spell]
    · split
      · simp [spell]
      · rfl
  stands := by
    intro last kind next added chosen
    unfold choice at chosen
    split at chosen
    · next isDir =>
        cases chosen
        exact ⟨isDir ▸ rfl, stands_literal _⟩
    · split at chosen
      · next isFile =>
          cases chosen
          exact ⟨isFile ▸ rfl, stands_literal path⟩
      · cases chosen

end PathPin

/-! ### The hook for exits -/

namespace ExitHook

def hookShapes : List Shape :=
  [(.fullyQualifiedName, "\\Kahlan\\Plugin\\Quit".toList), (.doubleColon, [':', ':']),
    (.identifier, "quit".toList)]

def callShapes : List Shape := hookShapes ++ [(.openParen, ['(']), (.closeParen, [')'])]

theorem spell_hook : spell hookShapes = ({} : ExitHook).hook := by decide

theorem spell_call : spell callShapes = spell hookShapes ++ ['(', ')'] := by
  rw [callShapes, spell_append]
  rfl

theorem scan_hook {state : State} (php : state.mode = .php) {rest : Text} (ends : name rest = 0) :
    ∃ next : State, next.mode = .php ∧ next.afterArrow = false ∧
      (tokensFrom state (spell hookShapes ++ rest)).map shape =
        hookShapes ++ (tokensFrom next rest).map shape := by
  have flat : spell hookShapes ++ rest = "\\Kahlan\\Plugin\\Quit".toList ++ ([':', ':'] ++
      ("quit".toList ++ rest)) := by simp [spell, hookShapes]
  have rooted (arrow : Bool) := rooted_lexeme arrow
    (show IsName "Kahlan\\Plugin\\Quit".toList from rfl) rfl
    (show name ([':', ':'] ++ ("quit".toList ++ rest)) = 0 from rfl)
  have colons (arrow : Bool) : phpLexeme arrow ([':', ':'] ++ ("quit".toList ++ rest)) =
      (.doubleColon, 2) := rfl
  let first := state.after ⟨.fullyQualifiedName, "\\Kahlan\\Plugin\\Quit".toList, state.line⟩
  let second := first.after ⟨.doubleColon, [':', ':'], first.line⟩
  have firstMode : first.mode = .php := php
  have secondMode : second.mode = .php := php
  refine ⟨second.after ⟨.identifier, "quit".toList, second.line⟩, php, rfl, ?_⟩
  rw [flat, tokensFrom_lexeme php (by decide) (rooted _),
    tokensFrom_lexeme firstMode (by decide) (colons _),
    tokensFrom_lexeme secondMode (by decide) (word_lexeme (by decide) rfl ends)]
  rfl

theorem stands_hook : StandsForWord hookShapes where
  mark := rfl
  scanned := fun _ _ php ends => scan_hook php (ends.resolve_left Bool.false_ne_true)
  quoted := by
    intro label rest tail _ same
    exact absurd (List.cons.inj same).1 (by decide)

theorem stands_call : StandsForWord callShapes where
  mark := rfl
  scanned := by
    intro state rest php _
    have ends : name (['('] ++ ([')'] ++ rest)) = 0 := rfl
    obtain ⟨next, mode, noArrow, found⟩ := scan_hook php ends
    let opened := next.after ⟨.openParen, ['('], next.line⟩
    have openedMode : opened.mode = .php := mode
    have opens (arrow : Bool) : phpLexeme arrow (['('] ++ ([')'] ++ rest)) = (.openParen, 1) := rfl
    have closes (arrow : Bool) : phpLexeme arrow ([')'] ++ rest) = (.closeParen, 1) := rfl
    refine ⟨opened.after ⟨.closeParen, [')'], opened.line⟩, mode, rfl, ?_⟩
    have flat : spell callShapes ++ rest = spell hookShapes ++ (['('] ++ ([')'] ++ rest)) := by
      simp [callShapes, spell]
    rw [flat, found, tokensFrom_lexeme mode (by decide) (opens _),
      tokensFrom_lexeme openedMode (by decide) (closes _)]
    rfl
  quoted := by
    intro label rest tail _ same
    exact absurd (List.cons.inj same).1 (by decide)

def choice : Fragment.Choice := fun last kind next =>
  if kind = .kwExit ∧ (last.map precedesName).getD false = false then
    some (if next = some .openParen then hookShapes else callShapes)
  else none

theorem choice_eq_some {last next : Option TokenKind} {kind : TokenKind} {added : List Shape}
    (chosen : choice last kind next = some added) :
    kind = .kwExit ∧ (added = hookShapes ∨ added = callShapes) := by
  unfold choice at chosen
  split at chosen
  · next isExit =>
      cases chosen
      refine ⟨isExit.1, ?_⟩
      split
      · exact .inl rfl
      · exact .inr rfl
  · cases chosen

theorem follows {exitHook : ExitHook} (hook : exitHook.hook = spell hookShapes) :
    Fragment.Follows exitHook.choose choice where
  chosen := by
    intro tokens index token here
    have kind : tokens.kindAt index = some token.kind := by rw [Tokens.kindAt, here]; rfl
    simp only [choose, choice, Tokens.isAt, kind, hook, Bool.and_eq_true, beq_iff_eq,
      Option.some.injEq, Bool.not_eq_true']
    split
    · split
      · rfl
      · rw [Option.map_some, spell_call]
    · rfl
  stands := by
    intro last kind next added chosen
    obtain ⟨isExit, isHook⟩ := choice_eq_some chosen
    refine ⟨isExit ▸ rfl, ?_⟩
    rcases isHook with rfl | rfl
    · exact stands_hook
    · exact stands_call

theorem choice_eq_none {last other : Option TokenKind} {kind : TokenKind} {next : Option TokenKind}
    (same : (other.map precedesName).getD false = (last.map precedesName).getD false)
    (none : choice last kind next = none) (behind : Option TokenKind) :
    choice other kind behind = .none := by
  unfold choice at none ⊢
  rw [same]
  split at none
  · cases none
  · next goesOn => rw [if_neg goesOn]

/-- A list that was reworded is reworded to itself. Both runs go along the list that was read first:
what they look back at may differ, but not in whether a name comes behind it. -/
theorem reworded_reworded {last other : Option TokenKind}
    (same : (other.map precedesName).getD false = (last.map precedesName).getD false)
    (shapes : List Shape) :
    Fragment.reworded choice other (Fragment.reworded choice last shapes) =
      Fragment.reworded choice last shapes := by
  induction shapes generalizing last other with
  | nil => rfl
  | cons shape rest ih =>
      rw [Fragment.reworded]
      cases chosen : choice last shape.1 (Fragment.firstKind rest) with
      | none =>
          have behind : ((Fragment.lastKind other shape.1).map precedesName).getD false =
              ((Fragment.lastKind last shape.1).map precedesName).getD false := by
            unfold Fragment.lastKind
            split
            · exact same
            · rfl
          rw [Option.getD_none, List.singleton_append, Fragment.reworded,
            choice_eq_none same chosen, ih behind]
          rfl
      | some added =>
          obtain ⟨isExit, isHook⟩ := choice_eq_some chosen
          have noExit : ∀ shape ∈ callShapes, shape.1 ≠ .kwExit := by decide
          have keeps (shape : Shape) (member : shape ∈ callShapes) (last next : Option TokenKind) :
              choice last shape.1 next = none := if_neg fun both => noExit shape member both.1
          rw [Option.getD_some, isExit]
          rcases isHook with rfl | rfl
          · rw [Fragment.reworded_append fun shape member =>
              keeps shape (List.mem_append_left _ member), ih]
            rfl
          · rw [Fragment.reworded_append keeps, ih]
            rfl

theorem edited_idem {exitHook : ExitHook} (hook : exitHook.hook = spell hookShapes) (code : Text) :
    Fragment.edited exitHook.choose (Fragment.edited exitHook.choose code) =
      Fragment.edited exitHook.choose code := by
  rw [Fragment.edited_edited (follows hook) (follows hook), reworded_reworded rfl,
    ← Fragment.edited_eq (follows hook)]

end ExitHook

/-! ### Both edits -/

namespace PathPin

/-- A pinned path leaves a string in the place of its words, and of no other token. -/
def pinnedKind : TokenKind → TokenKind
  | .magicDir | .magicFile => .quotedString
  | kind => kind

def pinned (path : Path) (shape : Shape) : Shape :=
  if shape.1 = .magicDir then (.quotedString, literal (path.parent?.getD []))
  else if shape.1 = .magicFile then (.quotedString, literal path)
  else shape

theorem pinned_kind (path : Path) (shape : Shape) :
    (pinned path shape).1 = pinnedKind shape.1 := by
  obtain ⟨kind, text⟩ := shape
  cases kind <;> rfl

theorem isTrivia_pinnedKind (kind : TokenKind) : (pinnedKind kind).isTrivia = kind.isTrivia := by
  cases kind <;> rfl

theorem reworded_eq (path : Path) (last : Option TokenKind) (shapes : List Shape) :
    Fragment.reworded (choice path) last shapes = shapes.map (pinned path) := by
  induction shapes generalizing last with
  | nil => rfl
  | cons shape rest ih =>
      have here : (choice path last shape.1 (Fragment.firstKind rest)).getD [shape] =
          [pinned path shape] := by
        unfold choice pinned
        split
        · rfl
        · split <;> rfl
      rw [Fragment.reworded, here, ih, List.map_cons, List.singleton_append]

theorem firstKind_pinned (path : Path) (shapes : List Shape) :
    Fragment.firstKind (shapes.map (pinned path)) = (Fragment.firstKind shapes).map pinnedKind := by
  have same : (fun shape : Shape => !shape.1.isTrivia) ∘ pinned path =
      fun shape => !shape.1.isTrivia := by
    funext shape
    rw [Function.comp_apply, pinned_kind, isTrivia_pinnedKind]
  rw [Fragment.firstKind, Fragment.firstKind, List.find?_map, same, Option.map_map, Option.map_map]
  congr 1
  funext shape
  exact pinned_kind path shape

theorem lastKind_pinned (last : Option TokenKind) (kind : TokenKind) :
    Fragment.lastKind (last.map pinnedKind) (pinnedKind kind) =
      (Fragment.lastKind last kind).map pinnedKind := by
  rw [Fragment.lastKind, Fragment.lastKind, isTrivia_pinnedKind]
  split <;> rfl

end PathPin

namespace ExitHook

open PathPin

theorem choice_pinned (last : Option TokenKind) (kind : TokenKind) (next : Option TokenKind) :
    choice (last.map pinnedKind) (pinnedKind kind) (next.map pinnedKind) =
      choice last kind next := by
  have isExit : pinnedKind kind = .kwExit ↔ kind = .kwExit := by
    cases kind <;> decide
  have behind : (last.map pinnedKind).map precedesName = last.map precedesName := by
    cases last with
    | none => rfl
    | some kind => cases kind <;> rfl
  have opens : next.map pinnedKind = some .openParen ↔ next = some .openParen := by
    cases next with
    | none => rfl
    | some kind => cases kind <;> decide
  simp only [choice, isExit, behind, opens]

theorem map_pinned_choice (path : Path) {last : Option TokenKind} {kind : TokenKind}
    {next : Option TokenKind} {added : List Shape} (chosen : choice last kind next = some added) :
    added.map (pinned path) = added := by
  rcases (choice_eq_some chosen).2 with rfl | rfl
  · rfl
  · rfl

theorem reworded_pinned (path : Path) (last : Option TokenKind) (shapes : List Shape) :
    Fragment.reworded choice (last.map pinnedKind) (shapes.map (pinned path)) =
      (Fragment.reworded choice last shapes).map (pinned path) := by
  induction shapes generalizing last with
  | nil => rfl
  | cons shape rest ih =>
      rw [List.map_cons, Fragment.reworded, Fragment.reworded, firstKind_pinned, pinned_kind,
        choice_pinned, lastKind_pinned, ih, List.map_append]
      congr 1
      cases chosen : choice last shape.1 (Fragment.firstKind rest) with
      | none => rfl
      | some added => exact (map_pinned_choice path chosen).symm

theorem edited_comm {exitHook : ExitHook} (hook : exitHook.hook = spell hookShapes) (path : Path)
    (code : Text) :
    Fragment.edited exitHook.choose (Fragment.edited (PathPin.choose path) code) =
      Fragment.edited (PathPin.choose path) (Fragment.edited exitHook.choose code) := by
  rw [Fragment.edited_edited (PathPin.follows path) (follows hook),
    Fragment.edited_edited (follows hook) (PathPin.follows path), reworded_eq, reworded_eq,
    ← reworded_pinned]
  rfl

end ExitHook

end PhpWeave
