import PhpWeave.Proofs.Weave.Declaration
import PhpWeave.Proofs.Weave.Rewording

set_option autoImplicit false

/-!
The tokens of what a redirection writes. A variable whose tag is made of name characters is one
token, a name between single quotes is one string, and so a scan of a declaration finds one
assignment after another, each as it was meant.
-/

namespace PhpWeave

open Scan Lexeme

namespace Lexeme

/-- A name is read through the quote behind it. -/
theorem enclosed_of_isName {text : Text} (isName : IsName text) (rest : Text) (lead : Lead)
    (noBrace : lead ≠ .brace) (goesOn : lead = .escape → text ≠ []) :
    enclosed [.quote '\''] lead (text ++ '\'' :: rest) = text.length + 1 := by
  induction text generalizing lead with
  | nil =>
      have noEscape : lead ≠ .escape := fun escape => goesOn escape rfl
      have closes : enclosureStep (.quote '\'') [] lead '\'' = ([], .plain) := by
        simp [enclosureStep, quoteStep, noEscape]
      rw [List.nil_append, enclosed, closes]
      simp [enclosed]
  | cons c text ih =>
      obtain ⟨next, step, nextNoBrace, nextGoesOn⟩ : ∃ next : Lead,
          enclosureStep (.quote '\'') [] lead c = ([.quote '\''], next) ∧ next ≠ .brace ∧
            (next = .escape → text ≠ []) := by
        by_cases escaped : lead = .escape
        · exact ⟨.plain, by simp [enclosureStep, quoteStep, escaped], Lead.noConfusion,
            Lead.noConfusion⟩
        · rw [IsName, name, List.length_cons] at isName
          split at isName
          · next further =>
              rcases Bool.or_eq_true_iff.mp further with named | both
              · have noSlash : c ≠ '\\' := ne_of_class named _ (by decide)
                have noQuote : c ≠ '\'' := ne_of_class named _ (by decide)
                have noDollar : c ≠ '$' := ne_of_class named _ (by decide)
                exact ⟨.plain, by
                  simp [enclosureStep, quoteStep, escaped, noBrace, noSlash, noQuote, noDollar],
                  Lead.noConfusion, Lead.noConfusion⟩
              · obtain ⟨isSlash, begins⟩ := Bool.and_eq_true_iff.mp both
                obtain ⟨d, tail, rfl, -⟩ := startsWhere_true begins
                exact ⟨.escape, by
                  simp [enclosureStep, quoteStep, escaped, noBrace, eq_of_beq isSlash],
                  Lead.noConfusion, fun _ => List.cons_ne_nil _ _⟩
          · omega
      rw [List.cons_append, enclosed, step, ih isName.behind next nextNoBrace nextGoesOn,
        List.length_cons]
      omega

end Lexeme

namespace Scan

def Reads (shapes : List Shape) (rest : Text) : Prop :=
  ∀ state : State, state.mode = .php → state.afterArrow = false → ∃ next : State,
    next.mode = .php ∧ next.afterArrow = false ∧
      (tokensFrom state (spell shapes ++ rest)).map shape =
        shapes ++ (tokensFrom next rest).map shape

variable {shapes more : List Shape} {rest : Text}

theorem Reads.nil (rest : Text) : Reads [] rest :=
  fun state php noArrow => ⟨state, php, noArrow, rfl⟩

def isEven (kind : TokenKind) : Bool :=
  !(kind.isMarkup || kind == .arrow || kind == .nullsafeArrow)

theorem Reads.cons {kind : TokenKind} {text : Text} (later : Reads shapes rest)
    (even : isEven kind = true) (filled : text ≠ [])
    (lexeme : phpLexeme false (text ++ (spell shapes ++ rest)) = (kind, text.length)) :
    Reads ((kind, text) :: shapes) rest := by
  intro state php noArrow
  rw [isEven, Bool.not_eq_true', Bool.or_eq_false_iff, Bool.or_eq_false_iff] at even
  obtain ⟨⟨code, arrow⟩, nullsafeArrow⟩ := even
  have flat : spell ((kind, text) :: shapes) ++ rest = text ++ (spell shapes ++ rest) := by
    rw [spell, List.flatMap_cons, List.append_assoc]
    rfl
  have mode : (state.after ⟨kind, text, state.line⟩).mode = .php :=
    (modeAfter_of_code state.mode code).trans php
  have still : (state.after ⟨kind, text, state.line⟩).afterArrow = false := by
    rw [State.after]
    simp only [arrow, nullsafeArrow, noArrow, Bool.or_false, ite_self]
  obtain ⟨next, nextMode, nextStill, found⟩ := later _ mode still
  refine ⟨next, nextMode, nextStill, ?_⟩
  rw [flat, tokensFrom_lexeme php filled (noArrow ▸ lexeme), List.map_cons, found]
  rfl

theorem Reads.append (front : Reads shapes (spell more ++ rest)) (back : Reads more rest) :
    Reads (shapes ++ more) rest := by
  intro state php noArrow
  obtain ⟨middle, middleMode, middleStill, first⟩ := front state php noArrow
  obtain ⟨next, mode, still, second⟩ := back middle middleMode middleStill
  refine ⟨next, mode, still, ?_⟩
  rw [spell_append, List.append_assoc, first, second, List.append_assoc]

def textsOf (kind : TokenKind) (shapes : List Shape) : List Text :=
  (shapes.filter fun shape => shape.1 = kind).map Prod.snd

theorem textsOf_append (kind : TokenKind) (left right : List Shape) :
    textsOf kind (left ++ right) = textsOf kind left ++ textsOf kind right := by
  rw [textsOf, List.filter_append, List.map_append]
  rfl

theorem Reads.whole (reads : Reads shapes []) : Fragment.shapes (spell shapes) = shapes := by
  obtain ⟨next, -, -, found⟩ := reads (State.start .php) rfl rfl
  rw [List.append_nil, tokensFrom_nil, List.map_nil, List.append_nil] at found
  rw [Fragment.shapes, scan_eq, found]

end Scan

namespace Redirection

variable {redirection : Redirection}

/-! ### Variables -/

def Tagged (redirection : Redirection) : Prop := ∀ c ∈ redirection.tag, isNameChar c = true

theorem named_ofNat (number : Nat) : ∀ c ∈ Text.ofNat number, isNameChar c = true := by
  intro c member
  have digit : c.isDigit = true :=
    Nat.isDigit_of_mem_toDigits (by decide : 0 < 10) (Nat.le_refl 10) member
  rw [isNameChar, digit, Bool.or_true]

theorem variableAt_inj {number other : Nat}
    (same : redirection.variableAt number = redirection.variableAt other) : number = other := by
  have digits : Nat.toDigits 10 number = Nat.toDigits 10 other := List.append_cancel_left same
  have reads (n : Nat) : Nat.ofDigitChars 10 (Nat.toDigits 10 n) 0 = n :=
    Nat.ofDigitChars_toDigits (by decide) (Nat.le_refl 10)
  rw [← reads number, digits, reads]

def ownName (redirection : Redirection) (number : Nat) : Text :=
  "__".toList ++ (redirection.tag ++ ("__".toList ++ Text.ofNat number))

theorem variableAt_eq (number : Nat) :
    redirection.variableAt number = '$' :: redirection.ownName number := by
  simp [variableAt, ownName]

theorem Tagged.ownName (tagged : redirection.Tagged) (number : Nat) :
    ∀ c ∈ redirection.ownName number, isNameChar c = true := by
  have bars : ∀ c ∈ "__".toList, isNameChar c = true := List.all_eq_true.mp (by decide)
  intro c member
  simp only [Redirection.ownName, List.mem_append] at member
  rcases member with bar | tag | bar | digit
  · exact bars c bar
  · exact tagged c tag
  · exact bars c bar
  · exact named_ofNat number c digit

theorem Tagged.lexeme (tagged : redirection.Tagged) (arrow : Bool) (number : Nat) {rest : Text}
    (ends : startsWhere isNameChar rest = false) :
    phpLexeme arrow (redirection.variableAt number ++ rest) =
      (.variableName, (redirection.variableAt number).length) := by
  have rule : Rule arrow ('$' :: (redirection.ownName number ++ rest)) .variableName
      (1 + run isNameChar (redirection.ownName number ++ rest)) := .variableName '_' _ rfl
  have word : run isNameChar (redirection.ownName number ++ rest) =
      (redirection.ownName number).length :=
    congrArg List.length (takeWhile_append_stop (tagged.ownName number) ends)
  rw [variableAt_eq, List.cons_append, rule.phpLexeme_eq, word, List.length_cons, Nat.add_comm]

theorem Tagged.stands (tagged : redirection.Tagged) (number : Nat) :
    Stands false [(.variableName, redirection.variableAt number)] where
  scanned := by
    intro state rest php ends
    have lexeme := tagged.lexeme state.afterArrow number
      (not_nameChar_of_name (ends.resolve_left Bool.false_ne_true))
    have filled : redirection.variableAt number ≠ [] := by
      rw [variableAt_eq]
      exact List.cons_ne_nil _ _
    have flat : spell [(.variableName, redirection.variableAt number)] ++ rest =
        redirection.variableAt number ++ rest := by simp [spell]
    refine ⟨state.after ⟨.variableName, redirection.variableAt number, state.line⟩, php, rfl, ?_⟩
    rw [flat, tokensFrom_lexeme php filled lexeme]
    rfl
  quoted := by
    intro label rest tail named same
    have flat : spell [(.variableName, redirection.variableAt number)] ++ rest =
        '$' :: (redirection.ownName number ++ rest) := by
      simp [spell, variableAt_eq]
    rw [flat] at same
    exact absurd (List.cons.inj same).1 (by decide)

/-! ### Assignments -/

def scopeShape : NameScope → Shape
  | .current => (TokenKind.ofWord "__NAMESPACE__".toList, "__NAMESPACE__".toList)
  | .absolute => (TokenKind.ofWord "null".toList, "null".toList)

def useShape : NameUse → Shape
  | .call => (TokenKind.ofWord "true".toList, "true".toList)
  | .className => (TokenKind.ofWord "false".toList, "false".toList)

def resolverShapes : List Shape :=
  [(.fullyQualifiedName, "\\Kahlan\\Plugin\\Monkey".toList), (.doubleColon, "::".toList),
    (.identifier, "patched".toList)]

def quotedName (name : Text) : Shape := (.quotedString, '\'' :: (name ++ ['\'']))

def assignmentShapes (redirection : Redirection) (entry : Nat × Reference) : List Shape :=
  [(.variableName, redirection.variableAt entry.1), (.whitespace, [' ']), (.assign, ['=']),
      (.whitespace, [' '])] ++ resolverShapes ++
    [(.openParen, ['(']), scopeShape entry.2.scope, (.comma, [',']), (.whitespace, [' ']),
      quotedName entry.2.name, (.comma, [',']), (.whitespace, [' ']), useShape entry.2.use,
      (.closeParen, [')']), (.semicolon, [';'])]

theorem spell_assignment (resolver : redirection.resolver = spell resolverShapes)
    (entry : Nat × Reference) : spell (redirection.assignmentShapes entry) =
      redirection.assignment (redirection.variableAt entry.1) entry.2 := by
  have scope : (scopeShape entry.2.scope).2 = scopeArgument entry.2.scope := by
    cases entry.2.scope <;> rfl
  have use : (useShape entry.2.use).2 = useArgument entry.2.use := by
    cases entry.2.use <;> rfl
  rw [assignmentShapes, assignment, resolver, ← scope, ← use]
  simp only [spell, List.flatMap_append, List.flatMap_cons, List.flatMap_nil, quotedName,
    List.append_assoc, List.cons_append, List.nil_append, List.append_nil]
  rfl

theorem quotedName_lexeme {name : Text} (isName : IsName name) (rest : Text) :
    phpLexeme false ((quotedName name).2 ++ rest) = (.quotedString, (quotedName name).2.length) := by
  have rule : Rule false ('\'' :: (name ++ '\'' :: rest)) .quotedString
      (1 + quoted '\'' (name ++ '\'' :: rest)) := .string '\'' _ rfl
  rw [quoted, enclosed_of_isName isName rest .plain Lead.noConfusion Lead.noConfusion] at rule
  have flat : (quotedName name).2 ++ rest = '\'' :: (name ++ '\'' :: rest) := by
    simp [quotedName]
  rw [flat, rule.phpLexeme_eq]
  simp [quotedName, Nat.add_comm]

theorem reads_useShape {use : NameUse} {more : List Shape} {rest : Text} (later : Reads more rest)
    (ends : name (spell more ++ rest) = 0) :
    Reads ((.whitespace, [' ']) :: useShape use :: more) rest := by
  cases use <;>
    exact (later.cons (by decide) (by decide) (word_lexeme (by decide) rfl ends)).cons rfl
      (List.cons_ne_nil _ _) rfl

theorem reads_scopeShape {scope : NameScope} {more : List Shape} {rest : Text}
    (later : Reads more rest) (ends : name (spell more ++ rest) = 0) :
    Reads (scopeShape scope :: more) rest := by
  cases scope <;> exact later.cons (by decide) (by decide) (word_lexeme (by decide) rfl ends)

theorem reads_resolver {more : List Shape} {rest : Text} (later : Reads more rest)
    (ends : name (spell more ++ rest) = 0) : Reads (resolverShapes ++ more) rest := by
  have rooted {rest : Text} (ends : name rest = 0) :=
    rooted_lexeme false (show IsName "Kahlan\\Plugin\\Monkey".toList from rfl) rfl ends
  refine .cons (.cons (.cons later rfl (by decide) ?_) rfl (by decide) rfl) rfl (by decide) ?_
  · exact word_lexeme (by decide) rfl ends
  · exact rooted rfl

theorem reads_assignment (tagged : redirection.Tagged) {entry : Nat × Reference}
    (isName : IsName entry.2.name) (rest : Text) :
    Reads (redirection.assignmentShapes entry) rest := by
  have symbol {kind : TokenKind} {c : Char} {more : List Shape} (later : Reads more rest)
      (even : isEven kind = true)
      (lexeme : phpLexeme false (c :: (spell more ++ rest)) = (kind, 1)) :
      Reads ((kind, [c]) :: more) rest := later.cons even (List.cons_ne_nil _ _) lexeme
  have filled : redirection.variableAt entry.1 ≠ [] := by
    rw [variableAt_eq]
    exact List.cons_ne_nil _ _
  rw [assignmentShapes, List.append_assoc]
  refine .cons (symbol (symbol (symbol (reads_resolver ?behind rfl) rfl rfl) rfl rfl) rfl rfl) rfl
    filled (tagged.lexeme false entry.1 rfl)
  case behind =>
    refine symbol (reads_scopeShape (symbol (symbol ?name rfl rfl) rfl rfl) rfl) rfl rfl
    case name =>
      refine .cons (symbol (reads_useShape ?ending rfl) rfl rfl) rfl (List.cons_ne_nil _ _)
        (quotedName_lexeme isName _)
      case ending => exact symbol (symbol (.nil rest) rfl rfl) rfl rfl

/-! ### Declarations -/

def declarationShapes (redirection : Redirection) : List (Nat × Reference) → List Shape
  | [] => []
  | [entry] => redirection.assignmentShapes entry
  | entry :: rest =>
    redirection.assignmentShapes entry ++ (.whitespace, [' ']) :: declarationShapes redirection rest

theorem spell_declarationShapes (resolver : redirection.resolver = spell resolverShapes)
    (entries : List (Nat × Reference)) : spell (redirection.declarationShapes entries) =
      Text.joinWith [' '] (entries.map fun entry =>
        redirection.assignment (redirection.variableAt entry.1) entry.2) := by
  induction entries with
  | nil => rfl
  | cons entry rest ih =>
      cases rest with
      | nil => exact spell_assignment resolver entry
      | cons next rest =>
          rw [declarationShapes, spell_append, spell_assignment resolver]
          · change _ ++ ([' '] ++ spell (redirection.declarationShapes (next :: rest))) = _
            rw [ih, ← List.append_assoc]
            rfl
          · exact List.cons_ne_nil _ _

theorem reads_declarationShapes (tagged : redirection.Tagged) {entries : List (Nat × Reference)}
    (names : ∀ entry ∈ entries, IsName entry.2.name) (rest : Text) :
    Reads (redirection.declarationShapes entries) rest := by
  induction entries with
  | nil => exact .nil rest
  | cons entry entries ih =>
      have here (rest : Text) := reads_assignment tagged (names entry List.mem_cons_self) rest
      cases entries with
      | nil => exact here rest
      | cons next entries =>
          rw [declarationShapes]
          · refine (here _).append (Reads.cons (ih fun other member =>
              names other (List.mem_cons_of_mem _ member)) rfl (List.cons_ne_nil _ _) ?_)
            cases entries <;> rfl
          · exact List.cons_ne_nil _ _

theorem shapes_declaration (tagged : redirection.Tagged)
    (resolver : redirection.resolver = spell resolverShapes) {ledger : Ledger} {block : Nat}
    (names : ∀ entry ∈ ledger.ofBlock block, IsName entry.2.name) :
    Fragment.shapes (redirection.declaration ledger block) =
      redirection.declarationShapes (ledger.ofBlock block) := by
  rw [declaration, ← spell_declarationShapes resolver]
  exact (reads_declarationShapes tagged names []).whole

theorem textsOf_assignmentShapes (redirection : Redirection) (entry : Nat × Reference) :
    textsOf .variableName (redirection.assignmentShapes entry) =
        [redirection.variableAt entry.1] ∧
      textsOf .quotedString (redirection.assignmentShapes entry) =
        [(quotedName entry.2.name).2] := by
  obtain ⟨number, scope, name, use⟩ := entry
  cases scope <;> cases use <;> exact ⟨rfl, rfl⟩

theorem textsOf_declarationShapes (entries : List (Nat × Reference)) :
    textsOf .variableName (redirection.declarationShapes entries) =
        entries.map (fun entry => redirection.variableAt entry.1) ∧
      textsOf .quotedString (redirection.declarationShapes entries) =
        entries.map fun entry => (quotedName entry.2.name).2 := by
  induction entries with
  | nil => exact ⟨rfl, rfl⟩
  | cons entry entries ih =>
      obtain ⟨name, string⟩ := textsOf_assignmentShapes redirection entry
      cases entries with
      | nil => exact ⟨name, string⟩
      | cons next entries =>
          rw [declarationShapes]
          · rw [textsOf_append, textsOf_append, name, string]
            exact ⟨congrArg (_ :: ·) ih.1, congrArg (_ :: ·) ih.2⟩
          · exact List.cons_ne_nil _ _

end Redirection
end PhpWeave
