import Mathlib.Data.List.Induction
import PhpWeave.Proofs.Grammar.ScopeName
import PhpWeave.Proofs.Weave.Redirection
import PhpWeave.Weave.Substitution

set_option autoImplicit false

/-!
What the registry answers for the references of a file. A reference is taken apart twice: when the
file is woven, a leading backslash or an import makes its name complete; when the code runs, the
registry completes it with the namespace around it. Together they look up the complete name that the
reference has in its file, among the calls that the registry has got so far.
-/

namespace PhpWeave

open Lexeme

theorem Lexeme.IsName.unrooted_behind {name : Text} (isName : IsName ('\\' :: name)) :
    startsWhere (· == '\\') name = false := by
  rw [IsName, Lexeme.name, List.length_cons] at isName
  split at isName
  · next goesOn =>
      obtain ⟨c, rest, rfl, starts⟩ := startsWhere_true (show startsWhere isNameStart name = true
        from goesOn)
      exact beq_false_of_ne (ne_of_class starts '\\' rfl)
  · cases isName

namespace Text

theorem dropLeadingSeparators_eq_self {name : Text}
    (unrooted : startsWhere (· == '\\') name = false) : dropLeadingSeparators name = name := by
  cases name with
  | nil => rfl
  | cons c rest => exact List.dropWhile_cons_of_neg (Bool.eq_false_iff.mp unrooted)

/-- A name that is written with a backslash in front. -/
def isRooted (name : Text) : Bool := startsWhere (· == '\\') name

theorem isRooted_dropLeadingSeparators (name : Text) :
    isRooted (dropLeadingSeparators name) = false := by
  have first := List.head?_dropWhile_not (· == '\\') name
  cases dropped : dropLeadingSeparators name with
  | nil => rfl
  | cons c rest =>
      rw [dropLeadingSeparators] at dropped
      rw [dropped] at first
      exact first

theorem dropLeadingSeparators_append (front rest : Text) :
    dropLeadingSeparators (dropLeadingSeparators front ++ rest) =
      dropLeadingSeparators (front ++ rest) := by
  induction front with
  | nil => rfl
  | cons c front ih =>
      by_cases isSlash : (c == '\\') = true
      · have dropped (tail : Text) :
            dropLeadingSeparators (c :: tail) = dropLeadingSeparators tail :=
          List.dropWhile_cons_of_pos isSlash
        rw [List.cons_append, dropped, dropped, ih]
      · have kept : dropLeadingSeparators (c :: front) = c :: front :=
          List.dropWhile_cons_of_neg isSlash
        rw [kept]

theorem sameWord_eq {left right : Text} : sameWord left right = true ↔ lower left = lower right :=
  beq_iff_eq

end Text

/-- What a scope stands for where the code of a namespace runs. -/
def NameScope.argument (namespaceName : Text) : NameScope → Option Text
  | .current => some namespaceName
  | .absolute => none

/-! ### The complete name of a reference -/

namespace ImportTable

/-- Whether no two aliases of a table are the same up to ASCII case. -/
def Distinct (imports : ImportTable) : Prop :=
  imports.Pairwise fun one other => Text.sameWord one.1 other.1 = false

instance (imports : ImportTable) : Decidable imports.Distinct :=
  inferInstanceAs (Decidable (imports.Pairwise _))

theorem lookupWord?_of_mem {imports : ImportTable} (distinct : imports.Distinct) {short name : Text}
    (member : (short, name) ∈ imports) : imports.lookupWord? short = some name := by
  induction imports with
  | nil => cases member
  | cons entry rest ih =>
      obtain ⟨apart, further⟩ := List.pairwise_cons.mp distinct
      rcases List.mem_cons.mp member with rfl | later
      · simp [lookupWord?, Text.sameWord_eq]
      · have passed : lookupWord? short (entry :: rest) = lookupWord? short rest := by
          rw [lookupWord?, List.find?_cons, apart _ later, lookupWord?]
        rw [passed, ih further later]

end ImportTable

namespace Reference

def firstSegment (written : Text) : Text := written.takeWhile (· ≠ '\\')

/-- The complete name of a reference in a file: what is written behind a leading backslash; else
the import of its first segment and the rest, where backslashes in front of the import do not count;
else the name in its namespace. -/
def fullName (imports : ImportTable) (scope written : Text) : Text :=
  match written with
  | '\\' :: name => name
  | _ =>
    match imports.lookupWord? (firstSegment written) with
    | some name =>
      Text.dropLeadingSeparators (name ++ written.drop (firstSegment written).length)
    | none => if scope.isEmpty then written else scope ++ '\\' :: written

/-- Whether a reference is one segment that no import stands for. -/
def isBare (imports : ImportTable) (written : Text) : Bool :=
  !written.contains '\\' && (imports.lookupWord? written).isNone

theorem imported?_eq {imports : ImportTable} (distinct : imports.Distinct) (segment : Text) :
    imported? imports segment = imports.lookupWord? segment := by
  unfold imported? ImportTable.lookup?
  cases exact : imports.find? (fun entry => decide (entry.1 = segment)) with
  | none => rfl
  | some entry =>
      have same : entry.1 = segment := by simpa using List.find?_some exact
      have member : (segment, entry.2) ∈ imports := same ▸ List.mem_of_find?_eq_some exact
      exact (ImportTable.lookupWord?_of_mem distinct member).symm

theorem firstSegment_of_single {written : Text} (single : written.contains '\\' = false) :
    firstSegment written = written := by
  have part : ∀ c ∈ written, decide (c ≠ '\\') = true := by
    intro c member
    refine decide_eq_true ?_
    rintro rfl
    rw [List.contains_iff_mem.mpr member] at single
    cases single
  have whole := takeWhile_append_stop part (rfl : startsWhere _ [] = false)
  rwa [List.append_nil] at whole

theorem resolve_of_plain (imports : ImportTable) {written : Text}
    (unrooted : startsWhere (· == '\\') written = false) :
    resolve imports written =
      match imported? imports (firstSegment written) with
      | none => (.current, written)
      | some name =>
        (.absolute, Text.dropLeadingSeparators name ++
          written.drop (firstSegment written).length) := by
  unfold resolve
  split
  · cases unrooted
  · rfl

theorem resolve_unrooted {imports : ImportTable} (distinct : imports.Distinct) {written : Text}
    (unrooted : startsWhere (· == '\\') written = false) :
    resolve imports written =
      match imports.lookupWord? (firstSegment written) with
      | none => (.current, written)
      | some name =>
        (.absolute, Text.dropLeadingSeparators name ++
          written.drop (firstSegment written).length) := by
  rw [resolve_of_plain imports unrooted, imported?_eq distinct]

theorem fullName_unrooted (imports : ImportTable) (scope : Text) {written : Text}
    (unrooted : startsWhere (· == '\\') written = false) :
    fullName imports scope written =
      match imports.lookupWord? (firstSegment written) with
      | some name =>
        Text.dropLeadingSeparators (name ++ written.drop (firstSegment written).length)
      | none => if scope.isEmpty then written else scope ++ '\\' :: written := by
  unfold fullName
  split
  · cases unrooted
  · rfl

end Reference

/-! ### The registry after some calls -/

namespace Substitutions

/-- A call that changes the registry. -/
inductive Call where
  | register (name substitute : Text)
  | reset
  deriving DecidableEq, Repr

/-- A name that the registry refuses changes nothing. -/
def Call.run (substitutions : Substitutions) : Call → Substitutions
  | .register name substitute =>
    match substitutions.register name substitute with
    | .ok registered => registered
    | .error _ => substitutions
  | .reset => {}

/-- The registry after calls, first call first. -/
def ofHistory (history : List Call) : Substitutions := history.foldl Call.run {}

def accepts (name : Text) : Bool :=
  !Reserved.frameReaders.contains (Text.lower (Text.dropLeadingSeparators name))

/-- The substitute that calls leave for a complete name. They are given last call first: the first
accepted call for the name counts, and nothing from before a reset. -/
def latest? (full : Text) : List Call → Option Text
  | [] => none
  | .reset :: _ => none
  | .register name substitute :: earlier =>
    if accepts name && Text.sameWord (Text.dropLeadingSeparators name) full then some substitute
    else latest? full earlier

theorem lookup_put (key substitute other : Text) (entries : List (Text × Text)) :
    (put key substitute entries).lookup other =
      if other = key then some substitute else entries.lookup other := by
  induction entries with
  | nil =>
      rw [put, List.lookup_cons, List.lookup_nil]
      by_cases same : other = key
      · simp [same]
      · simp [same, beq_false_of_ne same]
  | cons entry rest ih =>
      obtain ⟨known, old⟩ := entry
      by_cases found : known = key
      · rw [put, if_pos found, found]
        rw [List.lookup_cons, List.lookup_cons]
        by_cases same : other = key
        · simp [same]
        · simp [same, beq_false_of_ne same]
      · rw [put, if_neg found, List.lookup_cons, List.lookup_cons]
        by_cases here : other = known
        · simp [here, found]
        · simp [beq_false_of_ne here, ih]

theorem register_eq (substitutions : Substitutions) (name substitute : Text) :
    substitutions.register name substitute =
      if accepts name then
        .ok ⟨put (Text.lower (Text.dropLeadingSeparators name)) substitute substitutions.entries⟩
      else .error ⟨Text.dropLeadingSeparators name⟩ := by
  unfold register accepts
  by_cases refused :
      Reserved.frameReaders.contains (Text.lower (Text.dropLeadingSeparators name)) = true
  · simp only [refused, if_true, Bool.not_true, Bool.false_eq_true, if_false]
  · simp only [refused, Bool.not_false, if_true, if_false, Bool.false_eq_true]

theorem lookup?_run (substitutions : Substitutions) (full : Text) (call : Call) :
    (call.run substitutions).lookup? full =
      match call with
      | .reset => none
      | .register name substitute =>
        if accepts name && Text.sameWord (Text.dropLeadingSeparators name) full then
          some substitute
        else substitutions.lookup? full := by
  cases call with
  | reset => rfl
  | register name substitute =>
      rw [Call.run, register_eq]
      cases taken : accepts name with
      | false => simp [taken]
      | true =>
          have found := lookup_put (Text.lower (Text.dropLeadingSeparators name)) substitute
            (Text.lower full) substitutions.entries
          by_cases same : Text.lower full = Text.lower (Text.dropLeadingSeparators name)
          · have word := Text.sameWord_eq.mpr same.symm
            simpa [lookup?, taken, word, same] using found
          · have other : Text.sameWord (Text.dropLeadingSeparators name) full = false :=
              Bool.eq_false_iff.mpr fun word => same (Text.sameWord_eq.mp word).symm
            simpa [lookup?, taken, other, same] using found

theorem lookup?_ofHistory (history : List Call) (full : Text) :
    (ofHistory history).lookup? full = latest? full history.reverse := by
  induction history using List.reverseRecOn with
  | nil => rfl
  | append_singleton earlier call ih =>
      rw [ofHistory, List.foldl_concat, lookup?_run, List.reverse_concat]
      cases call with
      | reset => rfl
      | register name substitute =>
          rw [latest?, ← ih]
          rfl

/-! ### Answers -/

theorem bareScope_eq_self {scope : Text} (relative : IsRelative scope) : bareScope scope = scope := by
  rw [bareScope, Text.dropLeadingSeparators_eq_self relative.unrooted]
  rcases List.eq_nil_or_concat' scope with rfl | ⟨front, last, rfl⟩
  · rfl
  · have ending := relative.isName.getLast_ne (by simp)
    rw [List.getLast_append_singleton] at ending
    rw [List.reverse_concat, List.dropWhile_cons_of_neg (by simpa using ending),
      ← List.reverse_concat, List.reverse_reverse]

theorem resolve_none (substitutions : Substitutions) (name : Text) (isFunction : Bool) :
    substitutions.resolve none name isFunction =
      (substitutions.lookup? (Text.dropLeadingSeparators name)).getD
        (Text.dropLeadingSeparators name) := by
  rw [resolve, complete]
  cases substitutions.lookup? (Text.dropLeadingSeparators name) with
  | none => simp
  | some substitute => rfl

theorem resolve_some (substitutions : Substitutions) {scope name : Text}
    (relative : IsRelative scope) (unrooted : startsWhere (· == '\\') name = false)
    (isFunction : Bool) :
    substitutions.resolve (some scope) name isFunction =
      let full := if scope.isEmpty then name else scope ++ '\\' :: name
      ((substitutions.lookup? full).or
        (if isFunction && !name.contains '\\' then substitutions.lookup? name else none)).getD
        full := by
  have completed : complete (some scope) name =
      if scope.isEmpty then name else scope ++ '\\' :: name := by
    cases scope with
    | nil => rfl
    | cons c rest =>
        rw [complete, bareScope_eq_self relative]
        · rfl
        · intro empty
          cases empty
  rw [resolve, Text.dropLeadingSeparators_eq_self unrooted, completed]

section Reference

variable (substitutions : Substitutions) {imports : ImportTable} {scope written : Text}

def Answers (imports : ImportTable) (scope written : Text) (isFunction : Bool) : Prop :=
  let reference := Reference.resolve imports written
  let full := Reference.fullName imports scope written
  substitutions.resolve (reference.1.argument scope) reference.2 isFunction =
    ((substitutions.lookup? full).or
      (if isFunction && Reference.isBare imports written then substitutions.lookup? written
        else none)).getD full

theorem resolve_rooted (isName : IsName written)
    (rooted : startsWhere (· == '\\') written = true) (isFunction : Bool) :
    substitutions.Answers imports scope written isFunction := by
  obtain ⟨c, name, rfl, isSlash⟩ := startsWhere_true rooted
  obtain rfl := eq_of_beq isSlash
  have bare : Reference.isBare imports ('\\' :: name) = false := by simp [Reference.isBare]
  have unrooted := isName.unrooted_behind
  simp only [Answers, Reference.resolve, Reference.fullName, NameScope.argument, resolve_none,
    Text.dropLeadingSeparators_eq_self unrooted, bare, Bool.and_false, Bool.false_eq_true,
    if_false, Option.or_none]

theorem resolve_imported (distinct : imports.Distinct)
    (unrooted : startsWhere (· == '\\') written = false) {name : Text}
    (found : imports.lookupWord? (Reference.firstSegment written) = some name)
    (isFunction : Bool) : substitutions.Answers imports scope written isFunction := by
  have bare : Reference.isBare imports written = false := by
    unfold Reference.isBare
    cases single : written.contains '\\' with
    | true => rfl
    | false =>
        rw [Reference.firstSegment_of_single single] at found
        rw [found]
        rfl
  simp only [Answers, Reference.resolve_unrooted distinct unrooted,
    Reference.fullName_unrooted imports scope unrooted, found, NameScope.argument, resolve_none,
    Text.dropLeadingSeparators_append, bare, Bool.and_false, Bool.false_eq_true, if_false,
    Option.or_none]

theorem resolve_current (relative : IsRelative scope) (distinct : imports.Distinct)
    (unrooted : startsWhere (· == '\\') written = false)
    (unknown : imports.lookupWord? (Reference.firstSegment written) = none)
    (isFunction : Bool) : substitutions.Answers imports scope written isFunction := by
  have bare : Reference.isBare imports written = !written.contains '\\' := by
    unfold Reference.isBare
    cases single : written.contains '\\' with
    | true => rfl
    | false =>
        rw [Reference.firstSegment_of_single single] at unknown
        rw [unknown]
        rfl
  simp only [Answers, Reference.resolve_unrooted distinct unrooted,
    Reference.fullName_unrooted imports scope unrooted, unknown, NameScope.argument,
    resolve_some substitutions relative unrooted, bare]

end Reference

/-- The registry answers a reference as the file means it: with the substitute for its complete
name, for a function of one segment that is not imported else with the one for its global name,
else with the complete name. -/
theorem resolve_of_history {listLines : Bool} {source : Text} {tree : Tree}
    (parsed : Tree.parse listLines source = .ok tree) {scope : Text}
    (within : scope = [] ∨ scope ∈ tree.scopeNames) {imports : ImportTable}
    (distinct : imports.Distinct) {mode : Mode} {text : Text} {token : Token}
    (lexed : token ∈ scan mode text) (referable : Redirection.isReferable token.kind = true)
    (isFunction : Bool) (history : List Call) :
    let reference := Reference.resolve imports token.text
    let full := Reference.fullName imports scope token.text
    (ofHistory history).resolve (reference.1.argument scope) reference.2 isFunction =
      ((latest? full history.reverse).or
        (if isFunction && Reference.isBare imports token.text then
          latest? token.text history.reverse
        else none)).getD full := by
  intro reference full
  have relative : IsRelative scope := by
    rcases within with rfl | named
    · exact ⟨rfl, rfl⟩
    · exact Tree.scopeName_relative parsed named
  have isName : IsName token.text := (worded_scan mode text token (List.mem_toArray.mpr lexed)
    (Redirection.isIdentifierLike_of_isReferable referable)).1
  simp only [← lookup?_ofHistory]
  cases rooted : startsWhere (· == '\\') token.text with
  | true => exact resolve_rooted _ isName rooted isFunction
  | false =>
      cases found : imports.lookupWord? (Reference.firstSegment token.text) with
      | some name => exact resolve_imported _ distinct rooted found isFunction
      | none => exact resolve_current _ relative distinct rooted found isFunction

/-- A call in a namespace, answered with the substitute of the global function that was registered
after the last reset. -/
theorem resolve_of_history_fallback :
    let source := "<?php namespace App; rand();".toList
    let imports : ImportTable := [("Dice".toList, "Lib\\Dice".toList)]
    let history : List Call := [.register "App\\rand" "gone", .reset, .register "\\RAND" "dice",
      .register "compact" "refused"]
    ∃ tree, Tree.parse false source = .ok tree ∧ "App".toList ∈ tree.scopeNames ∧
      imports.Distinct ∧ ⟨.identifier, "rand".toList, 1⟩ ∈ scan .html source ∧
      (ofHistory history).resolve (some "App".toList) "rand" true = "dice".toList := by
  intro source imports history
  have known : ((Tree.parse false source).toOption.map fun tree =>
      decide ("App".toList ∈ tree.scopeNames)) = some true := by decide +kernel
  have distinct : imports.Distinct := by decide
  have lexed : ⟨.identifier, "rand".toList, 1⟩ ∈ scan .html source := by decide +kernel
  cases parsed : Tree.parse false source with
  | error fault =>
      rw [parsed] at known
      cases known
  | ok tree =>
      rw [parsed] at known
      have within : "App".toList ∈ tree.scopeNames := of_decide_eq_true (Option.some.inj known)
      have answer := resolve_of_history parsed (.inr within) distinct lexed rfl true history
      exact ⟨tree, rfl, within, distinct, lexed, answer.trans (by decide)⟩

end Substitutions
end PhpWeave
