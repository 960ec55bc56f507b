import PhpWeave.Grammar.Clause
import PhpWeave.Token.Scan
import PhpWeave.Token.Search

set_option autoImplicit false

/-!
What an import statement imports. A word in front of its names says whether these are functions or
constants; without one they are classes and namespaces. The reader of a file steps over the word and
keeps aliases and names only. Here a statement is read with the kinds of what it imports, and
without them the imports are those that the reader keeps.
-/

namespace PhpWeave.Import

inductive Kind where
  /-- A class or the front of a longer name. -/
  | className
  | function
  | constant
  deriving DecidableEq, Repr

/-- A name that a statement imports, under an alias. -/
structure Item where
  kind : Kind
  short : Text
  name : Text
  deriving DecidableEq, Repr

def Item.entry (item : Item) : Text × Text := (item.short, item.name)

def kindOf (given : Kind) : List Token → Kind
  | [] => given
  | token :: _ =>
    if token.kind = .kwFunction then .function
    else if token.isWord "const" then .constant
    else given

def groupItems? (given : Kind) (base : Text) : Nat → List Token → Option (List Item × List Token)
  | 0, _ => none
  | _ + 1, [] => none
  | fuel + 1, token :: rest =>
    if token.kind = .closeBrace then some ([], rest)
    else match dropKind (token :: rest) with
      | [] => none
      | member :: after =>
        if member.kind = .fullyQualifiedName then none
        else do
          let inner ← name? member
          let (short, after) ← givenAlias? after
          let item := ⟨kindOf given (token :: rest), short.getD (lastSegment inner),
            base ++ '\\' :: inner⟩
          match after with
          | [] => none
          | mark :: after =>
            if mark.kind = .comma then
              let (items, last) ← groupItems? given base fuel after
              some (item :: items, last)
            else if mark.kind = .closeBrace then some ([item], after)
            else none

def clauseItems? (given : Kind) : List Token → Option (List Item × List Token)
  | [] => none
  | token :: rest => do
    let base ← name? token
    match rest with
    | mark :: rest =>
      if mark.kind = .separator then
        match rest with
        | brace :: rest =>
          if brace.kind = .openBrace then groupItems? given base (rest.length + 1) rest else none
        | [] => none
      else
        let (short, rest) ← givenAlias? (mark :: rest)
        some ([⟨given, short.getD (lastSegment base), base⟩], rest)
    | [] => some ([⟨given, lastSegment base, base⟩], [])

def statementItems? (given : Kind) : Nat → List Token → Option (List Item)
  | 0, _ => none
  | fuel + 1, tokens => do
    let (items, rest) ← clauseItems? given tokens
    match rest with
    | [] => some items
    | mark :: rest =>
      if mark.kind = .comma then
        let more ← statementItems? given fuel rest
        some (items ++ more)
      else none

/-- What a statement imports, in order, from the significant tokens between its word and its
semicolon; nothing when a clause is malformed. -/
def items (significant : List Token) : List Item :=
  (statementItems? (kindOf .className significant) (significant.length + 1)
    (dropKind significant)).getD []

/-! ### Without the kinds -/

def kept (read : List Item × List Token) : List (Text × Text) × List Token :=
  (read.1.map Item.entry, read.2)

theorem groupItems?_kept (given : Kind) (base : Text) (fuel : Nat) (tokens : List Token) :
    (groupItems? given base fuel tokens).map kept = members? base fuel tokens := by
  induction fuel generalizing tokens with
  | zero => rfl
  | succ fuel ih =>
      cases tokens with
      | nil => rfl
      | cons token rest =>
          rw [groupItems?, members?]
          by_cases closes : token.kind = .closeBrace
          · rw [if_pos closes, if_pos closes]
            rfl
          rw [if_neg closes, if_neg closes]
          cases dropKind (token :: rest) with
          | nil => rfl
          | cons member after =>
              by_cases rooted : member.kind = .fullyQualifiedName
              · simp only [rooted, if_true, Option.map_none]
              simp only [if_neg rooted]
              cases name? member with
              | none => rfl
              | some inner =>
                  cases givenAlias? after with
                  | none => rfl
                  | some renamed =>
                      obtain ⟨short, after⟩ := renamed
                      cases after with
                      | nil => rfl
                      | cons mark after =>
                          simp only [Option.bind_eq_bind, Option.bind_some, ← ih after]
                          split
                          · cases groupItems? given base fuel after <;> rfl
                          · split <;> rfl

theorem clauseItems?_kept (given : Kind) (tokens : List Token) :
    (clauseItems? given tokens).map kept = clause? tokens := by
  cases tokens with
  | nil => rfl
  | cons token rest =>
      simp only [clauseItems?, clause?, Option.bind_eq_bind]
      cases name? token with
      | none => rfl
      | some base =>
          cases rest with
          | nil => rfl
          | cons mark rest =>
              simp only [Option.bind_some]
              split
              · cases rest with
                | nil => rfl
                | cons brace rest =>
                    simp only [← groupItems?_kept given]
                    split <;> rfl
              · cases givenAlias? (mark :: rest) <;> rfl

theorem statementItems?_kept (given : Kind) (fuel : Nat) (tokens : List Token) :
    (statementItems? given fuel tokens).map (List.map Item.entry) = clauses? fuel tokens := by
  induction fuel generalizing tokens with
  | zero => rfl
  | succ fuel ih =>
      rw [statementItems?, clauses?, ← clauseItems?_kept given]
      cases clauseItems? given tokens with
      | none => rfl
      | some read =>
          obtain ⟨items, rest⟩ := read
          cases rest with
          | nil => rfl
          | cons mark rest =>
              simp only [Option.bind_eq_bind, Option.bind_some, Option.map_some, kept, ← ih rest]
              split
              · cases statementItems? given fuel rest with
                | none => rfl
                | some more => exact congrArg some List.map_append
              · rfl

theorem entries_items {significant : List Token} {entries : List (Text × Text)}
    (read : read? significant = some entries) : (items significant).map Item.entry = entries := by
  rw [read?, ← statementItems?_kept (kindOf .className significant)] at read
  obtain ⟨found, isOne, rfl⟩ := Option.map_eq_some_iff.mp read
  rw [items, isOne, Option.getD_some]

example : (items ((scan .php "A\\B as C, D\\\x7bfunction e, F\x7d".toList).filter
    Tokens.isSignificant)).map Item.kind = [.className, .function, .className] := by decide +kernel

end PhpWeave.Import
