import PhpWeave.Node.Basic
import PhpWeave.Token.Basic

/-!
The clauses of an import statement, read from the significant tokens between `use` and its
semicolon:

    statement := kind? clause ("," clause)*
    clause    := name ("as" alias)? | name "\" "{" member ("," member)* ","? "}"
    member    := kind? name ("as" alias)?
    kind      := "function" | "const"

A statement is either read whole or not at all. Which statements count as imports, and where their
names are kept, is decided by the reader of the file.

Parameter lists are read from the tokens strictly between their parentheses. A comma separates
parameters outside inner brackets only, so a default may be a list or a call.
-/

namespace PhpWeave

namespace Import

def name? (token : Token) : Option Text :=
  match token.kind with
  | .identifier | .qualifiedName => some token.text
  | .fullyQualifiedName => some (Text.dropLeadingSeparators token.text)
  | _ => none

def dropKind : List Token → List Token
  | [] => []
  | token :: rest =>
    if token.kind = .kwFunction || token.isWord "const" then rest else token :: rest

def lastSegment (name : Text) : Text := ((Text.splitAt '\\' name).getLast?).getD name

def givenAlias? : List Token → Option (Option Text × List Token)
  | [] => some (none, [])
  | word :: rest =>
    if word.kind = .kwAs then
      match rest with
      | [] => none
      | token :: rest =>
        if token.kind.isIdentifierLike && !token.text.contains '\\' then
          some (some token.text, rest)
        else none
    else some (none, word :: rest)

def members? (base : Text) : Nat → List Token → Option (List (Text × Text) × List Token)
  | 0, _ => none
  | _ + 1, [] => none
  | fuel + 1, token :: rest =>
    if token.kind = .closeBrace then some ([], rest)
    else match dropKind (token :: rest) with
      | [] => none
      | member :: rest =>
        if member.kind = .fullyQualifiedName then none
        else do
          let inner ← name? member
          let (given, rest) ← givenAlias? rest
          let entry := (given.getD (lastSegment inner), base ++ '\\' :: inner)
          match rest with
          | [] => none
          | mark :: rest =>
            if mark.kind = .comma then
              let (entries, rest) ← members? base fuel rest
              some (entry :: entries, rest)
            else if mark.kind = .closeBrace then some ([entry], rest)
            else none

def clause? : List Token → Option (List (Text × Text) × List Token)
  | [] => none
  | token :: rest => do
    let base ← name? token
    match rest with
    | mark :: rest =>
      if mark.kind = .separator then
        match rest with
        | brace :: rest =>
          if brace.kind = .openBrace then members? base (rest.length + 1) rest else none
        | [] => none
      else
        let (given, rest) ← givenAlias? (mark :: rest)
        some ([(given.getD (lastSegment base), base)], rest)
    | [] => some ([(lastSegment base, base)], [])

def clauses? : Nat → List Token → Option (List (Text × Text))
  | 0, _ => none
  | fuel + 1, tokens => do
    let (entries, rest) ← clause? tokens
    match rest with
    | [] => some entries
    | mark :: rest =>
      if mark.kind = .comma then
        let more ← clauses? fuel rest
        some (entries ++ more)
      else none

/-- The imports of a statement in order, an alias and a name each; none when a clause is malformed.
A clause takes a token at least, so there are no more clauses than tokens. -/
def read? (significant : List Token) : Option (List (Text × Text)) :=
  clauses? (significant.length + 1) (dropKind significant)

end Import

namespace Param

def depthAfter (depth : Nat) (token : Token) : Nat :=
  match token.kind with
  | .openParen | .openBracket | .openBrace => depth + 1
  | .closeParen | .closeBracket | .closeBrace => depth - 1
  | _ => depth

def segments : Nat → List Token → List (List Token)
  | _, [] => [[]]
  | depth, token :: rest =>
    if token.kind = .comma && depth = 0 then [] :: segments depth rest
    else match segments (depthAfter depth token) rest with
      | [] => [[token]]
      | segment :: more => (token :: segment) :: more

/-- The parameter of a segment: its first variable outside brackets, with the text after the first
equals sign outside brackets that follows it. -/
def ofSegment : Nat → Option Text → List Token → Option Param
  | _, none, [] => none
  | _, some name, [] => some ⟨name, []⟩
  | depth, found, token :: rest =>
    if depth = 0 ∧ token.kind = .variableName ∧ found = none then
      ofSegment depth (some token.text) rest
    else match found with
      | some name =>
        if depth = 0 ∧ token.kind = .assign then some ⟨name, Text.trim (Token.textOf rest)⟩
        else ofSegment (depthAfter depth token) found rest
      | none => ofSegment (depthAfter depth token) none rest

def listOf (tokens : List Token) : List Param := (segments 0 tokens).filterMap (ofSegment 0 none)

end Param

end PhpWeave
