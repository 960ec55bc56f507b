import PhpWeave.Weave.Weaver

/-!
References to functions and classes in a piece of code: a name in front of an opening parenthesis is
called as a function, and a name after `new` or in front of `::` stands for a class. Members,
declared names, names inside attributes and reserved words are no references. A reference is given
with the name and the scope that a resolver needs to find what it denotes.

Some names are never redirected: the words of the language, in small letters, and the functions that
look at the frame they are called from, which would see another frame.
-/

namespace PhpWeave

/-! ### Reserved names -/

namespace Reserved

/-- The functions that look at the frame of their caller. -/
def frameReaderNames : List String :=
  ["compact", "extract", "func_get_arg", "func_get_args", "func_num_args", "get_defined_vars"]

/-- Words and functions that are never redirected. -/
def wordNames : List String :=
  ["__halt_compiler", "abstract", "and", "array", "as", "break", "callable", "case", "catch",
    "class", "clone", "compact", "const", "continue", "declare", "default", "die", "do", "echo",
    "else", "elseif", "empty", "enddeclare", "endfor", "endforeach", "endif", "endswitch",
    "endwhile", "eval", "exit", "extends", "extract", "final", "finally", "fn", "for", "foreach",
    "func_get_arg", "func_get_args", "func_num_args", "function", "get_defined_vars", "global",
    "goto", "if", "implements", "include", "include_once", "instanceof", "insteadof",
    "interface", "isset", "list", "match", "namespace", "new", "or", "parent", "print",
    "private", "protected", "public", "readonly", "require", "require_once", "return", "self",
    "static", "switch", "throw", "trait", "try", "unset", "use", "var", "while", "xor", "yield"]

def frameReaders : List Text := frameReaderNames.map String.toList

def words : List Text := wordNames.map String.toList

end Reserved

/-! ### References -/

/-- What a name is relative to. -/
inductive NameScope where
  /-- The namespace that the code is written in. -/
  | current
  /-- Nothing: the name is complete. -/
  | absolute
  deriving DecidableEq, Repr

/-- How a name is used. -/
inductive NameUse where
  | call
  | className
  deriving DecidableEq, Repr

/-- A name to be resolved when the code runs. -/
structure Reference where
  scope : NameScope
  name : Text
  use : NameUse
  deriving DecidableEq, Repr

/-- The order in which the imports of a table are gone through. Nothing is said of it but that it
passes each import once. -/
structure ImportOrder where
  read : ImportTable → ImportTable
  perm : ∀ imports, (read imports).Perm imports

def ImportOrder.asImported : ImportOrder := ⟨id, fun _ => .rfl⟩

namespace Reference

def precedesOwnName : TokenKind → Bool
  | .arrow | .nullsafeArrow | .doubleColon | .kwFunction => true
  | _ => false

def followsConst (tokens : Tokens) (index : Nat) : Bool :=
  (((tokens.prevSignificant index).bind (tokens[·]?)).map fun token => token.isWord "const").getD
    false

/-- The use of a name in front of a double colon: a class, unless only its name is asked for. -/
def useBeforeMember? (tokens : Tokens) (colons : Nat) : Option NameUse :=
  (tokens.nextSignificant (colons + 1)).bind fun member =>
    if tokens.isAt member .kwClass then none else some .className

/-- The use of the token at a position; none when it refers to nothing. -/
def use? (tokens : Tokens) (index : Nat) : Option NameUse :=
  match tokens.kindAt index with
  | some .identifier | some .qualifiedName | some .fullyQualifiedName =>
    if followsConst tokens index then none
    else if tokens.prevKind index = some .kwNew then some .className
    else if ((tokens.prevKind index).map precedesOwnName).getD false then none
    else
      (tokens.nextSignificant (index + 1)).bind fun next =>
        if tokens.isAt next .openParen then some .call
        else if tokens.isAt next .doubleColon then useBeforeMember? tokens next
        else none
  | _ => none

/-- The name imported for the first segment of a name: under exactly this alias, else under the first
one of the table that is the same up to case. -/
def imported? (imports : ImportTable) (segment : Text) : Option Text :=
  (imports.lookup? segment).or (imports.lookupWord? segment)

/-- The scope and the name of a reference as written: a leading backslash makes it complete, and so
does an import of its first segment; anything else is relative. -/
def resolve (imports : ImportTable) (written : Text) : NameScope × Text :=
  match written with
  | '\\' :: name => (.absolute, name)
  | _ =>
    let segment := written.takeWhile (· ≠ '\\')
    match imported? imports segment with
    | none => (.current, written)
    | some name =>
      (.absolute, Text.dropLeadingSeparators name ++ written.drop segment.length)

/-- The depth of brackets in an attribute after a token; 0 outside attributes. -/
def attributeDepth (depth : Nat) (token : Token) : Nat :=
  match token.kind with
  | .attributeOpen => 1
  | .openBracket => if depth = 0 then 0 else depth + 1
  | .closeBracket => depth - 1
  | _ => depth

/-- Whether each token stands inside an attribute, its opening included and its end not. -/
def inAttribute : Nat → List Token → List Bool
  | _, [] => []
  | depth, token :: rest =>
    let after := attributeDepth depth token
    (0 < after) :: inAttribute after rest

def isReserved (reserved : List Text) (name : Text) : Bool :=
  reserved.contains (Text.lower (Text.dropLeadingSeparators name))

def ofToken? (reserved : List Text) (imports : ImportTable) (tokens : Tokens)
    (entry : (Token × Bool) × Nat) : Option Reference :=
  let ((token, attributed), index) := entry
  if attributed || isReserved reserved token.text then none
  else (use? tokens index).map fun use =>
    let resolved := resolve imports token.text
    ⟨resolved.1, resolved.2, use⟩

def ofTokens (reserved : List Text) (imports : ImportTable) (tokens : Tokens) :
    List (Option Reference) :=
  ((tokens.toList.zip (inAttribute 0 tokens.toList)).zipIdx).map
    (ofToken? reserved imports tokens)

/-- References with the same key stand for the same thing: letter case does not count. -/
def key (reference : Reference) : Reference := { reference with name := Text.lower reference.name }

end Reference
end PhpWeave
