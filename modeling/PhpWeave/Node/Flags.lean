/-!
The properties of a node, as a set of flags. Code that a weaver may edit is marked, code that a
weaver put in is marked, and declarations carry what their modifiers and bodies say.
-/

namespace PhpWeave

inductive Flag where
  /-- An anonymous function. -/
  | closure
  /-- A function declared directly in a class-like body. -/
  | method
  /-- A function whose own body yields. -/
  | generator
  /-- The modifier `final` is present. -/
  | sealed
  /-- The modifier `abstract` is present. -/
  | abstracted
  /-- The declaration has a body in braces. -/
  | hasBody
  /-- A statement that line coverage counts. -/
  | coverable
  /-- The fragment stands between PHP tags. -/
  | inPhp
  /-- Weavers may edit the fragment. -/
  | editable
  /-- A weaver put the fragment in. -/
  | synthetic
  /-- The declared return type is `void`. -/
  | returnsVoid
  /-- The declared return type is `never`. -/
  | returnsNever
  deriving DecidableEq, Inhabited, Repr

namespace Flag

def all : List Flag :=
  [.closure, .method, .generator, .sealed, .abstracted, .hasBody, .coverable, .inPhp, .editable,
    .synthetic, .returnsVoid, .returnsNever]

def label : Flag → String
  | .closure => "CLOSURE"
  | .method => "METHOD"
  | .generator => "GENERATOR"
  | .sealed => "FINAL"
  | .abstracted => "ABSTRACT"
  | .hasBody => "HAS_BODY"
  | .coverable => "COVERABLE"
  | .inPhp => "IN_PHP"
  | .editable => "PROCESSABLE"
  | .synthetic => "SYNTHETIC"
  | .returnsVoid => "RETURNS_VOID"
  | .returnsNever => "RETURNS_NEVER"

def ofLabel? (name : String) : Option Flag := all.find? (·.label == name)

end Flag

structure Flags where
  closure : Bool := false
  method : Bool := false
  generator : Bool := false
  sealed : Bool := false
  abstracted : Bool := false
  hasBody : Bool := false
  coverable : Bool := false
  inPhp : Bool := false
  editable : Bool := false
  synthetic : Bool := false
  returnsVoid : Bool := false
  returnsNever : Bool := false
  deriving DecidableEq, Inhabited, Repr

namespace Flags

def none : Flags := {}

def editableCode : Flags := { inPhp := true, editable := true }

def fixedCode : Flags := { inPhp := true }

/-- The flags of code that a weaver put in, which no other weaver edits. -/
def injectedCode : Flags := { inPhp := true, synthetic := true }

def has (flags : Flags) : Flag → Bool
  | .closure => flags.closure
  | .method => flags.method
  | .generator => flags.generator
  | .sealed => flags.sealed
  | .abstracted => flags.abstracted
  | .hasBody => flags.hasBody
  | .coverable => flags.coverable
  | .inPhp => flags.inPhp
  | .editable => flags.editable
  | .synthetic => flags.synthetic
  | .returnsVoid => flags.returnsVoid
  | .returnsNever => flags.returnsNever

def insert (flags : Flags) : Flag → Flags
  | .closure => { flags with closure := true }
  | .method => { flags with method := true }
  | .generator => { flags with generator := true }
  | .sealed => { flags with sealed := true }
  | .abstracted => { flags with abstracted := true }
  | .hasBody => { flags with hasBody := true }
  | .coverable => { flags with coverable := true }
  | .inPhp => { flags with inPhp := true }
  | .editable => { flags with editable := true }
  | .synthetic => { flags with synthetic := true }
  | .returnsVoid => { flags with returnsVoid := true }
  | .returnsNever => { flags with returnsNever := true }

def ofList (flags : List Flag) : Flags := flags.foldl insert none

def toList (flags : Flags) : List Flag := Flag.all.filter flags.has

def hasAll (flags : Flags) (wanted : List Flag) : Bool := wanted.all flags.has

end Flags
end PhpWeave
