import PhpWeave.Node.Flags
import PhpWeave.Text.Basic

/-!
The nodes of an outlined file. A node holds the text in front of its children and the text after
them, what it declares, and where it stands; the links to other nodes are indices into the tree
that holds it (`PhpWeave.Node.Tree`).
-/

namespace PhpWeave

abbrev NodeId := Nat

inductive ClassKind where
  | ordinary
  | interfaceLike
  | traitLike
  | enumeration
  deriving DecidableEq, Inhabited, Repr

/-- Text that is never looked into. -/
inductive LiteralKind where
  | quotedString
  | heredoc
  | comment
  | docComment
  deriving DecidableEq, Inhabited, Repr

/-- What a node stands for. -/
inductive NodeKind where
  /-- The whole file. -/
  | file
  /-- A namespace, with braces or without. -/
  | scope
  /-- An import statement. -/
  | imports
  | classLike (kind : ClassKind)
  /-- A function, a method or a closure. -/
  | function
  /-- Plain code, tags and the text outside them. -/
  | code
  | literal (kind : LiteralKind)
  deriving DecidableEq, Inhabited, Repr

namespace NodeKind

def all : List NodeKind :=
  [.file, .scope, .imports, .classLike .ordinary, .classLike .interfaceLike,
    .classLike .traitLike, .classLike .enumeration, .function, .code, .literal .quotedString,
    .literal .heredoc, .literal .comment, .literal .docComment]

def label : NodeKind → String
  | .file => "root"
  | .scope => "namespace"
  | .imports => "use"
  | .classLike .ordinary => "class"
  | .classLike .interfaceLike => "interface"
  | .classLike .traitLike => "trait"
  | .classLike .enumeration => "enum"
  | .function => "function"
  | .code => "code"
  | .literal .quotedString => "string"
  | .literal .heredoc => "heredoc"
  | .literal .comment => "comment"
  | .literal .docComment => "doc_comment"

def ofLabel? (name : String) : Option NodeKind := all.find? (·.label == name)

def letter : NodeKind → Char
  | .file => 'F'
  | .scope => 'N'
  | .imports => 'U'
  | .classLike .ordinary => 'C'
  | .classLike .interfaceLike => 'I'
  | .classLike .traitLike => 'T'
  | .classLike .enumeration => 'E'
  | .function => 'f'
  | .code => 'c'
  | .literal .quotedString | .literal .heredoc => 's'
  | .literal .comment | .literal .docComment => '#'

def isClassLike : NodeKind → Bool
  | .classLike _ => true
  | _ => false

def isComment : NodeKind → Bool
  | .literal .comment | .literal .docComment => true
  | _ => false

end NodeKind

/-- A declared parameter: its variable and the text of its default, empty when there is none. -/
structure Param where
  name : Text
  default : Text
  deriving DecidableEq, Inhabited, Repr

/-- Imported names by their alias. The last import of an alias counts. -/
abbrev ImportTable := List (Text × Text)

namespace ImportTable

/-- Imports a name under an alias, in place of an earlier import of the alias. -/
def insert (short name : Text) : ImportTable → ImportTable
  | [] => [(short, name)]
  | entry :: rest =>
    if entry.1 = short then (short, name) :: rest else entry :: insert short name rest

def lookup? (short : Text) (table : ImportTable) : Option Text :=
  (table.find? fun entry => entry.1 = short).map Prod.snd

/-- The name imported under an alias up to ASCII case. -/
def lookupWord? (short : Text) (table : ImportTable) : Option Text :=
  (table.find? fun entry => Text.sameWord entry.1 short).map Prod.snd

def ofList (imports : List (Text × Text)) : ImportTable :=
  imports.foldl (fun table entry => insert entry.1 entry.2 table) []

def sorted (table : ImportTable) : List (Text × Text) :=
  table.mergeSort fun left right => !decide (right.1 < left.1)

end ImportTable

/-- A line of a file and the nodes whose extent covers it. -/
structure LineContent where
  number : Nat
  body : Text
  nodes : List NodeId
  deriving DecidableEq, Inhabited, Repr

/-- The lines a node covers; a node without visible tokens has no start. Only the file node lists
the content of lines. -/
structure Lines where
  start : Option Nat := none
  stop : Nat := 0
  content : List LineContent := []
  deriving DecidableEq, Inhabited, Repr

namespace Lines

def span (start stop : Nat) : Lines := { start := some start, stop := stop }

def covers (lines : Lines) (line : Nat) : Bool :=
  match lines.start with
  | none => false
  | some start => start ≤ line && line ≤ lines.stop

end Lines

/-- A node: the text before its children, the text after them, and what is known of it. -/
structure Node where
  kind : NodeKind
  body : Text := []
  close : Text := []
  /-- The declared name, or the name of the namespace. -/
  name : Text := []
  flags : Flags := Flags.editableCode
  args : List Param := []
  imports : ImportTable := []
  lines : Lines := {}
  /-- The nearest namespace around the node. -/
  scope : Option NodeId := none
  /-- The nearest function around the node. -/
  function : Option NodeId := none
  parent : Option NodeId := none
  children : List NodeId := []
  deriving DecidableEq, Inhabited, Repr

namespace Node

def ofKind (kind : NodeKind) : Node := { kind := kind }

def code (body : Text) : Node := { kind := .code, body := body }

/-- Code that a weaver puts in, on a line when it is known. -/
def synthetic (body : Text) (line : Option Nat) : Node where
  kind := .code
  body := body
  flags := Flags.injectedCode
  lines := (line.map fun number => Lines.span number number).getD {}

def letter (node : Node) : Char :=
  if node.kind = .code ∧ ¬ node.flags.inPhp then 'h' else node.kind.letter

/-- Code inside PHP that weavers may edit. -/
def isEditable (node : Node) : Bool :=
  node.kind = .code && node.flags.inPhp && node.flags.editable

def isNamedFunction (node : Node) : Bool :=
  node.kind = .function && node.flags.hasBody && !node.flags.closure

def isTag (node : Node) : Bool :=
  node.kind = .code && node.flags = Flags.fixedCode &&
    (['<', '?'].isPrefixOf node.body || ['?', '>'].isPrefixOf node.body)

end Node
end PhpWeave
