import PhpWeave.Weave.Reference

/-!
Redirection of references. Each function body, and each level of the file that is no class, asks a
resolver once for every function and class that its code refers to, at its beginning and on one
line, and keeps the answers in variables; the references then read `$variable(...)` and the like.
Variables are numbered through a whole file. A level whose first tag prints has no room for
assignments in front of its code and is left alone.
-/

namespace PhpWeave

/-- A redirection: its resolver, the tag in the names of its variables and the names it leaves
alone, in small letters. -/
structure Redirection where
  resolver : Text := "\\Kahlan\\Plugin\\Monkey::patched"
  tag : Text := "KMONKEY"
  reserved : List Text := Reserved.words
  /-- How it goes through imports. This decides between aliases that differ in case only. -/
  order : ImportOrder := .asImported
  /-- The number of variables of the last run. -/
  count : Nat := 0

/-- The code that shares its variables: the node it lies in, the number of the child that the
assignments become when there is room for them, and the variables so far. -/
structure RedirectionBlock where
  id : NodeId
  index : Option Nat
  allotted : List (Reference × Text) := []
  assignments : List Text := []
  deriving Repr

namespace Redirection

def reserve (redirection : Redirection) (name : Text) : Redirection :=
  { redirection with reserved := Text.lower name :: redirection.reserved }

def isReserved (redirection : Redirection) (name : Text) : Bool :=
  Reference.isReserved redirection.reserved name

/-! ### Variables -/

def variableAt (redirection : Redirection) (number : Nat) : Text :=
  "$__".toList ++ redirection.tag ++ "__".toList ++ Text.ofNat number

def scopeArgument : NameScope → Text
  | .current => "__NAMESPACE__"
  | .absolute => "null"

def useArgument : NameUse → Text
  | .call => "true"
  | .className => "false"

def assignment (redirection : Redirection) (name : Text) (reference : Reference) : Text :=
  name ++ " = ".toList ++ redirection.resolver ++ '(' :: scopeArgument reference.scope ++
    ", '".toList ++ reference.name ++ "', ".toList ++ useArgument reference.use ++ ");".toList

/-- The variable of a reference, a new one when the block has none for it yet. -/
def allot (redirection : Redirection) (block : RedirectionBlock) (reference : Reference) :
    Text × Redirection × RedirectionBlock :=
  match block.allotted.find? fun entry => entry.1 = reference.key with
  | some entry => (entry.2, redirection, block)
  | none =>
    let name := redirection.variableAt redirection.count
    (name, { redirection with count := redirection.count + 1 },
      { block with
        allotted := block.allotted ++ [(reference.key, name)]
        assignments := block.assignments ++ [redirection.assignment name reference] })

def putAll (redirection : Redirection) (block : RedirectionBlock) :
    List (Token × Option Reference) → Text × Redirection × RedirectionBlock
  | [] => ([], redirection, block)
  | (token, none) :: rest =>
    let put := putAll redirection block rest
    (token.text ++ put.1, put.2)
  | (_, some reference) :: rest =>
    let allotted := redirection.allot block reference
    let put := putAll allotted.2.1 allotted.2.2 rest
    (allotted.1 ++ put.1, put.2)

/-! ### Placement -/

def isLeading (tree : Tree) (id : NodeId) : Bool :=
  (tree.node id).kind = .imports || tree.isDirective id

def isFiller (tree : Tree) (id : NodeId) : Bool :=
  let node := tree.node id
  node.kind.isComment || (node.isEditable && (Text.trim node.body).isEmpty)

/-- The number of the child after the last leading one, before any child that is neither leading
nor a filler. The children given are those from number `next`. -/
def afterLeading (tree : Tree) : List NodeId → Nat → Nat → Nat
  | [], _, found => found
  | id :: rest, next, found =>
    if isLeading tree id then afterLeading tree rest (next + 1) (next + 1)
    else if isFiller tree id then afterLeading tree rest (next + 1) found
    else found

/-- The number of the child that the assignments of a block become: the first in a function, after
imports and directives at the level of a namespace or of the file, there after the first open tag
only and not when that tag prints. -/
def placement? (tree : Tree) (block : NodeId) : Option Nat :=
  let children := tree.children block
  let isOpenTag (id : NodeId) : Bool :=
    (tree.node id).isTag && ['<', '?'].isPrefixOf (tree.node id).body
  match (tree.node block).kind with
  | .function => some 0
  | .scope => some (afterLeading tree children 0 0)
  | _ =>
    (children.findIdx? isOpenTag).bind fun first =>
      let prints := (children[first]?.map fun id =>
        ['<', '?', '='].isPrefixOf (tree.node id).body).getD false
      if prints then none
      else some (afterLeading tree (children.drop (first + 1)) (first + 1) (first + 1))

/-! ### The run over a file -/

/-- A run in progress: the numbering, the tree and the blocks met so far, first met first. -/
structure Run where
  redirection : Redirection
  tree : Tree
  blocks : List RedirectionBlock := []

def hostsCode : NodeKind → Bool
  | .file | .scope | .function => true
  | _ => false

def blockOf (run : Run) (id : NodeId) : RedirectionBlock :=
  (run.blocks.find? fun block => block.id = id).getD ⟨id, placement? run.tree id, [], []⟩

def putBlock (block : RedirectionBlock) : List RedirectionBlock → List RedirectionBlock
  | [] => [block]
  | other :: rest => if other.id = block.id then block :: rest else other :: putBlock block rest

def importsFor (redirection : Redirection) (tree : Tree) (id : NodeId) : ImportTable :=
  redirection.order.read (tree.importsFor id)

def redirectNode (run : Run) (id : NodeId) : Run :=
  match run.tree.parent? id with
  | none => run
  | some parent =>
    if hostsCode (run.tree.node parent).kind then
      let block := blockOf run parent
      let known := { run with blocks := putBlock block run.blocks }
      match block.index with
      | none => known
      | some _ =>
        let tokens := Fragment.tokens (run.tree.node id).body
        let references :=
          Reference.ofTokens run.redirection.reserved (run.redirection.importsFor run.tree id) tokens
        if references.any Option.isSome then
          let put := run.redirection.putAll block (tokens.toList.zip references)
          { redirection := put.2.1
            tree := run.tree.update id fun node => { node with body := put.1 }
            blocks := putBlock put.2.2 run.blocks }
        else known
    else run

def placeBlock (tree : Tree) (block : RedirectionBlock) : Tree :=
  match block.index with
  | none => tree
  | some index =>
    if block.assignments.isEmpty then tree
    else tree.insert block.id index
      (Node.synthetic (Text.joinWith [' '] block.assignments)
        (some (tree.placementLine block.id index)))

def redirect (redirection : Redirection) (tree : Tree) : Redirection × Tree :=
  let start : Run := ⟨{ redirection with count := 0 }, tree, []⟩
  let run := tree.editableNodes.foldl redirectNode start
  (run.redirection, run.blocks.foldl placeBlock run.tree)

instance : Weaver Redirection where
  weave redirection tree _ := redirection.redirect tree

end Redirection
end PhpWeave
