import PhpWeave.Grammar.Construct
import PhpWeave.Node.Dump
import PhpWeave.Token.Scan

/-!
The tree of a file, made of the events of its reader. Nodes go into the tree in source order, so
their indices count up in preorder. Each node gets the namespace and the function it stands in and
the lines its visible tokens cover; the file node may list, line by line, the nodes that cover each.
A file whose declarations are not closed has no tree.
-/

namespace PhpWeave

/-- A construct that is open while the tree is made: its node and its first token. -/
structure OpenNode where
  id : NodeId
  first : Nat
  deriving DecidableEq, Repr

/-- A tree in the making. -/
structure Outline where
  tree : Tree
  /-- The open constructs, innermost first; the file is not among them. -/
  entered : List OpenNode
  /-- The first and the last token of each node. -/
  extents : Array (Option (Nat × Nat))

namespace Outline

def start : Outline := ⟨Tree.empty, [], #[none]⟩

def innermost (outline : Outline) (kind : NodeKind) : Option NodeId :=
  (outline.entered.find? fun entry => (outline.tree.node entry.id).kind = kind).map OpenNode.id

def attach (outline : Outline) (node : Node) (first last : Nat) : Outline :=
  let parent := (outline.entered.head?.map OpenNode.id).getD Tree.root
  let node := { node with
    scope := outline.innermost .scope, function := outline.innermost .function }
  { outline with
    tree := outline.tree.push parent node
    extents := outline.extents.push (some (first, last)) }

def take (outline : Outline) : Event → Outline
  | .leaf node first last => outline.attach node first last
  | .enter node first last =>
    { outline.attach node first last with
      entered := ⟨outline.tree.size, first⟩ :: outline.entered }
  | .leave close last =>
    match outline.entered with
    | [] => outline
    | entry :: rest =>
      { tree := outline.tree.update entry.id fun node => { node with close := node.close ++ close }
        entered := rest
        extents := outline.extents.setIfInBounds entry.id (some (entry.first, last)) }
  | .yields =>
    match outline.innermost .function with
    | none => outline
    | some id =>
      { outline with
        tree := outline.tree.update id fun node =>
          { node with flags := { node.flags with generator := true } } }
  | .imports entries =>
    let scope := (outline.innermost .scope).getD Tree.root
    { outline with
      tree := outline.tree.update scope fun node =>
        { node with
          imports := entries.foldl (fun table entry => ImportTable.insert entry.1 entry.2 table)
            node.imports } }

def ofEvents (events : List Event) : Outline := events.foldl take start

end Outline

/-! ### Lines -/

namespace Tokens

def isVisible (token : Token) : Bool := token.kind ≠ .whitespace

/-- The lines that the visible tokens from one position through another cover; nothing when no
token among them shows. -/
def linesOf (tokens : Tokens) (first last : Nat) : Lines :=
  match tokens.firstWithin isVisible (last + 1 - first) first with
  | none => {}
  | some head =>
    let tail := (tokens.lastBefore isVisible (last + 1)).getD head
    { start := some (tokens.lineAt head), stop := (tokens[tail]?.map Token.endLine).getD 0 }

end Tokens

namespace Tree

def withLines (tree : Tree) (tokens : Tokens) (extents : Array (Option (Nat × Nat))) : Tree :=
  ⟨tree.nodes.mapIdx fun id node =>
    match (extents[id]?).join with
    | none => node
    | some extent => { node with lines := tokens.linesOf extent.1 extent.2 }⟩

/-- The extent of the file node: all tokens, when there are any. -/
def fileExtent (tokens : Tokens) : Option (Nat × Nat) :=
  if tokens.size = 0 then none else some (0, tokens.size - 1)

def ofTokens? (tokens : Tokens) : Except BracketFault Tree :=
  match Reader.eventsOf tokens with
  | .error fault => .error fault
  | .ok events =>
    let outline := Outline.ofEvents events
    .ok (outline.tree.withLines tokens (outline.extents.setIfInBounds root (fileExtent tokens)))

/-- The tree of a file, with the content of its lines listed or not. -/
def parse (listLines : Bool) (source : Text) : Except BracketFault Tree :=
  match ofTokens? (scan .html source).toArray with
  | .error fault => .error fault
  | .ok tree => .ok (if listLines then tree.withContent source else tree)

end Tree
end PhpWeave
