import PhpWeave.Node.Basic

/-!
The tree of a file, as a table of nodes. Node 0 is the file. A new node always goes to the end of
the table, so a child has a larger index than its parent, and a node that is taken out of the tree
keeps its index, its children and its place in the table. The four splices below keep the list of
children and the link to the parent in step.

A tree is walked up from a node through its ancestors, and down through the nodes under it in source
order. The way up from a node has at most as many steps as its index and the way down at most as many
as the table has nodes; both bounds are the fuel of the walks.
-/

namespace PhpWeave

/-- A table of nodes under the file node. -/
structure Tree where
  nodes : Array Node

namespace Tree

def root : NodeId := 0

def empty : Tree := ⟨#[Node.ofKind .file]⟩

instance : Inhabited Tree := ⟨empty⟩

def size (tree : Tree) : Nat := tree.nodes.size

def node (tree : Tree) (id : NodeId) : Node := tree.nodes[id]?.getD (Node.ofKind .code)

def update (tree : Tree) (id : NodeId) (change : Node → Node) : Tree :=
  ⟨tree.nodes.modify id change⟩

def children (tree : Tree) (id : NodeId) : List NodeId := (tree.node id).children

def parent? (tree : Tree) (id : NodeId) : Option NodeId := (tree.node id).parent

/-- Adds a childless node to the end of the table and links it to a parent; the list of children is
left to the splice. -/
def alloc (tree : Tree) (parent : NodeId) (node : Node) : Tree :=
  ⟨tree.nodes.push { node with parent := some parent, children := [] }⟩

def setChildren (tree : Tree) (parent : NodeId) (children : List NodeId) : Tree :=
  tree.update parent fun node => { node with children := children }

def detach (tree : Tree) (id : NodeId) : Tree :=
  tree.update id fun node => { node with parent := none }

/-- Adds a node as the last child; its index is the size of the tree before. -/
def push (tree : Tree) (parent : NodeId) (node : Node) : Tree :=
  let children := tree.children parent ++ [tree.size]
  (tree.alloc parent node).setChildren parent children

/-- Adds a node as the child with a given number, or as the last one when there are fewer. -/
def insert (tree : Tree) (parent : NodeId) (index : Nat) (node : Node) : Tree :=
  let siblings := tree.children parent
  let children := siblings.take index ++ tree.size :: siblings.drop index
  (tree.alloc parent node).setChildren parent children

def remove (tree : Tree) (parent : NodeId) (index : Nat) : Option NodeId × Tree :=
  let siblings := tree.children parent
  match siblings[index]? with
  | none => (none, tree)
  | some old => (some old, (tree.setChildren parent (siblings.eraseIdx index)).detach old)

def replace (tree : Tree) (parent : NodeId) (index : Nat) (node : Node) : Option NodeId × Tree :=
  let siblings := tree.children parent
  match siblings[index]? with
  | none => (none, tree)
  | some old =>
    (some tree.size,
      ((tree.alloc parent node).setChildren parent (siblings.set index tree.size)).detach old)

/-! ### Walks -/

def ancestorsWithin (tree : Tree) : Nat → NodeId → List NodeId
  | 0, _ => []
  | fuel + 1, id =>
    match tree.parent? id with
    | none => []
    | some parent => parent :: ancestorsWithin tree fuel parent

def ancestors (tree : Tree) (id : NodeId) : List NodeId := tree.ancestorsWithin id id

def preorderWith (tree : Tree) : Nat → NodeId → List NodeId → List NodeId
  | 0, _, after => after
  | depth + 1, id, after => id :: (tree.children id).foldr (preorderWith tree depth) after

def preorder (tree : Tree) (id : NodeId) : List NodeId := tree.preorderWith tree.size id []

def childIndex? (tree : Tree) (id : NodeId) : Option Nat :=
  (tree.parent? id).bind fun parent => (tree.children parent).idxOf? id

def enclosingClass? (tree : Tree) (id : NodeId) : Option NodeId :=
  (tree.ancestors id).find? fun above => (tree.node above).kind.isClassLike

/-- The node that holds the imports a node sees: itself when it is a namespace, else the namespace
around it, else the file. -/
def importScope (tree : Tree) (id : NodeId) : NodeId :=
  if (tree.node id).kind = .scope then id else (tree.node id).scope.getD root

def importsFor (tree : Tree) (id : NodeId) : ImportTable := (tree.node (tree.importScope id)).imports

def scopeName (tree : Tree) (id : NodeId) : Text :=
  match (tree.node id).scope with
  | none => []
  | some scope => (tree.node scope).name

def ownName (node : Node) : Text :=
  if node.kind = .function ∧ node.flags.closure then "\x7bclosure\x7d"
  else if node.kind.isClassLike ∧ node.name = [] then "class@anonymous"
  else node.name

def inScope (scope name : Text) : Text := if scope = [] then name else scope ++ '\\' :: name

def qualifiedNameWithin (tree : Tree) : Nat → NodeId → Text
  | 0, _ => []
  | fuel + 1, id =>
    let node := tree.node id
    let plain := inScope (tree.scopeName id) (ownName node)
    if node.kind = .scope then node.name
    else if node.flags.method then
      match tree.enclosingClass? id with
      | some owner => qualifiedNameWithin tree fuel owner ++ "::".toList ++ ownName node
      | none => plain
    else plain

/-- The qualified name of a node: of a method its class and its name, of anything else its
namespace and its name, of a namespace its own name. -/
def qualifiedName (tree : Tree) (id : NodeId) : Text := tree.qualifiedNameWithin (id + 1) id

def syntheticLines (tree : Tree) : List Nat :=
  let lines := (tree.preorder root).filterMap fun id =>
    if (tree.node id).flags.synthetic then (tree.node id).lines.start else none
  (lines.mergeSort fun left right => decide (left ≤ right)).eraseReps

end Tree
end PhpWeave
