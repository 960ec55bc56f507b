import PhpWeave.Grammar.Outline
import PhpWeave.Path

/-!
What a weaver can do: change the tree of a file, pick another file for a class, and turn classes
away. A weaver is a value that may count what it did; `weave` gives the counts of that run only.

Weavers edit code nodes. The text of a node is cut into tokens by itself, some tokens are put down
differently, and the rest stays as it is. Strings, comments and tags are nodes of their own, so no
edit can reach them. They also put new children in, each on the line that it would begin on: one more
than the line feeds of everything in front of it in the text of the file.

A chain has weavers under names and applies them in the order in which their names first came. Adding
under a known name changes the weaver and not the order.
-/

namespace PhpWeave

/-- The operations of a weaver. -/
class Weaver (ω : Type) where
  /-- Changes the tree of a file, whose path may be known. -/
  weave : ω → Tree → Option Path → ω × Tree
  /-- The file to load for a class, given the one that was found. -/
  locate : ω → Text → Path → Path := fun _ _ found => found
  /-- Whether the file of a class is to be woven. -/
  accepts : ω → Text → Bool := fun _ _ => true

/-! ### Edits inside code nodes -/

namespace Fragment

def tokens (code : Text) : Tokens := (scan .php code).toArray

def put (entry : Token × Option Text) : Text := entry.2.getD entry.1.text

/-- The code with some tokens replaced; none when no token is. -/
def replace (choose : Tokens → Nat → Option Text) (code : Text) : Option Text :=
  let tokens := tokens code
  let choices := (List.range tokens.size).map (choose tokens)
  if choices.any Option.isSome then some ((tokens.toList.zip choices).flatMap put) else none

end Fragment

namespace Tokens

def nextKind (tokens : Tokens) (index : Nat) : Option TokenKind :=
  (tokens.nextSignificant (index + 1)).bind tokens.kindAt

end Tokens

namespace Tree

def editableNodes (tree : Tree) : List NodeId :=
  (tree.preorder root).filter fun id => (tree.node id).isEditable

def editNode (choose : Tokens → Nat → Option Text) (tree : Tree) (id : NodeId) : Tree :=
  match Fragment.replace choose (tree.node id).body with
  | none => tree
  | some body => tree.update id fun node => { node with body := body }

def editCode (choose : Tokens → Nat → Option Text) (tree : Tree) : Tree :=
  tree.editableNodes.foldl (editNode choose) tree

def isDirective (tree : Tree) (id : NodeId) : Bool :=
  let node := tree.node id
  let tokens := Fragment.tokens node.body
  node.isEditable &&
    (((tokens.nextSignificant 0).bind (tokens[·]?)).map fun token => token.isWord "declare").getD
      false

/-! ### Lines of new children -/

def newlinesIn (tree : Tree) (ids : List NodeId) : Nat :=
  (ids.map fun id => Text.newlines (tree.nodeText id)).foldr (· + ·) 0

/-- The line feeds in front of a node, given the nodes above it, nearest first: for each of them its
body and its children before the way down. -/
def newlinesBefore (tree : Tree) : NodeId → List NodeId → Nat
  | _, [] => 0
  | id, above :: rest =>
    newlinesBefore tree above rest + Text.newlines (tree.node above).body +
      tree.newlinesIn ((tree.children above).takeWhile (· ≠ id))

def placementLine (tree : Tree) (parent : NodeId) (index : Nat) : Nat :=
  min (tree.newlinesBefore parent (tree.ancestors parent) +
    Text.newlines (tree.node parent).body +
    tree.newlinesIn ((tree.children parent).take index) + 1) lineLimit

end Tree

/-! ### Chains -/

/-- Weavers under names, in order. -/
structure Chain (ω : Type) where
  entries : List (Text × ω) := []

namespace Chain

variable {ω : Type}

def names (chain : Chain ω) : List Text := chain.entries.map Prod.fst

def length (chain : Chain ω) : Nat := chain.entries.length

def put (name : Text) (weaver : ω) : List (Text × ω) → List (Text × ω)
  | [] => [(name, weaver)]
  | entry :: rest => if entry.1 = name then (name, weaver) :: rest else entry :: put name weaver rest

def add (chain : Chain ω) (name : Text) (weaver : ω) : Chain ω := ⟨put name weaver chain.entries⟩

def get? (chain : Chain ω) (name : Text) : Option ω := chain.entries.lookup name

def has (chain : Chain ω) (name : Text) : Bool := chain.names.contains name

def remove (chain : Chain ω) (name : Text) : Chain ω :=
  ⟨chain.entries.eraseP fun entry => entry.1 = name⟩

def clear (_ : Chain ω) : Chain ω := {}

variable [Weaver ω]

def weaveAll : List (Text × ω) → Tree → Option Path → List (Text × ω) × Tree
  | [], tree, _ => ([], tree)
  | (name, weaver) :: rest, tree, file =>
    let woven := Weaver.weave weaver tree file
    let others := weaveAll rest woven.2 file
    ((name, woven.1) :: others.1, others.2)

def weaveTree (chain : Chain ω) (tree : Tree) (file : Option Path) : Chain ω × Tree :=
  let woven := weaveAll chain.entries tree file
  (⟨woven.1⟩, woven.2)

/-- Outlines a source, runs every weaver and prints the tree. A source without an outline runs no
weaver. -/
def weave (chain : Chain ω) (source : Text) (file : Option Path) :
    Except BracketFault Text × Chain ω :=
  match Tree.parse false source with
  | .error fault => (.error fault, chain)
  | .ok tree =>
    let woven := chain.weaveTree tree file
    (.ok woven.2.source, woven.1)

def locate (chain : Chain ω) (className : Text) (found : Path) : Path :=
  chain.entries.foldl (fun path entry => Weaver.locate entry.2 className path) found

def accepts (chain : Chain ω) (className : Text) : Bool :=
  chain.entries.all fun entry => Weaver.accepts entry.2 className

end Chain
end PhpWeave
