import PhpWeave.Node.Tree
import PhpWeave.Token.Basic

/-!
The text of a tree: of each node its body, the texts of its children in order, and its close.
Nothing is checked, so a tree without a closing brace prints without one. The printer writes in
front of a text that is already there, which puts every character down once.

The lines of a file may be listed on the file node, each with the nodes that cover it. The line dump
of a tree has a row for each listed line with its number, the letters of these nodes, outermost first,
and its text.
-/

namespace PhpWeave.Tree

/-- The text of a node, down to a depth, in front of what follows it. -/
def textWith (tree : Tree) : Nat → NodeId → Text → Text
  | 0, _, after => after
  | depth + 1, id, after =>
    (tree.node id).body ++
      (tree.children id).foldr (textWith tree depth) ((tree.node id).close ++ after)

def nodeText (tree : Tree) (id : NodeId) : Text := tree.textWith tree.size id []

def source (tree : Tree) : Text := tree.nodeText root

/-! ### Listed lines -/

/-- The number of the line at a position: lines are counted from 1 on in 32 bits, and begin again. -/
def lineNumber (position : Nat) : Nat := (position + 1) % (lineLimit + 1)

def listLine (line : LineContent) : List LineContent → List LineContent
  | [] => [line]
  | other :: rest =>
    if other.number < line.number then other :: listLine line rest
    else if other.number = line.number then line :: rest
    else line :: other :: rest

def lineContent (tree : Tree) (source : Text) : List LineContent :=
  let ids := tree.preorder root
  let content (entry : Text × Nat) : LineContent :=
    let number := lineNumber entry.2
    ⟨number, entry.1, ids.filter fun id => (tree.node id).lines.covers number⟩
  ((Text.lines source).zipIdx.map content).foldl (fun listed line => listLine line listed) []

def withContent (tree : Tree) (source : Text) : Tree :=
  let content := tree.lineContent source
  tree.update root fun node => { node with lines := { node.lines with content := content } }

/-! ### Line dumps -/

def dumpNumberWidth : Nat := 6

def dumpLetterWidth : Nat := 25

def dumpRow (tree : Tree) (line : LineContent) : Text :=
  let letters := Text.joinWith [','] (line.nodes.map fun id => [(tree.node id).letter])
  '#' :: Text.padded dumpNumberWidth (Text.ofNat line.number) ++
    '[' :: Text.centred dumpLetterWidth letters ++ "] ".toList ++ line.body ++ ['\n']

def dump (tree : Tree) : Text := (tree.node root).lines.content.flatMap tree.dumpRow

end PhpWeave.Tree
