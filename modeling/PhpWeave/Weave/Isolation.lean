import PhpWeave.Weave.Weaver

/-!
Isolation of declarations: at the level of the file and of its namespaces only tags, imports,
namespaces, named functions and `declare` directives stay; everything else is reduced to its line
feeds. A tag that prints opens plain PHP code instead. A directive with a block keeps its braces.
-/

namespace PhpWeave

structure Isolation where
  deriving DecidableEq, Repr

namespace Isolation

def braceBalance (code : Text) : Int :=
  (scan .php code).foldl (fun balance token =>
    match token.kind with
    | .openBrace => balance + 1
    | .closeBrace => balance - 1
    | _ => balance) 0

def silentTag (tag : Text) : Text := "<?php ".toList ++ tag.drop 3

def isPrintingTag (tag : Text) : Bool := ['<', '?', '='].isPrefixOf tag

/-- How deep the plain code of a level is in braces, and the depths at which the blocks of kept
directives begin, innermost first. -/
structure Depth where
  current : Int := 0
  directives : List Int := []

/-- What becomes of a child. -/
inductive Fate where
  | keep
  /-- Keep and isolate the declarations inside. -/
  | descend
  /-- Keep as a tag that does not print. -/
  | silence
  /-- Reduce to line feeds. -/
  | clear
  /-- Reduce to line feeds and the closing brace of a directive. -/
  | closeDirective

def fateByKind (tree : Tree) (id : NodeId) : Fate :=
  let node := tree.node id
  match node.kind with
  | .scope => .descend
  | .imports => .keep
  | .function => if node.flags.closure then .clear else .keep
  | .code =>
    if node.isTag then if isPrintingTag node.body then .silence else .keep else .clear
  | _ => .clear

def fate (tree : Tree) (depth : Depth) (id : NodeId) : Fate × Depth :=
  let node := tree.node id
  if node.kind = .code ∧ node.flags.inPhp ∧ ¬ node.isTag then
    let balance := braceBalance node.body
    let current := depth.current + balance
    if tree.isDirective id then
      (.keep, ⟨current, if balance > 0 then depth.current :: depth.directives else depth.directives⟩)
    else match depth.directives with
      | [] => (fateByKind tree id, ⟨current, []⟩)
      | begun :: outer =>
        if current ≤ begun then (.closeDirective, ⟨current, outer⟩)
        else (fateByKind tree id, ⟨current, begun :: outer⟩)
  else (fateByKind tree id, depth)

def putCode (tree : Tree) (parent : NodeId) (index : Nat) (code : Text) : Tree :=
  (tree.replace parent index (Node.code code)).2

/-- Does to a child what becomes of it; `inside` isolates the children of a namespace. -/
def settle (inside : Tree → NodeId → Tree) (tree : Tree) (parent : NodeId) (index : Nat)
    (id : NodeId) : Fate → Tree
  | .keep => tree
  | .descend => inside tree id
  | .silence => tree.update id fun node => { node with body := silentTag node.body }
  | .clear => putCode tree parent index (Text.newlinesOnly (tree.nodeText id))
  | .closeDirective =>
    putCode tree parent index (Text.newlinesOnly (tree.node id).body ++ ['\x7d'])

def isolateChildren (inside : Tree → NodeId → Tree) (parent : NodeId) :
    Tree → Depth → Nat → List NodeId → Tree
  | tree, _, _, [] => tree
  | tree, depth, index, id :: rest =>
    let fated := fate tree depth id
    isolateChildren inside parent (settle inside tree parent index id fated.1) fated.2 (index + 1)
      rest

def isolateWithin : Nat → Tree → NodeId → Tree
  | 0, tree, _ => tree
  | depth + 1, tree, parent =>
    isolateChildren (isolateWithin depth) parent tree {} 0 (tree.children parent)

def isolate (tree : Tree) : Tree := isolateWithin tree.size tree Tree.root

instance : Weaver Isolation where
  weave isolation tree _ := (isolation, isolate tree)

end Isolation
end PhpWeave
