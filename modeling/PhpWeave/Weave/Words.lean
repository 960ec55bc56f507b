import PhpWeave.Weave.Weaver

/-!
Three weavers that change single words. A hook for `exit` and `die` is called in place of the word,
with the arguments it has or with none; members and functions of that name are left alone. Pinned
paths stand for `__FILE__` and `__DIR__` as strings, so that code which is loaded from another place
still sees the place it was written in; without a path nothing changes. Unsealing takes the word
`final` out of the header of every class that has it, together with the white space after it; methods
keep theirs.
-/

namespace PhpWeave

/-! ### Exits -/

/-- A hook that is called where the program would end. -/
structure ExitHook where
  hook : Text := "\\Kahlan\\Plugin\\Quit::quit"
  deriving DecidableEq, Repr

namespace ExitHook

def precedesName : TokenKind → Bool
  | .arrow | .nullsafeArrow | .doubleColon | .kwFunction => true
  | _ => false

/-- What stands for a token: the hook for the word in its role, with parentheses when it has none. -/
def choose (exitHook : ExitHook) (tokens : Tokens) (index : Nat) : Option Text :=
  if tokens.isAt index .kwExit && !((tokens.prevKind index).map precedesName).getD false then
    if tokens.nextKind index = some .openParen then some exitHook.hook
    else some (exitHook.hook ++ ['(', ')'])
  else none

instance : Weaver ExitHook where
  weave exitHook tree _ := (exitHook, tree.editCode exitHook.choose)

end ExitHook

/-! ### Paths -/

/-- Pins the path of the file at hand, or always the same one. -/
structure PathPin where
  fixed : Option Path := none
  deriving DecidableEq, Repr

namespace PathPin

def escaped (c : Char) : Text := if c = '\\' ∨ c = '\'' then ['\\', c] else [c]

def literal (text : Text) : Text := '\'' :: text.flatMap escaped ++ ['\'']

def choose (path : Path) (tokens : Tokens) (index : Nat) : Option Text :=
  if tokens.isAt index .magicDir then some (literal (path.parent?.getD []))
  else if tokens.isAt index .magicFile then some (literal path)
  else none

instance : Weaver PathPin where
  weave pin tree file :=
    match pin.fixed.or file with
    | none => (pin, tree)
    | some path => (pin, tree.editCode (choose path))

end PathPin

/-! ### Sealed classes -/

/-- An unsealing, with the number of classes unsealed in the last run. -/
structure Unsealing where
  count : Nat := 0
  deriving DecidableEq, Repr

namespace Unsealing

def afterSeal : List Token → List Token
  | [] => []
  | token :: rest => if token.kind = .whitespace then rest else token :: rest

/-- A header without its first `final`; none when it has none. -/
def unsealed? (header : Text) : Option Text :=
  let tokens := scan .php header
  let before := tokens.takeWhile (·.kind ≠ .kwFinal)
  match tokens.dropWhile (·.kind ≠ .kwFinal) with
  | [] => none
  | _ :: rest => some (Token.textOf before ++ Token.textOf (afterSeal rest))

def targets (tree : Tree) : List NodeId :=
  (tree.preorder Tree.root).filter fun id =>
    (tree.node id).kind.isClassLike && (tree.node id).flags.sealed

def unsealNode (state : Unsealing × Tree) (id : NodeId) : Unsealing × Tree :=
  match unsealed? (state.2.node id).body with
  | none => state
  | some header =>
    (⟨state.1.count + 1⟩,
      state.2.update id fun node =>
        { node with body := header, flags := { node.flags with sealed := false } })

instance : Weaver Unsealing where
  weave _ tree _ := (targets tree).foldl unsealNode (⟨0⟩, tree)

end Unsealing

end PhpWeave
