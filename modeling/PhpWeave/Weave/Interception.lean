import PhpWeave.Weave.Weaver

/-!
Interception of functions: the body of every named function begins with a call of a hook, and what
the hook gives back is run in place of the body. The preamble stands on one line, so no line of the
file moves. Functions that never return and functions with an excluded name are left alone.
-/

namespace PhpWeave

/-- An interception: its hook, the tag in the names of its variables, and what it leaves out. -/
structure Interception where
  hook : Text := "\\Kahlan\\Plugin\\Pointcut::before"
  tag : Text := "KPOINTCUT"
  /-- Functions never intercepted, in any case. -/
  exemptNames : List Text := []
  /-- When there are any, only classes that begin with one of these are woven. -/
  included : List Text := []
  /-- Classes that begin with one of these are never woven. -/
  excluded : List Text := []
  /-- The number of functions intercepted in the last run. -/
  count : Nat := 0
  deriving DecidableEq, Repr

namespace Interception

def variableNamed (interception : Interception) (part : String) : Text :=
  "$__".toList ++ interception.tag ++ '_' :: part.toList ++ "__".toList

/-- How the function ends when the hook answers: a generator yields what the answer yields, a
function without a value only returns, and any other returns what the answer returns. -/
def bail (interception : Interception) (flags : Flags) : Text :=
  let arguments := interception.variableNamed "ARGS"
  let self := interception.variableNamed "SELF"
  let call := interception.variableNamed "RETURN" ++ '(' :: arguments ++ ", ".toList ++ self ++ [')']
  let key := interception.variableNamed "KEY"
  let value := interception.variableNamed "VALUE"
  if flags.generator then
    "foreach (".toList ++ call ++ " as ".toList ++ key ++ " => ".toList ++ value ++
      ") \x7b yield ".toList ++ key ++ " => ".toList ++ value ++ "; \x7d return;".toList
  else if flags.returnsVoid then call ++ "; return;".toList
  else "return ".toList ++ call ++ [';']

def preamble (interception : Interception) (flags : Flags) : Text :=
  let arguments := interception.variableNamed "ARGS"
  let self := interception.variableNamed "SELF"
  let owner := if flags.method then "isset($this) ? $this : get_called_class()" else "null"
  let name := if flags.method then "__METHOD__" else "__FUNCTION__"
  arguments ++ " = func_get_args(); ".toList ++ self ++ " = ".toList ++ owner.toList ++
    "; if (".toList ++ interception.variableNamed "RETURN" ++ " = ".toList ++ interception.hook ++
    '(' :: name.toList ++ ", ".toList ++ self ++ ", ".toList ++ arguments ++ ")) \x7b ".toList ++
    interception.bail flags ++ " \x7d".toList

def selects (interception : Interception) (node : Node) : Bool :=
  node.isNamedFunction && !node.flags.returnsNever &&
    !interception.exemptNames.any fun name => Text.sameWord name node.name

def intercept (interception : Interception) (tree : Tree) (id : NodeId) : Tree :=
  tree.insert id 0
    (Node.synthetic (interception.preamble (tree.node id).flags) (some (tree.placementLine id 0)))

def targets (interception : Interception) (tree : Tree) : List NodeId :=
  (tree.preorder Tree.root).filter fun id => interception.selects (tree.node id)

def accepts (interception : Interception) (className : Text) : Bool :=
  let name := Text.dropLeadingSeparators className
  let begins (start : Text) : Bool := start.isPrefixOf name
  !interception.excluded.any begins &&
    (interception.included.isEmpty || interception.included.any begins)

instance : Weaver Interception where
  weave interception tree _ :=
    let targets := interception.targets tree
    ({ interception with count := targets.length }, targets.foldl interception.intercept tree)
  accepts := accepts

end Interception
end PhpWeave
