import PhpWeave.Weave.Interception
import PhpWeave.Weave.Isolation
import PhpWeave.Weave.Redirection
import PhpWeave.Weave.Words

/-!
The weavers of this library as one type, so that a chain can hold them side by side.
-/

namespace PhpWeave

/-- One of the six weavers. -/
inductive StandardWeaver where
  | interception (weaver : Interception)
  | redirection (weaver : Redirection)
  | unsealing (weaver : Unsealing)
  | exitHook (weaver : ExitHook)
  | pathPin (weaver : PathPin)
  | isolation (weaver : Isolation)

namespace StandardWeaver

def count : StandardWeaver → Option Nat
  | .interception weaver => some weaver.count
  | .redirection weaver => some weaver.count
  | .unsealing weaver => some weaver.count
  | .exitHook _ | .pathPin _ | .isolation _ => none

def weave (weaver : StandardWeaver) (tree : Tree) (file : Option Path) : StandardWeaver × Tree :=
  match weaver with
  | .interception weaver => (Weaver.weave weaver tree file).map .interception id
  | .redirection weaver => (Weaver.weave weaver tree file).map .redirection id
  | .unsealing weaver => (Weaver.weave weaver tree file).map .unsealing id
  | .exitHook weaver => (Weaver.weave weaver tree file).map .exitHook id
  | .pathPin weaver => (Weaver.weave weaver tree file).map .pathPin id
  | .isolation weaver => (Weaver.weave weaver tree file).map .isolation id

def accepts (weaver : StandardWeaver) (className : Text) : Bool :=
  match weaver with
  | .interception weaver => weaver.accepts className
  | _ => true

instance : Weaver StandardWeaver where
  weave := weave
  accepts := accepts

end StandardWeaver
end PhpWeave
