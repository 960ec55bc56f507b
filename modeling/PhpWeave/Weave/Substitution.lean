import PhpWeave.Weave.Reference

/-!
The registry that answers for redirected references when the code runs: a substitute for a name,
whatever its case. Names are registered without leading backslashes. A function called without a
qualifier falls back to its global name, as PHP's own calls do.
-/

namespace PhpWeave

/-- Why a name cannot be substituted: it looks at the frame of its caller. -/
structure UnsupportedTarget where
  name : Text
  deriving DecidableEq, Repr

def UnsupportedTarget.message (target : UnsupportedTarget) : Text :=
  '\x60' :: target.name ++ "\x60 cannot be patched".toList

/-- Substitutes by complete name in small letters. -/
structure Substitutions where
  entries : List (Text × Text) := []
  deriving DecidableEq, Repr

namespace Substitutions

def put (key substitute : Text) : List (Text × Text) → List (Text × Text)
  | [] => [(key, substitute)]
  | entry :: rest =>
    if entry.1 = key then (key, substitute) :: rest else entry :: put key substitute rest

def lookup? (substitutions : Substitutions) (name : Text) : Option Text :=
  substitutions.entries.lookup (Text.lower name)

def size (substitutions : Substitutions) : Nat := substitutions.entries.length

def register (substitutions : Substitutions) (name substitute : Text) :
    Except UnsupportedTarget Substitutions :=
  let name := Text.dropLeadingSeparators name
  if Reserved.frameReaders.contains (Text.lower name) then .error ⟨name⟩
  else .ok ⟨put (Text.lower name) substitute substitutions.entries⟩

def has (substitutions : Substitutions) (name : Text) : Bool :=
  (substitutions.lookup? (Text.dropLeadingSeparators name)).isSome

def bareScope (scope : Text) : Text :=
  ((Text.dropLeadingSeparators scope).reverse.dropWhile (· == '\\')).reverse

def complete (scope : Option Text) (name : Text) : Text :=
  match scope with
  | none | some [] => name
  | some scope => bareScope scope ++ '\\' :: name

/-- The name to use for a name written in a namespace: its substitute, for an unqualified function
the substitute of its global name, else its complete name. -/
def resolve (substitutions : Substitutions) (scope : Option Text) (name : Text)
    (isFunction : Bool) : Text :=
  let name := Text.dropLeadingSeparators name
  let full := complete scope name
  let fallback :=
    if isFunction && !name.contains '\\' then substitutions.lookup? name else none
  ((substitutions.lookup? full).or fallback).getD full

end Substitutions
end PhpWeave
