import PhpWeave.Path
import PhpWeave.Text.Utf8

/-!
What the cache and the loader need of a place that keeps files: when a path was changed, its bytes,
and ways to write a file, to make directories and to remove a directory with all that is in it. An
operation that fails says why and may still have changed the volume. Which operations succeed is up
to the volume.
-/

namespace PhpWeave

/-- Why an operation on a path failed. -/
inductive FileError where
  | missing
  | alreadyThere
  | notDirectory
  | isDirectory
  | notEmpty
  | inUse
  | notAllowed
  | notText
  deriving DecidableEq, Repr

def FileError.message : FileError → Text
  | .missing => "No such file or directory (os error 2)"
  | .alreadyThere => "File exists (os error 17)"
  | .notDirectory => "Not a directory (os error 20)"
  | .isDirectory => "Is a directory (os error 21)"
  | .notEmpty => "Directory not empty (os error 39)"
  | .inUse => "Device or resource busy (os error 16)"
  | .notAllowed => "Invalid argument (os error 22)"
  | .notText => "stream did not contain valid UTF-8"

/-- The operations of a volume. -/
class Volume (σ : Type) where
  /-- When a path was changed last; none when there is nothing at it. -/
  changed? : σ → Path → Option Nat
  /-- The bytes of a file. -/
  read : σ → Path → Except FileError Bytes
  /-- Gives a file new bytes, and makes it when it is not there. -/
  write : σ → Path → Bytes → Except FileError Unit × σ
  /-- Makes a directory and those above it; one that is there already is fine. -/
  makeDirectories : σ → Path → Except FileError Unit × σ
  /-- Removes a directory and everything in it. -/
  removeTree : σ → Path → Except FileError Unit × σ

namespace Volume

variable {σ : Type} [Volume σ]

def readText (volume : σ) (path : Path) : Except FileError Text :=
  match read volume path with
  | .error failure => .error failure
  | .ok bytes =>
    match Utf8.decode bytes with
    | none => .error .notText
    | some text => .ok text

def has (volume : σ) (path : Path) : Bool := (changed? volume path).isSome

end Volume
end PhpWeave
