import PhpWeave.Text.Basic

/-!
Paths as texts with slashes. A path is cut into parts, doubled slashes and inner dots counting for
nothing; the parent of a path is the path as written up to its last part that counts. Only Unix paths
in UTF-8 are told: no part is a drive or another prefix, and every path has a text.
-/

namespace PhpWeave

abbrev Path := Text

namespace Path

inductive Part where
  /-- The slash an absolute path begins with. -/
  | root
  /-- A dot a relative path begins with. -/
  | here
  /-- Two dots. -/
  | up
  | name (text : Text)
  deriving DecidableEq, Repr

def part? (piece : Text) : Option Part :=
  if piece = [] ∨ piece = ['.'] then none
  else if piece = ['.', '.'] then some .up
  else some (.name piece)

def parts (path : Path) : List Part :=
  match path with
  | '/' :: rest => .root :: (Text.splitAt '/' rest).filterMap part?
  | ['.'] => [.here]
  | '.' :: '/' :: rest => .here :: (Text.splitAt '/' rest).filterMap part?
  | path => (Text.splitAt '/' path).filterMap part?

/-- The length of what stands in front of the pieces of a path: the slash of an absolute path, or
the dot that a relative one begins with. -/
def headLength : Path → Nat
  | '/' :: _ => 1
  | ['.'] => 1
  | '.' :: '/' :: _ => 1
  | _ => 0

def isIdle (piece : Text) : Bool := piece.isEmpty || piece == ['.']

/-- The path without its last part; none for the empty path and the root. -/
def parent? (path : Path) : Option Path :=
  let head := path.take (headLength path)
  let pieces := (Text.splitAt '/' (path.drop (headLength path))).reverse
  match pieces.dropWhile isIdle with
  | [] => if head = ['.'] then some [] else none
  | _ :: earlier => some (head ++ Text.joinWith ['/'] (earlier.dropWhile isIdle).reverse)

def isAbsolute (path : Path) : Bool := path.head? == some '/'

/-- Puts one path after another. An absolute path starts again at the root. -/
def push (path more : Path) : Path :=
  if isAbsolute more then more
  else if path.isEmpty || path.getLast? == some '/' then path ++ more
  else path ++ '/' :: more

end Path
end PhpWeave
