import PhpWeave.Text.Quoted
import PhpWeave.Token.Scan
import PhpWeave.Token.Search

/-!
A token list with a cursor. The cursor stands on a token or just past the last one. A single step
moves first and then tells what it landed on; a search by kind tells the text it walked over, the
token it stopped at included, and leaves the cursor alone when it finds nothing.
-/

namespace PhpWeave

def BracketFault.message : BracketFault → Text
  | .unbalanced bracket line =>
    "unbalanced \x60".toList ++ [bracket.symbol] ++ "\x60 opened on line ".toList ++
      Text.ofNat line
  | .notOpening expected index found =>
    "expected \x60".toList ++ [expected.symbol] ++ "\x60 at token ".toList ++ Text.ofNat index ++
      ", found ".toList ++
      match found with
      | none => "None".toList
      | some text => "Some(".toList ++ Text.quoted text ++ ")".toList

/-- Tokens and a position among them. -/
structure TokenStream where
  tokens : Tokens
  cursor : Nat

namespace TokenStream

def ofText (mode : Mode) (text : Text) : TokenStream := ⟨(scan mode text).toArray, 0⟩

def count (stream : TokenStream) : Nat := stream.tokens.size

def valid (stream : TokenStream) : Bool := stream.cursor < stream.count

def current? (stream : TokenStream) : Option Token := stream.tokens[stream.cursor]?

def seek (stream : TokenStream) (index : Nat) : TokenStream :=
  { stream with cursor := min index stream.count }

def rewind (stream : TokenStream) : TokenStream := { stream with cursor := 0 }

def next (stream : TokenStream) : Option Token × TokenStream :=
  let moved := if stream.valid then { stream with cursor := stream.cursor + 1 } else stream
  (moved.current?, moved)

def prev (stream : TokenStream) : Option Token × TokenStream :=
  match stream.cursor with
  | 0 => (none, stream)
  | index + 1 =>
    let moved := { stream with cursor := index }
    (moved.current?, moved)

/-- Walks forward from a position, over `count` tokens at most, to one of some kinds, and tells the
text walked over and where the walk ends. The texts on the way are kept with the last one in front. -/
def walkForward (kinds : List TokenKind) (tokens : Tokens) :
    Nat → Nat → List Text → Option (Text × Nat)
  | 0, _, _ => none
  | count + 1, index, walked =>
    match tokens[index]? with
    | none => none
    | some token =>
      let walked := token.text :: walked
      if kinds.contains token.kind then some (walked.reverse.flatten, index)
      else walkForward kinds tokens count (index + 1) walked

/-- Walks back from in front of a position to a token of one of some kinds. The texts on the way
come to stand in source order by themselves. -/
def walkBack (kinds : List TokenKind) (tokens : Tokens) : Nat → List Text → Option (Text × Nat)
  | 0, _ => none
  | index + 1, walked =>
    match tokens[index]? with
    | none => none
    | some token =>
      let walked := token.text :: walked
      if kinds.contains token.kind then some (walked.flatten, index)
      else walkBack kinds tokens index walked

/-- Walks forward to the next token of one of the kinds. The text runs from the token after the
cursor through the one stopped at. -/
def nextUntil (stream : TokenStream) (kinds : List TokenKind) : Option Text × TokenStream :=
  match walkForward kinds stream.tokens stream.count (stream.cursor + 1) [] with
  | none => (none, stream)
  | some (text, index) => (some text, { stream with cursor := index })

/-- Walks back to the last token of one of the kinds. The text runs from the token stopped at up to
the one under the cursor, in source order. -/
def prevUntil (stream : TokenStream) (kinds : List TokenKind) : Option Text × TokenStream :=
  match walkBack kinds stream.tokens stream.cursor [] with
  | none => (none, stream)
  | some (text, index) => (some text, { stream with cursor := index })

/-- Walks from an opening bracket under the cursor to the bracket that closes it. The text runs
through both. -/
def matching (stream : TokenStream) (bracket : Bracket) :
    Except BracketFault Text × TokenStream :=
  match stream.tokens.closing bracket stream.cursor with
  | .error fault => (.error fault, stream)
  | .ok last =>
    (.ok (stream.tokens.textBetween stream.cursor (last + 1)), { stream with cursor := last })

end TokenStream
end PhpWeave
