import PhpWeave.Node.Basic
import PhpWeave.Token.Search

/-!
What the reader of a file reports: the constructs of the file in order, each with the tokens it is
made of. Together the ranges of the events cover every token of the file once, and the events that
enter a construct and leave it nest. How a tree is made of events is in `PhpWeave.Grammar.Outline`.

The state of a read through the tokens of a file. Constructs that are still open lie on a stack of
frames, over the file itself. Each frame counts the braces and parentheses opened inside it, so a
closing brace without a partner closes the frame and a semicolon outside parentheses ends a
statement. Tokens that belong to no construct yet are pending: a range that ends at the position of
the read and that becomes a code node at every end of a statement, before every construct and
around every literal.
-/

namespace PhpWeave

/-- One report of the reader. -/
inductive Event where
  /-- A node without children, made of the tokens from `first` through `last`. -/
  | leaf (node : Node) (first last : Nat)
  /-- A construct whose header is made of the tokens from `first` through `last`. -/
  | enter (node : Node) (first last : Nat)
  /-- The end of the construct entered last, whose final token is `last`. Its closing text is that
  token, or nothing when the construct has no end of its own. -/
  | leave (close : Text) (last : Nat)
  /-- The innermost function yields. -/
  | yields
  /-- Imports of the innermost namespace. -/
  | imports (entries : List (Text × Text))
  deriving Repr

/-- What a frame holds open. -/
inductive FrameKind where
  | file
  | scope (braced : Bool)
  | classLike
  | function
  deriving DecidableEq, Repr

/-- A construct that is open: its first token and the brackets open inside it. -/
structure Frame where
  kind : FrameKind
  first : Nat
  braces : Nat := 0
  parens : Nat := 0
  deriving DecidableEq, Repr

/-- The body of an arrow function: the token that ends it and the number of frames around it. -/
structure ArrowBody where
  stop : Nat
  depth : Nat
  deriving DecidableEq, Repr

/-- A read in progress. -/
structure Reader where
  /-- The innermost frame. -/
  top : Frame
  /-- The frames around it, innermost first, the file last. -/
  outer : List Frame
  /-- The first pending token. -/
  pending : Nat
  /-- The token to read next. -/
  pos : Nat
  /-- Arrow bodies met so far, latest first. -/
  arrows : List ArrowBody
  events : Array Event

namespace Reader

def start : Reader := ⟨{ kind := .file, first := 0 }, [], 0, 0, [], #[]⟩

def depth (reader : Reader) : Nat := reader.outer.length + 1

def atFileLevel (reader : Reader) : Bool :=
  match reader.top.kind with
  | .file | .scope _ => reader.top.braces == 0
  | _ => false

def atStatementStart (tokens : Tokens) (reader : Reader) (index : Nat) : Bool :=
  match tokens.nextSignificant reader.pending with
  | none => true
  | some first => index ≤ first

/-- Whether the innermost arrow body around a token was begun in the current frame. -/
def inArrowBody (reader : Reader) (index : Nat) : Bool :=
  match reader.arrows.find? fun body => index < body.stop with
  | none => false
  | some body => body.depth == reader.depth

def skipTo (reader : Reader) (index : Nat) : Reader := { reader with pos := index }

def skip (reader : Reader) : Reader := reader.skipTo (reader.pos + 1)

def report (reader : Reader) (event : Event) : Reader :=
  { reader with events := reader.events.push event }

def updateTop (reader : Reader) (change : Frame → Frame) : Reader :=
  { reader with top := change reader.top }

def openFrame (reader : Reader) (kind : FrameKind) (first : Nat) : Reader :=
  { reader with top := { kind := kind, first := first }, outer := reader.top :: reader.outer }

def closeFrame (reader : Reader) (close : Text) (last : Nat) : Reader :=
  match reader.outer with
  | [] => reader
  | next :: outer => { reader with top := next, outer := outer }.report (.leave close last)

def resumeAfter (reader : Reader) (last : Nat) : Reader :=
  { reader with pos := last + 1, pending := last + 1 }

/-- Code that coverage counts: outside the top level of classes, with something but braces. -/
def isCoverable (tokens : Tokens) (reader : Reader) (first stop : Nat) : Bool :=
  reader.top.kind ≠ .classLike &&
    (tokens.extract first stop).toList.any fun token =>
      !token.kind.isTrivia && token.kind ≠ .openBrace && token.kind ≠ .closeBrace

/-- Reports the pending tokens before `stop` as a code node. -/
def flush (tokens : Tokens) (reader : Reader) (stop : Nat) : Reader :=
  let flushed := { reader with pending := stop }
  if reader.pending < stop then
    let flags := { Flags.editableCode with coverable := isCoverable tokens reader reader.pending stop }
    let node := { Node.code (tokens.textBetween reader.pending stop) with flags := flags }
    flushed.report (.leaf node reader.pending (stop - 1))
  else flushed

/-- The first modifier of the run directly before a token, the token itself when there is none. A
run holds modifiers and white space and reaches back to the first pending token at most. -/
def modifierRun (tokens : Tokens) (pending : Nat) : Nat → Nat → Nat
  | 0, found => found
  | index + 1, found =>
    if index < pending then found
    else match tokens.kindAt index with
      | none => found
      | some kind =>
        if kind.isModifier then modifierRun tokens pending index index
        else if kind = .whitespace then modifierRun tokens pending index found
        else found

def modifierStart (tokens : Tokens) (reader : Reader) (index : Nat) : Nat :=
  modifierRun tokens reader.pending index index

def modifierFlags (tokens : Tokens) (first stop : Nat) : Flags :=
  let run := (tokens.extract first stop).toList
  { Flags.editableCode with
    sealed := run.any (·.kind = .kwFinal)
    abstracted := run.any (·.kind = .kwAbstract) }

end Reader

namespace Tokens

/-- Among the next `count` positions the first token of one of the kinds outside parentheses and
square brackets, `depth` of which are open. A closing one too many is let pass. -/
def outsideWithin (kinds : List TokenKind) (tokens : Tokens) : Nat → Nat → Nat → Option Nat
  | 0, _, _ => none
  | count + 1, depth, index =>
    match tokens.kindAt index with
    | none => none
    | some kind =>
      if depth = 0 ∧ kind ∈ kinds then some index
      else match kind with
        | .openParen | .openBracket => outsideWithin kinds tokens count (depth + 1) (index + 1)
        | .closeParen | .closeBracket => outsideWithin kinds tokens count (depth - 1) (index + 1)
        | _ => outsideWithin kinds tokens count depth (index + 1)

def firstOutside (kinds : List TokenKind) (tokens : Tokens) (index : Nat) : Option Nat :=
  outsideWithin kinds tokens (tokens.size - index) 0 index

/-- Among the next `count` positions the one that ends an expression: a semicolon, a comma or an end
of PHP code outside brackets, `depth` of which are open, or a closing bracket too many. -/
def expressionEndWithin (tokens : Tokens) : Nat → Nat → Nat → Option Nat
  | 0, _, _ => none
  | count + 1, depth, index =>
    match tokens.kindAt index with
    | none => none
    | some kind =>
      match kind with
      | .openParen | .openBracket | .openBrace =>
        expressionEndWithin tokens count (depth + 1) (index + 1)
      | .closeParen | .closeBracket | .closeBrace =>
        if depth = 0 then some index else expressionEndWithin tokens count (depth - 1) (index + 1)
      | .semicolon | .comma | .closeTag =>
        if depth = 0 then some index else expressionEndWithin tokens count depth (index + 1)
      | _ => expressionEndWithin tokens count depth (index + 1)

def expressionEnd (tokens : Tokens) (index : Nat) : Nat :=
  (expressionEndWithin tokens (tokens.size - index) 0 index).getD tokens.size

/-- Whether a member operator stands in front of a token, which makes the token a member name. -/
def isMemberName (tokens : Tokens) (index : Nat) : Bool :=
  ((tokens.prevKind index).map TokenKind.isMemberAccess).getD false

def lineAt (tokens : Tokens) (index : Nat) : Nat := (tokens[index]?.map Token.line).getD 0

end Tokens
end PhpWeave
