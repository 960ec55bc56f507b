import PhpWeave.Token.Basic

/-!
Questions about a token list by position: the text of a range, the first token of some sort at or
after a position, the last one before it, and the partner of a bracket. Strings and comments are
single tokens, so brackets inside them are never counted.
-/

namespace PhpWeave

/-- Why no span of brackets stands at a token. -/
inductive BracketFault where
  /-- The end of the tokens came before the bracket opened on `line` was closed. -/
  | unbalanced (bracket : Bracket) (line : Nat)
  /-- The token at `index` does not open a span of the bracket asked for. -/
  | notOpening (expected : Bracket) (index : Nat) (found : Option Text)
  deriving DecidableEq, Repr

abbrev Tokens := Array Token

namespace Tokens

def kindAt (tokens : Tokens) (index : Nat) : Option TokenKind := tokens[index]?.map Token.kind

def isAt (tokens : Tokens) (index : Nat) (kind : TokenKind) : Bool :=
  tokens.kindAt index == some kind

def textBetween (tokens : Tokens) (first last : Nat) : Text :=
  Token.textOf (tokens.extract first last).toList

def firstWithin (p : Token → Bool) (tokens : Tokens) : Nat → Nat → Option Nat
  | 0, _ => none
  | count + 1, index =>
    match tokens[index]? with
    | none => none
    | some token => if p token then some index else firstWithin p tokens count (index + 1)

def firstFrom (p : Token → Bool) (tokens : Tokens) (index : Nat) : Option Nat :=
  firstWithin p tokens (tokens.size - index) index

def lastBelow (p : Token → Bool) (tokens : Tokens) : Nat → Option Nat
  | 0 => none
  | index + 1 =>
    if (tokens[index]?.map p).getD false then some index else lastBelow p tokens index

/-- The last position before `index` whose token has a property; an index past the end stands for
the end. -/
def lastBefore (p : Token → Bool) (tokens : Tokens) (index : Nat) : Option Nat :=
  lastBelow p tokens (min index tokens.size)

def isSignificant (token : Token) : Bool := !token.kind.isTrivia

def nextSignificant (tokens : Tokens) (index : Nat) : Option Nat :=
  tokens.firstFrom isSignificant index

def prevSignificant (tokens : Tokens) (index : Nat) : Option Nat :=
  tokens.lastBefore isSignificant index

def prevKind (tokens : Tokens) (index : Nat) : Option TokenKind :=
  (tokens.prevSignificant index).bind tokens.kindAt

/-- Among the next `count` positions the one where the brackets of a sort are in balance again,
`depth` being those open before it. -/
def balancedWithin (bracket : Bracket) (tokens : Tokens) : Nat → Nat → Nat → Option Nat
  | 0, _, _ => none
  | count + 1, depth, index =>
    match tokens[index]? with
    | none => none
    | some token =>
      if token.kind = bracket.opening then balancedWithin bracket tokens count (depth + 1) (index + 1)
      else if token.kind = bracket.closing then
        if depth ≤ 1 then some index
        else balancedWithin bracket tokens count (depth - 1) (index + 1)
      else balancedWithin bracket tokens count depth (index + 1)

def closing (bracket : Bracket) (tokens : Tokens) (index : Nat) : Except BracketFault Nat :=
  match tokens[index]? with
  | none => .error (.notOpening bracket index none)
  | some token =>
    if token.kind = bracket.opening then
      match balancedWithin bracket tokens (tokens.size - index) 0 index with
      | some last => .ok last
      | none => .error (.unbalanced bracket token.line)
    else .error (.notOpening bracket index (some token.text))

end Tokens
end PhpWeave
