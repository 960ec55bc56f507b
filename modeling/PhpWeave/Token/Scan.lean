import PhpWeave.Token.Basic
import PhpWeave.Token.Leap

/-!
Scanning: cutting a text into tokens. A scan starts outside PHP code, as a file does, or inside, as
a fragment of a file does. Open tags and close tags switch between the two. Apart from that and
the line, the only thing a scan remembers is whether the last token other than trivia was an arrow,
after which keywords are plain names. Strings, comments, heredocs and the text outside PHP code go
as far as a leap from their first character leads. Scanning never fails.
-/

namespace PhpWeave

/-- Whether a scan is outside the tags or between them. -/
inductive Mode where
  | html
  | php
  deriving DecidableEq, Inhabited, Repr

namespace Scan

open Lexeme

def htmlLexeme : Text → TokenKind × Nat
  | [] => (.inlineHtml, 0)
  | c :: rest => (openTag? (c :: rest)).getD (.inlineHtml, Leap.html (c :: rest) 0)

def closeTag (afterTag : Text) : Nat := 2 + lineBreak afterTag

/-- The kind and the length of the token at three angle brackets: a heredoc when a head follows,
else an operator. -/
def heredocLexeme (text : Text) : TokenKind × Nat :=
  match heredocHead? (text.drop 3) with
  | some head => (.heredoc, Leap.heredoc head text 0)
  | none => operator text

/-- The kind of a bracket or a separator, each of which is a token by itself. -/
def punctuation? (c : Char) : Option TokenKind :=
  if c == '(' then some .openParen
  else if c == ')' then some .closeParen
  else if c == '[' then some .openBracket
  else if c == ']' then some .closeBracket
  else if c == '\x7b' then some .openBrace
  else if c == '\x7d' then some .closeBrace
  else if c == ';' then some .semicolon
  else if c == ',' then some .comma
  else none

def phpLexeme (afterArrow : Bool) : Text → TokenKind × Nat
  | [] => (.unknown, 0)
  | c :: rest =>
    if isSpace c then (.whitespace, run isSpace (c :: rest))
    else if c == '?' && startsWhere (· == '>') rest then (.closeTag, closeTag (rest.drop 1))
    else if c == '#' then
      if startsWhere (· == '[') rest then (.attributeOpen, 2)
      else (.comment, Leap.lineComment (c :: rest) 0)
    else if c == '/' && startsWhere (· == '/') rest then (.comment, Leap.lineComment (c :: rest) 0)
    else if c == '/' && startsWhere (· == '*') rest then
      (blockCommentKind (rest.drop 1), Leap.blockComment (c :: rest) 0)
    else if isQuote c then (.quotedString, Leap.quoted c (c :: rest) 0)
    else if ['<', '<', '<'].isPrefixOf (c :: rest) then heredocLexeme (c :: rest)
    else if c == '$' then
      if startsWhere isNameStart rest then (.variableName, 1 + run isNameChar rest) else (.dollar, 1)
    else if c.isDigit || (c == '.' && startsWhere Char.isDigit rest) then
      (.numberLiteral, number (c :: rest))
    else if c == '\\' then
      if startsWhere isNameStart rest then (.fullyQualifiedName, 1 + name rest) else (.separator, 1)
    else if isNameStart c then (nameKind afterArrow (c :: rest), name (c :: rest))
    else match punctuation? c with
      | some kind => (kind, 1)
      | none => operator (c :: rest)

/-- What a scan remembers between tokens. -/
structure State where
  mode : Mode
  afterArrow : Bool
  line : Nat
  deriving DecidableEq, Repr

def State.start (mode : Mode) : State := ⟨mode, false, 1⟩

def State.lexeme (state : State) (text : Text) : TokenKind × Nat :=
  match state.mode with
  | .html => htmlLexeme text
  | .php => phpLexeme state.afterArrow text

def modeAfter (mode : Mode) : TokenKind → Mode
  | .openTag | .openTagWithEcho => .php
  | .closeTag => .html
  | _ => mode

/-- What a scan remembers after a token. The line stays at its limit once it gets there. -/
def State.after (state : State) (token : Token) : State where
  mode := modeAfter state.mode token.kind
  afterArrow :=
    if token.kind.isTrivia then state.afterArrow
    else token.kind == .arrow || token.kind == .nullsafeArrow
  line := min (state.line + Text.newlines token.text) lineLimit

def State.token (state : State) (text : Text) : Token :=
  let found := state.lexeme text
  ⟨found.1, text.take found.2, state.line⟩

def tokensWithin : Nat → State → Text → List Token
  | 0, _, _ => []
  | _ + 1, _, [] => []
  | fuel + 1, state, c :: rest =>
    let token := state.token (c :: rest)
    token :: tokensWithin fuel (state.after token) ((c :: rest).drop token.text.length)

end Scan

/-- The tokens of a text. Each takes a character at least, so there are no more tokens than
characters. -/
def scan (mode : Mode) (text : Text) : List Token :=
  Scan.tokensWithin text.length (Scan.State.start mode) text

end PhpWeave
