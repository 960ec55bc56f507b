import PhpWeave.Token.Basic

/-!
Lexemes: for each rule of PHP's token grammar, how many characters a token takes from the front of
the text that remains. Nothing is ever refused. A string, a comment or a heredoc whose end is
missing takes all that remains, and a character that no rule covers is a token by itself. Every
measure recurs on the remaining text one character at a time; a scan finds the ends of the tokens
that may be long by the jumps of `PhpWeave.Token.Leap`, which agree with the measures here. Which
rule applies to a mode, and how the measures combine to a whole scan, is in `PhpWeave.Token.Scan`.
-/

namespace PhpWeave.Lexeme

def isNameStart (c : Char) : Bool := c.isAlpha || c == '_' || 0x80 ≤ c.val

def isNameChar (c : Char) : Bool := isNameStart c || c.isDigit

def isSpace (c : Char) : Bool :=
  c == ' ' || c == '\t' || c == '\n' || c == '\r' || c == '\x0b' || c == '\x0c'

def isIndent (c : Char) : Bool := c == ' ' || c == '\t'

def isDigitOrUnderscore (c : Char) : Bool := c.isDigit || c == '_'

/-- The digits after `0x`, `0b` or `0o`; which base is not checked. -/
def isHexDigitOrUnderscore (c : Char) : Bool :=
  c.isDigit || ('a' ≤ c && c ≤ 'f') || ('A' ≤ c && c ≤ 'F') || c == '_'

def startsWhere (p : Char → Bool) : Text → Bool
  | [] => false
  | c :: _ => p c

def run (p : Char → Bool) (text : Text) : Nat := (text.takeWhile p).length

/-! ### Names -/

/-- The length of a name with its qualified segments, once its first character is known to begin
a name: name characters, and a backslash wherever a name begins right after it. -/
def name : Text → Nat
  | [] => 0
  | c :: rest =>
    if isNameChar c || (c == '\\' && startsWhere isNameStart rest) then 1 + name rest else 0

/-- A word standing alone is a keyword or an identifier, after an arrow always an identifier; a
qualified one is relative when its first segment is the word `namespace`. -/
def nameKind (afterArrow : Bool) (text : Text) : TokenKind :=
  let word := text.takeWhile isNameChar
  if word.length < name text then
    if Text.sameWord word "namespace" then .relativeName else .qualifiedName
  else if afterArrow then .identifier
  else TokenKind.ofWord word

/-! ### Numbers -/

def fraction : Text → Nat
  | '.' :: rest => if startsWhere Char.isDigit rest then 1 + run isDigitOrUnderscore rest else 0
  | _ => 0

def exponent : Text → Nat
  | [] => 0
  | e :: rest =>
    if e == 'e' || e == 'E' then
      if startsWhere Char.isDigit rest then 1 + run isDigitOrUnderscore rest
      else match rest with
        | [] => 0
        | sign :: digits =>
          if (sign == '+' || sign == '-') && startsWhere Char.isDigit digits then
            2 + run isDigitOrUnderscore digits
          else 0
    else 0

def hasBaseMark : Text → Bool
  | '0' :: mark :: _ =>
    mark == 'x' || mark == 'X' || mark == 'b' || mark == 'B' || mark == 'o' || mark == 'O'
  | _ => false

/-- The length of a number that begins with a digit, or with a point before a digit. -/
def number (text : Text) : Nat :=
  if hasBaseMark text then 2 + run isHexDigitOrUnderscore (text.drop 2)
  else
    let whole := run isDigitOrUnderscore text
    let decimals := fraction (text.drop whole)
    whole + decimals + exponent (text.drop (whole + decimals))

/-! ### Comments -/

def lineComment : Text → Nat
  | [] => 0
  | c :: rest =>
    if c == '\n' || c == '\r' || (c == '?' && startsWhere (· == '>') rest) then 0
    else 1 + lineComment rest

def blockComment : Text → Nat
  | [] => 0
  | c :: rest => if c == '*' && startsWhere (· == '/') rest then 2 else 1 + blockComment rest

/-- After the opener, one more star makes a doc comment unless the comment ends right there. -/
def blockCommentKind : Text → TokenKind
  | '*' :: rest => if startsWhere (· == '/') rest then .comment else .docComment
  | _ => .comment

/-! ### Strings -/

/-- What the scan of a string is inside of. -/
inductive Enclosure where
  | quote (mark : Char)
  | braces
  deriving DecidableEq, Repr

/-- What the previous character of a quoted text says about the next one: nothing, that it is
escaped, or that it may complete the opening of an interpolation. -/
inductive Lead where
  | plain
  | escape
  | brace
  | dollar
  deriving DecidableEq, Repr

def isQuote (c : Char) : Bool := c == '\'' || c == '"' || c == '\x60'

/-- One character of a quoted text. A brace and a dollar sign next to each other, in either order,
open an interpolation, except between single quotes and except after an escaped dollar sign. -/
def quoteStep (mark : Char) (outer : List Enclosure) (lead : Lead) (c : Char) :
    List Enclosure × Lead :=
  let here := Enclosure.quote mark :: outer
  if lead = .escape then (here, .plain)
  else if lead = .brace ∧ c = '$' then (.braces :: here, .plain)
  else if c = '\\' then (here, .escape)
  else if c = mark then (outer, .plain)
  else if c = '\x7b' ∧ mark ≠ '\'' then
    if lead = .dollar then (.braces :: here, .plain) else (here, .brace)
  else if c = '$' then (here, .dollar)
  else (here, .plain)

/-- One character of an interpolation: quotes open strings and braces nest. -/
def braceStep (outer : List Enclosure) (c : Char) : List Enclosure × Lead :=
  let here := Enclosure.braces :: outer
  if isQuote c then (.quote c :: here, .plain)
  else if c = '\x7b' then (.braces :: here, .plain)
  else if c = '\x7d' then (outer, .plain)
  else (here, .plain)

def enclosureStep : Enclosure → List Enclosure → Lead → Char → List Enclosure × Lead
  | .quote mark, outer, lead, c => quoteStep mark outer lead c
  | .braces, outer, _, c => braceStep outer c

/-- The characters until the outermost of the enclosures is left. -/
def enclosed : List Enclosure → Lead → Text → Nat
  | [], _, _ => 0
  | _ :: _, _, [] => 0
  | inner :: outer, lead, c :: rest =>
    let next := enclosureStep inner outer lead c
    1 + enclosed next.1 next.2 rest

def quoted (mark : Char) (text : Text) : Nat := enclosed [.quote mark] .plain text

/-! ### Heredocs -/

/-- The head of a heredoc: its label and the length of the line that opens it. -/
structure Head where
  label : Text
  length : Nat

def lineBreak : Text → Nat
  | '\n' :: _ => 1
  | '\r' :: '\n' :: _ => 2
  | _ => 0

/-- Reads the head of a heredoc after its three angle brackets. The label may stand between two
equal quotes, and a line break has to follow. -/
def heredocHead? (text : Text) : Option Head :=
  let indent := run isIndent text
  let text := text.drop indent
  let mark := text.takeWhile fun c => c == '\'' || c == '"'
  let mark := mark.take 1
  let text := text.drop mark.length
  let label := text.takeWhile isNameChar
  let text := text.drop label.length
  if startsWhere isNameStart label && mark.isPrefixOf text then
    let broken := lineBreak (text.drop mark.length)
    if broken = 0 then none
    else some ⟨label, indent + mark.length + label.length + mark.length + broken⟩
  else none

/-- The end of a heredoc at the front of a line: the indented label, with no name going on. -/
def heredocEnd? (label text : Text) : Option Nat :=
  let indent := run isIndent text
  let text := text.drop indent
  if label.isPrefixOf text && !startsWhere isNameChar (text.drop label.length) then
    some (indent + label.length)
  else none

def heredocBody (label : Text) : Bool → Text → Nat
  | _, [] => 0
  | lineStart, c :: rest =>
    match (if lineStart then heredocEnd? label (c :: rest) else none) with
    | some length => length
    | none => 1 + heredocBody label (c == '\n') rest

/-! ### Operators and tags -/

/-- The operators, a longer one before each of its beginnings. -/
def operatorSpellings : List (String × TokenKind) :=
  [("**=", .operator), ("...", .ellipsis), ("<=>", .operator), ("===", .operator),
    ("!==", .operator), ("<<=", .operator), (">>=", .operator), ("??=", .operator),
    ("?->", .nullsafeArrow), ("->", .arrow), ("=>", .doubleArrow), ("::", .doubleColon),
    ("**", .operator), ("++", .operator), ("--", .operator), ("+=", .operator),
    ("-=", .operator), ("*=", .operator), ("/=", .operator), (".=", .operator),
    ("%=", .operator), ("&=", .operator), ("|=", .operator), ("^=", .operator),
    ("==", .operator), ("!=", .operator), ("<>", .operator), ("<=", .operator),
    (">=", .operator), ("&&", .operator), ("||", .operator), ("??", .operator),
    ("<<", .operator), (">>", .operator), ("=", .assign), ("&", .ampersand), ("?", .question),
    (":", .colon), ("+", .operator), ("-", .operator), ("*", .operator), ("/", .operator),
    ("%", .operator), ("!", .operator), ("<", .operator), (">", .operator), (".", .operator),
    ("|", .operator), ("^", .operator), ("~", .operator), ("@", .operator)]

def operators : List (Text × TokenKind) :=
  operatorSpellings.map fun entry => (entry.1.toList, entry.2)

/-- The kind and the length of the operator at the front; any other character stands alone. -/
def operator (text : Text) : TokenKind × Nat :=
  match operators.find? fun entry => entry.1.isPrefixOf text with
  | some entry => (entry.2, entry.1.length)
  | none => (.unknown, 1)

/-- An open tag at the front. `<?php` takes one white space character after it, a carriage return
and a line feed counting as one; `<?` needs white space or the end of the text after it. -/
def openTag? : Text → Option (TokenKind × Nat)
  | '<' :: '?' :: rest =>
    if startsWhere (· == '=') rest then some (.openTagWithEcho, 3)
    else if Text.sameWord (rest.take 3) "php" then
      match rest.drop 3 with
      | [] => some (.openTag, 5)
      | '\r' :: '\n' :: _ => some (.openTag, 7)
      | c :: _ => if isSpace c then some (.openTag, 6) else none
    else match rest with
      | [] => some (.openTag, 2)
      | c :: _ => if isSpace c then some (.openTag, 2) else none
  | _ => none

def inlineHtml : Text → Nat
  | [] => 0
  | c :: rest => if (openTag? (c :: rest)).isSome then 0 else 1 + inlineHtml rest

end PhpWeave.Lexeme
