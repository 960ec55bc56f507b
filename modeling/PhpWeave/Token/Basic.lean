import PhpWeave.Text.Basic

/-!
Tokens: a kind, an exact text and the line it starts on, counted in 32 bits.

The kinds of PHP tokens, with the names and numbers they are reported under, the classes the rest
of the library asks about, and the words that have a kind of their own. Words that no part of the
library branches on, `if` and `isset` among them, are identifiers here.
-/

namespace PhpWeave

/-- What a token is. -/
inductive TokenKind where
  | inlineHtml
  | openTag
  | openTagWithEcho
  | closeTag
  | whitespace
  | comment
  | docComment
  | variableName
  | numberLiteral
  | quotedString
  | heredoc
  | identifier
  | qualifiedName
  | fullyQualifiedName
  | relativeName
  | kwAbstract
  | kwAs
  | kwClass
  | kwExit
  | kwFinal
  | kwFunction
  | kwInterface
  | kwNamespace
  | kwNew
  | kwPrivate
  | kwProtected
  | kwPublic
  | kwReadonly
  | kwStatic
  | kwTrait
  | kwUse
  | kwVar
  | kwYield
  | magicDir
  | magicFile
  | openParen
  | closeParen
  | openBracket
  | closeBracket
  | openBrace
  | closeBrace
  | semicolon
  | comma
  | colon
  | doubleColon
  | arrow
  | nullsafeArrow
  | doubleArrow
  | ellipsis
  | question
  | ampersand
  | assign
  | separator
  | dollar
  | attributeOpen
  | operator
  | unknown
  deriving DecidableEq, Inhabited, Repr

namespace TokenKind

def all : List TokenKind :=
  [.inlineHtml, .openTag, .openTagWithEcho, .closeTag, .whitespace, .comment, .docComment,
    .variableName, .numberLiteral, .quotedString, .heredoc, .identifier, .qualifiedName, .fullyQualifiedName,
    .relativeName, .kwAbstract, .kwAs, .kwClass, .kwExit, .kwFinal, .kwFunction, .kwInterface,
    .kwNamespace, .kwNew, .kwPrivate, .kwProtected, .kwPublic, .kwReadonly, .kwStatic, .kwTrait,
    .kwUse, .kwVar, .kwYield, .magicDir, .magicFile, .openParen, .closeParen, .openBracket,
    .closeBracket, .openBrace, .closeBrace, .semicolon, .comma, .colon, .doubleColon, .arrow,
    .nullsafeArrow, .doubleArrow, .ellipsis, .question, .ampersand, .assign, .separator, .dollar,
    .attributeOpen, .operator, .unknown]

def label : TokenKind → String
  | .inlineHtml => "T_INLINE_HTML"
  | .openTag => "T_OPEN_TAG"
  | .openTagWithEcho => "T_OPEN_TAG_WITH_ECHO"
  | .closeTag => "T_CLOSE_TAG"
  | .whitespace => "T_WHITESPACE"
  | .comment => "T_COMMENT"
  | .docComment => "T_DOC_COMMENT"
  | .variableName => "T_VARIABLE"
  | .numberLiteral => "T_LNUMBER"
  | .quotedString => "T_CONSTANT_ENCAPSED_STRING"
  | .heredoc => "T_START_HEREDOC"
  | .identifier => "T_STRING"
  | .qualifiedName => "T_NAME_QUALIFIED"
  | .fullyQualifiedName => "T_NAME_FULLY_QUALIFIED"
  | .relativeName => "T_NAME_RELATIVE"
  | .kwAbstract => "T_ABSTRACT"
  | .kwAs => "T_AS"
  | .kwClass => "T_CLASS"
  | .kwExit => "T_EXIT"
  | .kwFinal => "T_FINAL"
  | .kwFunction => "T_FUNCTION"
  | .kwInterface => "T_INTERFACE"
  | .kwNamespace => "T_NAMESPACE"
  | .kwNew => "T_NEW"
  | .kwPrivate => "T_PRIVATE"
  | .kwProtected => "T_PROTECTED"
  | .kwPublic => "T_PUBLIC"
  | .kwReadonly => "T_READONLY"
  | .kwStatic => "T_STATIC"
  | .kwTrait => "T_TRAIT"
  | .kwUse => "T_USE"
  | .kwVar => "T_VAR"
  | .kwYield => "T_YIELD"
  | .magicDir => "T_DIR"
  | .magicFile => "T_FILE"
  | .openParen => "("
  | .closeParen => ")"
  | .openBracket => "["
  | .closeBracket => "]"
  | .openBrace => "\x7b"
  | .closeBrace => "\x7d"
  | .semicolon => ";"
  | .comma => ","
  | .colon => ":"
  | .doubleColon => "T_DOUBLE_COLON"
  | .arrow => "T_OBJECT_OPERATOR"
  | .nullsafeArrow => "T_NULLSAFE_OBJECT_OPERATOR"
  | .doubleArrow => "T_DOUBLE_ARROW"
  | .ellipsis => "T_ELLIPSIS"
  | .question => "?"
  | .ampersand => "&"
  | .assign => "="
  | .separator => "T_NS_SEPARATOR"
  | .dollar => "$"
  | .attributeOpen => "T_ATTRIBUTE"
  | .operator => "T_OPERATOR"
  | .unknown => "T_BAD_CHARACTER"

/-- The number of a kind: markup from 0, literals and names from 16, keywords from 32, punctuation
from 80, and 255 for a character no rule covers. -/
def code : TokenKind → Nat
  | .inlineHtml => 0
  | .openTag => 1
  | .openTagWithEcho => 2
  | .closeTag => 3
  | .whitespace => 4
  | .comment => 5
  | .docComment => 6
  | .variableName => 16
  | .numberLiteral => 17
  | .quotedString => 18
  | .heredoc => 19
  | .identifier => 20
  | .qualifiedName => 21
  | .fullyQualifiedName => 22
  | .relativeName => 23
  | .kwAbstract => 32
  | .kwAs => 33
  | .kwClass => 34
  | .kwExit => 35
  | .kwFinal => 36
  | .kwFunction => 37
  | .kwInterface => 38
  | .kwNamespace => 39
  | .kwNew => 40
  | .kwPrivate => 41
  | .kwProtected => 42
  | .kwPublic => 43
  | .kwReadonly => 44
  | .kwStatic => 45
  | .kwTrait => 46
  | .kwUse => 47
  | .kwVar => 48
  | .kwYield => 49
  | .magicDir => 50
  | .magicFile => 51
  | .openParen => 80
  | .closeParen => 81
  | .openBracket => 82
  | .closeBracket => 83
  | .openBrace => 84
  | .closeBrace => 85
  | .semicolon => 86
  | .comma => 87
  | .colon => 88
  | .doubleColon => 89
  | .arrow => 90
  | .nullsafeArrow => 91
  | .doubleArrow => 92
  | .ellipsis => 93
  | .question => 94
  | .ampersand => 95
  | .assign => 96
  | .separator => 97
  | .dollar => 98
  | .attributeOpen => 99
  | .operator => 100
  | .unknown => 255

def ofLabel? (name : String) : Option TokenKind := all.find? (·.label == name)

def isTrivia : TokenKind → Bool
  | .whitespace | .comment | .docComment => true
  | _ => false

/-- Text the outline keeps in nodes of their own and never looks into. -/
def isLiteral : TokenKind → Bool
  | .quotedString | .heredoc | .comment | .docComment => true
  | _ => false

def isMarkup : TokenKind → Bool
  | .inlineHtml | .openTag | .openTagWithEcho | .closeTag => true
  | _ => false

def isName : TokenKind → Bool
  | .identifier | .qualifiedName | .fullyQualifiedName | .relativeName => true
  | _ => false

def isModifier : TokenKind → Bool
  | .kwAbstract | .kwFinal | .kwPrivate | .kwProtected | .kwPublic | .kwReadonly | .kwStatic
  | .kwVar => true
  | _ => false

def isKeyword (kind : TokenKind) : Bool :=
  TokenKind.code .kwAbstract ≤ kind.code && kind.code ≤ TokenKind.code .magicFile

def isIdentifierLike (kind : TokenKind) : Bool := kind.isName || kind.isKeyword

def isMemberAccess : TokenKind → Bool
  | .arrow | .nullsafeArrow | .doubleColon => true
  | _ => false

def classes (kind : TokenKind) : List String :=
  [("trivia", kind.isTrivia), ("literal", kind.isLiteral), ("name", kind.isName),
    ("modifier", kind.isModifier), ("keyword", kind.isKeyword),
    ("identifier_like", kind.isIdentifierLike), ("member_access", kind.isMemberAccess)].filterMap
    fun entry => if entry.2 then some entry.1 else none

/-- The words with a kind of their own, in small letters. -/
def keywords : List (Text × TokenKind) :=
  [("abstract", .kwAbstract), ("as", .kwAs), ("class", .kwClass), ("exit", .kwExit),
    ("die", .kwExit), ("final", .kwFinal), ("function", .kwFunction),
    ("interface", .kwInterface), ("namespace", .kwNamespace), ("new", .kwNew),
    ("private", .kwPrivate), ("protected", .kwProtected), ("public", .kwPublic),
    ("readonly", .kwReadonly), ("static", .kwStatic), ("trait", .kwTrait), ("use", .kwUse),
    ("var", .kwVar), ("yield", .kwYield), ("__dir__", .magicDir), ("__file__", .magicFile)]

def ofWord (word : Text) : TokenKind := (keywords.lookup (Text.lower word)).getD .identifier

end TokenKind

/-- The pairs of brackets that spans are matched by. -/
inductive Bracket where
  | paren
  | square
  | curly
  deriving DecidableEq, Inhabited, Repr

namespace Bracket

def opening : Bracket → TokenKind
  | .paren => .openParen
  | .square => .openBracket
  | .curly => .openBrace

def closing : Bracket → TokenKind
  | .paren => .closeParen
  | .square => .closeBracket
  | .curly => .closeBrace

def symbol : Bracket → Char
  | .paren => '('
  | .square => '['
  | .curly => '\x7b'

end Bracket

/-! ### Tokens -/

def lineLimit : Nat := 4294967295

/-- A piece of a source. -/
structure Token where
  kind : TokenKind
  text : Text
  line : Nat
  deriving DecidableEq, Inhabited, Repr

namespace Token

/-- The line of the last character. A line feed belongs to the line it ends, so one at the very
end of the text is not counted. The count of the others stays at its limit once it gets there, and
the sum begins again. -/
def endLine (token : Token) : Nat :=
  (token.line + min (Text.newlines (Text.dropFinalNewline token.text)) lineLimit) % (lineLimit + 1)

def isWord (token : Token) (word : Text) : Bool := Text.sameWord token.text word

def textOf (tokens : List Token) : Text := tokens.flatMap Token.text

@[simp] theorem textOf_nil : textOf [] = [] := rfl

@[simp] theorem textOf_cons (token : Token) (rest : List Token) :
    textOf (token :: rest) = token.text ++ textOf rest := rfl

@[simp] theorem textOf_append (left right : List Token) :
    textOf (left ++ right) = textOf left ++ textOf right :=
  List.flatMap_append

end Token

end PhpWeave
