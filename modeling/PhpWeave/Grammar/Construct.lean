import PhpWeave.Grammar.Clause
import PhpWeave.Grammar.Reader

/-!
The constructs of a file, each as one step of the reader: tags and literals, namespaces, imports,
class-like declarations, functions and arrow functions, and the braces of plain code. A word that
looks like the beginning of a construct and is none stays pending. Only two things can go wrong: a
parameter list that is not closed, and a declaration without a body or a semicolon.
-/

namespace PhpWeave.Reader

/-! ### Tags and literals -/

def markup (tokens : Tokens) (reader : Reader) (token : Token) : Reader :=
  let index := reader.pos
  let flags := if token.kind = .inlineHtml then Flags.none else Flags.fixedCode
  ((reader.flush tokens index).report
    (.leaf { Node.code token.text with flags := flags } index index)).resumeAfter index

def literalKind : TokenKind → LiteralKind
  | .heredoc => .heredoc
  | .comment => .comment
  | .docComment => .docComment
  | _ => .quotedString

def literal (tokens : Tokens) (reader : Reader) (token : Token) : Reader :=
  let index := reader.pos
  let node := { Node.ofKind (.literal (literalKind token.kind)) with
    body := token.text, flags := Flags.fixedCode }
  ((reader.flush tokens index).report (.leaf node index index)).resumeAfter index

/-! ### Namespaces -/

/-- Among the next `count` positions the end of a namespace header, with the name collected on the
way. The first word may be a keyword; any other token means that there is no header. -/
def scopeHeader (tokens : Tokens) : Nat → Nat → Text → Option (Nat × Text)
  | 0, _, _ => none
  | count + 1, index, name =>
    match tokens[index]? with
    | none => none
    | some token =>
      if token.kind = .semicolon ∨ token.kind = .openBrace then some (index, name)
      else if token.kind = .identifier ∨ token.kind = .qualifiedName ∨
          (token.kind.isKeyword ∧ name = []) then
        scopeHeader tokens count (index + 1) (name ++ token.text)
      else if token.kind.isTrivia then scopeHeader tokens count (index + 1) name
      else none

def endOpenScope (reader : Reader) (index : Nat) : Reader :=
  if reader.top.kind = .scope false then reader.closeFrame [] (index - 1) else reader

def namespaceWord (tokens : Tokens) (reader : Reader) : Reader :=
  let index := reader.pos
  match scopeHeader tokens (tokens.size - (index + 1)) (index + 1) [] with
  | none => reader.skip
  | some (last, name) =>
    let node := { Node.ofKind .scope with
      body := tokens.textBetween index (last + 1), name := name }
    let reader := (reader.flush tokens index).endOpenScope index
    ((reader.report (.enter node index last)).openFrame
      (.scope (tokens.isAt last .openBrace)) index).resumeAfter last

/-! ### Imports -/

/-- The word `use` at the start of a statement at file level. A malformed statement stays pending up
to its semicolon. -/
def useWord (tokens : Tokens) (reader : Reader) : Reader :=
  let index := reader.pos
  let ends (token : Token) : Bool := token.kind = .semicolon || token.kind = .closeTag
  match tokens.firstFrom ends (index + 1) with
  | none => reader.skip
  | some last =>
    if tokens.isAt last .semicolon then
      let significant := (tokens.extract (index + 1) last).toList.filter Tokens.isSignificant
      match Import.read? significant with
      | none => reader.skipTo last
      | some entries =>
        let node := { Node.ofKind .imports with body := tokens.textBetween index (last + 1) }
        (((reader.flush tokens index).report (.leaf node index last)).report
          (.imports entries)).resumeAfter last
    else reader.skip

/-! ### Class-like declarations -/

/-- Whether the word `enum` begins a declaration: it stands at the start of a statement, and after a
name follows a brace, a colon or the word `implements`. -/
def isEnumeration (tokens : Tokens) (reader : Reader) (token : Token) : Bool :=
  token.isWord "enum" && reader.atStatementStart tokens reader.pos &&
    match tokens.nextSignificant (reader.pos + 1) with
    | none => false
    | some name =>
      tokens.isAt name .identifier &&
        match (tokens.nextSignificant (name + 1)).bind (tokens[·]?) with
        | none => false
        | some after =>
          after.kind = .openBrace || after.kind = .colon || after.isWord "implements"

def className? (tokens : Tokens) (index : Nat) : Option Text :=
  if tokens.prevKind index = some .kwNew then some []
  else
    ((tokens.nextSignificant (index + 1)).bind (tokens[·]?)).bind fun token =>
      if token.kind.isIdentifierLike then some token.text else none

def classWord (tokens : Tokens) (reader : Reader) (kind : ClassKind) :
    Except BracketFault Reader :=
  let index := reader.pos
  if tokens.isMemberName index then .ok reader.skip
  else match className? tokens index with
    | none => .ok reader.skip
    | some name =>
      match tokens.firstOutside [.openBrace, .semicolon] (index + 1) with
      | none => .error (.unbalanced .curly (tokens.lineAt index))
      | some last =>
        if tokens.isAt last .semicolon then .ok reader.skip
        else
          let first :=
            if tokens.prevKind index = some .kwNew then index else reader.modifierStart tokens index
          let node := { Node.ofKind (.classLike kind) with
            body := tokens.textBetween first (last + 1)
            name := name
            flags := { modifierFlags tokens first index with hasBody := true } }
          .ok ((((reader.flush tokens first).report (.enter node first last)).openFrame
            .classLike first).resumeAfter last)

/-! ### Functions -/

/-- The first significant position at or after one, past an ampersand when one stands there. -/
def pastAmpersand (tokens : Tokens) (index : Nat) : Option Nat :=
  (tokens.nextSignificant index).bind fun found =>
    if tokens.isAt found .ampersand then tokens.nextSignificant (found + 1) else some found

/-- The name of the function at a position, empty for a closure, and the position after it. -/
def functionName (tokens : Tokens) (index : Nat) : Text × Option Nat :=
  match pastAmpersand tokens (index + 1) with
  | none => ([], none)
  | some found =>
    match tokens[found]? with
    | none => ([], none)
    | some token =>
      if token.kind.isIdentifierLike then (token.text, tokens.nextSignificant (found + 1))
      else ([], some found)

def returnType? (tokens : Tokens) (close last : Nat) : Option Token :=
  (tokens.prevSignificant last).bind fun word =>
    (tokens.prevSignificant word).bind fun colon =>
      if close < colon ∧ tokens.isAt colon .colon then tokens[word]? else none

def returns (tokens : Tokens) (close last : Nat) (word : Text) : Bool :=
  ((returnType? tokens close last).map fun token => token.isWord word).getD false

/-- The node of a function whose header runs from `first`, with the word `function` at `index` and
the parentheses at `opening` and `close`, through `last`. -/
def functionNode (tokens : Tokens) (reader : Reader) (name : Text)
    (first index opening close last : Nat) : Node :=
  { Node.ofKind .function with
    body := tokens.textBetween first (last + 1)
    name := name
    args := Param.listOf (tokens.extract (opening + 1) close).toList
    flags := { modifierFlags tokens first index with
      closure := name = []
      method := reader.top.kind = .classLike
      hasBody := tokens.isAt last .openBrace
      returnsVoid := returns tokens close last "void"
      returnsNever := returns tokens close last "never" } }

/-- The word `function`. A function without a body is a leaf. -/
def functionWord (tokens : Tokens) (reader : Reader) : Except BracketFault Reader :=
  let index := reader.pos
  if tokens.isMemberName index then .ok reader.skip
  else
    let (name, after) := functionName tokens index
    match after with
    | none => .ok reader.skip
    | some opening =>
      if tokens.isAt opening .openParen then
        match tokens.closing .paren opening with
        | .error fault => .error fault
        | .ok close =>
          match tokens.firstOutside [.openBrace, .semicolon] (close + 1) with
          | none => .error (.unbalanced .curly (tokens.lineAt index))
          | some last =>
            let first := reader.modifierStart tokens index
            let node := functionNode tokens reader name first index opening close last
            let reader := reader.flush tokens first
            if tokens.isAt last .openBrace then
              .ok (((reader.report (.enter node first last)).openFrame .function first).resumeAfter
                last)
            else .ok ((reader.report (.leaf node first last)).resumeAfter last)
      else .ok reader.skip

def arrowBody? (tokens : Tokens) (index : Nat) : Option Nat := do
  let opening ← pastAmpersand tokens (index + 1)
  guard (tokens.isAt opening .openParen)
  let close ← tokens.firstOutside [.closeParen] (opening + 1)
  let arrow ← tokens.firstOutside [.doubleArrow, .semicolon, .openBrace] (close + 1)
  guard (tokens.isAt arrow .doubleArrow)
  return arrow + 1

def arrowWord (tokens : Tokens) (reader : Reader) : Reader :=
  let index := reader.pos
  if tokens.isMemberName index then reader.skip
  else match arrowBody? tokens index with
    | none => reader.skip
    | some body =>
      { reader with
        arrows := ⟨tokens.expressionEnd body, reader.depth⟩ :: reader.arrows }.skip

def yieldWord (reader : Reader) : Reader :=
  if reader.inArrowBody reader.pos then reader.skip else (reader.report .yields).skip

/-! ### Punctuation -/

def openingBrace (tokens : Tokens) (reader : Reader) : Reader :=
  let reader := (reader.updateTop fun frame => { frame with braces := frame.braces + 1 }).skip
  reader.flush tokens reader.pos

/-- Whether a closing brace without a partner closes the innermost frame. -/
def closesFrame (frame : Frame) : Bool :=
  frame.braces == 0 &&
    match frame.kind with
    | .classLike | .function | .scope true => true
    | _ => false

/-- A closing brace ends a construct or a fragment of plain code. -/
def closingBrace (tokens : Tokens) (reader : Reader) : Reader :=
  let index := reader.pos
  if closesFrame reader.top then
    ((reader.flush tokens index).closeFrame ['\x7d'] index).resumeAfter index
  else
    let reader := (reader.updateTop fun frame => { frame with braces := frame.braces - 1 }).skip
    reader.flush tokens reader.pos

def openingParen (reader : Reader) : Reader :=
  (reader.updateTop fun frame => { frame with parens := frame.parens + 1 }).skip

def closingParen (reader : Reader) : Reader :=
  (reader.updateTop fun frame => { frame with parens := frame.parens - 1 }).skip

def statementEnd (tokens : Tokens) (reader : Reader) : Reader :=
  let reader := reader.skip
  if reader.top.parens = 0 then reader.flush tokens reader.pos else reader

def step (tokens : Tokens) (reader : Reader) (token : Token) : Except BracketFault Reader :=
  if token.kind.isMarkup then .ok (reader.markup tokens token)
  else if token.kind.isLiteral then .ok (reader.literal tokens token)
  else match token.kind with
    | .kwNamespace =>
      .ok (if reader.atFileLevel then reader.namespaceWord tokens else reader.skip)
    | .kwUse =>
      .ok (if reader.atFileLevel && reader.atStatementStart tokens reader.pos then
        reader.useWord tokens else reader.skip)
    | .kwClass => reader.classWord tokens .ordinary
    | .kwInterface => reader.classWord tokens .interfaceLike
    | .kwTrait => reader.classWord tokens .traitLike
    | .identifier =>
      if isEnumeration tokens reader token then reader.classWord tokens .enumeration
      else if token.isWord "fn" then .ok (reader.arrowWord tokens)
      else .ok reader.skip
    | .kwFunction => reader.functionWord tokens
    | .kwYield => .ok reader.yieldWord
    | .openBrace => .ok (reader.openingBrace tokens)
    | .closeBrace => .ok (reader.closingBrace tokens)
    | .openParen => .ok reader.openingParen
    | .closeParen => .ok reader.closingParen
    | .semicolon => .ok (reader.statementEnd tokens)
    | _ => .ok reader.skip

def runWithin (tokens : Tokens) : Nat → Reader → Except BracketFault Reader
  | 0, reader => .ok reader
  | fuel + 1, reader =>
    match tokens[reader.pos]? with
    | none => .ok reader
    | some token =>
      match reader.step tokens token with
      | .error fault => .error fault
      | .ok next => runWithin tokens fuel next

/-- Closes the frames left open at the end of the file. Only namespaces without braces may be. -/
def closeAll (tokens : Tokens) : Frame → List Frame → Except BracketFault (List Event)
  | _, [] => .ok []
  | top, next :: outer =>
    if top.kind = .scope false then
      match closeAll tokens next outer with
      | .error fault => .error fault
      | .ok events => .ok (.leave [] (tokens.size - 1) :: events)
    else .error (.unbalanced .curly (tokens.lineAt top.first))

/-- The events of a file. Every step moves on by a token at least. -/
def eventsOf (tokens : Tokens) : Except BracketFault (List Event) :=
  match runWithin tokens tokens.size start with
  | .error fault => .error fault
  | .ok reader =>
    let reader := reader.flush tokens tokens.size
    match closeAll tokens reader.top reader.outer with
    | .error fault => .error fault
    | .ok last => .ok (reader.events.toList ++ last)

end PhpWeave.Reader
