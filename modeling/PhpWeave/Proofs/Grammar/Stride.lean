import PhpWeave.Proofs.Grammar.Derivation
import PhpWeave.Proofs.Grammar.Lookahead

set_option autoImplicit false

/-!
Everything that one move of a read can do. A construct reports the pending tokens in front of it and
then itself; braces of plain code and semicolons report what is pending with them; all other tokens
stay pending. What holds along a read is derived from this list, not from the steps themselves.
-/

namespace PhpWeave

/-- Whether a token may stand between the first token of a header and the word it declares with. -/
def TokenKind.leads (kind : TokenKind) : Bool := kind.isModifier || kind = .whitespace

/-- Whether a token may be the last one of a header, or of any node that is not plain code. -/
def TokenKind.seals (kind : TokenKind) : Bool :=
  kind.isMarkup || kind.isLiteral || kind = .semicolon || kind = .openBrace

def Tokens.endsImport (token : Token) : Bool := token.kind = .semicolon || token.kind = .closeTag

/-- The significant tokens between the word of an import statement and its semicolon. -/
def Tokens.clauses (tokens : Tokens) (first last : Nat) : List Token :=
  (tokens.extract (first + 1) last).toList.filter Tokens.isSignificant

/-- The position that ends the body of the arrow function whose word stands at a position; none when
no arrow function begins there. -/
def Tokens.arrowStop? (tokens : Tokens) (index : Nat) : Option Nat :=
  tokens[index]?.bind fun token =>
    if token.kind = .identifier ∧ token.isWord "fn" = true ∧ tokens.isMemberName index = false then
      (Reader.arrowBody? tokens index).map tokens.expressionEnd
    else none

namespace Reader

variable {tokens : Tokens} {reader next : Reader} {token : Token}

def Declares (tokens : Tokens) (reader : Reader) (token : Token) (node : Node)
    (first last : Nat) : Prop :=
  match node.kind with
  | .file => False
  | .scope => token.kind = .kwNamespace ∧ first = reader.pos
  | .imports => token.kind = .kwUse ∧ first = reader.pos ∧
      reader.atStatementStart tokens reader.pos = true
  | .classLike _ => (token.kind = .kwClass ∨ token.kind = .kwInterface ∨ token.kind = .kwTrait ∨
      token.kind = .identifier ∧ token.isWord "enum" = true) ∧
      tokens.isMemberName reader.pos = false ∧
      node.flags = { modifierFlags tokens first reader.pos with hasBody := true } ∧
      (first = modifierStart tokens reader reader.pos ∨
        first = reader.pos ∧ tokens.prevKind reader.pos = some .kwNew)
  | .function => token.kind = .kwFunction ∧ tokens.isMemberName reader.pos = false ∧
      ∃ name opening close, tokens.closing .paren opening = .ok close ∧ reader.pos < opening ∧
        close < last ∧ node = functionNode tokens reader name first reader.pos opening close last
  | .code => token.kind.isMarkup = true ∧ first = reader.pos ∧ last = reader.pos ∧
      node = { Node.code token.text with
        flags := if token.kind = .inlineHtml then Flags.none else Flags.fixedCode }
  | .literal _ => token.kind.isLiteral = true ∧ first = reader.pos ∧ last = reader.pos

/-- A node that a read makes of the tokens from `first` through `last` when it stands at one of
them. -/
structure Header (tokens : Tokens) (reader : Reader) (token : Token) (node : Node)
    (first last : Nat) : Prop where
  pending_le : reader.pending ≤ first
  first_le : first ≤ reader.pos
  pos_le : reader.pos ≤ last
  leads : ∀ index, first ≤ index → index < reader.pos →
    ∃ kind, tokens.kindAt index = some kind ∧ kind.leads = true
  declares : Declares tokens reader token node first last
  seals : ∃ kind, tokens.kindAt last = some kind ∧ kind.seals = true
  fixed : node.isEditable = false
  silent : node.flags.generator = false

structure Idle (tokens : Tokens) (reader : Reader) (token : Token) : Prop where
  code : token.kind.isMarkup = false
  noLiteral : token.kind.isLiteral = false
  noBrace : token.kind ≠ .openBrace ∧ token.kind ≠ .closeBrace
  noParen : token.kind ≠ .openParen ∧ token.kind ≠ .closeParen
  semicolon : token.kind = .semicolon → reader.top.parens ≠ 0
  yield : token.kind = .kwYield → reader.inArrowBody reader.pos = true
  arrow : tokens.arrowStop? reader.pos = none

/-- `Stride tokens reader token next`: one move leads from a token to the next state. -/
inductive Stride (tokens : Tokens) (reader : Reader) (token : Token) : Reader → Prop where
  | leaf {node : Node} {first last : Nat} (header : Header tokens reader token node first last)
      (isOne : node.isLeaf = true) (noImports : node.kind ≠ .imports) :
      Stride tokens reader token
        (((reader.flush tokens first).report (.leaf node first last)).resumeAfter last)
  | imports {node : Node} {last : Nat} {entries : List (Text × Text)}
      (header : Header tokens reader token node reader.pos last) (isOne : node.kind = .imports)
      (ends : tokens.isAt last .semicolon = true)
      (read : Import.read? (tokens.clauses reader.pos last) = some entries) :
      Stride tokens reader token ((((reader.flush tokens reader.pos).report
        (.leaf node reader.pos last)).report (.imports entries)).resumeAfter last)
  | enter {node : Node} {first last : Nat} {frame : FrameKind}
      (header : Header tokens reader token node first last)
      (opens : frame = .classLike ∧ node.kind.isClassLike = true ∨
        frame = .function ∧ node.kind = .function ∧ node.flags.hasBody = true)
      (brace : tokens.isAt last .openBrace = true) :
      Stride tokens reader token
        ((((reader.flush tokens first).report (.enter node first last)).openFrame frame
          first).resumeAfter last)
  | scope {node : Node} {last : Nat} (level : reader.atFileLevel = true)
      (header : Header tokens reader token node reader.pos last) (isOne : node.kind = .scope) :
      Stride tokens reader token
        (((((reader.flush tokens reader.pos).endOpenScope reader.pos).report
          (.enter node reader.pos last)).openFrame (.scope (tokens.isAt last .openBrace))
          reader.pos).resumeAfter last)
  | leave (isOne : token.kind = .closeBrace) (closes : closesFrame reader.top = true) :
      Stride tokens reader token
        (((reader.flush tokens reader.pos).closeFrame ['\x7d'] reader.pos).resumeAfter reader.pos)
  | astray {last : Nat} (isOne : token.kind = .kwUse) (level : reader.atFileLevel = true)
      (start : reader.atStatementStart tokens reader.pos = true)
      (search : tokens.firstFrom Tokens.endsImport (reader.pos + 1) = some last)
      (ends : tokens.kindAt last = some .semicolon)
      (unread : Import.read? (tokens.clauses reader.pos last) = none) :
      Stride tokens reader token (reader.skipTo last)
  | arrow {stop : Nat} (begins : tokens.arrowStop? reader.pos = some stop) :
      Stride tokens reader token
        ({ reader with arrows := ⟨stop, reader.depth⟩ :: reader.arrows } : Reader).skip
  | yields (isOne : token.kind = .kwYield) (own : reader.inArrowBody reader.pos = false) :
      Stride tokens reader token (reader.report .yields).skip
  | opening (isOne : token.kind = .openBrace) :
      Stride tokens reader token ((reader.updateTop fun frame =>
        { frame with braces := frame.braces + 1 }).skip.flush tokens (reader.pos + 1))
  | closing (isOne : token.kind = .closeBrace) (stays : closesFrame reader.top = false) :
      Stride tokens reader token ((reader.updateTop fun frame =>
        { frame with braces := frame.braces - 1 }).skip.flush tokens (reader.pos + 1))
  | openingParen (isOne : token.kind = .openParen) :
      Stride tokens reader token
        (reader.updateTop fun frame => { frame with parens := frame.parens + 1 }).skip
  | closingParen (isOne : token.kind = .closeParen) :
      Stride tokens reader token
        (reader.updateTop fun frame => { frame with parens := frame.parens - 1 }).skip
  | ending (isOne : token.kind = .semicolon) (outside : reader.top.parens = 0) :
      Stride tokens reader token (reader.skip.flush tokens (reader.pos + 1))
  | idle (idle : Idle tokens reader token) : Stride tokens reader token reader.skip

/-! ### The list is complete -/

theorem modifierRun_leads {pending : Nat} (index : Nat) {found : Nat}
    (blank : ∀ other, index ≤ other → other < found → tokens.kindAt other = some .whitespace) :
    ∀ other, modifierRun tokens pending index found ≤ other → other < found →
      ∃ kind, tokens.kindAt other = some kind ∧ kind.leads = true := by
  have white : ∀ other, index ≤ other → other < found →
      ∃ kind, tokens.kindAt other = some kind ∧ kind.leads = true :=
    fun _ behind before => ⟨_, blank _ behind before, rfl⟩
  induction index generalizing found with
  | zero => exact fun other _ before => white other (Nat.zero_le _) before
  | succ index ih =>
      rw [modifierRun]
      split
      · intro other behind before
        omega
      · split
        · intro other behind before
          omega
        · next kind here =>
            split
            · next modifier =>
                intro other behind before
                have none : ∀ other, index ≤ other → other < index →
                    tokens.kindAt other = some .whitespace :=
                  fun _ behind before => absurd behind (Nat.not_le_of_lt before)
                rcases Nat.lt_trichotomy other index with early | rfl | late
                · exact ih none (fun other behind before => by omega) other behind early
                · exact ⟨kind, here, by rw [TokenKind.leads, modifier]; rfl⟩
                · exact white other late before
            · split
              · next isBlank =>
                  have all : ∀ other, index ≤ other → other < found →
                      tokens.kindAt other = some .whitespace := by
                    intro other behind before
                    rcases Nat.eq_or_lt_of_le behind with rfl | past
                    · rw [here, isBlank]
                    · exact blank other past before
                  exact ih all fun other behind before => ⟨_, all other behind before, rfl⟩
              · intro other behind before
                omega

theorem modifierStart_leads (tokens : Tokens) (reader : Reader) (index : Nat) :
    ∀ other, modifierStart tokens reader index ≤ other → other < index →
      ∃ kind, tokens.kindAt other = some kind ∧ kind.leads = true :=
  modifierRun_leads index fun _ behind before => absurd behind (Nat.not_le_of_lt before)

theorem nothing_leads (tokens : Tokens) (index : Nat) : ∀ other, index ≤ other → other < index →
    ∃ kind, tokens.kindAt other = some kind ∧ kind.leads = true :=
  fun _ behind before => absurd behind (Nat.not_le_of_lt before)

theorem arrowStop?_of_word (here : tokens[reader.pos]? = some token) {word : Text}
    (isWord : token.isWord word = true) (other : Text.lower word ≠ Text.lower "fn".toList) :
    tokens.arrowStop? reader.pos = none := by
  rw [Tokens.arrowStop?, here, Option.bind_some, if_neg]
  rintro ⟨-, isArrow, -⟩
  rw [Token.isWord, Text.sameWord, beq_iff_eq] at isWord isArrow
  exact other (isWord.symm.trans isArrow)

theorem arrowStop?_of_kind (here : tokens[reader.pos]? = some token)
    (other : token.kind ≠ .identifier) : tokens.arrowStop? reader.pos = none := by
  rw [Tokens.arrowStop?, here, Option.bind_some, if_neg fun all => other all.1]

theorem header_single (order : reader.pending ≤ reader.pos)
    (here : tokens[reader.pos]? = some token) {node : Node}
    (seals : token.kind.seals = true)
    (declares : Declares tokens reader token node reader.pos reader.pos)
    (fixed : node.isEditable = false) (silent : node.flags.generator = false) :
    Header tokens reader token node reader.pos reader.pos :=
  ⟨order, Nat.le_refl _, Nat.le_refl _, nothing_leads tokens _, declares,
    ⟨_, Tokens.kindAt_eq_some.mpr ⟨token, here, rfl⟩, seals⟩, fixed, silent⟩

theorem stride_markup (order : reader.pending ≤ reader.pos)
    (here : tokens[reader.pos]? = some token)
    (isMarkup : token.kind.isMarkup = true) :
    Stride tokens reader token (reader.markup tokens token) := by
  refine .leaf (header_single order here ?_ ⟨isMarkup, rfl, rfl, rfl⟩ ?_ ?_) rfl
    NodeKind.noConfusion
  · rw [TokenKind.seals, isMarkup]
    rfl
  · change (true && (if _ then _ else _ : Flags).inPhp && (if _ then _ else _ : Flags).editable) =
      false
    split <;> rfl
  · change (if _ then _ else _ : Flags).generator = false
    split <;> rfl

theorem stride_literal (order : reader.pending ≤ reader.pos)
    (here : tokens[reader.pos]? = some token)
    (isLiteral : token.kind.isLiteral = true) :
    Stride tokens reader token (reader.literal tokens token) := by
  refine .leaf (header_single order here ?_ ⟨isLiteral, rfl, rfl⟩ rfl rfl) rfl
    NodeKind.noConfusion
  rw [TokenKind.seals, isLiteral, Bool.or_true]
  rfl

theorem stride_namespaceWord (order : reader.pending ≤ reader.pos)
    (isOne : token.kind = .kwNamespace)
    (level : reader.atFileLevel = true) (idle : Idle tokens reader token) :
    Stride tokens reader token (reader.namespaceWord tokens) := by
  unfold namespaceWord
  simp only
  split
  · exact .idle idle
  · next last name header =>
      obtain ⟨behind, ends⟩ := scopeHeader_some header
      have seals : ∃ kind, tokens.kindAt last = some kind ∧ kind.seals = true := by
        rcases ends with semicolon | brace
        · exact ⟨_, semicolon, rfl⟩
        · exact ⟨_, brace, rfl⟩
      exact .scope level ⟨order, Nat.le_refl _, Nat.le_of_succ_le behind, nothing_leads tokens _,
        ⟨isOne, rfl⟩, seals, rfl, rfl⟩ rfl

theorem stride_useWord (order : reader.pending ≤ reader.pos)
    (isOne : token.kind = .kwUse) (level : reader.atFileLevel = true)
    (start : reader.atStatementStart tokens reader.pos = true) (idle : Idle tokens reader token) :
    Stride tokens reader token (reader.useWord tokens) := by
  unfold useWord
  simp only
  split
  · exact .idle idle
  · next last search =>
      split
      · next ends =>
          have semicolon : tokens.kindAt last = some .semicolon := eq_of_beq ends
          split
          · next unread => exact .astray isOne level start search semicolon unread
          · next entries read =>
              exact .imports ⟨order, Nat.le_refl _,
                Nat.le_of_succ_le (Tokens.firstFrom_some search).1, nothing_leads tokens _,
                ⟨isOne, rfl, start⟩, ⟨_, semicolon, rfl⟩, rfl, rfl⟩ rfl ends read
      · exact .idle idle

theorem stride_classWord (order : reader.pending ≤ reader.pos)
    (word : token.kind = .kwClass ∨ token.kind = .kwInterface ∨
      token.kind = .kwTrait ∨ token.kind = .identifier ∧ token.isWord "enum" = true)
    (idle : Idle tokens reader token)
    {kind : ClassKind} (done : reader.classWord tokens kind = .ok next) :
    Stride tokens reader token next := by
  unfold classWord at done
  simp only at done
  split at done
  · cases done
    exact .idle idle
  · next noMember =>
      split at done
      · cases done
        exact .idle idle
      · split at done
        · cases done
        · next last search =>
            obtain ⟨behind, ending, found, among⟩ := Tokens.firstOutside_some search
            split at done
            · cases done
              exact .idle idle
            · next noSemicolon =>
                have brace : tokens.kindAt last = some .openBrace := by
                  rcases List.mem_cons.mp among with rfl | semicolon
                  · exact found
                  · rw [List.mem_singleton.mp semicolon] at found
                    exact absurd (beq_iff_eq.mpr found) noSemicolon
                cases done
                refine .enter ⟨?_, ?_, Nat.le_of_succ_le behind, ?_,
                  ⟨word, eq_false_of_ne_true noMember, rfl, ?_⟩, ⟨_, brace, rfl⟩, rfl, rfl⟩
                  (.inl ⟨rfl, rfl⟩) (beq_iff_eq.mpr brace)
                · split
                  · exact order
                  · exact (modifierStart_bounds tokens order).1
                · split
                  · exact Nat.le_refl _
                  · exact (modifierStart_bounds tokens order).2
                · split
                  · exact nothing_leads tokens _
                  · exact modifierStart_leads tokens reader _
                · split
                  · next fresh => exact .inr ⟨rfl, fresh⟩
                  · exact .inl rfl

theorem stride_functionWord (order : reader.pending ≤ reader.pos)
    (isOne : token.kind = .kwFunction) (idle : Idle tokens reader token)
    (done : reader.functionWord tokens = .ok next) : Stride tokens reader token next := by
  unfold functionWord at done
  simp only at done
  split at done
  · cases done
    exact .idle idle
  · next noMember =>
      split at done
      · cases done
        exact .idle idle
      · next opening named =>
          have openingBehind := functionName_ge named
          split at done
          · split at done
            · cases done
            · next close closing =>
                have closeBehind := Tokens.closing_ge closing
                split at done
                · cases done
                · next last search =>
                    obtain ⟨behind, ending, found, among⟩ := Tokens.firstOutside_some search
                    have seals : ∃ kind, tokens.kindAt last = some kind ∧ kind.seals = true := by
                      refine ⟨ending, found, ?_⟩
                      rcases List.mem_cons.mp among with rfl | semicolon
                      · rfl
                      · rw [List.mem_singleton.mp semicolon]
                        rfl
                    have run := modifierStart_bounds tokens order
                    have header : Header tokens reader token (functionNode tokens reader
                        (functionName tokens reader.pos).1 (modifierStart tokens reader reader.pos)
                        reader.pos opening close last) (modifierStart tokens reader reader.pos)
                        last :=
                      ⟨run.1, run.2, by omega, modifierStart_leads tokens reader _,
                        ⟨isOne, eq_false_of_ne_true noMember, _, opening, close, closing,
                          openingBehind, behind, rfl⟩, seals, rfl, rfl⟩
                    split at done
                    · next brace =>
                        cases done
                        exact .enter header (.inr ⟨rfl, rfl, brace⟩) brace
                    · next noBrace =>
                        cases done
                        refine .leaf header ?_ NodeKind.noConfusion
                        change (!tokens.isAt last .openBrace) = true
                        rw [eq_false_of_ne_true noBrace]
                        rfl
          · cases done
            exact .idle idle

theorem stride_arrowWord (here : tokens[reader.pos]? = some token)
    (isOne : token.kind = .identifier) (isWord : token.isWord "fn" = true)
    (idle : tokens.arrowStop? reader.pos = none → Idle tokens reader token) :
    Stride tokens reader token (reader.arrowWord tokens) := by
  have begins (noMember : tokens.isMemberName reader.pos = false) :
      tokens.arrowStop? reader.pos =
        (arrowBody? tokens reader.pos).map tokens.expressionEnd := by
    rw [Tokens.arrowStop?, here, Option.bind_some, if_pos ⟨isOne, isWord, noMember⟩]
  unfold arrowWord
  simp only
  split
  · next member =>
      refine .idle (idle ?_)
      rw [Tokens.arrowStop?, here, Option.bind_some, if_neg]
      rintro ⟨-, -, noMember⟩
      rw [member] at noMember
      cases noMember
  · next noMember =>
      have stands := begins (eq_false_of_ne_true noMember)
      split
      · next none =>
          refine .idle (idle ?_)
          rw [stands, none, Option.map_none]
      · next body some =>
          refine .arrow ?_
          rw [stands, some, Option.map_some]

/-- A move is one of those listed. -/
theorem stride_of_step (order : reader.pending ≤ reader.pos)
    (here : tokens[reader.pos]? = some token) (done : reader.step tokens token = .ok next) :
    Stride tokens reader token next := by
  unfold step at done
  split at done
  · next isMarkup =>
      cases done
      exact stride_markup order here isMarkup
  · next noMarkup =>
      split at done
      · next isLiteral =>
          cases done
          exact stride_literal order here isLiteral
      · next noLiteral =>
          have code : token.kind.isMarkup = false := eq_false_of_ne_true noMarkup
          have plain : token.kind.isLiteral = false := eq_false_of_ne_true noLiteral
          -- A word that begins no construct stays pending.
          have idle (isWord : token.kind.isKeyword = true ∨ token.kind = .identifier)
              (noYield : token.kind ≠ .kwYield)
              (noArrow : tokens.arrowStop? reader.pos = none) : Idle tokens reader token := by
            have apart (kind : TokenKind) (noWord : kind.isKeyword = false)
                (noName : kind ≠ .identifier) : token.kind ≠ kind := by
              rintro rfl
              rcases isWord with isWord | isWord
              · rw [noWord] at isWord
                cases isWord
              · exact noName isWord
            exact ⟨code, plain, ⟨apart _ rfl TokenKind.noConfusion, apart _ rfl TokenKind.noConfusion⟩,
              ⟨apart _ rfl TokenKind.noConfusion, apart _ rfl TokenKind.noConfusion⟩,
              fun isOne => absurd isOne (apart _ rfl TokenKind.noConfusion),
              fun isOne => absurd isOne noYield, noArrow⟩
          have keyword {kind : TokenKind} (isOne : token.kind = kind)
              (isWord : kind.isKeyword = true) (noYield : kind ≠ .kwYield)
              (noName : kind ≠ .identifier) : Idle tokens reader token :=
            idle (.inl (isOne ▸ isWord)) (isOne ▸ noYield)
              (arrowStop?_of_kind here (isOne ▸ noName))
          split at done
          · next isOne =>
              have rest := keyword isOne rfl TokenKind.noConfusion TokenKind.noConfusion
              cases done
              split
              · next level => exact stride_namespaceWord order isOne level rest
              · exact .idle rest
          · next isOne =>
              have rest := keyword isOne rfl TokenKind.noConfusion TokenKind.noConfusion
              cases done
              split
              · next both =>
                  obtain ⟨level, start⟩ := Bool.and_eq_true_iff.mp both
                  exact stride_useWord order isOne level start rest
              · exact .idle rest
          · next isOne =>
              exact stride_classWord order (.inl isOne)
                (keyword isOne rfl TokenKind.noConfusion TokenKind.noConfusion) done
          · next isOne =>
              exact stride_classWord order (.inr (.inl isOne))
                (keyword isOne rfl TokenKind.noConfusion TokenKind.noConfusion) done
          · next isOne =>
              exact stride_classWord order (.inr (.inr (.inl isOne)))
                (keyword isOne rfl TokenKind.noConfusion TokenKind.noConfusion) done
          · next isOne =>
              have noYield : token.kind ≠ .kwYield := isOne ▸ TokenKind.noConfusion
              split at done
              · next enumerates =>
                  unfold isEnumeration at enumerates
                  rw [Bool.and_eq_true, Bool.and_eq_true] at enumerates
                  exact stride_classWord order (.inr (.inr (.inr ⟨isOne, enumerates.1.1⟩)))
                    (idle (.inr isOne) noYield
                      (arrowStop?_of_word here enumerates.1.1 (by decide))) done
              · split at done
                · next isWord =>
                    cases done
                    exact stride_arrowWord here isOne isWord (idle (.inr isOne) noYield)
                · next noWord =>
                    cases done
                    refine .idle (idle (.inr isOne) noYield ?_)
                    rw [Tokens.arrowStop?, here, Option.bind_some, if_neg fun all => noWord all.2.1]
          · next isOne =>
              exact stride_functionWord order isOne
                (keyword isOne rfl TokenKind.noConfusion TokenKind.noConfusion) done
          · next isOne =>
              cases done
              unfold yieldWord
              split
              · next inside =>
                  have noArrow := arrowStop?_of_kind here (isOne ▸ TokenKind.noConfusion)
                  exact .idle ⟨code, plain, by rw [isOne]; decide, by rw [isOne]; decide,
                    fun other => (by rw [isOne] at other; cases other), fun _ => inside, noArrow⟩
              · next outside => exact .yields isOne (eq_false_of_ne_true outside)
          · next isOne =>
              cases done
              exact .opening isOne
          · next isOne =>
              cases done
              unfold closingBrace
              simp only
              split
              · next closes => exact .leave isOne closes
              · next stays => exact .closing isOne (eq_false_of_ne_true stays)
          · next isOne =>
              cases done
              exact .openingParen isOne
          · next isOne =>
              cases done
              exact .closingParen isOne
          · next isOne =>
              cases done
              unfold statementEnd
              simp only
              split
              · next outside => exact .ending isOne outside
              · next within =>
                  exact .idle ⟨code, plain, by rw [isOne]; decide, by rw [isOne]; decide,
                    fun _ => within, fun other => (by rw [isOne] at other; cases other),
                    arrowStop?_of_kind here (isOne ▸ TokenKind.noConfusion)⟩
          · cases done
            rename_i noNamespace noUse noClass noInterface noTrait noIdentifier noFunction noYield
              noOpening noClosing noOpeningParen noClosingParen noSemicolon
            exact .idle ⟨code, plain, ⟨noOpening, noClosing⟩, ⟨noOpeningParen, noClosingParen⟩,
              fun isOne => absurd isOne noSemicolon, fun isOne => absurd isOne noYield,
              arrowStop?_of_kind here noIdentifier⟩

end Reader
end PhpWeave
