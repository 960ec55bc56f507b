import PhpWeave.Proofs.Grammar.Passing
import PhpWeave.Proofs.Grammar.Yielding
import PhpWeave.Proofs.Token.Word

set_option autoImplicit false

/-!
What a member name can open. Behind an arrow a word is never a keyword, and classes and functions do
not begin with a word behind any of the member operators. Behind a double colon the words of
namespaces and the word `yield` keep their meaning, and the word of an import does if a comment cuts
the code in front of it.
-/

namespace PhpWeave

/-- The constructs that begin with a word of their own. -/
def NodeKind.isConstruct : NodeKind → Bool
  | .scope | .imports | .classLike _ | .function => true
  | _ => false

theorem TokenKind.seals_of_isMemberAccess {kind : TokenKind} (access : kind.isMemberAccess = true) :
    kind.seals = false := by
  cases kind <;> first | rfl | cases access

theorem TokenKind.isLiteral_of_seals {kind : TokenKind} (trivia : kind.isTrivia = true)
    (seals : kind.seals = true) : kind.isLiteral = true := by
  cases kind <;> first | rfl | exact absurd seals (by decide) | cases trivia

namespace Tokens

/-- A comment stands between the last significant token and a position. -/
def CutBefore (tokens : Tokens) (index : Nat) : Prop :=
  ∃ before comment kind, tokens.prevSignificant index = some before ∧ before < comment ∧
    comment < index ∧ tokens.kindAt comment = some kind ∧ kind.isTrivia = true ∧
    kind.isLiteral = true

def Begins (tokens : Tokens) (kind : NodeKind) (word : Nat) : Prop :=
  match kind with
  | .scope => tokens.kindAt word = some .kwNamespace
  | .imports => tokens.kindAt word = some .kwUse ∧
      (tokens.isMemberName word = true → tokens.CutBefore word)
  | .classLike _ => (∃ token, tokens[word]? = some token ∧ (token.kind = .kwClass ∨
      token.kind = .kwInterface ∨ token.kind = .kwTrait ∨
      token.kind = .identifier ∧ token.isWord "enum" = true)) ∧ tokens.isMemberName word = false
  | .function => tokens.kindAt word = some .kwFunction ∧ tokens.isMemberName word = false
  | _ => False

/-- The first of some tokens that is neither a modifier nor white space. -/
structure Heads (tokens : Tokens) (first word : Nat) : Prop where
  first_le : first ≤ word
  leads : ∀ index, first ≤ index → index < word →
    ∃ kind, tokens.kindAt index = some kind ∧ kind.leads = true
  solid : ∃ kind, tokens.kindAt word = some kind ∧ kind.leads = false

theorem Heads.unique {tokens : Tokens} {first word other : Nat} (heads : tokens.Heads first word)
    (another : tokens.Heads first other) : word = other := by
  have apart {left right : Nat} (isLeft : tokens.Heads first left)
      (isRight : tokens.Heads first right) (before : left < right) : False := by
    obtain ⟨kind, here, leads⟩ := isRight.leads left isLeft.first_le before
    obtain ⟨same, found, solid⟩ := isLeft.solid
    rw [here] at found
    cases found
    rw [leads] at solid
    cases solid
  rcases Nat.lt_trichotomy word other with less | same | more
  · exact (apart heads another less).elim
  · exact same
  · exact (apart another heads more).elim

theorem Begins.solid {tokens : Tokens} {kind : NodeKind} {word : Nat}
    (begins : tokens.Begins kind word) :
    ∃ found, tokens.kindAt word = some found ∧ found.leads = false := by
  unfold Begins at begins
  split at begins
  · exact ⟨_, begins, rfl⟩
  · exact ⟨_, begins.1, rfl⟩
  · obtain ⟨⟨token, here, isOne⟩, -⟩ := begins
    refine ⟨_, kindAt_eq_some.mpr ⟨token, here, rfl⟩, ?_⟩
    rcases isOne with isOne | isOne | isOne | ⟨isOne, -⟩ <;> rw [isOne] <;> rfl
  · exact ⟨_, begins.1, rfl⟩
  · exact begins.elim

end Tokens

theorem Scan.behind_colon {mode : Mode} {source : Text} {tokens : Tokens}
    (scanned : tokens = (scan mode source).toArray) {word : Nat} {kind : TokenKind}
    (here : tokens.kindAt word = some kind) (isKeyword : kind.isKeyword = true)
    (member : tokens.isMemberName word = true) : tokens.prevKind word = some .doubleColon := by
  obtain ⟨noArrow, noNullsafe⟩ := keyword_apart scanned here isKeyword
  unfold Tokens.isMemberName at member
  cases back : tokens.prevKind word with
  | none =>
      rw [back] at member
      cases member
  | some before =>
      rw [back] at member noArrow noNullsafe
      cases before <;> first | exact absurd rfl noArrow | exact absurd rfl noNullsafe | rfl |
        cases member

namespace Reader

variable {tokens : Tokens} {reader next : Reader} {token : Token}

def Cut (tokens : Tokens) (reader : Reader) : Prop :=
  reader.pending = 0 ∨ ∃ kind, tokens.kindAt (reader.pending - 1) = some kind ∧
    (kind.seals = true ∨ kind = .closeBrace)

theorem Goes.cut (goes : Goes tokens reader token next) (cut : Cut tokens reader) :
    Cut tokens next := by
  have behind {last : Nat} {kind : TokenKind} (pending : next.pending = last + 1)
      (here : tokens.kindAt last = some kind) (ends : kind.seals = true ∨ kind = .closeBrace) :
      Cut tokens next := by
    refine .inr ⟨kind, ?_, ends⟩
    rw [pending, Nat.add_sub_cancel]
    exact here
  have atPos : tokens.kindAt reader.pos = some token.kind :=
    Tokens.kindAt_eq_some.mpr ⟨token, goes.here, rfl⟩
  cases goes.course with
  | stays noBrace pos pending events => rw [Cut, pending]; exact cut
  | astray isOne level onward pending events => rw [Cut, pending]; exact cut
  | settles isOne pos pending events =>
      refine behind pending atPos ?_
      rcases isOne with isOne | isOne | isOne
      · exact .inl (by rw [isOne]; rfl)
      · exact .inr isOne
      · exact .inl (by rw [isOne]; rfl)
  | declares header reports closes imports pos pending events =>
      obtain ⟨kind, here, seals⟩ := header.seals
      exact behind pending here (.inl seals)
  | leaves isOne pos pending events => exact behind pending atPos (.inr isOne)

section Whole

variable (spelled : Spelled tokens) (tagged : Tagged tokens)
include spelled tagged

theorem Reached.cut (reached : Reached tokens reader) : Cut tokens reader := by
  induction reached with
  | refl => exact .inl rfl
  | tail reached moves ih =>
      obtain ⟨token, goes⟩ := moves.goes spelled tagged reached
      exact goes.cut ih

/-- In front of reported plain code something ended. -/
theorem cut_of_eventsOf {events : List Event} (done : eventsOf tokens = .ok events) :
    ∀ event ∈ events, ∀ node first last,
      (event = .leaf node first last ∨ event = .enter node first last) →
      node.isEditable = true → first = 0 ∨ ∃ kind, tokens.kindAt (first - 1) = some kind ∧
        (kind.seals = true ∨ kind = .closeBrace) := by
  refine forall_events spelled tagged done ?_ ?_ ?_ ?_ ?_
  · intro reader stop reached event member node first last reports editable
    unfold plainEvents at member
    split at member
    · cases List.mem_singleton.mp member
      rcases reports with same | same
      · cases same
        exact reached.cut spelled tagged
      · cases same
    · cases member
  · intro reader token node first last reached header here
    constructor
    · intro other from_ upto reports editable
      rcases reports with same | same <;> cases same
      rw [header.fixed] at editable
      cases editable
    · intro other from_ upto reports editable
      rcases reports with same | same <;> cases same
      rw [header.fixed] at editable
      cases editable
  · exact fun close last node first upto reports => by rcases reports with same | same <;> cases same
  · exact fun node first last reports => by rcases reports with same | same <;> cases same
  · exact fun entries node first last reports => by rcases reports with same | same <;> cases same

/-- A statement that begins behind a member operator is cut off from it by a comment. -/
theorem Reached.cutBefore (reached : Reached tokens reader)
    (start : reader.atStatementStart tokens reader.pos = true) {kind : TokenKind}
    (here : tokens.kindAt reader.pos = some kind) (solid : kind.isTrivia = false)
    (member : tokens.isMemberName reader.pos = true) : tokens.CutBefore reader.pos := by
  obtain ⟨frames, sound⟩ := reached.sound spelled tagged
  obtain ⟨standing, found, rfl⟩ := Tokens.kindAt_eq_some.mp here
  have blank := blank_of_atStatementStart start sound.pending_le found
    (by rw [Tokens.isSignificant, solid]; rfl)
  unfold Tokens.isMemberName Tokens.prevKind at member
  cases back : tokens.prevSignificant reader.pos with
  | none =>
      rw [back] at member
      cases member
  | some before =>
      obtain ⟨isBefore, ⟨found, there, significant⟩, between⟩ := Tokens.lastBelow_some back
      have kindThere := Tokens.kindAt_eq_some.mpr ⟨found, there, rfl⟩
      rw [back, Option.bind_some, kindThere] at member
      have access : found.kind.isMemberAccess = true := member
      have isBefore := (Nat.lt_min.mp isBefore).1
      -- The operator is not pending, and what stands in front of the pending tokens is none.
      have early : before < reader.pending := by
        by_contra pending
        rw [blank before (Nat.le_of_not_lt pending) isBefore found there] at significant
        cases significant
      rcases reached.cut spelled tagged with none | ⟨kind, cut, ends⟩
      · omega
      · have apart : before ≠ reader.pending - 1 := by
          rintro rfl
          rw [kindThere] at cut
          cases cut
          rcases ends with ends | ends
          · rw [TokenKind.seals_of_isMemberAccess access] at ends
            cases ends
          · rw [ends] at access
            cases access
        have order := sound.pending_le
        obtain ⟨comment, isComment, rfl⟩ := Tokens.kindAt_eq_some.mp cut
        have inside := Tokens.lt_size_of_kindAt here
        have trivia := between (reader.pending - 1) (by omega)
          (Nat.lt_min.mpr ⟨by omega, by omega⟩) comment isComment
        rw [Tokens.isSignificant, Bool.not_eq_false'] at trivia
        refine ⟨before, reader.pending - 1, _, back, by omega, by omega, cut, trivia, ?_⟩
        rcases ends with ends | ends
        · exact TokenKind.isLiteral_of_seals trivia ends
        · rw [ends] at trivia
          cases trivia

theorem Header.begins {node : Node} {first last : Nat}
    (header : Header tokens reader token node first last) (reached : Reached tokens reader)
    (here : tokens[reader.pos]? = some token) (isOne : node.kind.isConstruct = true) :
    tokens.Heads first reader.pos ∧ tokens.Begins node.kind reader.pos := by
  have kindHere : tokens.kindAt reader.pos = some token.kind :=
    Tokens.kindAt_eq_some.mpr ⟨token, here, rfl⟩
  have begins : tokens.Begins node.kind reader.pos := by
    have declares := header.declares
    unfold Declares at declares
    unfold Tokens.Begins
    split at declares
    · exact declares.elim
    · next kind => rw [kind]; exact declares.1 ▸ kindHere
    · next kind =>
        rw [kind]
        have isUse : tokens.kindAt reader.pos = some .kwUse := declares.1 ▸ kindHere
        exact ⟨isUse, reached.cutBefore spelled tagged declares.2.2 isUse rfl⟩
    · next kind => rw [kind]; exact ⟨⟨token, here, declares.1⟩, declares.2.1⟩
    · next kind => rw [kind]; exact ⟨declares.1 ▸ kindHere, declares.2.1⟩
    · next kind => rw [kind] at isOne; cases isOne
    · next kind => rw [kind] at isOne; cases isOne
  exact ⟨⟨header.first_le, header.leads, begins.solid⟩, begins⟩

theorem begins_of_eventsOf {events : List Event} (done : eventsOf tokens = .ok events) :
    ∀ event ∈ events, ∀ node first last,
      (event = .leaf node first last ∨ event = .enter node first last) →
      node.kind.isConstruct = true →
      ∃ word, word ≤ last ∧ tokens.Heads first word ∧ tokens.Begins node.kind word := by
  intro event member node first last reports isOne
  have noCode : node.kind ≠ .code := fun isCode => by
    rw [isCode] at isOne
    cases isOne
  obtain ⟨reader, token, reached, here, header⟩ :=
    header_of_eventsOf spelled tagged done event member node first last reports noCode
  exact ⟨reader.pos, header.pos_le, header.begins spelled tagged reached here isOne⟩

end Whole

end Reader

namespace Tree

/-- The word that a construct begins with, behind its modifiers. -/
def OpenedBy (tokens : Tokens) (stretches : List Stretch) (id word : Nat) : Prop :=
  ∃ first stop, ⟨.body id, first, stop⟩ ∈ stretches ∧ word < stop ∧ tokens.Heads first word

theorem OpenedBy.inside {tree : Tree} {tokens : Tokens} {stretches : List Stretch} {id word : Nat}
    (opened : OpenedBy tokens stretches id word) (ranges : tree.Ranges tokens stretches)
    (linked : tree.Linked) : id < tree.size := by
  obtain ⟨first, stop, among, -⟩ := opened
  exact (ranges.over_root linked among).1

theorem OpenedBy.unique {tree : Tree} {tokens : Tokens} {stretches : List Stretch}
    {id word other : Nat} (opened : OpenedBy tokens stretches id word)
    (ranges : tree.Ranges tokens stretches) (linked : tree.Linked)
    (openedToo : OpenedBy tokens stretches id other) : word = other := by
  obtain ⟨first, stop, among, -, heads⟩ := opened
  obtain ⟨firstToo, stopToo, amongToo, -, headsToo⟩ := openedToo
  cases ranges.same_stretch linked among amongToo rfl
  exact heads.unique headsToo

end Tree

theorem Told.begins {tokens : Tokens} {events : List Event} {tree : Tree}
    {stretches : List Stretch} (told : Told tokens events tree stretches)
    (spelled : Spelled tokens) (tagged : Tagged tokens) {id : Nat} (inside : id < tree.size)
    (below : Tree.root < id) (isOne : (tree.node id).kind.isConstruct = true) :
    ∃ word, Tree.OpenedBy tokens stretches id word ∧
      tokens.Begins (tree.node id).kind word := by
  obtain ⟨before, event, node, first, last, member, reports, housed⟩ :=
    told.exists_housed inside below
  have kind := housed.property Node.kind fun _ => rfl
  rw [kind] at isOne ⊢
  obtain ⟨word, upto, heads, begins⟩ :=
    Reader.begins_of_eventsOf spelled tagged told.read event member node first last reports isOne
  exact ⟨word, ⟨first, last + 1, housed.among, Nat.lt_succ_of_le upto, heads⟩, begins⟩

namespace Tree

/-- A word of plain code that counts for a function. -/
structure YieldsFor (tree : Tree) (tokens : Tokens) (stretches : List Stretch)
    (function word : Nat) : Prop where
  isYield : tokens.kindAt word = some .kwYield
  code : ∃ id, tree.HoldsCode stretches id word ∧ (tree.node id).function = some function

/-- Words behind member operators open nothing, but for namespaces behind a double colon, imports
behind a double colon and a comment, and the word `yield` behind a double colon. -/
structure MembersInert (tree : Tree) (tokens : Tokens) (stretches : List Stretch) : Prop where
  opened : ∀ id < tree.size, (tree.node id).kind.isConstruct = true →
    ∃ word, OpenedBy tokens stretches id word
  constructs : ∀ id word, (tree.node id).kind.isConstruct = true →
    OpenedBy tokens stretches id word → tokens.isMemberName word = true →
      tokens.prevKind word = some .doubleColon ∧ ((tree.node id).kind = .scope ∨
        (tree.node id).kind = .imports ∧ tokens.CutBefore word)
  yields : ∀ function, (tree.node function).flags.generator = true →
    ∃ word, tree.YieldsFor tokens stretches function word ∧
      (tokens.isMemberName word = true → tokens.prevKind word = some .doubleColon)

/-- No member name of a file is the word that a class, a function or, behind an arrow, anything else
begins with. -/
theorem inert_of_parse {listLines : Bool} {source : Text} {tree : Tree}
    (parsed : parse listLines source = .ok tree) :
    ∃ stretches, tree.Ranges (TokenStream.ofText .html source).tokens stretches ∧
      tree.MembersInert (TokenStream.ofText .html source).tokens stretches := by
  obtain ⟨events, stretches, told⟩ := told_of_parse parsed
  have linked := (native_of_parse parsed).linked
  have spelled := Scan.spelled_scan .html source
  have tagged := Scan.tagged_scan .html source
  have begins {id : Nat} (inside : id < tree.size)
      (isOne : (tree.node id).kind.isConstruct = true) :=
    told.begins spelled tagged inside
      (below_of_kind parsed inside fun isFile => by
        rw [isFile] at isOne
        cases isOne) isOne
  refine ⟨stretches, told.ranges, ?_, ?_, ?_⟩
  · intro id inside isOne
    obtain ⟨word, opened, -⟩ := begins inside isOne
    exact ⟨word, opened⟩
  · intro id word isOne opened member
    obtain ⟨other, openedToo, isWord⟩ := begins (opened.inside told.ranges linked) isOne
    obtain rfl := opened.unique told.ranges linked openedToo
    cases kind : (tree.node id).kind <;> rw [kind] at isWord isOne <;> try cases isOne
    · exact ⟨Scan.behind_colon rfl isWord rfl member, .inl rfl⟩
    · exact ⟨Scan.behind_colon rfl isWord.1 rfl member, .inr ⟨rfl, isWord.2 member⟩⟩
    · rw [isWord.2] at member
      cases member
    · rw [isWord.2] at member
      cases member
  · intro function flagged
    obtain ⟨reader, reached, isYield, -, innermost⟩ :=
      (told.generator_iff_reached spelled tagged function).mp flagged
    obtain ⟨id, holds, -, same⟩ := told.holds_of_quiet spelled tagged reached (.inl isYield)
    exact ⟨reader.pos, ⟨isYield, id, holds, same.trans innermost⟩,
      Scan.behind_colon rfl isYield rfl⟩

/-- Members with the names of some of the words. -/
theorem inert_of_parse_members :
    ∃ tree, parse false "<?php class A{function b(){$a->use;A::class;yield $a->yield;}}".toList =
        .ok tree ∧
      ∃ stretches, tree.Ranges (TokenStream.ofText .html
          "<?php class A{function b(){$a->use;A::class;yield $a->yield;}}".toList).tokens stretches ∧
        tree.MembersInert (TokenStream.ofText .html
          "<?php class A{function b(){$a->use;A::class;yield $a->yield;}}".toList).tokens
            stretches := by
  have closes : (parse false
      "<?php class A{function b(){$a->use;A::class;yield $a->yield;}}".toList).toBool = true := by
    decide +kernel
  cases parsed : parse false
      "<?php class A{function b(){$a->use;A::class;yield $a->yield;}}".toList with
  | error fault =>
      rw [parsed] at closes
      cases closes
  | ok tree => exact ⟨tree, rfl, inert_of_parse parsed⟩

/-- A namespace begins with the name of a member. -/
theorem scope_of_member_name :
    ((parse false "<?php A::namespace;".toList).toOption.map fun tree =>
      (tree.size, (tree.node 3).kind, (tree.node 3).body)) =
        some (4, .scope, "namespace;".toList) ∧
      ∀ index, (TokenStream.ofText .html "<?php A::namespace;".toList).tokens.kindAt index =
          some .kwNamespace →
        (TokenStream.ofText .html "<?php A::namespace;".toList).tokens.isMemberName index = true := by
  refine ⟨by decide +kernel, fun index isWord => ?_⟩
  have inside := Tokens.lt_size_of_kindAt isWord
  have all : ∀ index < (TokenStream.ofText .html "<?php A::namespace;".toList).tokens.size,
      (TokenStream.ofText .html "<?php A::namespace;".toList).tokens.kindAt index =
          some .kwNamespace →
        (TokenStream.ofText .html "<?php A::namespace;".toList).tokens.isMemberName index =
          true := by
    decide +kernel
  exact all index inside isWord

end Tree
end PhpWeave
