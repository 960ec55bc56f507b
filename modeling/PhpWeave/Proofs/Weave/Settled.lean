import PhpWeave.Proofs.Weave.Assignment

set_option autoImplicit false

/-!
A redirection settles what it redirects. Variables in the place of names take no part in what the
tokens around them refer to, and refer to nothing, so a second redirection of a tree finds no
reference and leaves the tree as it is.
-/

namespace PhpWeave

open Scan Lexeme PhpWeave.Tree

namespace Redirection

/-! ### Names that became variables -/

/-- Token lists of which the second has variables in the place of names that may refer to
something, but not of the word `const`. -/
structure Renamed (tokens other : Tokens) : Prop where
  size : other.size = tokens.size
  kindAt : ∀ {α : Type} (property : TokenKind → α),
    (∀ kind, isReferable kind = true → property kind = property .variableName) →
      ∀ index, (other.kindAt index).map property = (tokens.kindAt index).map property
  const : ∀ index : Nat, other[index]?.map (Token.isWord · "const") =
    tokens[index]?.map (Token.isWord · "const")

variable {tokens other : Tokens}

theorem Renamed.isAt (renamed : Renamed tokens other) {kind : TokenKind}
    (fixed : isReferable kind = false) (apart : kind ≠ .variableName) (index : Nat) :
    other.isAt index kind = tokens.isAt index kind := by
  have tests (list : Tokens) :
      list.isAt index kind = ((list.kindAt index).map (· == kind)).getD false := by
    rw [Tokens.isAt]
    cases list.kindAt index <;> rfl
  rw [tests, tests, renamed.kindAt (· == kind) fun found referable => ?_]
  have different : found ≠ kind := fun same => by
    rw [same, fixed] at referable
    cases referable
  rw [beq_false_of_ne different, beq_false_of_ne apart.symm]

theorem Renamed.significant (renamed : Renamed tokens other) (index : Nat) :
    other[index]?.map Tokens.isSignificant = tokens[index]?.map Tokens.isSignificant := by
  have same := renamed.kindAt (fun kind => !kind.isTrivia)
    (fun kind referable => by cases kind <;> first | rfl | cases referable) index
  rw [Tokens.kindAt, Tokens.kindAt, Option.map_map, Option.map_map] at same
  exact same

theorem Renamed.nextSignificant (renamed : Renamed tokens other) (index : Nat) :
    other.nextSignificant index = tokens.nextSignificant index := by
  rw [Tokens.nextSignificant, Tokens.nextSignificant, Tokens.firstFrom, Tokens.firstFrom,
    renamed.size, Tokens.firstWithin_congr renamed.significant]

theorem Renamed.prevSignificant (renamed : Renamed tokens other) (index : Nat) :
    other.prevSignificant index = tokens.prevSignificant index := by
  rw [Tokens.prevSignificant, Tokens.prevSignificant, Tokens.lastBefore, Tokens.lastBefore,
    renamed.size, Tokens.lastBelow_congr renamed.significant]

theorem Renamed.prevKind (renamed : Renamed tokens other) {α : Type} (property : TokenKind → α)
    (even : ∀ kind, isReferable kind = true → property kind = property .variableName)
    (index : Nat) :
    (other.prevKind index).map property = (tokens.prevKind index).map property := by
  rw [Tokens.prevKind, Tokens.prevKind, renamed.prevSignificant]
  cases tokens.prevSignificant index with
  | none => rfl
  | some previous => exact renamed.kindAt property even previous

theorem Renamed.followsConst (renamed : Renamed tokens other) (index : Nat) :
    Reference.followsConst other index = Reference.followsConst tokens index := by
  rw [Reference.followsConst, Reference.followsConst, renamed.prevSignificant]
  cases tokens.prevSignificant index with
  | none => rfl
  | some previous =>
      rw [Option.bind_some, Option.bind_some]
      exact congrArg (Option.getD · false) (renamed.const previous)

theorem Renamed.useBeforeMember? (renamed : Renamed tokens other) (colons : Nat) :
    Reference.useBeforeMember? other colons = Reference.useBeforeMember? tokens colons := by
  rw [Reference.useBeforeMember?, Reference.useBeforeMember?, renamed.nextSignificant]
  congr 1
  funext member
  rw [renamed.isAt rfl TokenKind.noConfusion]

theorem Renamed.use? (renamed : Renamed tokens other) {index : Nat}
    (here : other.kindAt index = tokens.kindAt index) :
    Reference.use? other index = Reference.use? tokens index := by
  have isNew : (other.prevKind index = some .kwNew) = (tokens.prevKind index = some .kwNew) := by
    have tests (list : Tokens) : (list.prevKind index = some .kwNew) =
        ((list.prevKind index).map (· == .kwNew) = some true) := by
      cases list.prevKind index <;> simp
    rw [tests, tests, renamed.prevKind (· == TokenKind.kwNew) fun kind referable => by
      cases kind <;> first | rfl | cases referable]
  have ownName : (other.prevKind index).map Reference.precedesOwnName =
      (tokens.prevKind index).map Reference.precedesOwnName :=
    renamed.prevKind _ (fun kind referable => by cases kind <;> first | rfl | cases referable) index
  have follows : (fun next => if other.isAt next .openParen then some NameUse.call
        else if other.isAt next .doubleColon then Reference.useBeforeMember? other next
        else none) =
      fun next => if tokens.isAt next .openParen then some NameUse.call
        else if tokens.isAt next .doubleColon then Reference.useBeforeMember? tokens next
        else none := by
    funext next
    rw [renamed.isAt rfl TokenKind.noConfusion, renamed.isAt rfl TokenKind.noConfusion,
      renamed.useBeforeMember?]
  unfold Reference.use?
  rw [here, renamed.followsConst, ownName, renamed.nextSignificant, follows]
  simp only [isNew]

theorem inAttribute_congr {left right : List Token} (depth : Nat)
    (same : left.map (fun token depth => Reference.attributeDepth depth token) =
      right.map fun token depth => Reference.attributeDepth depth token) :
    Reference.inAttribute depth left = Reference.inAttribute depth right := by
  induction left generalizing right depth with
  | nil => rw [List.map_eq_nil_iff.mp same.symm]
  | cons token left ih =>
      cases right with
      | nil => cases same
      | cons token' right =>
          obtain ⟨here, later⟩ := List.cons.inj same
          have after := congrFun here depth
          simp only at after
          rw [Reference.inAttribute, Reference.inAttribute, after, ih _ later]

theorem Renamed.inAttribute (renamed : Renamed tokens other) :
    Reference.inAttribute 0 other.toList = Reference.inAttribute 0 tokens.toList := by
  refine inAttribute_congr 0 (List.ext_getElem? fun index => ?_)
  have same := renamed.kindAt (fun kind depth => Reference.attributeDepth depth ⟨kind, [], 0⟩)
    (fun kind referable => by cases kind <;> first | rfl | cases referable) index
  rw [Tokens.kindAt, Tokens.kindAt, Option.map_map, Option.map_map] at same
  rw [List.getElem?_map, List.getElem?_map, Array.getElem?_toList, Array.getElem?_toList]
  exact same

/-! ### A piece of code -/

/-- A token as it stands afterwards: a variable in the place of a reference. -/
def putShape (variableOf : Reference → Text) (entry : Token × Option Reference) : Shape :=
  match entry.2 with
  | none => shape entry.1
  | some reference => (.variableName, variableOf reference)

def variableIn (redirection : Redirection) (ledger : Ledger) (block : Nat)
    (reference : Reference) : Text :=
  redirection.variableAt (ledger.number block reference)

variable {redirection : Redirection} {ledger : Ledger} {block : Nat}
  {entries : List (Token × Option Reference)}

theorem spell_putShape (entries : List (Token × Option Reference)) :
    spell (entries.map (putShape (redirection.variableIn ledger block))) =
      entries.flatMap (redirection.putWith ledger block) := by
  rw [spell, List.flatMap_map]
  congr 1
  funext entry
  unfold putShape putWith variableIn
  cases entry.2 <;> rfl

theorem replaced_putShape (tagged : redirection.Tagged)
    (words : ∀ entry ∈ entries, ∀ reference, entry.2 = some reference →
      entry.1.kind.isIdentifierLike = true) :
    Replaced true (entries.map Prod.fst)
      (entries.map (putShape (redirection.variableIn ledger block))) := by
  induction entries with
  | nil => exact .nil
  | cons entry entries ih =>
      have later := ih fun other member => words other (List.mem_cons_of_mem _ member)
      have word := words entry List.mem_cons_self
      obtain ⟨token, choice⟩ := entry
      cases choice with
      | none => exact .keep token later
      | some reference =>
          have like := word reference rfl
          have noBrace : isBrace token.kind = false := by
            cases kind : token.kind <;> first | rfl | (rw [kind] at like; cases like)
          exact .put token (.reference rfl like (by simp [spell, variableAt_eq, startsWhere]))
            (noBrace ▸ tagged.stands _) later

variable {imports : ImportTable} {code : Text}

theorem fst_entriesOf : (redirection.entriesOf imports code).map Prod.fst = scan .php code := by
  rw [entriesOf, List.map_fst_zip (Nat.le_of_eq (length_ofTokens _ _ _).symm), Fragment.tokens]

theorem referable_of_entry {entry : Token × Option Reference}
    (member : entry ∈ redirection.entriesOf imports code) {reference : Reference}
    (isOne : entry.2 = some reference) : isReferable entry.1.kind = true ∧
      Reference.isReserved redirection.reserved entry.1.text = false := by
  obtain ⟨index, refers⟩ := refers_of_mem (isOne ▸ member :
    (entry.1, some reference) ∈ redirection.entriesOf imports code)
  exact ⟨refers.isReferable, refers.free⟩

theorem shapes_put (imports : ImportTable) (ledger : Ledger) (block : Nat)
    (tagged : redirection.Tagged) (plain : ∀ token ∈ scan .php code, token.kind.isMarkup = false) :
    Fragment.shapes ((redirection.entriesOf imports code).flatMap
        (redirection.putWith ledger block)) =
      (redirection.entriesOf imports code).map (putShape (redirection.variableIn ledger block)) := by
  have words : ∀ entry ∈ redirection.entriesOf imports code, ∀ reference,
      entry.2 = some reference → entry.1.kind.isIdentifierLike = true :=
    fun entry member reference isOne =>
      isIdentifierLike_of_isReferable (referable_of_entry member isOne).1
  have replaced : Replaced true _
      ((redirection.entriesOf imports code).map (putShape (redirection.variableIn ledger block))) :=
    replaced_putShape tagged words
  have cut : tokensFrom (State.start .php) (Token.textOf (scan .php code)) = scan .php code := by
    rw [scan_eq, (tokensFrom_spells (State.start .php) code).1]
  rw [fst_entriesOf] at replaced
  rw [← spell_putShape, Fragment.shapes, scan_eq]
  exact rescan_of_replaced replaced cut rfl rfl fun _ => ⟨rfl, plain⟩

theorem not_const {token : Token} (kept : "const".toList ∈ redirection.reserved)
    (free : Reference.isReserved redirection.reserved token.text = false) :
    token.isWord "const" = false := by
  refine eq_false_of_ne_true fun isConst => ?_
  have small : Text.lower token.text = "const".toList := eq_of_beq isConst
  have bare : Text.dropLeadingSeparators token.text = token.text := by
    cases text : token.text with
    | nil => rfl
    | cons c rest =>
        rw [text] at small
        have first : c.toLower = 'c' := (List.cons.inj small).1
        refine List.dropWhile_cons_of_neg fun isSlash => ?_
        rw [eq_of_beq isSlash] at first
        exact absurd first (by decide)
  rw [Reference.isReserved, bare, small, List.contains_iff_mem.mpr kept] at free
  cases free

theorem renamed_put (kept : "const".toList ∈ redirection.reserved) {after : Tokens}
    (found : after.toList.map shape =
      (redirection.entriesOf imports code).map (putShape (redirection.variableIn ledger block))) :
    Renamed (Fragment.tokens code) after := by
  have fst : (Fragment.tokens code).toList =
      (redirection.entriesOf imports code).map Prod.fst := fst_entriesOf.symm
  have old (index : Nat) : (Fragment.tokens code)[index]? =
      (redirection.entriesOf imports code)[index]?.map Prod.fst := by
    rw [← Array.getElem?_toList, fst, List.getElem?_map]
  have new (index : Nat) : after[index]?.map shape =
      (redirection.entriesOf imports code)[index]?.map
        (putShape (redirection.variableIn ledger block)) := by
    rw [← Array.getElem?_toList, ← List.getElem?_map, found, List.getElem?_map]
  constructor
  case size =>
    have lengths := congrArg List.length found
    rw [List.length_map, List.length_map] at lengths
    rw [← Array.length_toList, lengths, ← Array.length_toList, fst, List.length_map]
  case kindAt =>
    intro α property even index
    have kinds : after.kindAt index = (after[index]?.map shape).map Prod.fst := by
      rw [Option.map_map]
      rfl
    rw [kinds, new, Tokens.kindAt, old, Option.map_map, Option.map_map, Option.map_map,
      Option.map_map]
    refine Option.map_congr fun entry here => ?_
    have member := List.mem_of_getElem? here
    simp only [Function.comp_apply, putShape]
    cases choice : entry.2 with
    | none => rfl
    | some reference => exact (even _ (referable_of_entry member choice).1).symm
  case const =>
    intro index
    have words : after[index]?.map (Token.isWord · "const") =
        (after[index]?.map shape).map fun shape => Text.sameWord shape.2 "const" := by
      rw [Option.map_map]
      rfl
    rw [words, new, old, Option.map_map, Option.map_map]
    refine Option.map_congr fun entry here => ?_
    have member := List.mem_of_getElem? here
    simp only [Function.comp_apply, putShape]
    cases choice : entry.2 with
    | none => rfl
    | some reference =>
        rw [not_const kept (referable_of_entry member choice).2]
        simp only [variableIn, variableAt_eq]
        rfl

/-- What is redirected refers to nothing more. -/
theorem settled_put (imports : ImportTable) (ledger : Ledger) (block : Nat)
    (tagged : redirection.Tagged) (kept : "const".toList ∈ redirection.reserved)
    (plain : ∀ token ∈ scan .php code, token.kind.isMarkup = false) :
    (Reference.ofTokens redirection.reserved imports (Fragment.tokens
      ((redirection.entriesOf imports code).flatMap (redirection.putWith ledger block)))).any
        Option.isSome = false := by
  have found := shapes_put imports ledger block tagged plain
  generalize (redirection.entriesOf imports code).flatMap (redirection.putWith ledger block) =
    written at found
  have renamed : Renamed (Fragment.tokens code) (Fragment.tokens written) :=
    renamed_put kept found
  refine List.any_eq_false.mpr fun choice member isOne => ?_
  obtain ⟨reference, rfl⟩ := Option.isSome_iff_exists.mp isOne
  obtain ⟨index, found'⟩ := List.mem_iff_getElem?.mp member
  have inside : index < (Fragment.tokens written).toList.length := by
    rw [← length_ofTokens redirection.reserved imports]
    exact (List.getElem?_eq_some_iff.mp found').1
  obtain ⟨token, here⟩ : ∃ token, (Fragment.tokens written)[index]? = some token := by
    rw [← Array.getElem?_toList]
    exact ⟨_, List.getElem?_eq_getElem inside⟩
  have refers := (refers_iff here).mp found'
  -- The token refers to something, so it is no variable and stood there before.
  obtain ⟨entry, before, stays⟩ : ∃ entry, (redirection.entriesOf imports code)[index]? =
      some entry ∧ putShape (redirection.variableIn ledger block) entry = shape token := by
    have shapes : ((Fragment.tokens written).toList.map shape)[index]? = some (shape token) := by
      rw [List.getElem?_map, Array.getElem?_toList, here]
      rfl
    rw [show (Fragment.tokens written).toList.map shape = _ from found, List.getElem?_map] at shapes
    exact Option.map_eq_some_iff.mp shapes
  obtain ⟨old, choice⟩ := entry
  obtain ⟨oldHere, oldChoice⟩ := List.getElem?_zip_eq_some.mp before
  rw [Array.getElem?_toList] at oldHere
  cases choice with
  | some other =>
      have kind : token.kind = .variableName := (congrArg Prod.fst stays).symm
      have referable := refers.isReferable
      rw [kind] at referable
      cases referable
  | none =>
      have kind : old.kind = token.kind := congrArg Prod.fst stays
      have text : old.text = token.text := congrArg Prod.snd stays
      have same : (Fragment.tokens written).kindAt index = (Fragment.tokens code).kindAt index := by
        rw [Tokens.kindAt, Tokens.kindAt, here, oldHere, Option.map_some, Option.map_some, kind]
      have referred : Refers redirection.reserved imports (Fragment.tokens code) old reference
          index :=
        ⟨oldHere, renamed.inAttribute ▸ refers.outside, text ▸ refers.free,
          renamed.use? same ▸ refers.used, text ▸ refers.scope, text ▸ refers.name⟩
      rw [(refers_iff oldHere).mpr referred] at oldChoice
      cases oldChoice

/-! ### A second redirection -/

variable {tree woven : Tree}

theorem Node.eq_of_unbodied {node other : Node} (same : other.unbodied = node.unbodied)
    (body : other.body = node.body) : other = node := by
  cases node
  cases other
  simp only [Node.unbodied, Node.mk.injEq] at same body ⊢
  exact ⟨same.1, body, same.2.2⟩

/-- A redirection without references does nothing. -/
theorem redirect_of_silent (linked : tree.Linked) (silent : redirection.ledger tree = []) :
    redirection.redirect tree = ({ redirection with count := 0 }, tree) := by
  have once : tree.editableNodes.Nodup :=
    (Tree.nodup_preorder linked linked.filled).filter _
  have inStep := runInStep_foldl redirection linked (fun _ member => editable_of_mem member) once
  unfold redirect
  simp only
  generalize tree.editableNodes.foldl redirectNode _ = run at inStep
  have counted := inStep.counted
  have blocks := inStep.blocks
  rw [show redirection.ledgerOf tree tree.editableNodes = [] from silent] at counted blocks
  have same : run.tree = tree := by
    refine Tree.ext_node inStep.size fun id => ?_
    by_cases met : id ∈ tree.editableNodes
    · refine Node.eq_of_unbodied (inStep.kept id) ?_
      rw [inStep.told id met _ List.prefix_rfl, written]
      cases host : hostOf? tree id with
      | none => rfl
      | some block =>
          refine flatMap_of_plain fun entry member => ?_
          obtain ⟨token, choice⟩ := entry
          cases choice with
          | none => rfl
          | some reference =>
              have known := any_ledgerOf met host member
              rw [show redirection.ledgerOf tree tree.editableNodes = [] from silent] at known
              cases known
    · exact inStep.unseen id met
  have still : ∀ block ∈ run.blocks, placeBlock tree block = tree := by
    intro block member
    have none : block.assignments = [] := (blocks block member).1.assignments
    unfold placeBlock
    rw [none]
    cases block.index <;> rfl
  have placed : run.blocks.foldl placeBlock tree = tree :=
    List.foldlRecOn run.blocks placeBlock (motive := (· = tree)) rfl
      fun placed same block member => by rw [same, still block member]
  rw [counted, same, placed]
  rfl

theorem Redirected.mem_editableNodes {blocks : List Nat}
    (redirected : Redirected redirection tree woven ledger blocks)
    (whole : tree.preorder root = List.range tree.size) {id : Nat}
    (member : id ∈ woven.editableNodes) : id ∈ tree.editableNodes := by
  obtain ⟨reached, editable⟩ := List.mem_filter.mp member
  have inside : id < tree.size := by
    refine Nat.lt_of_not_le fun outside => ?_
    have known := ((Tree.mem_preorder redirected.linked redirected.linked.filled).mp reached).1
    rw [redirected.size] at known
    obtain ⟨number, rfl⟩ := Nat.exists_eq_add_of_le outside
    have short : number < blocks.length := Nat.lt_of_add_lt_add_left known
    obtain ⟨line, added, -⟩ :=
      redirected.added number _ (List.getElem?_eq_getElem short)
    have same := congrArg Node.isEditable added
    exact absurd (editable.symm.trans same) (by decide : true ≠ false)
  refine List.mem_filter.mpr ⟨whole ▸ List.mem_range.mpr inside, ?_⟩
  rw [← redirected.property Node.isEditable (fun _ => rfl) inside]
  exact editable

theorem Redirected.host {blocks : List Nat}
    (redirected : Redirected redirection tree woven ledger blocks) (linked : tree.Linked)
    {id : Nat} (inside : id < tree.size) :
    hostOf? woven id = hostOf? tree id ∧ woven.importsFor id = tree.importsFor id := by
  constructor
  · rw [hostOf?, hostOf?, redirected.parent id inside]
    cases up : tree.parent? id with
    | none => rfl
    | some parent =>
        have link := linked.lt_size up
        have around := Nat.lt_trans link.1 link.2
        rw [Option.filter_some, Option.filter_some,
          redirected.property Node.kind (fun _ => rfl) around, redirected.room parent around]
  · have scope : importScope woven id = importScope tree id := by
      rw [importScope, importScope, redirected.property Node.kind (fun _ => rfl) inside,
        redirected.property Node.scope (fun _ => rfl) inside]
    have around : importScope tree id < tree.size := by
      rw [importScope]
      split
      · exact inside
      · cases found : (tree.node id).scope with
        | none => exact linked.filled
        | some scope => exact (linked.refers id inside).1 scope found
    rw [Tree.importsFor, Tree.importsFor, scope,
      redirected.property Node.imports (fun _ => rfl) around]

/-- A second redirection does nothing. -/
theorem Redirected.settled {blocks : List Nat}
    (redirected : Redirected redirection tree woven ledger blocks) (linked : tree.Linked)
    (whole : tree.preorder root = List.range tree.size) (tagged : redirection.Tagged)
    (kept : "const".toList ∈ redirection.reserved)
    (plain : ∀ id ∈ tree.editableNodes, ∀ token ∈ scan .php (tree.node id).body,
      token.kind.isMarkup = false) : redirection.ledger woven = [] := by
  refine List.eq_nil_iff_forall_not_mem.mpr fun entry member => ?_
  obtain ⟨id, met, host, token, among⟩ := mem_ledgerOf member
  have old := redirected.mem_editableNodes whole met
  have inside := ((mem_preorder linked linked.filled).mp (List.mem_filter.mp old).1).1
  obtain ⟨sameHost, sameImports⟩ := redirected.host linked inside
  rw [sameHost] at host
  rw [entries, Redirection.importsFor, sameImports, redirected.code id old, written, host] at among
  have silent :=
    settled_put (redirection.importsFor tree id) ledger entry.1 tagged kept (plain id old)
  exact List.any_eq_false.mp silent _ (List.of_mem_zip among).2 rfl

end Redirection
end PhpWeave
