import PhpWeave.Proofs.Text.Lines
import PhpWeave.Proofs.Weave.Edits
import PhpWeave.Weave.Redirection

set_option autoImplicit false

/-!
Redirection keeps lines. The tokens that it replaces are words and the variables it puts in their
place have no line feed; the names in the assignments come from words and from imports, which are
made of words, so each block of assignments is one line.
-/

namespace PhpWeave

open PhpWeave.Tree

variable {tree : Tree} {feeds : Nat}

namespace Redirection

structure OneLine (redirection : Redirection) : Prop where
  resolver : '\n' ∉ redirection.resolver
  tag : '\n' ∉ redirection.tag

structure BlockOneLine (block : RedirectionBlock) : Prop where
  allotted : ∀ entry ∈ block.allotted, '\n' ∉ entry.2
  assignments : ∀ text ∈ block.assignments, '\n' ∉ text ∧ text ≠ []

theorem OneLine.variableAt {redirection : Redirection} (oneLine : redirection.OneLine)
    (number : Nat) : '\n' ∉ redirection.variableAt number := by
  simp [Redirection.variableAt, oneLine.tag, Text.oneLine_ofNat]

theorem OneLine.assignment {redirection : Redirection} (oneLine : redirection.OneLine) {name : Text}
    (named : '\n' ∉ name) {reference : Reference} (referred : '\n' ∉ reference.name) :
    '\n' ∉ redirection.assignment name reference ∧ redirection.assignment name reference ≠ [] := by
  have scope : '\n' ∉ scopeArgument reference.scope := by
    cases reference.scope <;> decide
  have use : '\n' ∉ useArgument reference.use := by
    cases reference.use <;> decide
  simp [Redirection.assignment, oneLine.resolver, named, referred, scope, use]

theorem allot_oneLine {redirection : Redirection} (oneLine : redirection.OneLine)
    {block : RedirectionBlock} (blockLine : BlockOneLine block) {reference : Reference}
    (referred : '\n' ∉ reference.name) :
    '\n' ∉ (redirection.allot block reference).1 ∧
      (redirection.allot block reference).2.1.OneLine ∧
      BlockOneLine (redirection.allot block reference).2.2 ∧
      (redirection.allot block reference).2.2.id = block.id := by
  unfold allot
  split
  · next entry found =>
      exact ⟨blockLine.allotted entry (List.mem_of_find?_eq_some found), oneLine, blockLine, rfl⟩
  · have named := oneLine.variableAt redirection.count
    refine ⟨named, ⟨oneLine.resolver, oneLine.tag⟩, ⟨fun entry member => ?_, fun text member => ?_⟩,
      rfl⟩
    · rcases List.mem_append.mp member with old | new
      · exact blockLine.allotted entry old
      · rw [List.mem_singleton.mp new]
        exact named
    · rcases List.mem_append.mp member with old | new
      · exact blockLine.assignments text old
      · rw [List.mem_singleton.mp new]
        exact oneLine.assignment named referred

def ReferencesOneLine (entries : List (Token × Option Reference)) : Prop :=
  ∀ entry ∈ entries, ∀ reference, entry.2 = some reference →
    '\n' ∉ entry.1.text ∧ '\n' ∉ reference.name

theorem putAll_oneLine {redirection : Redirection} (oneLine : redirection.OneLine)
    {block : RedirectionBlock} (blockLine : BlockOneLine block)
    {entries : List (Token × Option Reference)} (references : ReferencesOneLine entries) :
    Text.newlines (redirection.putAll block entries).1 =
        Text.newlines (Token.textOf (entries.map Prod.fst)) ∧
      (redirection.putAll block entries).2.1.OneLine ∧
      BlockOneLine (redirection.putAll block entries).2.2 ∧
      (redirection.putAll block entries).2.2.id = block.id := by
  induction entries generalizing redirection block with
  | nil => exact ⟨rfl, oneLine, blockLine, rfl⟩
  | cons entry rest ih =>
      have later : ReferencesOneLine rest := fun other member =>
        references other (List.mem_cons_of_mem _ member)
      obtain ⟨token, choice⟩ := entry
      cases choice with
      | none =>
          obtain ⟨feeds, kept⟩ := ih oneLine blockLine later
          refine ⟨?_, kept⟩
          rw [putAll, List.map_cons, Token.textOf_cons, Text.newlines_append, Text.newlines_append,
            feeds]
      | some reference =>
          obtain ⟨written, referred⟩ := references _ List.mem_cons_self reference rfl
          obtain ⟨named, more, blockMore, same⟩ := allot_oneLine oneLine blockLine referred
          obtain ⟨feeds, last, blockLast, sameLast⟩ := ih more blockMore later
          refine ⟨?_, last, blockLast, sameLast.trans same⟩
          rw [putAll, List.map_cons, Token.textOf_cons, Text.newlines_append, Text.newlines_append,
            feeds, Text.newlines_eq_zero named, Text.newlines_eq_zero written]

/-! ### References -/

/-- The kinds of token that may refer to something. -/
def isReferable : TokenKind → Bool
  | .identifier | .qualifiedName | .fullyQualifiedName => true
  | _ => false

theorem isIdentifierLike_of_isReferable {kind : TokenKind} (referable : isReferable kind = true) :
    kind.isIdentifierLike = true := by
  cases kind <;> first | rfl | cases referable

theorem use?_isReferable {tokens : Tokens} {index : Nat} {use : NameUse}
    (used : Reference.use? tokens index = some use) :
    ∃ kind, tokens.kindAt index = some kind ∧ isReferable kind = true := by
  unfold Reference.use? at used
  split at used
  · next isOne => exact ⟨_, isOne, rfl⟩
  · next isOne => exact ⟨_, isOne, rfl⟩
  · next isOne => exact ⟨_, isOne, rfl⟩
  · cases used

structure OfParts (property : Text → Prop) : Prop where
  suffix : ∀ {text rest : Text}, property text → rest <:+ text → property rest
  append : ∀ {front rest : Text}, property front → property rest → property (front ++ rest)

theorem ofParts_oneLine : OfParts ('\n' ∉ ·) where
  suffix oneLine suffix feed := oneLine (suffix.subset feed)
  append front rest feed := (List.mem_append.mp feed).elim front rest

theorem imported?_property {property : Text → Prop} {imports : ImportTable}
    (imported : ∀ entry ∈ imports, property entry.2) {segment name : Text}
    (found : Reference.imported? imports segment = some name) : property name := by
  have value (test : Text × Text → Bool) {name : Text}
      (found : (imports.find? test).map Prod.snd = some name) : property name := by
    obtain ⟨entry, search, rfl⟩ := Option.map_eq_some_iff.mp found
    exact imported entry (List.mem_of_find?_eq_some search)
  rcases Option.or_eq_some_iff.mp found with exact_ | ⟨-, upToCase⟩
  · exact value _ exact_
  · exact value _ upToCase

theorem OfParts.resolve {property : Text → Prop} (ofParts : OfParts property)
    {imports : ImportTable} (imported : ∀ entry ∈ imports, property entry.2) {written : Text}
    (here : property written) : property (Reference.resolve imports written).2 := by
  unfold Reference.resolve
  split
  · exact ofParts.suffix here (List.suffix_cons _ _)
  · simp only
    split
    · exact here
    · next name found =>
        exact ofParts.append
          (ofParts.suffix (imported?_property imported found) (List.dropWhile_suffix _))
          (ofParts.suffix here (List.drop_suffix _ _))

theorem mem_importsFor {redirection : Redirection} {tree : Tree} {id : Nat} {entry : Text × Text} :
    entry ∈ redirection.importsFor tree id ↔ entry ∈ tree.importsFor id :=
  (redirection.order.perm (tree.importsFor id)).mem_iff

theorem length_inAttribute (depth : Nat) (tokens : List Token) :
    (Reference.inAttribute depth tokens).length = tokens.length := by
  induction tokens generalizing depth with
  | nil => rfl
  | cons token rest ih => rw [Reference.inAttribute, List.length_cons, ih, List.length_cons]

theorem length_ofTokens (reserved : List Text) (imports : ImportTable) (tokens : Tokens) :
    (Reference.ofTokens reserved imports tokens).length = tokens.toList.length := by
  rw [Reference.ofTokens, List.length_map, List.length_zipIdx, List.length_zip, length_inAttribute,
    Nat.min_self]

structure Refers (reserved : List Text) (imports : ImportTable) (tokens : Tokens) (token : Token)
    (reference : Reference) (index : Nat) : Prop where
  here : tokens[index]? = some token
  outside : (Reference.inAttribute 0 tokens.toList)[index]? = some false
  free : Reference.isReserved reserved token.text = false
  used : Reference.use? tokens index = some reference.use
  scope : reference.scope = (Reference.resolve imports token.text).1
  name : reference.name = (Reference.resolve imports token.text).2

theorem refers_iff {reserved : List Text} {imports : ImportTable} {tokens : Tokens}
    {token : Token} {index : Nat} (here : tokens[index]? = some token) {reference : Reference} :
    (Reference.ofTokens reserved imports tokens)[index]? = some (some reference) ↔
      Refers reserved imports tokens token reference index := by
  have found : tokens.toList[index]? = some token := by
    rw [Array.getElem?_toList]
    exact here
  have inside : index < (Reference.inAttribute 0 tokens.toList).length := by
    rw [length_inAttribute]
    exact (List.getElem?_eq_some_iff.mp found).1
  obtain ⟨attributed, asked⟩ : ∃ attributed,
      (Reference.inAttribute 0 tokens.toList)[index]? = some attributed :=
    ⟨_, List.getElem?_eq_getElem inside⟩
  have pair : (tokens.toList.zip (Reference.inAttribute 0 tokens.toList))[index]? =
      some (token, attributed) := List.getElem?_zip_eq_some.mpr ⟨found, asked⟩
  rw [Reference.ofTokens, List.getElem?_map, List.getElem?_zipIdx, pair, Option.map_some,
    Option.map_some, Nat.zero_add, Option.some.injEq, Reference.ofToken?]
  simp only
  constructor
  · intro isOne
    split at isOne
    · cases isOne
    · next free =>
        obtain ⟨use, used, rfl⟩ := Option.map_eq_some_iff.mp isOne
        rw [Bool.or_eq_true, not_or] at free
        exact ⟨here, eq_false_of_ne_true free.1 ▸ asked, eq_false_of_ne_true free.2, used, rfl, rfl⟩
  · intro refers
    have outside : attributed = false := Option.some.inj (asked.symm.trans refers.outside)
    rw [outside, refers.free, refers.used, ← refers.scope, ← refers.name]
    rfl

theorem refers_of_mem {reserved : List Text} {imports : ImportTable} {tokens : Tokens}
    {token : Token} {reference : Reference}
    (member : (token, some reference) ∈
      tokens.toList.zip (Reference.ofTokens reserved imports tokens)) :
    ∃ index, Refers reserved imports tokens token reference index := by
  obtain ⟨index, found⟩ := List.mem_iff_getElem?.mp member
  obtain ⟨here, isOne⟩ := List.getElem?_zip_eq_some.mp found
  rw [Array.getElem?_toList] at here
  exact ⟨index, (refers_iff here).mp isOne⟩

theorem Refers.isReferable {reserved : List Text} {imports : ImportTable} {tokens : Tokens}
    {token : Token} {reference : Reference} {index : Nat}
    (refers : Refers reserved imports tokens token reference index) :
    isReferable token.kind = true := by
  obtain ⟨kind, isAt, referable⟩ := use?_isReferable refers.used
  rw [Tokens.kindAt, refers.here, Option.map_some, Option.some.injEq] at isAt
  rw [isAt]
  exact referable

theorem referencesOneLine {imports : ImportTable} (oneLine : ∀ entry ∈ imports, '\n' ∉ entry.2)
    (reserved : List Text) (code : Text) :
    ReferencesOneLine ((Fragment.tokens code).toList.zip
      (Reference.ofTokens reserved imports (Fragment.tokens code))) := by
  rintro ⟨token, choice⟩ member reference rfl
  obtain ⟨index, refers⟩ := refers_of_mem member
  have written : '\n' ∉ token.text := Fragment.oneLine_of_kindAt refers.here
    (by rw [Tokens.kindAt, refers.here]; rfl) (isIdentifierLike_of_isReferable refers.isReferable)
  exact ⟨written, refers.name ▸ ofParts_oneLine.resolve oneLine written⟩

/-! ### Runs -/

structure RunLined (feeds : Nat) (start : Tree) (run : Run) : Prop where
  lined : run.tree.Lined feeds
  flags : ∀ id, (run.tree.node id).flags = (start.node id).flags
  oneLine : run.redirection.OneLine
  blocks : ∀ block ∈ run.blocks, BlockOneLine block ∧ block.id < run.tree.size ∧
    (run.tree.node block.id).kind ≠ .code

theorem mem_putBlock {block other : RedirectionBlock} {blocks : List RedirectionBlock}
    (member : other ∈ putBlock block blocks) : other = block ∨ other ∈ blocks := by
  induction blocks with
  | nil => exact .inl (List.mem_singleton.mp member)
  | cons first rest ih =>
      rw [putBlock] at member
      split at member
      · exact (List.mem_cons.mp member).imp_right fun later => List.mem_cons_of_mem _ later
      · rcases List.mem_cons.mp member with rfl | later
        · exact .inr List.mem_cons_self
        · exact (ih later).imp_right fun old => List.mem_cons_of_mem _ old

theorem blockOf_oneLine {start : Tree} {run : Run} (lined : RunLined feeds start run) (id : Nat) :
    BlockOneLine (blockOf run id) ∧ (blockOf run id).id = id := by
  unfold blockOf
  cases found : run.blocks.find? fun block => block.id = id with
  | none => exact ⟨⟨fun _ none => (by cases none), fun _ none => (by cases none)⟩, rfl⟩
  | some block =>
      have isOne := List.find?_some found
      exact ⟨(lined.blocks block (List.mem_of_find?_eq_some found)).1, of_decide_eq_true isOne⟩

theorem hostsCode_solid {kind : NodeKind} (hosts : hostsCode kind = true) : kind ≠ .code := by
  rintro rfl
  cases hosts

theorem redirectNode_lined {start : Tree} (startLined : start.Lined feeds) {run : Run}
    (lined : RunLined feeds start run) {id : Nat} (member : id ∈ start.editableNodes) :
    RunLined feeds start (redirectNode run id) := by
  unfold redirectNode
  split
  · exact lined
  · next parent link =>
      split
      · next hosts =>
          have solid := hostsCode_solid hosts
          have below := lined.lined.linked.lt_size link
          have around := Nat.lt_trans below.1 below.2
          obtain ⟨blockLine, here⟩ := blockOf_oneLine lined parent
          have known : RunLined feeds start
              { run with blocks := putBlock (blockOf run parent) run.blocks } := by
            refine ⟨lined.lined, lined.flags, lined.oneLine, fun block among => ?_⟩
            rcases mem_putBlock among with rfl | old
            · rw [here]
              exact ⟨blockLine, around, solid⟩
            · exact lined.blocks block old
          simp only
          split
          · exact known
          · split
            · have imports : ∀ entry ∈ run.redirection.importsFor run.tree id, '\n' ∉ entry.2 :=
                fun entry member => lined.lined.imports _ entry (mem_importsFor.mp member)
              have references := referencesOneLine imports run.redirection.reserved
                (run.tree.node id).body
              obtain ⟨feeds, oneLine, blockAfter, same⟩ :=
                putAll_oneLine lined.oneLine blockLine references
              rw [List.map_fst_zip (Nat.le_of_eq (length_ofTokens _ _ _).symm),
                Fragment.textOf_tokens] at feeds
              have written : (run.tree.node id).flags.synthetic = false := by
                rw [lined.flags]
                exact startLined.written_of_editable member
              generalize run.redirection.putAll (blockOf run parent) _ = put at *
              refine ⟨lined.lined.setBody written feeds, fun other => ?_, oneLine,
                fun block among => ?_⟩
              · exact (node_setBody_property _ Node.flags (fun _ _ => rfl) _ _ other).trans
                  (lined.flags other)
              · have fits : BlockOneLine block ∧ block.id < run.tree.size ∧
                    (run.tree.node block.id).kind ≠ .code := by
                  rcases mem_putBlock among with rfl | old
                  · rw [same, here]
                    exact ⟨blockAfter, around, solid⟩
                  · exact lined.blocks block old
                obtain ⟨line, inside, kind⟩ := fits
                have kept := keepsKinds_setBody id put.1 block.id inside
                exact ⟨line, kept.1, kept.2 ▸ kind⟩
            · exact known
      · exact lined

theorem lined_redirect (redirection : Redirection) (oneLine : redirection.OneLine)
    (lined : tree.Lined feeds) : (redirection.redirect tree).2.Lined feeds := by
  have ran : RunLined feeds tree (tree.editableNodes.foldl redirectNode
      ⟨{ redirection with count := 0 }, tree, []⟩) := by
    refine List.foldlRecOn tree.editableNodes redirectNode (motive := RunLined feeds tree) ?_
      fun run kept id member => redirectNode_lined lined kept member
    exact ⟨lined, fun _ => rfl, ⟨oneLine.resolver, oneLine.tag⟩, fun _ none => by cases none⟩
  unfold redirect
  simp only
  generalize tree.editableNodes.foldl redirectNode _ = run at ran
  have all : (run.blocks.foldl placeBlock run.tree).Lined feeds ∧
      run.tree.KeepsKinds (run.blocks.foldl placeBlock run.tree) := by
    refine List.foldlRecOn run.blocks placeBlock
      (motive := fun placed => placed.Lined feeds ∧ run.tree.KeepsKinds placed)
      ⟨ran.lined, .refl _⟩ ?_
    rintro placed ⟨kept, kinds⟩ block member
    obtain ⟨line, around, solid⟩ := ran.blocks block member
    obtain ⟨inside, kind⟩ := kinds block.id around
    unfold placeBlock
    split
    · exact ⟨kept, kinds⟩
    · next index _ =>
        split
        · exact ⟨kept, kinds⟩
        · next filled =>
            have oneLineBody : '\n' ∉ Text.joinWith [' '] block.assignments := by
              intro feed
              rcases Text.mem_joinWith feed with blank | ⟨text, among, found⟩
              · exact absurd blank (by decide)
              · exact (line.assignments text among).1 found
            refine ⟨kept.insert inside (kind ▸ solid) (Text.joinWith_ne_nil ?_ fun text among =>
              (line.assignments text among).2) oneLineBody index,
              kinds.trans (kept.keepsKinds_insert inside index _)⟩
            rintro none
            rw [none] at filled
            exact filled rfl
  exact all.1

end Redirection

end PhpWeave
