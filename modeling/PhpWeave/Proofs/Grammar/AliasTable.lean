import PhpWeave.Proofs.Grammar.ImportTable

set_option autoImplicit false

/-!
The alias tables of a file, told node by node. What a statement imports is in its tokens. A node
that imports does so into the nearest namespace above it, or into the file, and the table of each of
these is made of what its nodes import, one after the other. A statement that is not read whole
becomes plain code, word and all, so no table has anything of it.
-/

namespace PhpWeave

theorem Stated.read {tokens : Tokens} {events : List Event} (stated : Stated tokens events)
    {event : Event} (member : event ∈ events) {node : Node} {first last : Nat}
    (reports : event = .leaf node first last ∨ event = .enter node first last)
    (isOne : node.kind = .imports) : tokens.isAt last .semicolon = true ∧
      ∃ entries, Import.read? (tokens.clauses first last) = some entries := by
  induction stated with
  | start => cases member
  | other stated plain ih =>
      rcases List.mem_append.mp member with before | here
      · exact ih before
      · obtain rfl := List.mem_singleton.mp here
        rcases reports with rfl | rfl
        · exact absurd isOne (of_decide_eq_false plain)
        · exact absurd isOne (of_decide_eq_false plain)
  | statement stated isImport ends read ih =>
      rcases List.mem_append.mp member with before | here
      · rcases List.mem_append.mp before with earlier | here
        · exact ih earlier
        · obtain rfl := List.mem_singleton.mp here
          rcases reports with same | same
          · cases same
            exact ⟨ends, _, read⟩
          · cases same
      · obtain rfl := List.mem_singleton.mp here
        rcases reports with same | same <;> cases same

namespace Tree

/-- The nearest namespace at or above a node, or else the file. -/
def scopeAround (tree : Tree) (id : NodeId) : NodeId :=
  ((id :: tree.ancestors id).find? fun above => (tree.node above).kind = .scope).getD root

/-- What the statement of a node imports, an alias and a name each, from the tokens of its range. -/
def importedBy (tokens : Tokens) (stretches : List Stretch) (id : NodeId) : List (Text × Text) :=
  ((stretches.find? fun stretch => stretch.part = .body id).bind fun stretch =>
    Import.read? (tokens.clauses stretch.first (stretch.stop - 1))).getD []

def importers (tree : Tree) (scope : NodeId) : List NodeId :=
  (tree.preorder root).filter fun id =>
    (tree.node id).kind = .imports ∧ tree.scopeAround id = scope

def importedInto (tree : Tree) (tokens : Tokens) (stretches : List Stretch) (scope : NodeId) :
    List (Text × Text) :=
  (tree.importers scope).flatMap (importedBy tokens stretches)

end Tree

/-- A read stands at an import statement: at the word `use`, where a statement begins at file level,
with a semicolon behind it before any tag. -/
structure Reader.AtImport (tokens : Tokens) (reader : Reader) (last : Nat) : Prop where
  reached : Reached tokens reader
  word : tokens.kindAt reader.pos = some .kwUse
  level : reader.atFileLevel = true
  start : reader.atStatementStart tokens reader.pos = true
  search : tokens.firstFrom Tokens.endsImport (reader.pos + 1) = some last
  ends : tokens.kindAt last = some .semicolon

/-- The alias tables of a file are made of the import statements of their scopes. -/
structure Tree.Imported (tree : Tree) (tokens : Tokens) (stretches : List Stretch) : Prop where
  /-- The tokens of a node that imports are a whole statement. -/
  statement : ∀ id < tree.size, (tree.node id).kind = .imports →
    ∃ first last, ⟨.body id, first, last + 1⟩ ∈ stretches ∧
      tokens.kindAt first = some .kwUse ∧ tokens.kindAt last = some .semicolon ∧
      Import.read? (tokens.clauses first last) = some (importedBy tokens stretches id)
  table : ∀ id < tree.size, id = root ∨ (tree.node id).kind = .scope →
    (tree.node id).imports = ImportTable.ofList (tree.importedInto tokens stretches id)
  /-- The last import of an alias wins. -/
  wins : ∀ id < tree.size, id = root ∨ (tree.node id).kind = .scope → ∀ entry,
    entry ∈ (tree.node id).imports ↔
      ImportTable.IsLast (tree.importedInto tokens stretches id) entry
  empty : ∀ id < tree.size, id ≠ root → (tree.node id).kind ≠ .scope → (tree.node id).imports = []
  /-- A statement with a malformed clause is plain code of one node, and none of its tokens is one
  of a node that imports. -/
  malformed : ∀ (reader : Reader) last, reader.AtImport tokens last →
    Import.read? (tokens.clauses reader.pos last) = none →
      ∃ id < tree.size, ∀ index, reader.pos ≤ index → index ≤ last →
        tree.HoldsCode stretches id index ∧ ∀ stretch ∈ stretches, stretch.Covers index →
          (tree.node stretch.part.id).kind ≠ .imports
  seen : ∀ id < tree.size, tree.importsFor id = (tree.node (tree.scopeAround id)).imports

namespace Tree

variable {tree : Tree} {tokens : Tokens} {stretches : List Stretch}

/-! ### Tables -/

theorem importScope_eq {id : NodeId} (placed : tree.Placed id) :
    tree.importScope id = tree.scopeAround id := by
  unfold importScope scopeAround
  rw [List.find?_cons]
  split
  · next isScope =>
      rw [decide_eq_true isScope]
      rfl
  · next other =>
      rw [decide_eq_false other, placed.scope]

theorem scopeAround_cases (tree : Tree) (id : NodeId) :
    tree.scopeAround id = root ∨ (tree.node (tree.scopeAround id)).kind = .scope := by
  unfold scopeAround
  cases found : (id :: tree.ancestors id).find? fun above => (tree.node above).kind = .scope with
  | none => exact .inl rfl
  | some above =>
      have isScope := List.find?_some found
      exact .inr (of_decide_eq_true isScope)

theorem importedBy_eq (ranges : tree.Ranges tokens stretches) (linked : tree.Linked)
    {stretch : Stretch} (among : stretch ∈ stretches) {id : NodeId}
    (isBody : stretch.part = .body id) :
    importedBy tokens stretches id =
      (Import.read? (tokens.clauses stretch.first (stretch.stop - 1))).getD [] := by
  unfold importedBy
  cases found : stretches.find? fun stretch => stretch.part = .body id with
  | none => exact absurd (decide_eq_true isBody) (List.find?_eq_none.mp found stretch among)
  | some other =>
      have isOther := List.find?_some found
      rw [ranges.same_stretch linked (List.mem_of_find?_eq_some found) among
        ((of_decide_eq_true isOther).trans isBody.symm)]
      rfl

theorem flatMap_bodies {α : Type} (p : NodeId → Bool) (collect : NodeId → List α)
    (stretches : List Stretch) :
    (((stretches.map Stretch.part).filterMap Part.bodyOf?).filter p).flatMap collect =
      stretches.flatMap fun stretch =>
        match stretch.part with
        | .body id => if p id then collect id else []
        | .close _ => [] := by
  induction stretches with
  | nil => rfl
  | cons stretch rest ih =>
      obtain ⟨part, first, stop⟩ := stretch
      rw [List.flatMap_cons, ← ih]
      cases part with
      | close id => rfl
      | body id =>
          change List.flatMap collect (List.filter p (id :: _)) = _
          rw [List.filter_cons]
          by_cases isOne : p id = true
          · simp only [isOne, reduceIte, List.flatMap_cons]
          · simp only [isOne, reduceIte, Bool.false_eq_true, List.nil_append]

theorem entriesOf_eq (ranges : tree.Ranges tokens stretches) (linked : tree.Linked)
    (placed : ∀ id < tree.size, tree.Placed id)
    (read : ∀ stretch ∈ stretches, ∀ id, stretch.part = .body id → (tree.node id).kind = .imports →
      ∃ entries, Import.read? (tokens.clauses stretch.first (stretch.stop - 1)) = some entries)
    (scope : NodeId) :
    tree.entriesOf tokens stretches scope = tree.importedInto tokens stretches scope := by
  rw [importedInto, importers, preorder_eq, ← ranges.parts, flatMap_bodies, entriesOf, itemsOf,
    List.map_flatMap]
  refine List.flatMap_congr fun stretch among => ?_
  obtain ⟨part, first, stop⟩ := stretch
  cases part with
  | close id => rfl
  | body id =>
      have inside := (ranges.over_root linked among).1
      simp only [itemsAt, importScope_eq (placed id inside), decide_eq_true_eq]
      split
      · next both =>
          obtain ⟨entries, isRead⟩ := read _ among id rfl both.1
          rw [importedBy_eq ranges linked among rfl, isRead, Option.getD_some, List.map_map]
          exact Import.entries_items isRead
      · rfl

theorem importedInto_eq_nil {id : NodeId} (noRoot : id ≠ root)
    (noScope : (tree.node id).kind ≠ .scope) : tree.importedInto tokens stretches id = [] := by
  rw [importedInto, importers, List.flatMap_eq_nil_iff]
  intro other member
  have same := (of_decide_eq_true (List.mem_filter.mp member).2).2
  rcases tree.scopeAround_cases other with isRoot | isScope
  · exact absurd (same.symm.trans isRoot) noRoot
  · rw [same] at isScope
    exact absurd isScope noScope

end Tree

/-! ### Malformed statements -/

namespace Reader

variable {tokens : Tokens} {reader : Reader} {last : Nat}

theorem AtImport.moves (stands : AtImport tokens reader last)
    (unread : Import.read? (tokens.clauses reader.pos last) = none) :
    Moves tokens reader (reader.skipTo last) := by
  obtain ⟨token, here, isUse⟩ := Tokens.kindAt_eq_some.mp stands.word
  refine ⟨token, here, ?_⟩
  have both : (reader.atFileLevel && reader.atStatementStart tokens reader.pos) = true := by
    rw [stands.level, stands.start]
    rfl
  have semicolon : tokens.isAt last .semicolon = true := beq_iff_eq.mpr stands.ends
  have search : tokens.firstFrom (fun token => token.kind = .semicolon || token.kind = .closeTag)
      (reader.pos + 1) = some last := stands.search
  have none : Import.read? ((tokens.extract (reader.pos + 1) last).toList.filter
      Tokens.isSignificant) = none := unread
  simp only [step, isUse, TokenKind.isMarkup, TokenKind.isLiteral, both, useWord, search, semicolon,
    none, reduceIte, Bool.false_eq_true]

theorem AtImport.ended (stands : AtImport tokens reader last) :
    Moves tokens (reader.skipTo last) ((reader.skipTo last).statementEnd tokens) := by
  obtain ⟨token, here, isEnd⟩ := Tokens.kindAt_eq_some.mp stands.ends
  refine ⟨token, here, ?_⟩
  simp only [step, isEnd, TokenKind.isMarkup, TokenKind.isLiteral, reduceIte, Bool.false_eq_true]

end Reader

/-- The tokens of a statement that cannot be read come into the plain code of one node. -/
theorem Told.holds_of_malformed {tokens : Tokens} {events : List Event} {tree : Tree}
    {stretches : List Stretch} (told : Told tokens events tree stretches)
    (spelled : Spelled tokens) (tagged : Tagged tokens) {reader : Reader} {last : Nat}
    (stands : reader.AtImport tokens last)
    (unread : Import.read? (tokens.clauses reader.pos last) = none) :
    ∃ id, ∀ index, reader.pos ≤ index → index ≤ last → tree.HoldsCode stretches id index := by
  have passes := stands.moves unread
  have reachedNext := stands.reached.tail passes
  obtain ⟨token, goes⟩ := passes.goes spelled tagged stands.reached
  have order := (Tokens.firstFrom_some stands.search).1
  have reachedEnd := reachedNext.tail stands.ended
  obtain ⟨final, ends⟩ := Reader.ends_of_eventsOf spelled tagged told.read
  obtain ⟨more, whole⟩ := ends.onward spelled tagged reachedEnd
  have pending : reader.pending ≤ reader.pos := goes.pending_le
  by_cases outside : reader.top.parens = 0
  · have settled : (reader.skipTo last).statementEnd tokens =
        (reader.skipTo last).skip.flush tokens (last + 1) := if_pos outside
    rw [settled, Reader.events_flush, List.append_assoc] at whole
    obtain ⟨id, among, editable, -⟩ := told.holds_of_plain whole.symm
      (show reader.pending < last + 1 by omega)
    exact ⟨id, fun index since upto =>
      ⟨editable, _, _, among, Nat.le_trans pending since, Nat.lt_succ_of_le upto⟩⟩
  · have stays : (reader.skipTo last).statementEnd tokens = (reader.skipTo last).skip :=
      if_neg outside
    rw [stays] at reachedEnd
    obtain ⟨id, holds, -⟩ := told.holds_of_pending spelled tagged reachedEnd
      (show reader.pending ≤ last by omega) (Nat.lt_succ_self last) stands.ends rfl
    exact ⟨id, fun index since upto => holds index (Nat.le_trans pending since) upto⟩

theorem Told.statement {tokens : Tokens} {events : List Event} {tree : Tree}
    {stretches : List Stretch} (told : Told tokens events tree stretches)
    (spelled : Spelled tokens) (tagged : Tagged tokens) {id : Nat} (inside : id < tree.size)
    (below : Tree.root < id) (isOne : (tree.node id).kind = .imports) :
    ∃ first last entries, ⟨.body id, first, last + 1⟩ ∈ stretches ∧
      tokens.kindAt first = some .kwUse ∧ tokens.kindAt last = some .semicolon ∧
      Import.read? (tokens.clauses first last) = some entries := by
  obtain ⟨before, event, node, first, last, member, reports, housed⟩ :=
    told.exists_housed inside below
  rw [housed.property Node.kind fun _ => rfl] at isOne
  obtain ⟨ends, entries, read⟩ :=
    (Reader.stated_eventsOf spelled tagged told.read).read member reports isOne
  obtain ⟨reader, token, -, here, header⟩ := Reader.header_of_eventsOf spelled tagged told.read
    event member node first last reports (isOne ▸ NodeKind.noConfusion)
  have declares := header.declares
  rw [Reader.Declares, isOne] at declares
  obtain ⟨isUse, rfl, -⟩ := declares
  exact ⟨reader.pos, last, entries, housed.among,
    Tokens.kindAt_eq_some.mpr ⟨token, here, isUse⟩, eq_of_beq ends, read⟩

namespace Tree

theorem Ranges.not_imports {tree : Tree} {tokens : Tokens} {stretches : List Stretch}
    (ranges : tree.Ranges tokens stretches) {id index : Nat}
    (holds : tree.HoldsCode stretches id index) {stretch : Stretch} (among : stretch ∈ stretches)
    (covers : stretch.Covers index) : (tree.node stretch.part.id).kind ≠ .imports := by
  obtain ⟨editable, first, stop, amongToo, coversToo⟩ := holds
  have inside := Nat.lt_of_lt_of_le coversToo.2 (ranges.consecutive.stop_le _ amongToo)
  have same := ranges.same_part inside among amongToo covers coversToo
  intro isOne
  have isImport : (tree.node id).kind = .imports := by rw [same] at isOne; exact isOne
  unfold Node.isEditable at editable
  rw [isImport] at editable
  cases editable

section Parsed

variable {listLines : Bool} {source : Text} {tree : Tree} {events : List Event}
  {stretches : List Stretch} (parsed : parse listLines source = .ok tree)
  (told : Told (TokenStream.ofText .html source).tokens events tree stretches)
include parsed told

/-- The file imports nothing itself, so every node that imports is a statement. -/
theorem statement_of_parse {id : Nat} (inside : id < tree.size)
    (isOne : (tree.node id).kind = .imports) :
    ∃ first last entries, ⟨.body id, first, last + 1⟩ ∈ stretches ∧
      (TokenStream.ofText .html source).tokens.kindAt first = some .kwUse ∧
      (TokenStream.ofText .html source).tokens.kindAt last = some .semicolon ∧
      Import.read? ((TokenStream.ofText .html source).tokens.clauses first last) =
        some entries := by
  have below : root < id := below_of_kind parsed inside (by rw [isOne]; exact NodeKind.noConfusion)
  exact told.statement (Scan.spelled_scan .html source) (Scan.tagged_scan .html source) inside below
    isOne

/-- The table of a node lists what is imported into it. -/
theorem table_of_parse (id : Nat) : (tree.node id).imports = ImportTable.ofList
    (tree.importedInto (TokenStream.ofText .html source).tokens stretches id) := by
  have linked := (native_of_parse parsed).linked
  have placed : ∀ id < tree.size, tree.Placed id := fun _ inside => placed_of_parse parsed inside
  obtain ⟨others, ranges, tabled⟩ := tabled_of_parse parsed
  obtain rfl := told.ranges.unique (fun _ => text_ne_nil_of_mem_ofText) ranges
  rw [tabled id, entriesOf_eq ranges linked placed]
  intro stretch among id isBody isOne
  obtain ⟨inside, -⟩ := ranges.over_root linked among
  rw [isBody] at inside
  obtain ⟨first, last, entries, amongToo, -, -, read⟩ := statement_of_parse parsed told inside isOne
  rw [ranges.same_stretch linked among amongToo isBody]
  exact ⟨entries, read⟩

end Parsed

/-- The alias table of every scope of a file is made of its import statements in order, those with a
malformed clause left out, and a node sees the table of the nearest scope. -/
theorem imported_of_parse {listLines : Bool} {source : Text} {tree : Tree}
    (parsed : parse listLines source = .ok tree) :
    ∃ stretches, tree.Ranges (TokenStream.ofText .html source).tokens stretches ∧
      tree.Imported (TokenStream.ofText .html source).tokens stretches := by
  obtain ⟨events, stretches, told⟩ := told_of_parse parsed
  have linked := (native_of_parse parsed).linked
  have table := table_of_parse parsed told
  refine ⟨stretches, told.ranges, ?_⟩
  constructor
  case statement =>
    intro id inside isOne
    obtain ⟨first, last, entries, among, isUse, isEnd, read⟩ :=
      statement_of_parse parsed told inside isOne
    refine ⟨first, last, among, isUse, isEnd, ?_⟩
    rw [importedBy_eq told.ranges linked among rfl, Nat.add_sub_cancel, read, Option.getD_some]
  case table => exact fun id _ _ => table id
  case wins =>
    intro id _ _ entry
    rw [table id]
    exact ImportTable.mem_ofList
  case empty =>
    intro id _ noRoot noScope
    rw [table id, importedInto_eq_nil noRoot noScope]
    rfl
  case malformed =>
    intro reader last stands unread
    obtain ⟨id, holds⟩ := told.holds_of_malformed (Scan.spelled_scan .html source)
      (Scan.tagged_scan .html source) stands unread
    have order := (Tokens.firstFrom_some stands.search).1
    have first := holds reader.pos (Nat.le_refl _) (by omega)
    refine ⟨id, told.ranges.inside linked first, fun index since upto => ?_⟩
    have here := holds index since upto
    exact ⟨here, fun stretch among covers => told.ranges.not_imports here among covers⟩
  case seen =>
    intro id inside
    rw [importsFor, importScope_eq (placed_of_parse parsed inside)]

/-- A namespace that imports under one alias twice, with a malformed statement between. -/
theorem imported_of_parse_namespace :
    ∃ tree,
      parse false "<?php namespace A;use B\\C;use D,E as C,;use E as C;f();".toList = .ok tree ∧
      (tree.node 2).kind = .scope ∧ (tree.node 2).imports = [("C".toList, "E".toList)] ∧
      ∃ stretches, tree.Ranges (TokenStream.ofText .html
          "<?php namespace A;use B\\C;use D,E as C,;use E as C;f();".toList).tokens stretches ∧
        tree.Imported (TokenStream.ofText .html
          "<?php namespace A;use B\\C;use D,E as C,;use E as C;f();".toList).tokens stretches := by
  have closes : (parse false
      "<?php namespace A;use B\\C;use D,E as C,;use E as C;f();".toList).toOption.map
        (fun tree => ((tree.node 2).kind, (tree.node 2).imports)) =
          some (.scope, [("C".toList, "E".toList)]) := by
    decide +kernel
  cases parsed : parse false "<?php namespace A;use B\\C;use D,E as C,;use E as C;f();".toList with
  | error fault =>
      rw [parsed] at closes
      cases closes
  | ok tree =>
      rw [parsed] at closes
      obtain ⟨kind, imports⟩ := Prod.mk.inj (Option.some.inj closes)
      exact ⟨tree, rfl, kind, imports, imported_of_parse parsed⟩

end Tree

end PhpWeave
