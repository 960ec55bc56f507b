import PhpWeave.Proofs.Grammar.Course
import PhpWeave.Proofs.Grammar.ImportKind
import PhpWeave.Proofs.Grammar.Native

set_option autoImplicit false

/-!
Where the imports of a namespace come from. A read reports each import statement with what it
imports, one right after the other, and the tree enters these names into the table of the namespace
around the statement. So the table of a namespace, or of the file, has what its statements import,
the last import of each alias.
-/

namespace PhpWeave

/-! ### Statements among the reports of a read -/

def Event.ofStatement : Event → Bool
  | .leaf node _ _ | .enter node _ _ => node.kind = .imports
  | .leave _ _ | .yields => false
  | .imports _ => true

/-- Each import statement is reported with its imports right behind it, and nothing else imports. -/
inductive Stated (tokens : Tokens) : List Event → Prop where
  | start : Stated tokens []
  | other {events : List Event} {event : Event} (stated : Stated tokens events)
      (plain : event.ofStatement = false) : Stated tokens (events ++ [event])
  | statement {events : List Event} {node : Node} {first last : Nat}
      {entries : List (Text × Text)} (stated : Stated tokens events) (isOne : node.kind = .imports)
      (ends : tokens.isAt last .semicolon = true)
      (read : Import.read? (tokens.clauses first last) = some entries) :
      Stated tokens (events ++ [.leaf node first last] ++ [.imports entries])

theorem Stated.append {tokens : Tokens} {events more : List Event} (stated : Stated tokens events)
    (plain : ∀ event ∈ more, event.ofStatement = false) : Stated tokens (events ++ more) := by
  induction more using List.reverseRecOn with
  | nil =>
      rw [List.append_nil]
      exact stated
  | append_singleton more event ih =>
      rw [← List.append_assoc]
      exact (ih fun other member => plain other (List.mem_append_left _ member)).other
        (plain event (List.mem_append_right _ List.mem_cons_self))

namespace Reader

variable {tokens : Tokens} {reader : Reader}

theorem ofStatement_of_plain (stop : Nat) :
    ∀ event ∈ plainEvents tokens reader stop, event.ofStatement = false := by
  intro event member
  unfold plainEvents at member
  split at member
  · rw [List.mem_singleton.mp member]
    rfl
  · cases member

theorem ofStatement_of_closes {closed : List Event}
    (closes : ∀ event ∈ closed, ∃ last, event = .leave [] last) :
    ∀ event ∈ closed, event.ofStatement = false := by
  intro event member
  obtain ⟨last, rfl⟩ := closes event member
  rfl

theorem Course.stated {token : Token} {next : Reader} (course : Course tokens reader token next)
    (stated : Stated tokens reader.events.toList) : Stated tokens next.events.toList := by
  cases course with
  | stays noBrace pos pending events =>
      rcases events with same | ⟨same, -⟩
      · rw [same]
        exact stated
      · rw [same]
        exact stated.other rfl
  | astray isOne level onward pending events =>
      rw [events]
      exact stated
  | settles isOne pos pending events =>
      rw [events]
      exact stated.append (ofStatement_of_plain _)
  | @declares node first last report closed after header reports closes imports pos pending events =>
      rw [events, ← List.append_assoc, ← List.append_assoc]
      have before : Stated tokens
          (reader.events.toList ++ plainEvents tokens reader first ++ closed) :=
        (stated.append (ofStatement_of_plain first)).append (ofStatement_of_closes closes)
      cases imports with
      | nothing other =>
          refine before.other ?_
          rcases reports with rfl | rfl
          · exact decide_eq_false other
          · exact decide_eq_false other
      | imports isOne ends read =>
          have whole := before.statement isOne ends read
          rw [List.append_assoc] at whole
          exact whole
  | leaves isOne pos pending events =>
      rw [events, ← List.append_assoc]
      exact (stated.append (ofStatement_of_plain _)).other rfl

theorem stated_eventsOf (spelled : Spelled tokens) (tagged : Tagged tokens) {events : List Event}
    (done : eventsOf tokens = .ok events) : Stated tokens events := by
  have all {reader : Reader} (reached : Reached tokens reader) :
      Stated tokens reader.events.toList := by
    induction reached with
    | refl => exact .start
    | @tail reader next reached moves ih =>
        obtain ⟨token, goes⟩ := moves.goes spelled tagged reached
        exact goes.course.stated ih
  obtain ⟨last, ends⟩ := ends_of_eventsOf spelled tagged done
  obtain ⟨closed, rfl, closes⟩ := ends.events
  rw [← List.append_assoc]
  exact ((all ends.reached).append (ofStatement_of_plain _)).append (ofStatement_of_closes closes)

end Reader

/-! ### Tables -/

namespace ImportTable

theorem ofList_append (front rest : List (Text × Text)) :
    ofList (front ++ rest) =
      rest.foldl (fun table entry => insert entry.1 entry.2 table) (ofList front) :=
  List.foldl_append

/-- An import that no later one under the same alias takes the place of. -/
def IsLast (entries : List (Text × Text)) (entry : Text × Text) : Prop :=
  ∃ front rest, entries = front ++ entry :: rest ∧ ∀ other ∈ rest, other.1 ≠ entry.1

variable {entries : List (Text × Text)} {entry last : Text × Text} {table : ImportTable}
  {short name : Text}

theorem IsLast.mem (isLast : IsLast entries entry) : entry ∈ entries := by
  obtain ⟨front, rest, rfl, -⟩ := isLast
  exact List.mem_append_right _ List.mem_cons_self

theorem isLast_concat : IsLast (entries ++ [last]) entry ↔
    entry = last ∨ IsLast entries entry ∧ last.1 ≠ entry.1 := by
  constructor
  · rintro ⟨front, rest, split, later⟩
    rcases List.eq_nil_or_concat rest with rfl | ⟨rest, final, rfl⟩
    · exact .inl (List.singleton_inj.mp (List.append_inj' split rfl).2).symm
    · rw [List.concat_eq_append, ← List.cons_append, ← List.append_assoc] at split
      obtain ⟨early, same⟩ := List.append_inj' split rfl
      obtain rfl := List.singleton_inj.mp same
      refine .inr ⟨⟨front, rest, early, fun other member => later other ?_⟩, later last ?_⟩
      · exact List.concat_eq_append ▸ List.mem_append_left _ member
      · exact List.concat_eq_append ▸ List.mem_append_right _ List.mem_cons_self
  · rintro (rfl | ⟨⟨front, rest, rfl, later⟩, other⟩)
    · exact ⟨entries, [], rfl, fun _ none => by cases none⟩
    · refine ⟨front, rest ++ [last], by simp, fun one member => ?_⟩
      rcases List.mem_append.mp member with among | isLast
      · exact later one among
      · exact List.mem_singleton.mp isLast ▸ other

theorem mem_insert_iff (nodup : (table.map Prod.fst).Nodup) :
    entry ∈ insert short name table ↔ entry = (short, name) ∨ entry ∈ table ∧ entry.1 ≠ short := by
  induction table with
  | nil => simp [insert]
  | cons first rest ih =>
      rw [List.map_cons, List.nodup_cons] at nodup
      rw [insert]
      split
      · next same =>
          rw [List.mem_cons, List.mem_cons]
          refine or_congr_right ⟨fun later => ⟨.inr later, ?_⟩, ?_⟩
          · rintro again
            exact nodup.1 (same ▸ again ▸ List.mem_map_of_mem later)
          · rintro ⟨rfl | later, other⟩
            · exact absurd same other
            · exact later
      · next apart =>
          rw [List.mem_cons, ih nodup.2, List.mem_cons]
          constructor
          · rintro (rfl | rfl | ⟨later, other⟩)
            · exact .inr ⟨.inl rfl, apart⟩
            · exact .inl rfl
            · exact .inr ⟨.inr later, other⟩
          · rintro (rfl | ⟨rfl | later, other⟩)
            · exact .inr (.inl rfl)
            · exact .inl rfl
            · exact .inr (.inr ⟨later, other⟩)

theorem mem_keys_insert {other : Text} (member : other ∈ (insert short name table).map Prod.fst) :
    other = short ∨ other ∈ table.map Prod.fst := by
  obtain ⟨entry, among, rfl⟩ := List.mem_map.mp member
  rcases mem_insert among with rfl | old
  · exact .inl rfl
  · exact .inr (List.mem_map_of_mem old)

theorem nodup_insert (nodup : (table.map Prod.fst).Nodup) (short name : Text) :
    ((insert short name table).map Prod.fst).Nodup := by
  induction table with
  | nil => exact List.nodup_singleton _
  | cons first rest ih =>
      rw [List.map_cons, List.nodup_cons] at nodup
      rw [insert]
      split
      · next same =>
          rw [List.map_cons, List.nodup_cons]
          exact ⟨same ▸ nodup.1, nodup.2⟩
      · next apart =>
          rw [List.map_cons, List.nodup_cons]
          refine ⟨fun member => ?_, ih nodup.2⟩
          rcases mem_keys_insert member with same | later
          · exact apart same
          · exact nodup.1 later

theorem ofList_concat (entries : List (Text × Text)) (last : Text × Text) :
    ofList (entries ++ [last]) = insert last.1 last.2 (ofList entries) := ofList_append entries [last]

theorem nodup_ofList (entries : List (Text × Text)) : ((ofList entries).map Prod.fst).Nodup := by
  induction entries using List.reverseRecOn with
  | nil => exact List.nodup_nil
  | append_singleton entries last ih =>
      rw [ofList_concat]
      exact nodup_insert ih _ _

theorem mem_ofList : entry ∈ ofList entries ↔ IsLast entries entry := by
  induction entries using List.reverseRecOn with
  | nil => simp [ofList, IsLast]
  | append_singleton entries last ih =>
      rw [ofList_concat, mem_insert_iff (nodup_ofList entries), ih, isLast_concat]
      exact or_congr_right (and_congr_right fun _ => ne_comm)

theorem exists_isLast (member : entry ∈ entries) : ∃ one, IsLast entries one ∧ one.1 = entry.1 := by
  induction entries using List.reverseRecOn with
  | nil => cases member
  | append_singleton entries last ih =>
      by_cases same : last.1 = entry.1
      · exact ⟨last, isLast_concat.mpr (.inl rfl), same⟩
      · rcases List.mem_append.mp member with old | new
        · obtain ⟨one, isLast, spelled⟩ := ih old
          exact ⟨one, isLast_concat.mpr (.inr ⟨isLast, spelled.symm ▸ same⟩), spelled⟩
        · exact absurd (congrArg Prod.fst (List.mem_singleton.mp new).symm) same

end ImportTable

namespace Tree

/-- What the statement that a range of tokens may be imports into a scope, each with the position of
the statement. -/
def itemsAt (tree : Tree) (tokens : Tokens) (scope : Nat) (stretch : Stretch) :
    List (Nat × Import.Item) :=
  match stretch.part with
  | .body id =>
    if (tree.node id).kind = .imports ∧ tree.importScope id = scope then
      (Import.items (tokens.clauses stretch.first (stretch.stop - 1))).map
        (Prod.mk stretch.first)
    else []
  | .close _ => []

/-- What the statements of a file import into a scope, in the order of the source. -/
def itemsOf (tree : Tree) (tokens : Tokens) (stretches : List Stretch) (scope : Nat) :
    List (Nat × Import.Item) :=
  stretches.flatMap (tree.itemsAt tokens scope)

def entriesOf (tree : Tree) (tokens : Tokens) (stretches : List Stretch) (scope : Nat) :
    List (Text × Text) :=
  (tree.itemsOf tokens stretches scope).map fun item => item.2.entry

theorem entriesOf_append (tree : Tree) (tokens : Tokens) (front rest : List Stretch) (scope : Nat) :
    tree.entriesOf tokens (front ++ rest) scope =
      tree.entriesOf tokens front scope ++ tree.entriesOf tokens rest scope := by
  rw [entriesOf, itemsOf, List.flatMap_append, List.map_append]
  rfl

theorem entriesOf_congr {old new : Tree} {stretches : List Stretch}
    (kind : ∀ stretch ∈ stretches, (new.node stretch.part.id).kind =
      (old.node stretch.part.id).kind)
    (scope : ∀ stretch ∈ stretches, (new.node stretch.part.id).scope =
      (old.node stretch.part.id).scope) (tokens : Tokens) (above : Nat) :
    new.entriesOf tokens stretches above = old.entriesOf tokens stretches above := by
  unfold entriesOf itemsOf
  congr 1
  refine List.flatMap_congr fun stretch member => ?_
  have sameKind := kind stretch member
  have sameScope := scope stretch member
  obtain ⟨part, first, stop⟩ := stretch
  cases part with
  | close id => rfl
  | body id =>
      simp only [Part.id] at sameKind sameScope
      have same : new.importScope id = old.importScope id := by
        rw [importScope, importScope, sameKind, sameScope]
      simp only [itemsAt, sameKind, same]

theorem imports_update (tree : Tree) (id : Nat) (change : Node → Node)
    (kept : ∀ node, (change node).imports = node.imports) (other : Nat) :
    ((tree.update id change).node other).imports = (tree.node other).imports :=
  node_update_property Node.imports kept other

def Tabled (tree : Tree) (tokens : Tokens) (stretches : List Stretch) : Prop :=
  ∀ id, (tree.node id).imports = ImportTable.ofList (tree.entriesOf tokens stretches id)

end Tree

namespace Outline

variable {tokens : Tokens} {outline : Outline} {covered : Nat} {stretches : List Stretch}

theorem Filled.entriesOf_keeps (filled : Filled tokens outline covered stretches) {new : Tree}
    (keeps : outline.tree.Keeps new) (laid : Laid tokens outline covered) (scope : Nat) :
    new.entriesOf tokens stretches scope = outline.tree.entriesOf tokens stretches scope := by
  have inside (stretch : Stretch) (member : stretch ∈ stretches) :
      stretch.part.id < outline.tree.size := by
    refine Tree.mem_parts laid.ascending laid.size_pos ?_
    rw [filled.parts]
    exact List.mem_append_left _ (List.mem_map_of_mem member)
  exact Tree.entriesOf_congr
    (fun stretch member => keeps.property Node.kind (fun _ => rfl) (inside stretch member))
    (fun stretch member => keeps.property Node.scope (fun _ => rfl) (inside stretch member))
    tokens scope

theorem Laid.imports_attach (laid : Laid tokens outline covered) {node : Node}
    (none : node.imports = []) (first last id : Nat) :
    ((outline.attach node first last).tree.node id).imports = (outline.tree.node id).imports := by
  rcases Nat.lt_trichotomy id outline.tree.size with old | rfl | beyond
  · exact Tree.node_push_property Node.imports (fun _ _ => rfl) old laid.current_lt _
  · rw [laid.node_attach, Tree.node_of_size_le (Nat.le_refl _)]
    exact none
  · rw [Tree.node_of_size_le (Nat.le_of_lt beyond), Tree.node_of_size_le]
    rw [size_attach]
    exact beyond

theorem Laid.imports_take (laid : Laid tokens outline covered) {event : Event}
    (native : event.Native) (plain : event.ofStatement = false) (id : Nat) :
    ((outline.take event).tree.node id).imports = (outline.tree.node id).imports := by
  cases event with
  | leaf node first last => exact laid.imports_attach native.2 first last id
  | enter node first last => exact laid.imports_attach native.2 first last id
  | leave close last =>
      cases entered : outline.entered with
      | nil =>
          unfold take
          rw [entered]
      | cons entry rest =>
          rw [take_leave entered]
          exact outline.tree.imports_update entry.id (closedBy close) (fun _ => rfl) id
  | yields =>
      rcases outline.take_yields with same | ⟨other, same⟩
      · rw [same]
      · rw [same]
        exact outline.tree.imports_update other yielding (fun _ => rfl) id
  | imports entries => cases plain

theorem Laid.innermost_leaf (laid : Laid tokens outline covered) (node : Node) (first last : Nat)
    (kind : NodeKind) :
    (outline.take (.leaf node first last)).innermost kind = outline.innermost kind := by
  have keeps := laid.keeps_attach node first last
  unfold innermost
  congr 1
  refine List.find?_congr fun entry member => ?_
  have inside := laid.inside entry.id (List.mem_append_left _ (List.mem_map_of_mem member))
  rw [show (outline.take (.leaf node first last)).tree =
    (outline.attach node first last).tree from rfl, keeps.property Node.kind (fun _ => rfl) inside]

def scopeHere (outline : Outline) : Nat := (outline.innermost .scope).getD Tree.root

theorem Laid.scopeHere_lt (laid : Laid tokens outline covered) :
    outline.scopeHere < outline.tree.size := by
  unfold scopeHere
  cases found : outline.innermost .scope with
  | none => exact laid.size_pos
  | some id => exact laid.innermost_lt found

theorem imports_take_imports (inside : outline.scopeHere < outline.tree.size)
    (entries : List (Text × Text)) (id : Nat) :
    ((outline.take (.imports entries)).tree.node id).imports =
      (if outline.scopeHere = id then entries else []).foldl
        (fun table entry => ImportTable.insert entry.1 entry.2 table)
        (outline.tree.node id).imports := by
  change ((outline.tree.update outline.scopeHere _).node id).imports = _
  split
  · next same =>
      subst same
      rw [Tree.node_update_self inside]
  · next apart =>
      rw [Tree.node_update_of_ne (Ne.symm apart)]
      rfl

theorem Laid.entriesOf_leaf (laid : Laid tokens outline covered) {node : Node}
    (isOne : node.kind = .imports) {last : Nat} {entries : List (Text × Text)}
    (read : Import.read? (tokens.clauses covered last) = some entries) (id : Nat) :
    (outline.take (.leaf node covered last)).tree.entriesOf tokens
        (outline.fills covered (last + 1) (.leaf node covered last)) id =
      if outline.scopeHere = id then entries else [] := by
  have attached : (outline.take (.leaf node covered last)).tree.node outline.tree.size =
    { outline.placed node with parent := some outline.current, children := [] } :=
      laid.node_attach node covered last
  have kind : ((outline.take (.leaf node covered last)).tree.node outline.tree.size).kind =
      .imports := by
    rw [attached]
    exact isOne
  have scope : (outline.take (.leaf node covered last)).tree.importScope outline.tree.size =
      outline.scopeHere := by
    rw [Tree.importScope, kind, if_neg NodeKind.noConfusion, attached]
    rfl
  rw [Tree.entriesOf, Tree.itemsOf, fills, List.flatMap_cons, List.flatMap_cons, List.flatMap_nil,
    List.append_nil]
  simp only [Tree.itemsAt, kind, scope, true_and, List.append_nil, Nat.add_sub_cancel]
  split
  · rw [List.map_map]
    exact Import.entries_items read
  · rfl

/-- Any other event fills no range with an import statement. -/
theorem entriesOf_fills (laid : Laid tokens outline covered) {event : Event}
    (plain : event.ofStatement = false) (stop id : Nat) :
    (outline.take event).tree.entriesOf tokens (outline.fills covered stop event) id = [] := by
  have attached (node : Node) (first last : Nat) (other : decide (node.kind = .imports) = false)
      (begins ends : Nat) :
      (outline.attach node first last).tree.itemsAt tokens id
        ⟨.body outline.tree.size, begins, ends⟩ = [] := by
    have kind : ((outline.attach node first last).tree.node outline.tree.size).kind = node.kind := by
      rw [laid.node_attach]
      rfl
    have apart := of_decide_eq_false other
    simp only [Tree.itemsAt, kind, apart, false_and, if_false]
  cases event with
  | leaf node first last =>
      rw [Tree.entriesOf, Tree.itemsOf, fills, List.flatMap_cons]
      rw [show (outline.take (.leaf node first last)).tree =
        (outline.attach node first last).tree from rfl, attached node first last plain]
      rfl
  | enter node first last =>
      rw [Tree.entriesOf, Tree.itemsOf, fills, List.flatMap_cons]
      rw [show (outline.take (.enter node first last)).tree =
        (outline.attach node first last).tree from rfl, attached node first last plain]
      rfl
  | leave close last =>
      unfold fills
      cases outline.entered.head? <;> rfl
  | yields => rfl
  | imports entries => cases plain

theorem tabled_start (tokens : Tokens) (stretches : List Stretch) :
    (ofEvents []).tree.Tabled tokens stretches := by
  have blank (id : Nat) : ((ofEvents []).tree.node id).imports = [] ∧
      ((ofEvents []).tree.node id).kind ≠ .imports := by
    rcases Nat.lt_or_ge id 1 with first | beyond
    · rw [Nat.lt_one_iff.mp first]
      exact ⟨rfl, NodeKind.noConfusion⟩
    · rw [show (ofEvents []).tree.node id = Node.ofKind .code from Tree.node_of_size_le beyond]
      exact ⟨rfl, NodeKind.noConfusion⟩
  intro id
  have nothing : (ofEvents []).tree.itemsOf tokens stretches id = [] := by
    refine List.flatMap_eq_nil_iff.mpr fun stretch _ => ?_
    obtain ⟨part, first, stop⟩ := stretch
    cases part with
    | close other => rfl
    | body other => simp only [Tree.itemsAt, (blank other).2, false_and, if_false]
  rw [(blank id).1, Tree.entriesOf, nothing]
  rfl

/-- Along the reports of a read every table lists what the statements so far import. -/
theorem tabled_of_stated {events : List Event} (stated : Stated tokens events)
    (native : ∀ event ∈ events, event.Native) {point : Point}
    (derives : Derives tokens events point) :
    ∃ stretches, Filled tokens (ofEvents events) point.covered stretches ∧
      (ofEvents events).tree.Tabled tokens stretches := by
  induction stated generalizing point with
  | start =>
      obtain ⟨stretches, filled⟩ := (laid_of_derives derives).1.filled
      exact ⟨stretches, filled, tabled_start tokens stretches⟩
  | @other events event stated plain ih =>
      obtain ⟨here, before, step⟩ := derives.snoc
      obtain ⟨stretches, filled, tabled⟩ :=
        ih (fun other member => native other (List.mem_append_left _ member)) before
      obtain ⟨laid, length⟩ := laid_of_derives before
      have isNative := native event (List.mem_append_right _ List.mem_cons_self)
      rw [ofEvents_snoc]
      refine ⟨_, filled.step laid length step, fun id => ?_⟩
      rw [laid.imports_take isNative plain, Tree.entriesOf_append,
        filled.entriesOf_keeps (laid.keeps_take event) laid, entriesOf_fills laid plain,
        List.append_nil]
      exact tabled id
  | @statement events node first last entries stated isOne ends read ih =>
      obtain ⟨middle, between, silent⟩ := derives.snoc
      obtain ⟨here, before, step⟩ := between.snoc
      obtain ⟨stretches, filled, tabled⟩ := ih (fun other member =>
        native other (List.mem_append_left _ (List.mem_append_left _ member))) before
      obtain ⟨laid, length⟩ := laid_of_derives before
      have isNative := native (.leaf node first last) (List.mem_append_left _
        (List.mem_append_right _ List.mem_cons_self))
      have reported := filled.step laid length step
      have laidNext := laid.step length step
      have lengthNext := length_entered step length
      have same : (ofEvents events).scopeHere =
          ((ofEvents events).take (.leaf node first last)).scopeHere := by
        rw [scopeHere, scopeHere, laid.innermost_leaf]
      have whole := reported.step laidNext lengthNext silent
      rw [show fills _ _ _ (.imports entries) = [] from rfl, List.append_nil] at whole
      rw [ofEvents_snoc, ofEvents_snoc]
      cases step with
      | leaf spans =>
          refine ⟨_, whole, fun id => ?_⟩
          rw [imports_take_imports laidNext.scopeHere_lt, reported.entriesOf_keeps
              (laidNext.keeps_take _) laidNext, Tree.entriesOf_append,
            filled.entriesOf_keeps (laid.keeps_take _) laid, laid.entriesOf_leaf isOne read,
            ← same, ImportTable.ofList_append, ← tabled id]
          congr 1
          exact laid.imports_attach isNative.2 _ _ id

end Outline

namespace Tree

/-- In the tree of a file the table of every node lists what the statements of its scope import. -/
theorem tabled_of_parse {listLines : Bool} {source : Text} {tree : Tree}
    (parsed : parse listLines source = .ok tree) :
    ∃ stretches, tree.Ranges (TokenStream.ofText .html source).tokens stretches ∧
      tree.Tabled (TokenStream.ofText .html source).tokens stretches := by
  obtain ⟨events, read, relined⟩ := outline_of_parse parsed
  have spelled := Scan.spelled_scan .html source
  have tagged := Scan.tagged_scan .html source
  have derives := Reader.derives_eventsOf spelled tagged read
  obtain ⟨laid, length⟩ := Outline.laid_of_derives derives
  obtain ⟨stretches, filled, tabled⟩ := Outline.tabled_of_stated
    (Reader.stated_eventsOf spelled tagged read)
    (Reader.native_eventsOf (worded_scan .html source) read) derives
  refine ⟨_, relined.ranges laid filled (Outline.opened_of_length_zero length), fun id => ?_⟩
  rw [relined.property Node.imports (fun _ => rfl), tabled id, entriesOf_append]
  rw [entriesOf_congr (fun stretch _ => relined.property Node.kind (fun _ => rfl) _)
    (fun stretch _ => relined.property Node.scope (fun _ => rfl) _)]
  congr 1
  exact (List.append_nil _).symm

end Tree

end PhpWeave
