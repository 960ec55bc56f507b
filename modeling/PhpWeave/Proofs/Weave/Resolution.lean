import PhpWeave.Proofs.Grammar.ImportTable
import PhpWeave.Proofs.Weave.Answering
import PhpWeave.Proofs.Weave.Renaming

set_option autoImplicit false

/-!
What a redirected name stands for. The language looks a name up among the imports of one kind that
stand in front of it: functions for a function that is called by a single word, classes for
everything else. A redirection has one table for a namespace, of all its imports. Both say the same
where the imports with the alias in question are of the one kind and in front of the name.
-/

namespace PhpWeave

open Lexeme PhpWeave.Tree

/-! ### Lookups -/

namespace ImportTable

variable {entries : List (Text × Text)} {segment : Text}

/-- The import that a segment stands for: the last one under its alias, which is the segment itself
when that is imported, and the segment in other letter cases otherwise. -/
structure Stands (entries : List (Text × Text)) (segment : Text) (entry : Text × Text) : Prop where
  isLast : IsLast entries entry
  same : Text.sameWord entry.1 segment = true
  exact : ∀ other ∈ entries, other.1 = segment → entry.1 = segment

/-- A lookup by the exact spelling first finds what a segment stands for, in whatever order the table
is gone through. -/
theorem imported?_cases {table : ImportTable} (perm : table.Perm (ofList entries))
    (segment : Text) :
    (Reference.imported? table segment = none ∧
      ∀ entry ∈ entries, Text.sameWord entry.1 segment = false) ∨
    ∃ entry, Stands entries segment entry ∧
      Reference.imported? table segment = some entry.2 := by
  have mem_table {entry : Text × Text} : entry ∈ table ↔ IsLast entries entry :=
    perm.mem_iff.trans mem_ofList
  unfold Reference.imported? lookup? lookupWord?
  cases exact : table.find? fun entry => decide (entry.1 = segment) with
  | some entry =>
      have spelled : entry.1 = segment := by simpa using List.find?_some exact
      have isLast := mem_table.mp (List.mem_of_find?_eq_some exact)
      refine .inr ⟨entry, ⟨isLast, ?_, fun _ _ _ => spelled⟩, rfl⟩
      rw [spelled, Text.sameWord_eq]
  | none =>
      have never : ∀ entry ∈ entries, entry.1 ≠ segment := by
        intro entry member spelled
        obtain ⟨one, isLast, same⟩ := exists_isLast member
        have misses := List.find?_eq_none.mp exact one (mem_table.mpr isLast)
        exact misses (decide_eq_true (same.trans spelled))
      cases word : table.find? fun entry => Text.sameWord entry.1 segment with
      | some entry =>
          have isLast := mem_table.mp (List.mem_of_find?_eq_some word)
          have same : Text.sameWord entry.1 segment = true := by simpa using List.find?_some word
          exact .inr ⟨entry, ⟨isLast, same,
            fun other member spelled => absurd spelled (never other member)⟩, rfl⟩
      | none =>
          refine .inl ⟨rfl, fun entry member => ?_⟩
          obtain ⟨one, isLast, same⟩ := exists_isLast member
          have misses := List.find?_eq_none.mp word one (mem_table.mpr isLast)
          rw [← same]
          exact eq_false_of_ne_true misses

end ImportTable

/-! ### The rule of the language -/

namespace Import

/-- The kind of imports that the language looks a name up among. -/
def lookedUp (use : NameUse) (written : Text) : Kind :=
  if use = .call ∧ '\\' ∉ written then .function else .className

/-- What the language takes a name for that is written behind a position, given the imports of its
scope with their positions. A leading backslash makes a name complete, and so does an import of its
first segment, in whatever letter case, when it is of the kind that is looked up and stands in front
of the name. Any other name is relative to the namespace around it. -/
def denoted (items : List (Nat × Item)) (place : Nat) (use : NameUse) (written : Text) :
    NameScope × Text :=
  match written with
  | '\\' :: name => (.absolute, name)
  | _ =>
    let segment := Reference.firstSegment written
    match items.find? fun item => item.1 < place && item.2.kind = lookedUp use written &&
        Text.sameWord item.2.short segment with
    | none => (.current, written)
    | some item =>
      (.absolute, Text.dropLeadingSeparators item.2.name ++ written.drop segment.length)

/-- No import casts doubt on a name: those whose alias is its first segment are of the kind that is
looked up, stand in front of it and import one name. -/
structure Clear (items : List (Nat × Item)) (place : Nat) (use : NameUse) (written : Text) :
    Prop where
  seen : ∀ item ∈ items, Text.sameWord item.2.short (Reference.firstSegment written) = true →
    item.1 < place ∧ item.2.kind = lookedUp use written
  single : ∀ item ∈ items, ∀ other ∈ items,
    Text.sameWord item.2.short (Reference.firstSegment written) = true →
      Text.sameWord other.2.short (Reference.firstSegment written) = true →
        item.2.name = other.2.name

def entries (items : List (Nat × Item)) : List (Text × Text) :=
  items.map fun item => item.2.entry

end Import

/-- What is made of a name with the imports of its scope. -/
structure Reference.Denotes (items : List (Nat × Import.Item)) (place : Nat) (written : Text)
    (reference : Reference) : Prop where
  rooted : ∀ name, written = '\\' :: name → reference.scope = .absolute ∧ reference.name = name
  relative : startsWhere (· == '\\') written = false →
    (∀ item ∈ items, Text.sameWord item.2.short (firstSegment written) = false) →
      reference.scope = .current ∧ reference.name = written
  /-- An import of the first segment makes the name complete, of whatever kind it is. -/
  imported : startsWhere (· == '\\') written = false → ∀ item ∈ items,
    Text.sameWord item.2.short (firstSegment written) = true →
      ∃ entry, ImportTable.Stands (Import.entries items) (firstSegment written) entry ∧
        reference.scope = .absolute ∧ reference.name =
          Text.dropLeadingSeparators entry.2 ++ written.drop (firstSegment written).length
  /-- Where no import casts doubt on the name, this is what the language takes it for. -/
  clear : Import.Clear items place reference.use written →
    (reference.scope, reference.name) = Import.denoted items place reference.use written

theorem Reference.denotes_of_resolve {items : List (Nat × Import.Item)} {written : Text}
    {reference : Reference} {table : ImportTable}
    (perm : table.Perm (ImportTable.ofList (Import.entries items)))
    (resolved : (reference.scope, reference.name) = resolve table written) (place : Nat) :
    reference.Denotes items place written := by
  have noMatch (plain : startsWhere (· == '\\') written = false)
      (none : ∀ item ∈ items, Text.sameWord item.2.short (firstSegment written) = false) :
      (reference.scope, reference.name) = (.current, written) := by
    rw [resolved, resolve_of_plain _ plain]
    rcases ImportTable.imported?_cases perm (firstSegment written) with
      ⟨found, -⟩ | ⟨entry, stands, -⟩
    · rw [found]
    · obtain ⟨item, member, rfl⟩ := List.mem_map.mp stands.isLast.mem
      have misses := none item member
      rw [show item.2.short = item.2.entry.1 from rfl, stands.same] at misses
      cases misses
  have someMatch (plain : startsWhere (· == '\\') written = false) {item : Nat × Import.Item}
      (member : item ∈ items)
      (same : Text.sameWord item.2.short (firstSegment written) = true) :
      ∃ entry, ImportTable.Stands (Import.entries items) (firstSegment written) entry ∧
        (reference.scope, reference.name) = (.absolute,
          Text.dropLeadingSeparators entry.2 ++ written.drop (firstSegment written).length) := by
    rw [resolved, resolve_of_plain _ plain]
    rcases ImportTable.imported?_cases perm (firstSegment written) with
      ⟨-, never⟩ | ⟨entry, stands, found⟩
    · have misses := never item.2.entry (List.mem_map_of_mem member)
      rw [show item.2.entry.1 = item.2.short from rfl, same] at misses
      cases misses
    · rw [found]
      exact ⟨entry, stands, rfl⟩
  constructor
  case rooted =>
    rintro name rfl
    exact Prod.mk.inj resolved
  case relative => exact fun plain none => Prod.mk.inj (noMatch plain none)
  case imported =>
    intro plain item member same
    obtain ⟨entry, stands, found⟩ := someMatch plain member same
    exact ⟨entry, stands, Prod.mk.inj found⟩
  case clear =>
    intro clear
    unfold Import.denoted
    split
    · exact resolved
    · next noRoot =>
        have plain : startsWhere (· == '\\') written = false := by
          cases written with
          | nil => rfl
          | cons c rest =>
              refine beq_false_of_ne ?_
              rintro rfl
              exact noRoot rest rfl
        simp only
        split
        · next missed =>
            refine noMatch plain fun item member => ?_
            refine eq_false_of_ne_true fun same => ?_
            obtain ⟨early, kind⟩ := clear.seen item member same
            have misses := List.find?_eq_none.mp missed item member
            simp only [early, kind, same, decide_true, Bool.and_self, not_true_eq_false] at misses
        · next item search =>
            have member := List.mem_of_find?_eq_some search
            have found := List.find?_some search
            rw [Bool.and_eq_true] at found
            obtain ⟨entry, stands, whole⟩ := someMatch plain member found.2
            obtain ⟨other, among, rfl⟩ := List.mem_map.mp stands.isLast.mem
            have one := clear.single item member other among found.2 stands.same
            rw [whole, one]
            rfl

/-! ### Redirected files -/

theorem Text.infix_joinWith (separator : Text) {pieces : List Text} {piece : Text}
    (member : piece ∈ pieces) : piece <:+: joinWith separator pieces := by
  induction pieces with
  | nil => cases member
  | cons first rest ih =>
      by_cases last : rest = []
      · rw [last] at member ⊢
        exact List.mem_singleton.mp member ▸ List.infix_rfl
      · rw [joinWith_cons separator first last]
        rcases List.mem_cons.mp member with rfl | later
        · exact ⟨[], separator ++ joinWith separator rest, by simp⟩
        · exact (ih later).trans (List.suffix_append _ _).isInfix

namespace Redirection

variable {redirection : Redirection} {tree woven : Tree} {ledger : Ledger} {blocks : List Nat}

/-- A resolver is asked for a reference: a node that was put in under some node sets the variable
of the reference to the answer for its scope, its name and its use. A reference that differs from it
in letter case may have been met first, and is the one asked for then. -/
def Asks (redirection : Redirection) (woven : Tree) (parent : Option Nat) (variableName : Text)
    (reference : Reference) : Prop :=
  ∃ new ∈ woven.injectedNodes, woven.parent? new = parent ∧ ∃ asked : Reference,
    asked.key = reference.key ∧
      redirection.assignment variableName asked <:+: (woven.node new).body

/-- The code of a node after a redirection, and what its variables stand for. -/
structure Resolves (redirection : Redirection) (tree woven : Tree) (tokens : Tokens)
    (stretches : List Stretch) (variableOf : Reference → Text) (id : Nat) : Prop where
  reads : (woven.node id).body = (redirection.entries tree id).flatMap fun entry =>
    (entry.2.map variableOf).getD entry.1.text
  asks : ∀ token reference, (token, some reference) ∈ redirection.entries tree id →
    redirection.Asks woven (tree.parent? id) (variableOf reference) reference
  denotes : ∀ token reference, (token, some reference) ∈ redirection.entries tree id →
    ∀ first stop, ⟨.body id, first, stop⟩ ∈ stretches →
      reference.Denotes (tree.itemsOf tokens stretches (tree.importScope id)) first token.text

theorem Redirected.asks
    (redirected : Redirected redirection tree woven (redirection.ledger tree) blocks)
    (native : tree.Native) (whole : tree.preorder root = List.range tree.size) {block : Nat}
    {reference : Reference} (meets : Meets redirection tree block reference) :
    redirection.Asks woven (some block)
      (redirection.variableIn (redirection.ledger tree) block reference) reference := by
  obtain ⟨entry, found, serves⟩ := Ledger.serves_getElem meets.known
  obtain ⟨rfl, key⟩ := Ledger.serves_iff.mp serves
  have entered := Ledger.mem_ofBlock.mpr found
  obtain ⟨number, here⟩ := List.mem_iff_getElem?.mp
    ((redirected.declares entry.1).mpr (List.ne_nil_of_mem entered))
  obtain ⟨line, added, above⟩ := redirected.added number _ here
  have body : (woven.node (tree.size + number)).body =
      redirection.declaration (redirection.ledger tree) entry.1 := congrArg Node.body added
  refine ⟨tree.size + number, (redirected.mem_injectedNodes native whole).mpr
    ⟨number, (List.getElem?_eq_some_iff.mp here).1, rfl⟩, above, entry.2, key, ?_⟩
  have listed : redirection.assignment
      (redirection.variableAt ((redirection.ledger tree).number entry.1 reference)) entry.2 ∈
      ((redirection.ledger tree).ofBlock entry.1).map fun one =>
        redirection.assignment (redirection.variableAt one.1) one.2 :=
    List.mem_map.mpr ⟨_, entered, rfl⟩
  rw [body, declaration, variableIn]
  exact Text.infix_joinWith [' '] listed

/-- In every file that has a tree, the resolver is asked for each redirected name with what the
imports of its scope make of it, which is what the language takes the name for where no import of
another kind, behind the name or of the same alias stands in the way. -/
theorem resolution_of_parse {listLines : Bool} {source : Text} {tree : Tree}
    (parsed : parse listLines source = .ok tree) (redirection : Redirection) :
    ∃ (stretches : List Stretch) (variableOf : Nat → Reference → Text),
      tree.Ranges (TokenStream.ofText .html source).tokens stretches ∧
      ∀ id ∈ tree.editableNodes, ∀ block, hostOf? tree id = some block →
        redirection.Resolves tree (redirection.redirect tree).2
          (TokenStream.ofText .html source).tokens stretches (variableOf block) id := by
  have native := native_of_parse parsed
  obtain ⟨-, whole, -⟩ := made_of_parse parsed
  obtain ⟨stretches, ranges, tabled⟩ := tabled_of_parse parsed
  obtain ⟨-, blocks, redirected⟩ := redirected_redirect redirection native.linked
  refine ⟨stretches, redirection.variableIn (redirection.ledger tree), ranges,
    fun id editing block host => ⟨?_, ?_, ?_⟩⟩
  · rw [redirected.code id editing, written, host]
    rfl
  · intro token reference member
    rw [(hostOf?_eq_some host).1]
    exact redirected.asks native whole ⟨id, editing, host, token, member⟩
  · intro token reference member first stop _
    obtain ⟨index, refers⟩ := refers_of_mem member
    have table : tree.importsFor id = ImportTable.ofList (Import.entries
        (tree.itemsOf (TokenStream.ofText .html source).tokens stretches (tree.importScope id))) :=
      tabled (tree.importScope id)
    have perm := redirection.order.perm (tree.importsFor id)
    refine Reference.denotes_of_resolve (perm.trans (.of_eq table)) ?_ first
    rw [refers.scope, refers.name]
    rfl

/-- A function that is imported in a group, and a class of an imported namespace. -/
theorem resolution_of_parse_group :
    let source := "<?php use A\\B; use function C\\\x7bd\x7d; D(new B\\E, \\F::g());".toList
    ∃ (tree : Tree) (stretches : List Stretch) (variableOf : Nat → Reference → Text),
      parse false source = .ok tree ∧
      ∀ id ∈ tree.editableNodes, ∀ block, hostOf? tree id = some block →
        Resolves {} tree (({} : Redirection).redirect tree).2
          (TokenStream.ofText .html source).tokens stretches (variableOf block) id := by
  intro source
  have closes : (parse false source).toBool = true := by decide +kernel
  cases parsed : parse false source with
  | error fault =>
      rw [parsed] at closes
      cases closes
  | ok tree =>
      obtain ⟨stretches, variableOf, -, resolves⟩ := resolution_of_parse parsed {}
      exact ⟨tree, stretches, variableOf, rfl, resolves⟩

/-- The import of a class is taken for that of a function. -/
theorem class_import_taken_for_function :
    let source := "<?php use Foo\\rand; rand();".toList
    ((parse false source).toOption.map fun tree =>
      (Weaver.weave ({} : Redirection) tree none).2.source) =
        some ("<?php use Foo\\rand;$__KMONKEY__0 = \\Kahlan\\Plugin\\Monkey::patched(".toList ++
          "null, 'Foo\\rand', true); $__KMONKEY__0();".toList) ∧
      Import.denoted ((Import.items ((TokenStream.ofText .html source).tokens.clauses 1 4)).map
        (Prod.mk 1)) 5 .call "rand".toList = (.current, "rand".toList) := by
  decide +kernel

end Redirection
end PhpWeave
