import PhpWeave.Proofs.Grammar.Reported
import PhpWeave.Proofs.Grammar.Structure
import PhpWeave.Proofs.Node.Linked
import PhpWeave.Proofs.Token.Word

set_option autoImplicit false

/-!
The tree of a file as written, before any weaver. Its links are in order, no node in it was put in
by a weaver, plain code and literals have neither children nor a close, and what it imports are
names, for they are made of words.
-/

namespace PhpWeave

open Lexeme

namespace Import

def Named (tokens : List Token) : Prop :=
  ∀ token ∈ tokens, token.kind.isIdentifierLike = true → IsName token.text ∧
    (token.kind ≠ .fullyQualifiedName → startsWhere isNameStart token.text = true)

theorem Named.mono {tokens rest : List Token} (named : Named tokens) (fewer : rest <:+ tokens) :
    Named rest := fun token member => named token (fewer.subset member)

theorem Named.name? {tokens : List Token} (named : Named tokens) {token : Token}
    (member : token ∈ tokens) {name : Text} (read : Import.name? token = some name) :
    IsName name ∧
      (token.kind ≠ .fullyQualifiedName → startsWhere isNameStart name = true) := by
  have here := named token member
  unfold Import.name? at read
  split at read
  · next kind =>
      cases read
      exact here (by rw [kind]; rfl)
  · next kind =>
      cases read
      exact here (by rw [kind]; rfl)
  · next kind =>
      cases read
      exact ⟨(here (by rw [kind]; rfl)).1.of_suffix (List.dropWhile_suffix _),
        fun other => absurd kind other⟩
  · cases read

theorem dropKind_suffix (tokens : List Token) : dropKind tokens <:+ tokens := by
  cases tokens with
  | nil => exact List.suffix_rfl
  | cons token rest =>
      rw [dropKind]
      split
      · exact List.suffix_cons _ _
      · exact List.suffix_rfl

theorem givenAlias?_suffix {tokens rest : List Token} {given : Option Text}
    (read : givenAlias? tokens = some (given, rest)) : rest <:+ tokens := by
  unfold givenAlias? at read
  split at read
  · cases read
    exact List.suffix_rfl
  · split at read
    · split at read
      · cases read
      · split at read
        · cases read
          exact (List.suffix_cons _ _).trans (List.suffix_cons _ _)
        · cases read
    · cases read
      exact List.suffix_rfl

def Reads (tokens : List Token) (entries : List (Text × Text)) (rest : List Token) : Prop :=
  (∀ entry ∈ entries, IsName entry.2) ∧ rest <:+ tokens

theorem members?_reads {base : Text} (namedBase : IsName base) {fuel : Nat} {tokens : List Token}
    (named : Named tokens) {entries : List (Text × Text)} {rest : List Token}
    (read : members? base fuel tokens = some (entries, rest)) : Reads tokens entries rest := by
  induction fuel generalizing tokens entries rest with
  | zero => cases read
  | succ fuel ih =>
      cases tokens with
      | nil => cases read
      | cons token tail =>
          rw [members?] at read
          split at read
          · cases read
            exact ⟨fun _ none => (by cases none), List.suffix_cons _ _⟩
          · split at read
            · cases read
            · next member afterKind dropped =>
                have among : member :: afterKind <:+ token :: tail := dropped ▸ dropKind_suffix _
                have named := named.mono among
                split at read
                · cases read
                · next relative =>
                  simp only [Option.bind_eq_bind, Option.bind_eq_some_iff] at read
                  obtain ⟨inner, isInner, ⟨given, afterAlias⟩, aliased, read⟩ := read
                  have later := (givenAlias?_suffix aliased).trans (List.suffix_cons member _)
                  obtain ⟨namedInner, begins⟩ := named.name? List.mem_cons_self isInner
                  have value : IsName (base ++ '\\' :: inner) :=
                    namedBase.append (namedInner.separated (begins relative))
                  cases afterAlias with
                  | nil => cases read
                  | cons mark afterMark =>
                      have further := (List.suffix_cons mark afterMark).trans later
                      simp only at read
                      split at read
                      · simp only [Option.bind_eq_some_iff] at read
                        obtain ⟨⟨more, last⟩, others, read⟩ := read
                        cases read
                        obtain ⟨values, remaining⟩ := ih (named.mono further) others
                        refine ⟨fun entry among => ?_, (remaining.trans further).trans ‹_›⟩
                        rcases List.mem_cons.mp among with rfl | other
                        · exact value
                        · exact values entry other
                      · split at read
                        · cases read
                          refine ⟨fun entry among => ?_, further.trans ‹_›⟩
                          rw [List.mem_singleton.mp among]
                          exact value
                        · cases read

theorem clause?_reads {tokens : List Token} (named : Named tokens)
    {entries : List (Text × Text)} {rest : List Token}
    (read : clause? tokens = some (entries, rest)) : Reads tokens entries rest := by
  cases tokens with
  | nil => cases read
  | cons token tail =>
      simp only [clause?, Option.bind_eq_bind, Option.bind_eq_some_iff] at read
      obtain ⟨base, isBase, read⟩ := read
      have namedBase := (named.name? List.mem_cons_self isBase).1
      have single (short : Text) : ∀ entry ∈ [(short, base)], IsName entry.2 := by
        intro entry member
        rw [List.mem_singleton.mp member]
        exact namedBase
      have behind := List.suffix_cons token tail
      cases tail with
      | nil =>
          cases read
          exact ⟨single _, List.nil_suffix⟩
      | cons mark afterMark =>
          have further := (List.suffix_cons mark afterMark).trans behind
          simp only at read
          split at read
          · cases afterMark with
            | nil => cases read
            | cons brace afterBrace =>
                have deeper := (List.suffix_cons brace afterBrace).trans further
                simp only at read
                split at read
                · obtain ⟨values, remaining⟩ :=
                    members?_reads namedBase (named.mono deeper) read
                  exact ⟨values, remaining.trans deeper⟩
                · cases read
          · simp only [Option.bind_eq_some_iff] at read
            obtain ⟨⟨given, afterAlias⟩, aliased, read⟩ := read
            cases read
            exact ⟨single _, (givenAlias?_suffix aliased).trans behind⟩

theorem clauses?_named {fuel : Nat} {tokens : List Token} (named : Named tokens)
    {entries : List (Text × Text)} (read : clauses? fuel tokens = some entries) :
    ∀ entry ∈ entries, IsName entry.2 := by
  induction fuel generalizing tokens entries with
  | zero => cases read
  | succ fuel ih =>
      simp only [clauses?, Option.bind_eq_bind, Option.bind_eq_some_iff] at read
      obtain ⟨⟨first, rest⟩, clause, read⟩ := read
      obtain ⟨values, remaining⟩ := clause?_reads named clause
      cases rest with
      | nil =>
          cases read
          exact values
      | cons mark afterMark =>
          simp only at read
          split at read
          · simp only [Option.bind_eq_some_iff] at read
            obtain ⟨more, others, read⟩ := read
            cases read
            intro entry member
            rcases List.mem_append.mp member with here | later
            · exact values entry here
            · exact ih (named.mono ((List.suffix_cons mark afterMark).trans remaining)) others
                entry later
          · cases read

theorem read?_named {tokens : List Token} (named : Named tokens)
    {entries : List (Text × Text)} (read : read? tokens = some entries) :
    ∀ entry ∈ entries, IsName entry.2 :=
  clauses?_named (named.mono (dropKind_suffix tokens)) read

end Import

/-! ### Events -/

def Event.Native : Event → Prop
  | .leaf node _ _ | .enter node _ _ => node.flags.synthetic = false ∧ node.imports = []
  | .leave _ _ | .yields => True
  | .imports entries => ∀ entry ∈ entries, IsName entry.2

theorem Event.Reported.native {tokens : Tokens} (worded : Worded tokens) {event : Event}
    (reported : event.Reported tokens) : event.Native := by
  cases event with
  | leaf node first last => exact ⟨reported.written, reported.imports⟩
  | enter node first last => exact ⟨reported.written, reported.imports⟩
  | leave close last => trivial
  | yields => trivial
  | imports entries =>
      obtain ⟨significant, among, read⟩ := reported
      exact Import.read?_named (fun token member => worded token (among token member)) read

theorem Reader.native_eventsOf {tokens : Tokens} (worded : Worded tokens) {events : List Event}
    (done : eventsOf tokens = .ok events) : ∀ event ∈ events, event.Native :=
  fun event member => (reported_eventsOf done event member).native worded

/-! ### Trees -/

namespace ImportTable

theorem mem_insert {short name : Text} {table : ImportTable} {entry : Text × Text}
    (member : entry ∈ insert short name table) : entry = (short, name) ∨ entry ∈ table := by
  induction table with
  | nil => exact .inl (List.mem_singleton.mp member)
  | cons first rest ih =>
      rw [insert] at member
      split at member
      · exact (List.mem_cons.mp member).imp_right fun later => List.mem_cons_of_mem _ later
      · rcases List.mem_cons.mp member with rfl | later
        · exact .inr List.mem_cons_self
        · exact (ih later).imp_right fun old => List.mem_cons_of_mem _ old

end ImportTable

structure Node.Native (node : Node) : Prop where
  written : node.flags.synthetic = false
  imports : ∀ entry ∈ node.imports, IsName entry.2

theorem Node.Native.congr {node other : Node} (native : node.Native)
    (flags : other.flags = node.flags)
    (imports : other.imports = node.imports) : other.Native :=
  ⟨flags ▸ native.written, imports ▸ native.imports⟩

namespace Outline

variable {tokens : Tokens} {outline : Outline} {covered : Nat}

structure Native (outline : Outline) : Prop where
  linked : outline.tree.Linked
  node : ∀ id, (outline.tree.node id).Native

theorem Native.start : Outline.start.Native where
  linked := .empty
  node := by
    intro id
    rcases Nat.lt_or_ge id 1 with first | beyond
    · rw [Nat.lt_one_iff.mp first]
      exact ⟨rfl, fun _ none => by cases none⟩
    · rw [show Outline.start.tree.node id = Node.ofKind .code from Tree.node_of_size_le beyond]
      exact ⟨rfl, fun _ none => by cases none⟩

theorem Laid.innermost_lt (laid : Laid tokens outline covered) {kind : NodeKind} {id : Nat}
    (found : outline.innermost kind = some id) : id < outline.tree.size := by
  obtain ⟨entry, search, rfl⟩ := Option.map_eq_some_iff.mp found
  refine laid.inside entry.id (List.mem_append_left _ (List.mem_map_of_mem ?_))
  exact List.mem_of_find?_eq_some search

theorem Native.attach (native : outline.Native) (laid : Laid tokens outline covered) {node : Node}
    (written : node.flags.synthetic = false ∧ node.imports = []) (first last : Nat) :
    (outline.attach node first last).Native := by
  have refers : (outline.placed node).RefersBelow (outline.tree.size + 1) :=
    ⟨fun id around => Nat.lt_succ_of_lt (laid.innermost_lt around),
      fun id around => Nat.lt_succ_of_lt (laid.innermost_lt around)⟩
  have spliced := Tree.spliced_apply native.linked.ascending
    (.push outline.current (outline.placed node)) laid.current_lt
  constructor
  case linked =>
    refine native.linked.spliced spliced fun other member => ?_
    cases member
    exact refers
  case node =>
    intro id
    have unlinked {one other : Node} (same : one.unlinked = other.unlinked)
        (native : other.Native) : one.Native :=
      native.congr (show one.unlinked.flags = other.unlinked.flags from congrArg Node.flags same)
        (show one.unlinked.imports = other.unlinked.imports from congrArg Node.imports same)
    rcases spliced.node_cases id with same | ⟨other, added, -, same⟩
    · exact unlinked same (native.node id)
    · cases added
      refine unlinked same ⟨written.1, fun entry member => ?_⟩
      rw [show (outline.placed node).imports = [] from written.2] at member
      cases member

theorem Native.update (native : outline.Native) (id : Nat) {change : Node → Node}
    (kept : ∀ node, (change node).parent = node.parent ∧ (change node).children = node.children ∧
      (change node).scope = node.scope ∧ (change node).function = node.function)
    (node : ∀ node : Node, node.Native → (change node).Native) :
    Native { outline with tree := outline.tree.update id change } where
  linked := by
    refine native.linked.update (kept _).1 (kept _).2.1 fun refers => ?_
    rw [Node.RefersBelow, (kept _).2.2.1, (kept _).2.2.2]
    exact refers
  node := by
    intro other
    change ((outline.tree.update id change).node other).Native
    rcases Tree.node_update_cases id change other with same | ⟨-, same⟩
    · rw [same]
      exact native.node other
    · rw [same]
      exact node _ (native.node id)

theorem Native.take (native : outline.Native) (laid : Laid tokens outline covered) {event : Event}
    (written : event.Native) : (outline.take event).Native := by
  cases event with
  | leaf node first last => exact native.attach laid written first last
  | enter node first last =>
      have attached := native.attach laid written first last
      exact ⟨attached.linked, attached.node⟩
  | leave close last =>
      cases entered : outline.entered with
      | nil =>
          unfold Outline.take
          rw [entered]
          exact native
      | cons entry rest =>
          rw [take_leave entered]
          have closed : Native { outline with
              tree := outline.tree.update entry.id (closedBy close) } :=
            native.update entry.id (fun _ => ⟨rfl, rfl, rfl, rfl⟩) fun _ native =>
              native.congr rfl rfl
          exact ⟨closed.linked, closed.node⟩
  | yields =>
      rcases outline.take_yields with same | ⟨id, same⟩
      · rw [same]
        exact native
      · rw [same]
        exact native.update id (fun _ => ⟨rfl, rfl, rfl, rfl⟩) fun _ native =>
          ⟨native.written, native.imports⟩
  | imports entries =>
      obtain ⟨id, same⟩ := outline.take_imports entries
      rw [same]
      refine native.update id (fun _ => ⟨rfl, rfl, rfl, rfl⟩) fun node native =>
        ⟨native.written, ?_⟩
      change ∀ entry ∈ entries.foldl (fun table entry => ImportTable.insert entry.1 entry.2 table)
        node.imports, IsName entry.2
      have old := native.imports
      generalize node.imports = table at old
      have values : ∀ entry ∈ entries, IsName entry.2 := written
      clear written same
      induction entries generalizing table with
      | nil => exact old
      | cons first rest ih =>
          refine ih _ (fun entry member => ?_) fun entry member =>
            values entry (List.mem_cons_of_mem _ member)
          rcases ImportTable.mem_insert member with rfl | among
          · exact values first List.mem_cons_self
          · exact old entry among

theorem native_of_derives {events : List Event} {point : Point}
    (derives : Derives tokens events point) (written : ∀ event ∈ events, event.Native) :
    (ofEvents events).Native := by
  induction derives with
  | start => exact .start
  | step before step ih =>
      rw [ofEvents_snoc]
      refine (ih fun event member => written event (List.mem_append_left _ member)).take
        (laid_of_derives before).1 (written _ ?_)
      simp

end Outline

namespace Tree

def Bare (tree : Tree) : Prop :=
  ∀ id : Nat, (tree.node id).kind = .code → tree.children id = [] ∧ (tree.node id).close = []

/-- A tree as written. -/
structure Native (tree : Tree) : Prop where
  linked : tree.Linked
  node : ∀ id, (tree.node id).Native
  bare : tree.Bare

theorem native_of_parse {listLines : Bool} {source : Text} {tree : Tree}
    (parsed : parse listLines source = .ok tree) : tree.Native := by
  obtain ⟨events, read, relined⟩ := outline_of_parse parsed
  have derives := Reader.derives_eventsOf (Scan.spelled_scan .html source)
    (Scan.tagged_scan .html source) read
  have native := Outline.native_of_derives derives
    (Reader.native_eventsOf (worded_scan .html source) read)
  have same {α : Type} (property : Node → α) (kept : ∀ node, property node.unlined = property node)
      (id : Nat) := relined.property property kept id
  constructor
  case linked =>
    refine native.linked.congr relined.size (same Node.parent fun _ => rfl)
      (same Node.children fun _ => rfl) fun id inside => ?_
    rw [Node.RefersBelow, same Node.scope fun _ => rfl, same Node.function fun _ => rfl]
    exact native.linked.refers id inside
  case node =>
    exact fun id => (native.node id).congr (same Node.flags (fun _ => rfl) id)
      (same Node.imports (fun _ => rfl) id)
  case bare =>
    intro id isCode
    rcases Nat.lt_or_ge id tree.size with inside | outside
    · have noBrace : (tree.node id).isEnclosed = false := by rw [Node.isEnclosed, isCode]
      have isLeaf : (tree.node id).isLeaf = true := by rw [Node.isLeaf, isCode]
      have close := close_of_parse parsed inside
      rw [noBrace] at close
      refine ⟨?_, close⟩
      by_contra filled
      rw [not_isLeaf_of_parse parsed inside filled] at isLeaf
      cases isLeaf
    · rw [children, node_of_size_le outside]
      exact ⟨rfl, rfl⟩

end Tree
end PhpWeave
