import Mathlib.Data.List.Perm.Subperm
import PhpWeave.Proofs.Grammar.Bracketing

set_option autoImplicit false

/-!
Which functions yield. The word `yield` counts for the innermost function around it unless the
innermost arrow function whose body goes on behind it begins in the same construct. When no such
body goes on behind the construct that it begins in, this is what the text says: a function yields
if and only if the word stands in its own code and in no body of an arrow function of its own. No
body goes on so far in a file whose brackets are nested, where the opening of an attribute counts for
no bracket.
-/

namespace PhpWeave

/-! ### Words of plain code -/

/-- A word that a read comes by without settling the tokens in front of it: `yield`, or one that an
arrow function begins with. -/
def Tokens.IsQuiet (tokens : Tokens) (index : Nat) : Prop :=
  tokens.kindAt index = some .kwYield ∨ ∃ stop, tokens.arrowStop? index = some stop

theorem Tokens.IsQuiet.kind {tokens : Tokens} {index : Nat} (quiet : tokens.IsQuiet index) :
    ∃ kind, tokens.kindAt index = some kind ∧ (kind = .kwYield ∨ kind = .identifier) := by
  rcases quiet with isYield | ⟨stop, begins⟩
  · exact ⟨_, isYield, .inl rfl⟩
  · exact ⟨_, Reader.kind_of_arrowStop? begins, .inr rfl⟩

theorem Tokens.IsQuiet.leads {tokens : Tokens} {index : Nat} (quiet : tokens.IsQuiet index) :
    ∃ kind, tokens.kindAt index = some kind ∧ kind.leads = false := by
  obtain ⟨kind, here, isYield | isName⟩ := quiet.kind
  · exact ⟨kind, here, by rw [isYield]; rfl⟩
  · exact ⟨kind, here, by rw [isName]; rfl⟩

namespace Reader

variable {tokens : Tokens} {reader next : Reader} {token : Token}

theorem Header.not_quiet {node : Node} {first last : Nat}
    (header : Header tokens reader token node first last)
    (here : tokens[reader.pos]? = some token) : ¬ tokens.IsQuiet reader.pos := by
  rintro (isYield | ⟨stop, begins⟩)
  · obtain ⟨found, same, isOne⟩ := Tokens.kindAt_eq_some.mp isYield
    rw [here] at same
    cases same
    have declares := header.declares
    unfold Declares at declares
    rw [isOne] at declares
    split at declares
    · exact declares
    · cases declares.1
    · cases declares.1
    · rcases declares.1 with none | none | none | ⟨none, -⟩ <;> cases none
    · cases declares.1
    · cases declares.1
    · cases declares.1
  · rw [header.no_arrow here] at begins
    cases begins

structure Stays (reader : Reader) (token : Token) (next : Reader) : Prop where
  pos : next.pos = reader.pos + 1
  pending : next.pending = reader.pending
  events : next.events.toList = reader.events.toList ∨
    next.events.toList = reader.events.toList ++ [.yields]
  yields : token.kind = .kwYield → reader.inArrowBody reader.pos = false →
    next.events.toList = reader.events.toList ++ [.yields]

theorem Stride.of_quiet (stride : Stride tokens reader token next)
    (here : tokens[reader.pos]? = some token) (quiet : tokens.IsQuiet reader.pos) :
    Stays reader token next := by
  have kind : token.kind = .kwYield ∨ token.kind = .identifier := by
    obtain ⟨kind, isKind, either⟩ := quiet.kind
    obtain ⟨found, same, rfl⟩ := Tokens.kindAt_eq_some.mp isKind
    rw [here] at same
    cases same
    exact either
  have other {another : TokenKind} (isAnother : token.kind = another)
      (apart : another ≠ .kwYield ∧ another ≠ .identifier) : False :=
    kind.elim (fun isYield => apart.1 (isAnother.symm.trans isYield))
      fun isName => apart.2 (isAnother.symm.trans isName)
  cases stride with
  | leaf header => exact absurd quiet (header.not_quiet here)
  | imports header => exact absurd quiet (header.not_quiet here)
  | enter header => exact absurd quiet (header.not_quiet here)
  | scope level header => exact absurd quiet (header.not_quiet here)
  | leave isBrace => exact (other isBrace (by decide)).elim
  | astray isUse => exact (other isUse (by decide)).elim
  | arrow begins =>
      refine ⟨rfl, rfl, .inl rfl, fun isYield => ?_⟩
      rw [arrowStop?_of_kind here (isYield ▸ TokenKind.noConfusion)] at begins
      cases begins
  | yields isYield own =>
      exact ⟨rfl, rfl, .inr Array.toList_push, fun _ _ => Array.toList_push⟩
  | opening isBrace => exact (other isBrace (by decide)).elim
  | closing isBrace => exact (other isBrace (by decide)).elim
  | openingParen isParen => exact (other isParen (by decide)).elim
  | closingParen isParen => exact (other isParen (by decide)).elim
  | ending isEnd => exact (other isEnd (by decide)).elim
  | idle idle =>
      refine ⟨rfl, rfl, .inl rfl, fun isYield own => ?_⟩
      rw [idle.yield isYield] at own
      cases own

end Reader

namespace Tree

/-- The tokens of the body of an arrow function of plain code stand in the constructs that it begins
in. -/
def ArrowsEnd (tree : Tree) (tokens : Tokens) (stretches : List Stretch) : Prop :=
  ∀ id arrow stop, tree.HoldsCode stretches id arrow → tokens.arrowStop? arrow = some stop →
    ∀ index, arrow < index → index < stop → ∀ above, Stretch.Around stretches above arrow →
      Stretch.Around stretches above index

/-- A token stands in the body of an arrow function that begins in the same construct. -/
def InArrowBody (tree : Tree) (tokens : Tokens) (stretches : List Stretch) (index : Nat) : Prop :=
  ∃ id arrow stop, tree.HoldsCode stretches id arrow ∧ tokens.arrowStop? arrow = some stop ∧
    arrow < index ∧ index < stop ∧
      ∀ above, Stretch.Around stretches above index → Stretch.Around stretches above arrow

/-- The word `yield` stands in the code of a function, and not in the body of an arrow function
there. -/
structure OwnYield (tree : Tree) (tokens : Tokens) (stretches : List Stretch)
    (function index : Nat) : Prop where
  word : tokens.kindAt index = some .kwYield
  code : ∃ id, tree.HoldsCode stretches id index
  around : tree.FunctionAround stretches function index
  apart : ¬ tree.InArrowBody tokens stretches index

end Tree

namespace Told

open Reader

variable {tokens : Tokens} {events : List Event} {tree : Tree} {stretches : List Stretch}
  {reader : Reader} {index : Nat}

section Whole

variable (told : Told tokens events tree stretches) (spelled : Spelled tokens)
  (tagged : Tagged tokens)
include told spelled tagged

theorem moves (reached : Reached tokens reader) (inside : reader.pos < tokens.size) :
    ∃ next, Moves tokens reader next := by
  obtain ⟨last, ends⟩ := ends_of_eventsOf spelled tagged told.read
  rcases Relation.ReflTransGen.cases_head (ends.later reached) with rfl | ⟨next, moves, -⟩
  · rw [ends.pos] at inside
    exact absurd inside (Nat.lt_irrefl _)
  · exact ⟨next, moves⟩

/-- A quiet word that a read comes to is plain code, under the nodes that are open there. -/
theorem holds_of_quiet (reached : Reached tokens reader) (quiet : tokens.IsQuiet reader.pos) :
    ∃ id, tree.HoldsCode stretches id reader.pos ∧ (tree.ancestors id).length = reader.depth ∧
      (tree.node id).function = (Outline.ofEvents reader.events.toList).innermost .function := by
  obtain ⟨kind, here, solid⟩ := quiet.leads
  obtain ⟨next, moves⟩ := told.moves spelled tagged reached (Tokens.lt_size_of_kindAt here)
  obtain ⟨token, goes⟩ := moves.goes spelled tagged reached
  have stays := goes.stride.of_quiet goes.here quiet
  have behind : next.pending ≤ reader.pos := stays.pending ▸ goes.pending_le
  obtain ⟨id, holds, ancestors, function⟩ := told.holds_of_pending spelled tagged
    (reached.tail moves) behind goes.onward here solid
  have same : (Outline.ofEvents next.events.toList).opened =
        (Outline.ofEvents reader.events.toList).opened ∧
      (Outline.ofEvents next.events.toList).innermost .function =
        (Outline.ofEvents reader.events.toList).innermost .function := by
    rcases stays.events with same | same
    · rw [same]
      exact ⟨rfl, rfl⟩
    · rw [same, Outline.ofEvents_snoc]
      exact Outline.opened_yields _
  exact ⟨id, holds reader.pos behind (Nat.le_refl _),
    by rw [ancestors, same.1, reached.depth_eq spelled tagged], function.trans same.2⟩

/-- The read comes to every quiet word in the plain code of a function. -/
theorem reached_of_function {id function : Nat} (holds : tree.HoldsCode stretches id index)
    (around : (tree.node id).function = some function) (quiet : tokens.IsQuiet index) :
    ∃ reader, Reached tokens reader ∧ reader.pos = index := by
  rcases told.reached_of_holds spelled tagged holds with
    found | ⟨reader, next, token, reached, moves, -, -, level, behind, before, pending, events⟩
  · exact found
  · obtain ⟨kind, here, solid⟩ := quiet.leads
    obtain ⟨frames, sound⟩ := reached.sound spelled tagged
    have behind : next.pending ≤ index := by
      rw [pending]
      exact Nat.le_trans sound.pending_le (Nat.le_of_lt behind)
    obtain ⟨other, another, -, function⟩ := told.holds_of_pending spelled tagged
      (reached.tail moves) behind before here solid
    obtain rfl := told.ranges.holdsCode_unique holds (another index behind (Nat.le_refl _))
    rw [events, reached.no_function spelled tagged level, around] at function
    cases function

variable (native : tree.Native) (placed : ∀ id < tree.size, tree.Placed id)
  (arrowsEnd : tree.ArrowsEnd tokens stretches)
include native placed arrowsEnd

/-- The last arrow function whose body goes on behind a word `yield` begins in the same construct if
and only if some arrow function does. -/
theorem inArrowBody_iff (reached : Reached tokens reader)
    (isYield : tokens.kindAt reader.pos = some .kwYield) {function : Nat}
    (around : tree.FunctionAround stretches function reader.pos) :
    reader.inArrowBody reader.pos = true ↔ tree.InArrowBody tokens stretches reader.pos := by
  have linked := native.linked
  obtain ⟨id, holds, depth, -⟩ := told.holds_of_quiet spelled tagged reached (.inl isYield)
  have nodup (id : Nat) := Tree.nodup_ancestors linked.ascending id
  -- An arrow function that is open at the word begins in constructs around the word.
  have within {other : Reader} {stop : Nat} (known : Reached tokens other)
      (begins : tokens.arrowStop? other.pos = some stop) (before : other.pos < reader.pos)
      (reaches : reader.pos < stop) : ∃ arrow, tree.HoldsCode stretches arrow other.pos ∧
        (tree.ancestors arrow).length = other.depth ∧
        tree.ancestors arrow ⊆ tree.ancestors id := by
    obtain ⟨arrow, held, level, -⟩ := told.holds_of_quiet spelled tagged known (.inr ⟨stop, begins⟩)
    refine ⟨arrow, held, level, fun above member => ?_⟩
    rw [← told.ranges.around_iff linked held] at member
    exact (told.ranges.around_iff linked holds).mp
      (arrowsEnd arrow other.pos stop held begins reader.pos before reaches above member)
  constructor
  · rw [reached.inArrowBody_iff spelled tagged]
    rintro ⟨other, stop, known, before, begins, reaches, same, -⟩
    obtain ⟨arrow, held, level, subset⟩ := within known begins before reaches
    refine ⟨arrow, other.pos, stop, held, begins, before, reaches, fun above => ?_⟩
    have all := (List.subperm_of_subset (nodup arrow) subset).perm_of_length_le
      (by rw [level, depth, same])
    rw [told.ranges.around_iff linked holds, told.ranges.around_iff linked held]
    exact all.mem_iff.mpr
  · rintro ⟨arrow, start, stop, held, begins, before, reaches, same⟩
    have aroundArrow : tree.FunctionAround stretches function start :=
      ⟨around.kind, same function around.around, fun other isOne outside =>
        around.innermost other isOne
          (arrowsEnd arrow start stop held begins reader.pos before reaches other outside)⟩
    obtain ⟨other, known, rfl⟩ := told.reached_of_function spelled tagged held
      ((told.ranges.functionAround_iff linked held
        (placed arrow (told.ranges.inside linked held))).mp aroundArrow) (.inr ⟨stop, begins⟩)
    have found := find_arrows spelled tagged reached reader.pos
    unfold inArrowBody
    cases search : reader.arrows.find? fun body => reader.pos < body.stop with
    | none =>
        rw [search] at found
        exact absurd reaches (Nat.not_lt_of_le (found other known before stop begins))
    | some body =>
        rw [search] at found
        obtain ⟨last, isLast, beforeLast, beginsLast, reachesLast, level, between⟩ := found
        obtain ⟨arrowLast, heldLast, levelLast, subset⟩ :=
          within isLast beginsLast beforeLast reachesLast
        have order : other.pos ≤ last.pos := by
          by_contra past
          exact absurd reaches (Nat.not_lt_of_le
            (between other known (Nat.lt_of_not_le past) before stop begins))
        -- What is around the word is around the first arrow function, so around all in between.
        have superset : tree.ancestors id ⊆ tree.ancestors arrowLast := by
          intro above member
          rw [← told.ranges.around_iff linked holds] at member
          exact (told.ranges.around_iff linked heldLast).mp (told.ranges.around_between linked
            (same above member) member order (Nat.le_of_lt beforeLast))
        have shorter := (List.subperm_of_subset (nodup arrowLast) subset).length_le
        have longer := (List.subperm_of_subset (nodup id) superset).length_le
        simp only [beq_iff_eq]
        omega

end Whole

/-- A function is flagged if and only if the read has stood at the word `yield` in it while no body
of an arrow function was open there. -/
theorem generator_iff_reached (told : Told tokens events tree stretches)
    (spelled : Spelled tokens) (tagged : Tagged tokens) (function : Nat) :
    (tree.node function).flags.generator = true ↔
      ∃ reader, Reached tokens reader ∧ tokens.kindAt reader.pos = some .kwYield ∧
        reader.inArrowBody reader.pos = false ∧
        (Outline.ofEvents reader.events.toList).innermost .function = some function := by
  have silent : ∀ event ∈ events, ∀ node, event.node? = some node →
      node.flags.generator = false := by
    refine forall_events spelled tagged told.read ?_ ?_ ?_ ?_ ?_
    · intro reader stop _ event member node isNode
      unfold plainEvents at member
      split at member
      · cases List.mem_singleton.mp member
        cases isNode
        rfl
      · cases member
    · intro reader token node first last reached header here
      exact ⟨fun node isNode => by cases isNode; exact header.silent,
        fun node isNode => by cases isNode; exact header.silent⟩
    · exact fun close last node isNode => by cases isNode
    · exact fun node isNode => by cases isNode
    · exact fun entries node isNode => by cases isNode
  rw [told.relined.property (fun node => node.flags.generator) (fun _ => rfl),
    Outline.generator_of_derives told.derives silent]
  constructor
  · rintro ⟨before, after, split, innermost⟩
    obtain ⟨reader, reached, rfl, isYield, own⟩ :=
      yields_of_split spelled tagged told.read split
    exact ⟨reader, reached, isYield, own, innermost⟩
  · rintro ⟨reader, reached, isYield, own, innermost⟩
    obtain ⟨next, moves⟩ := told.moves spelled tagged reached (Tokens.lt_size_of_kindAt isYield)
    obtain ⟨token, goes⟩ := moves.goes spelled tagged reached
    obtain ⟨last, ends⟩ := ends_of_eventsOf spelled tagged told.read
    obtain ⟨more, whole⟩ := ends.onward spelled tagged (reached.tail moves)
    obtain ⟨found, isFound, kind⟩ := Tokens.kindAt_eq_some.mp isYield
    rw [goes.here] at isFound
    cases isFound
    rw [(goes.stride.of_quiet goes.here (.inl isYield)).yields kind own, List.append_assoc] at whole
    exact ⟨reader.events.toList, more, whole.symm, innermost⟩

/-- A function is flagged if and only if the word `yield` stands in its own code. -/
theorem generator_iff (told : Told tokens events tree stretches) (spelled : Spelled tokens)
    (tagged : Tagged tokens) (native : tree.Native) (placed : ∀ id < tree.size, tree.Placed id)
    (arrowsEnd : tree.ArrowsEnd tokens stretches) (function : Nat) :
    (tree.node function).flags.generator = true ↔
      ∃ index, tree.OwnYield tokens stretches function index := by
  have named {id index : Nat} (holds : tree.HoldsCode stretches id index) :
      tree.FunctionAround stretches function index ↔ (tree.node id).function = some function :=
    told.ranges.functionAround_iff native.linked holds
      (placed id (told.ranges.inside native.linked holds))
  rw [told.generator_iff_reached spelled tagged]
  constructor
  · rintro ⟨reader, reached, isYield, own, innermost⟩
    obtain ⟨id, holds, -, same⟩ := told.holds_of_quiet spelled tagged reached (.inl isYield)
    have around := (named holds).mpr (same.trans innermost)
    refine ⟨reader.pos, isYield, ⟨id, holds⟩, around, fun inside => ?_⟩
    rw [← told.inArrowBody_iff spelled tagged native placed arrowsEnd reached isYield around,
      own] at inside
    cases inside
  · rintro ⟨index, isYield, ⟨id, holds⟩, around, apart⟩
    have isOne := (named holds).mp around
    obtain ⟨reader, reached, rfl⟩ :=
      told.reached_of_function spelled tagged holds isOne (.inl isYield)
    rw [← told.inArrowBody_iff spelled tagged native placed arrowsEnd reached isYield around]
      at apart
    obtain ⟨other, another, -, same⟩ := told.holds_of_quiet spelled tagged reached (.inl isYield)
    obtain rfl := told.ranges.holdsCode_unique holds another
    exact ⟨reader, reached, isYield, eq_false_of_ne_true apart, same.symm.trans isOne⟩

end Told

/-! ### Bodies that stay in their constructs -/

namespace Tokens

def FlatArrows (tokens : Tokens) : Prop :=
  ∀ arrow < tokens.size, ∀ stop ∈ tokens.arrowStop? arrow, ∀ index < stop, arrow < index →
    tokens[index]?.map Token.text ≠ some ['\x7d']

instance (tokens : Tokens) : Decidable tokens.FlatArrows :=
  inferInstanceAs (Decidable (∀ arrow < tokens.size, _))

end Tokens

namespace Tree

/-- The brackets of a file are nested: those between the braces of every construct, those between
the word and the arrow of every arrow function, and a namespace without braces goes on up to the end
of the file. -/
structure Bracketed (tree : Tree) (tokens : Tokens) (stretches : List Stretch) : Prop where
  closes : ∀ close ∈ stretches, ∀ id, close.part = .close id → (tree.node id).isEnclosed = true →
    tokens.isAt close.first .closeBrace = true
  nested : ∀ header ∈ stretches, ∀ close ∈ stretches, ∀ id, header.part = .body id →
    close.part = .close id → (tree.node id).isEnclosed = true →
      Param.Balanced (tokens.extract header.stop close.first).toList
  heads : ∀ arrow body, Reader.arrowBody? tokens arrow = some body →
    Param.Balanced (tokens.extract arrow body).toList
  scopes : ∀ close ∈ stretches, ∀ id, close.part = .close id → (tree.node id).kind = .scope →
    (tree.node id).isEnclosed = false → close.first = tokens.size

section Bodies

variable {listLines : Bool} {source : Text} {tree : Tree}
  (parsed : parse listLines source = .ok tree) {stretches : List Stretch}
  (ranges : tree.Ranges (TokenStream.ofText .html source).tokens stretches)
include parsed ranges

/-- The body of an arrow function stays in the constructs that it begins in when it ends in front of
their braces. -/
theorem arrowsEnd_of_closes
    (scopes : ∀ close ∈ stretches, ∀ id, close.part = .close id → (tree.node id).kind = .scope →
      (tree.node id).isEnclosed = false →
        close.first = (TokenStream.ofText .html source).tokens.size)
    (closes : ∀ arrow stop, (TokenStream.ofText .html source).tokens.arrowStop? arrow = some stop →
      ∀ header ∈ stretches, ∀ close ∈ stretches, ∀ id, header.part = .body id →
        close.part = .close id → (tree.node id).isEnclosed = true → header.stop ≤ arrow →
          arrow < close.first → stop ≤ close.first) :
    tree.ArrowsEnd (TokenStream.ofText .html source).tokens stretches := by
  have linked := (native_of_parse parsed).linked
  intro id arrow stop holds begins index behind before above around
  have below := (ranges.around_iff linked holds).mp around
  obtain ⟨header, isHeader, close, isClose, ofHeader, ofClose, since, until_⟩ := around
  refine ⟨header, isHeader, close, isClose, ofHeader, ofClose,
    Nat.le_trans since (Nat.le_of_lt behind), Nat.lt_of_lt_of_le before ?_⟩
  cases enclosed : (tree.node above).isEnclosed with
  | true =>
      exact closes arrow stop begins header isHeader close isClose above ofHeader ofClose enclosed
        since until_
  | false =>
      have inside : above < tree.size :=
        Nat.lt_trans (lt_of_mem_ancestors linked.ascending below) (ranges.inside linked holds)
      have holder : tree.children above ≠ [] := by
        rcases linked.over_cases (.inr below) with rfl | ⟨child, isChild, -⟩
        · exact absurd (lt_of_mem_ancestors linked.ascending below) (Nat.lt_irrefl _)
        · exact List.ne_nil_of_mem isChild
      have noLeaf := not_isLeaf_of_parse parsed inside holder
      have size := Tokens.arrowStop?_le_size begins
      by_cases isScope : (tree.node above).kind = .scope
      · rw [scopes close isClose above ofClose isScope enclosed]
        exact size
      · have isRoot : above = root := by
          refine (placed_of_parse parsed inside).file.mp ?_
          unfold Node.isEnclosed at enclosed
          unfold Node.isLeaf at noLeaf
          cases kind : (tree.node above).kind <;> simp_all
        subst isRoot
        have closed := close_of_parse parsed inside
        rw [enclosed] at closed
        rw [ranges.close_root linked (fun _ => text_ne_nil_of_mem_ofText) closed isClose ofClose]
        exact size

theorem arrowsEnd_of_flat
    (braced : ∀ id < tree.size, (tree.node id).kind = .scope → (tree.node id).isBraced = true)
    (flat : (TokenStream.ofText .html source).tokens.FlatArrows) :
    tree.ArrowsEnd (TokenStream.ofText .html source).tokens stretches := by
  have linked := (native_of_parse parsed).linked
  have known {close : Stretch} {id : Nat} (isClose : close ∈ stretches)
      (ofClose : close.part = .close id) : id < tree.size := by
    have among : Part.close id ∈ tree.parts := by
      rw [← ranges.parts, ← ofClose]
      exact List.mem_map_of_mem isClose
    exact mem_parts linked.ascending linked.filled among
  refine arrowsEnd_of_closes parsed ranges ?_ ?_
  · intro close isClose id ofClose isScope open_
    have isBraced := braced id (known isClose ofClose) isScope
    simp only [Node.isEnclosed, isScope, isBraced] at open_
    cases open_
  · intro arrow stop begins header _ close isClose id _ ofClose enclosed _ before
    have text := (ranges.made close isClose).text
    rw [ofClose, partText, close_of_parse parsed (known isClose ofClose), enclosed] at text
    refine Nat.le_of_not_lt fun past => ?_
    have size := Tokens.arrowStop?_le_size begins
    exact flat arrow (by omega) stop begins close.first past before
      (Tokens.first_of_textBetween (fun _ => text_ne_nil_of_mem_ofText) text.symm)

theorem Bracketed.arrowsEnd
    (bracketed : tree.Bracketed (TokenStream.ofText .html source).tokens stretches) :
    tree.ArrowsEnd (TokenStream.ofText .html source).tokens stretches := by
  refine arrowsEnd_of_closes parsed ranges bracketed.scopes ?_
  intro arrow stop begins header isHeader close isClose id ofHeader ofClose enclosed since before
  have isBrace : (TokenStream.ofText .html source).tokens.isAt close.first Bracket.curly.closing =
      true := bracketed.closes close isClose id ofClose enclosed
  exact Tokens.arrowStop?_le_of_balanced (bracketed.heads arrow) begins isBrace
    (bracketed.nested header isHeader close isClose id ofHeader ofClose enclosed) since before

end Bodies

/-- A function of a file is flagged if and only if the word `yield` stands in its own code, between
its braces and in no function inside, and in no body of an arrow function that begins in the same
construct. -/
theorem generator_of_parse {listLines : Bool} {source : Text} {tree : Tree}
    (parsed : parse listLines source = .ok tree) :
    ∃ stretches, tree.Ranges (TokenStream.ofText .html source).tokens stretches ∧
      (tree.ArrowsEnd (TokenStream.ofText .html source).tokens stretches → ∀ function,
        (tree.node function).flags.generator = true ↔
          ∃ index, tree.OwnYield (TokenStream.ofText .html source).tokens stretches function
            index) := by
  obtain ⟨events, stretches, told⟩ := told_of_parse parsed
  exact ⟨stretches, told.ranges, fun arrowsEnd function =>
    told.generator_iff (Scan.spelled_scan .html source) (Scan.tagged_scan .html source)
      (native_of_parse parsed) (fun _ => placed_of_parse parsed) arrowsEnd function⟩

/-- A function with a word `yield` for an arrow function and one of its own. -/
theorem generator_of_parse_arrow :
    ∃ tree, parse false "<?php function f(){fn()=>yield 1;yield 2;}".toList = .ok tree ∧
      ∃ stretches, tree.Ranges
        (TokenStream.ofText .html "<?php function f(){fn()=>yield 1;yield 2;}".toList).tokens
        stretches ∧
      tree.ArrowsEnd
        (TokenStream.ofText .html "<?php function f(){fn()=>yield 1;yield 2;}".toList).tokens
        stretches ∧
      ∀ function, (tree.node function).flags.generator = true ↔
        ∃ index, tree.OwnYield
          (TokenStream.ofText .html "<?php function f(){fn()=>yield 1;yield 2;}".toList).tokens
          stretches function index := by
  have closes : (parse false "<?php function f(){fn()=>yield 1;yield 2;}".toList).toOption.map
      (fun tree => decide (∀ id < tree.size, (tree.node id).kind = .scope →
        (tree.node id).isBraced = true)) = some true := by
    decide +kernel
  have flat : (TokenStream.ofText .html
      "<?php function f(){fn()=>yield 1;yield 2;}".toList).tokens.FlatArrows := by
    decide +kernel
  cases parsed : parse false "<?php function f(){fn()=>yield 1;yield 2;}".toList with
  | error fault =>
      rw [parsed] at closes
      cases closes
  | ok tree =>
      rw [parsed] at closes
      have braced := of_decide_eq_true (Option.some.inj closes)
      obtain ⟨stretches, ranges, all⟩ := generator_of_parse parsed
      have arrowsEnd := arrowsEnd_of_flat parsed ranges braced flat
      exact ⟨tree, rfl, stretches, ranges, arrowsEnd, all arrowsEnd⟩

/-- In a file whose brackets are nested, a function is flagged if and only if the word stands in its
own code. -/
theorem generator_of_bracketed {listLines : Bool} {source : Text} {tree : Tree}
    (parsed : parse listLines source = .ok tree) :
    ∃ stretches, tree.Ranges (TokenStream.ofText .html source).tokens stretches ∧
      (tree.Bracketed (TokenStream.ofText .html source).tokens stretches → ∀ function,
        (tree.node function).flags.generator = true ↔
          ∃ index, tree.OwnYield (TokenStream.ofText .html source).tokens stretches function
            index) := by
  obtain ⟨events, stretches, told⟩ := told_of_parse parsed
  exact ⟨stretches, told.ranges, fun bracketed function =>
    told.generator_iff (Scan.spelled_scan .html source) (Scan.tagged_scan .html source)
      (native_of_parse parsed) (fun _ => placed_of_parse parsed)
      (bracketed.arrowsEnd parsed told.ranges) function⟩

/-- The word counts as the name of a member, too. -/
theorem generator_of_member_name :
    ((parse false "<?php function f(){return A::yield;}".toList).toOption.map fun tree =>
      ((tree.node 2).kind, (tree.node 2).flags.hasBody, (tree.node 2).flags.generator)) =
        some (.function, true, true) ∧
      ∀ index, (TokenStream.ofText .html
          "<?php function f(){return A::yield;}".toList).tokens.kindAt index = some .kwYield →
        (TokenStream.ofText .html
          "<?php function f(){return A::yield;}".toList).tokens.isMemberName index = true := by
  refine ⟨by decide +kernel, fun index isYield => ?_⟩
  have inside := Tokens.lt_size_of_kindAt isYield
  have all : ∀ index < (TokenStream.ofText .html
        "<?php function f(){return A::yield;}".toList).tokens.size,
      (TokenStream.ofText .html
          "<?php function f(){return A::yield;}".toList).tokens.kindAt index = some .kwYield →
        (TokenStream.ofText .html
          "<?php function f(){return A::yield;}".toList).tokens.isMemberName index = true := by
    decide +kernel
  exact all index inside isYield

end Tree
end PhpWeave
