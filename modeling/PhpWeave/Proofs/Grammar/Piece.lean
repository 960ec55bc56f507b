import PhpWeave.Proofs.Grammar.AliasTable
import PhpWeave.Proofs.Grammar.Naming
import PhpWeave.Proofs.Grammar.Pairing

set_option autoImplicit false

/-!
What a piece of plain code may hold. Literals and tags are nodes of their own, a brace ends a piece,
and so does a semicolon where no parenthesis is open. Each construct counts the parentheses of its
own plain code, whatever constructs stand between them; so a semicolon that goes on stands behind an
opening parenthesis of the same construct that none of its parentheses closes in between. Only an import
statement that is given up is passed over with all that is in it, parentheses too.
-/

namespace PhpWeave

/-! ### Open parentheses -/

namespace Tokens

/-- Among the tokens where a predicate holds, those from one position up to another have their
parentheses properly nested. -/
inductive Nests (tokens : Tokens) (own : Nat → Prop) : Nat → Nat → Prop where
  | nothing {index : Nat} : Nests tokens own index index
  | plain {first stop : Nat} (noParen : own first → tokens.kindAt first ≠ some .openParen ∧
      tokens.kindAt first ≠ some .closeParen) (later : Nests tokens own (first + 1) stop) :
      Nests tokens own first stop
  | span {first middle stop : Nat} (isOwn : own first)
      (opens : tokens.kindAt first = some .openParen) (within : Nests tokens own (first + 1) middle)
      (isOwnToo : own middle) (closes : tokens.kindAt middle = some .closeParen)
      (later : Nests tokens own (middle + 1) stop) : Nests tokens own first stop

/-- Among the tokens where a predicate holds, one in front of a position opens a parenthesis, and no
other one in front of the position closes it. -/
structure Unclosed (tokens : Tokens) (own : Nat → Prop) (opening index : Nat) : Prop where
  before : opening < index
  isOwn : own opening
  opens : tokens.kindAt opening = some .openParen
  partner : ∀ closing < index, own closing → tokens.kindAt closing = some .closeParen →
    ¬ tokens.Nests own (opening + 1) closing

open Classical in
noncomputable def parensOpen (tokens : Tokens) (own : Nat → Prop) : Nat → Nat
  | 0 => 0
  | index + 1 =>
    match tokens.kindAt index with
    | none => parensOpen tokens own index
    | some kind =>
      if own index then parensAfter kind (parensOpen tokens own index)
      else parensOpen tokens own index

variable {tokens : Tokens} {own : Nat → Prop} {first stop index : Nat}

theorem parensOpen_own {kind : TokenKind} (here : tokens.kindAt index = some kind)
    (isOwn : own index) :
    tokens.parensOpen own (index + 1) = parensAfter kind (tokens.parensOpen own index) := by
  rw [parensOpen, here]
  exact if_pos isOwn

theorem parensOpen_plain (noParen : own index → tokens.kindAt index ≠ some .openParen ∧
      tokens.kindAt index ≠ some .closeParen) :
    tokens.parensOpen own (index + 1) = tokens.parensOpen own index := by
  rw [parensOpen]
  cases here : tokens.kindAt index with
  | none => rfl
  | some kind =>
      by_cases isOwn : own index
      · obtain ⟨noOpening, noClosing⟩ := noParen isOwn
        rw [here, ne_eq, Option.some.injEq] at noOpening noClosing
        simp only [if_pos isOwn]
        rw [parensAfter, if_neg noOpening, if_neg noClosing]
      · exact if_neg isOwn

theorem parensOpen_eq (order : first ≤ stop) (noParen : ∀ index, first ≤ index → index < stop →
      own index → tokens.kindAt index ≠ some .openParen ∧
        tokens.kindAt index ≠ some .closeParen) :
    tokens.parensOpen own stop = tokens.parensOpen own first := by
  induction stop, order using Nat.le_induction with
  | base => rfl
  | succ stop order ih =>
      rw [parensOpen_plain (noParen stop order (Nat.lt_succ_self stop))]
      exact ih fun index behind before => noParen index behind (Nat.lt_succ_of_lt before)

theorem Nests.le (nests : tokens.Nests own first stop) : first ≤ stop := by
  induction nests with
  | nothing => exact Nat.le_refl _
  | plain _ _ ih => exact Nat.le_of_succ_le ih
  | span _ _ _ _ _ _ within later => exact Nat.le_of_succ_le (within.trans (Nat.le_of_succ_le later))

theorem Nests.parensOpen_eq (nests : tokens.Nests own first stop) :
    tokens.parensOpen own stop = tokens.parensOpen own first := by
  induction nests with
  | nothing => rfl
  | plain noParen _ ih => rw [ih, parensOpen_plain noParen]
  | span isOwn opens _ isOwnToo closes _ within later =>
      rw [later, parensOpen_own closes isOwnToo, within, parensOpen_own opens isOwn]
      rfl

/-- Where a parenthesis is open, the one behind the last position where none was is not closed. -/
theorem exists_unclosed (open_ : tokens.parensOpen own index ≠ 0) :
    ∃ opening, tokens.Unclosed own opening index := by
  have opened : ∃ opening, opening < index ∧ tokens.parensOpen own opening = 0 ∧
      ∀ later, opening < later → later ≤ index → tokens.parensOpen own later ≠ 0 := by
    induction index with
    | zero => exact absurd rfl open_
    | succ index ih =>
        by_cases none : tokens.parensOpen own index = 0
        · refine ⟨index, Nat.lt_succ_self index, none, fun later behind upto => ?_⟩
          rw [Nat.le_antisymm upto behind]
          exact open_
        · obtain ⟨opening, before, isZero, all⟩ := ih none
          refine ⟨opening, Nat.lt_succ_of_lt before, isZero, fun later behind upto => ?_⟩
          rcases Nat.le_succ_iff.mp upto with near | rfl
          · exact all later behind near
          · exact open_
  obtain ⟨opening, before, none, all⟩ := opened
  have next := all (opening + 1) (Nat.lt_succ_self opening) before
  have isOpening : own opening ∧ tokens.kindAt opening = some .openParen := by
    by_contra other
    refine next ?_
    by_cases closes : own opening ∧ tokens.kindAt opening = some .closeParen
    · rw [parensOpen_own closes.2 closes.1, none]
      rfl
    · rw [parensOpen_plain fun isOwn => ⟨fun opens => other ⟨isOwn, opens⟩,
        fun isOne => closes ⟨isOwn, isOne⟩⟩, none]
  refine ⟨opening, before, isOpening.1, isOpening.2, fun closing early isOwn closes nests => ?_⟩
  refine all (closing + 1) (Nat.lt_succ_of_lt nests.le) early ?_
  rw [parensOpen_own closes isOwn, nests.parensOpen_eq, parensOpen_own isOpening.2 isOpening.1, none]
  rfl

/-- An import statement, from its word through its semicolon, that cannot be read and so is kept as
plain code. -/
def KeepsImport (tokens : Tokens) (word last : Nat) : Prop :=
  ∃ reader : Reader, reader.AtImport tokens last ∧ reader.pos = word ∧
    Import.read? (tokens.clauses word last) = none

end Tokens

namespace Tree

/-- A token of the plain code directly in a construct, or in the file, and not inside an import
statement that is kept as plain code. -/
structure Directly (tree : Tree) (tokens : Tokens) (stretches : List Stretch)
    (above index : Nat) : Prop where
  holds : ∃ id, tree.HoldsCode stretches id index ∧ tree.parent? id = some above
  apart : ∀ word last, tokens.KeepsImport word last → word < index → last ≤ index

/-- What a token may be in a piece of plain code that ends at a position. -/
structure Fitting (tree : Tree) (tokens : Tokens) (stretches : List Stretch)
    (above stop index : Nat) (kind : TokenKind) : Prop where
  noLiteral : kind.isLiteral = false
  noMarkup : kind.isMarkup = false
  brace : kind = .openBrace ∨ kind = .closeBrace → index + 1 = stop
  semicolon : kind = .semicolon → index + 1 = stop ∨
    ∃ opening, tokens.Unclosed (tree.Directly tokens stretches above) opening index

/-- A piece of plain code directly in a construct, or in the file. -/
structure Piece (tree : Tree) (tokens : Tokens) (stretches : List Stretch)
    (id first stop above : Nat) : Prop where
  among : ⟨.body id, first, stop⟩ ∈ stretches
  parent : tree.parent? id = some above
  fitting : (∀ word last, tokens.KeepsImport word last → ¬ (first ≤ word ∧ word < stop)) →
    ∀ index kind, first ≤ index → index < stop → tokens.kindAt index = some kind →
      tree.Fitting tokens stretches above stop index kind
  coverable : (tree.node id).flags.coverable = true ↔
    (tree.node above).kind.isClassLike = false ∧ ∃ index kind, first ≤ index ∧ index < stop ∧
      tokens.kindAt index = some kind ∧ kind.isTrivia = false ∧ kind ≠ .openBrace ∧
        kind ≠ .closeBrace

end Tree

/-! ### Tokens that stay pending -/

namespace Reader

variable {tokens : Tokens} {reader next : Reader} {token : Token}

structure Pends (tokens : Tokens) (reader : Reader) (token : Token) (next : Reader) : Prop where
  code : token.kind.isMarkup = false
  noLiteral : token.kind.isLiteral = false
  semicolon : token.kind = .semicolon → reader.top.parens ≠ 0
  opened : (Outline.ofEvents next.events.toList).opened =
    (Outline.ofEvents reader.events.toList).opened
  onward : next.pos = reader.pos + 1 ∨ token.kind = .kwUse ∧ reader.atFileLevel = true ∧
    reader.atStatementStart tokens reader.pos = true ∧
    tokens.firstFrom Tokens.endsImport (reader.pos + 1) = some next.pos ∧
    tokens.kindAt next.pos = some .semicolon ∧
    Import.read? (tokens.clauses reader.pos next.pos) = none

theorem Goes.pends (goes : Goes tokens reader token next) (same : next.pending = reader.pending) :
    Pends tokens reader token next := by
  have order := goes.pending_le
  have beyond {last : Nat} (pending : next.pending = last + 1) (behind : reader.pos ≤ last) :
      False := by omega
  have word {kind : TokenKind} (isOne : token.kind = kind) (code : kind.isMarkup = false)
      (noLiteral : kind.isLiteral = false) (noEnd : kind ≠ .semicolon)
      (opened : (Outline.ofEvents next.events.toList).opened =
        (Outline.ofEvents reader.events.toList).opened) (pos : next.pos = reader.pos + 1) :
      Pends tokens reader token next := by
    subst isOne
    exact ⟨code, noLiteral, fun isEnd => absurd isEnd noEnd, opened, .inl pos⟩
  cases goes.stride with
  | leaf header => exact (beyond rfl header.pos_le).elim
  | imports header => exact (beyond rfl header.pos_le).elim
  | enter header => exact (beyond rfl header.pos_le).elim
  | scope level header => exact (beyond rfl header.pos_le).elim
  | leave => exact (beyond rfl (Nat.le_refl _)).elim
  | astray isOne level start search ends unread =>
      exact ⟨by rw [isOne]; rfl, by rw [isOne]; rfl, fun isEnd => (by rw [isOne] at isEnd; cases isEnd),
        rfl, .inr ⟨isOne, level, start, search, ends, unread⟩⟩
  | arrow begins =>
      obtain ⟨found, here, isOne⟩ := Tokens.kindAt_eq_some.mp (kind_of_arrowStop? begins)
      rw [goes.here] at here
      cases here
      exact word isOne rfl rfl TokenKind.noConfusion rfl rfl
  | yields isOne own =>
      refine word isOne rfl rfl TokenKind.noConfusion ?_ rfl
      change (Outline.ofEvents (reader.report .yields).events.toList).opened = _
      rw [events_report, Outline.ofEvents_snoc]
      exact (Outline.opened_yields _).1
  | opening => exact (beyond (flush_pending _) (Nat.le_refl _)).elim
  | closing => exact (beyond (flush_pending _) (Nat.le_refl _)).elim
  | openingParen isOne => exact word isOne rfl rfl TokenKind.noConfusion rfl rfl
  | closingParen isOne => exact word isOne rfl rfl TokenKind.noConfusion rfl rfl
  | ending => exact (beyond (flush_pending _) (Nat.le_refl _)).elim
  | idle idle => exact ⟨idle.code, idle.noLiteral, idle.semicolon, rfl, .inl rfl⟩

theorem Pends.keeps (pends : Pends tokens reader token next) (reached : Reached tokens reader)
    (here : tokens[reader.pos]? = some token) (far : reader.pos + 1 < next.pos) :
    tokens.KeepsImport reader.pos next.pos := by
  rcases pends.onward with near | ⟨isUse, level, start, search, ends, unread⟩
  · exact absurd near (Nat.ne_of_gt far)
  · exact ⟨reader, ⟨reached, Tokens.kindAt_eq_some.mpr ⟨token, here, isUse⟩, level, start, search,
      ends⟩, rfl, unread⟩

theorem Moves.of_paren (moves : Moves tokens reader next) (here : tokens[reader.pos]? = some token)
    (isParen : token.kind = .openParen ∨ token.kind = .closeParen) :
    ∃ change : Frame → Frame, next = (reader.updateTop change).skip ∧
      (change reader.top).parens = parensAfter token.kind reader.top.parens := by
  obtain ⟨other, found, done⟩ := moves
  cases here.symm.trans found
  rcases isParen with isOne | isOne
  · rw [step, isOne] at done
    have opens : Except.ok reader.openingParen = Except.ok next := done
    cases opens
    exact ⟨_, rfl, by rw [isOne]; rfl⟩
  · rw [step, isOne] at done
    have closes : Except.ok reader.closingParen = Except.ok next := done
    cases closes
    exact ⟨_, rfl, by rw [isOne]; rfl⟩

end Reader

theorem Tokens.KeepsImport.le {tokens : Tokens} (spelled : Spelled tokens) (tagged : Tagged tokens)
    {word last : Nat} (keeps : tokens.KeepsImport word last) {reader : Reader}
    (reached : Reader.Reached tokens reader) (behind : word < reader.pos) : last ≤ reader.pos := by
  obtain ⟨other, stands, rfl, unread⟩ := keeps
  have passes := stands.moves unread
  rcases reached.total spelled tagged stands.reached with rfl | ⟨next, moves, near⟩ |
    ⟨next, moves, near⟩
  · exact absurd behind (Nat.lt_irrefl _)
  · have onward := (moves.advances spelled tagged reached).1
    omega
  · cases Reader.moves_unique passes moves
    exact near

theorem TokenKind.inert_of_leads {kind : TokenKind} (leads : kind.leads = true) :
    kind.isLiteral = false ∧ kind.isMarkup = false ∧ kind ≠ .openBrace ∧ kind ≠ .closeBrace ∧
      kind ≠ .semicolon := by
  cases kind <;> first | decide | cases leads

namespace Told

open Reader

variable {tokens : Tokens} {events : List Event} {tree : Tree} {stretches : List Stretch}
  {reader next : Reader} {token : Token} {index : Nat}

section Whole

variable (told : Told tokens events tree stretches)
include told

theorem not_directly (linked : tree.Linked) {before after : List Event} {node : Node}
    {first last : Nat} (split : events = before ++ .enter node first last :: after)
    (early : index ≤ last) :
    ¬ tree.Directly tokens stretches (Outline.ofEvents before).tree.size index := by
  rintro ⟨⟨id, holds, link⟩, -⟩
  have housed := told.housed before node first last after (.inr split)
  have below : (Outline.ofEvents before).tree.size ∈ tree.ancestors id := by
    rw [Tree.ancestors_of_child linked.ascending link]
    exact List.mem_cons_self
  obtain ⟨header, isHeader, -, -, ofHeader, -, behind, -⟩ :=
    (told.ranges.around_iff linked holds).mpr below
  cases told.ranges.same_stretch linked isHeader housed.among ofHeader
  exact absurd early (Nat.not_le_of_lt behind)

variable (spelled : Spelled tokens) (tagged : Tagged tokens)
include spelled tagged

/-- The read stands at each token directly in a construct. -/
theorem reached_of_directly {above : Nat} (directly : tree.Directly tokens stretches above index) :
    ∃ reader, Reached tokens reader ∧ reader.pos = index := by
  obtain ⟨⟨id, holds, -⟩, apart⟩ := directly
  rcases told.reached_of_holds spelled tagged holds with
    found | ⟨reader, next, token, reached, moves, -, here, -, behind, before, pending, -⟩
  · exact found
  · obtain ⟨token, goes⟩ := moves.goes spelled tagged reached
    have keeps := (goes.pends pending).keeps reached goes.here (by omega)
    exact absurd before (Nat.not_lt_of_le (apart _ _ keeps behind))

theorem parensOpen_move (reached : Reached tokens reader) (moves : Moves tokens reader next)
    (goes : Goes tokens reader token next)
    (noParen : ¬ (token.kind = .openParen ∨ token.kind = .closeParen)) (above : Nat) :
    tokens.parensOpen (tree.Directly tokens stretches above) next.pos =
      tokens.parensOpen (tree.Directly tokens stretches above) reader.pos := by
  refine Tokens.parensOpen_eq (Nat.le_of_lt goes.onward) fun index since before directly => ?_
  obtain ⟨other, otherReached, rfl⟩ := told.reached_of_directly spelled tagged directly
  obtain rfl := reached.eq_of_within spelled tagged moves otherReached since before
  rw [Tokens.kindAt, goes.here, Option.map_some, ne_eq, ne_eq, Option.some.injEq,
    Option.some.injEq]
  exact not_or.mp noParen

/-- A node of plain code was reported where its first token was the first pending one. -/
theorem exists_plain {id : Nat} (inside : id < tree.size) (below : Tree.root < id)
    (editable : (tree.node id).isEditable = true) :
    ∃ reader stop, Reached tokens reader ∧ reader.pending < stop ∧
      reader.events.toList <+: events ∧
      Housed tree stretches reader.events.toList (plainNode tokens reader stop) reader.pending
        (stop - 1) id := by
  have plain : Splits (fun before event => ∀ node first last,
      (event = .leaf node first last ∨ event = .enter node first last) → node.isEditable = true →
        ∃ reader stop, Reached tokens reader ∧ reader.pending < stop ∧
          reader.events.toList = before ∧ node = plainNode tokens reader stop ∧
          first = reader.pending ∧ last = stop - 1) events := by
    refine forall_reports spelled tagged told.read ?_ ?_ ?_ ?_ ?_
    · intro reader stop reached event member node first last reports _
      unfold plainEvents at member
      split at member
      · next filled =>
          cases List.mem_singleton.mp member
          rcases reports with same | same <;> cases same
          exact ⟨reader, stop, reached, filled, rfl, rfl, rfl, rfl⟩
      · cases member
    · intro before reader token node first last reached header here
      constructor
      · rintro other from_ upto (same | same) editable <;> cases same
        rw [header.fixed] at editable
        cases editable
      · rintro other from_ upto (same | same) editable <;> cases same
        rw [header.fixed] at editable
        cases editable
    · rintro before close last node first upto (same | same) <;> cases same
    · rintro reader - - - node first last (same | same) <;> cases same
    · rintro before entries node first last (same | same) <;> cases same
  obtain ⟨before, event, after, node, first, last, split, reports, housed⟩ :=
    told.exists_split inside below
  rw [housed.property Node.isEditable fun _ => rfl] at editable
  obtain ⟨reader, stop, reached, filled, rfl, rfl, rfl, rfl⟩ :=
    plain before event after split node first last reports editable
  exact ⟨reader, stop, reached, filled, ⟨_, split.symm⟩, housed⟩

theorem coverable_iff (reached : Reached tokens reader) (goesOn : reader.events.toList <+: events)
    {stop : Nat} : isCoverable tokens reader reader.pending stop = true ↔
      (tree.node (Outline.ofEvents reader.events.toList).current).kind.isClassLike = false ∧
        ∃ index kind, reader.pending ≤ index ∧ index < stop ∧ tokens.kindAt index = some kind ∧
          kind.isTrivia = false ∧ kind ≠ .openBrace ∧ kind ≠ .closeBrace := by
  obtain ⟨frames, sound⟩ := reached.sound spelled tagged
  obtain ⟨more, whole⟩ := goesOn
  obtain ⟨laid, -⟩ := Outline.laid_of_derives sound.derives
  have kept := (Outline.keeps_of_derives (whole ▸ told.derives)).trans (whole ▸ told.relined.keeps)
  have inClass := ((Outline.built_of_derives sound.derives).inClass_iff laid).trans
    (sound.inClass_iff reader.pending)
  rw [isCoverable, Bool.and_eq_true,
    kept.property (fun node => node.kind.isClassLike) (fun _ => rfl) laid.current_lt]
  refine and_congr ?_ ?_
  · rw [decide_eq_true_eq, ← Bool.not_eq_true, inClass]
  · refine (Tokens.any_extract_iff (p := fun kind =>
      !kind.isTrivia && kind ≠ .openBrace && kind ≠ .closeBrace)).trans ?_
    simp only [Bool.and_eq_true, Bool.not_eq_true', decide_eq_true_eq, and_assoc]

variable (linked : tree.Linked)
include linked

/-- A pending token that the read stands at is directly in the innermost open construct, and in no
other one. -/
theorem directly_iff (reached : Reached tokens reader) (moves : Moves tokens reader next)
    (goes : Goes tokens reader token next) (pending : next.pending = reader.pending)
    (solid : token.kind.leads = false) {entry : OpenNode} {rest : List OpenNode}
    (levels : (Outline.ofEvents reader.events.toList).levels = entry :: rest) :
    tree.Directly tokens stretches entry.id reader.pos ∧
      ∀ other ∈ rest, ¬ tree.Directly tokens stretches other.id reader.pos := by
  have pends := goes.pends pending
  have behind : next.pending ≤ reader.pos := pending ▸ goes.pending_le
  obtain ⟨id, holds, ancestors, -⟩ := told.holds_of_pending spelled tagged (reached.tail moves)
    behind goes.onward (Tokens.kindAt_eq_some.mpr ⟨token, goes.here, rfl⟩) solid
  rw [pends.opened, ← Outline.ids_levels, levels, List.map_cons] at ancestors
  have here := holds reader.pos behind (Nat.le_refl _)
  have nodup := Tree.nodup_ancestors linked.ascending id
  rw [ancestors, List.nodup_cons] at nodup
  have link := Tree.parent?_of_ancestors linked.ascending ancestors
  refine ⟨⟨⟨id, here, link⟩, fun word last keeps early => keeps.le spelled tagged reached early⟩, ?_⟩
  rintro other member ⟨⟨another, holdsToo, linkToo⟩, -⟩
  obtain rfl := told.ranges.holdsCode_unique here holdsToo
  have same : entry.id = other.id := Option.some.inj (link.symm.trans linkToo)
  exact nodup.1 (same ▸ List.mem_map_of_mem member)

/-- Each frame counts the parentheses that are open directly in its construct. -/
theorem counted (reached : Reached tokens reader) :
    Paired (fun frame entry => frame.parens =
      tokens.parensOpen (tree.Directly tokens stretches entry.id) reader.pos) reader := by
  induction reached with
  | refl => exact .cons rfl .nil
  | @tail reader next reached moves ih =>
      obtain ⟨token, goes⟩ := moves.goes spelled tagged reached
      have reachedNext := reached.tail moves
      obtain ⟨last, ends⟩ := ends_of_eventsOf spelled tagged told.read
      obtain ⟨more, whole⟩ := ends.onward spelled tagged reachedNext
      by_cases isParen : token.kind = .openParen ∨ token.kind = .closeParen
      · obtain ⟨change, rfl, counts⟩ := moves.of_paren goes.here isParen
        have solid : token.kind.leads = false := by
          rcases isParen with isOne | isOne <;> rw [isOne] <;> rfl
        obtain ⟨entry, rest, top, outer, levels⟩ := List.forall₂_cons_left_iff.mp ih
        obtain ⟨isOwn, others⟩ := told.directly_iff spelled tagged linked reached moves goes rfl solid
          levels
        have kind := Tokens.kindAt_eq_some.mpr ⟨token, goes.here, rfl⟩
        unfold Paired
        change List.Forall₂ _ (change reader.top :: reader.outer)
          (Outline.ofEvents reader.events.toList).levels
        rw [levels]
        refine .cons ?_ ?_
        · change _ = tokens.parensOpen _ (reader.pos + 1)
          rw [counts, top, Tokens.parensOpen_own kind isOwn]
        · rw [List.forall₂_iff_zip] at outer ⊢
          refine ⟨outer.1, fun pair => ?_⟩
          have apart := others _ (List.of_mem_zip pair).2
          change _ = tokens.parensOpen _ (reader.pos + 1)
          rw [outer.2 pair, Tokens.parensOpen_plain fun isOwnToo => absurd isOwnToo apart]
      · have same : ∀ above,
            tokens.parensOpen (tree.Directly tokens stretches above) next.pos =
              tokens.parensOpen (tree.Directly tokens stretches above) reader.pos :=
          told.parensOpen_move spelled tagged reached moves goes isParen
        have kept : Paired (fun frame entry => frame.parens =
            tokens.parensOpen (tree.Directly tokens stretches entry.id) next.pos) reader :=
          ih.imp fun frame entry counts => counts.trans (same entry.id).symm
        refine kept.stride goes.stride (fun _ _ _ counts => counts)
          (fun paren => absurd paren isParen) fun kind before node first last events' pos => ?_
        rw [events', List.append_assoc] at whole
        refine (Tokens.parensOpen_eq (Nat.zero_le _) fun index _ before directly => ?_).symm
        exact absurd directly (told.not_directly linked whole.symm (by omega))

/-- What the tokens of a piece are when no import statement is kept in it. -/
theorem fitting {id first stop above : Nat} (among : ⟨.body id, first, stop⟩ ∈ stretches)
    (editable : (tree.node id).isEditable = true) (link : tree.parent? id = some above)
    (apart : ∀ word last, tokens.KeepsImport word last → ¬ (first ≤ word ∧ word < stop))
    {kind : TokenKind} (behind : first ≤ index) (before : index < stop)
    (here : tokens.kindAt index = some kind) :
    tree.Fitting tokens stretches above stop index kind := by
  by_cases leads : kind.leads = true
  · obtain ⟨noLiteral, noMarkup, noOpening, noClosing, noEnd⟩ := TokenKind.inert_of_leads leads
    exact ⟨noLiteral, noMarkup, fun isBrace => (isBrace.elim noOpening noClosing).elim,
      fun isEnd => absurd isEnd noEnd⟩
  have solid := eq_false_of_ne_true leads
  have holds : tree.HoldsCode stretches id index := ⟨editable, first, stop, among, behind, before⟩
  obtain ⟨found, isFound, isOne⟩ := Tokens.kindAt_eq_some.mp here
  obtain ⟨reader, token, next, reached, moves, goes, passed⟩ :=
    told.passed_of_holds spelled tagged holds
  rcases passed with ⟨rfl, -, noOpening, noClosing, pending⟩ | ⟨rfl, -, ends, added⟩ |
    ⟨isUse, -, since, until_, pending, -⟩
  · cases goes.here.symm.trans isFound
    subst isOne
    have pends := goes.pends pending
    refine ⟨pends.noLiteral, pends.code, fun isBrace => (isBrace.elim noOpening noClosing).elim,
      fun isEnd => .inr ?_⟩
    obtain ⟨entry, rest, top, -, levels⟩ :=
      List.forall₂_cons_left_iff.mp (told.counted spelled tagged linked reached)
    obtain ⟨isOwn, -⟩ :=
      told.directly_iff spelled tagged linked reached moves goes pending solid levels
    obtain ⟨other, holdsToo, linkToo⟩ := isOwn.holds
    obtain rfl := told.ranges.holdsCode_unique holds holdsToo
    obtain rfl : entry.id = above := Option.some.inj (linkToo.symm.trans link)
    exact Tokens.exists_unclosed (top ▸ pends.semicolon isEnd)
  · cases goes.here.symm.trans isFound
    subst isOne
    obtain ⟨_, isLast⟩ := told.last_of_settled spelled tagged holds reached moves goes added
    cases told.ranges.same_stretch linked among isLast rfl
    refine ⟨?_, ?_, fun _ => rfl, fun _ => .inl rfl⟩
    · rcases ends with same | same | same <;> rw [same] <;> rfl
    · rcases ends with same | same | same <;> rw [same] <;> rfl
  · rcases Nat.eq_or_lt_of_le since with rfl | past
    · cases goes.here.symm.trans isFound
      subst isOne
      rw [isUse]
      exact ⟨rfl, rfl, fun isBrace => isBrace.elim TokenKind.noConfusion TokenKind.noConfusion,
        TokenKind.noConfusion⟩
    · exfalso
      have keeps := (goes.pends pending).keeps reached goes.here (by omega)
      obtain ⟨⟨-, _, _, isOther, since, until_⟩, -⟩ := told.use_of_astray spelled tagged holds here
        solid reached moves goes isUse since until_ pending
      cases told.ranges.same_stretch linked among isOther rfl
      exact apart _ _ keeps ⟨since, until_⟩

theorem exists_piece {id : Nat} (inside : id < tree.size) (below : Tree.root < id)
    (editable : (tree.node id).isEditable = true) :
    ∃ first stop above, tree.Piece tokens stretches id first stop above := by
  obtain ⟨reader, stop, reached, filled, goesOn, housed⟩ :=
    told.exists_plain spelled tagged inside below editable
  obtain ⟨rest, opened⟩ := (Outline.ofEvents reader.events.toList).opened_eq
  have link := Tree.parent?_of_ancestors linked.ascending (housed.ancestors.trans opened)
  have among : ⟨.body id, reader.pending, stop⟩ ∈ stretches := by
    have among := housed.among
    rw [Nat.sub_add_cancel (Nat.one_le_of_lt filled)] at among
    exact among
  refine ⟨reader.pending, stop, _, among, link, fun apart index kind behind before here =>
    told.fitting spelled tagged linked among editable link apart behind before here, ?_⟩
  rw [housed.property (fun node => node.flags.coverable) fun _ => rfl]
  exact told.coverable_iff spelled tagged reached goesOn

end Whole

end Told

namespace Tree

/-- Every node of plain code, neither a tag nor text outside PHP, is a piece directly in its parent.
It counts for coverage if and only if the parent is not a class and one of its tokens is neither
trivia nor a brace. When no import statement is kept in it, none of its tokens is a literal or a tag,
braces and the semicolons outside parentheses are its last token, and any other semicolon stands
behind an opening parenthesis directly in the same construct that none of its closes. -/
theorem pieces_of_parse {listLines : Bool} {source : Text} {tree : Tree}
    (parsed : parse listLines source = .ok tree) :
    ∃ stretches, tree.Ranges (TokenStream.ofText .html source).tokens stretches ∧
      ∀ id < tree.size, (tree.node id).kind = .code → (tree.node id).flags.inPhp = true →
        (tree.node id).isTag = false → ∃ first stop above,
          tree.Piece (TokenStream.ofText .html source).tokens stretches id first stop above := by
  obtain ⟨events, stretches, told⟩ := told_of_parse parsed
  refine ⟨stretches, told.ranges, fun id inside isCode inPhp noTag => ?_⟩
  have editable : (tree.node id).isEditable = true := by
    rcases code_of_parse parsed inside isCode with editable | outside | isTag
    · exact editable
    · rw [outside] at inPhp
      cases inPhp
    · rw [isTag] at noTag
      cases noTag
  exact told.exists_piece (Scan.spelled_scan .html source) (Scan.tagged_scan .html source)
    (native_of_parse parsed).linked inside (below_of_editable parsed inside editable) editable

/-- The header of a loop, its body and its end. -/
theorem pieces_of_parse_loop :
    let source := "<?php for ($i = 0; $i < 3; $i++) \x7b f('a'); \x7d".toList
    ∃ tree stretches, parse false source = .ok tree ∧
      tree.Ranges (TokenStream.ofText .html source).tokens stretches ∧ ∃ first stop above,
        tree.Piece (TokenStream.ofText .html source).tokens stretches 2 first stop above := by
  intro source
  have shows : ((parse false source).toOption.map fun tree =>
      (tree.size, (tree.node 2).kind, (tree.node 2).flags.inPhp, (tree.node 2).isTag)) =
        some (7, .code, true, false) := by
    decide +kernel
  cases parsed : parse false source with
  | error fault =>
      rw [parsed] at shows
      cases shows
  | ok tree =>
      rw [parsed] at shows
      obtain ⟨size, isCode, inPhp, noTag⟩ : tree.size = 7 ∧ (tree.node 2).kind = .code ∧
          (tree.node 2).flags.inPhp = true ∧ (tree.node 2).isTag = false := by
        simpa only [Except.toOption, Option.map_some, Option.some.injEq, Prod.mk.injEq] using shows
      obtain ⟨stretches, ranges, all⟩ := pieces_of_parse parsed
      exact ⟨tree, stretches, rfl, ranges, all 2 (by omega) isCode inPhp noTag⟩

/-- A parenthesis that an import statement closes which is given up still counts as open: the last
piece goes on behind two semicolons, though the only parenthesis of the file is closed in its own
plain code. -/
theorem closed_in_kept_import :
    let source := "<?php f('a' use ); 'b'; c; d".toList
    ((parse false source).toOption.map fun tree => (tree.nodes.toList.drop 1).map fun node =>
      (node.parent, node.isEditable, node.body)) =
        some [(some 0, false, "<?php ".toList), (some 0, true, "f(".toList),
          (some 0, false, "'a'".toList), (some 0, true, " use ); ".toList),
          (some 0, false, "'b'".toList), (some 0, true, "; c; d".toList)] ∧
      (TokenStream.ofText .html source).tokens.kindAt 2 = some .openParen ∧
      (TokenStream.ofText .html source).tokens.Nests (fun _ => True) 3 7 ∧
      (TokenStream.ofText .html source).tokens.kindAt 7 = some .closeParen := by
  refine ⟨by decide +kernel, by decide +kernel, ?_, by decide +kernel⟩
  refine .plain (fun _ => by decide +kernel) (.plain (fun _ => by decide +kernel)
    (.plain (fun _ => by decide +kernel) (.plain (fun _ => by decide +kernel) .nothing)))

end Tree
end PhpWeave
