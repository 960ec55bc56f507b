import PhpWeave.Proofs.Grammar.Member

set_option autoImplicit false

/-!
What stands directly in front of a word. White space, words and member operators do not end a piece
of plain code, so a word and the token in front of it are in one piece when that token is one of
these. The name of a function is in its header, and in no plain code.
-/

namespace PhpWeave

/-- Whether code may be cut behind a token. -/
def TokenKind.cutsBehind (kind : TokenKind) : Bool := kind.seals || kind = .closeBrace

namespace Tokens

variable {tokens : Tokens} {before word index : Nat}

/-- A token stands directly in front of another: nothing but white space is between them. -/
structure Adjoins (tokens : Tokens) (before index : Nat) : Prop where
  order : before < index
  blank : ∀ between, before < between → between < index →
    tokens.kindAt between = some .whitespace

theorem Adjoins.nextSignificant (adjoins : tokens.Adjoins before index) {token : Token}
    (here : tokens[index]? = some token) (solid : token.kind.isTrivia = false) :
    tokens.nextSignificant (before + 1) = some index := by
  obtain ⟨gap, rfl⟩ := Nat.exists_eq_add_of_le (Nat.succ_le_of_lt adjoins.order)
  refine firstFrom_of_before here ?_ ?_
  · rw [isSignificant, solid]
    rfl
  · intro other early token there
    have blank := adjoins.blank (before + 1 + other) (by omega) (by omega)
    rw [kindAt, there] at blank
    rw [isSignificant, Option.some.inj blank]
    rfl

/-- A word names a function: it stands directly behind the word `function`, which is no member name,
and in front of parentheses. -/
structure NamesFunction (tokens : Tokens) (word index : Nat) : Prop where
  adjoins : tokens.Adjoins word index
  isFunction : tokens.kindAt word = some .kwFunction
  noMember : tokens.isMemberName word = false
  isName : ∃ kind, tokens.kindAt index = some kind ∧ kind.isIdentifierLike = true
  parens : (tokens.nextSignificant (index + 1)).bind tokens.kindAt = some .openParen

theorem NamesFunction.opening (names : tokens.NamesFunction word index) :
    ∃ opening, (Reader.functionName tokens word).2 = some opening ∧
      tokens.isAt opening .openParen = true ∧ index < opening := by
  obtain ⟨kind, isAt, isName⟩ := names.isName
  obtain ⟨token, here, rfl⟩ := kindAt_eq_some.mp isAt
  obtain ⟨opening, behind, isOpen⟩ := Option.bind_eq_some_iff.mp names.parens
  have solid : token.kind.isTrivia = false ∧ token.kind ≠ .ampersand := by
    cases kind : token.kind <;> rw [kind] at isName <;>
      first | exact ⟨rfl, TokenKind.noConfusion⟩ | cases isName
  have past : Reader.pastAmpersand tokens (word + 1) = some index := by
    rw [Reader.pastAmpersand, names.adjoins.nextSignificant here solid.1, Option.bind_some, if_neg]
    rw [Tokens.isAt, isAt, beq_iff_eq, Option.some.injEq]
    exact solid.2
  refine ⟨opening, ?_, beq_iff_eq.mpr isOpen, nextSignificant_ge behind⟩
  simp only [Reader.functionName, past, here, isName, if_true, behind]

end Tokens

namespace Reader

variable {tokens : Tokens} {reader next : Reader}

theorem functionWord_past {opening : Nat} (noMember : tokens.isMemberName reader.pos = false)
    (named : (functionName tokens reader.pos).2 = some opening)
    (isOpen : tokens.isAt opening .openParen = true)
    (done : reader.functionWord tokens = .ok next) : opening < next.pos := by
  unfold functionWord at done
  simp only [noMember, named, isOpen, if_true] at done
  rw [if_neg Bool.false_ne_true] at done
  split at done
  · cases done
  · next close closing =>
      have closeBehind := Tokens.closing_ge closing
      split at done
      · cases done
      · next last search =>
          have lastBehind := (Tokens.firstOutside_some search).1
          have pos : next.pos = last + 1 := by
            split at done <;> cases done <;> rfl
          omega

end Reader

namespace Told

variable {tokens : Tokens} {events : List Event} {tree : Tree} {stretches : List Stretch}
  (told : Told tokens events tree stretches) (spelled : Spelled tokens) (tagged : Tagged tokens)
  (linked : tree.Linked) {id before word index : Nat}
include told spelled tagged linked

/-- Tokens behind which no code is cut are in one piece with the token of plain code behind them. -/
theorem piece_of_goesOn (holds : tree.HoldsCode stretches id index) (below : Tree.root < id)
    (goesOn : ∀ between, before ≤ between → between < index →
      ∀ kind, tokens.kindAt between = some kind → kind.cutsBehind = false) :
    ∃ first stop, ⟨.body id, first, stop⟩ ∈ stretches ∧ first ≤ before ∧ index < stop := by
  obtain ⟨editable, first, stop, among, behind, early⟩ := holds
  have inside : id < tree.size := (told.ranges.over_root linked among).1
  obtain ⟨_, event, node, from_, last, member, reports, housed⟩ := told.exists_housed inside below
  cases told.ranges.same_stretch linked among housed.among rfl
  rw [housed.property Node.isEditable fun _ => rfl] at editable
  refine ⟨first, _, among, ?_, early⟩
  by_contra apart
  rcases Reader.cut_of_eventsOf spelled tagged told.read event member node first last reports
    editable with isZero | ⟨found, isAt, ends⟩
  · exact apart (isZero ▸ Nat.zero_le before)
  · have cuts : found.cutsBehind = true := by
      rw [TokenKind.cutsBehind, Bool.or_eq_true, decide_eq_true_eq]
      exact ends
    rw [goesOn (first - 1) (by omega) (by omega) found isAt] at cuts
    cases cuts

/-- A token of plain code and the one directly in front of it are in one piece when no code is cut
behind that one. -/
theorem piece_of_adjoins (holds : tree.HoldsCode stretches id index) (below : Tree.root < id)
    (adjoins : tokens.Adjoins before index) {kind : TokenKind}
    (here : tokens.kindAt before = some kind) (goesOn : kind.cutsBehind = false) :
    ∃ first stop, ⟨.body id, first, stop⟩ ∈ stretches ∧ first ≤ before ∧ index < stop := by
  apply told.piece_of_goesOn spelled tagged linked holds below
  intro between since early found isAt
  rcases Nat.eq_or_lt_of_le since with rfl | past
  · rw [here] at isAt
    cases isAt
    exact goesOn
  · rw [adjoins.blank between past early] at isAt
    cases isAt
    rfl

theorem use_of_namesFunction (holds : tree.HoldsCode stretches id index) (below : Tree.root < id)
    (names : tokens.NamesFunction word index) :
    ∃ other < word, tree.HoldsCode stretches id other ∧ tokens.kindAt other = some .kwUse := by
  obtain ⟨first, stop, among, behind, early⟩ :=
    told.piece_of_adjoins spelled tagged linked holds below names.adjoins names.isFunction rfl
  have inPiece : tree.HoldsCode stretches id word :=
    ⟨holds.1, first, stop, among, behind, Nat.lt_trans names.adjoins.order early⟩
  obtain ⟨reader, token, next, reached, moves, goes, passed⟩ :=
    told.passed_of_holds spelled tagged inPiece
  -- A read that stands at the word goes on behind the name, and does not leave it pending.
  have jumps (here : reader.pos = word) : next.pos ≠ word + 1 := by
    subst here
    obtain ⟨opening, named, isOpen, past⟩ := names.opening
    obtain ⟨found, isAt, done⟩ := moves
    have isFunction : found.kind = .kwFunction := by
      have kind := names.isFunction
      rw [Tokens.kindAt, isAt] at kind
      exact Option.some.inj kind
    rw [Reader.step, isFunction] at done
    have beyond := Reader.functionWord_past names.noMember named isOpen done
    have order := names.adjoins.order
    omega
  rcases passed with ⟨here, pos, -⟩ | ⟨here, pos, -⟩ |
    ⟨isOne, -, since, until_, pending, -⟩
  · exact absurd pos (jumps here)
  · exact absurd pos (jumps here)
  · obtain ⟨inCode, isUse⟩ := told.use_of_astray spelled tagged inPiece names.isFunction rfl
      reached moves goes isOne since until_ pending
    refine ⟨reader.pos, Nat.lt_of_le_of_ne since ?_, inCode, isUse⟩
    rintro rfl
    rw [names.isFunction] at isUse
    cases isUse

end Told

end PhpWeave
