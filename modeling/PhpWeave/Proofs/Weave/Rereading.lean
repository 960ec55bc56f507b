import PhpWeave.Proofs.Grammar.Course
import PhpWeave.Proofs.Grammar.ImportGrammar
import PhpWeave.Proofs.Grammar.Tracking
import PhpWeave.Proofs.Weave.Hooked

set_option autoImplicit false

/-!
Reading a token list in which calls of the hook stand in the place of exits. Exits that are replaced
stand in no header, so a read of the second list goes on as the read of the first does: it comes to
the place of each token that the first read stands at, and reports pieces of plain code between the
same tokens.
-/

namespace PhpWeave

open Scan

/-! ### Import statements -/

theorem Import.read?_of_colons {tokens : List Token} (scanned : Scanned tokens) {colons : Token}
    (member : colons ∈ tokens) (areColons : colons.kind = .doubleColon)
    (text : colons.text = [':', ':']) : read? tokens = none := by
  cases read : read? tokens with
  | none => rfl
  | some entries =>
      exfalso
      rcases isPart_of_read scanned read colons member with (isFunction | isConst) | likeName | mark
      · rw [areColons] at isFunction
        cases isFunction
      · rw [Token.isWord, text] at isConst
        revert isConst
        decide
      · rw [areColons] at likeName
        cases likeName
      · rw [areColons] at mark
        revert mark
        decide

namespace Hooked

variable {isPut : Nat → Prop} {spot : Nat → Nat} {tokens others : Tokens} {index last : Nat}
  (hooked : Hooked isPut spot tokens others)
include hooked

theorem importEnd (inside : index ≤ tokens.size) :
    others.firstFrom Tokens.endsImport (spot index) =
      (tokens.firstFrom Tokens.endsImport index).map spot := by
  refine hooked.firstFrom (fun token other isExit member => ?_) inside
  obtain ⟨-, noSemicolon, noTag⟩ := not_ends_of_mem (.inl isExit)
  obtain ⟨-, otherSemicolon, otherTag⟩ := not_ends_of_mem (.inr member)
  simp [Tokens.endsImport, noSemicolon, noTag, otherSemicolon, otherTag]

theorem kept_of_importEnd (search : tokens.firstFrom Tokens.endsImport index = some last) :
    ∃ ending, KeptAt spot tokens others last ending := by
  obtain ⟨-, ending, there, ends⟩ := Tokens.firstFrom_some search
  refine ⟨ending, hooked.kept_of_kind there fun isExit => ?_⟩
  obtain ⟨-, noSemicolon, noTag⟩ := not_ends_of_mem (.inl isExit)
  simp [Tokens.endsImport, noSemicolon, noTag] at ends

theorem read?_of_put (scanned : Import.Scanned others.toList) {place first : Nat}
    (isOne : isPut place) (behind : first ≤ place) (before : place < last)
    (inside : last ≤ tokens.size) :
    Import.read? ((others.extract (spot first) (spot last)).toList.filter Tokens.isSignificant) =
      none := by
  obtain ⟨colons, member, areColons, text⟩ := hooked.exists_colons isOne behind before inside
  refine Import.read?_of_colons (scanned.mono fun token among => ?_)
    (List.mem_filter.mpr ⟨member, ?_⟩) areColons text
  · obtain ⟨index, -, -, there⟩ := Tokens.mem_extract_iff.mp (List.mem_filter.mp among).1
    exact Array.mem_toList_iff.mpr (Array.mem_of_getElem? there)
  · rw [Tokens.isSignificant, areColons]
    rfl

end Hooked

namespace Reader

variable {isPut : Nat → Prop} {spot : Nat → Nat} {tokens others : Tokens} {token : Token}
  {reader next other after : Reader} {last : Nat}

/-! ### Reads that go together -/

structure Reports (spot : Nat → Nat) (reader other : Reader) : Prop
    extends Abreast reader other where
  pieces : other.pieces = reader.pieces.map (Prod.map spot spot)

/-- A read of the first list and a read of the second that stand at the same token, with the same
tokens pending. -/
structure Echoes (spot : Nat → Nat) (tokens : Tokens) (reader other : Reader) : Prop
    extends Reports spot reader other where
  pos : other.pos = spot reader.pos
  pending : other.pending = spot reader.pending
  pending_le : reader.pending ≤ reader.pos
  pos_le : reader.pos ≤ tokens.size

namespace Reports

variable (reports : Reports spot reader other)
include reports

theorem report {first second : Event} (silent : first.piece? = none)
    (otherSilent : second.piece? = none) :
    Reports spot (reader.report first) (other.report second) where
  top := reports.top
  outer := reports.outer
  pieces := by
    rw [pieces_report, pieces_report, silent, otherSilent, reports.pieces]
    simp

theorem openFrame (kind : FrameKind) (first otherFirst : Nat) :
    Reports spot (reader.openFrame kind first) (other.openFrame kind otherFirst) where
  toAbreast := reports.toAbreast.openFrame _ _ _
  pieces := reports.pieces

theorem closeFrame (close : Text) (last otherLast : Nat) :
    Reports spot (reader.closeFrame close last) (other.closeFrame close otherLast) where
  toAbreast := reports.toAbreast.closeFrame _ _ _
  pieces := by rw [pieces_closeFrame, pieces_closeFrame, reports.pieces]

theorem endOpenScope (index otherIndex : Nat) :
    Reports spot (reader.endOpenScope index) (other.endOpenScope otherIndex) where
  toAbreast := reports.toAbreast.endOpenScope _ _
  pieces := by rw [pieces_endOpenScope, pieces_endOpenScope, reports.pieces]

theorem resumeAfter (kept : KeptAt spot tokens others last token) :
    Echoes spot tokens (reader.resumeAfter last) (other.resumeAfter (spot last)) where
  top := reports.top
  outer := reports.outer
  pieces := reports.pieces
  pos := kept.next.symm
  pending := kept.next.symm
  pending_le := Nat.le_refl _
  pos_le := kept.inside

end Reports

theorem piece?_of_fixed {node : Node} (fixed : node.isEditable = false) (first last : Nat) :
    (Event.leaf node first last).piece? = none ∧ (Event.enter node first last).piece? = none := by
  simp [Event.piece?, fixed]

theorem functionWord_pos (done : reader.functionWord tokens = .ok next) : next = reader.skip ∨
    ∃ opening, (functionName tokens reader.pos).2 = some opening ∧ opening < next.pos := by
  unfold functionWord at done
  simp only at done
  split at done
  · cases done
    exact .inl rfl
  · split at done
    · cases done
      exact .inl rfl
    · next opening after =>
        split at done
        · split at done
          · cases done
          · next close closing =>
              have beyond := Tokens.closing_ge closing
              split at done
              · cases done
              · next last search =>
                  have further := (Tokens.firstOutside_some search).1
                  have stands : next.pos = last + 1 := by
                    split at done
                    · cases done
                      rfl
                    · cases done
                      rfl
                  exact .inr ⟨opening, after, by omega⟩
        · cases done
          exact .inl rfl

namespace Echoes

variable (hooked : Hooked isPut spot tokens others) (echoes : Echoes spot tokens reader other)
include hooked echoes

omit hooked in
theorem pending_size : reader.pending ≤ tokens.size := Nat.le_trans echoes.pending_le echoes.pos_le

theorem pendingPiece {stop : Nat} (inside : stop ≤ tokens.size) :
    other.pendingPiece (spot stop) = (reader.pendingPiece stop).map (Prod.map spot spot) := by
  unfold Reader.pendingPiece
  rw [echoes.pending]
  simp only [hooked.spot_lt_iff (echoes.pending_size) inside]
  split
  · rfl
  · rfl

theorem flush {stop : Nat} (inside : stop ≤ tokens.size) :
    Reports spot (reader.flush tokens stop) (other.flush others (spot stop)) where
  toAbreast := echoes.toAbreast.flush _ _
  pieces := by
    rw [pieces_flush, pieces_flush, echoes.pieces, echoes.pendingPiece hooked inside,
      List.map_append]

theorem leaf {node otherNode : Node} (fixed : node.isEditable = false)
    (otherFixed : otherNode.isEditable = false) {first : Nat} (inside : first ≤ tokens.size)
    (last otherLast : Nat) :
    Reports spot ((reader.flush tokens first).report (.leaf node first last))
      ((other.flush others (spot first)).report (.leaf otherNode (spot first) otherLast)) :=
  (echoes.flush hooked inside).report (piece?_of_fixed fixed _ _).1
    (piece?_of_fixed otherFixed _ _).1

theorem passes (kept : KeptAt spot tokens others reader.pos token)
    (first : Passes reader token next) (second : Passes other token after) :
    Echoes spot tokens next after := by
  have pos : other.pos + 1 = spot (reader.pos + 1) := by rw [echoes.pos, kept.next]
  have inside := kept.inside
  have before := echoes.pending_le
  have pending := first.pending
  have otherPending := second.pending
  have pieces := first.pieces
  have otherPieces := second.pieces
  rw [pos, echoes.parens] at otherPending otherPieces
  refine ⟨⟨⟨?_, ?_⟩, ?_⟩, ?_, ?_, ?_, ?_⟩
  · rw [first.top, second.top, echoes.kind, echoes.braces, echoes.parens]
  · rw [first.outer, second.outer, echoes.outer]
  · rw [pieces, otherPieces, echoes.pieces, List.map_append]
    split
    · rw [echoes.pendingPiece hooked inside]
    · rfl
  · rw [first.pos, second.pos, pos]
  · rw [pending, otherPending]
    split
    · rfl
    · exact echoes.pending
  · rw [first.pos, pending]
    split
    · exact Nat.le_refl _
    · exact Nat.le_succ_of_le before
  · rw [first.pos]
    exact inside

theorem skip (kept : KeptAt spot tokens others reader.pos token) (quiet : Quiet token.kind) :
    Echoes spot tokens reader.skip other.skip :=
  echoes.passes hooked kept (passes_skip quiet) (passes_skip quiet)

omit hooked in
theorem put {added : List Token} (put : PutAt spot tokens others reader.pos token added)
    (first : Passes reader token next) :
    ∃ after, Relation.ReflTransGen (Moves others) other after ∧ Echoes spot tokens next after := by
  have quiet : Quiet token.kind := by
    have all : ∀ kind ∈ exitKinds, kind ≠ .openBrace ∧ kind ≠ .closeBrace ∧ kind ≠ .openParen ∧
        kind ≠ .closeParen ∧ kind ≠ .semicolon := by decide
    obtain ⟨noBrace, noClose, noParen, noCloseParen, noSemicolon⟩ := all _ put.kind
    exact quiet_of_ne noBrace noClose noParen noCloseParen noSemicolon
  have inside := (Array.getElem?_eq_some_iff.mp put.here).1
  have before := echoes.pending_le
  have pending := first.pending
  have pieces := first.pieces
  rw [quiet.pending, if_neg Bool.false_ne_true] at pending pieces
  have top : other.top.shape = (other.top.kind, other.top.braces + 0, other.top.parens + 0) := rfl
  obtain ⟨after, crosses⟩ := exists_crosses put.isHook.settles top (echoes.pos ▸ put.stands)
  have silent : ∀ token ∈ added, ∀ parens, settlesAt token.kind parens = false := by
    intro token member parens
    have all : ∀ kind ∈ hookKinds, ∀ parens, settlesAt kind parens = false := by
      simp [hookKinds, settlesAt]
    exact all _ (put.isHook.kind_mem member) parens
  obtain ⟨samePending, samePieces⟩ := crosses.keeps silent
  refine ⟨after, crosses.moves, ⟨⟨?_, ?_⟩, ?_⟩, ?_, ?_, ?_, ?_⟩
  · rw [crosses.top, first.top, quiet.braces, quiet.parens]
    exact echoes.top
  · rw [crosses.outer, first.outer, echoes.outer]
  · rw [samePieces, pieces, List.append_nil, echoes.pieces]
  · rw [crosses.pos, echoes.pos, first.pos, put.next]
  · rw [samePending, pending, echoes.pending]
  · rw [first.pos, pending]
    exact Nat.le_succ_of_le before
  · rw [first.pos]
    exact inside

/-! ### One construct -/

theorem atStatementStart :
    other.atStatementStart others other.pos = reader.atStatementStart tokens reader.pos := by
  unfold Reader.atStatementStart
  rw [echoes.pending, hooked.nextSignificant (echoes.pending_size)]
  cases search : tokens.nextSignificant reader.pending with
  | none => rfl
  | some first =>
      obtain ⟨-, token, here, -⟩ := Tokens.firstFrom_some search
      have inside := Nat.le_of_lt (Array.getElem?_eq_some_iff.mp here).1
      simp only [Option.map_some, echoes.pos, hooked.spot_le_iff echoes.pos_le inside]

theorem modifierStart : other.modifierStart others other.pos =
    spot (reader.modifierStart tokens reader.pos) := by
  rw [Reader.modifierStart, Reader.modifierStart, echoes.pending, echoes.pos,
    hooked.modifierRun echoes.pos_le (echoes.pending_size)]

theorem isEnumeration_eq (kept : KeptAt spot tokens others reader.pos token)
    (isOne : token.kind = .identifier) :
    isEnumeration others other token = isEnumeration tokens reader token := by
  have inside := kept.inside
  have isName : tokens.kindAt reader.pos = some .identifier :=
    Tokens.kindAt_eq_some.mpr ⟨token, kept.here, isOne⟩
  unfold isEnumeration
  rw [echoes.atStatementStart hooked, echoes.pos, ← kept.next, hooked.nextSignificant inside]
  cases search : tokens.nextSignificant (reader.pos + 1) with
  | none => rfl
  | some name =>
      rcases hooked.behind_word isName search with ⟨word, same⟩ | ⟨word, added, put, isExit⟩
      · have sameKind : others.isAt (spot name) .identifier = tokens.isAt name .identifier := by
          rw [Tokens.isAt, Tokens.isAt, Tokens.kindAt, Tokens.kindAt, same.here, same.there]
        simp only [Option.map_some, sameKind, ← same.next, hooked.nextSignificant same.inside]
        cases search : tokens.nextSignificant (name + 1) with
        | none => rfl
        | some behind =>
            obtain ⟨-, following, there, -⟩ := Tokens.firstFrom_some search
            rw [Option.map_some, Option.bind_some, Option.bind_some, there]
            rcases hooked.cases there with same | ⟨added, -, put⟩
            · rw [same.there]
            · obtain ⟨class_, colons, isThere, -, kind, text, -⟩ := put.begins
              have noMark : ∀ kind ∈ exitKinds, kind ≠ .openBrace ∧ kind ≠ .colon := by decide
              obtain ⟨noBrace, noColon⟩ := noMark _ put.kind
              -- Neither an exit nor the name of the hook goes on with a declaration.
              have noWord : following.isWord "implements".toList = false :=
                put.isWord (by decide)
              have noName : class_.isWord "implements".toList = false := by
                rw [Token.isWord, text]
                decide
              rw [isThere]
              simp only [kind, noBrace, noColon, noWord, noName, reduceCtorEq]
      · obtain ⟨class_, colons, isThere, -, kind, -⟩ := put.begins
        have noName : tokens.isAt name .identifier = false := by
          rw [Tokens.isAt, Tokens.kindAt, put.here, Option.map_some, isExit]
          rfl
        have noOther : others.isAt (spot name) .identifier = false := by
          rw [Tokens.isAt, Tokens.kindAt, isThere, Option.map_some, kind]
          rfl
        simp only [Option.map_some, noName, noOther, Bool.false_and, Bool.and_false]

theorem markup (kept : KeptAt spot tokens others reader.pos token) :
    Echoes spot tokens (reader.markup tokens token) (other.markup others token) := by
  have fixed : ({ Node.code token.text with
      flags := if token.kind = .inlineHtml then Flags.none else Flags.fixedCode } : Node).isEditable =
        false := by
    change (true && (if _ then _ else _ : Flags).inPhp && (if _ then _ else _ : Flags).editable) =
      false
    split <;> rfl
  unfold Reader.markup
  rw [echoes.pos]
  exact (echoes.leaf hooked fixed fixed echoes.pos_le _ _).resumeAfter kept

theorem literal (kept : KeptAt spot tokens others reader.pos token) :
    Echoes spot tokens (reader.literal tokens token) (other.literal others token) := by
  unfold Reader.literal
  rw [echoes.pos]
  exact (echoes.leaf hooked rfl rfl echoes.pos_le _ _).resumeAfter kept

theorem closingBrace (closes : closesFrame reader.top = true)
    (kept : KeptAt spot tokens others reader.pos token) :
    Echoes spot tokens (reader.closingBrace tokens) (other.closingBrace others) := by
  unfold Reader.closingBrace
  simp only
  rw [if_pos closes, if_pos (echoes.closesFrame.trans closes), echoes.pos]
  exact ((echoes.flush hooked echoes.pos_le).closeFrame _ _ _).resumeAfter kept

theorem namespaceWord (kept : KeptAt spot tokens others reader.pos token)
    (quiet : Quiet token.kind)
    (clear : ∀ place, isPut place → reader.pos < place →
      (reader.namespaceWord tokens).pos ≤ place) :
    Echoes spot tokens (reader.namespaceWord tokens) (other.namespaceWord others) := by
  have inside := kept.inside
  have found := hooked.scopeHeader inside [] fun last text header place isOne behind => by
    refine Nat.lt_of_succ_le (Nat.le_trans (Nat.le_of_eq ?_) (clear place isOne behind))
    unfold Reader.namespaceWord
    simp only [header]
    rfl
  unfold Reader.namespaceWord
  simp only [echoes.pos, ← kept.next, found]
  cases header : scopeHeader tokens (tokens.size - (reader.pos + 1)) (reader.pos + 1) [] with
  | none => exact echoes.skip hooked kept quiet
  | some both =>
      obtain ⟨last, name⟩ := both
      obtain ⟨-, ends⟩ := scopeHeader_some header
      have ends : ∃ ending, tokens[last]? = some ending ∧ ending.kind ∉ exitKinds := by
        rcases ends with semicolon | brace
        · obtain ⟨ending, there, isOne⟩ := Tokens.kindAt_eq_some.mp semicolon
          exact ⟨ending, there, isOne ▸ by decide⟩
        · obtain ⟨ending, there, isOne⟩ := Tokens.kindAt_eq_some.mp brace
          exact ⟨ending, there, isOne ▸ by decide⟩
      obtain ⟨ending, there, noExit⟩ := ends
      have same := hooked.kept_of_kind there noExit
      simp only [Option.map_some, Prod.map, id_eq, same.isAt]
      refine Reports.resumeAfter (Reports.openFrame (Reports.report ?_ ?_ ?_) _ _ _) same
      · exact (echoes.flush hooked echoes.pos_le).endOpenScope _ _
      · rfl
      · rfl

omit hooked in
theorem skipTo (behind : reader.pos ≤ last) (inside : last ≤ tokens.size) :
    Echoes spot tokens (reader.skipTo last) (other.skipTo (spot last)) where
  top := echoes.top
  outer := echoes.outer
  pieces := echoes.pieces
  pos := rfl
  pending := echoes.pending
  pending_le := Nat.le_trans echoes.pending_le behind
  pos_le := inside

theorem useWord (scanned : Import.Scanned others.toList)
    (kept : KeptAt spot tokens others reader.pos token) (quiet : Quiet token.kind)
    (clear : ∀ place, isPut place → reader.pos < place → place < (reader.useWord tokens).pos →
      (reader.useWord tokens).pending = reader.pending) :
    Echoes spot tokens (reader.useWord tokens) (other.useWord others) := by
  have found := hooked.importEnd kept.inside
  have ended {last : Nat} (search : tokens.firstFrom Tokens.endsImport (reader.pos + 1) =
      some last) : reader.pos + 1 ≤ last ∧ ∃ ending, KeptAt spot tokens others last ending :=
    ⟨(Tokens.firstFrom_some search).1, hooked.kept_of_importEnd search⟩
  unfold Tokens.endsImport at found ended
  unfold Reader.useWord at clear ⊢
  simp only [echoes.pos, ← kept.next, found] at clear ⊢
  cases search : tokens.firstFrom
      (fun token => decide (token.kind = .semicolon) || decide (token.kind = .closeTag))
      (reader.pos + 1) with
  | none => exact echoes.skip hooked kept quiet
  | some last =>
      obtain ⟨behind, ending, same⟩ := ended search
      have lastInside := Nat.le_of_lt same.inside
      rw [search] at clear
      simp only [Option.map_some, same.isAt] at clear ⊢
      split
      · next isOne =>
          rw [if_pos isOne] at clear
          have given := echoes.skipTo (Nat.le_of_succ_le behind) lastInside
          by_cases free : ∀ place, reader.pos + 1 ≤ place → place < last → ¬ isPut place
          · rw [hooked.extract_eq behind lastInside free]
            split
            · exact given
            · refine Reports.resumeAfter (Reports.report ?_ ?_ ?_) same
              · exact echoes.leaf hooked rfl rfl echoes.pos_le _ _
              · rfl
              · rfl
          · simp only [not_forall, not_not] at free
            obtain ⟨place, past, before, isPut⟩ := free
            rw [hooked.read?_of_put scanned isPut past before lastInside]
            split
            · exact given
            · next entries read =>
                -- An import that is read holds no exit that is replaced.
                rw [read] at clear
                have stays : last + 1 = reader.pending :=
                  clear place isPut past (Nat.lt_succ_of_lt before)
                have early := echoes.pending_le
                omega
      · exact echoes.skip hooked kept quiet

theorem classStart : (if others.prevKind (spot reader.pos) = some .kwNew then spot reader.pos
      else Reader.modifierStart others other (spot reader.pos)) =
        spot (if tokens.prevKind reader.pos = some .kwNew then reader.pos
          else Reader.modifierStart tokens reader reader.pos) ∧
    (if tokens.prevKind reader.pos = some .kwNew then reader.pos
      else Reader.modifierStart tokens reader reader.pos) ≤ tokens.size := by
  have starts := echoes.modifierStart hooked
  have atMost := (modifierStart_bounds tokens echoes.pending_le).2
  rw [echoes.pos] at starts
  simp only [hooked.prevKind_new echoes.pos_le, starts]
  split
  · exact ⟨rfl, echoes.pos_le⟩
  · exact ⟨rfl, Nat.le_trans atMost echoes.pos_le⟩

theorem classWord (kept : KeptAt spot tokens others reader.pos token) (quiet : Quiet token.kind)
    {kind : ClassKind} (done : reader.classWord tokens kind = .ok next) :
    ∃ after, other.classWord others kind = .ok after ∧ Echoes spot tokens next after := by
  have skipped := echoes.skip hooked kept quiet
  have named := hooked.className?_isSome kept
  have ended := hooked.headerEnd kept.inside
  obtain ⟨begins, firstInside⟩ := echoes.classStart hooked
  unfold Reader.classWord at done ⊢
  simp only [echoes.pos, hooked.isMemberName echoes.pos_le] at done ⊢
  split at done
  · next member =>
      cases done
      rw [if_pos member]
      exact ⟨_, rfl, skipped⟩
  · next noMember =>
      rw [if_neg noMember]
      cases isName : className? tokens reader.pos with
      | none =>
          rw [isName, Option.isSome_none, Option.isSome_eq_false_iff, Option.isNone_iff_eq_none]
            at named
          rw [isName] at done
          cases done
          rw [named]
          exact ⟨_, rfl, skipped⟩
      | some name =>
          rw [isName] at done named
          obtain ⟨otherName, otherOne⟩ := Option.isSome_iff_exists.mp named
          rw [otherOne]
          simp only [← kept.next, ended] at done ⊢
          cases search : tokens.firstOutside [.openBrace, .semicolon] (reader.pos + 1) with
          | none =>
              rw [search] at done
              cases done
          | some last =>
              rw [search] at done
              obtain ⟨ending, same⟩ := hooked.kept_of_headerEnd search
              simp only [Option.map_some, same.isAt] at done ⊢
              split at done
              · next ends =>
                  cases done
                  rw [if_pos ends]
                  exact ⟨_, rfl, skipped⟩
              · next opens =>
                  cases done
                  rw [if_neg opens]
                  rw [begins]
                  exact ⟨_, rfl, Reports.resumeAfter (Reports.openFrame
                    (Reports.report (echoes.flush hooked firstInside) rfl rfl) _ _ _) same⟩

theorem functionWord (kept : KeptAt spot tokens others reader.pos token)
    (quiet : Quiet token.kind) (done : reader.functionWord tokens = .ok next)
    (clear : ∀ place, isPut place → reader.pos < place → next.pos ≤ place) :
    ∃ after, other.functionWord others = .ok after ∧ Echoes spot tokens next after := by
  have ends := functionWord_pos done
  have skipped := echoes.skip hooked kept quiet
  have starts := echoes.modifierStart hooked
  have firstInside : reader.modifierStart tokens reader.pos ≤ tokens.size :=
    Nat.le_trans (modifierStart_bounds tokens echoes.pending_le).2 echoes.pos_le
  rw [echoes.pos] at starts
  unfold Reader.functionWord at done ⊢
  simp only [echoes.pos, hooked.isMemberName echoes.pos_le, starts] at done ⊢
  split at done
  · next member =>
      cases done
      rw [if_pos member]
      exact ⟨_, rfl, skipped⟩
  · next noMember =>
      rw [if_neg noMember]
      rcases hooked.functionName kept with same |
        ⟨place, isOne, behind, before, otherBehind, otherAfter, noParen⟩
      · simp only [same]
        cases after : (functionName tokens reader.pos).2 with
        | none =>
            rw [after] at done
            cases done
            exact ⟨_, rfl, skipped⟩
        | some opening =>
            rw [after] at done
            have openingInside := Nat.le_of_lt (functionName_lt after)
            have opens : others.isAt (spot opening) .openParen = tokens.isAt opening .openParen :=
              hooked.isAt openingInside (by decide) (by decide)
            simp only [Option.map_some, opens] at done ⊢
            split at done
            · next parenthesis =>
                rw [if_pos parenthesis]
                cases closing : tokens.closing .paren opening with
                | error fault =>
                    rw [closing] at done
                    cases done
                | ok close =>
                    rw [closing] at done
                    simp only at done
                    cases search : tokens.firstOutside [.openBrace, .semicolon] (close + 1) with
                    | none =>
                        rw [search] at done
                        cases done
                    | some last =>
                        obtain ⟨ending, same⟩ := hooked.kept_of_headerEnd search
                        obtain ⟨otherClosing, otherSearch⟩ := hooked.functionHeader closing search
                        rw [search] at done
                        rw [otherClosing]
                        simp only [otherSearch, same.isAt] at done ⊢
                        split at done
                        · next isOpen =>
                            cases done
                            rw [if_pos isOpen]
                            exact ⟨_, rfl, Reports.resumeAfter (Reports.openFrame
                              (Reports.report (echoes.flush hooked firstInside) rfl rfl) _ _ _)
                              same⟩
                        · next noBrace =>
                            cases done
                            rw [if_neg noBrace]
                            exact ⟨_, rfl, Reports.resumeAfter
                              (Reports.report (echoes.flush hooked firstInside) rfl rfl) same⟩
            · next noParenthesis =>
                cases done
                rw [if_neg noParenthesis]
                exact ⟨_, rfl, skipped⟩
      · -- A call stands for the name, so the first read has found no header there.
        simp only [otherAfter, noParen, Bool.false_eq_true, if_false]
        refine ⟨_, rfl, ?_⟩
        rcases ends with rfl | ⟨opening, after, further⟩
        · exact skipped
        · have far := before opening after
          have atMost := clear place isOne behind
          omega

/-! ### Moves -/

theorem step_plain (kept : KeptAt spot tokens others reader.pos token)
    (plain : Plain tokens reader token) (done : reader.step tokens token = .ok next) :
    ∃ after, other.step others token = .ok after ∧ Echoes spot tokens next after := by
  have otherPlain : Plain others other token := by
    refine ⟨plain.tag, plain.literal, plain.word, fun isOne => ?_, fun isOne => ?_⟩
    · rw [echoes.isEnumeration_eq hooked kept isOne]
      exact plain.enumeration isOne
    · rw [echoes.closesFrame]
      exact plain.partner isOne
  obtain ⟨next', done', first⟩ := passes_step plain
  obtain ⟨after, otherDone, second⟩ := passes_step otherPlain
  obtain rfl := Except.ok.inj (done'.symm.trans done)
  exact ⟨after, otherDone, echoes.passes hooked kept first second⟩

theorem step_word (scanned : Import.Scanned others.toList)
    (kept : KeptAt spot tokens others reader.pos token)
    (word : beginsConstruct token.kind = true) (done : reader.step tokens token = .ok next)
    (clear : ∀ place, isPut place → reader.pos < place → place < next.pos →
      token.kind = .kwUse ∧ next.pending = reader.pending) :
    ∃ after, other.step others token = .ok after ∧ Echoes spot tokens next after := by
  have quiet := quiet_of_word word
  have skipped := echoes.skip hooked kept quiet
  have passed (noUse : token.kind ≠ .kwUse) :
      ∀ place, isPut place → reader.pos < place → next.pos ≤ place := by
    intro place isOne behind
    by_contra past
    exact noUse (clear place isOne behind (Nat.lt_of_not_le past)).1
  cases word_of_beginsConstruct word with
  | scope isOne stepped =>
      rw [stepped] at done ⊢
      rw [echoes.atFileLevel]
      refine ⟨_, rfl, ?_⟩
      split at done
      · next fileLevel =>
          cases done
          rw [if_pos fileLevel]
          exact echoes.namespaceWord hooked kept quiet (passed (isOne ▸ TokenKind.noConfusion))
      · next inside =>
          cases done
          rw [if_neg inside]
          exact skipped
  | imports isOne stepped =>
      rw [stepped] at done ⊢
      rw [echoes.atFileLevel, echoes.atStatementStart hooked]
      refine ⟨_, rfl, ?_⟩
      split at done
      · next starts =>
          cases done
          rw [if_pos starts]
          exact echoes.useWord hooked scanned kept quiet fun place isPut behind before =>
            (clear place isPut behind before).2
      · next inside =>
          cases done
          rw [if_neg inside]
          exact skipped
  | classLike kind noFunction stepped =>
      rw [stepped] at done ⊢
      exact echoes.classWord hooked kept quiet done
  | function isOne stepped =>
      rw [stepped] at done ⊢
      exact echoes.functionWord hooked kept quiet done (passed (isOne ▸ TokenKind.noConfusion))

theorem step (scanned : Import.Scanned others.toList)
    (kept : KeptAt spot tokens others reader.pos token) (done : reader.step tokens token = .ok next)
    (clear : ∀ place, isPut place → reader.pos < place → place < next.pos →
      token.kind = .kwUse ∧ next.pending = reader.pending) :
    ∃ after, other.step others token = .ok after ∧ Echoes spot tokens next after := by
  rcases plain_or tokens reader token with plain | tag | ⟨noTag, literal⟩ | word |
    ⟨isOne, enumeration⟩ | ⟨isOne, closes⟩
  · exact echoes.step_plain hooked kept plain done
  · rw [Reader.step, if_pos tag] at done ⊢
    cases done
    exact ⟨_, rfl, echoes.markup hooked kept⟩
  · rw [Reader.step, noTag, if_neg Bool.false_ne_true, if_pos literal] at done ⊢
    cases done
    exact ⟨_, rfl, echoes.literal hooked kept⟩
  · exact echoes.step_word hooked scanned kept word done clear
  · have quiet : Quiet token.kind := by
      rw [isOne]
      exact ⟨fun _ => rfl, fun _ => rfl, fun _ => rfl⟩
    rw [step_enumeration isOne enumeration] at done
    have otherEnumeration : isEnumeration others other token = true := by
      rw [echoes.isEnumeration_eq hooked kept isOne]
      exact enumeration
    rw [step_enumeration isOne otherEnumeration]
    exact echoes.classWord hooked kept quiet done
  · rw [step_closeBrace isOne] at done ⊢
    cases done
    exact ⟨_, rfl, echoes.closingBrace hooked closes kept⟩

end Echoes

/-! ### Runs -/

def Spares (isPut : Nat → Prop) (tokens : Tokens) : Prop :=
  ∀ reader next, Reached tokens reader → Moves tokens reader next →
    ∀ place, isPut place → reader.pos < place → place < next.pos →
      tokens.kindAt reader.pos = some .kwUse ∧ next.pending = reader.pending

section Whole

variable (hooked : Hooked isPut spot tokens others) (scanned : Import.Scanned others.toList)
  (spares : Spares isPut tokens)
include hooked scanned spares

theorem Echoes.moves (echoes : Echoes spot tokens reader other) (reached : Reached tokens reader)
    (moves : Moves tokens reader next) :
    ∃ after, Relation.ReflTransGen (Moves others) other after ∧ Echoes spot tokens next after := by
  have clear := spares reader next reached moves
  obtain ⟨token, here, done⟩ := moves
  rcases hooked.cases here with kept | ⟨added, -, put⟩
  · have there : others[other.pos]? = some token := echoes.pos ▸ kept.there
    obtain ⟨after, otherDone, same⟩ := echoes.step hooked scanned kept done
      fun place isOne behind before => by
        obtain ⟨isUse, pending⟩ := clear place isOne behind before
        rw [Tokens.kindAt, here, Option.map_some] at isUse
        exact ⟨Option.some.inj isUse, pending⟩
    exact ⟨after, .single ⟨token, there, otherDone⟩, same⟩
  · have all : ∀ kind ∈ exitKinds, kind.isMarkup = false ∧ kind.isLiteral = false ∧
        beginsConstruct kind = false ∧ kind ≠ .closeBrace := by decide
    obtain ⟨tag, literal, word, noBrace⟩ := all _ put.kind
    have noEnum : token.isWord "enum".toList = false := put.isWord (by decide)
    have plain : Plain tokens reader token := by
      refine ⟨tag, literal, word, fun _ => ?_, fun isOne => absurd isOne noBrace⟩
      rw [isEnumeration, noEnum, Bool.false_and, Bool.false_and]
    obtain ⟨next', done', passes⟩ := passes_step plain
    obtain rfl := Except.ok.inj (done'.symm.trans done)
    exact echoes.put put passes

theorem exists_echoes (reached : Reached tokens reader) :
    ∃ other, Reached others other ∧ Echoes spot tokens reader other := by
  induction reached with
  | refl =>
      exact ⟨Reader.start, .refl, ⟨⟨.refl _, rfl⟩, hooked.start.symm, hooked.start.symm,
        Nat.le_refl _, Nat.zero_le _⟩⟩
  | tail before moves ih =>
      obtain ⟨other, otherReached, echoes⟩ := ih
      obtain ⟨after, later, same⟩ := echoes.moves hooked scanned spares before moves
      exact ⟨after, otherReached.trans later, same⟩

/-- A token list with calls in the place of exits is read when the list with the exits was, with the
same pieces of plain code. -/
theorem eventsOf_hooked (spelled : Spelled tokens) (tagged : Tagged tokens)
    (otherSpelled : Spelled others) (otherTagged : Tagged others) {events : List Event}
    (done : eventsOf tokens = .ok events) :
    ∃ otherEvents, eventsOf others = .ok otherEvents ∧ otherEvents.filterMap Event.piece? =
      (events.filterMap Event.piece?).map (Prod.map spot spot) := by
  have silent {closed : List Event} (leaves : ∀ event ∈ closed, ∃ stop, event = .leave [] stop) :
      closed.filterMap Event.piece? = [] := by
    refine List.filterMap_eq_nil_iff.mpr fun event member => ?_
    obtain ⟨stop, rfl⟩ := leaves event member
    rfl
  unfold eventsOf at done
  split at done
  · cases done
  · next reader run =>
      obtain ⟨stands, reached, -⟩ := runWithin_sound spelled tagged .refl
        (Sound.start tokens) (by exact Nat.le_add_left _ _) run
      obtain ⟨other, otherReached, echoes⟩ := exists_echoes hooked scanned spares reached
      have ends : others[other.pos]? = none := by
        rw [echoes.pos, stands, hooked.size]
        exact Array.getElem?_eq_none (Nat.le_refl _)
      have otherRun : runWithin others others.size Reader.start = .ok other :=
        runWithin_of_moves otherSpelled otherTagged .refl (by exact Nat.le_add_left _ _)
          otherReached ends
      have flushed := echoes.flush hooked (Nat.le_refl tokens.size)
      rw [hooked.size] at flushed
      simp only at done
      split at done
      · cases done
      · next last closed =>
          cases done
          obtain ⟨otherLast, otherClosed, -, -⟩ :=
            closeAll_alike others flushed.top flushed.outer closed
          refine ⟨(other.flush others others.size).events.toList ++ otherLast, ?_, ?_⟩
          · rw [eventsOf, otherRun]
            simp only [otherClosed]
          · rw [List.filterMap_append, List.filterMap_append, silent (closeAll_leaves closed),
              silent (closeAll_leaves otherClosed), List.append_nil, List.append_nil]
            exact flushed.pieces

end Whole

end Reader
end PhpWeave
