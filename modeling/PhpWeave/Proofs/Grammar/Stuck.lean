import PhpWeave.Proofs.Grammar.Run
import PhpWeave.Proofs.Token.Balance

set_option autoImplicit false

/-!
Declarations that a read cannot pass: a function whose parameters are not closed, and a header
behind which neither a body nor a semicolon stands. These are all the moves that fail, and a run
fails where one of its moves does.
-/

namespace PhpWeave

/-- Every brace that opens and every semicolon from a position on stands inside parentheses or
square brackets that were opened since. -/
def Tokens.Unended (tokens : Tokens) (index : Nat) : Prop :=
  ∀ other kind, index ≤ other → tokens.kindAt other = some kind →
    kind ∈ [TokenKind.openBrace, .semicolon] → tokens.Sheltered index other

namespace Reader

def DeclaresClass (tokens : Tokens) (reader : Reader) (token : Token) : Prop :=
  token.kind = .kwClass ∨ token.kind = .kwInterface ∨ token.kind = .kwTrait ∨
    token.kind = .identifier ∧ isEnumeration tokens reader token = true

/-- What a read cannot pass: a declaration whose header has no end. -/
inductive Stuck (tokens : Tokens) (reader : Reader) (token : Token) : BracketFault → Prop where
  /-- The parameter list of a function is not closed. -/
  | parameters {opening : Nat} {paren : Token} (isOne : token.kind = .kwFunction)
      (noMember : tokens.isMemberName reader.pos = false)
      (named : (functionName tokens reader.pos).2 = some opening)
      (here : tokens[opening]? = some paren) (opens : paren.kind = .openParen)
      (never : tokens.NeverCloses .paren opening) :
      Stuck tokens reader token (.unbalanced .paren paren.line)
  /-- Behind the parameter list of a function there is neither a body nor a semicolon. -/
  | function {opening close : Nat} (isOne : token.kind = .kwFunction)
      (noMember : tokens.isMemberName reader.pos = false)
      (named : (functionName tokens reader.pos).2 = some opening)
      (opens : tokens.isAt opening .openParen = true)
      (closed : tokens.closing .paren opening = .ok close)
      (unended : tokens.Unended (close + 1)) :
      Stuck tokens reader token (.unbalanced .curly token.line)
  /-- Behind the word of a class-like declaration there is neither a body nor a semicolon. -/
  | classLike (isOne : DeclaresClass tokens reader token)
      (noMember : tokens.isMemberName reader.pos = false)
      (named : (className? tokens reader.pos).isSome = true)
      (unended : tokens.Unended (reader.pos + 1)) :
      Stuck tokens reader token (.unbalanced .curly token.line)

variable {tokens : Tokens} {reader next : Reader} {token : Token} {fault : BracketFault}

/-! ### Moves that fail -/

theorem firstOutside_none_iff {index : Nat} :
    tokens.firstOutside [.openBrace, .semicolon] index = none ↔ tokens.Unended index :=
  Tokens.firstOutside_none

theorem lineAt_of_getElem? {index : Nat} (here : tokens[index]? = some token) :
    tokens.lineAt index = token.line := by
  rw [Tokens.lineAt, here]
  rfl

theorem Stuck.word (stuck : Stuck tokens reader token fault) :
    token.kind = .kwFunction ∨ DeclaresClass tokens reader token := by
  cases stuck with
  | parameters isOne => exact .inl isOne
  | function isOne => exact .inl isOne
  | classLike isOne => exact .inr isOne

theorem DeclaresClass.noFunction (isOne : DeclaresClass tokens reader token) :
    token.kind ≠ .kwFunction := by
  rintro isFunction
  rcases isOne with same | same | same | ⟨same, -⟩ <;> rw [isFunction] at same <;> cases same

theorem classWord_error_iff (here : tokens[reader.pos]? = some token)
    (isOne : DeclaresClass tokens reader token) (kind : ClassKind) :
    reader.classWord tokens kind = .error fault ↔ Stuck tokens reader token fault := by
  constructor
  · intro failed
    unfold classWord at failed
    simp only at failed
    split at failed
    · cases failed
    · next noMember =>
        split at failed
        · cases failed
        · next name named =>
            split at failed
            · next none =>
                rw [lineAt_of_getElem? here] at failed
                cases failed
                exact .classLike isOne (eq_false_of_ne_true noMember)
                  (Option.isSome_of_eq_some named) (firstOutside_none_iff.mp none)
            · split at failed <;> cases failed
  · intro stuck
    cases stuck with
    | parameters isFunction => exact absurd isFunction isOne.noFunction
    | function isFunction => exact absurd isFunction isOne.noFunction
    | classLike _ noMember named unended =>
        obtain ⟨name, named⟩ := Option.isSome_iff_exists.mp named
        rw [classWord]
        simp only [noMember, named, firstOutside_none_iff.mpr unended, lineAt_of_getElem? here]
        rfl

/-- A function fails where its parameters are not closed or no end of its header is found. -/
theorem functionWord_error_iff (here : tokens[reader.pos]? = some token)
    (isOne : token.kind = .kwFunction) :
    reader.functionWord tokens = .error fault ↔ Stuck tokens reader token fault := by
  constructor
  · intro failed
    unfold functionWord at failed
    simp only at failed
    split at failed
    · cases failed
    · next isMember =>
        have noMember := eq_false_of_ne_true isMember
        split at failed
        · cases failed
        · next opening named =>
            split at failed
            · next opens =>
                obtain ⟨paren, isParen, kind⟩ := Tokens.kindAt_eq_some.mp (beq_iff_eq.mp opens)
                have isOpening : paren.kind = Bracket.paren.opening := kind
                split at failed
                · next fault search =>
                    cases failed
                    obtain ⟨rfl, never⟩ :=
                      (Tokens.closing_error_iff isParen isOpening _).mp search
                    exact .parameters isOne noMember named isParen kind never
                · next close closed =>
                    split at failed
                    · next none =>
                        rw [lineAt_of_getElem? here] at failed
                        cases failed
                        exact .function isOne noMember named opens closed
                          (firstOutside_none_iff.mp none)
                    · split at failed <;> cases failed
            · cases failed
  · intro stuck
    cases stuck with
    | parameters _ noMember named isParen opens never =>
        have isOpening : _ = Bracket.paren.opening := opens
        have search := (Tokens.closing_error_iff isParen isOpening _).mpr ⟨rfl, never⟩
        have isAt : tokens.isAt _ .openParen = true :=
          beq_iff_eq.mpr (Tokens.kindAt_eq_some.mpr ⟨_, isParen, opens⟩)
        rw [functionWord]
        simp only [noMember, named, isAt, search]
        rfl
    | function _ noMember named opens closed unended =>
        rw [functionWord]
        simp only [noMember, named, opens, closed, firstOutside_none_iff.mpr unended,
          lineAt_of_getElem? here]
        rfl
    | classLike isClass => exact absurd isOne isClass.noFunction

theorem step_of_class (isOne : DeclaresClass tokens reader token) :
    ∃ kind, reader.step tokens token = reader.classWord tokens kind := by
  unfold step
  rcases isOne with isOne | isOne | isOne | ⟨isOne, begins⟩
  · rw [isOne]
    exact ⟨_, rfl⟩
  · rw [isOne]
    exact ⟨_, rfl⟩
  · rw [isOne]
    exact ⟨_, rfl⟩
  · rw [isOne]
    exact ⟨_, if_pos begins⟩

theorem step_of_function (isOne : token.kind = .kwFunction) :
    reader.step tokens token = reader.functionWord tokens := by
  unfold step
  rw [isOne]
  rfl

theorem step_of_other (other : ¬ (token.kind = .kwFunction ∨ DeclaresClass tokens reader token)) :
    ∃ next, reader.step tokens token = .ok next := by
  rw [not_or] at other
  obtain ⟨noFunction, noClass⟩ := other
  unfold step
  split
  · exact ⟨_, rfl⟩
  · split
    · exact ⟨_, rfl⟩
    · split
      case h_3 isOne => exact absurd (.inl isOne) noClass
      case h_4 isOne => exact absurd (.inr (.inl isOne)) noClass
      case h_5 isOne => exact absurd (.inr (.inr (.inl isOne))) noClass
      case h_6 isOne =>
        split
        · next begins => exact absurd (.inr (.inr (.inr ⟨isOne, begins⟩))) noClass
        · split <;> exact ⟨_, rfl⟩
      case h_7 isOne => exact absurd isOne noFunction
      all_goals exact ⟨_, rfl⟩

/-- A move fails where the read is stuck. -/
theorem step_error_iff (here : tokens[reader.pos]? = some token) :
    reader.step tokens token = .error fault ↔ Stuck tokens reader token fault := by
  by_cases word : token.kind = .kwFunction ∨ DeclaresClass tokens reader token
  · rcases word with isOne | isOne
    · rw [step_of_function isOne, functionWord_error_iff here isOne]
    · obtain ⟨kind, same⟩ := step_of_class isOne
      rw [same, classWord_error_iff here isOne]
  · obtain ⟨next, same⟩ := step_of_other word
    rw [same]
    constructor
    · intro failed
      cases failed
    · intro stuck
      exact absurd stuck.word word

/-! ### Runs that fail -/

section Runs

variable (spelled : Spelled tokens) (tagged : Tagged tokens)
include spelled tagged

/-- A run with a step left for each token fails where some move fails. -/
theorem runWithin_error_iff {fuel : Nat} (reached : Reached tokens reader)
    (enough : tokens.size ≤ reader.pos + fuel) :
    runWithin tokens fuel reader = .error fault ↔
      ∃ last token, Relation.ReflTransGen (Moves tokens) reader last ∧
        tokens[last.pos]? = some token ∧ last.step tokens token = .error fault := by
  induction fuel generalizing reader with
  | zero =>
      constructor
      · intro failed
        cases failed
      · rintro ⟨last, token, later, here, -⟩
        have onward := reached.pos_le spelled tagged later
        have inside := lt_size here
        omega
  | succ fuel ih =>
      rw [runWithin]
      cases here : tokens[reader.pos]? with
      | none =>
          constructor
          · intro failed
            cases failed
          · rintro ⟨last, token, later, stands, -⟩
            have onward := reached.pos_le spelled tagged later
            have inside := lt_size stands
            have ended := Array.getElem?_eq_none_iff.mp here
            omega
      | some token =>
          simp only
          -- There is one first move, so a run to a failing state is empty or begins with it.
          cases moved : reader.step tokens token with
          | error other =>
              constructor
              · intro same
                exact ⟨reader, token, .refl, here, moved.trans same⟩
              · rintro ⟨last, found, later, stands, failed⟩
                rcases Relation.ReflTransGen.cases_head later with rfl | ⟨next, moves, -⟩
                · rw [here] at stands
                  cases stands
                  exact moved.symm.trans failed
                · obtain ⟨same, isOne, done⟩ := moves
                  rw [here] at isOne
                  cases isOne
                  rw [moved] at done
                  cases done
          | ok next =>
              have moves : Moves tokens reader next := ⟨token, here, moved⟩
              have onward := (moves.advances spelled tagged reached).1
              simp only
              rw [ih (reached.tail moves) (by omega)]
              constructor
              · rintro ⟨last, found, later, rest⟩
                exact ⟨last, found, .head moves later, rest⟩
              · rintro ⟨last, found, later, stands, failed⟩
                rcases Relation.ReflTransGen.cases_head later with rfl | ⟨other, first, rest⟩
                · rw [here] at stands
                  cases stands
                  rw [moved] at failed
                  cases failed
                · cases moves_unique moves first
                  exact ⟨last, found, rest, stands, failed⟩

/-- The read of all tokens fails where it is stuck. -/
theorem runWithin_start_error_iff : runWithin tokens tokens.size start = .error fault ↔
    ∃ reader token, Reached tokens reader ∧ tokens[reader.pos]? = some token ∧
      Stuck tokens reader token fault := by
  rw [runWithin_error_iff spelled tagged .refl (Nat.le_add_left _ _)]
  constructor
  · rintro ⟨reader, token, reached, here, failed⟩
    exact ⟨reader, token, reached, here, (step_error_iff here).mp failed⟩
  · rintro ⟨reader, token, reached, here, stuck⟩
    exact ⟨reader, token, reached, here, (step_error_iff here).mpr stuck⟩

end Runs

end Reader
end PhpWeave
