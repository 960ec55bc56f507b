import PhpWeave.Proofs.Grammar.Member

set_option autoImplicit false

/-!
The headers of classes and what is like them. In front of the word that declares a class stand its
modifiers with white space between them, as many as there are; a comment ends the list. A class is
sealed when one of them is the word `final`.
-/

namespace PhpWeave

/-- Nothing but modifiers and white space stands from one position up to another. -/
def Tokens.Leads (tokens : Tokens) (first stop : Nat) : Prop :=
  ∀ index, first ≤ index → index < stop →
    ∃ kind, tokens.kindAt index = some kind ∧ kind.leads = true

namespace Tree

/-- The header of a class-like declaration, with its modifiers from `first` up to the word that
declares it. -/
structure ClassHeader (tree : Tree) (tokens : Tokens) (stretches : List Stretch)
    (id first word last : Nat) : Prop where
  among : ⟨.body id, first, last + 1⟩ ∈ stretches
  first_le : first ≤ word
  word_le : word ≤ last
  leads : tokens.Leads first word
  /-- No modifier stands in front of the first one; there may be white space. -/
  longest : ∀ index, index < first → tokens.Leads index first →
    tokens.kindAt index = some .whitespace
  declares : ∃ token, tokens[word]? = some token ∧ (token.kind = .kwClass ∨
    token.kind = .kwInterface ∨ token.kind = .kwTrait ∨
      token.kind = .identifier ∧ token.isWord "enum" = true)
  seals : (tree.node id).flags.sealed = true ↔
    ∃ index, first ≤ index ∧ index < word ∧ tokens.kindAt index = some .kwFinal

end Tree

namespace Reader

variable {tokens : Tokens} {reader : Reader} {token : Token}

/-- A run of modifiers reaches back as far as there are any, among the pending tokens. -/
theorem modifierRun_longest {pending : Nat} (index : Nat) {found : Nat} (order : index ≤ found)
    (blank : ∀ other, index ≤ other → other < found → tokens.kindAt other = some .whitespace) :
    ∀ other, pending ≤ other → other < modifierRun tokens pending index found →
      tokens.Leads other (modifierRun tokens pending index found) →
        tokens.kindAt other = some .whitespace := by
  induction index generalizing found with
  | zero => exact fun other _ early _ => blank other (Nat.zero_le _) early
  | succ index ih =>
      rw [modifierRun]
      -- A token that is no part of a run stands in the way of every longer one.
      have stops (apart : ∀ kind, tokens.kindAt index = some kind → kind.leads = false)
          (other : Nat) (early : other < found) (leads : tokens.Leads other found) :
          tokens.kindAt other = some .whitespace := by
        rcases Nat.lt_or_ge index other with behind | before
        · exact blank other behind early
        · obtain ⟨kind, here, leading⟩ := leads index before order
          rw [apart kind here] at leading
          cases leading
      split
      · exact fun other behind early _ => blank other (by omega) early
      · split
        · next none =>
            refine fun other _ => stops (fun kind here => ?_) other
            rw [none] at here
            cases here
        · next kind here =>
            split
            · exact ih (Nat.le_refl index) fun other behind early =>
                absurd behind (Nat.not_le_of_lt early)
            · next noModifier =>
                split
                · next isBlank =>
                    refine ih (Nat.le_of_succ_le order) fun other behind early => ?_
                    rcases Nat.eq_or_lt_of_le behind with rfl | past
                    · rw [here, isBlank]
                    · exact blank other past early
                · next noBlank =>
                    refine fun other _ => stops (fun same isAt => ?_) other
                    cases here.symm.trans isAt
                    rw [TokenKind.leads, eq_false_of_ne_true noModifier, decide_eq_false noBlank]
                    rfl

theorem leads_of_ends {kind : TokenKind} (ends : kind.seals = true ∨ kind = .closeBrace) :
    kind.leads = false := by
  rcases ends with ends | rfl
  · cases kind <;> first | rfl | cases ends
  · rfl

theorem blank_of_leads {kind : TokenKind} (leads : kind.leads = true)
    (trivia : kind.isTrivia = true) : kind = .whitespace := by
  cases kind <;> first | rfl | exact absurd trivia Bool.false_ne_true |
    exact absurd leads Bool.false_ne_true

theorem modifierStart_longest (order : reader.pending ≤ reader.pos) (cut : Cut tokens reader)
    {index : Nat} (early : index < modifierStart tokens reader reader.pos)
    (leads : tokens.Leads index (modifierStart tokens reader reader.pos)) :
    tokens.kindAt index = some .whitespace := by
  have bounds := modifierStart_bounds tokens order
  rcases Nat.lt_or_ge index reader.pending with before | pending
  · -- What ended in front of the pending tokens is no modifier.
    rcases cut with isZero | ⟨kind, here, ends⟩
    · omega
    · obtain ⟨other, same, leading⟩ := leads (reader.pending - 1) (by omega) (by omega)
      cases here.symm.trans same
      rw [leads_of_ends ends] at leading
      cases leading
  · exact modifierRun_longest reader.pos (Nat.le_refl _)
      (fun other behind early => absurd behind (Nat.not_le_of_lt early)) index pending early leads

theorem new_longest {word index : Nat} (inside : word ≤ tokens.size)
    (fresh : tokens.prevKind word = some .kwNew) (early : index < word)
    (leads : tokens.Leads index word) : tokens.kindAt index = some .whitespace := by
  obtain ⟨before, found, isNew⟩ := Option.bind_eq_some_iff.mp fresh
  rw [Tokens.prevSignificant, Tokens.lastBefore, Nat.min_eq_left inside] at found
  obtain ⟨isBefore, -, between⟩ := Tokens.lastBelow_some found
  rcases Nat.lt_or_ge before index with behind | front
  · obtain ⟨kind, here, leading⟩ := leads index (Nat.le_refl _) early
    obtain ⟨token, isAt, rfl⟩ := Tokens.kindAt_eq_some.mp here
    have trivia := between index behind early token isAt
    rw [Tokens.isSignificant, Bool.not_eq_false'] at trivia
    rw [here, blank_of_leads leading trivia]
  · obtain ⟨kind, here, leading⟩ := leads before front isBefore
    cases isNew.symm.trans here
    cases leading

end Reader

section Whole

variable {tokens : Tokens} {events : List Event} {tree : Tree} {stretches : List Stretch}
  (told : Told tokens events tree stretches) (spelled : Spelled tokens) (tagged : Tagged tokens)
include told spelled tagged

theorem Told.classHeader {id : Nat} (inside : id < tree.size) (below : Tree.root < id)
    (isClass : (tree.node id).kind.isClassLike = true) :
    ∃ first word last, tree.ClassHeader tokens stretches id first word last := by
  obtain ⟨before, event, node, first, last, member, reports, housed⟩ :=
    told.exists_housed inside below
  rw [housed.property (fun node => node.kind.isClassLike) fun _ => rfl] at isClass
  obtain ⟨sort, kind⟩ : ∃ sort, node.kind = .classLike sort := by
    cases kind : node.kind <;> rw [kind] at isClass <;> first | exact ⟨_, rfl⟩ | cases isClass
  obtain ⟨reader, token, reached, here, header⟩ := Reader.header_of_eventsOf spelled tagged
    told.read event member node first last reports (by rw [kind]; exact NodeKind.noConfusion)
  have declares := header.declares
  rw [Reader.Declares, kind] at declares
  obtain ⟨isWord, -, flags, start⟩ := declares
  refine ⟨first, reader.pos, last, housed.among, header.first_le, header.pos_le, header.leads,
    fun index early leads => ?_, ⟨token, here, isWord⟩, ?_⟩
  · rcases start with rfl | ⟨rfl, fresh⟩
    · obtain ⟨frames, sound⟩ := reached.sound spelled tagged
      exact Reader.modifierStart_longest sound.pending_le (reached.cut spelled tagged) early leads
    · exact Reader.new_longest (Nat.le_of_lt (Reader.lt_size here)) fresh early leads
  · rw [housed.property (fun node => node.flags.sealed) fun _ => rfl, flags]
    refine (Tokens.any_extract_iff (p := fun kind => kind = .kwFinal)).trans ?_
    simp only [decide_eq_true_eq]
    constructor
    · rintro ⟨index, _, behind, early, isOne, rfl⟩
      exact ⟨index, behind, early, isOne⟩
    · rintro ⟨index, behind, early, isOne⟩
      exact ⟨index, _, behind, early, isOne, rfl⟩

end Whole
end PhpWeave
