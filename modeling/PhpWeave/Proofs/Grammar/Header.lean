import PhpWeave.Proofs.Grammar.Lookahead
import PhpWeave.Proofs.Token.Growth

set_option autoImplicit false

/-!
Headers in a token list that has grown. The name of a function, the name of a class-like declaration
and the end of each header are found by searches that stop at opening braces outside brackets, so
they are the same tokens in both lists.
-/

namespace PhpWeave.Reader

variable {isPut : Nat → Prop} {tokens others : Tokens} {index place : Nat} {token : Token}

theorem pastAmpersand_aligned (aligned : Aligned isPut tokens others index place) :
    Option.Rel (Aligned isPut tokens others) (pastAmpersand tokens index)
      (pastAmpersand others place) := by
  unfold pastAmpersand
  have found := aligned.nextSignificant
  generalize tokens.nextSignificant index = first at found ⊢
  generalize others.nextSignificant place = second at found ⊢
  cases found with
  | none => exact .none
  | @some index place same =>
      rw [Option.bind_some, Option.bind_some, same.isAt]
      split
      · next isOne =>
          obtain ⟨token, here, kind⟩ := Tokens.kindAt_eq_some.mp (eq_of_beq isOne)
          exact (same.next_of_kind here (kind ▸ TokenKind.noConfusion)).nextSignificant
      · exact .some same

theorem not_brace_of_isIdentifierLike (isOne : token.kind.isIdentifierLike = true) :
    token.kind ≠ .openBrace := fun brace => by
  rw [brace] at isOne
  cases isOne

theorem functionName_aligned (aligned : Aligned isPut tokens others (index + 1) (place + 1)) :
    (functionName others place).1 = (functionName tokens index).1 ∧
      Option.Rel (Aligned isPut tokens others) (functionName tokens index).2
        (functionName others place).2 := by
  unfold functionName
  have found := pastAmpersand_aligned aligned
  generalize pastAmpersand tokens (index + 1) = first at found ⊢
  generalize pastAmpersand others (place + 1) = second at found ⊢
  cases found with
  | none => exact ⟨rfl, .none⟩
  | @some index place same =>
      simp only [same.here]
      cases here : tokens[index]? with
      | none => exact ⟨rfl, .none⟩
      | some token =>
          simp only
          split
          · next isOne =>
              exact ⟨rfl, (same.next_of_kind here
                (not_brace_of_isIdentifierLike isOne)).nextSignificant⟩
          · exact ⟨rfl, .some same⟩

theorem className?_aligned (aligned : Aligned isPut tokens others index place)
    (next : Aligned isPut tokens others (index + 1) (place + 1)) :
    className? others place = className? tokens index := by
  unfold className?
  simp only [aligned.prevKind_new]
  split
  · rfl
  · have found := next.nextSignificant
    generalize tokens.nextSignificant (index + 1) = first at found ⊢
    generalize others.nextSignificant (place + 1) = second at found ⊢
    cases found with
    | none => rfl
    | some same => rw [Option.bind_some, Option.bind_some, same.here]

theorem scopeHeader_here (here : tokens[index]? = some token) (name : Text) :
    scopeHeader tokens (tokens.size - index) index name =
      if token.kind = .semicolon ∨ token.kind = .openBrace then some (index, name)
      else if token.kind = .identifier ∨ token.kind = .qualifiedName ∨
          (token.kind.isKeyword ∧ name = []) then
        scopeHeader tokens (tokens.size - (index + 1)) (index + 1) (name ++ token.text)
      else if token.kind.isTrivia then
        scopeHeader tokens (tokens.size - (index + 1)) (index + 1) name
      else none := by
  have inside := (Array.getElem?_eq_some_iff.mp here).1
  rw [show tokens.size - index = tokens.size - (index + 1) + 1 by omega, scopeHeader, here]

theorem scopeHeader_ended (ended : tokens[index]? = none) (name : Text) :
    scopeHeader tokens (tokens.size - index) index name = none := by
  have outside := Array.getElem?_eq_none_iff.mp ended
  rw [show tokens.size - index = 0 by omega, scopeHeader]

theorem scopeHeader_aligned (aligned : Aligned isPut tokens others index place) (name : Text) :
    Option.Rel (fun first second => Aligned isPut tokens others first.1 second.1 ∧
        second.2 = first.2)
      (scopeHeader tokens (tokens.size - index) index name)
      (scopeHeader others (others.size - place) place name) := by
  obtain ⟨left, behind⟩ : ∃ left, tokens.size - index = left := ⟨_, rfl⟩
  induction left generalizing index place name with
  | zero =>
      have ended : tokens[index]? = none := Array.getElem?_eq_none (by omega)
      rw [scopeHeader_ended ended, scopeHeader_ended (aligned.here.trans ended)]
      exact .none
  | succ left ih =>
      have here : tokens[index]? = some tokens[index] := Array.getElem?_eq_getElem (by omega)
      rw [scopeHeader_here here, scopeHeader_here (aligned.here.trans here)]
      split
      · exact .some ⟨aligned, rfl⟩
      · next goesOn =>
          have next := aligned.next_of_kind here fun brace => goesOn (.inr brace)
          split
          · exact ih next _ (by omega)
          · split
            · exact ih next _ (by omega)
            · exact .none

theorem headerEnd_aligned (aligned : Aligned isPut tokens others index place) {last : Nat}
    (search : tokens.firstOutside [.openBrace, .semicolon] index = some last) :
    index ≤ last ∧ (∃ token, tokens[last]? = some token) ∧
      ∃ otherLast, others.firstOutside [.openBrace, .semicolon] place = some otherLast ∧
        Aligned isPut tokens others last otherLast := by
  obtain ⟨behind, kind, isThere, -⟩ := Tokens.firstOutside_some search
  obtain ⟨ending, there, -⟩ := Tokens.kindAt_eq_some.mp isThere
  have found : Option.Rel (Aligned isPut tokens others)
      (tokens.firstOutside [.openBrace, .semicolon] index)
      (others.firstOutside [.openBrace, .semicolon] place) :=
    aligned.firstOutside List.mem_cons_self
  rw [search] at found
  generalize others.firstOutside [.openBrace, .semicolon] place = second at found ⊢
  cases found with
  | some same => exact ⟨behind, ⟨ending, there⟩, _, rfl, same⟩

theorem functionHeader_aligned (aligned : Aligned isPut tokens others index place)
    {close last : Nat} (closing : tokens.closing .paren index = .ok close)
    (search : tokens.firstOutside [.openBrace, .semicolon] (close + 1) = some last) :
    (∃ token, tokens[last]? = some token) ∧
      ∃ otherClose otherLast, others.closing .paren place = .ok otherClose ∧
        others.firstOutside [.openBrace, .semicolon] (otherClose + 1) = some otherLast ∧
        Aligned isPut tokens others last otherLast := by
  obtain ⟨otherClose, otherClosing, same⟩ := aligned.closing closing
  obtain ⟨ending, here, closes⟩ := Tokens.kindAt_eq_some.mp (Tokens.closing_kind closing)
  have behind := same.next_of_kind here (closes ▸ TokenKind.noConfusion)
  obtain ⟨-, there, otherLast, otherSearch, sameLast⟩ := headerEnd_aligned behind search
  exact ⟨there, otherClose, otherLast, otherClosing, otherSearch, sameLast⟩

end PhpWeave.Reader
