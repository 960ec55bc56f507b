import PhpWeave.Grammar.Construct
import PhpWeave.Proofs.Token.Search

set_option autoImplicit false

/-!
How far the reader looks ahead. Every header ends at a token that lies behind the word it begins
with, and modifiers in front of a word reach back to the pending tokens at most.
-/

namespace PhpWeave

namespace Tokens

variable {tokens : Tokens}

theorem outsideWithin_some {kinds : List TokenKind} {count depth index found : Nat}
    (search : tokens.outsideWithin kinds count depth index = some found) :
    index ≤ found ∧ ∃ kind, tokens.kindAt found = some kind ∧ kind ∈ kinds := by
  induction count generalizing depth index with
  | zero => cases search
  | succ count ih =>
      have later {depth : Nat}
          (search : tokens.outsideWithin kinds count depth (index + 1) = some found) :
          index ≤ found ∧ ∃ kind, tokens.kindAt found = some kind ∧ kind ∈ kinds := by
        obtain ⟨behind, rest⟩ := ih search
        exact ⟨Nat.le_of_succ_le behind, rest⟩
      rw [outsideWithin] at search
      split at search
      · cases search
      · next kind here =>
          split at search
          · next outside =>
              cases search
              exact ⟨Nat.le_refl _, kind, here, outside.2⟩
          · split at search <;> exact later search

theorem firstOutside_some {kinds : List TokenKind} {index found : Nat}
    (search : tokens.firstOutside kinds index = some found) :
    index ≤ found ∧ ∃ kind, tokens.kindAt found = some kind ∧ kind ∈ kinds :=
  outsideWithin_some search

end Tokens

namespace Reader

variable {tokens : Tokens}

theorem scopeHeader_some {count index last : Nat} {collected name : Text}
    (header : scopeHeader tokens count index collected = some (last, name)) :
    index ≤ last ∧
      (tokens.kindAt last = some .semicolon ∨ tokens.kindAt last = some .openBrace) := by
  induction count generalizing index collected with
  | zero => cases header
  | succ count ih =>
      have later {collected : Text}
          (header : scopeHeader tokens count (index + 1) collected = some (last, name)) :
          index ≤ last ∧
            (tokens.kindAt last = some .semicolon ∨ tokens.kindAt last = some .openBrace) := by
        obtain ⟨behind, ends⟩ := ih header
        exact ⟨Nat.le_of_succ_le behind, ends⟩
      rw [scopeHeader] at header
      split at header
      · cases header
      · next token here =>
          split at header
          · next ends =>
              cases header
              refine ⟨Nat.le_refl _, ends.imp ?_ ?_⟩
              · exact fun isOne => Tokens.kindAt_eq_some.mpr ⟨token, here, isOne⟩
              · exact fun isOne => Tokens.kindAt_eq_some.mpr ⟨token, here, isOne⟩
          · split at header
            · exact later header
            · split at header
              · exact later header
              · cases header

theorem modifierRun_bounds {pending : Nat} (index : Nat) {found : Nat}
    (pendingBefore : pending ≤ found) (behind : index ≤ found) :
    pending ≤ modifierRun tokens pending index found ∧
      modifierRun tokens pending index found ≤ found := by
  induction index generalizing found with
  | zero => exact ⟨pendingBefore, Nat.le_refl _⟩
  | succ index ih =>
      rw [modifierRun]
      split
      · exact ⟨pendingBefore, Nat.le_refl _⟩
      · next inside =>
          split
          · exact ⟨pendingBefore, Nat.le_refl _⟩
          · split
            · have bounds : pending ≤ modifierRun tokens pending index index ∧
                  modifierRun tokens pending index index ≤ index := ih (by omega) (Nat.le_refl _)
              omega
            · split
              · exact ih pendingBefore (by omega)
              · exact ⟨pendingBefore, Nat.le_refl _⟩

theorem modifierStart_bounds (tokens : Tokens) {reader : Reader} {index : Nat}
    (before : reader.pending ≤ index) :
    reader.pending ≤ modifierStart tokens reader index ∧
      modifierStart tokens reader index ≤ index :=
  modifierRun_bounds index before (Nat.le_refl _)

theorem pastAmpersand_ge {index found : Nat} (search : pastAmpersand tokens index = some found) :
    index ≤ found := by
  obtain ⟨first, significant, later⟩ := Option.bind_eq_some_iff.mp search
  have before := Tokens.nextSignificant_ge significant
  split at later
  · have behind := Tokens.nextSignificant_ge later
    omega
  · cases later
    exact before

theorem pastAmpersand_lt {index found : Nat} (search : pastAmpersand tokens index = some found) :
    found < tokens.size := by
  obtain ⟨first, significant, later⟩ := Option.bind_eq_some_iff.mp search
  split at later
  · exact Tokens.nextSignificant_lt later
  · cases later
    exact Tokens.nextSignificant_lt significant

theorem functionName_ge {index opening : Nat}
    (search : (functionName tokens index).2 = some opening) : index < opening := by
  unfold functionName at search
  split at search
  · cases search
  · next found word =>
      have before := pastAmpersand_ge word
      split at search
      · cases search
      · split at search
        · have behind := Tokens.nextSignificant_ge search
          omega
        · cases search
          exact before

theorem functionName_lt {index opening : Nat}
    (search : (functionName tokens index).2 = some opening) : opening < tokens.size := by
  unfold functionName at search
  split at search
  · cases search
  · next found word =>
      split at search
      · cases search
      · split at search
        · exact Tokens.nextSignificant_lt search
        · cases search
          exact pastAmpersand_lt word

end Reader
end PhpWeave
