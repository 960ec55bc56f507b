import PhpWeave.Proofs.Token.Word
import PhpWeave.Weave.Weaver

set_option autoImplicit false

/-!
Edits of code by tokens. The tokens of a fragment spell it, so an edit is known by what it puts down
for each token; where every replacement has the line feeds of its token, so has the whole.
-/

namespace PhpWeave

theorem Text.newlines_eq_zero {text : Text} (oneLine : '\n' ∉ text) : newlines text = 0 :=
  List.count_eq_zero.mpr oneLine

namespace Fragment

theorem textOf_tokens (code : Text) : Token.textOf (tokens code).toList = code := by
  rw [tokens, List.toList_toArray, Scan.scan_eq]
  exact (Scan.tokensFrom_spells (Scan.State.start .php) code).1

def chosen (choose : Tokens → Nat → Option Text) (tokens : Tokens) : List (Option Text) :=
  (List.range tokens.size).map (choose tokens)

theorem length_chosen (choose : Tokens → Nat → Option Text) (tokens : Tokens) :
    (chosen choose tokens).length = tokens.toList.length := by
  rw [chosen, List.length_map, List.length_range, Array.length_toList]

theorem mem_chosen {choose : Tokens → Nat → Option Text} {tokens : Tokens}
    {entry : Token × Option Text} (member : entry ∈ tokens.toList.zip (chosen choose tokens)) :
    ∃ index, tokens[index]? = some entry.1 ∧ choose tokens index = entry.2 := by
  obtain ⟨index, inside, here⟩ := List.mem_iff_getElem.mp member
  rw [List.getElem_zip] at here
  refine ⟨index, ?_, ?_⟩
  · rw [List.length_zip] at inside
    rw [← here, ← Array.getElem?_toList]
    exact List.getElem?_eq_getElem _
  · rw [← here]
    simp [chosen]

def Neutral (entries : List (Token × Option Text)) : Prop :=
  ∀ entry ∈ entries, ∀ text, entry.2 = some text →
    Text.newlines text = Text.newlines entry.1.text

theorem newlines_put {entries : List (Token × Option Text)} (neutral : Neutral entries) :
    Text.newlines (entries.flatMap put) = Text.newlines (Token.textOf (entries.map Prod.fst)) := by
  induction entries with
  | nil => rfl
  | cons entry rest ih =>
      have here : Text.newlines (put entry) = Text.newlines entry.1.text := by
        unfold put
        cases choice : entry.2 with
        | none => rfl
        | some text => exact neutral entry List.mem_cons_self text choice
      rw [List.flatMap_cons, List.map_cons, Token.textOf_cons, Text.newlines_append,
        Text.newlines_append, here, ih fun later member =>
          neutral later (List.mem_cons_of_mem _ member)]

theorem newlines_replace {choose : Tokens → Nat → Option Text} {code body : Text}
    (neutral : ∀ index token, (tokens code)[index]? = some token → ∀ text,
      choose (tokens code) index = some text → Text.newlines text = Text.newlines token.text)
    (replaced : replace choose code = some body) : Text.newlines body = Text.newlines code := by
  unfold replace at replaced
  simp only at replaced
  split at replaced
  · cases replaced
    have all : Neutral ((tokens code).toList.zip (chosen choose (tokens code))) := by
      intro entry member text choice
      obtain ⟨index, here, chose⟩ := mem_chosen member
      exact neutral index entry.1 here text (chose.trans choice)
    have spelled := newlines_put all
    rw [List.map_fst_zip (Nat.le_of_eq (length_chosen _ _).symm), textOf_tokens] at spelled
    exact spelled
  · cases replaced

theorem worded_tokens (code : Text) : Worded (tokens code) := worded_scan .php code

theorem oneLine_of_kindAt {code : Text} {index : Nat} {token : Token} {kind : TokenKind}
    (here : (tokens code)[index]? = some token) (isAt : (tokens code).kindAt index = some kind)
    (isWord : kind.isIdentifierLike = true) : '\n' ∉ token.text := by
  rw [Tokens.kindAt, here] at isAt
  cases isAt
  exact (worded_tokens code).oneLine (Array.mem_of_getElem? here) isWord

end Fragment
end PhpWeave
