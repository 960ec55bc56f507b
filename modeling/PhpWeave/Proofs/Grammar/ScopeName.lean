import PhpWeave.Proofs.Grammar.Listing
import PhpWeave.Proofs.Grammar.Reported
import PhpWeave.Proofs.Token.Word

set_option autoImplicit false

/-!
The names of namespaces. A header spells its name with the words between `namespace` and its end,
none of which begins with a backslash or ends in one, so neither does the name.
-/

namespace PhpWeave

open Lexeme

structure IsRelative (name : Text) : Prop where
  isName : IsName name
  unrooted : startsWhere (· == '\\') name = false

theorem IsRelative.append {front rest : Text} (relative : IsRelative front)
    (further : IsRelative rest) : IsRelative (front ++ rest) where
  isName := relative.isName.append further.isName
  unrooted := by
    cases front with
    | nil => exact further.unrooted
    | cons c front => exact relative.unrooted

theorem Lexeme.IsName.getLast_ne {name : Text} (isName : IsName name) (some : name ≠ []) :
    name.getLast some ≠ '\\' := by
  induction name with
  | nil => exact absurd rfl some
  | cons c rest ih =>
      cases rest with
      | nil =>
          intro isSlash
          rw [List.getLast_singleton] at isSlash
          have length : name ['\\'] = 1 := isSlash ▸ isName
          exact absurd length (by decide)
      | cons d rest =>
          rw [List.getLast_cons_cons]
          exact ih isName.behind (List.cons_ne_nil d rest)

theorem Worded.relative {tokens : Tokens} (worded : Worded tokens) {token : Token}
    (member : token ∈ tokens) (isWord : token.kind.isIdentifierLike = true)
    (unrooted : token.kind ≠ .fullyQualifiedName) : IsRelative token.text := by
  obtain ⟨isName, begins⟩ := worded token member isWord
  refine ⟨isName, ?_⟩
  obtain ⟨c, rest, text, starts⟩ := startsWhere_true (begins unrooted)
  rw [text]
  exact beq_false_of_ne (ne_of_class starts '\\' rfl)

namespace Reader

variable {tokens : Tokens}

theorem scopeHeader_relative (worded : Worded tokens) {count index last : Nat}
    {collected name : Text} (relative : IsRelative collected)
    (header : scopeHeader tokens count index collected = some (last, name)) :
    IsRelative name := by
  induction count generalizing index collected with
  | zero => cases header
  | succ count ih =>
      rw [scopeHeader] at header
      split at header
      · cases header
      · next token here =>
          split at header
          · cases header
            exact relative
          · split at header
            · next isPart =>
                have member := Array.mem_of_getElem? here
                refine ih (relative.append (worded.relative member ?_ ?_)) header
                · rcases isPart with isOne | isOne | isOne
                  · rw [isOne]; rfl
                  · rw [isOne]; rfl
                  · rw [TokenKind.isIdentifierLike, isOne.1, Bool.or_true]
                · intro rooted
                  rw [rooted] at isPart
                  rcases isPart with isOne | isOne | isOne
                  · cases isOne
                  · cases isOne
                  · cases isOne.1
            · split at header
              · exact ih relative header
              · cases header

end Reader

theorem Node.eq_of_declaration? {node : Node} {declared : NodeKind × Text × Bool}
    (declares : node.declaration? = some declared) :
    declared = (node.kind, node.name, node.flags.hasBody) := by
  unfold Node.declaration? at declares
  split at declares <;> first | exact (Option.some.inj declares).symm | cases declares

theorem Event.Reported.scope_relative {tokens : Tokens} (worded : Worded tokens) {event : Event}
    (reported : event.Reported tokens) {name : Text} {hasBody : Bool}
    (declares : event.declaration? = some (.scope, name, hasBody)) : IsRelative name := by
  have node {node : Node} (reported : node.Reported tokens)
      (declares : node.declaration? = some (.scope, name, hasBody)) : IsRelative name := by
    obtain ⟨isScope, named, -⟩ : .scope = node.kind ∧ name = node.name ∧ _ := by
      have same := Node.eq_of_declaration? declares
      rwa [Prod.mk.injEq, Prod.mk.injEq] at same
    obtain ⟨first, count, last, -, header⟩ := reported.scope isScope.symm
    rw [named]
    exact Reader.scopeHeader_relative worded ⟨show Lexeme.name [] = 0 from rfl, rfl⟩ header
  cases event with
  | leaf one first last => exact node reported declares
  | enter one first last => exact node reported declares
  | leave close last => cases declares
  | yields => cases declares
  | imports entries => cases declares

namespace Tree

/-- The names of the namespaces of a tree, in preorder. -/
def scopeNames (tree : Tree) : List Text :=
  tree.declarations.filterMap fun declared => if declared.1 = .scope then some declared.2.1 else none

theorem scopeName_relative {listLines : Bool} {source : Text} {tree : Tree}
    (parsed : parse listLines source = .ok tree) {name : Text} (member : name ∈ tree.scopeNames) :
    IsRelative name := by
  obtain ⟨events, read, declared⟩ := declarations_of_parse parsed
  obtain ⟨⟨kind, spelled, hasBody⟩, among, isScope⟩ := List.mem_filterMap.mp member
  rw [declared] at among
  obtain ⟨event, reported, declares⟩ := List.mem_filterMap.mp among
  simp only [Option.ite_none_right_eq_some, Option.some.injEq] at isScope
  obtain ⟨rfl, rfl⟩ := isScope
  exact (Reader.reported_eventsOf read event reported).scope_relative
    (worded_scan .html source) declares

end Tree
end PhpWeave
