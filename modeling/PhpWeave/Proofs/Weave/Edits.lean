import PhpWeave.Proofs.Text.Pieces
import PhpWeave.Proofs.Weave.Fragment
import PhpWeave.Proofs.Weave.Lines
import PhpWeave.Weave.Words

set_option autoImplicit false

/-!
Edits of code keep lines when every replacement has the line feeds of its token. The tokens that the
hook for exits and pinned paths replace are words, and what they put in their place has no line feed
when the hook and the path have none.
-/

namespace PhpWeave

open PhpWeave.Tree

variable {tree : Tree} {feeds : Nat}

def KeepsTokenFeeds (choose : Tokens → Nat → Option Text) : Prop :=
  ∀ code index token, (Fragment.tokens code)[index]? = some token → ∀ text,
    choose (Fragment.tokens code) index = some text → Text.newlines text = Text.newlines token.text

theorem mem_preorder_of_editable {id : Nat} (member : id ∈ tree.editableNodes) :
    id ∈ tree.preorder root ∧ (tree.node id).isEditable = true := List.mem_filter.mp member

theorem Tree.Lined.written_of_editable (lined : tree.Lined feeds) {id : Nat}
    (member : id ∈ tree.editableNodes) : (tree.node id).flags.synthetic = false := by
  obtain ⟨reached, editable⟩ := mem_preorder_of_editable member
  refine lined.not_synthetic reached fun injected => ?_
  rw [Node.isEditable, injected] at editable
  simp [Flags.injectedCode] at editable

theorem Tree.Lined.editCode (lined : tree.Lined feeds) {choose : Tokens → Nat → Option Text}
    (neutral : KeepsTokenFeeds choose) : (tree.editCode choose).Lined feeds := by
  have all : (tree.editCode choose).Lined feeds ∧
      ∀ id, ((tree.editCode choose).node id).flags = (tree.node id).flags := by
    unfold Tree.editCode
    refine List.foldlRecOn tree.editableNodes (Tree.editNode choose)
      (motive := fun edited => edited.Lined feeds ∧
        ∀ id, (edited.node id).flags = (tree.node id).flags) ⟨lined, fun _ => rfl⟩ ?_
    rintro edited ⟨kept, flags⟩ id member
    unfold Tree.editNode
    split
    · exact ⟨kept, flags⟩
    · next body replaced =>
        refine ⟨kept.setBody ?_ (Fragment.newlines_replace (neutral _) replaced), fun other => ?_⟩
        · rw [flags]
          exact lined.written_of_editable member
        · exact (node_setBody_property _ Node.flags (fun _ _ => rfl) id body other).trans
            (flags other)
  exact all.1

namespace ExitHook

theorem keepsTokenFeeds (exitHook : ExitHook) (oneLine : '\n' ∉ exitHook.hook) :
    KeepsTokenFeeds exitHook.choose := by
  intro code index token here text choice
  unfold choose at choice
  split at choice
  · next isExit =>
      have isAt := eq_of_beq (Bool.and_eq_true_iff.mp isExit).1
      rw [Text.newlines_eq_zero (Fragment.oneLine_of_kindAt here isAt rfl)]
      refine Text.newlines_eq_zero ?_
      split at choice
      · cases choice
        exact oneLine
      · cases choice
        simp [oneLine]
  · cases choice

end ExitHook

namespace Path

theorem oneLine_parent? {path parent : Path} (oneLine : '\n' ∉ path)
    (found : path.parent? = some parent) : '\n' ∉ parent := by
  unfold parent? at found
  simp only at found
  split at found
  · split at found
    · cases found
      exact List.not_mem_nil
    · cases found
  · next last earlier kept =>
      cases found
      intro feed
      rcases List.mem_append.mp feed with head | body
      · exact oneLine (List.mem_of_mem_take head)
      · rcases Text.mem_joinWith body with slash | ⟨piece, among, inPiece⟩
        · exact absurd slash (by decide)
        · have later : piece ∈ earlier :=
            (List.dropWhile_sublist _).subset (List.mem_reverse.mp among)
          have cut : last :: earlier ⊆
              (Text.splitAt '/' (path.drop (headLength path))).reverse := by
            rw [← kept]
            exact (List.dropWhile_sublist _).subset
          have isPiece := List.mem_reverse.mp (cut (List.mem_cons_of_mem _ later))
          exact oneLine (List.mem_of_mem_drop (Text.mem_of_mem_splitAt isPiece inPiece))

end Path

namespace PathPin

theorem weave_eq (pin : PathPin) (tree : Tree) (file : Option Path) :
    (Weaver.weave pin tree file).2 =
      ((pin.fixed.or file).map fun path => tree.editCode (choose path)).getD tree := by
  simp only [Weaver.weave]
  cases pin.fixed.or file <;> rfl

theorem oneLine_literal {text : Text} (oneLine : '\n' ∉ text) : '\n' ∉ literal text := by
  intro feed
  rw [literal, List.mem_append, List.mem_cons, List.mem_flatMap] at feed
  rcases feed with (quote | ⟨c, member, escape⟩) | quote
  · exact absurd quote (by decide)
  · unfold escaped at escape
    split at escape
    · next marked =>
        rcases List.mem_cons.mp escape with backslash | same
        · exact absurd backslash (by decide)
        · exact oneLine (List.mem_singleton.mp same ▸ member)
    · exact oneLine (List.mem_singleton.mp escape ▸ member)
  · exact absurd quote (by decide)

theorem keepsTokenFeeds {path : Path} (oneLine : '\n' ∉ path) : KeepsTokenFeeds (choose path) := by
  intro code index token here text choice
  unfold choose at choice
  split at choice
  · next isDir =>
      cases choice
      rw [Text.newlines_eq_zero (Fragment.oneLine_of_kindAt here (eq_of_beq isDir) rfl)]
      refine Text.newlines_eq_zero (oneLine_literal ?_)
      cases parent : path.parent? with
      | none => exact List.not_mem_nil
      | some above => exact Path.oneLine_parent? oneLine parent
  · split at choice
    · next isFile =>
        cases choice
        rw [Text.newlines_eq_zero (Fragment.oneLine_of_kindAt here (eq_of_beq isFile) rfl)]
        exact Text.newlines_eq_zero (oneLine_literal oneLine)
    · cases choice

end PathPin

end PhpWeave
