import PhpWeave.Proofs.Grammar.Report
import PhpWeave.Proofs.Text.Parent
import PhpWeave.Proofs.Weave.Edits
import PhpWeave.Proofs.Weave.Tokenwise

set_option autoImplicit false

/-!
Pinned paths, read back. Every word for a path in plain code gives way to a string in single quotes.
A scan finds one string there, whatever characters the path has, and undoing the escapes in it gives
the path. No such word is left.
-/

namespace PhpWeave

open Scan PhpWeave.Tree

namespace PathPin

/-! ### Strings in single quotes -/

/-- What a string in single quotes stands for, told by what is behind its first quote: a backslash
in front of a backslash or a quote stands for the latter, and in front of anything else for itself.
None when no quote closes the string, or something stands behind that quote. -/
def behindQuote? : Text → Option Text
  | [] => none
  | '\\' :: c :: rest =>
    (behindQuote? rest).map fun value =>
      if c = '\\' ∨ c = '\'' then c :: value else '\\' :: c :: value
  | ['\''] => some []
  | '\'' :: _ => none
  | c :: rest => (behindQuote? rest).map (c :: ·)

def valueOf? : Text → Option Text
  | '\'' :: rest => behindQuote? rest
  | _ => none

/-- A text is one string of the language, and stands for a value. -/
structure IsStringOf (text value : Text) : Prop where
  single : Fragment.shapes text = [(.quotedString, text)]
  value : valueOf? text = some value

theorem behindQuote?_escaped (path : Text) :
    behindQuote? (path.flatMap escaped ++ ['\'']) = some path := by
  induction path with
  | nil => rfl
  | cons c path ih =>
      rw [List.flatMap_cons, List.append_assoc]
      by_cases marked : c = '\\' ∨ c = '\''
      · have pair : escaped c = ['\\', c] := if_pos marked
        rw [pair, List.cons_append, List.singleton_append, behindQuote?, ih, Option.map_some,
          if_pos marked]
      · have single : escaped c = [c] := if_neg marked
        rw [not_or] at marked
        rw [single, List.singleton_append, behindQuote?, ih, Option.map_some]
        · exact fun _ _ same => absurd same marked.1
        · exact fun same => absurd same marked.2
        · exact fun same => absurd same marked.2

theorem isStringOf_literal (path : Text) : IsStringOf (literal path) path where
  single := by
    have alone := (stands_literal path).alone
    rw [spell, List.flatMap_singleton] at alone
    exact alone
  value := behindQuote?_escaped path

/-! ### Code -/

/-- What is put down for a token of plain code when a path is pinned. -/
structure PutDown (path : Path) (token : Token) (put : Text) : Prop where
  file : token.kind = .magicFile → IsStringOf put path
  directory : token.kind = .magicDir → IsStringOf put (path.parent?.getD [])
  other : token.kind ≠ .magicFile → token.kind ≠ .magicDir → put = token.text

/-- A piece of plain code with a path pinned. -/
structure PinsCode (path : Path) (code woven : Text) : Prop where
  told : ∃ put : Nat → Text, woven = (List.range (Fragment.tokens code).size).flatMap put ∧
    ∀ place token, (Fragment.tokens code)[place]? = some token →
      PutDown path token (put place) ∧
        -- A scan of the woven code finds what was put down, at the same place.
        (Fragment.tokens woven)[place]?.map shape = some (pinnedKind token.kind, put place)
  size : (Fragment.tokens woven).size = (Fragment.tokens code).size
  gone : ∀ token ∈ scan .php woven, token.kind ≠ .magicFile ∧ token.kind ≠ .magicDir

/-- A tree with a path pinned. -/
structure PinsTree (path : Path) (tree woven : Tree) : Prop where
  fragments : woven.editableNodes = tree.editableNodes
  code : ∀ id ∈ tree.editableNodes, ∃ body, woven.node id = { tree.node id with body := body } ∧
    PinsCode path (tree.node id).body body
  other : ∀ id, id ∉ tree.editableNodes → woven.node id = tree.node id

theorem putDown_choose (path : Path) {tokens : Tokens} {place : Nat} {token : Token}
    (here : tokens[place]? = some token) :
    PutDown path token ((choose path tokens place).getD (tokens.textAt place)) := by
  rw [choose, Tokens.isAt_of_getElem? here, Tokens.isAt_of_getElem? here,
    Tokens.textAt_of_getElem? here]
  constructor
  · intro isFile
    rw [isFile]
    exact isStringOf_literal path
  · intro isDirectory
    rw [isDirectory]
    exact isStringOf_literal _
  · intro notFile notDirectory
    rw [beq_false_of_ne notFile, beq_false_of_ne notDirectory]
    rfl

theorem pinned_shape (path : Path) {tokens : Tokens} {place : Nat} {token : Token}
    (here : tokens[place]? = some token) : pinned path (shape token) =
      (pinnedKind token.kind, (choose path tokens place).getD (tokens.textAt place)) := by
  rw [choose, Tokens.isAt_of_getElem? here, Tokens.isAt_of_getElem? here,
    Tokens.textAt_of_getElem? here]
  obtain ⟨kind, text, line⟩ := token
  cases kind <;> rfl

theorem shapes_pinned (path : Path) (code : Text) :
    Fragment.shapes (Fragment.edited (choose path) code) =
      (Fragment.shapes code).map (pinned path) := by
  rw [Fragment.shapes_edited (follows path), reworded_eq]

theorem not_magic_pinned (path : Path) (shape : Shape) :
    (pinned path shape).1 ≠ .magicFile ∧ (pinned path shape).1 ≠ .magicDir := by
  rw [pinned_kind]
  cases shape.1 <;> decide

theorem pinsCode_edited (path : Path) (code : Text) :
    PinsCode path code (Fragment.edited (choose path) code) := by
  have shapes := shapes_pinned path code
  refine ⟨⟨_, Fragment.edited_eq_flatMap (choose path) code, fun place token here => ?_⟩, ?_, ?_⟩
  · refine ⟨putDown_choose path here, ?_⟩
    have found : (Fragment.shapes code)[place]? = some (shape token) := by
      rw [Fragment.shapes, List.getElem?_map, ← List.getElem?_toArray, ← Fragment.tokens, here]
      rfl
    rw [← pinned_shape path here, Fragment.tokens, List.getElem?_toArray, ← List.getElem?_map,
      ← Fragment.shapes, shapes, List.getElem?_map, found]
    rfl
  · have length := congrArg List.length shapes
    rw [List.length_map, Fragment.shapes, Fragment.shapes, List.length_map, List.length_map]
      at length
    exact length
  · intro token member
    have among : shape token ∈ Fragment.shapes (Fragment.edited (choose path) code) :=
      List.mem_map_of_mem member
    rw [shapes] at among
    obtain ⟨old, -, same⟩ := List.mem_map.mp among
    have gone := not_magic_pinned path old
    rw [same] at gone
    exact gone

theorem pinsTree_editCode {tree : Tree} (linked : tree.Linked) (path : Path) :
    PinsTree path tree (tree.editCode (choose path)) := by
  have revision := Node.revision_edited (choose path)
  have node (id : Nat) := node_revise linked (Node.edited (choose path)) id
  have editable (id : Nat) :
      ((tree.node id).edited (choose path)).isEditable = (tree.node id).isEditable := by
    rw [Node.edited]
    split <;> rfl
  rw [editCode_eq linked]
  constructor
  case fragments =>
    rw [editableNodes, editableNodes, preorder_revise linked revision]
    refine List.filter_congr fun id member => ?_
    rw [node, if_pos member, editable]
  case code =>
    intro id member
    obtain ⟨among, isOne⟩ := List.mem_filter.mp member
    rw [node, if_pos among, Node.edited, if_pos isOne]
    exact ⟨_, rfl, pinsCode_edited path _⟩
  case other =>
    intro id outside
    rw [node]
    split
    · next among =>
        refine Node.edited_of_fixed (Bool.eq_false_iff.mpr fun isOne => ?_)
        exact outside (List.mem_filter.mpr ⟨among, isOne⟩)
    · rfl

/-! ### Files -/

/-- A file with a path pinned, told by its tokens. -/
structure PinsFile (path : Path) (tree woven : Tree) (tokens : Tokens) (stretches : List Stretch)
    (put : Nat → Text) : Prop where
  source : woven.source = (List.range tokens.size).flatMap put
  fixed : ∀ index token, tokens[index]? = some token →
    (∀ id, ¬ tree.HoldsCode stretches id index) → put index = token.text
  file : ∀ id index, tree.HoldsCode stretches id index →
    tokens.kindAt index = some .magicFile → IsStringOf (put index) path
  directory : ∀ id index, tree.HoldsCode stretches id index →
    tokens.kindAt index = some .magicDir → IsStringOf (put index) (path.parent?.getD [])

theorem pinsFile_editCode {tree : Tree} {source : Text} {stretches : List Stretch}
    (ranges : tree.Ranges (TokenStream.ofText .html source).tokens stretches)
    (linked : tree.Linked) (path : Path) :
    PinsFile path tree (tree.editCode (choose path)) (TokenStream.ofText .html source).tokens
      stretches (putAt stretches (TokenStream.ofText .html source).tokens
        (tree.editChoice (choose path))) := by
  have rewrites := tree.rewrites_edited (choose path)
  have magic {id index : Nat} {kind : TokenKind} (held : tree.HoldsCode stretches id index)
      (isAt : (TokenStream.ofText .html source).tokens.kindAt index = some kind)
      (noName : kind ≠ .identifier) : ∃ token, token.kind = kind ∧ PutDown path token
        (putAt stretches (TokenStream.ofText .html source).tokens
          (tree.editChoice (choose path)) index) := by
    obtain ⟨editable, first, stop, member, behind, early⟩ := held
    obtain ⟨-, each⟩ := ranges.piece_at member editable
    have whole : first + (index - first) = index := Nat.add_sub_cancel' behind
    obtain ⟨text, kinds⟩ := each (index - first) (by omega)
    rw [whole] at text kinds
    obtain ⟨token, here, isKind⟩ := Tokens.kindAt_eq_some.mp (kinds kind isAt noName)
    refine ⟨token, isKind, ?_⟩
    rw [ranges.putAt_eq member ⟨behind, early⟩, Stretch.putAt]
    simp only [editChoice, editable, if_true]
    rw [← text]
    exact putDown_choose path here
  constructor
  case source => exact ranges.source_editCode_eq linked (choose path)
  case fixed => exact fun _ _ here outside => ranges.putAt_fixed rewrites.inCode here outside
  case file =>
    intro id index held isFile
    obtain ⟨token, isKind, put⟩ := magic held isFile TokenKind.noConfusion
    exact put.file isKind
  case directory =>
    intro id index held isDirectory
    obtain ⟨token, isKind, put⟩ := magic held isDirectory TokenKind.noConfusion
    exact put.directory isKind

/-- What pinning a path does to a file: the fixed path goes before the one at hand. -/
structure Pins (pin : PathPin) (tree : Tree) (source : Text) (file : Option Path) : Prop where
  idle : pin.fixed.or file = none → (Weaver.weave pin tree file).2 = tree
  /-- The parent that the word for a directory stands for. -/
  parent : ∀ path, pin.fixed.or file = some path → path.DropsLast path.parent?
  code : ∀ path, pin.fixed.or file = some path →
    PinsTree path tree (Weaver.weave pin tree file).2
  told : ∀ path, pin.fixed.or file = some path → ∃ stretches,
    tree.Ranges (TokenStream.ofText .html source).tokens stretches ∧
      PinsFile path tree (Weaver.weave pin tree file).2 (TokenStream.ofText .html source).tokens
        stretches (putAt stretches (TokenStream.ofText .html source).tokens
          (tree.editChoice (choose path)))

/-- In every file that has a tree, each word for a path becomes one string that stands for the path
or its parent, and no such word is left. -/
theorem pins_of_parse {listLines : Bool} {source : Text} {tree : Tree}
    (parsed : parse listLines source = .ok tree) (pin : PathPin) (file : Option Path) :
    pin.Pins tree source file := by
  obtain ⟨events, stretches, told⟩ := told_of_parse parsed
  have linked := (native_of_parse parsed).linked
  constructor
  case idle =>
    intro absent
    rw [weave_eq, absent]
    rfl
  case parent => exact fun path _ => path.dropsLast_parent?
  case code =>
    intro path known
    rw [weave_eq, known]
    exact pinsTree_editCode linked path
  case told =>
    intro path known
    rw [weave_eq, known]
    exact ⟨stretches, told.ranges, pinsFile_editCode told.ranges linked path⟩

/-- A path with a quote in it and a backslash at its end. -/
theorem pins_of_parse_quoted :
    let source := "<?php f(__FILE__, __DIR__);".toList
    let path := "/it's/a\\".toList
    ∃ tree, parse false source = .ok tree ∧ Pins {} tree source (some path) ∧
      (Weaver.weave ({} : PathPin) tree (some path)).2.source =
        "<?php f('/it\\'s/a\\\\', '/it\\'s');".toList := by
  intro source path
  have closes : (parse false source).toBool = true := by decide +kernel
  have written : ((parse false source).toOption.map fun tree =>
      (Weaver.weave ({} : PathPin) tree (some path)).2.source) =
        some "<?php f('/it\\'s/a\\\\', '/it\\'s');".toList := by decide +kernel
  cases parsed : parse false source with
  | error fault =>
      rw [parsed] at closes
      cases closes
  | ok tree =>
      rw [parsed] at written
      exact ⟨tree, rfl, pins_of_parse parsed {} (some path), Option.some.inj written⟩

end PathPin
end PhpWeave
