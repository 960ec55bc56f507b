import PhpWeave.Proofs.Grammar.Enclosure
import PhpWeave.Proofs.Weave.Retelling

set_option autoImplicit false

/-!
Woven files, told token by token. A weaver that puts texts in the place of some tokens of plain code
is known by what it chooses for each place in the code of a node. What it writes for the parts of a
file is then what it puts down for one token after another.
-/

namespace PhpWeave

open Scan PhpWeave.Tree

namespace Tokens

variable {tokens : Tokens}

def textAt (tokens : Tokens) (index : Nat) : Text := (tokens[index]?.map Token.text).getD []

theorem isAt_of_getElem? {index : Nat} {token : Token} (here : tokens[index]? = some token)
    (kind : TokenKind) : tokens.isAt index kind = (token.kind == kind) := by
  rw [isAt, kindAt, here]
  rfl

theorem textAt_of_getElem? {index : Nat} {token : Token} (here : tokens[index]? = some token) :
    tokens.textAt index = token.text := by
  rw [textAt, here]
  rfl

theorem textBetween_eq_flatMap {first stop : Nat} (within : stop ≤ tokens.size) :
    tokens.textBetween first stop = (List.range' first (stop - first)).flatMap tokens.textAt := by
  rw [textBetween, Token.textOf, List.flatMap_def, List.flatMap_def]
  congr 1
  apply List.ext_getElem
  · rw [List.length_map, List.length_map, Array.length_toList, Array.size_extract,
      Nat.min_eq_left within, List.length_range']
  · intro place inside _
    rw [List.length_map, Array.length_toList, Array.size_extract, Nat.min_eq_left within] at inside
    have here : tokens[first + place]? = some tokens[first + place] :=
      Array.getElem?_eq_getElem (by omega)
    rw [List.getElem_map, List.getElem_map, List.getElem_range', Nat.one_mul,
      textAt_of_getElem? here, Array.getElem_toList, Array.getElem_extract]

end Tokens

namespace Stretch

/-- What is put down for a token of a range: what is chosen for its place in the code of its node,
or the token itself. -/
def putAt (chosen : Nat → Nat → Option Text) (tokens : Tokens) (stretch : Stretch) (index : Nat) :
    Text :=
  match stretch.part with
  | .body id => (chosen id (index - stretch.first)).getD (tokens.textAt index)
  | .close _ => tokens.textAt index

/-- What is told of one range of positions and of the next one is told of both. -/
theorem flatMap_range'_append {α : Type} (told : Nat → List α) {first middle stop : Nat}
    (before : first ≤ middle) (after : middle ≤ stop) :
    (List.range' first (middle - first)).flatMap told ++
        (List.range' middle (stop - middle)).flatMap told =
      (List.range' first (stop - first)).flatMap told := by
  have pieces : first + (middle - first) = middle := Nat.add_sub_of_le before
  have sizes : middle - first + (stop - middle) = stop - first := by omega
  rw [← List.flatMap_append, ← sizes, ← List.range'_append_1, pieces]

theorem Consecutive.flatMap_range {α : Type} {first stop : Nat} {stretches : List Stretch}
    (told : Nat → List α) (consecutive : Consecutive first stretches stop) :
    (stretches.flatMap fun stretch =>
      (List.range' stretch.first (stretch.stop - stretch.first)).flatMap told) =
        (List.range' first (stop - first)).flatMap told := by
  induction stretches generalizing first with
  | nil =>
      have same : first = stop := consecutive
      rw [same, Nat.sub_self]
      rfl
  | cons stretch rest ih =>
      obtain ⟨begins, order, later⟩ := consecutive
      rw [List.flatMap_cons, ih later, begins, flatMap_range'_append told order later.le]

end Stretch

namespace Tree

/-- What is put down for a token of a file. -/
def putAt (stretches : List Stretch) (tokens : Tokens) (chosen : Nat → Nat → Option Text)
    (index : Nat) : Text :=
  match stretches.find? fun stretch => stretch.first ≤ index ∧ index < stretch.stop with
  | none => []
  | some stretch => stretch.putAt chosen tokens index

/-- Something is chosen for places in plain code only. -/
def ChoosesCode (tree : Tree) (chosen : Nat → Nat → Option Text) : Prop :=
  ∀ id place text, chosen id place = some text → (tree.node id).isEditable = true

variable {tree : Tree} {stretches : List Stretch} {source : Text} {stretch : Stretch}
  {chosen : Nat → Nat → Option Text}

theorem Ranges.find?_eq {tokens : Tokens} (ranges : tree.Ranges tokens stretches) {index : Nat}
    (member : stretch ∈ stretches) (covers : stretch.Covers index) :
    (stretches.find? fun stretch => stretch.first ≤ index ∧ index < stretch.stop) =
      some stretch := by
  have inside : index < tokens.size :=
    Nat.lt_of_lt_of_le covers.2 (ranges.consecutive.stop_le _ member)
  cases search : stretches.find? fun stretch => stretch.first ≤ index ∧ index < stretch.stop with
  | none =>
      have misses := List.find?_eq_none.mp search stretch member
      rw [decide_eq_true_eq] at misses
      exact absurd covers misses
  | some found =>
      have holds := List.find?_some search
      rw [decide_eq_true_eq] at holds
      rw [ranges.same_part inside (List.mem_of_find?_eq_some search) member holds covers]

theorem Ranges.putAt_eq {tokens : Tokens} (ranges : tree.Ranges tokens stretches) {index : Nat}
    (member : stretch ∈ stretches) (covers : stretch.Covers index) :
    putAt stretches tokens chosen index = stretch.putAt chosen tokens index := by
  rw [putAt, ranges.find?_eq member covers]

/-- A token of a file is put down as it is, or something was chosen for it in a piece of plain
code. -/
theorem Ranges.putAt_cases {tokens : Tokens} (ranges : tree.Ranges tokens stretches)
    (inCode : tree.ChoosesCode chosen) {index : Nat} {token : Token}
    (here : tokens[index]? = some token) :
    putAt stretches tokens chosen index = token.text ∨
      ∃ id first stop text, ⟨.body id, first, stop⟩ ∈ stretches ∧
        (tree.node id).isEditable = true ∧ first ≤ index ∧ index < stop ∧
          chosen id (index - first) = some text := by
  obtain ⟨inside, -⟩ := Array.getElem?_eq_some_iff.mp here
  obtain ⟨⟨part, first, stop⟩, ⟨member, behind, early⟩, -⟩ :=
    ranges.consecutive.existsUnique (Nat.zero_le index) inside
  rw [ranges.putAt_eq member ⟨behind, early⟩, Stretch.putAt, Tokens.textAt_of_getElem? here]
  cases part with
  | close id => exact .inl rfl
  | body id =>
      cases choice : chosen id (index - first) with
      | none =>
          left
          simp only [choice, Option.getD_none]
      | some text =>
          exact .inr ⟨id, first, stop, text, member, inCode _ _ _ choice, behind, early, choice⟩

/-- Outside of plain code every token is put down as it is. -/
theorem Ranges.putAt_fixed {tokens : Tokens} (ranges : tree.Ranges tokens stretches)
    (inCode : tree.ChoosesCode chosen) {index : Nat} {token : Token}
    (here : tokens[index]? = some token) (outside : ∀ id, ¬ tree.HoldsCode stretches id index) :
    putAt stretches tokens chosen index = token.text := by
  rcases ranges.putAt_cases inCode here with same |
    ⟨id, first, stop, text, member, editable, behind, early, -⟩
  · exact same
  · exact absurd ⟨editable, first, stop, member, behind, early⟩ (outside id)

/-- The text of each token of a piece of plain code, and its kind when that is no plain name. -/
theorem Ranges.piece_at
    (ranges : tree.Ranges (TokenStream.ofText .html source).tokens stretches) {id first stop : Nat}
    (member : ⟨.body id, first, stop⟩ ∈ stretches) (editable : (tree.node id).isEditable = true) :
    (Fragment.tokens (tree.node id).body).size = stop - first ∧
      ∀ place < stop - first,
        (Fragment.tokens (tree.node id).body).textAt place =
            (TokenStream.ofText .html source).tokens.textAt (first + place) ∧
          ∀ kind, (TokenStream.ofText .html source).tokens.kindAt (first + place) = some kind →
            kind ≠ .identifier →
              (Fragment.tokens (tree.node id).body).kindAt place = some kind := by
  obtain ⟨length, forgot, alike⟩ := ranges.alike_at member editable
  refine ⟨length, fun place inside => ?_⟩
  obtain ⟨token, found, here, there, one⟩ := alike place inside
  rw [← List.getElem?_toArray] at there
  constructor
  · rw [Tokens.textAt_of_getElem? here, ← one.text]
    exact Tokens.textAt_of_getElem? there
  · intro kind isAt noName
    rw [Tokens.kindAt, here] at isAt
    cases isAt
    refine Tokens.kindAt_eq_some.mpr ⟨found, there, ?_⟩
    exact one.kind.resolve_right fun forgets => noName forgets.2.1

/-- What a weaver writes for the parts of a file, when it puts down what it chooses for the tokens
of plain code and leaves every other part as it is. -/
structure Rewrites (tree : Tree) (chosen : Nat → Nat → Option Text) (written : Part → Text) :
    Prop where
  inCode : tree.ChoosesCode chosen
  code : ∀ id, .body id ∈ tree.parts → (tree.node id).isEditable = true →
    written (.body id) = (List.range (Fragment.tokens (tree.node id).body).size).flatMap
      fun place => (chosen id place).getD ((Fragment.tokens (tree.node id).body).textAt place)
  other : ∀ id, .body id ∈ tree.parts → (tree.node id).isEditable = false →
    written (.body id) = tree.partText (.body id)
  close : ∀ id, .close id ∈ tree.parts → written (.close id) = tree.partText (.close id)

theorem Ranges.written_part
    (ranges : tree.Ranges (TokenStream.ofText .html source).tokens stretches)
    {written : Part → Text} (rewrites : tree.Rewrites chosen written)
    (member : stretch ∈ stretches) :
    written stretch.part = (List.range' stretch.first (stretch.stop - stretch.first)).flatMap
      (stretch.putAt chosen (TokenStream.ofText .html source).tokens) := by
  have among : stretch.part ∈ tree.parts := by
    rw [← ranges.parts]
    exact List.mem_map_of_mem member
  have text : tree.partText stretch.part =
      (List.range' stretch.first (stretch.stop - stretch.first)).flatMap
        (TokenStream.ofText .html source).tokens.textAt := by
    rw [(ranges.made stretch member).text,
      Tokens.textBetween_eq_flatMap (ranges.consecutive.stop_le _ member)]
  obtain ⟨part, first, stop⟩ := stretch
  cases part with
  | close id =>
      rw [rewrites.close id among, text]
      rfl
  | body id =>
      cases editable : (tree.node id).isEditable with
      | false =>
          rw [rewrites.other id among editable, text]
          apply List.flatMap_congr
          intro index _
          cases choice : chosen id (index - first) with
          | none => simp only [Stretch.putAt, choice, Option.getD_none]
          | some other =>
              rw [rewrites.inCode _ _ _ choice] at editable
              cases editable
      | true =>
          obtain ⟨size, each⟩ := ranges.piece_at member editable
          rw [rewrites.code id among editable, size, List.range'_eq_map_range, List.flatMap_map]
          apply List.flatMap_congr
          intro place inside
          rw [(each place (List.mem_range.mp inside)).1]
          simp only [Stretch.putAt, Nat.add_sub_cancel_left]

theorem Ranges.written_parts
    (ranges : tree.Ranges (TokenStream.ofText .html source).tokens stretches)
    {written : Part → Text} (rewrites : tree.Rewrites chosen written) :
    tree.parts.flatMap written = (List.range (TokenStream.ofText .html source).tokens.size).flatMap
      (putAt stretches (TokenStream.ofText .html source).tokens chosen) := by
  have whole := ranges.consecutive.flatMap_range
    (putAt stretches (TokenStream.ofText .html source).tokens chosen)
  rw [Nat.sub_zero] at whole
  rw [← ranges.parts, List.flatMap_map, List.range_eq_range', ← whole]
  apply List.flatMap_congr
  intro stretch member
  rw [ranges.written_part rewrites member]
  apply List.flatMap_congr
  intro index inside
  obtain ⟨behind, early⟩ := List.mem_range'_1.mp inside
  exact (ranges.putAt_eq member ⟨behind, by omega⟩).symm

/-! ### Edits of code -/

/-- What an edit chooses for a place in the code of a node. -/
def editChoice (tree : Tree) (choose : Tokens → Nat → Option Text) (id place : Nat) :
    Option Text :=
  if (tree.node id).isEditable then choose (Fragment.tokens (tree.node id).body) place else none

end Tree

theorem Fragment.edited_eq_flatMap (choose : Tokens → Nat → Option Text) (code : Text) :
    edited choose code = (List.range (tokens code).size).flatMap fun index =>
      (choose (tokens code) index).getD ((tokens code).textAt index) := by
  rw [edited_put, List.flatMap_def, List.flatMap_def]
  congr 1
  apply List.ext_getElem
  · simp
  · intro place inside _
    have within : place < (tokens code).size := by simpa using inside
    simp [put, Tokens.textAt, within]

namespace Tree

variable {tree : Tree} {stretches : List Stretch} {source : Text}

theorem editChoice_eq_some {choose : Tokens → Nat → Option Text} {id place : Nat} {text : Text}
    (chosen : tree.editChoice choose id place = some text) :
    (tree.node id).isEditable = true ∧
      choose (Fragment.tokens (tree.node id).body) place = some text := by
  unfold editChoice at chosen
  split at chosen
  · next editable => exact ⟨editable, chosen⟩
  · cases chosen

theorem rewrites_edited (tree : Tree) (choose : Tokens → Nat → Option Text) :
    tree.Rewrites (tree.editChoice choose) (tree.partEdited choose) where
  inCode := fun _ _ _ chosen => (editChoice_eq_some chosen).1
  code := by
    intro id _ editable
    rw [partEdited, editsPart, editable, if_pos rfl, partText, Fragment.edited_eq_flatMap]
    apply List.flatMap_congr
    intro place _
    rw [editChoice, editable, if_pos rfl]
  other := by
    intro id _ fixed
    rw [partEdited, editsPart, fixed, if_neg Bool.false_ne_true]
  close := fun _ _ => rfl

/-- An edited file, told by its tokens. -/
theorem Ranges.source_editCode_eq
    (ranges : tree.Ranges (TokenStream.ofText .html source).tokens stretches)
    (linked : tree.Linked) (choose : Tokens → Nat → Option Text) :
    (tree.editCode choose).source =
      (List.range (TokenStream.ofText .html source).tokens.size).flatMap
        (putAt stretches (TokenStream.ofText .html source).tokens (tree.editChoice choose)) := by
  rw [source_editCode linked]
  exact ranges.written_parts (tree.rewrites_edited choose)

end Tree

/-! ### Tokens of edited files -/

def Stretch.chosenAt (chosen : Nat → Nat → Option Text) (stretch : Stretch) (index : Nat) :
    Option Text :=
  match stretch.part with
  | .body id => chosen id (index - stretch.first)
  | .close _ => none

namespace Tree

def chosenAt (stretches : List Stretch) (chosen : Nat → Nat → Option Text) (index : Nat) :
    Option Text :=
  (stretches.find? fun stretch => stretch.first ≤ index ∧ index < stretch.stop).bind
    fun stretch => stretch.chosenAt chosen index

def toldAt (stretches : List Stretch) (tokens : Tokens) (chosen : Nat → Nat → Option Text)
    (index : Nat) : List Shape :=
  ((chosenAt stretches chosen index).map Fragment.shapes).getD (tokens[index]?.map shape).toList

end Tree

namespace Fragment

variable {all : Tokens} {first stop : Nat}

theorem retold_eq_flatMap (choose : Tokens → Nat → Option Text) (tokens : Tokens) {base : Nat}
    (behind : base ≤ first) (order : first ≤ stop) (inside : stop ≤ all.size) :
    retold choose tokens (first - base) (all.extract first stop).toList =
      (List.range' first (stop - first)).flatMap fun index =>
        ((choose tokens (index - base)).map shapes).getD (all[index]?.map shape).toList := by
  obtain ⟨count, rfl⟩ := Nat.exists_eq_add_of_le order
  rw [Nat.add_sub_cancel_left, Array.toList_extract, List.extract_eq_take_drop,
    Nat.add_sub_cancel_left]
  induction count generalizing first with
  | zero => rfl
  | succ count ih =>
      have here : all[first]? = some all[first] := Array.getElem?_eq_getElem (by omega)
      have later := @ih (first + 1) (by omega) (by omega) (by omega)
      rw [Nat.sub_add_comm behind] at later
      rw [drop_of_getElem? here, List.take_succ_cons, retold, later, List.range'_succ,
        List.flatMap_cons, here]
      rfl

theorem retold_none (tokens : Tokens) (index : Nat) (range : List Token) :
    retold (fun _ _ => none) tokens index range = range.map shape := by
  induction range generalizing index with
  | nil => rfl
  | cons token range ih =>
      rw [retold, ih]
      rfl

end Fragment

section Edits

variable {tree : Tree} {stretches : List Stretch} {source : Text} {stretch : Stretch}
  {choose : Tokens → Nat → Option Text} {choice : Fragment.Choice}

theorem Tree.Ranges.retold_eq
    (ranges : tree.Ranges (TokenStream.ofText .html source).tokens stretches)
    (choose : Tokens → Nat → Option Text) (member : stretch ∈ stretches) :
    stretch.retold choose tree (TokenStream.ofText .html source).tokens =
      (List.range' stretch.first (stretch.stop - stretch.first)).flatMap
        (toldAt stretches (TokenStream.ofText .html source).tokens (tree.editChoice choose)) := by
  have inside := ranges.consecutive.stop_le _ member
  have order := ranges.consecutive.order _ member
  have text : Token.textOf (stretch.tokens (TokenStream.ofText .html source).tokens) =
      tree.partText stretch.part := (ranges.made stretch member).text.symm
  have told {index : Nat}
      (within : index ∈ List.range' stretch.first (stretch.stop - stretch.first)) :
      chosenAt stretches (tree.editChoice choose) index =
        stretch.chosenAt (tree.editChoice choose) index := by
    obtain ⟨behind, before⟩ := List.mem_range'_1.mp within
    rw [chosenAt, ranges.find?_eq member ⟨behind, by omega⟩, Option.bind_some]
  rw [Stretch.retold, text]
  split
  · next edits =>
      rw [Stretch.tokens, ← Nat.sub_self stretch.first,
        Fragment.retold_eq_flatMap _ _ (Nat.le_refl _) order inside]
      apply List.flatMap_congr
      intro index within
      rw [toldAt, told within, Stretch.chosenAt]
      cases part : stretch.part with
      | close id =>
          rw [part] at edits
          cases edits
      | body id =>
          rw [part] at edits
          have editable : (tree.node id).isEditable = true := edits
          simp only [editChoice, editable, if_true]
          rfl
  · next fixed =>
      rw [← Fragment.retold_none (Fragment.tokens []) (stretch.first - stretch.first),
        Stretch.tokens, Fragment.retold_eq_flatMap _ _ (Nat.le_refl _) order inside]
      apply List.flatMap_congr
      intro index within
      rw [toldAt, told within, Stretch.chosenAt]
      cases part : stretch.part with
      | close id => rfl
      | body id =>
          rw [part] at fixed
          have notEditable : ¬ (tree.node id).isEditable = true := fixed
          simp only [editChoice, if_neg notEditable]

/-- The tokens of an edited file, told by those of the file. -/
theorem Tree.Ranges.scan_editCode_eq
    (ranges : tree.Ranges (TokenStream.ofText .html source).tokens stretches)
    (linked : tree.Linked) (follows : Fragment.Follows choose choice) :
    fileShapes (tree.editCode choose).source =
      (List.range (TokenStream.ofText .html source).tokens.size).flatMap
        (toldAt stretches (TokenStream.ofText .html source).tokens (tree.editChoice choose)) := by
  have whole := ranges.consecutive.flatMap_range
    (toldAt stretches (TokenStream.ofText .html source).tokens (tree.editChoice choose))
  rw [Nat.sub_zero, ← List.range_eq_range'] at whole
  rw [fileShapes, ranges.scan_editCode linked follows, ← whole]
  apply List.flatMap_congr
  intro stretch member
  exact ranges.retold_eq choose member

end Edits
end PhpWeave
