import PhpWeave.Proofs.Token.Growth
import PhpWeave.Proofs.Weave.Interception

set_option autoImplicit false

/-!
The tokens of a woven file. The parts of a file are ranges of its tokens. A weaver that edits code
puts other tokens in the place of some of them, an interception puts the tokens of its preamble
behind the brace that opens a function, and a scan of what comes out finds these tokens and those
that stayed, and no others.
-/

namespace PhpWeave

open Scan Lexeme PhpWeave.Tree

/-! ### Ranges of tokens -/

namespace Fragment

theorem spell_shapes (code : Text) : spell (shapes code) = code := by
  rw [shapes, Scan.spell_shapes]
  exact textOf_tokens code

/-- Tokens told from a position on: each as the tokens of what is put down for it, or as itself. -/
def retold (choose : Tokens → Nat → Option Text) (tokens : Tokens) : Nat → List Token → List Shape
  | _, [] => []
  | index, token :: rest =>
    ((choose tokens index).map shapes).getD [shape token] ++ retold choose tokens (index + 1) rest

variable {choose : Tokens → Nat → Option Text} {choice : Choice}

theorem spell_retold {tokens : Tokens} {forgot : Bool} {range found : List Token}
    (alike : List.Forall₂ (Alike forgot) range found) (index : Nat) :
    spell (retold choose tokens index range) =
      (found.zip ((List.range' index found.length).map (choose tokens))).flatMap put := by
  induction alike generalizing index with
  | nil => rfl
  | @cons token again range found alike rest ih =>
      rw [retold, spell_append, ih, List.length_cons, List.range'_succ, List.map_cons,
        List.zip_cons_cons, List.flatMap_cons, put]
      congr 1
      cases choose tokens index with
      | none => simp [spell, shape, alike.text]
      | some text => exact spell_shapes text

theorem gives_of_alike (follows : Follows choose choice) {forgot : Bool} {token found : Token}
    (alike : Alike forgot token found) {last next : Option TokenKind} {added : List Shape}
    (chosen : choice last found.kind next = some added)
    (keyword : found.kind.isKeyword = true → TokenKind.ofWord found.text = found.kind) :
    Gives false token added ∧ Stands (isBrace token.kind) added := by
  obtain ⟨isOne, stands⟩ := follows.stands _ _ _ _ chosen
  obtain ⟨isKeyword, like⟩ := isKeyword_of_isReplaceable isOne
  refine stands.gives ?_ ?_
  · rcases alike.kind with same | ⟨-, member, -⟩
    · rw [← same]
      exact like
    · rw [member]
      rfl
  · rw [← alike.text, keyword isKeyword]
    exact isOne

theorem replaced_retold (follows : Follows choose choice) {tokens : Tokens} {forgot : Bool}
    {range after : List Token} (before : List Token) (split : tokens.toList = before ++ after)
    (alike : List.Forall₂ (Alike forgot) range after)
    (keyword : ∀ token ∈ after, token.kind.isKeyword = true →
      TokenKind.ofWord token.text = token.kind) :
    Replaced false range (retold choose tokens before.length range) := by
  induction alike generalizing before with
  | nil => exact .nil
  | @cons token again range after alike rest ih =>
      obtain ⟨here, others⟩ := List.forall_mem_cons.mp keyword
      have found : tokens[before.length]? = some again := by
        rw [← Array.getElem?_toList, split]
        simp
      have later := ih (before ++ [again]) (by rw [split, List.append_assoc]; rfl) others
      rw [List.length_append, List.length_singleton] at later
      rw [retold, follows.chosen tokens _ again found]
      cases chosen : choice (tokens.prevKind before.length) again.kind
          (tokens.nextKind before.length) with
      | none => exact .keep token later
      | some added =>
          obtain ⟨gives, stands⟩ := gives_of_alike follows alike chosen here
          have alone : shapes (spell added) = added := stands.alone
          rw [Option.map_some, Option.map_some, Option.getD_some, alone]
          exact .put token gives stands later

theorem alike_of_range {state : State} {text : Text} {range after : List Token}
    (cut : tokensFrom state text = range ++ after)
    (code : ∀ token ∈ range, token.kind.isMarkup = false) :
    List.Forall₂ (Alike state.afterArrow) range (tokens (Token.textOf range)).toList :=
  tokensFrom_alike (State.start .php) cut code rfl state.afterArrow (Bool.and_not_self _).symm

/-- A range of code retold: what a scan of it by itself chooses to put down is what is written, and
the tokens of that stand in the places of tokens of the range. -/
theorem retold_of_range (follows : Follows choose choice) {state : State} {text : Text}
    {range after : List Token} (cut : tokensFrom state text = range ++ after)
    (code : ∀ token ∈ range, token.kind.isMarkup = false) :
    Replaced false range (retold choose (tokens (Token.textOf range)) 0 range) ∧
      spell (retold choose (tokens (Token.textOf range)) 0 range) =
        edited choose (Token.textOf range) := by
  have alike := alike_of_range cut code
  have keyword : ∀ token ∈ scan .php (Token.textOf range), token.kind.isKeyword = true →
      TokenKind.ofWord token.text = token.kind := fun _ => ofWord_of_mem
  exact ⟨replaced_retold follows [] rfl alike keyword, by rw [edited_put, spell_retold alike]⟩

end Fragment

namespace Stretch

def tokens (stretch : Stretch) (all : Tokens) : List Token :=
  (all.extract stretch.first stretch.stop).toList

theorem Consecutive.tokens {all : Tokens} {first stop : Nat} {stretches : List Stretch}
    (consecutive : Consecutive first stretches stop) :
    stretches.flatMap (fun stretch => stretch.tokens all) = (all.extract first stop).toList := by
  induction stretches generalizing first with
  | nil =>
      have same : first = stop := consecutive
      rw [same, Array.extract_empty_of_stop_le_start (Nat.le_refl stop)]
      rfl
  | cons stretch rest ih =>
      obtain ⟨begins, order, later⟩ := consecutive
      rw [List.flatMap_cons, ih later, Stretch.tokens, begins,
        Tokens.extract_append order later.le]

end Stretch

/-! ### The parts of a file -/

namespace Tree

variable {tree : Tree} {stretches : List Stretch} {source : Text}

/-- When each range of a file is told with some tokens replaced, a scan of the whole finds what the
ranges became. -/
theorem Ranges.scan_retold
    (ranges : tree.Ranges (TokenStream.ofText .html source).tokens stretches)
    {told : Part → Text} {retold : Stretch → List Shape}
    (each : ∀ stretch ∈ stretches,
      Replaced false (stretch.tokens (TokenStream.ofText .html source).tokens) (retold stretch) ∧
        spell (retold stretch) = told stretch.part) :
    (TokenStream.ofText .html (tree.parts.flatMap told)).tokens.toList.map shape =
      stretches.flatMap retold := by
  have all : stretches.flatMap
      (fun stretch => stretch.tokens (TokenStream.ofText .html source).tokens) =
        tokensFrom (State.start .html) source := by
    rw [ranges.consecutive.tokens, Array.extract_size]
    rfl
  have whole : Replaced false (tokensFrom (State.start .html) source)
      (stretches.flatMap retold) := by
    rw [← all]
    clear all ranges
    induction stretches with
    | nil => exact .nil
    | cons stretch stretches ih =>
        obtain ⟨here, others⟩ := List.forall_mem_cons.mp each
        exact here.1.append (ih others)
  have written : tree.parts.flatMap told = spell (stretches.flatMap retold) := by
    rw [← ranges.parts, List.flatMap_map, spell, List.flatMap_assoc, List.flatMap_def,
      List.flatMap_def]
    congr 1
    apply List.map_congr_left
    intro stretch member
    exact (each stretch member).2.symm
  have cut : tokensFrom (State.start .html) (Token.textOf
      (tokensFrom (State.start .html) source)) = tokensFrom (State.start .html) source := by
    rw [(tokensFrom_spells _ source).1]
  rw [written]
  exact rescan_of_replaced whole cut rfl rfl fun never => absurd never Bool.false_ne_true

/-! ### Edits of code -/

def editsPart (tree : Tree) : Part → Bool
  | .body id => (tree.node id).isEditable
  | .close _ => false

def partEdited (choose : Tokens → Nat → Option Text) (tree : Tree) (part : Part) : Text :=
  if tree.editsPart part then Fragment.edited choose (tree.partText part) else tree.partText part

theorem source_revise (linked : tree.Linked) {change : Node → Node}
    (revision : Node.Revision change) (keepsClose : ∀ node, (change node).close = node.close) :
    (tree.revise change).source = tree.parts.flatMap fun part =>
      match part with
      | .body id => (change (tree.node id)).body
      | .close id => (tree.node id).close := by
  have children := property_revise linked Node.children revision.children
  have parts : (tree.revise change).parts = tree.parts := by
    rw [Tree.parts, tour, size_revise]
    exact tourWithin_congr children _ _
  rw [source_eq, parts]
  apply List.flatMap_congr
  intro part member
  cases part with
  | close id => exact property_revise linked Node.close keepsClose id
  | body id => rw [partText, node_revise linked, if_pos (preorder_of_body_mem_tour member)]

theorem source_editCode (linked : tree.Linked) (choose : Tokens → Nat → Option Text) :
    (tree.editCode choose).source = tree.parts.flatMap (tree.partEdited choose) := by
  have keepsClose (node : Node) : (node.edited choose).close = node.close := by
    unfold Node.edited
    split <;> rfl
  rw [editCode_eq linked, source_revise linked (Node.revision_edited choose) keepsClose]
  apply List.flatMap_congr
  intro part _
  cases part with
  | close id => rfl
  | body id => exact apply_ite Node.body _ _ _

end Tree

/-- What becomes of a range of the tokens of a file when its code is edited. -/
def Stretch.retold (choose : Tokens → Nat → Option Text) (tree : Tree) (all : Tokens)
    (stretch : Stretch) : List Shape :=
  let range := stretch.tokens all
  if tree.editsPart stretch.part then
    Fragment.retold choose (Fragment.tokens (Token.textOf range)) 0 range
  else range.map shape

section Edits

variable {tree : Tree} {stretches : List Stretch} {source : Text} {stretch : Stretch}
  {choose : Tokens → Nat → Option Text} {choice : Fragment.Choice}

theorem Tree.Ranges.cut_of_edits
    (ranges : tree.Ranges (TokenStream.ofText .html source).tokens stretches)
    (member : stretch ∈ stretches) (edits : tree.editsPart stretch.part = true) :
    (∃ (state : State) (text : Text) (after : List Token), tokensFrom state text =
      stretch.tokens (TokenStream.ofText .html source).tokens ++ after) ∧
    ∀ token ∈ stretch.tokens (TokenStream.ofText .html source).tokens,
      token.kind.isMarkup = false := by
  obtain ⟨id, isBody, editable⟩ : ∃ id, stretch.part = .body id ∧
      (tree.node id).isEditable = true := by
    cases part : stretch.part with
    | body id => exact ⟨id, rfl, by rwa [part] at edits⟩
    | close id => rw [part] at edits; cases edits
  have whole : tokensFrom (State.start .html) source =
      (TokenStream.ofText .html source).tokens.toList := rfl
  rw [Tokens.split_at _ stretch.first stretch.stop] at whole
  exact ⟨⟨_, _, _, (tokensFrom_resume whole).2⟩,
    (((ranges.made stretch member).fits id isBody).untagged editable).code⟩

/-- A scan of a range of code by itself finds its tokens, but for members whose arrow stands before
it. -/
theorem Fragment.alike_between (source : Text) {first stop : Nat}
    (code : ∀ token ∈ ((TokenStream.ofText .html source).tokens.extract first stop).toList,
      token.kind.isMarkup = false) :
    ∃ forgot, List.Forall₂ (Alike forgot)
      ((TokenStream.ofText .html source).tokens.extract first stop).toList
      (scan .php ((TokenStream.ofText .html source).tokens.textBetween first stop)) := by
  have whole : tokensFrom (State.start .html) source =
      (TokenStream.ofText .html source).tokens.toList := rfl
  rw [Tokens.split_at _ first stop] at whole
  have alike := alike_of_range (tokensFrom_resume whole).2 code
  rw [tokens, List.toList_toArray] at alike
  exact ⟨_, alike⟩

theorem Tree.Ranges.alike
    (ranges : tree.Ranges (TokenStream.ofText .html source).tokens stretches)
    (member : stretch ∈ stretches) (edits : tree.editsPart stretch.part = true) :
    ∃ forgot, List.Forall₂ (Alike forgot)
      (stretch.tokens (TokenStream.ofText .html source).tokens)
      (scan .php (tree.partText stretch.part)) := by
  rw [(ranges.made stretch member).text]
  exact Fragment.alike_between source (ranges.cut_of_edits member edits).2

/-- A scan of a piece of plain code finds as many tokens as its range has, and they are alike. -/
theorem Tree.Ranges.alike_at
    (ranges : tree.Ranges (TokenStream.ofText .html source).tokens stretches)
    (member : stretch ∈ stretches) (edits : tree.editsPart stretch.part = true) :
    (scan .php (tree.partText stretch.part)).length = stretch.stop - stretch.first ∧
      ∃ forgot, ∀ place < stretch.stop - stretch.first, ∃ token found,
        (TokenStream.ofText .html source).tokens[stretch.first + place]? = some token ∧
          (scan .php (tree.partText stretch.part))[place]? = some found ∧
            Alike forgot token found := by
  obtain ⟨forgot, alike⟩ := ranges.alike member edits
  obtain ⟨length, each⟩ := List.forall₂_iff_get.mp alike
  have within := ranges.consecutive.stop_le _ member
  have size : (stretch.tokens (TokenStream.ofText .html source).tokens).length =
      stretch.stop - stretch.first := by
    rw [Stretch.tokens, Array.length_toList, Array.size_extract, Nat.min_eq_left within]
  refine ⟨length.symm.trans size, forgot, fun place inside => ?_⟩
  have one := each place (by omega) (by omega)
  refine ⟨_, _, Array.getElem?_eq_getElem (by omega), List.getElem?_eq_getElem (by omega), ?_⟩
  simpa [Stretch.tokens] using one

theorem Tree.Ranges.alike_of_edits
    (ranges : tree.Ranges (TokenStream.ofText .html source).tokens stretches) {id first stop : Nat}
    (member : ⟨.body id, first, stop⟩ ∈ stretches) (editable : (tree.node id).isEditable = true) :
    ∃ forgot,
      (∀ (index : Nat) (found : Token), (scan .php (tree.node id).body)[index]? = some found →
        first + index < stop ∧ ∃ token,
          (TokenStream.ofText .html source).tokens[first + index]? = some token ∧
            Alike forgot token found) ∧
      ∀ (index : Nat) (token : Token), first ≤ index → index < stop →
        (TokenStream.ofText .html source).tokens[index]? = some token →
          ∃ found ∈ scan .php (tree.node id).body, Alike forgot token found := by
  obtain ⟨length, forgot, alike⟩ := ranges.alike_at member editable
  rw [partText] at length alike
  refine ⟨forgot, fun index found here => ?_, fun index token behind before here => ?_⟩
  · have inside : index < stop - first := by
      rw [← length]
      exact (List.getElem?_eq_some_iff.mp here).1
    obtain ⟨token, other, there, same, one⟩ := alike index inside
    rw [here] at same
    cases same
    exact ⟨by omega, token, there, one⟩
  · have inside : index - first < stop - first := by omega
    obtain ⟨other, found, there, isOne, one⟩ := alike (index - first) inside
    rw [Nat.add_sub_cancel' behind, here] at there
    cases there
    exact ⟨found, List.mem_of_getElem? isOne, one⟩

theorem Tree.Ranges.replaced_edited
    (ranges : tree.Ranges (TokenStream.ofText .html source).tokens stretches)
    (follows : Fragment.Follows choose choice) (member : stretch ∈ stretches) :
    Replaced false (stretch.tokens (TokenStream.ofText .html source).tokens)
        (stretch.retold choose tree (TokenStream.ofText .html source).tokens) ∧
      spell (stretch.retold choose tree (TokenStream.ofText .html source).tokens) =
        tree.partEdited choose stretch.part := by
  have text : Token.textOf (stretch.tokens (TokenStream.ofText .html source).tokens) =
      tree.partText stretch.part := (ranges.made stretch member).text.symm
  rw [Stretch.retold, partEdited]
  split
  · next edits =>
      obtain ⟨⟨state, _, after, cut⟩, code⟩ := ranges.cut_of_edits member edits
      obtain ⟨replaced, spelled⟩ := Fragment.retold_of_range follows cut code
      exact ⟨replaced, by rw [← text]; exact spelled⟩
  · exact ⟨.refl _, by rw [spell_shapes, text]⟩

theorem Tree.Ranges.scan_editCode
    (ranges : tree.Ranges (TokenStream.ofText .html source).tokens stretches)
    (linked : tree.Linked) (follows : Fragment.Follows choose choice) :
    (TokenStream.ofText .html (tree.editCode choose).source).tokens.toList.map shape =
      stretches.flatMap (Stretch.retold choose tree (TokenStream.ofText .html source).tokens) := by
  rw [source_editCode linked]
  exact ranges.scan_retold fun stretch member => ranges.replaced_edited follows member

end Edits

/-! ### Preambles -/

namespace Interception

private theorem preamble_closed : ∀ method generator returnsVoid : Bool,
    let found := scan .php (({} : Interception).preamble { method, generator, returnsVoid })
    settles 0 0 (found.map shape) = true ∧ found.getLast?.map Token.kind = some .closeBrace := by
  decide +kernel

theorem inset_preamble (flags : Flags) : Inset (scan .php (({} : Interception).preamble flags)) :=
  have closed := preamble_closed flags.method flags.generator flags.returnsVoid
  ⟨closed.1, closed.2⟩

theorem stands_preamble (flags : Flags) : Stands true
    ((.openBrace, ['\x7b']) :: Fragment.shapes (({} : Interception).preamble flags)) where
  scanned := by
    intro state rest php _
    obtain ⟨brace, found, isBrace⟩ := Option.map_eq_some_iff.mp (inset_preamble flags).closes
    have isOne : Scan.isBrace brace.kind = true := by
      rw [isBrace]
      rfl
    obtain ⟨before, split⟩ := List.getLast?_eq_some_iff.mp found
    have spelled := Fragment.textOf_tokens (({} : Interception).preamble flags)
    rw [Fragment.tokens, List.toList_toArray, split] at spelled
    have cut : tokensFrom (State.start .php) (Token.textOf (before ++ [brace])) =
        before ++ [brace] := by
      rw [spelled]
      exact split
    have opens : phpLexeme state.afterArrow
        (['\x7b'] ++ (({} : Interception).preamble flags ++ rest)) = (.openBrace, 1) :=
      (Rule.punctuation '\x7b' _ .openBrace rfl).phpLexeme_eq
    obtain ⟨next, mode, arrow, scanned⟩ := scanned_of_closed cut isOne
      (show (state.after ⟨.openBrace, ['\x7b'], state.line⟩).mode = .php from php) rfl rest
    refine ⟨next, mode, arrow, ?_⟩
    rw [spelled] at scanned
    have written : spell ((.openBrace, ['\x7b']) ::
        Fragment.shapes (({} : Interception).preamble flags)) ++ rest =
        ['\x7b'] ++ (({} : Interception).preamble flags ++ rest) := by
      rw [spell, List.flatMap_cons, ← spell, Fragment.spell_shapes, List.append_assoc]
    rw [written, tokensFrom_lexeme php (List.cons_ne_nil _ _) opens, List.map_cons, scanned,
      Fragment.shapes, split]
    rfl
  quoted := by
    intro label rest tail _ same
    exact absurd (List.cons.inj same).1 (by decide)

/-- What becomes of a range of the tokens of a file when its functions are intercepted. -/
def retold (interception : Interception) (tree : Tree) (all : Tokens) (stretch : Stretch) :
    List Shape :=
  (stretch.tokens all).map shape ++ Fragment.shapes (interception.behind tree stretch.part)

theorem behind_of_selects {interception : Interception} {tree : Tree} {part : Part}
    (some : interception.behind tree part ≠ []) : ∃ id, part = .body id ∧
      interception.behind tree part = interception.preamble (tree.node id).flags ∧
      (tree.node id).kind = .function ∧ (tree.node id).flags.hasBody = true := by
  cases part with
  | close id => exact absurd rfl some
  | body id =>
      rw [behind] at some ⊢
      split at some
      · next selected =>
          obtain ⟨⟨⟨⟨kind, hasBody⟩, -⟩, -⟩, -⟩ : ((((tree.node id).kind = .function ∧
              (tree.node id).flags.hasBody = true) ∧ _) ∧ _) ∧ _ := by
            simpa only [selects, Node.isNamedFunction, Bool.and_eq_true, decide_eq_true_eq]
              using selected
          exact ⟨id, rfl, if_pos selected, kind, hasBody⟩
      · exact absurd rfl some

end Interception

section Braces

variable {tree : Tree} {stretches : List Stretch} {source : Text} {stretch : Stretch}
  {interception : Interception}

theorem Tree.Ranges.brace_of_behind
    (ranges : tree.Ranges (TokenStream.ofText .html source).tokens stretches)
    (member : stretch ∈ stretches) (some : interception.behind tree stretch.part ≠ []) :
    ∃ front brace, stretch.tokens (TokenStream.ofText .html source).tokens = front ++ [brace] ∧
      shape brace = (.openBrace, ['\x7b']) ∧
      Reader.Enters (TokenStream.ofText .html source).tokens (stretch.first + front.length) := by
  obtain ⟨id, isBody, -, kind, hasBody⟩ := Interception.behind_of_selects some
  obtain ⟨last, order, stop, isAt, enters⟩ :=
    ((ranges.made stretch member).fits id isBody).braced kind hasBody
  obtain ⟨brace, here, isOpen⟩ := Tokens.kindAt_eq_some.mp (eq_of_beq isAt)
  obtain ⟨inside, rfl⟩ := Array.getElem?_eq_some_iff.mp here
  have text := spelled_scan .html source _ (Array.getElem_mem inside) '\x7b' (by rw [isOpen]; rfl)
  refine ⟨((TokenStream.ofText .html source).tokens.extract stretch.first last).toList, _, ?_,
    Prod.ext isOpen text, ?_⟩
  · rw [Stretch.tokens, stop, Array.extract_succ_right (Nat.lt_succ_of_le order) inside,
      Array.toList_push]
  · rw [Array.length_toList, Array.size_extract, Nat.min_eq_left (Nat.le_of_lt inside),
      Nat.add_sub_cancel' order]
    exact enters

theorem Tree.Ranges.replaced_intercepted
    (ranges : tree.Ranges (TokenStream.ofText .html source).tokens stretches)
    (member : stretch ∈ stretches) :
    Replaced false (stretch.tokens (TokenStream.ofText .html source).tokens)
        (({} : Interception).retold tree (TokenStream.ofText .html source).tokens stretch) ∧
      spell (({} : Interception).retold tree (TokenStream.ofText .html source).tokens stretch) =
        tree.partText stretch.part ++ ({} : Interception).behind tree stretch.part := by
  have text : Token.textOf (stretch.tokens (TokenStream.ofText .html source).tokens) =
      tree.partText stretch.part := (ranges.made stretch member).text.symm
  rw [Interception.retold, spell_append, spell_shapes, Fragment.spell_shapes, text]
  refine ⟨?_, rfl⟩
  by_cases none : ({} : Interception).behind tree stretch.part = []
  · rw [none, show Fragment.shapes [] = [] from rfl, List.append_nil]
    exact .refl _
  · obtain ⟨id, -, preamble, -, -⟩ := Interception.behind_of_selects none
    obtain ⟨front, brace, split, isOpen, -⟩ := ranges.brace_of_behind member none
    have isOne : isBrace brace.kind = true := by
      rw [show brace.kind = .openBrace from congrArg Prod.fst isOpen]
      rfl
    have put : Replaced false [brace] (_ ++ []) := .put brace (.brace isOne rfl)
      (isOne ▸ Interception.stands_preamble (tree.node id).flags) .nil
    rw [List.append_nil, ← isOpen] at put
    rw [preamble, split, List.map_append, List.append_assoc, List.map_cons, List.map_nil,
      List.singleton_append]
    exact (Replaced.refl front).append put

theorem Tree.Ranges.scan_intercepted
    (ranges : tree.Ranges (TokenStream.ofText .html source).tokens stretches)
    (linked : tree.Linked) :
    (TokenStream.ofText .html (({} : Interception).woven tree).source).tokens.toList.map shape =
      stretches.flatMap
        (({} : Interception).retold tree (TokenStream.ofText .html source).tokens) := by
  rw [Interception.source_woven _ linked]
  exact ranges.scan_retold fun stretch member => ranges.replaced_intercepted member

end Braces

/-! ### Woven files -/

/-- The kinds and the texts of the tokens of a file. -/
def fileShapes (source : Text) : List Shape :=
  (TokenStream.ofText .html source).tokens.toList.map shape

/-- What the hook for exits, a pinned path and an interception make of the tokens of a file. -/
structure Retold (source : Text) (tree : Tree) (pin : PathPin) (file : Option Path)
    (stretches : List Stretch) : Prop where
  /-- The parts of the tree are ranges of tokens that lie end to end from the first to the last. -/
  ranges : tree.Ranges (TokenStream.ofText .html source).tokens stretches
  /-- Code that is edited has by itself the tokens of its range, text by text. -/
  pieces : ∀ stretch ∈ stretches, tree.editsPart stretch.part = true →
    (Fragment.tokens (tree.partText stretch.part)).toList.map Token.text =
      (stretch.tokens (TokenStream.ofText .html source).tokens).map Token.text
  /-- Preambles come behind braces that open functions. -/
  braces : ∀ stretch ∈ stretches, ({} : Interception).behind tree stretch.part ≠ [] →
    ∃ front brace, stretch.tokens (TokenStream.ofText .html source).tokens = front ++ [brace] ∧
      shape brace = (.openBrace, ['\x7b'])
  exits : fileShapes (Weaver.weave ({} : ExitHook) tree file).2.source =
    stretches.flatMap
      (Stretch.retold ({} : ExitHook).choose tree (TokenStream.ofText .html source).tokens)
  paths : ∀ path, pin.fixed.or file = some path →
    fileShapes (Weaver.weave pin tree file).2.source =
      stretches.flatMap
        (Stretch.retold (PathPin.choose path) tree (TokenStream.ofText .html source).tokens)
  pathless : pin.fixed.or file = none → (Weaver.weave pin tree file).2.source = source
  preambles : fileShapes (Weaver.weave ({} : Interception) tree file).2.source =
    stretches.flatMap
      (({} : Interception).retold tree (TokenStream.ofText .html source).tokens)

/-- Of a file that has a tree, the woven texts have the tokens that its ranges become and no others:
what is put in fuses with no neighbour, and every other token stays. -/
theorem retold_of_parse {listLines : Bool} {source : Text} {tree : Tree}
    (parsed : parse listLines source = .ok tree) (pin : PathPin) (file : Option Path) :
    ∃ stretches, Retold source tree pin file stretches := by
  have linked := (native_of_parse parsed).linked
  obtain ⟨-, -, stretches, parts, consecutive, made⟩ := made_of_parse parsed
  have ranges : tree.Ranges (TokenStream.ofText .html source).tokens stretches :=
    ⟨parts, consecutive, made⟩
  refine ⟨stretches, ranges, fun stretch member edits => ?_, fun stretch member some => ?_, ?_,
    fun path pinned => ?_, fun none => ?_, ranges.scan_intercepted linked⟩
  · obtain ⟨⟨state, _, after, cut⟩, code⟩ := ranges.cut_of_edits member edits
    have alike := Fragment.alike_of_range cut code
    rw [(ranges.made stretch member).text]
    exact (map_eq_of_forall₂ (alike.imp fun _ _ alike => alike.text.symm)).symm
  · obtain ⟨front, brace, split, isOpen, -⟩ := ranges.brace_of_behind member some
    exact ⟨front, brace, split, isOpen⟩
  · exact ranges.scan_editCode linked (ExitHook.follows ExitHook.spell_hook.symm)
  · rw [pin.weave_eq, pinned]
    exact ranges.scan_editCode linked (PathPin.follows path)
  · rw [pin.weave_eq, none]
    exact printed_of_parse parsed

/-- A method that ends the program, in a file that asks for its path. -/
theorem retold_of_parse_method :
    let source := "<?php class A{function f(){exit;}} f(__FILE__);\n".toList
    ∃ tree stretches, parse false source = .ok tree ∧
      Retold source tree {} (some ['/', 'f']) stretches := by
  intro source
  have closes : (parse false source).toBool = true := by decide +kernel
  cases parsed : parse false source with
  | error fault =>
      rw [parsed] at closes
      cases closes
  | ok tree =>
      obtain ⟨stretches, retold⟩ := retold_of_parse parsed {} (some ['/', 'f'])
      exact ⟨tree, stretches, rfl, retold⟩

end PhpWeave
