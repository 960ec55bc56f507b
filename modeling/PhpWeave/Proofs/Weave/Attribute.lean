import PhpWeave.Proofs.Grammar.Naming
import PhpWeave.Proofs.Weave.Preamble
import PhpWeave.Proofs.Weave.Renaming
import PhpWeave.Proofs.Weave.Tokenwise

set_option autoImplicit false

/-!
Names in attributes. A redirection counts the brackets of an attribute along one piece of code, from
its `#[` on, and leaves the tokens alone up to the bracket that closes it. The count is right as
long as no other attribute begins inside and the code is not cut there.
-/

namespace PhpWeave

open Scan PhpWeave.Tree

/-! ### Attributes in a file -/

/-- What a token adds to the brackets that are open. -/
def TokenKind.bracketTurn : TokenKind → Int
  | .attributeOpen | .openBracket => 1
  | .closeBracket => -1
  | _ => 0

namespace Tokens

variable {tokens : Tokens} {opening first upto index : Nat}

/-- The square brackets that are opened among some tokens and not closed there. -/
def bracketsOver (tokens : Tokens) (first upto : Nat) : Int :=
  (tokens.extract first upto).toList.foldl (fun depth token => depth + token.kind.bracketTurn) 0

theorem bracketsOver_self (first : Nat) : tokens.bracketsOver first first = 0 := by
  rw [bracketsOver, Array.extract_empty_of_stop_le_start (Nat.le_refl first)]
  rfl

theorem bracketsOver_succ (before : first ≤ upto) {token : Token}
    (here : tokens[upto]? = some token) :
    tokens.bracketsOver first (upto + 1) =
      tokens.bracketsOver first upto + token.kind.bracketTurn := by
  rw [bracketsOver, extract_succ before here, List.foldl_append, bracketsOver]
  rfl

/-- A token stands in the attribute that begins with `#[` at a position: the bracket that closes it
is not in front of the token. -/
structure InAttribute (tokens : Tokens) (opening index : Nat) : Prop where
  isOpen : tokens.kindAt opening = some .attributeOpen
  order : opening < index
  isIn : ∀ upto, opening < upto → upto ≤ index → 0 < tokens.bracketsOver opening upto

/-- No other attribute begins between two tokens, and no code is cut there: no string, no comment,
no tag, no brace and no semicolon stands between them. -/
def Unbroken (tokens : Tokens) (opening index : Nat) : Prop :=
  ∀ between, opening < between → between < index → ∀ kind, tokens.kindAt between = some kind →
    kind.cutsBehind = false ∧ kind ≠ .attributeOpen

def attributeDepthAt (tokens : Tokens) (first upto : Nat) : Nat :=
  (tokens.extract first upto).toList.foldl Reference.attributeDepth 0

theorem attributeDepthAt_succ (before : first ≤ upto) {token : Token}
    (here : tokens[upto]? = some token) : tokens.attributeDepthAt first (upto + 1) =
      Reference.attributeDepth (tokens.attributeDepthAt first upto) token := by
  rw [attributeDepthAt, extract_succ before here, List.foldl_append]
  rfl

theorem attributeDepth_turn {depth : Nat} {token : Token} (inside : 0 < depth)
    (other : token.kind ≠ .attributeOpen) :
    (Reference.attributeDepth depth token : Int) = depth + token.kind.bracketTurn := by
  unfold Reference.attributeDepth TokenKind.bracketTurn
  cases kind : token.kind <;> simp only [kind, ne_eq, not_true_eq_false] at other ⊢ <;>
    first | omega | (rw [if_neg (Nat.ne_of_gt inside)]; omega)

theorem InAttribute.depth_eq (inAttribute : tokens.InAttribute opening index)
    (unbroken : tokens.Unbroken opening index) (begins : first ≤ opening)
    (known : index ≤ tokens.size) (behind : opening < upto) (until_ : upto ≤ index) :
    (tokens.attributeDepthAt first upto : Int) = tokens.bracketsOver opening upto := by
  induction upto, behind using Nat.le_induction with
  | base =>
      obtain ⟨token, here, isOpen⟩ := kindAt_eq_some.mp inAttribute.isOpen
      rw [attributeDepthAt_succ begins here, bracketsOver_succ (Nat.le_refl _) here,
        bracketsOver_self, isOpen, Reference.attributeDepth, isOpen]
      rfl
  | succ upto behind ih =>
      have same := ih (Nat.le_of_succ_le until_)
      have isIn := inAttribute.isIn upto behind (Nat.le_of_succ_le until_)
      have here : tokens[upto]? = some tokens[upto] := Array.getElem?_eq_getElem (by omega)
      have other := (unbroken upto behind until_ _ (kindAt_eq_some.mpr ⟨_, here, rfl⟩)).2
      rw [attributeDepthAt_succ (by omega) here, bracketsOver_succ (Nat.le_of_succ_le behind) here,
        attributeDepth_turn (by omega) other, same]

theorem take_extract {stop : Nat} (begins : first ≤ index) (ends : index ≤ stop)
    (within : stop ≤ tokens.size) : (tokens.extract first stop).toList.take (index - first) =
      (tokens.extract first index).toList := by
  rw [← extract_append begins ends, List.take_left']
  rw [Array.length_toList, Array.size_extract, Nat.min_eq_left (Nat.le_trans ends within)]

end Tokens

/-! ### What a redirection looks for -/

namespace Reference

theorem inAttribute_getElem? (depth : Nat) (tokens : List Token) (place : Nat) :
    (inAttribute depth tokens)[place]? = tokens[place]?.map fun token =>
      decide (0 < attributeDepth ((tokens.take place).foldl attributeDepth depth) token) := by
  induction tokens generalizing depth place with
  | nil => rfl
  | cons token rest ih =>
      cases place with
      | zero => rfl
      | succ place =>
          rw [inAttribute, List.getElem?_cons_succ, ih, List.getElem?_cons_succ,
            List.take_succ_cons, List.foldl_cons]

end Reference

theorem Scan.Alike.attributeDepth {forgot : Bool} {token found : Token}
    (alike : Alike forgot token found) (depth : Nat) :
    Reference.attributeDepth depth found = Reference.attributeDepth depth token := by
  have words : ∀ entry ∈ TokenKind.keywords, ∀ depth,
      Reference.attributeDepth depth ⟨entry.2, [], 0⟩ = depth := by
    intro entry member depth
    have plain : entry.2.isKeyword = true :=
      (by decide : ∀ entry ∈ TokenKind.keywords, entry.2.isKeyword = true) entry member
    unfold Reference.attributeDepth
    cases kind : entry.2 <;> rw [kind] at plain <;> first | rfl | cases plain
  rcases alike.kind with same | ⟨-, member, word⟩
  · unfold Reference.attributeDepth
    rw [same]
  · have stays : Reference.attributeDepth depth found = depth := by
      rcases TokenKind.ofWord_cases token.text with plain | among
      · unfold Reference.attributeDepth
        rw [word, plain]
      · have one := words _ among depth
        unfold Reference.attributeDepth at one ⊢
        rw [word]
        exact one
    rw [stays, Reference.attributeDepth, member]

namespace Redirection

/-! ### The text without the assignments -/

section PutDown

variable {before after : Tree} {blocks : List RedirectionBlock}

theorem PutDown.over (putDown : PutDown before after blocks) (linked : before.Linked) {id : Nat}
    (inside : id < before.size) (atop : before.Over root id) : after.Over root id := by
  have above := ancestors_congr linked.ascending putDown.linked.ascending putDown.parent inside
  rw [Over, above]
  exact atop

theorem filter_parts_foldl (linked : before.Linked) (inside : ∀ block ∈ blocks,
      block.declares = true → block.id < before.size ∧ before.Over root block.id) :
    (blocks.foldl placeBlock before).parts.filter (fun part => part.id < before.size) =
      before.parts := by
  induction blocks using List.reverseRecOn with
  | nil =>
      exact List.filter_eq_self.mpr fun part member =>
        decide_eq_true (mem_parts linked.ascending linked.filled member)
  | append_singleton blocks block ih =>
      have early : ∀ other ∈ blocks, other.declares = true →
          other.id < before.size ∧ before.Over root other.id :=
        fun other member => inside other (List.mem_append_left _ member)
      have rest := ih early
      have putDown := putDown_foldl linked fun other member declares =>
        (early other member declares).1
      rw [List.foldl_append]
      change (placeBlock (blocks.foldl placeBlock before) block).parts.filter _ = _
      generalize blocks.foldl placeBlock before = prior at rest putDown
      cases declares : block.declares with
      | false =>
          rw [placeBlock_of_silent declares]
          exact rest
      | true =>
          obtain ⟨known, atop⟩ :=
            inside block (List.mem_append_right _ List.mem_cons_self) declares
          obtain ⟨index, line, -, placed⟩ := placeBlock_of_declares declares prior
          have grown : before.size ≤ prior.size := by
            rw [putDown.size]
            exact Nat.le_add_right _ _
          have spliced := spliced_apply putDown.linked.ascending (.insert block.id index
            (Node.synthetic (Text.joinWith [' '] block.assignments) line))
            (Nat.lt_of_lt_of_le known grown)
          have old := spliced.filter_parts putDown.linked (putDown.over linked known atop)
          rw [placed, ← rest, ← old, List.filter_filter]
          refine List.filter_congr fun part _ => ?_
          rw [Bool.eq_iff_iff, decide_eq_true_eq, Bool.and_eq_true, decide_eq_true_eq,
            decide_eq_true_eq]
          exact ⟨fun small => ⟨small, Nat.lt_of_lt_of_le small grown⟩, fun both => both.1⟩

end PutDown

variable {redirection : Redirection} {tree : Tree}

theorem filter_parts_redirect (redirection : Redirection) (linked : tree.Linked)
    (whole : tree.preorder root = List.range tree.size) :
    (redirection.redirect tree).2.parts.filter (fun part => part.id < tree.size) = tree.parts := by
  have once : tree.editableNodes.Nodup := (nodup_preorder linked linked.filled).filter _
  have inStep := runInStep_foldl redirection linked (fun _ member => editable_of_mem member) once
  unfold redirect
  simp only
  generalize tree.editableNodes.foldl redirectNode _ = run at inStep
  have children := inStep.property Node.children fun _ => rfl
  have same : run.tree.parts = tree.parts := by
    rw [Tree.parts, tour, inStep.size]
    exact tourWithin_congr children _ _
  rw [← same, ← inStep.size]
  apply filter_parts_foldl (inStep.linked linked)
  intro block member declares
  have known := inStep.lt_size_of_declares linked member declares
  refine ⟨known, ?_⟩
  rw [inStep.size] at known
  have above := ((mem_preorder linked linked.filled).mp (whole ▸ List.mem_range.mpr known)).2
  rw [Over, ancestors_congr linked.ascending (inStep.linked linked).ascending
    (fun id _ => inStep.property Node.parent (fun _ => rfl) id) known]
  exact above

/-! ### A redirected file, told by its tokens -/

/-- What a redirection chooses for a place in the code of a node. -/
def choice (redirection : Redirection) (tree : Tree) (id place : Nat) : Option Text :=
  if (tree.node id).isEditable then
    (hostOf? tree id).bind fun block =>
      ((redirection.entries tree id)[place]?.bind Prod.snd).map
        (redirection.variableIn (redirection.ledger tree) block)
  else none

/-- A place in plain code where a redirection puts a variable: the token there, the reference that
it is and the block that declares the variable. -/
structure Chosen (redirection : Redirection) (tree : Tree) (id place : Nat) (text : Text)
    (token : Token) (reference : Reference) (block : Nat) : Prop where
  editable : (tree.node id).isEditable = true
  host : hostOf? tree id = some block
  entry : (token, some reference) ∈ redirection.entries tree id
  refers : Refers redirection.reserved (redirection.importsFor tree id)
    (Fragment.tokens (tree.node id).body) token reference place
  text : text = redirection.variableIn (redirection.ledger tree) block reference

theorem choice_eq_some {id place : Nat} {text : Text}
    (chosen : redirection.choice tree id place = some text) :
    ∃ token reference block, Chosen redirection tree id place text token reference block := by
  unfold choice at chosen
  split at chosen
  · next editable =>
      obtain ⟨block, host, chosen⟩ := Option.bind_eq_some_iff.mp chosen
      obtain ⟨reference, found, put⟩ := Option.map_eq_some_iff.mp chosen
      obtain ⟨⟨token, same⟩, entry, isOne⟩ := Option.bind_eq_some_iff.mp found
      cases isOne
      obtain ⟨here, refers⟩ := List.getElem?_zip_eq_some.mp entry
      rw [Array.getElem?_toList] at here
      exact ⟨token, reference, block, editable, host, List.mem_of_getElem? entry,
        (refers_iff here).mp refers, put.symm⟩
  · cases chosen

/-- What is written for a node, told by the tokens of its code. -/
theorem written_eq_flatMap {id : Nat} (editable : (tree.node id).isEditable = true) :
    redirection.written tree (redirection.ledger tree) id =
      (List.range (Fragment.tokens (tree.node id).body).size).flatMap fun place =>
        (redirection.choice tree id place).getD
          ((Fragment.tokens (tree.node id).body).textAt place) := by
  unfold written
  cases host : hostOf? tree id with
  | none =>
      have texts : (Fragment.tokens (tree.node id).body).textBetween 0 _ = _ :=
        Tokens.textBetween_eq_flatMap (Nat.le_refl _)
      rw [Tokens.textBetween, Array.extract_size, Fragment.textOf_tokens, Nat.sub_zero,
        ← List.range_eq_range'] at texts
      refine texts.trans (List.flatMap_congr fun place _ => ?_)
      rw [choice, editable, if_pos rfl, host]
      rfl
  | some block =>
      simp only
      have length : (redirection.entries tree id).length =
          (Fragment.tokens (tree.node id).body).size := by
        rw [← Array.length_toList, ← fst_entries redirection tree id, List.length_map]
      rw [List.flatMap_def, List.flatMap_def]
      congr 1
      apply List.ext_getElem
      · rw [List.length_map, List.length_map, List.length_range, length]
      · intro place inside _
        rw [List.length_map] at inside
        have here := List.getElem?_eq_getElem inside
        have token : (Fragment.tokens (tree.node id).body)[place]? =
            some (redirection.entries tree id)[place].1 := by
          rw [← Array.getElem?_toList, ← fst_entries redirection tree id, List.getElem?_map, here]
          rfl
        rw [List.getElem_map, List.getElem_map, List.getElem_range, choice, editable, if_pos rfl,
          host, Option.bind_some, here, Option.bind_some, Tokens.textAt_of_getElem? token]
        rfl

theorem rewrites_redirect (redirection : Redirection) (linked : tree.Linked) :
    tree.Rewrites (redirection.choice tree) (redirection.redirect tree).2.partText := by
  obtain ⟨-, blocks, redirected⟩ := redirected_redirect redirection linked
  have known {part : Part} (member : part ∈ tree.parts) : part.id < tree.size :=
    mem_parts linked.ascending linked.filled member
  constructor
  case inCode =>
    intro _ _ _ chosen
    obtain ⟨_, _, _, chosen⟩ := choice_eq_some chosen
    exact chosen.editable
  case code =>
    intro id member editable
    have among : id ∈ tree.editableNodes :=
      List.mem_filter.mpr ⟨preorder_of_body_mem_tour member, editable⟩
    rw [partText, redirected.code id among, written_eq_flatMap editable]
  case other =>
    intro id member fixed
    refine redirected.other id (known member) fun among => ?_
    rw [editable_of_mem among] at fixed
    cases fixed
  case close => exact fun id member => redirected.property Node.close (fun _ => rfl) (known member)

/-- A redirected file without its assignments, told by the tokens of the file. -/
theorem writtenText_of_ranges {source : Text} {stretches : List Stretch}
    (ranges : tree.Ranges (TokenStream.ofText .html source).tokens stretches)
    (native : tree.Native) (whole : tree.preorder root = List.range tree.size)
    (redirection : Redirection) (file : Option Path) :
    (Weaver.weave redirection tree file).2.writtenText =
      (List.range (TokenStream.ofText .html source).tokens.size).flatMap
        (putAt stretches (TokenStream.ofText .html source).tokens (redirection.choice tree)) := by
  obtain ⟨-, blocks, redirected⟩ := redirected_redirect redirection native.linked
  have written := writtenText_of_parts redirected.linked
    (fun id known => redirected.synthetic_iff native known)
    (redirection.filter_parts_redirect native.linked whole)
  exact written.trans (ranges.written_parts (redirection.rewrites_redirect native.linked))

/-! ### Names in attributes -/

theorem attributeDepth_of_isReferable {token : Token} (referable : isReferable token.kind = true)
    (depth : Nat) : Reference.attributeDepth depth token = depth := by
  unfold Reference.attributeDepth
  cases kind : token.kind <;> rw [kind] at referable <;> first | rfl | cases referable

section Piece

variable {source : Text} {stretches : List Stretch}
  (ranges : tree.Ranges (TokenStream.ofText .html source).tokens stretches)
  {id first stop index : Nat} (member : ⟨.body id, first, stop⟩ ∈ stretches) (ends : index < stop)
include ranges member ends

/-- A name in a piece of plain code is taken to be in an attribute when the count along the file,
from the first token of the piece on, says so. -/
theorem inAttribute_of_piece (editable : (tree.node id).isEditable = true) (begins : first ≤ index)
    {token : Token} (here : (Fragment.tokens (tree.node id).body)[index - first]? = some token)
    (referable : isReferable token.kind = true) :
    (Reference.inAttribute 0 (scan .php (tree.node id).body))[index - first]? = some
      (decide (0 < (TokenStream.ofText .html source).tokens.attributeDepthAt first index)) := by
  have within : stop ≤ (TokenStream.ofText .html source).tokens.size :=
    ranges.consecutive.stop_le _ member
  obtain ⟨_, _, each⟩ := ranges.alike_at member editable
  obtain ⟨_, alike⟩ := ranges.alike member editable
  have counted : Reference.inAttribute 0 (scan .php (tree.node id).body) =
      Reference.inAttribute 0
        ((TokenStream.ofText .html source).tokens.extract first stop).toList :=
    inAttribute_congr 0 (map_eq_of_forall₂ (alike.imp fun _ _ one =>
      (funext one.attributeDepth).symm)).symm
  have inPiece : index - first < stop - first := by omega
  obtain ⟨old, again, isOld, isAgain, one⟩ := each (index - first) inPiece
  rw [Fragment.tokens, List.getElem?_toArray] at here
  obtain rfl : again = token := Option.some.inj (isAgain.symm.trans here)
  have there : ((TokenStream.ofText .html source).tokens.extract first stop).toList[
      index - first]? = some old := by
    rw [Array.getElem?_toList, Array.getElem?_extract, Nat.min_eq_left within, if_pos inPiece]
    exact isOld
  -- A name is no bracket, so the depth in front of it is the one that is counted.
  rw [counted, Reference.inAttribute_getElem?, there, Option.map_some,
    Tokens.take_extract begins (Nat.le_of_lt ends) within, ← one.attributeDepth,
    attributeDepth_of_isReferable referable]
  rfl

theorem choice_in_attribute {opening : Nat} (begins : first ≤ opening)
    (inAttribute : (TokenStream.ofText .html source).tokens.InAttribute opening index)
    (unbroken : (TokenStream.ofText .html source).tokens.Unbroken opening index) :
    redirection.choice tree id (index - first) = none := by
  cases chosen : redirection.choice tree id (index - first) with
  | none => rfl
  | some text =>
      exfalso
      obtain ⟨token, reference, _, chosen⟩ := choice_eq_some chosen
      have refers := chosen.refers
      have order := inAttribute.order
      have within : stop ≤ (TokenStream.ofText .html source).tokens.size :=
        ranges.consecutive.stop_le _ member
      have flag := inAttribute_of_piece ranges member ends chosen.editable
        (Nat.le_trans begins (Nat.le_of_lt order)) refers.here refers.isReferable
      have outside := refers.outside
      rw [Fragment.tokens, List.toList_toArray, flag] at outside
      have closed := of_decide_eq_false (Option.some.inj outside)
      have depth := inAttribute.depth_eq unbroken begins (by omega) order (Nat.le_refl index)
      have isIn := inAttribute.isIn index order (Nat.le_refl index)
      omega

end Piece

/-- What a redirection leaves as it is in a file: everything that is no plain code, and the tokens
of attributes as far as no other attribute begins and no code is cut in front of them. -/
structure SparesAttributes (redirection : Redirection) (tree : Tree) (tokens : Tokens)
    (stretches : List Stretch) (put : Nat → Text) : Prop where
  /-- The redirected file without its assignments, told by what is put down for each token. -/
  source : ∀ file, (Weaver.weave redirection tree file).2.writtenText =
    (List.range tokens.size).flatMap put
  fixed : ∀ index token, tokens[index]? = some token →
    (∀ id, ¬ tree.HoldsCode stretches id index) → put index = token.text
  inside : ∀ opening index token, tokens[index]? = some token →
    tokens.InAttribute opening index → tokens.Unbroken opening index → put index = token.text

/-- In every file that has a tree, a redirection leaves the tokens of an attribute as they are up to
the first string, comment, brace, semicolon or further attribute in it. -/
theorem attributes_of_parse {listLines : Bool} {source : Text} {tree : Tree}
    (parsed : parse listLines source = .ok tree) (redirection : Redirection) :
    ∃ stretches, tree.Ranges (TokenStream.ofText .html source).tokens stretches ∧
      redirection.SparesAttributes tree (TokenStream.ofText .html source).tokens stretches
        (putAt stretches (TokenStream.ofText .html source).tokens (redirection.choice tree)) := by
  obtain ⟨events, stretches, told⟩ := told_of_parse parsed
  have native := native_of_parse parsed
  have linked := native.linked
  obtain ⟨-, whole, -⟩ := made_of_parse parsed
  have rewrites := redirection.rewrites_redirect linked
  refine ⟨stretches, told.ranges, ?_, ?_, ?_⟩
  · exact writtenText_of_ranges told.ranges native whole redirection
  · exact fun _ _ here outside => told.ranges.putAt_fixed rewrites.inCode here outside
  · intro opening index token here inAttribute unbroken
    rcases told.ranges.putAt_cases rewrites.inCode here with same |
      ⟨id, first, stop, text, member, editable, behind, early, chosen⟩
    · exact same
    · have inTree : id < tree.size := (told.ranges.over_root linked member).1
      have goesOn (between : Nat) (after : opening ≤ between) (before : between < index)
          (kind : TokenKind) (isAt : (TokenStream.ofText .html source).tokens.kindAt between =
            some kind) : kind.cutsBehind = false := by
        rcases Nat.eq_or_lt_of_le after with rfl | past
        · rw [inAttribute.isOpen] at isAt
          cases isAt
          rfl
        · exact (unbroken between past before kind isAt).1
      obtain ⟨from_, upto, among, since, -⟩ := told.piece_of_goesOn
        (Scan.spelled_scan .html source) (Scan.tagged_scan .html source) linked
        ⟨editable, first, stop, member, behind, early⟩ (below_of_editable parsed inTree editable)
        goesOn
      cases told.ranges.same_stretch linked member among rfl
      rw [choice_in_attribute told.ranges member early since inAttribute unbroken] at chosen
      cases chosen

/-- A name in an array of an attribute, in front of a function with a call. -/
theorem attributes_of_parse_array :
    let source := "<?php #[A(B::C, [D::E])] function f()\x7bg();\x7d".toList
    ∃ tree stretches, parse false source = .ok tree ∧
      SparesAttributes {} tree (TokenStream.ofText .html source).tokens stretches
        (putAt stretches (TokenStream.ofText .html source).tokens
          (choice ({} : Redirection) tree)) ∧
      putAt stretches (TokenStream.ofText .html source).tokens
        (choice ({} : Redirection) tree) 10 = ['D'] := by
  intro source
  have closes : (parse false source).toBool = true := by decide +kernel
  have inAttribute : (TokenStream.ofText .html source).tokens.InAttribute 1 10 := by
    refine ⟨by decide +kernel, by decide, ?_⟩
    have all : ∀ upto ≤ 10, 1 < upto →
        0 < (TokenStream.ofText .html source).tokens.bracketsOver 1 upto := by
      decide +kernel
    exact fun upto behind until_ => all upto until_ behind
  have unbroken : (TokenStream.ofText .html source).tokens.Unbroken 1 10 := by
    have all : ∀ between < 10, 1 < between →
        ((TokenStream.ofText .html source).tokens.kindAt between).all (fun kind =>
          !kind.cutsBehind && kind != .attributeOpen) = true := by
      decide +kernel
    intro between behind early kind isAt
    have one := all between early behind
    rw [isAt, Option.all_some, Bool.and_eq_true, Bool.not_eq_true', bne_iff_ne] at one
    exact one
  cases parsed : parse false source with
  | error fault =>
      rw [parsed] at closes
      cases closes
  | ok tree =>
      obtain ⟨stretches, -, spares⟩ := attributes_of_parse parsed {}
      exact ⟨tree, stretches, rfl, spares,
        spares.inside 1 10 ⟨.identifier, ['D'], 1⟩ (by decide +kernel) inAttribute unbroken⟩

/-- A string cuts an attribute, and the name behind it is taken for a reference. -/
theorem attribute_cut_at_string :
    ((parse false "<?php #[A('x', B::C)] function f() \x7b\x7d".toList).toOption.map fun tree =>
      (Weaver.weave ({} : Redirection) tree none).2.source) =
        some ("<?php $__KMONKEY__0 = \\Kahlan\\Plugin\\Monkey::patched(".toList ++
          "__NAMESPACE__, 'B', false);#[A('x', $__KMONKEY__0::C)] ".toList ++
            "function f() \x7b\x7d".toList) := by
  decide +kernel

end Redirection

end PhpWeave
