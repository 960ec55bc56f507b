import PhpWeave.Proofs.Weave.Relisting
import PhpWeave.Proofs.Weave.Rereading
import PhpWeave.Proofs.Weave.Tokenwise

set_option autoImplicit false

/-!
The hook for exits reaches a fixpoint in one run. The calls that it writes keep the extent of every
construct, so what it wrote has a tree again, with its plain code in the same pieces; and in a piece
that it wrote it finds no exit.
-/

namespace PhpWeave

open Scan PhpWeave.Tree

/-! ### Lists told token by token -/

section Told

variable {isPut : Nat → Prop} {told : Nat → List Shape} {tokens others : Tokens}
  {index line first stop : Nat} {token : Token}

/-- The place of a token in a list that is told token by token. -/
def spotOf (told : Nat → List Shape) (index : Nat) : Nat := ((List.range index).flatMap told).length

theorem spotOf_succ (told : Nat → List Shape) (index : Nat) :
    spotOf told (index + 1) = spotOf told index + (told index).length := by
  rw [spotOf, List.range_succ, List.flatMap_append, List.length_append, List.flatMap_singleton,
    spotOf]

structure TellsExits (isPut : Nat → Prop) (told : Nat → List Shape) (tokens : Tokens) : Prop where
  kept : ∀ index token, tokens[index]? = some token → ¬ isPut index → told index = [shape token]
  put : ∀ index, isPut index → ∃ token, ExitAt tokens index token ∧
    (told index = ExitHook.hookShapes ∨ told index = ExitHook.callShapes)

structure Lined (told : Nat → List Shape) (tokens others : Tokens) (index line : Nat) : Prop where
  limited : line ≤ lineLimit
  here : tokens.toList.drop index = numbered line ((tokens.toList.drop index).map shape)
  there : others.toList.drop (spotOf told index) =
    numbered line ((List.range' index (tokens.size - index)).flatMap told)

namespace Lined

variable (lined : Lined told tokens others index line)
include lined

theorem token_eq (here : tokens[index]? = some token) :
    token = ⟨token.kind, token.text, line⟩ := by
  have stands := lined.here
  rw [drop_of_getElem? here, List.map_cons, numbered] at stands
  exact (List.cons.inj stands).1

theorem split (inside : index < tokens.size) : others.toList.drop (spotOf told index) =
    numbered line (told index) ++ numbered (lineAfter line (told index))
      ((List.range' (index + 1) (tokens.size - (index + 1))).flatMap told) := by
  have count : tokens.size - index = tokens.size - (index + 1) + 1 := by omega
  rw [lined.there, count, List.range'_succ, List.flatMap_cons, numbered_append]

theorem behind (inside : index < tokens.size) : others.toList.drop (spotOf told (index + 1)) =
    numbered (lineAfter line (told index))
      ((List.range' (index + 1) (tokens.size - (index + 1))).flatMap told) := by
  rw [spotOf_succ, ← List.drop_drop, lined.split inside]
  exact List.drop_left' (length_numbered _ _)

theorem next (here : tokens[index]? = some token)
    (same : lineAfter line (told index) = lineAfter line [shape token]) :
    Lined told tokens others (index + 1) (lineAfter line [shape token]) where
  limited := lineAfter_le lined.limited _
  here := by
    have stands := lined.here
    rw [drop_of_getElem? here, List.map_cons, numbered] at stands
    exact (List.cons.inj stands).2
  there := by
    rw [lined.behind (Array.getElem?_eq_some_iff.mp here).1, same]

end Lined

namespace TellsExits

variable (tells : TellsExits isPut told tokens) (worded : Worded tokens)
include tells

theorem told_cases (here : tokens[index]? = some token) : told index = [shape token] ∨
    ExitAt tokens index token ∧
      (told index = ExitHook.hookShapes ∨ told index = ExitHook.callShapes) := by
  by_cases isOne : isPut index
  · obtain ⟨other, exit, isHook⟩ := tells.put index isOne
    cases exit.here.symm.trans here
    exact .inr ⟨exit, isHook⟩
  · exact .inl (tells.kept index token here isOne)

include worded

theorem sameLine (here : tokens[index]? = some token) (limited : line ≤ lineLimit) :
    lineAfter line (told index) = lineAfter line [shape token] := by
  rcases tells.told_cases here with same | ⟨exit, isHook⟩
  · rw [same]
  · have likeName : ∀ kind ∈ exitKinds, kind.isIdentifierLike = true := by decide
    have word : '\n' ∉ [shape token].flatMap Prod.snd := by
      rw [List.flatMap_singleton]
      exact worded.oneLine (Array.mem_of_getElem? here) (likeName _ exit.kind)
    have calls : '\n' ∉ (told index).flatMap Prod.snd := by
      rcases isHook with same | same
      · rw [same]
        decide
      · rw [same]
        decide
    rw [lineAfter_of_oneLine limited calls, lineAfter_of_oneLine limited word]

theorem exists_lined (lined : numbered 1 (tokens.toList.map shape) = tokens.toList)
    (others_eq : others.toList = numbered 1 ((List.range tokens.size).flatMap told))
    (inside : index ≤ tokens.size) : ∃ line, Lined told tokens others index line := by
  induction index with
  | zero =>
      refine ⟨1, by decide, lined.symm, ?_⟩
      rw [Nat.sub_zero, ← List.range_eq_range']
      exact others_eq
  | succ index ih =>
      obtain ⟨line, lined⟩ := ih (Nat.le_of_succ_le inside)
      have here : tokens[index]? = some tokens[index] := Array.getElem?_eq_getElem inside
      exact ⟨_, lined.next here (tells.sameLine worded here lined.limited)⟩

theorem hooked (lined : numbered 1 (tokens.toList.map shape) = tokens.toList)
    (others_eq : others.toList = numbered 1 ((List.range tokens.size).flatMap told)) :
    Hooked isPut (spotOf told) tokens others where
  start := rfl
  size := by
    have length := congrArg List.length others_eq
    rw [length_numbered, Array.length_toList] at length
    exact length.symm
  kept := by
    intro index token here notPut
    obtain ⟨inside, -⟩ := Array.getElem?_eq_some_iff.mp here
    obtain ⟨line, at_⟩ := tells.exists_lined worded lined others_eq (Nat.le_of_lt inside)
    have same := tells.kept index token here notPut
    have there := at_.split inside
    rw [same, numbered, numbered, List.singleton_append] at there
    refine ⟨here, ?_, ?_⟩
    · rw [(getElem?_of_drop there).1]
      exact congrArg some (at_.token_eq here).symm
    · rw [spotOf_succ, same]
      rfl
  put := by
    intro index isOne
    obtain ⟨token, exit, isHook⟩ := tells.put index isOne
    obtain ⟨inside, -⟩ := Array.getElem?_eq_some_iff.mp exit.here
    obtain ⟨line, at_⟩ := tells.exists_lined worded lined others_eq (Nat.le_of_lt inside)
    refine ⟨token, numbered line (told index), exit, ?_, ?_, ?_⟩
    · rw [IsHook, map_shape_numbered]
      exact isHook
    · rw [at_.split inside, at_.behind inside]
    · rw [spotOf_succ, length_numbered]

end TellsExits

theorem range_flatMap_append (order : first ≤ stop) : (List.range first).flatMap told ++
    (List.range' first (stop - first)).flatMap told = (List.range stop).flatMap told := by
  have whole := Stretch.flatMap_range'_append told (Nat.zero_le first) order
  rwa [Nat.sub_zero, Nat.sub_zero, ← List.range_eq_range', ← List.range_eq_range'] at whole

theorem textBetween_spotOf
    (shapes_eq : others.toList.map shape = (List.range tokens.size).flatMap told)
    (order : first ≤ stop) (inside : stop ≤ tokens.size) :
    others.textBetween (spotOf told first) (spotOf told stop) =
      spell ((List.range' first (stop - first)).flatMap told) := by
  have length : spotOf told stop - spotOf told first =
      ((List.range' first (stop - first)).flatMap told).length := by
    rw [spotOf, ← range_flatMap_append order, List.length_append, spotOf, Nat.add_sub_cancel_left]
  rw [Tokens.textBetween, ← spell_shapes, Array.toList_extract, List.extract_eq_take_drop,
    List.map_take, List.map_drop, shapes_eq, ← range_flatMap_append inside,
    ← range_flatMap_append order, List.append_assoc, length, spotOf, List.drop_left, List.take_left]

end Told

/-! ### Files with hooked exits -/

namespace ExitHook

variable {exitHook : ExitHook} {tokens : Tokens} {index : Nat} {text : Text}

theorem choose_eq_some (hook : exitHook.hook = spell hookShapes)
    (chosen : exitHook.choose tokens index = some text) :
    ∃ token, tokens[index]? = some token ∧ token.kind = .kwExit ∧
      (Fragment.shapes text = hookShapes ∨ Fragment.shapes text = callShapes) := by
  have isExit : tokens.isAt index .kwExit = true := by
    unfold choose at chosen
    split at chosen
    · next both => exact (Bool.and_eq_true_iff.mp both).1
    · cases chosen
  obtain ⟨token, here, isOne⟩ := Tokens.kindAt_eq_some.mp (eq_of_beq isExit)
  refine ⟨token, here, isOne, ?_⟩
  rw [(follows hook).chosen tokens index token here] at chosen
  obtain ⟨added, isHook, rfl⟩ := Option.map_eq_some_iff.mp chosen
  rcases (choice_eq_some isHook).2 with rfl | rfl
  · exact .inl stands_hook.alone
  · exact .inr stands_call.alone

end ExitHook

section Files

variable {tree : Tree} {stretches : List Stretch} {source : Text} {chosen : Nat → Nat → Option Text}
  {index : Nat} {text : Text}

theorem Tree.chosenAt_eq_some (isOne : chosenAt stretches chosen index = some text) :
    ∃ id first stop, ⟨.body id, first, stop⟩ ∈ stretches ∧ first ≤ index ∧ index < stop ∧
      chosen id (index - first) = some text := by
  obtain ⟨⟨part, first, stop⟩, found, isOne⟩ := Option.bind_eq_some_iff.mp isOne
  have covers := List.find?_some found
  rw [decide_eq_true_eq] at covers
  cases part with
  | close id => cases isOne
  | body id =>
      exact ⟨id, first, stop, List.mem_of_find?_eq_some found, covers.1, covers.2, isOne⟩

def Tree.IsHooked (tree : Tree) (stretches : List Stretch) (index : Nat) : Prop :=
  (chosenAt stretches (tree.editChoice ({} : ExitHook).choose) index).isSome = true

/-- Where a token of a file comes to stand when the exits of the file are hooked. -/
def Tree.hookedSpot (tree : Tree) (stretches : List Stretch) (tokens : Tokens) : Nat → Nat :=
  spotOf (toldAt stretches tokens (tree.editChoice ({} : ExitHook).choose))

theorem Tree.IsHooked.holds (isOne : tree.IsHooked stretches index) :
    ∃ id, tree.HoldsCode stretches id index := by
  obtain ⟨text, chosen⟩ := Option.isSome_iff_exists.mp isOne
  obtain ⟨id, first, stop, member, behind, before, chosen⟩ := chosenAt_eq_some chosen
  exact ⟨id, (editChoice_eq_some chosen).1, first, stop, member, behind, before⟩

theorem Tree.Ranges.tellsExits
    (ranges : tree.Ranges (TokenStream.ofText .html source).tokens stretches) :
    TellsExits (tree.IsHooked stretches)
      (toldAt stretches (TokenStream.ofText .html source).tokens
        (tree.editChoice ({} : ExitHook).choose))
      (TokenStream.ofText .html source).tokens where
  kept := by
    intro index token here fixed
    have none : chosenAt stretches (tree.editChoice ({} : ExitHook).choose) index = none :=
      Option.not_isSome_iff_eq_none.mp fixed
    rw [toldAt, none, here]
    rfl
  put := by
    intro index isOne
    obtain ⟨text, chosen⟩ := Option.isSome_iff_exists.mp isOne
    obtain ⟨id, first, stop, member, behind, before, inCode⟩ := chosenAt_eq_some chosen
    obtain ⟨editable, choice⟩ := editChoice_eq_some inCode
    obtain ⟨found, there, isExit, isHook⟩ :=
      ExitHook.choose_eq_some ExitHook.spell_hook.symm choice
    obtain ⟨-, forgot, alike⟩ := ranges.alike_at member editable
    obtain ⟨token, other, here, again, same⟩ :=
      alike (index - first) (Nat.sub_lt_sub_right behind before)
    rw [Nat.add_sub_cancel' behind] at here
    rw [Fragment.tokens, List.getElem?_toArray] at there
    cases again.symm.trans there
    have word : TokenKind.ofWord token.text = .kwExit := by
      rw [← same.text, ← isExit]
      exact ofWord_of_mem (List.mem_of_getElem? there) (isExit ▸ rfl)
    refine ⟨token, ⟨here, ?_, fun isName => ?_, word⟩, ?_⟩
    · rcases same.kind with like | ⟨-, isName, -⟩
      · rw [← like, isExit]
        decide
      · rw [isName]
        decide
    · have scanned : (TokenStream.ofText .html source).tokens = (scan .html source).toArray := rfl
      have isMember := isMemberName_of_word scanned here isName (by rw [word]; decide)
      rw [Tokens.isMemberName, isMember]
      rfl
    · rw [toldAt, chosen]
      exact isHook

/-- The tokens of a file are those of the file before its exits were hooked, with calls in the place
of the exits. -/
theorem Tree.Ranges.hooked
    (ranges : tree.Ranges (TokenStream.ofText .html source).tokens stretches)
    (linked : tree.Linked) :
    Hooked (tree.IsHooked stretches)
      (tree.hookedSpot stretches (TokenStream.ofText .html source).tokens)
      (TokenStream.ofText .html source).tokens
      (TokenStream.ofText .html (tree.editCode ({} : ExitHook).choose).source).tokens := by
  refine ranges.tellsExits.hooked (worded_scan .html source) (numbered_fileShapes source) ?_
  rw [← numbered_fileShapes, ranges.scan_editCode_eq linked
    (ExitHook.follows ExitHook.spell_hook.symm)]

theorem Tree.Ranges.textBetween_hooked
    (ranges : tree.Ranges (TokenStream.ofText .html source).tokens stretches)
    (linked : tree.Linked) {id first stop : Nat} (member : ⟨.body id, first, stop⟩ ∈ stretches)
    (editable : (tree.node id).isEditable = true) :
    (TokenStream.ofText .html (tree.editCode ({} : ExitHook).choose).source).tokens.textBetween
        (tree.hookedSpot stretches (TokenStream.ofText .html source).tokens first)
        (tree.hookedSpot stretches (TokenStream.ofText .html source).tokens stop) =
      Fragment.edited ({} : ExitHook).choose (tree.node id).body := by
  have follows := ExitHook.follows ExitHook.spell_hook.symm
  have edits : tree.editsPart (.body id) = true := editable
  have written := (ranges.replaced_edited follows member).2
  rw [ranges.retold_eq _ member, partEdited, if_pos edits] at written
  rw [hookedSpot, textBetween_spotOf (ranges.scan_editCode_eq linked follows)
    (ranges.consecutive.order _ member) (ranges.consecutive.stop_le _ member)]
  exact written

/-- The read of a file passes the exits that are hooked one by one, but for those of an import
statement that it gives up. -/
theorem Told.spares_hooked {tokens : Tokens} {events : List Event}
    (told : Told tokens events tree stretches) (spelled : Spelled tokens) (tagged : Tagged tokens) :
    Reader.Spares (tree.IsHooked stretches) tokens := by
  intro reader next reached moves place isOne behind before
  obtain ⟨id, holds⟩ := isOne.holds
  obtain ⟨other, token, after, otherReached, otherMoves, goes, passed⟩ :=
    told.passed_of_holds spelled tagged holds
  have same (since : other.pos ≤ place) (until_ : place < after.pos) : reader = other :=
    reached.eq_of_passing spelled tagged moves (Nat.le_of_lt behind) before otherReached otherMoves
      since until_
  rcases passed with ⟨stands, onward, -⟩ | ⟨stands, onward, -⟩ |
    ⟨isUse, -, since, until_, pending, -⟩
  · have one := same (by omega) (by omega)
    rw [one] at behind
    omega
  · have one := same (by omega) (by omega)
    rw [one] at behind
    omega
  · obtain rfl := same since until_
    obtain rfl := Reader.moves_unique moves otherMoves
    exact ⟨Tokens.kindAt_eq_some.mpr ⟨token, goes.here, isUse⟩, pending⟩

/-! ### Pieces of plain code -/

theorem Told.code_of_piece {tokens : Tokens} {events : List Event}
    (told : Told tokens events tree stretches) {first stop : Nat}
    (member : (first, stop) ∈ events.filterMap Event.piece?) :
    ∃ id, ⟨.body id, first, stop⟩ ∈ stretches ∧ (tree.node id).isEditable = true := by
  obtain ⟨event, among, isPiece⟩ := List.mem_filterMap.mp member
  obtain ⟨before, after, split⟩ := List.append_of_mem among
  have found {node : Node} {from_ last : Nat}
      (reports : event = .leaf node from_ last ∨ event = .enter node from_ last)
      (isPiece : (if node.isEditable then some (from_, last + 1) else none) = some (first, stop)) :
      ∃ id, ⟨.body id, first, stop⟩ ∈ stretches ∧ (tree.node id).isEditable = true := by
    have placed : events = before ++ .leaf node from_ last :: after ∨
        events = before ++ .enter node from_ last :: after := by
      rcases reports with same | same
      · exact .inl (same ▸ split)
      · exact .inr (same ▸ split)
    have housed := told.housed before node from_ last after placed
    cases editable : node.isEditable with
    | false =>
        rw [editable] at isPiece
        cases isPiece
    | true =>
        rw [editable] at isPiece
        cases isPiece
        exact ⟨_, housed.among, (housed.property Node.isEditable fun _ => rfl).trans editable⟩
  cases event with
  | leaf node first last => exact found (.inl rfl) isPiece
  | enter node first last => exact found (.inr rfl) isPiece
  | leave | yields | imports => cases isPiece

theorem Told.piece_of_code {tokens : Tokens} {events : List Event}
    (told : Told tokens events tree stretches) {id : Nat} (inside : id < tree.size)
    (below : root < id) (editable : (tree.node id).isEditable = true) :
    ∃ first stop, (first, stop) ∈ events.filterMap Event.piece? ∧
      ⟨.body id, first, stop⟩ ∈ stretches := by
  obtain ⟨before, event, node, first, last, among, reports, housed⟩ :=
    told.exists_housed inside below
  have same : node.isEditable = true :=
    (housed.property Node.isEditable fun _ => rfl).symm.trans editable
  refine ⟨first, last + 1, List.mem_filterMap.mpr ⟨event, among, ?_⟩, housed.among⟩
  rcases reports with rfl | rfl
  · exact if_pos same
  · exact if_pos same

/-- When the pieces of a file with its exits hooked are those of the file, moved to where their
tokens stand, the code of each node is that of a node of the file with its exits hooked. -/
theorem Told.exists_original {events otherEvents : List Event} {again : Tree}
    {others : List Stretch}
    (told : Told (TokenStream.ofText .html source).tokens events tree stretches)
    (linked : tree.Linked) (toldAgain : Told (TokenStream.ofText .html
      (tree.editCode ({} : ExitHook).choose).source).tokens otherEvents again others)
    (pieces : otherEvents.filterMap Event.piece? = (events.filterMap Event.piece?).map
      (Prod.map (tree.hookedSpot stretches (TokenStream.ofText .html source).tokens)
        (tree.hookedSpot stretches (TokenStream.ofText .html source).tokens)))
    {id : Nat} (inside : id < again.size) (below : root < id)
    (editable : (again.node id).isEditable = true) :
    ∃ original, (again.node id).body =
      Fragment.edited ({} : ExitHook).choose (tree.node original).body := by
  obtain ⟨first, stop, isPiece, among⟩ := toldAgain.piece_of_code inside below editable
  rw [pieces] at isPiece
  obtain ⟨⟨from_, upto⟩, piece, same⟩ := List.mem_map.mp isPiece
  cases same
  obtain ⟨original, stands, plain⟩ := told.code_of_piece piece
  exact ⟨original, (toldAgain.ranges.made _ among).text.trans
    (told.ranges.textBetween_hooked linked stands plain)⟩

end Files

namespace ExitHook

variable {listLines : Bool} {source : Text} {tree : Tree}

/-- A file with its exits hooked has a tree again, and the hook finds no exit in it. -/
theorem fixpoint_of_parse (parsed : parse listLines source = .ok tree) (listAgain : Bool)
    (file other : Option Path) :
    ∃ again, parse listAgain (Weaver.weave ({} : ExitHook) tree file).2.source = .ok again ∧
      (Weaver.weave ({} : ExitHook) again other).2 = again ∧
      (Weaver.weave ({} : ExitHook) again other).2.source =
        (Weaver.weave ({} : ExitHook) tree file).2.source := by
  have linked := (native_of_parse parsed).linked
  obtain ⟨events, stretches, told⟩ := told_of_parse parsed
  have scanned : Import.Scanned (TokenStream.ofText .html
      (tree.editCode ({} : ExitHook).choose).source).tokens.toList :=
    fun token member => ⟨_, _, member⟩
  obtain ⟨otherEvents, done, pieces⟩ := Reader.eventsOf_hooked (told.ranges.hooked linked) scanned
    (told.spares_hooked (spelled_scan .html source) (tagged_scan .html source))
    (spelled_scan .html source) (tagged_scan .html source) (spelled_scan .html _)
    (tagged_scan .html _) told.read
  obtain ⟨again, reparsed⟩ := parse_of_eventsOf done listAgain
  have linkedAgain := (native_of_parse reparsed).linked
  obtain ⟨eventsAgain, stretchesAgain, toldAgain⟩ := told_of_parse reparsed
  obtain rfl := Except.ok.inj (toldAgain.read.symm.trans done)
  have fixed : again.editCode ({} : ExitHook).choose = again := by
    rw [editCode_eq linkedAgain]
    refine revise_of_fixed linkedAgain fun id member => ?_
    obtain ⟨inside, -⟩ := (mem_preorder linkedAgain linkedAgain.filled).mp member
    cases editable : (again.node id).isEditable with
    | false => exact Node.edited_of_fixed editable
    | true =>
        obtain ⟨original, written⟩ := told.exists_original linked toldAgain pieces inside
          (below_of_editable reparsed inside editable) editable
        rw [Node.edited, editable, if_pos rfl, written, edited_idem spell_hook.symm, ← written]
  refine ⟨again, reparsed, fixed, ?_⟩
  exact (congrArg Tree.source fixed).trans (printed_of_parse reparsed)

/-- An exit with an argument, one without, and a method of that name. -/
theorem fixpoint_of_parse_method :
    let source := "<?php class A{function f(){exit;}} $a->exit(); die(1);\n".toList
    ∃ tree again, parse false source = .ok tree ∧
      parse false (Weaver.weave ({} : ExitHook) tree none).2.source = .ok again ∧
      (Weaver.weave ({} : ExitHook) again none).2 = again ∧
      (Weaver.weave ({} : ExitHook) again none).2.source =
        (Weaver.weave ({} : ExitHook) tree none).2.source := by
  intro source
  have closes : (parse false source).toBool = true := by decide +kernel
  cases parsed : parse false source with
  | error fault =>
      rw [parsed] at closes
      cases closes
  | ok tree =>
      obtain ⟨again, reparsed, same, unchanged⟩ := fixpoint_of_parse parsed false none none
      exact ⟨tree, again, rfl, reparsed, same, unchanged⟩

end ExitHook
end PhpWeave
