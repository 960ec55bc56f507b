import PhpWeave.Proofs.Grammar.Tracking
import PhpWeave.Proofs.Weave.LineKeeping
import PhpWeave.Proofs.Weave.Retelling

set_option autoImplicit false

/-!
The declarations of an intercepted file. A preamble stands behind the brace where the read of the
file enters a function, so the read of the woven file goes past it and comes to the same namespaces,
imports, classes and functions. Only an import that fell back to plain code may be read otherwise:
the search for its end passes braces.
-/

namespace PhpWeave

open Scan PhpWeave.Tree

/-! ### Tokens of a woven file -/

section Ranges

variable {isPut : Nat → Prop} {all : Tokens} {added : Stretch → List Shape}

structure Stretch.Puts (isPut : Nat → Prop) (all : Tokens) (stretch : Stretch)
    (added : List Shape) : Prop where
  brace : ∃ front brace, stretch.tokens all = front ++ [brace] ∧ brace.kind = .openBrace ∧
    isPut (stretch.first + front.length)
  inset : ∃ tokens, Inset tokens ∧ tokens.map shape = added
  oneLine : '\n' ∉ added.flatMap Prod.snd

/-- Ranges that lie end to end, with code put in behind some of them. -/
theorem Stretch.Consecutive.grown {stretches : List Stretch} {first stop line : Nat}
    (consecutive : Consecutive first stretches stop) (inside : stop ≤ all.size)
    (limited : line ≤ lineLimit)
    (each : ∀ stretch ∈ stretches, added stretch ≠ [] →
      stretch.Puts isPut all (added stretch))
    (lined : numbered line ((all.extract first stop).toList.map shape) =
      (all.extract first stop).toList) :
    Grown isPut first (all.extract first stop).toList
      (numbered line (stretches.flatMap fun stretch =>
        (stretch.tokens all).map shape ++ added stretch)) := by
  induction stretches generalizing first line with
  | nil =>
      have same : first = stop := consecutive
      rw [same, Array.extract_empty_of_stop_le_start (Nat.le_refl stop)]
      exact .nil
  | cons stretch rest ih =>
      obtain ⟨here, others⟩ := List.forall_mem_cons.mp each
      obtain ⟨begins, order, later⟩ := consecutive
      have split : (all.extract first stop).toList =
          stretch.tokens all ++ (all.extract stretch.stop stop).toList := by
        rw [Stretch.tokens, begins, Tokens.extract_append order later.le]
      have length : first + (stretch.tokens all).length = stretch.stop := by
        have before := later.le
        rw [Stretch.tokens, Array.length_toList, Array.size_extract, begins]
        omega
      rw [split, List.map_append, numbered_append] at lined
      obtain ⟨front, back⟩ := List.append_inj lined (by rw [length_numbered, List.length_map])
      rw [split, List.flatMap_cons, List.append_assoc, numbered_append, front]
      have limit := lineAfter_le limited ((stretch.tokens all).map shape)
      have further : Grown isPut (first + (stretch.tokens all).length)
          (all.extract stretch.stop stop).toList
          (numbered (lineAfter line ((stretch.tokens all).map shape)) (rest.flatMap fun stretch =>
            (stretch.tokens all).map shape ++ added stretch)) := by
        rw [length]
        exact ih later limit others back
      by_cases none : added stretch = []
      · rw [none, List.nil_append]
        exact .keep_front _ further
      · have puts := here none
        obtain ⟨before, brace, ends, isOpen, isOne⟩ := puts.brace
        obtain ⟨tokens, inset, shapes⟩ := puts.inset
        rw [numbered_append, lineAfter_of_oneLine limit puts.oneLine]
        rw [ends] at further ⊢
        exact further.put_last (begins ▸ isOne) isOpen
          (inset.congr (by rw [map_shape_numbered, shapes]))

end Ranges

/-! ### Woven files -/

theorem numbered_fileShapes (source : Text) :
    numbered 1 (fileShapes source) = (TokenStream.ofText .html source).tokens.toList :=
  numbered_tokensFrom (State.start .html) source

theorem Tree.Ranges.puts_behind {tree : Tree} {source : Text} {stretches : List Stretch}
    (ranges : tree.Ranges (TokenStream.ofText .html source).tokens stretches) {stretch : Stretch}
    (member : stretch ∈ stretches)
    (some : Fragment.shapes (({} : Interception).behind tree stretch.part) ≠ []) :
    stretch.Puts (Reader.Enters (TokenStream.ofText .html source).tokens)
      (TokenStream.ofText .html source).tokens
      (Fragment.shapes (({} : Interception).behind tree stretch.part)) := by
  have filled : ({} : Interception).behind tree stretch.part ≠ [] := fun none => by
    rw [none] at some
    exact some rfl
  obtain ⟨id, -, preamble, -, -⟩ := Interception.behind_of_selects filled
  obtain ⟨front, brace, split, isOpen, enters⟩ := ranges.brace_of_behind member filled
  refine ⟨⟨front, brace, split, congrArg Prod.fst isOpen, enters⟩, ?_, ?_⟩
  · rw [preamble]
    exact ⟨_, Interception.inset_preamble (tree.node id).flags, rfl⟩
  · have spelled : (Fragment.shapes (({} : Interception).behind tree stretch.part)).flatMap
        Prod.snd = ({} : Interception).behind tree stretch.part := Fragment.spell_shapes _
    rw [spelled, preamble]
    exact ({} : Interception).oneLine_preamble (by decide) (by decide) _

theorem Tree.Ranges.grown {tree : Tree} {source : Text} {stretches : List Stretch}
    (ranges : tree.Ranges (TokenStream.ofText .html source).tokens stretches)
    (linked : tree.Linked) :
    Grown (Reader.Enters (TokenStream.ofText .html source).tokens) 0
      (TokenStream.ofText .html source).tokens.toList
      (TokenStream.ofText .html (({} : Interception).woven tree).source).tokens.toList := by
  have lined := numbered_fileShapes source
  have all := (TokenStream.ofText .html source).tokens.extract_size
  rw [← numbered_fileShapes (({} : Interception).woven tree).source, fileShapes,
    ranges.scan_intercepted linked]
  have grown := ranges.consecutive.grown (Nat.le_refl _) (show 1 ≤ lineLimit by decide)
    (fun stretch member some => ranges.puts_behind member some) (by rw [all]; exact lined)
  rw [all] at grown
  exact grown

/-- An intercepted file has a tree again, and the tree has the same namespaces, imports, class-like
declarations and functions in the same order, with the same names and with bodies where there were
bodies, when every import of the file was read as one. -/
theorem relisted_of_parse {listLines : Bool} {source : Text} {tree : Tree}
    (parsed : parse listLines source = .ok tree)
    (read : Reader.ImportsRead (TokenStream.ofText .html source).tokens) (file : Option Path) :
    ∃ again, parse listLines (Weaver.weave ({} : Interception) tree file).2.source = .ok again ∧
      again.declarations = tree.declarations := by
  have linked := (native_of_parse parsed).linked
  obtain ⟨-, -, stretches, parts, consecutive, made⟩ := made_of_parse parsed
  have ranges : tree.Ranges (TokenStream.ofText .html source).tokens stretches :=
    ⟨parts, consecutive, made⟩
  obtain ⟨events, done, declares⟩ := declarations_of_parse parsed
  obtain ⟨others, otherDone, same⟩ := Reader.eventsOf_grown (spelled_scan .html source)
    (tagged_scan .html source) (spelled_scan .html _) (tagged_scan .html _) read
    (fun _ enters => enters) (ranges.grown linked) done
  obtain ⟨again, reparsed⟩ := parse_of_eventsOf otherDone listLines
  obtain ⟨others', otherDone', declaresAgain⟩ := declarations_of_parse reparsed
  obtain rfl := Except.ok.inj (otherDone'.symm.trans otherDone)
  exact ⟨again, reparsed, by rw [declaresAgain, same, declares]⟩

/-- An import and a function that is intercepted. -/
theorem relisted_of_parse_import :
    let source := "<?php use A;function f(){}".toList
    ∃ tree again, parse false source = .ok tree ∧
      Reader.ImportsRead (TokenStream.ofText .html source).tokens ∧
      parse false (Weaver.weave ({} : Interception) tree none).2.source = .ok again ∧
      again.declarations = tree.declarations := by
  intro source
  have closes : (parse false source).toBool = true := by decide +kernel
  have only : ∀ index : Fin (TokenStream.ofText .html source).tokens.size,
      (TokenStream.ofText .html source).tokens.kindAt index = some .kwUse → index.val = 1 := by
    decide +kernel
  have tag : (TokenStream.ofText .html source).tokens[0]? =
      some ⟨.openTag, "<?php ".toList, 1⟩ := by decide +kernel
  have first : Reader.Reached (TokenStream.ofText .html source).tokens
      (Reader.start.markup (TokenStream.ofText .html source).tokens
        ⟨.openTag, "<?php ".toList, 1⟩) := .single ⟨_, tag, rfl⟩
  have imported : ((Reader.start.markup (TokenStream.ofText .html source).tokens
      ⟨.openTag, "<?php ".toList, 1⟩).useWord
      (TokenStream.ofText .html source).tokens).events.toList.any
        (fun event => match event with
          | .leaf node first _ => node.kind == .imports && first == 1
          | _ => false) = true := by decide +kernel
  have read : Reader.ImportsRead (TokenStream.ofText .html source).tokens := by
    intro reader reached word _ _
    have stands := only ⟨reader.pos, Tokens.lt_size_of_kindAt word⟩ word
    obtain rfl := reached.eq_of_pos (spelled_scan .html source) (tagged_scan .html source) first
      stands
    obtain ⟨event, member, holds⟩ := List.any_eq_true.mp imported
    cases event with
    | leaf node first last =>
        obtain ⟨isOne, here⟩ := Bool.and_eq_true_iff.mp holds
        obtain rfl : first = 1 := eq_of_beq here
        exact ⟨node, last, eq_of_beq isOne, member⟩
    | enter | leave | yields | imports => cases holds
  cases parsed : parse false source with
  | error fault =>
      rw [parsed] at closes
      cases closes
  | ok tree =>
      obtain ⟨again, reparsed, same⟩ := relisted_of_parse parsed read none
      exact ⟨tree, again, rfl, read, reparsed, same⟩

end PhpWeave
