import PhpWeave.Proofs.Weave.Isolation
import PhpWeave.Proofs.Weave.Redirection
import PhpWeave.Weave.Interception
import PhpWeave.Weave.Standard
import PhpWeave.Weave.Weaver

set_option autoImplicit false

/-!
The weavers that keep lines. Interception, redirection, the hook for exits, pinned paths and
isolation leave every line feed of a file where it is, as long as what they put in has none; so in a
file that any chain of them has woven, code that was put in says the line that it stands on.
-/

namespace PhpWeave

open PhpWeave.Tree

variable {tree : Tree} {feeds : Nat}

/-! ### Interception -/

namespace Interception

theorem oneLine_preamble (interception : Interception) (hook : '\n' ∉ interception.hook)
    (tag : '\n' ∉ interception.tag) (flags : Flags) : '\n' ∉ interception.preamble flags := by
  have named (part : String) (plain : '\n' ∉ part.toList) :
      '\n' ∉ interception.variableNamed part := by
    simp [variableNamed, tag, plain]
  have bail : '\n' ∉ interception.bail flags := by
    simp only [Interception.bail]
    split
    · simp [named]
    · split <;> simp [named]
  have owner : '\n' ∉ (if flags.method then "isset($this) ? $this : get_called_class()"
      else "null").toList := by split <;> decide
  have name : '\n' ∉ (if flags.method then "__METHOD__" else "__FUNCTION__").toList := by
    split <;> decide
  simp [preamble, hook, named, bail, owner, name]

theorem preamble_ne_nil (interception : Interception) (flags : Flags) :
    interception.preamble flags ≠ [] := by
  simp [preamble, variableNamed]

theorem lined_weave (interception : Interception) (hook : '\n' ∉ interception.hook)
    (tag : '\n' ∉ interception.tag) (lined : tree.Lined feeds) :
    ((interception.targets tree).foldl interception.intercept tree).Lined feeds := by
  -- Functions are in the table and are functions all along, for only code is put in.
  have all : ((interception.targets tree).foldl interception.intercept tree).Lined feeds ∧
      tree.KeepsKinds ((interception.targets tree).foldl interception.intercept tree) := by
    refine List.foldlRecOn (interception.targets tree) interception.intercept
      (motive := fun woven => woven.Lined feeds ∧ tree.KeepsKinds woven) ⟨lined, .refl tree⟩ ?_
    rintro woven ⟨kept, kinds⟩ id member
    obtain ⟨reached, selected⟩ := List.mem_filter.mp member
    obtain ⟨inside, kind⟩ :=
      kinds id ((mem_preorder lined.linked lined.linked.filled).mp reached).1
    have isFunction : (tree.node id).kind = .function := by
      simp only [selects, Node.isNamedFunction, Bool.and_eq_true, decide_eq_true_eq] at selected
      exact selected.1.1.1.1
    have solid : (woven.node id).kind ≠ .code := by
      rw [kind, isFunction]
      exact NodeKind.noConfusion
    exact ⟨kept.insert inside solid (interception.preamble_ne_nil _)
      (interception.oneLine_preamble hook tag _) 0, kinds.trans (kept.keepsKinds_insert inside 0 _)⟩
  exact all.1

end Interception

/-! ### Chains -/

namespace StandardWeaver

/-- Whether a weaver keeps lines and what it puts in is on one line. Unsealing takes white space
out, so it is not among those. -/
def OneLine : StandardWeaver → Prop
  | .interception weaver => '\n' ∉ weaver.hook ∧ '\n' ∉ weaver.tag
  | .redirection weaver => weaver.OneLine
  | .exitHook weaver => '\n' ∉ weaver.hook
  | .pathPin weaver => ∀ path ∈ weaver.fixed, '\n' ∉ path
  | .isolation _ => True
  | .unsealing _ => False

theorem lined_weave {weaver : StandardWeaver} (oneLine : weaver.OneLine) {file : Option Path}
    (path : ∀ path ∈ file, '\n' ∉ path) (lined : tree.Lined feeds) :
    (weaver.weave tree file).2.Lined feeds := by
  cases weaver with
  | interception weaver => exact weaver.lined_weave oneLine.1 oneLine.2 lined
  | redirection weaver => exact weaver.lined_redirect oneLine lined
  | exitHook weaver => exact lined.editCode (weaver.keepsTokenFeeds oneLine)
  | pathPin weaver =>
      have pinned : ∀ path ∈ weaver.fixed.or file, '\n' ∉ path := by
        intro found member
        rcases Option.or_eq_some_iff.mp member with own | ⟨-, given⟩
        · exact oneLine found own
        · exact path found given
      change (Weaver.weave weaver tree file).2.Lined feeds
      rw [weaver.weave_eq]
      cases found : weaver.fixed.or file with
      | none => exact lined
      | some path => exact lined.editCode (PathPin.keepsTokenFeeds (pinned path found))
  | isolation weaver => exact Isolation.lined_isolate lined
  | unsealing weaver => exact oneLine.elim

end StandardWeaver

theorem lined_weaveAll {entries : List (Text × StandardWeaver)}
    (oneLine : ∀ entry ∈ entries, entry.2.OneLine) {file : Option Path}
    (path : ∀ path ∈ file, '\n' ∉ path) (lined : tree.Lined feeds) :
    (Chain.weaveAll entries tree file).2.Lined feeds := by
  induction entries generalizing tree with
  | nil => exact lined
  | cons entry rest ih =>
      have first := StandardWeaver.lined_weave (oneLine entry List.mem_cons_self) path lined
      exact ih (fun other member => oneLine other (List.mem_cons_of_mem _ member)) first

/-! ### Lines with code that was put in -/

private theorem eraseReps_loop (rest : List Nat) {last : Nat} {seen : List Nat}
    (sorted : (last :: rest).Pairwise (· ≤ ·)) (before : (last :: seen).Pairwise (· > ·)) :
    (List.eraseRepsBy.loop (· == ·) last rest seen).Pairwise (· < ·) ∧
      ∀ line, line ∈ List.eraseRepsBy.loop (· == ·) last rest seen ↔
        line ∈ seen ∨ line = last ∨ line ∈ rest := by
  induction rest generalizing last seen with
  | nil =>
      rw [List.eraseRepsBy.loop]
      refine ⟨List.pairwise_reverse.mpr before, fun line => ?_⟩
      simp [or_comm]
  | cons next rest ih =>
      obtain ⟨least, later⟩ := List.pairwise_cons.mp sorted
      rw [List.eraseRepsBy.loop]
      split
      · next same =>
          rw [eq_of_beq same] at before ⊢
          obtain ⟨ascending, members⟩ := ih later before
          refine ⟨ascending, fun line => ?_⟩
          rw [members]
          simp
      · next apart =>
          have less : last < next := by
            have le := least next List.mem_cons_self
            have ne : last ≠ next := fun same => by simp [same] at apart
            omega
          have descending : (next :: last :: seen).Pairwise (· > ·) := by
            refine List.pairwise_cons.mpr ⟨fun line member => ?_, before⟩
            rcases List.mem_cons.mp member with rfl | earlier
            · exact less
            · exact Nat.lt_trans ((List.pairwise_cons.mp before).1 line earlier) less
          obtain ⟨ascending, members⟩ := ih later descending
          refine ⟨ascending, fun line => ?_⟩
          rw [members]
          simp only [List.mem_cons]
          tauto

theorem eraseReps_of_sorted {lines : List Nat} (sorted : lines.Pairwise (· ≤ ·)) :
    lines.eraseReps.Pairwise (· < ·) ∧ ∀ line, line ∈ lines.eraseReps ↔ line ∈ lines := by
  cases lines with
  | nil => exact ⟨.nil, fun _ => Iff.rfl⟩
  | cons first rest =>
      obtain ⟨ascending, members⟩ := eraseReps_loop rest sorted (List.pairwise_singleton _ first)
      refine ⟨ascending, fun line => (members line).trans ?_⟩
      simp

theorem syntheticLines_ascending (tree : Tree) :
    tree.syntheticLines.Pairwise (· < ·) ∧ ∀ line, line ∈ tree.syntheticLines ↔
      ∃ id ∈ tree.preorder root, (tree.node id).flags.synthetic = true ∧
        (tree.node id).lines.start = some line := by
  unfold syntheticLines
  simp only
  generalize starts : ((tree.preorder root).filterMap fun id =>
    if (tree.node id).flags.synthetic then (tree.node id).lines.start else none) = lines
  have sorted := @List.pairwise_mergeSort Nat (fun left right => decide (left ≤ right))
    (by simp only [decide_eq_true_eq]; omega)
    (by simp only [Bool.or_eq_true, decide_eq_true_eq]; omega) lines
  obtain ⟨ascending, members⟩ :=
    eraseReps_of_sorted (sorted.imp fun le => of_decide_eq_true le)
  refine ⟨ascending, fun line => (members line).trans ?_⟩
  rw [List.mem_mergeSort, ← starts, List.mem_filterMap]
  constructor
  · rintro ⟨id, member, here⟩
    split at here
    · next synthetic => exact ⟨id, member, synthetic, here⟩
    · cases here
  · rintro ⟨id, member, synthetic, here⟩
    exact ⟨id, member, by rw [if_pos synthetic, here]⟩

theorem source_at {id : Nat} (member : id ∈ tree.preorder root) :
    ∃ rest, tree.source = tree.frontText root id ++ ((tree.node id).body ++ rest) := by
  obtain ⟨left, right, split, first⟩ :=
    List.eq_append_cons_of_mem (body_mem_tour_of_preorder member)
  refine ⟨right.flatMap tree.partText, ?_⟩
  rw [frontText_of_split split first, source, nodeText_eq, split, List.flatMap_append,
    List.flatMap_cons]
  rfl

/-- In a file that weavers which keep lines have woven, in any order and however often, every line
feed is still there, and code that was put in stands on one line, the one it says. Lines are counted
in 32 bits. -/
theorem lines_of_weave {listLines : Bool} {source : Text} {parsed : Tree}
    (parses : parse listLines source = .ok parsed) (chain : Chain StandardWeaver)
    (oneLine : ∀ entry ∈ chain.entries, entry.2.OneLine) (file : Option Path)
    (path : ∀ path ∈ file, '\n' ∉ path) :
    let woven := (chain.weaveTree parsed file).2
    let lineOf (id : Nat) := Text.newlines (woven.frontText root id) + 1
    Text.newlines woven.source = Text.newlines source ∧
      (∀ id ∈ woven.preorder root, (woven.node id).flags.synthetic = true →
        (∃ rest, woven.source = woven.frontText root id ++ ((woven.node id).body ++ rest)) ∧
        (woven.node id).body ≠ [] ∧ '\n' ∉ (woven.node id).body ∧
        (woven.node id).lines.start = some (min (lineOf id) lineLimit) ∧
        (Text.newlines source < lineLimit → (woven.node id).lines.start = some (lineOf id))) ∧
      woven.syntheticLines.Pairwise (· < ·) ∧
      ∀ line, line ∈ woven.syntheticLines ↔ ∃ id ∈ woven.preorder root,
        (woven.node id).flags.synthetic = true ∧ line = min (lineOf id) lineLimit := by
  intro woven lineOf
  have native := native_of_parse parses
  have lined : woven.Lined (Text.newlines source) := by
    have start := native.lined
    rw [printed_of_parse parses] at start
    exact lined_weaveAll oneLine path start
  obtain ⟨ascending, members⟩ := syntheticLines_ascending woven
  refine ⟨lined.feeds, fun id member synthetic => ?_, ascending, fun line => ?_⟩
  · have injected := lined.injected id member synthetic
    obtain ⟨rest, here⟩ := source_at member
    refine ⟨⟨rest, here⟩, injected.filled, injected.oneLine, injected.start, fun few => ?_⟩
    have total := lined.feeds
    rw [here, Text.newlines_append] at total
    have fits : lineOf id ≤ lineLimit := by
      change Text.newlines (woven.frontText root id) + 1 ≤ lineLimit
      omega
    exact injected.start.trans (congrArg some (Nat.min_eq_left fits))
  · rw [members]
    constructor
    · rintro ⟨id, member, synthetic, start⟩
      rw [(lined.injected id member synthetic).start] at start
      exact ⟨id, member, synthetic, (Option.some.inj start).symm⟩
    · rintro ⟨id, member, synthetic, rfl⟩
      exact ⟨id, member, synthetic, (lined.injected id member synthetic).start⟩

/-- A function on its second line, woven by each weaver that keeps lines. -/
theorem lines_of_weave_function :
    let source := "<?php\nfunction f(){strlen(__FILE__);exit;}\n".toList
    let chain : Chain StandardWeaver := ⟨[([], .interception {}), ([], .redirection {}),
      ([], .exitHook {}), ([], .pathPin {}), ([], .isolation {})]⟩
    ∃ parsed, parse false source = .ok parsed ∧
      (∀ entry ∈ chain.entries, entry.2.OneLine) ∧ (∀ path ∈ some ['/', 'f'], '\n' ∉ path) ∧
      Text.newlines (chain.weaveTree parsed (some ['/', 'f'])).2.source = 2 ∧
      (chain.weaveTree parsed (some ['/', 'f'])).2.syntheticLines.Pairwise (· < ·) := by
  intro source chain
  have oneLine : ∀ entry ∈ chain.entries, entry.2.OneLine := by
    intro entry member
    simp only [chain, List.mem_cons, List.not_mem_nil, or_false] at member
    rcases member with rfl | rfl | rfl | rfl | rfl
    · exact ⟨by decide, by decide⟩
    · exact ⟨by decide, by decide⟩
    · exact show '\n' ∉ _ by decide
    · exact fun _ none => by cases none
    · trivial
  have path : ∀ path ∈ some ['/', 'f'], '\n' ∉ path := by decide
  have closes : (parse false source).toBool = true := by decide +kernel
  cases parses : parse false source with
  | error fault =>
      rw [parses] at closes
      cases closes
  | ok parsed =>
      obtain ⟨feeds, -, ascending, -⟩ := lines_of_weave parses chain oneLine _ path
      exact ⟨parsed, rfl, oneLine, path, feeds, ascending⟩

end PhpWeave
