import PhpWeave.Node.Dump
import PhpWeave.Proofs.Grammar.Extent

set_option autoImplicit false

/-!
The lines of a file as its tree lists them. The lines are cut from the source, and the lines of the
nodes are counted while it is scanned; both countings agree, so every line that a node covers is
listed, and the listing tells for each line the nodes that cover it. The dump prints it row by row.
-/

namespace PhpWeave

/-! ### Rows -/

theorem NodeKind.letter_ne_newline (kind : NodeKind) : kind.letter ≠ '\n' := by
  rcases kind with _ | _ | _ | kind | _ | _ | kind
  case classLike => cases kind <;> decide
  case literal => cases kind <;> decide
  all_goals decide

theorem Node.letter_ne_newline (node : Node) : node.letter ≠ '\n' := by
  rw [letter]
  split
  · decide
  · exact node.kind.letter_ne_newline

namespace Tree

def rowText (tree : Tree) (line : LineContent) : Text :=
  '#' :: Text.padded dumpNumberWidth (Text.ofNat line.number) ++ '[' ::
    Text.centred dumpLetterWidth
      (Text.joinWith [','] (line.nodes.map fun id => [(tree.node id).letter])) ++
    "] ".toList ++ line.body

theorem dumpRow_eq (tree : Tree) (line : LineContent) :
    tree.dumpRow line = tree.rowText line ++ ['\n'] := rfl

theorem oneLine_rowText (tree : Tree) {line : LineContent} (oneLine : '\n' ∉ line.body) :
    '\n' ∉ tree.rowText line := by
  have letters : '\n' ∉
      Text.joinWith [','] (line.nodes.map fun id => [(tree.node id).letter]) := by
    intro member
    rcases Text.mem_joinWith member with between | ⟨piece, isOne, here⟩
    · exact absurd between (by decide)
    · obtain ⟨id, -, rfl⟩ := List.mem_map.mp isOne
      exact (tree.node id).letter_ne_newline (List.mem_singleton.mp here).symm
  have number := Text.oneLine_padded (Text.oneLine_ofNat line.number) dumpNumberWidth
  have centred := Text.oneLine_centred letters dumpLetterWidth
  simp [rowText, number, centred, oneLine]

/-! ### The listing -/

/-- The lines that the file node lists. -/
def listing (tree : Tree) : List LineContent := (tree.node root).lines.content

theorem covers_iff {lines : Lines} {number : Nat} : lines.covers number = true ↔
    ∃ start, lines.start = some start ∧ start ≤ number ∧ number ≤ lines.stop := by
  rw [Lines.covers]
  cases lines.start with
  | none => simp
  | some start => simp

theorem mem_listLine {line other : LineContent} {listed : List LineContent}
    (member : other ∈ listLine line listed) : other = line ∨ other ∈ listed := by
  induction listed with
  | nil => exact .inl (List.mem_singleton.mp member)
  | cons first rest ih =>
      rw [listLine] at member
      split at member
      · rcases List.mem_cons.mp member with rfl | later
        · exact .inr List.mem_cons_self
        · exact (ih later).imp_right (List.mem_cons_of_mem first)
      split at member
      · exact (List.mem_cons.mp member).imp_right (List.mem_cons_of_mem first)
      · exact List.mem_cons.mp member

theorem mem_foldl_listLine {lines listed : List LineContent} {line : LineContent}
    (member : line ∈ lines.foldl (fun listed line => listLine line listed) listed) :
    line ∈ lines ∨ line ∈ listed := by
  induction lines generalizing listed with
  | nil => exact .inr member
  | cons first rest ih =>
      rcases ih member with later | here
      · exact .inl (List.mem_cons_of_mem first later)
      · refine (mem_listLine here).imp_left fun same => ?_
        rw [same]
        exact List.mem_cons_self

theorem listLine_last {line : LineContent} {listed : List LineContent}
    (before : ∀ other ∈ listed, other.number < line.number) :
    listLine line listed = listed ++ [line] := by
  induction listed with
  | nil => rfl
  | cons first rest ih =>
      rw [listLine, if_pos (before first List.mem_cons_self),
        ih fun other member => before other (List.mem_cons_of_mem first member), List.cons_append]

theorem foldl_listLine {lines listed : List LineContent}
    (ascending : ((listed ++ lines).map LineContent.number).Pairwise (· < ·)) :
    lines.foldl (fun listed line => listLine line listed) listed = listed ++ lines := by
  induction lines generalizing listed with
  | nil => exact (List.append_nil listed).symm
  | cons first rest ih =>
      have before : ∀ other ∈ listed, other.number < first.number := fun other member => by
        rw [List.map_append] at ascending
        exact (List.pairwise_append.mp ascending).2.2 _ (List.mem_map_of_mem member) _
          List.mem_cons_self
      rw [List.append_cons] at ascending ⊢
      rw [List.foldl_cons, listLine_last before, ih ascending]

theorem mem_lineContent {tree : Tree} {source : Text} {line : LineContent}
    (member : line ∈ tree.lineContent source) : line.body ∈ Text.lines source ∧
      line.nodes =
        (tree.preorder root).filter fun id => (tree.node id).lines.covers line.number := by
  obtain ⟨entry, isOne, rfl⟩ :=
    List.mem_map.mp ((mem_foldl_listLine member).resolve_right List.not_mem_nil)
  exact ⟨List.fst_mem_of_mem_zipIdx isOne, rfl⟩

theorem lineContent_eq (tree : Tree) {source : Text} (few : Text.lineCount source ≤ lineLimit) :
    tree.lineContent source = (Text.lines source).zipIdx.map fun entry =>
      ⟨entry.2 + 1, entry.1,
        (tree.preorder root).filter fun id => (tree.node id).lines.covers (entry.2 + 1)⟩ := by
  have counted : ∀ entry ∈ (Text.lines source).zipIdx, lineNumber entry.2 = entry.2 + 1 := by
    intro entry member
    have inside := List.snd_lt_of_mem_zipIdx member
    rw [Nat.add_zero, Text.length_lines] at inside
    exact Nat.mod_eq_of_lt (by omega)
  rw [lineContent, foldl_listLine, List.nil_append]
  · refine List.map_congr_left fun entry member => ?_
    rw [counted entry member]
  · have numbers : ((Text.lines source).zipIdx.map fun entry => lineNumber entry.2) =
        ((Text.lines source).zipIdx.map Prod.snd).map (· + 1) := by
      rw [List.map_map]
      exact List.map_congr_left counted
    rw [List.nil_append, List.map_map]
    change ((Text.lines source).zipIdx.map fun entry => lineNumber entry.2).Pairwise (· < ·)
    rw [numbers, List.zipIdx_map_snd, List.pairwise_map]
    exact List.Pairwise.imp Nat.succ_lt_succ List.pairwise_lt_range'

theorem numbers_lineContent (tree : Tree) {source : Text}
    (few : Text.lineCount source ≤ lineLimit) :
    (tree.lineContent source).map LineContent.number = List.range' 1 (Text.lineCount source) := by
  have numbered : (tree.lineContent source).map LineContent.number =
      ((Text.lines source).zipIdx.map Prod.snd).map (1 + ·) := by
    rw [lineContent_eq tree few, List.map_map, List.map_map]
    exact List.map_congr_left fun entry _ => Nat.add_comm entry.2 1
  rw [numbered, List.zipIdx_map_snd, Text.length_lines, List.map_add_range']

theorem bodies_lineContent (tree : Tree) {source : Text}
    (few : Text.lineCount source ≤ lineLimit) :
    (tree.lineContent source).map LineContent.body = Text.lines source := by
  rw [lineContent_eq tree few, List.map_map]
  exact List.zipIdx_map_fst 0 (Text.lines source)

theorem listing_withContent {tree : Tree} (inside : root < tree.size) (source : Text) :
    (tree.withContent source).listing = tree.lineContent source := by
  rw [listing, withContent_eq, node_update_self inside]
  rfl

theorem lines_dump {tree : Tree} (oneLine : ∀ line ∈ tree.listing, '\n' ∉ line.body) :
    Text.lines tree.dump = tree.listing.map tree.rowText := by
  have rows : tree.dump = (tree.listing.map tree.rowText).flatMap (· ++ ['\n']) := by
    rw [List.flatMap_map]
    exact List.flatMap_congr fun line _ => tree.dumpRow_eq line
  rw [rows, Text.lines_flatMap]
  intro row member
  obtain ⟨line, isOne, rfl⟩ := List.mem_map.mp member
  exact tree.oneLine_rowText (oneLine line isOne)

theorem lines_within {listLines : Bool} {source : Text} {tree : Tree}
    (parsed : parse listLines source = .ok tree) (few : Text.newlines source < lineLimit) {id : Nat}
    (inside : id < tree.size) {start : Nat} (starts : (tree.node id).lines.start = some start) :
    1 ≤ start ∧ start ≤ (tree.node id).lines.stop ∧
      (tree.node id).lines.stop ≤ Text.lineCount source := by
  obtain ⟨_, -, bounds⟩ := bounds_of_parse parsed
  obtain ⟨first, stop, -, covers⟩ := bounds id inside
  have lined : (TokenStream.ofText .html source).tokens.Numbered :=
    Tokens.numbered_scan .html source
  have total := feedsBefore_ofText source
  cases covers with
  | blank none => cases none.symm.trans starts
  | shown opens closes order startsAt stopsAt =>
      obtain rfl := Option.some.inj (startsAt.symm.trans starts)
      obtain ⟨initialLine, -⟩ := lined.counted total few opens.here
      obtain ⟨-, ending⟩ := lined.counted total few closes.here
      have initialFirst := lined.line_le_line order opens.here closes.here
      have last := lined.endLine_le_lineCount (textBetween_ofText .html source) few closes.here
        (text_ne_nil_of_mem_ofText (Array.mem_toList_iff.mpr (Array.mem_of_getElem? closes.here)))
      rw [stopsAt]
      exact ⟨by omega, by omega, last⟩

/-- The listing of the lines of a file, which is told by the file and by the lines of its nodes.
Lines are counted in 32 bits: in a file with more of them a later line takes the place of an earlier
one. -/
structure LineMap (tree : Tree) (source : Text) : Prop where
  numbers : Text.newlines source < lineLimit →
    tree.listing.map LineContent.number = List.range' 1 (Text.lineCount source)
  bodies : Text.newlines source < lineLimit →
    Text.joinWith ['\n'] (tree.listing.map LineContent.body) ++ Text.finalNewline source = source
  oneLine : ∀ line ∈ tree.listing, '\n' ∉ line.body
  ordered : ∀ line ∈ tree.listing, line.nodes.Sublist (tree.preorder root) ∧ line.nodes.Nodup
  nodes : ∀ line ∈ tree.listing, ∀ id, id ∈ line.nodes ↔ id ∈ tree.preorder root ∧
    ∃ start, (tree.node id).lines.start = some start ∧ start ≤ line.number ∧
      line.number ≤ (tree.node id).lines.stop
  /-- Both countings agree, as far as the scan counts: a node covers lines of the file. -/
  within : Text.newlines source < lineLimit → ∀ id ∈ tree.preorder root, ∀ start,
    (tree.node id).lines.start = some start →
      1 ≤ start ∧ start ≤ (tree.node id).lines.stop ∧
        (tree.node id).lines.stop ≤ Text.lineCount source
  rows : Text.lines tree.dump = tree.listing.map tree.rowText
  plain : ∃ plain, parse false source = .ok plain ∧
    (∀ id, (plain.node id).lines.content = []) ∧ tree = plain.update root (listed tree.listing)

/-- A file whose lines are listed has as many of them as its text has, and their bodies make up the
text; the nodes listed at a line are those that cover it, in preorder. Each line has a row in the
dump. Without the listing the tree is the same. -/
theorem lineMap_of_parse {source : Text} {tree : Tree} (parsed : parse true source = .ok tree) :
    tree.LineMap source := by
  have linked := (native_of_parse parsed).linked
  obtain ⟨plain, known, listed⟩ := plain_of_parse parsed
  rw [if_pos rfl] at listed
  have relined := relined_withContent plain source
  rw [← listed] at relined
  have filled : root < plain.size := (native_of_parse known).linked.filled
  have listing : tree.listing = plain.lineContent source :=
    listed ▸ listing_withContent filled source
  have preorder : plain.preorder root = tree.preorder root := by
    rw [preorder_eq, preorder_eq, relined.parts]
  have told {line : LineContent} (member : line ∈ tree.listing) :
      line.body ∈ Text.lines source ∧ line.nodes =
        (tree.preorder root).filter fun id => (plain.node id).lines.covers line.number := by
    rw [listing] at member
    rw [← preorder]
    exact mem_lineContent member
  have span (id : Nat) := span_withContent plain source id
  rw [← listed] at span
  have oneLine : ∀ line ∈ tree.listing, '\n' ∉ line.body := fun line member =>
    Text.not_mem_of_mem_lines (told member).1
  refine ⟨?_, ?_, oneLine, ?_, ?_, ?_, lines_dump oneLine, plain, known, ?_, ?_⟩
  · intro few
    rw [listing, numbers_lineContent _ (Text.lineCount_le_of_few few)]
  · intro few
    rw [listing, bodies_lineContent _ (Text.lineCount_le_of_few few), Text.joinWith_lines]
  · intro line member
    rw [(told member).2]
    exact ⟨List.filter_sublist, (nodup_preorder linked linked.filled).filter _⟩
  · intro line member id
    rw [(told member).2, List.mem_filter, covers_iff, (span id).1, (span id).2]
  · intro few id member start starts
    exact lines_within parsed few ((mem_preorder linked linked.filled).mp member).1 starts
  · intro id
    rcases Nat.lt_or_ge id plain.size with inside | outside
    · obtain ⟨_, -, bounds⟩ := bounds_of_plain known
      exact (bounds id inside).1
    · rw [node_of_size_le outside]
      rfl
  · rw [listing]
    exact listed.trans (withContent_eq plain source)

/-- Three lines, the last of them without a line feed. -/
theorem lineMap_of_parse_function :
    let source := "<?php\nfunction f()\n\x7b\x7d".toList
    ∃ tree, parse true source = .ok tree ∧ tree.LineMap source ∧
      tree.listing = [⟨1, "<?php".toList, [0, 1]⟩, ⟨2, "function f()".toList, [0, 2]⟩,
        ⟨3, "\x7b\x7d".toList, [0, 2]⟩] := by
  intro source
  have lists : (parse true source).toOption.map listing =
      some [⟨1, "<?php".toList, [0, 1]⟩, ⟨2, "function f()".toList, [0, 2]⟩,
        ⟨3, "\x7b\x7d".toList, [0, 2]⟩] := by decide +kernel
  cases parsed : parse true source with
  | error fault =>
      rw [parsed] at lists
      cases lists
  | ok tree =>
      rw [parsed] at lists
      exact ⟨tree, rfl, lineMap_of_parse parsed, Option.some.inj lists⟩

end Tree
end PhpWeave
