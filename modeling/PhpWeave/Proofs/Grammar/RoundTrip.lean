import PhpWeave.Proofs.Grammar.Layout
import PhpWeave.Proofs.Grammar.Reading
import PhpWeave.Token.Stream

set_option autoImplicit false

/-!
A file that has a tree is printed back from it. The tree of a file is the outline of the events of
its reader, with lines filled in afterwards, which no text and no link depends on.
-/

namespace PhpWeave

def Node.unlined (node : Node) : Node := { node with lines := {} }

namespace Tree

/-- Two trees that differ in the lines of their nodes at most. -/
structure Relined (old new : Tree) : Prop where
  size : new.size = old.size
  node : ∀ id, (new.node id).unlined = (old.node id).unlined

variable {old new : Tree}

theorem Relined.property (relined : Relined old new) {α : Type} (property : Node → α)
    (kept : ∀ node, property node.unlined = property node) (id : Nat) :
    property (new.node id) = property (old.node id) := by
  rw [← kept (new.node id), relined.node, kept]

theorem relined_withLines (tree : Tree) (tokens : Tokens) (extents : Array (Option (Nat × Nat))) :
    Relined tree (tree.withLines tokens extents) where
  size := Array.size_mapIdx
  node := by
    intro id
    unfold Tree.node withLines
    rw [Array.getElem?_mapIdx]
    cases tree.nodes[id]? with
    | none => rfl
    | some node =>
        simp only [Option.map_some, Option.getD_some]
        split <;> rfl

def listed (content : List LineContent) (node : Node) : Node :=
  { node with lines := { node.lines with content := content } }

theorem withContent_eq (tree : Tree) (source : Text) :
    tree.withContent source = tree.update root (listed (tree.lineContent source)) := rfl

theorem relined_withContent (tree : Tree) (source : Text) :
    Relined tree (tree.withContent source) := by
  rw [withContent_eq]
  exact ⟨size_update _ _, node_update_property Node.unlined fun _ => rfl⟩

theorem Relined.trans {middle : Tree} (left : Relined old middle) (right : Relined middle new) :
    Relined old new :=
  ⟨right.size.trans left.size, fun id => (right.node id).trans (left.node id)⟩

def ofOutline (outline : Outline) (tokens : Tokens) : Tree :=
  outline.tree.withLines tokens (outline.extents.setIfInBounds root (fileExtent tokens))

/-- With the content of its lines listed, a file has the tree it has without, but for the content. -/
theorem plain_of_parse {listLines : Bool} {source : Text} {tree : Tree}
    (parsed : parse listLines source = .ok tree) : ∃ plain, parse false source = .ok plain ∧
      tree = if listLines then plain.withContent source else plain := by
  unfold parse at parsed ⊢
  split at parsed
  · cases parsed
  · next plain found =>
      cases parsed
      exact ⟨plain, rfl, rfl⟩

/-- The tree of a file is the outline of its events with lines, and with the content of the lines
when it is listed. -/
theorem ofOutline_of_parse {listLines : Bool} {source : Text} {tree : Tree}
    (parsed : parse listLines source = .ok tree) :
    ∃ events, Reader.eventsOf (TokenStream.ofText .html source).tokens = .ok events ∧
      tree = if listLines then
        (ofOutline (.ofEvents events) (TokenStream.ofText .html source).tokens).withContent source
      else ofOutline (.ofEvents events) (TokenStream.ofText .html source).tokens := by
  unfold parse at parsed
  split at parsed
  · cases parsed
  · next outlined found =>
      unfold ofTokens? at found
      split at found
      · cases found
      · next events read =>
          cases found
          cases parsed
          exact ⟨events, read, rfl⟩

/-- The tree of a file is the outline of its events, up to lines. -/
theorem outline_of_parse {listLines : Bool} {source : Text} {tree : Tree}
    (parsed : parse listLines source = .ok tree) :
    ∃ events, Reader.eventsOf (TokenStream.ofText .html source).tokens = .ok events ∧
      Relined (Outline.ofEvents events).tree tree := by
  obtain ⟨events, read, rfl⟩ := ofOutline_of_parse parsed
  refine ⟨events, read, ?_⟩
  have lines := relined_withLines (Outline.ofEvents events).tree
    (TokenStream.ofText .html source).tokens ((Outline.ofEvents events).extents.setIfInBounds root
      (fileExtent (TokenStream.ofText .html source).tokens))
  cases listLines with
  | false => exact lines
  | true => exact lines.trans (relined_withContent _ source)

/-- The events of a file that has a tree are a derivation of all its tokens. -/
theorem derives_of_parse {listLines : Bool} {source : Text} {tree : Tree}
    (parsed : parse listLines source = .ok tree) :
    ∃ events, Derives (TokenStream.ofText .html source).tokens events
        ⟨(TokenStream.ofText .html source).tokens.size, []⟩ ∧
      Relined (Outline.ofEvents events).tree tree := by
  obtain ⟨events, read, relined⟩ := outline_of_parse parsed
  exact ⟨events, Reader.derives_eventsOf (Scan.spelled_scan .html source)
    (Scan.tagged_scan .html source) read, relined⟩

theorem Relined.parts (relined : Relined old new) : new.parts = old.parts := by
  unfold Tree.parts tour
  rw [relined.size]
  exact tourWithin_congr (fun id => relined.property Node.children (fun _ => rfl) id) _ _

theorem Relined.partText (relined : Relined old new) (part : Part) :
    new.partText part = old.partText part := by
  cases part with
  | body id => exact relined.property Node.body (fun _ => rfl) id
  | close id => exact relined.property Node.close (fun _ => rfl) id

end Tree

theorem Stretch.Consecutive.text {tokens : Tokens} {first stop : Nat} {stretches : List Stretch}
    (consecutive : Consecutive first stretches stop) :
    stretches.flatMap (fun stretch => tokens.textBetween stretch.first stretch.stop) =
      tokens.textBetween first stop := by
  induction stretches generalizing first with
  | nil =>
      have same : first = stop := consecutive
      rw [same, Tokens.textBetween_self]
      rfl
  | cons stretch rest ih =>
      obtain ⟨begins, order, later⟩ := consecutive
      rw [List.flatMap_cons, ih later, begins, Tokens.textBetween_append order later.le]

theorem Stretch.Consecutive.printed {tree : Tree} {tokens : Tokens} {first stop : Nat}
    {stretches : List Stretch} (consecutive : Consecutive first stretches stop)
    (texts : ∀ stretch ∈ stretches,
      tree.partText stretch.part = tokens.textBetween stretch.first stretch.stop) :
    (stretches.map Stretch.part).flatMap tree.partText = tokens.textBetween first stop := by
  calc (stretches.map Stretch.part).flatMap tree.partText
      = stretches.flatMap fun stretch => tree.partText stretch.part := List.flatMap_map _ _ _
    _ = stretches.flatMap fun stretch => tokens.textBetween stretch.first stretch.stop := by
        rw [List.flatMap_def, List.flatMap_def, List.map_congr_left texts]
    _ = tokens.textBetween first stop := consecutive.text

theorem Outline.opened_of_length_zero {outline : Outline} (length : outline.entered.length = 0) :
    outline.opened = [Tree.root] := by
  rw [opened, List.length_eq_zero_iff.mp length]
  rfl

namespace Tree

theorem Relined.made {old new : Tree} (relined : Relined old new) {tokens : Tokens}
    {stretch : Stretch} (made : stretch.Made old tokens) : stretch.Made new tokens :=
  made.congr (relined.partText stretch.part)
    (relined.property Node.bearing (fun _ => rfl) stretch.part.id)

/-- The ranges of the tokens of a file that the parts of its tree are made of. -/
structure Ranges (tree : Tree) (tokens : Tokens) (stretches : List Stretch) : Prop where
  parts : stretches.map Stretch.part = tree.parts
  consecutive : Stretch.Consecutive 0 stretches tokens.size
  made : ∀ stretch ∈ stretches, stretch.Made tree tokens

theorem Ranges.relined {old new : Tree} {tokens : Tokens} {stretches : List Stretch}
    (ranges : old.Ranges tokens stretches) (relined : Relined old new) :
    new.Ranges tokens stretches where
  parts := ranges.parts.trans relined.parts.symm
  consecutive := ranges.consecutive
  made := fun stretch member => relined.made (ranges.made stretch member)

/-- The ranges that filled an outline with nothing open are those of the finished tree. -/
theorem Relined.ranges {outline : Outline} {tree : Tree} {tokens : Tokens}
    {stretches : List Stretch} (relined : Relined outline.tree tree)
    (laid : Outline.Laid tokens outline tokens.size)
    (filled : Outline.Filled tokens outline tokens.size stretches)
    (onlyFile : outline.opened = [root]) :
    tree.Ranges tokens (stretches ++ [⟨.close root, tokens.size, tokens.size⟩]) where
  parts := by
    rw [relined.parts, filled.parts, onlyFile, List.map_append]
    rfl
  consecutive := filled.consecutive.append (.single (Nat.le_refl _))
  made := by
    intro stretch member
    refine relined.made ?_
    rcases List.mem_append.mp member with old | new
    · exact filled.made stretch old
    · rw [List.mem_singleton.mp new]
      refine .ofClose ?_
      rw [Tokens.textBetween_self]
      exact laid.unclosed root (onlyFile ▸ List.mem_cons_self)

/-- The tokens that the parts of a finished tree are made of. -/
theorem made_of_parse {listLines : Bool} {source : Text} {tree : Tree}
    (parsed : parse listLines source = .ok tree) :
    tree.parts.Nodup ∧ tree.preorder root = List.range tree.size ∧
    ∃ stretches : List Stretch, stretches.map Stretch.part = tree.parts ∧
      Stretch.Consecutive 0 stretches (TokenStream.ofText .html source).tokens.size ∧
      ∀ stretch ∈ stretches, stretch.Made tree (TokenStream.ofText .html source).tokens := by
  obtain ⟨events, derives, relined⟩ := derives_of_parse parsed
  obtain ⟨laid, length⟩ := Outline.laid_of_derives derives
  obtain ⟨stretches, filled⟩ := laid.filled
  have onlyFile := Outline.opened_of_length_zero length
  obtain ⟨parts, consecutive, made⟩ := relined.ranges laid filled onlyFile
  rw [preorder_eq, relined.size]
  refine ⟨relined.parts ▸ laid.nodup, ?_, _, parts, consecutive, made⟩
  rw [← parts, List.map_append, List.filterMap_append, filled.bodies]
  exact List.append_nil _

theorem stretches_of_parse {listLines : Bool} {source : Text} {tree : Tree}
    (parsed : parse listLines source = .ok tree) :
    tree.parts.Nodup ∧ tree.preorder root = List.range tree.size ∧
    ∃ stretches : List Stretch, stretches.map Stretch.part = tree.parts ∧
      Stretch.Consecutive 0 stretches (TokenStream.ofText .html source).tokens.size ∧
      ∀ stretch ∈ stretches, tree.partText stretch.part =
        (TokenStream.ofText .html source).tokens.textBetween stretch.first stretch.stop := by
  obtain ⟨nodup, preorder, stretches, parts, consecutive, made⟩ := made_of_parse parsed
  exact ⟨nodup, preorder, stretches, parts, consecutive, fun stretch member =>
    (made stretch member).text⟩

theorem textBetween_ofText (mode : Mode) (source : Text) :
    (TokenStream.ofText mode source).tokens.textBetween 0
      (TokenStream.ofText mode source).tokens.size = source := by
  rw [Tokens.textBetween, Array.extract_size]
  exact (Scan.tokensFrom_spells (.start mode) source).1

theorem text_ne_nil_of_mem_ofText {mode : Mode} {source : Text} {token : Token}
    (member : token ∈ (TokenStream.ofText mode source).tokens.toList) : token.text ≠ [] :=
  (Scan.tokensFrom_spells (.start mode) source).2 token member

theorem printed_of_parse {listLines : Bool} {source : Text} {tree : Tree}
    (parsed : parse listLines source = .ok tree) : tree.source = source := by
  obtain ⟨-, -, stretches, parts, consecutive, texts⟩ := stretches_of_parse parsed
  rw [source_eq, ← parts, consecutive.printed texts, textBetween_ofText]

/-- A file that has a tree is printed back from it, character by character. In the order they are
printed, the parts of the tree cut the tokens of the file into ranges that lie end to end, so every
token is in exactly one part of exactly one node. -/
theorem source_of_parse {listLines : Bool} {source : Text} {tree : Tree}
    (parsed : parse listLines source = .ok tree) :
    tree.source = source ∧ tree.source = tree.parts.flatMap tree.partText ∧ tree.parts.Nodup ∧
    ∃ stretches : List Stretch, stretches.map Stretch.part = tree.parts ∧
      Stretch.Consecutive 0 stretches (TokenStream.ofText .html source).tokens.size ∧
      (∀ stretch ∈ stretches, tree.partText stretch.part =
        (TokenStream.ofText .html source).tokens.textBetween stretch.first stretch.stop) ∧
      ∀ index < (TokenStream.ofText .html source).tokens.size,
        ∃! stretch, stretch ∈ stretches ∧ stretch.Covers index := by
  obtain ⟨nodup, -, stretches, parts, consecutive, texts⟩ := stretches_of_parse parsed
  exact ⟨printed_of_parse parsed, source_eq, nodup, stretches, parts, consecutive, texts,
    fun index inside => consecutive.existsUnique (Nat.zero_le index) inside⟩

/-- A class with a method, with its lines listed. -/
theorem source_of_parse_method :
    ∃ tree, parse true "<?php class A{function b(){}}".toList = .ok tree ∧
      tree.source = "<?php class A{function b(){}}".toList := by
  have closes : (parse true "<?php class A{function b(){}}".toList).toBool = true := by
    decide +kernel
  cases parsed : parse true "<?php class A{function b(){}}".toList with
  | error fault =>
      rw [parsed] at closes
      cases closes
  | ok tree => exact ⟨tree, rfl, (source_of_parse parsed).1⟩

end Tree
end PhpWeave
