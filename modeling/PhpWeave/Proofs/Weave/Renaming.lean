import PhpWeave.Proofs.Weave.Retelling
import PhpWeave.Proofs.Weave.Settled

set_option autoImplicit false

/-!
A redirection of a file gives each reference of a block one variable of its own, declares every
variable once, in the block whose code reads it, and leaves nothing for a second redirection.
-/

namespace PhpWeave

open Scan Lexeme PhpWeave.Tree

namespace Tree

/-- The nodes of a tree that weavers put in. -/
def injectedNodes (tree : Tree) : List Nat :=
  (tree.preorder root).filter fun id => (tree.node id).flags.synthetic

def textsIn (tree : Tree) (kind : TokenKind) (id : Nat) : List Text :=
  textsOf kind (Fragment.shapes (tree.node id).body)

theorem Ranges.plain {tree : Tree} {stretches : List Stretch} {source : Text}
    (ranges : tree.Ranges (TokenStream.ofText .html source).tokens stretches) {id : Nat}
    (member : id ∈ tree.editableNodes) :
    ∀ token ∈ scan .php (tree.node id).body, token.kind.isMarkup = false := by
  obtain ⟨reached, editable⟩ := List.mem_filter.mp member
  have part : Part.body id ∈ tree.parts := by
    rw [preorder_eq] at reached
    obtain ⟨part, among, isBody⟩ := List.mem_filterMap.mp reached
    cases part with
    | body other => exact Option.some.inj isBody ▸ among
    | close other => cases isBody
  obtain ⟨stretch, known, isOne⟩ := List.mem_map.mp (ranges.parts.symm ▸ part)
  have edits : tree.editsPart stretch.part = true := by
    rw [isOne]
    exact editable
  obtain ⟨-, code⟩ := ranges.cut_of_edits known edits
  obtain ⟨forgot, alike⟩ := ranges.alike known edits
  rw [isOne, partText] at alike
  have kinds : _ = (scan .php (tree.node id).body).map fun token => token.kind.isMarkup :=
    map_eq_of_forall₂ (alike.imp fun _ _ same => same.isArrow.2.2.symm)
  intro token among
  obtain ⟨old, here, same⟩ := List.mem_map.mp (kinds ▸ List.mem_map_of_mem among)
  exact same.symm.trans (code old here)

end Tree

namespace Redirection

variable {redirection : Redirection} {tree woven : Tree} {ledger : Ledger} {blocks : List Nat}

theorem ofParts_isName : OfParts IsName where
  suffix := IsName.of_suffix
  append := IsName.append

/-- A block has a reference when its code does. -/
def Meets (redirection : Redirection) (tree : Tree) (block : Nat) (reference : Reference) : Prop :=
  ∃ id ∈ tree.editableNodes, hostOf? tree id = some block ∧
    ∃ token, (token, some reference) ∈ redirection.entries tree id

theorem isName_of_meets (native : tree.Native) {block : Nat} {reference : Reference}
    (meets : Meets redirection tree block reference) : IsName reference.name := by
  obtain ⟨id, -, -, token, member⟩ := meets
  obtain ⟨index, refers⟩ := refers_of_mem member
  have written := (worded_scan .php (tree.node id).body token
    (Array.mem_of_getElem? refers.here) (isIdentifierLike_of_isReferable refers.isReferable)).1
  rw [refers.name]
  exact ofParts_isName.resolve
    (fun entry among => (native.node _).imports entry (mem_importsFor.mp among)) written

theorem meets_of_mem_ledger {entry : Nat × Reference} (member : entry ∈ redirection.ledger tree) :
    Meets redirection tree entry.1 entry.2 := mem_ledgerOf member

theorem Meets.known {block : Nat} {reference : Reference}
    (meets : Meets redirection tree block reference) :
    (redirection.ledger tree).any (Ledger.serves block reference) = true := by
  obtain ⟨id, met, host, token, member⟩ := meets
  exact any_ledgerOf met host member

theorem Meets.inside (linked : tree.Linked) {block : Nat} {reference : Reference}
    (meets : Meets redirection tree block reference) : block < tree.size := by
  obtain ⟨id, -, host, -⟩ := meets
  have link := linked.lt_size (hostOf?_eq_some host).1
  exact Nat.lt_trans link.1 link.2

/-! ### The nodes put in -/

section Added

variable (redirected : Redirected redirection tree woven (redirection.ledger tree) blocks)
include redirected

theorem Redirected.block_of_mem {block : Nat} (member : block ∈ blocks) :
    ∃ reference, Meets redirection tree block reference := by
  obtain ⟨⟨number, reference⟩, among⟩ :=
    List.exists_mem_of_ne_nil _ ((redirected.declares block).mp member)
  exact ⟨reference, meets_of_mem_ledger (List.mem_of_getElem? (Ledger.mem_ofBlock.mp among))⟩

theorem Redirected.over (linked : tree.Linked)
    (whole : tree.preorder root = List.range tree.size) {id : Nat} (inside : id < tree.size) :
    woven.Over root id := by
  rcases ((mem_preorder linked linked.filled).mp (whole ▸ List.mem_range.mpr inside)).2 with
    same | above
  · exact .inl same
  · refine .inr ?_
    rw [ancestors_congr linked.ascending redirected.linked.ascending redirected.parent inside]
    exact above

theorem Redirected.synthetic_iff (native : tree.Native) {id : Nat} (known : id < woven.size) :
    (woven.node id).flags.synthetic = true ↔ tree.size ≤ id := by
  rcases Nat.lt_or_ge id tree.size with old | new
  · rw [redirected.property (fun node => node.flags.synthetic) (fun _ => rfl) old,
      (native.node id).written]
    exact ⟨fun none => (by cases none), fun beyond => absurd old (Nat.not_lt_of_le beyond)⟩
  · obtain ⟨number, rfl⟩ := Nat.exists_eq_add_of_le new
    rw [redirected.size] at known
    have short := Nat.lt_of_add_lt_add_left known
    obtain ⟨line, added, -⟩ := redirected.added number _ (List.getElem?_eq_getElem short)
    exact ⟨fun _ => new, fun _ => congrArg (fun node => node.flags.synthetic) added⟩

theorem Redirected.mem_injectedNodes (native : tree.Native)
    (whole : tree.preorder root = List.range tree.size) {id : Nat} :
    id ∈ woven.injectedNodes ↔ ∃ number, number < blocks.length ∧ id = tree.size + number := by
  have linked := redirected.linked
  constructor
  · intro member
    obtain ⟨reached, synthetic⟩ := List.mem_filter.mp member
    have known := ((mem_preorder linked linked.filled).mp reached).1
    obtain ⟨number, rfl⟩ :=
      Nat.exists_eq_add_of_le ((redirected.synthetic_iff native known).mp synthetic)
    rw [redirected.size] at known
    exact ⟨number, Nat.lt_of_add_lt_add_left known, rfl⟩
  · rintro ⟨number, short, rfl⟩
    have known : tree.size + number < woven.size := by
      rw [redirected.size]
      exact Nat.add_lt_add_left short _
    obtain ⟨line, -, above⟩ := redirected.added number _ (List.getElem?_eq_getElem short)
    obtain ⟨reference, meets⟩ := redirected.block_of_mem (List.getElem_mem short)
    refine List.mem_filter.mpr ⟨(mem_preorder linked linked.filled).mpr ⟨known, .inr ?_⟩,
      (redirected.synthetic_iff native known).mpr (Nat.le_add_right _ _)⟩
    exact (over_of_link linked.ascending above).mpr
      (redirected.over native.linked whole (meets.inside native.linked))

theorem Redirected.perm_injectedNodes (native : tree.Native)
    (whole : tree.preorder root = List.range tree.size) :
    woven.injectedNodes.Perm ((List.range blocks.length).map (tree.size + ·)) := by
  have linked := redirected.linked
  refine (List.perm_ext_iff_of_nodup ((nodup_preorder linked linked.filled).filter _)
    (List.nodup_range.map fun _ _ same => Nat.add_left_cancel same)).mpr fun id => ?_
  rw [← injectedNodes, redirected.mem_injectedNodes native whole, List.mem_map]
  simp only [List.mem_range, eq_comm]

theorem Redirected.shapes_added (native : tree.Native) (tagged : redirection.Tagged)
    (resolver : redirection.resolver = spell resolverShapes) {number block : Nat}
    (here : blocks[number]? = some block) :
    Fragment.shapes (woven.node (tree.size + number)).body =
      redirection.declarationShapes ((redirection.ledger tree).ofBlock block) := by
  obtain ⟨line, added, -⟩ := redirected.added number block here
  have body : (woven.node (tree.size + number)).body =
      redirection.declaration (redirection.ledger tree) block :=
    congrArg Node.body added
  rw [body]
  refine shapes_declaration tagged resolver fun entry member => ?_
  have met := meets_of_mem_ledger (List.mem_of_getElem? (Ledger.mem_ofBlock.mp member))
  exact isName_of_meets native met

theorem Redirected.perm_declared (native : tree.Native)
    (whole : tree.preorder root = List.range tree.size) (tagged : redirection.Tagged)
    (resolver : redirection.resolver = spell resolverShapes) :
    (woven.injectedNodes.flatMap (woven.textsIn .variableName)).Perm
      ((List.range (redirection.ledger tree).length).map redirection.variableAt) := by
  have each : (List.range blocks.length).map (fun number =>
        woven.textsIn .variableName (tree.size + number)) =
      blocks.map fun block => (((redirection.ledger tree).ofBlock block).map Prod.fst).map
        redirection.variableAt := by
    refine List.ext_getElem (by simp) fun number short _ => ?_
    rw [List.length_map, List.length_range] at short
    rw [List.getElem_map, List.getElem_map, List.getElem_range, textsIn,
      redirected.shapes_added native tagged resolver (List.getElem?_eq_getElem short),
      (textsOf_declarationShapes _).1, List.map_map]
    rfl
  refine ((redirected.perm_injectedNodes native whole).flatMap_right _).trans ?_
  rw [List.flatMap_map, List.flatMap_def, each, ← List.flatMap_def, ← List.map_flatMap]
  refine (Ledger.perm_numbers redirected.once fun entry member => ?_).map _
  obtain ⟨number, here⟩ := List.mem_iff_getElem?.mp member
  exact (redirected.declares entry.1).mpr (List.ne_nil_of_mem (Ledger.mem_ofBlock.mpr here))

end Added

/-! ### Redirected files -/

/-- What a redirection makes of a tree, given which variable stands for a reference of a block. -/
structure Renaming (redirection : Redirection) (tree : Tree) (after : Redirection) (woven : Tree)
    (variableOf : Nat → Reference → Text) : Prop where
  /-- The nodes put in declare the variables with the numbers below the count, each once. -/
  declared : (woven.injectedNodes.flatMap (woven.textsIn .variableName)).Perm
    ((List.range after.count).map redirection.variableAt)
  distinct : ((List.range after.count).map redirection.variableAt).Nodup
  /-- In the code of a block with room each reference is its variable and each other token stays. -/
  replaced : ∀ id ∈ tree.editableNodes, ∀ block, hostOf? tree id = some block →
    Fragment.shapes (woven.node id).body =
      (redirection.entries tree id).map (putShape (variableOf block))
  kept : ∀ id < tree.size, id ∉ tree.editableNodes ∨ hostOf? tree id = none →
    (woven.node id).body = (tree.node id).body
  /-- A variable is declared under the parent of the code that reads it. -/
  under : ∀ id ∈ tree.editableNodes, ∀ block, hostOf? tree id = some block →
    ∀ token reference, (token, some reference) ∈ redirection.entries tree id →
      ∃ new ∈ woven.injectedNodes, woven.parent? new = tree.parent? id ∧
        variableOf block reference ∈ woven.textsIn .variableName new
  /-- References share a variable when they have the block, the scope, the use and, up to letter
  case, the resolved name in common. -/
  shared : ∀ block reference other otherReference, Meets redirection tree block reference →
    Meets redirection tree other otherReference →
      (variableOf block reference = variableOf other otherReference ↔
        block = other ∧ reference.scope = otherReference.scope ∧
          Text.lower reference.name = Text.lower otherReference.name ∧
          reference.use = otherReference.use)
  /-- Each declaration has one string, which holds the name of a reference of the block. -/
  quoted : ∀ new ∈ woven.injectedNodes, ∃ (block : Nat) (references : List Reference),
    woven.parent? new = some block ∧
    (∀ reference ∈ references, Meets redirection tree block reference) ∧
    woven.textsIn .variableName new = references.map (variableOf block) ∧
    woven.textsIn .quotedString new =
      references.map fun reference => '\'' :: (reference.name ++ ['\''])
  /-- A second redirection changes nothing and counts nothing. -/
  again : after.redirect woven = ({ after with count := 0 }, woven)

theorem key_eq_iff (reference other : Reference) : reference.key = other.key ↔
    reference.scope = other.scope ∧ Text.lower reference.name = Text.lower other.name ∧
      reference.use = other.use := by
  rw [Reference.key, Reference.key, Reference.mk.injEq]

/-- A file that has a tree is redirected without a clash of variables: for the resolver that is
called when nothing else is said, a tag of name characters and at least the words kept back. -/
theorem renaming_of_parse {listLines : Bool} {source : Text} {tree : Tree}
    (parsed : parse listLines source = .ok tree) {redirection : Redirection}
    (resolver : redirection.resolver = "\\Kahlan\\Plugin\\Monkey::patched".toList)
    (tag : ∀ c ∈ redirection.tag, isNameChar c = true)
    (reserved : Reserved.words ⊆ redirection.reserved) :
    ∃ variableOf, Renaming redirection tree (redirection.redirect tree).1
      (redirection.redirect tree).2 variableOf := by
  have native := native_of_parse parsed
  have linked := native.linked
  obtain ⟨-, whole, stretches, parts, consecutive, made⟩ := made_of_parse parsed
  have ranges : tree.Ranges (TokenStream.ofText .html source).tokens stretches :=
    ⟨parts, consecutive, made⟩
  have tagged : redirection.Tagged := tag
  have kept : "const".toList ∈ redirection.reserved :=
    reserved (List.mem_map_of_mem (by decide))
  have plain := fun id (member : id ∈ tree.editableNodes) => ranges.plain member
  obtain ⟨counted, blocks, redirected⟩ := redirected_redirect redirection linked
  have silent := redirected.settled linked whole tagged kept plain
  have again : (redirection.redirect tree).1.redirect (redirection.redirect tree).2 =
      ({ (redirection.redirect tree).1 with count := 0 }, (redirection.redirect tree).2) := by
    rw [counted]
    exact redirect_of_silent redirected.linked silent
  refine ⟨redirection.variableIn (redirection.ledger tree), ?_⟩
  generalize redirection.redirect tree = made at counted redirected again
  have count : made.1.count = (redirection.ledger tree).length := by rw [counted]
  constructor
  case declared =>
    rw [count]
    exact redirected.perm_declared native whole tagged resolver
  case distinct => exact List.nodup_range.map fun _ _ same => variableAt_inj same
  case replaced =>
    intro id member block host
    rw [redirected.code id member, written, host]
    exact shapes_put _ _ _ tagged (plain id member)
  case kept =>
    intro id inside either
    by_cases member : id ∈ tree.editableNodes
    · rw [redirected.code id member, written, either.resolve_left (not_not_intro member)]
    · exact redirected.other id inside member
  case under =>
    intro id member block host token reference among
    have meets : Meets redirection tree block reference := ⟨id, member, host, token, among⟩
    obtain ⟨entry, found, serves⟩ := Ledger.serves_getElem meets.known
    obtain ⟨rfl, -⟩ := Ledger.serves_iff.mp serves
    have entered := Ledger.mem_ofBlock.mpr found
    obtain ⟨number, here⟩ := List.mem_iff_getElem?.mp
      ((redirected.declares entry.1).mpr (List.ne_nil_of_mem entered))
    refine ⟨tree.size + number, (redirected.mem_injectedNodes native whole).mpr
      ⟨number, (List.getElem?_eq_some_iff.mp here).1, rfl⟩, ?_, ?_⟩
    · obtain ⟨-, -, above⟩ := redirected.added number _ here
      rw [above, (hostOf?_eq_some host).1]
    · rw [textsIn, redirected.shapes_added native tagged resolver here,
        (textsOf_declarationShapes _).1]
      exact List.mem_map.mpr ⟨_, entered, rfl⟩
  case shared =>
    intro block reference other otherReference meets otherMeets
    rw [← key_eq_iff, ← Ledger.number_inj meets.known otherMeets.known]
    exact ⟨variableAt_inj, congrArg redirection.variableAt⟩
  case quoted =>
    intro new member
    obtain ⟨number, short, rfl⟩ := (redirected.mem_injectedNodes native whole).mp member
    have here := List.getElem?_eq_getElem short
    obtain ⟨-, -, above⟩ := redirected.added number _ here
    have shapes := redirected.shapes_added native tagged resolver here
    have entry {entry : Nat × Reference}
        (member : entry ∈ (redirection.ledger tree).ofBlock blocks[number]) :=
      Ledger.mem_ofBlock.mp member
    refine ⟨blocks[number], ((redirection.ledger tree).ofBlock blocks[number]).map Prod.snd, above,
      fun reference among => ?_, ?_, ?_⟩
    · obtain ⟨⟨place, _⟩, known, rfl⟩ := List.mem_map.mp among
      exact meets_of_mem_ledger (List.mem_of_getElem? (entry known))
    · rw [textsIn, shapes, (textsOf_declarationShapes _).1, List.map_map]
      refine List.map_congr_left fun one known => ?_
      have place := (distinct_ledgerOf _).number_eq (entry known)
      exact congrArg redirection.variableAt place.symm
    · rw [textsIn, shapes, (textsOf_declarationShapes _).2, List.map_map]
      rfl
  case again => exact again

/-- A class named twice and a function that a closure calls too. -/
theorem renaming_of_parse_calls :
    let source := "<?php use A\\B; function f() \x7b new B; return fn() => b(new \\A\\b, F()); \x7d".toList
    ∃ tree variableOf, parse false source = .ok tree ∧
      Renaming {} tree (({} : Redirection).redirect tree).1 (({} : Redirection).redirect tree).2
        variableOf := by
  intro source
  have closes : (parse false source).toBool = true := by decide +kernel
  cases parsed : parse false source with
  | error fault =>
      rw [parsed] at closes
      cases closes
  | ok tree =>
      obtain ⟨variableOf, found⟩ := @renaming_of_parse _ _ _ parsed {} rfl
        (List.all_eq_true.mp (by decide)) (List.Subset.refl _)
      exact ⟨tree, variableOf, rfl, found⟩

end Redirection
end PhpWeave
