import PhpWeave.Proofs.Weave.Redirection

set_option autoImplicit false

/-!
The numbering of variables in a redirection. A ledger lists the references that have variables, each
with its block, in the order in which a run over the file meets them; the place of an entry is the
number of its variable. A reference enters the ledger when its block has none with its key. What the
blocks of a run hold is what the ledger says of them, and what is written for a reference depends on
nothing that enters later.
-/

namespace PhpWeave

/-- References with the blocks that declare their variables, by number. -/
abbrev Ledger := List (Nat × Reference)

namespace Ledger

/-- Whether an entry gives a reference of a block its variable. -/
def serves (block : Nat) (reference : Reference) (entry : Nat × Reference) : Bool :=
  entry.1 = block && entry.2.key = reference.key

def number (ledger : Ledger) (block : Nat) (reference : Reference) : Nat :=
  ledger.findIdx (serves block reference)

def enter (block : Nat) (ledger : Ledger) (reference : Reference) : Ledger :=
  if ledger.any (serves block reference) then ledger else ledger ++ [(block, reference)]

def ofBlock (ledger : Ledger) (block : Nat) : List (Nat × Reference) :=
  (ledger.zipIdx.filter fun entry => entry.1.1 = block).map fun entry => (entry.2, entry.1.2)

variable {ledger later : Ledger} {block : Nat} {reference : Reference}

theorem serves_iff {entry : Nat × Reference} : serves block reference entry = true ↔
    entry.1 = block ∧ entry.2.key = reference.key := by
  simp [serves]

theorem serves_self (block : Nat) (reference : Reference) :
    serves block reference (block, reference) = true := serves_iff.mpr ⟨rfl, rfl⟩

theorem prefix_enter (block : Nat) (ledger : Ledger) (reference : Reference) :
    ledger <+: enter block ledger reference := by
  unfold enter
  split
  · exact List.prefix_rfl
  · exact List.prefix_append _ _

theorem prefix_foldl_enter (block : Nat) (ledger : Ledger) (references : List Reference) :
    ledger <+: references.foldl (enter block) ledger := by
  induction references generalizing ledger with
  | nil => exact List.prefix_rfl
  | cons reference references ih => exact (prefix_enter block ledger reference).trans (ih _)

theorem any_enter (block : Nat) (ledger : Ledger) (reference : Reference) :
    (enter block ledger reference).any (serves block reference) = true := by
  unfold enter
  split
  · assumption
  · simp [serves]

theorem number_lt (known : ledger.any (serves block reference) = true) :
    ledger.number block reference < ledger.length := by
  obtain ⟨entry, member, isOne⟩ := List.any_eq_true.mp known
  exact List.findIdx_lt_length_of_exists ⟨entry, member, isOne⟩

theorem number_of_prefix (known : ledger.any (serves block reference) = true)
    (more : ledger <+: later) : later.number block reference = ledger.number block reference := by
  obtain ⟨rest, rfl⟩ := more
  rw [number, List.findIdx_append]
  exact if_pos (number_lt known)

theorem any_of_prefix (known : ledger.any (serves block reference) = true)
    (more : ledger <+: later) : later.any (serves block reference) = true := by
  obtain ⟨entry, member, isOne⟩ := List.any_eq_true.mp known
  exact List.any_eq_true.mpr ⟨entry, more.subset member, isOne⟩

theorem serves_getElem (known : ledger.any (serves block reference) = true) :
    ∃ entry, ledger[ledger.number block reference]? = some entry ∧
      serves block reference entry = true := by
  have inside := number_lt known
  exact ⟨_, List.getElem?_eq_getElem inside, List.findIdx_getElem⟩

theorem number_inj {otherBlock : Nat} {other : Reference}
    (known : ledger.any (serves block reference) = true)
    (otherKnown : ledger.any (serves otherBlock other) = true) :
    ledger.number block reference = ledger.number otherBlock other ↔
      block = otherBlock ∧ reference.key = other.key := by
  constructor
  · intro same
    obtain ⟨entry, here, isOne⟩ := serves_getElem known
    obtain ⟨entry', here', isOther⟩ := serves_getElem otherKnown
    rw [same, here', Option.some.injEq] at here
    subst here
    obtain ⟨inBlock, key⟩ := serves_iff.mp isOne
    obtain ⟨inOther, otherKey⟩ := serves_iff.mp isOther
    exact ⟨inBlock.symm.trans inOther, key.symm.trans otherKey⟩
  · rintro ⟨rfl, key⟩
    have same : serves block reference = serves block other := by
      funext entry
      rw [serves, serves, key]
    rw [number, number, same]

theorem ofBlock_append (ledger : Ledger) (entry : Nat × Reference) (block : Nat) :
    ofBlock (ledger ++ [entry]) block =
      ledger.ofBlock block ++ if entry.1 = block then [(ledger.length, entry.2)] else [] := by
  rw [ofBlock, List.zipIdx_append, List.filter_append, List.map_append]
  congr 1
  by_cases here : entry.1 = block <;> simp [here]

theorem ofBlock_enter_of_ne {other : Nat} (apart : block ≠ other) (reference : Reference) :
    (enter block ledger reference).ofBlock other = ledger.ofBlock other := by
  unfold enter
  split
  · rfl
  · rw [ofBlock_append, if_neg apart, List.append_nil]

theorem ofBlock_foldl_enter_of_ne {other : Nat} (apart : block ≠ other)
    (references : List Reference) :
    (references.foldl (enter block) ledger).ofBlock other = ledger.ofBlock other := by
  induction references generalizing ledger with
  | nil => rfl
  | cons reference references ih => rw [List.foldl_cons, ih, ofBlock_enter_of_ne apart]

theorem any_foldl_enter {references : List Reference} (member : reference ∈ references) :
    (references.foldl (enter block) ledger).any (serves block reference) = true := by
  induction references generalizing ledger with
  | nil => cases member
  | cons first references ih =>
      rcases List.mem_cons.mp member with rfl | later
      · exact any_of_prefix (any_enter block ledger reference) (prefix_foldl_enter _ _ _)
      · exact ih later

theorem mem_foldl_enter {references : List Reference} {entry : Nat × Reference}
    (member : entry ∈ references.foldl (enter block) ledger) :
    entry ∈ ledger ∨ entry.1 = block ∧ entry.2 ∈ references := by
  induction references generalizing ledger with
  | nil => exact .inl member
  | cons first references ih =>
      rcases ih member with old | ⟨here, later⟩
      · unfold enter at old
        split at old
        · exact .inl old
        · rcases List.mem_append.mp old with old | new
          · exact .inl old
          · rw [List.mem_singleton.mp new]
            exact .inr ⟨rfl, List.mem_cons_self⟩
      · exact .inr ⟨here, List.mem_cons_of_mem _ later⟩

theorem mem_ofBlock {number : Nat} : (number, reference) ∈ ledger.ofBlock block ↔
    ledger[number]? = some (block, reference) := by
  simp only [ofBlock, List.mem_map, List.mem_filter, List.mem_zipIdx_iff_getElem?, Prod.mk.injEq,
    decide_eq_true_eq]
  constructor
  · rintro ⟨⟨⟨found, entry⟩, index⟩, ⟨here, rfl⟩, rfl, rfl⟩
    exact here
  · intro here
    exact ⟨((block, reference), number), ⟨here, rfl⟩, rfl, rfl⟩

theorem nodup_ofBlock (ledger : Ledger) (block : Nat) :
    ((ledger.ofBlock block).map Prod.fst).Nodup := by
  have indices : (ledger.zipIdx.map Prod.snd).Nodup := by
    rw [List.zipIdx_map_snd]
    exact List.nodup_range'
  rw [ofBlock, List.map_map]
  exact indices.sublist (List.filter_sublist.map Prod.snd)

/-- Blocks that hold a whole ledger number each of its entries once. -/
theorem perm_numbers {blocks : List Nat} (once : blocks.Nodup)
    (holds : ∀ entry ∈ ledger, entry.1 ∈ blocks) :
    (blocks.flatMap fun block => (ledger.ofBlock block).map Prod.fst).Perm
      (List.range ledger.length) := by
  have entry (block number : Nat) : number ∈ (ledger.ofBlock block).map Prod.fst ↔
      ∃ reference, ledger[number]? = some (block, reference) := by
    constructor
    · intro member
      obtain ⟨⟨_, reference⟩, among, rfl⟩ := List.mem_map.mp member
      exact ⟨reference, mem_ofBlock.mp among⟩
    · rintro ⟨reference, here⟩
      exact List.mem_map.mpr ⟨(number, reference), mem_ofBlock.mpr here, rfl⟩
  refine (List.perm_ext_iff_of_nodup ?_ List.nodup_range).mpr fun number => ?_
  · refine List.nodup_flatMap.mpr ⟨fun block _ => nodup_ofBlock ledger block, once.imp ?_⟩
    intro block other apart number isIn isOut
    obtain ⟨reference, here⟩ := (entry block number).mp isIn
    obtain ⟨reference', there⟩ := (entry other number).mp isOut
    rw [here] at there
    exact apart (congrArg Prod.fst (Option.some.inj there))
  · rw [List.mem_flatMap, List.mem_range]
    constructor
    · rintro ⟨block, -, member⟩
      obtain ⟨reference, here⟩ := (entry block number).mp member
      exact (List.getElem?_eq_some_iff.mp here).1
    · intro inside
      have here := List.getElem?_eq_getElem inside
      exact ⟨ledger[number].1, holds _ (List.getElem_mem inside),
        (entry _ number).mpr ⟨ledger[number].2, here⟩⟩

theorem number_snoc (unknown : ledger.any (serves block reference) = false) :
    number (ledger ++ [(block, reference)]) block reference = ledger.length := by
  have beyond : ledger.findIdx (serves block reference) = ledger.length := by
    refine List.findIdx_eq_length.mpr fun entry member => ?_
    exact eq_false_of_ne_true (List.any_eq_false.mp unknown entry member)
  rw [number, List.findIdx_append, beyond, if_neg (Nat.lt_irrefl _), List.findIdx_cons, serves_self]
  exact Nat.zero_add _

theorem find?_ofBlock (ledger : Ledger) (block : Nat) (reference : Reference) :
    ((ledger.ofBlock block).find? fun entry => entry.2.key = reference.key).map Prod.fst =
      if ledger.any (serves block reference) then some (ledger.number block reference)
      else none := by
  suffices from_ : ∀ start : Nat, ((((ledger.zipIdx start).filter fun entry =>
      entry.1.1 = block).map fun entry => (entry.2, entry.1.2)).find?
        fun entry => entry.2.key = reference.key).map Prod.fst =
      if ledger.any (serves block reference) then some (start + ledger.number block reference)
      else none by
    have whole := from_ 0
    rw [Nat.zero_add] at whole
    exact whole
  induction ledger with
  | nil => intro start; rfl
  | cons entry ledger ih =>
      intro start
      have later := ih (start + 1)
      by_cases isOne : serves block reference entry = true
      · obtain ⟨here, key⟩ := serves_iff.mp isOne
        simp [List.zipIdx_cons, here, key, isOne, number, List.findIdx_cons]
      · have other : serves block reference entry = false := eq_false_of_ne_true isOne
        have skipped : start + number (entry :: ledger) block reference =
            start + 1 + number ledger block reference := by
          rw [number, List.findIdx_cons, other]
          change start + (number ledger block reference + 1) = _
          omega
        rw [skipped, List.any_cons, other, Bool.false_or, ← later]
        rw [serves_iff, not_and] at isOne
        by_cases here : entry.1 = block
        · simp [List.zipIdx_cons, here, isOne here]
        · simp [List.zipIdx_cons, here]

def Distinct (ledger : Ledger) : Prop :=
  ledger.Pairwise fun entry other => ¬ (entry.1 = other.1 ∧ entry.2.key = other.2.key)

theorem Distinct.enter (distinct : ledger.Distinct) (block : Nat) (reference : Reference) :
    (Ledger.enter block ledger reference).Distinct := by
  unfold Ledger.enter
  split
  · exact distinct
  · next unknown =>
      refine List.pairwise_append.mpr ⟨distinct, List.pairwise_singleton _ _, ?_⟩
      rintro entry member other isNew ⟨here, key⟩
      rw [List.mem_singleton.mp isNew] at here key
      exact unknown (List.any_eq_true.mpr ⟨entry, member, serves_iff.mpr ⟨here, key⟩⟩)

theorem Distinct.number_eq (distinct : ledger.Distinct) {number : Nat}
    (here : ledger[number]? = some (block, reference)) :
    ledger.number block reference = number := by
  have known : ledger.any (serves block reference) = true :=
    List.any_eq_true.mpr ⟨_, List.mem_of_getElem? here, serves_iff.mpr ⟨rfl, rfl⟩⟩
  obtain ⟨entry, found, isOne⟩ := serves_getElem known
  obtain ⟨inside, rfl⟩ := List.getElem?_eq_some_iff.mp found
  obtain ⟨within, same⟩ := List.getElem?_eq_some_iff.mp here
  have agree := serves_iff.mp isOne
  have apart := List.pairwise_iff_getElem.mp distinct
  rcases Nat.lt_trichotomy (ledger.number block reference) number with less | same | more
  · exact absurd (same ▸ agree) (apart _ _ inside within less)
  · exact same
  · exact absurd (same ▸ ⟨agree.1.symm, agree.2.symm⟩) (apart _ _ within inside more)

end Ledger

namespace Redirection

variable {redirection : Redirection} {ledger : Ledger} {block : RedirectionBlock}

/-- A block that holds what a ledger says of it. -/
structure InStep (redirection : Redirection) (ledger : Ledger) (block : RedirectionBlock) :
    Prop where
  allotted : block.allotted = (ledger.ofBlock block.id).map fun entry =>
    (entry.2.key, redirection.variableAt entry.1)
  assignments : block.assignments = (ledger.ofBlock block.id).map fun entry =>
    redirection.assignment (redirection.variableAt entry.1) entry.2

/-- What an allotment does for a block, the ledger and the text. -/
structure Allots (redirection : Redirection) (block : RedirectionBlock) (after : Ledger)
    (made : Redirection × RedirectionBlock) : Prop where
  counted : made.1 = { redirection with count := after.length }
  inStep : InStep redirection after made.2
  id : made.2.id = block.id
  index : made.2.index = block.index

theorem allot_inStep (counted : redirection.count = ledger.length)
    (inStep : InStep redirection ledger block) (reference : Reference) :
    Allots redirection block (ledger.enter block.id reference)
        (redirection.allot block reference).2 ∧
      (redirection.allot block reference).1 =
        redirection.variableAt ((ledger.enter block.id reference).number block.id reference) := by
  have search := Ledger.find?_ofBlock ledger block.id reference
  have asked : (block.allotted.find? fun entry => entry.1 = reference.key) =
      ((ledger.ofBlock block.id).find? fun entry => entry.2.key = reference.key).map
        fun entry => (entry.2.key, redirection.variableAt entry.1) := by
    rw [inStep.allotted, List.find?_map]
    rfl
  rw [allot, asked, Ledger.enter]
  cases found : (ledger.ofBlock block.id).find? fun entry => entry.2.key = reference.key with
  | some entry =>
      rw [found] at search
      split at search
      · next known =>
          have number : entry.1 = ledger.number block.id reference := Option.some.inj search
          rw [if_pos known, ← number]
          refine ⟨⟨?_, inStep, rfl, rfl⟩, rfl⟩
          rw [← counted]
          rfl
      · cases search
  | none =>
      rw [found] at search
      split at search
      · cases search
      · next unknown =>
          have noOne := eq_false_of_ne_true unknown
          have added : Ledger.ofBlock (ledger ++ [(block.id, reference)]) block.id =
              ledger.ofBlock block.id ++ [(redirection.count, reference)] := by
            rw [Ledger.ofBlock_append, if_pos rfl, counted]
          rw [if_neg unknown, Ledger.number_snoc noOne]
          refine ⟨⟨?_, ⟨?_, ?_⟩, rfl, rfl⟩, by rw [← counted]; rfl⟩
          · rw [List.length_append, ← counted]
            rfl
          · change block.allotted ++ [_] = (Ledger.ofBlock _ block.id).map _
            rw [added, List.map_append, inStep.allotted]
            rfl
          · change block.assignments ++ [_] = (Ledger.ofBlock _ block.id).map _
            rw [added, List.map_append, inStep.assignments]
            rfl

theorem InStep.congr {later : Ledger} (inStep : InStep redirection ledger block)
    (same : later.ofBlock block.id = ledger.ofBlock block.id) : InStep redirection later block := by
  constructor
  · rw [same, inStep.allotted]
  · rw [same, inStep.assignments]

/-- A token as it is put down: as the variable that a ledger gives its reference, or as it is. -/
def putWith (redirection : Redirection) (ledger : Ledger) (block : Nat)
    (entry : Token × Option Reference) : Text :=
  (entry.2.map fun reference => redirection.variableAt (ledger.number block reference)).getD
    entry.1.text

theorem putAll_inStep (counted : redirection.count = ledger.length)
    (inStep : InStep redirection ledger block) (entries : List (Token × Option Reference)) :
    Allots redirection block ((entries.filterMap Prod.snd).foldl (Ledger.enter block.id) ledger)
        (redirection.putAll block entries).2 ∧
      ∀ later : Ledger,
        (entries.filterMap Prod.snd).foldl (Ledger.enter block.id) ledger <+: later →
          (redirection.putAll block entries).1 =
            entries.flatMap (redirection.putWith later block.id) := by
  induction entries generalizing redirection ledger block with
  | nil =>
      refine ⟨⟨?_, inStep, rfl, rfl⟩, fun _ _ => rfl⟩
      change redirection = { redirection with count := ledger.length }
      rw [← counted]
  | cons entry entries ih =>
      obtain ⟨token, choice⟩ := entry
      cases choice with
      | none =>
          obtain ⟨allots, text⟩ := ih counted inStep
          refine ⟨allots, fun later more => ?_⟩
          rw [putAll, List.flatMap_cons, ← text later more]
          rfl
      | some reference =>
          obtain ⟨⟨newCount, newStep, id, index⟩, variableText⟩ :=
            allot_inStep counted inStep reference
          rw [putAll, List.filterMap_cons, List.foldl_cons]
          rcases made : redirection.allot block reference with ⟨name, next, after⟩
          rw [made] at newCount newStep id index variableText
          simp only at newCount newStep id index variableText ⊢
          subst newCount
          -- How many variables there are takes no part in what a block holds.
          have recounted : InStep
              { redirection with count := (Ledger.enter block.id ledger reference).length }
              (Ledger.enter block.id ledger reference) after :=
            ⟨newStep.allotted, newStep.assignments⟩
          obtain ⟨allots, text⟩ := ih rfl recounted
          rw [id] at allots text
          refine ⟨⟨allots.counted, ⟨allots.inStep.allotted, allots.inStep.assignments⟩,
            allots.id.trans id, allots.index.trans index⟩, fun later more => ?_⟩
          have known := Ledger.any_enter block.id ledger reference
          have stays := Ledger.number_of_prefix known
            ((Ledger.prefix_foldl_enter _ _ _).trans more)
          rw [List.flatMap_cons, variableText, putWith, Option.map_some, Option.getD_some, stays,
            text later more]
          rfl

end Redirection
end PhpWeave
