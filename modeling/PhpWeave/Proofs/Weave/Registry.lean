import Mathlib.Data.List.Forall2
import Mathlib.Data.List.Induction
import Mathlib.Data.Nat.Find
import PhpWeave.Proofs.Weave.Steady

set_option autoImplicit false

/-!
Chains told by what was done to them. A name is in a chain from its first registration since it was
last removed, names stand in the order of these registrations, and under each of them is the weaver
that was registered last. What a chain makes of a file is what these weavers make of it as they were
registered, one after another: files woven before leave no trace.
-/

namespace PhpWeave.Chain

/-- What is done to a chain. -/
inductive Action where
  | add (name : Text) (weaver : StandardWeaver)
  | remove (name : Text)
  | clear
  | weave (source : Text) (file : Option Path)
  | weaveTree (tree : Tree) (file : Option Path)

/-- Whether an action is about what is in the chain, and not about a file. -/
def Action.registers : Action → Bool
  | .add _ _ | .remove _ | .clear => true
  | .weave _ _ | .weaveTree _ _ => false

def act (chain : Chain StandardWeaver) : Action → Chain StandardWeaver
  | .add name weaver => chain.add name weaver
  | .remove name => chain.remove name
  | .clear => chain.clear
  | .weave source file => (chain.weave source file).2
  | .weaveTree tree file => (chain.weaveTree tree file).1

/-- The chain after some actions, of which the first finds it empty. -/
def after (actions : List Action) : Chain StandardWeaver := actions.foldl act {}

theorem after_concat (actions : List Action) (action : Action) :
    after (actions ++ [action]) = (after actions).act action := by
  rw [after, List.foldl_append]
  rfl

/-! ### Histories -/

def Adds (actions : List Action) (moment : Nat) (name : Text) (weaver : StandardWeaver) : Prop :=
  actions[moment]? = some (.add name weaver)

def Drops (actions : List Action) (moment : Nat) (name : Text) : Prop :=
  actions[moment]? = some (.remove name) ∨ actions[moment]? = some .clear

/-- Whether a name was first registered at a moment, counted from its last removal on, and not
removed since. -/
structure Since (actions : List Action) (name : Text) (moment : Nat) : Prop where
  added : ∃ weaver, Adds actions moment name weaver
  first : ∀ earlier weaver, earlier < moment → Adds actions earlier name weaver →
    ∃ between, earlier < between ∧ between < moment ∧ Drops actions between name
  kept : ∀ later, moment < later → ¬ Drops actions later name

/-- Whether a weaver is the last that was registered under a name, and not removed since. -/
def Stands (actions : List Action) (name : Text) (weaver : StandardWeaver) : Prop :=
  ∃ moment, Adds actions moment name weaver ∧
    ∀ later, moment < later →
      ¬ Drops actions later name ∧ ∀ other, ¬ Adds actions later name other

section History

variable {actions : List Action} {action : Action} {name : Text} {moment : Nat}
  {weaver : StandardWeaver}

theorem Adds.lt (adds : Adds actions moment name weaver) : moment < actions.length :=
  (List.getElem?_eq_some_iff.mp adds).1

theorem Drops.lt (drops : Drops actions moment name) : moment < actions.length :=
  drops.elim (fun removed => (List.getElem?_eq_some_iff.mp removed).1)
    fun cleared => (List.getElem?_eq_some_iff.mp cleared).1

theorem Adds.not_drops (adds : Adds actions moment name weaver) (other : Text) :
    ¬ Drops actions moment other := by
  rintro (removed | cleared)
  · cases adds.symm.trans removed
  · cases adds.symm.trans cleared

theorem Since.unique {other : Nat} (since : Since actions name moment)
    (otherSince : Since actions name other) : moment = other := by
  rcases Nat.lt_trichotomy moment other with before | same | behind
  · obtain ⟨weaver, adds⟩ := since.added
    obtain ⟨between, later, -, drops⟩ := otherSince.first moment weaver before adds
    exact absurd drops (since.kept between later)
  · exact same
  · obtain ⟨weaver, adds⟩ := otherSince.added
    obtain ⟨between, later, -, drops⟩ := since.first other weaver behind adds
    exact absurd drops (otherSince.kept between later)

theorem exists_since (adds : Adds actions moment name weaver)
    (kept : ∀ later, moment < later → ¬ Drops actions later name) :
    ∃ first, Since actions name first := by
  classical
  have some : ∃ moment weaver, Adds actions moment name weaver ∧
      ∀ later, moment < later → ¬ Drops actions later name := ⟨moment, weaver, adds, kept⟩
  obtain ⟨least, added, never⟩ := Nat.find_spec some
  refine ⟨Nat.find some, ⟨least, added⟩, fun earlier other before adds => ?_, never⟩
  by_contra undropped
  refine Nat.find_min some before ⟨other, adds, fun later behind drops => ?_⟩
  rcases Nat.lt_trichotomy later (Nat.find some) with between | same | after
  · exact undropped ⟨later, behind, between, drops⟩
  · exact added.not_drops name (same ▸ drops)
  · exact never later after drops

/-! ### One more action -/

theorem getElem?_concat_of_lt (early : moment < actions.length) :
    (actions ++ [action])[moment]? = actions[moment]? :=
  List.getElem?_append_left early

theorem eq_of_getElem?_concat {found : Action}
    (here : (actions ++ [action])[moment]? = some found) :
    moment < actions.length ∧ actions[moment]? = some found ∨
      moment = actions.length ∧ action = found := by
  by_cases early : moment < actions.length
  · exact .inl ⟨early, getElem?_concat_of_lt early ▸ here⟩
  · have within := (List.getElem?_eq_some_iff.mp here).1
    rw [List.length_append, List.length_singleton] at within
    obtain rfl : moment = actions.length := by omega
    rw [List.getElem?_concat_length] at here
    exact .inr ⟨rfl, Option.some.inj here⟩

theorem Adds.concat (adds : Adds actions moment name weaver) (action : Action) :
    Adds (actions ++ [action]) moment name weaver :=
  (getElem?_concat_of_lt adds.lt).trans adds

theorem adds_last (actions : List Action) (name : Text) (weaver : StandardWeaver) :
    Adds (actions ++ [.add name weaver]) actions.length name weaver :=
  List.getElem?_concat_length

theorem Drops.concat (drops : Drops actions moment name) (action : Action) :
    Drops (actions ++ [action]) moment name := by
  rwa [Drops, getElem?_concat_of_lt drops.lt]

def Action.IsRemoval (name : Text) (action : Action) : Prop :=
  action = .remove name ∨ action = .clear

theorem drops_of_concat (stays : ¬ action.IsRemoval name)
    (drops : Drops (actions ++ [action]) moment name) : Drops actions moment name := by
  rcases drops with removed | cleared
  · rcases eq_of_getElem?_concat removed with ⟨-, old⟩ | ⟨-, last⟩
    · exact .inl old
    · exact absurd (.inl last) stays
  · rcases eq_of_getElem?_concat cleared with ⟨-, old⟩ | ⟨-, last⟩
    · exact .inr old
    · exact absurd (.inr last) stays

theorem Since.concat (since : Since actions name moment) (stays : ¬ action.IsRemoval name) :
    Since (actions ++ [action]) name moment := by
  obtain ⟨weaver, added⟩ := since.added
  refine ⟨⟨weaver, added.concat action⟩, fun earlier other before adds => ?_,
    fun later behind drops => since.kept later behind (drops_of_concat stays drops)⟩
  have old : Adds actions earlier name other :=
    (getElem?_concat_of_lt (Nat.lt_trans before added.lt)).symm.trans adds
  obtain ⟨between, behind, ahead, drops⟩ := since.first earlier other before old
  exact ⟨between, behind, ahead, drops.concat action⟩

theorem since_last (missing : ¬ ∃ moment, Since actions name moment) (weaver : StandardWeaver) :
    Since (actions ++ [.add name weaver]) name actions.length := by
  have stays : ¬ (Action.add name weaver).IsRemoval name := by simp [Action.IsRemoval]
  refine ⟨⟨weaver, adds_last actions name weaver⟩, fun earlier other before adds => ?_,
    fun later behind drops => ?_⟩
  · have old : Adds actions earlier name other := (getElem?_concat_of_lt before).symm.trans adds
    by_contra undropped
    refine missing (exists_since old fun later behind drops => undropped ?_)
    exact ⟨later, behind, drops.lt, drops.concat _⟩
  · exact absurd (drops_of_concat stays drops).lt (Nat.lt_asymm behind)

theorem not_since_concat (removal : action.IsRemoval name) :
    ¬ Since (actions ++ [action]) name moment := by
  intro since
  obtain ⟨weaver, added⟩ := since.added
  have last : Drops (actions ++ [action]) actions.length name := by
    rcases removal with rfl | rfl
    · exact .inl List.getElem?_concat_length
    · exact .inr List.getElem?_concat_length
  rcases eq_of_getElem?_concat added with ⟨early, -⟩ | ⟨rfl, -⟩
  · exact since.kept _ early last
  · exact added.not_drops name last

theorem exists_since_concat (name : Text) :
    (∃ moment, Since (actions ++ [action]) name moment) ↔
      (∃ weaver, action = .add name weaver) ∨
        (∃ moment, Since actions name moment) ∧ ¬ action.IsRemoval name := by
  constructor
  · rintro ⟨moment, since⟩
    have stays : ¬ action.IsRemoval name := fun removal => not_since_concat removal since
    obtain ⟨weaver, added⟩ := since.added
    rcases eq_of_getElem?_concat added with ⟨-, old⟩ | ⟨-, last⟩
    · refine .inr ⟨exists_since old fun later behind drops => ?_, stays⟩
      exact since.kept later behind (drops.concat action)
    · exact .inl ⟨weaver, last⟩
  · rintro (⟨weaver, rfl⟩ | ⟨⟨moment, since⟩, stays⟩)
    · by_cases known : ∃ moment, Since actions name moment
      · obtain ⟨moment, since⟩ := known
        exact ⟨moment, since.concat (by simp [Action.IsRemoval])⟩
      · exact ⟨_, since_last known weaver⟩
    · exact ⟨moment, since.concat stays⟩

theorem Stands.concat (stands : Stands actions name weaver) (stays : ¬ action.IsRemoval name)
    (keeps : ∀ other, action ≠ .add name other) : Stands (actions ++ [action]) name weaver := by
  obtain ⟨moment, added, last⟩ := stands
  refine ⟨moment, added.concat action, fun later behind => ⟨fun drops => ?_, fun other adds => ?_⟩⟩
  · exact (last later behind).1 (drops_of_concat stays drops)
  · rcases eq_of_getElem?_concat adds with ⟨-, old⟩ | ⟨-, same⟩
    · exact (last later behind).2 other old
    · exact keeps other same

theorem stands_last (actions : List Action) (name : Text) (weaver : StandardWeaver) :
    Stands (actions ++ [.add name weaver]) name weaver := by
  refine ⟨actions.length, adds_last actions name weaver, fun later behind => ⟨fun drops => ?_,
    fun other adds => ?_⟩⟩
  · have within := drops.lt
    rw [List.length_append, List.length_singleton] at within
    omega
  · have within := adds.lt
    rw [List.length_append, List.length_singleton] at within
    omega

end History

/-! ### Entries -/

section Entries

variable {ω : Type} {name : Text} {entries : List (Text × ω)}

theorem names_put_of_mem (weaver : ω) (known : name ∈ entries.map Prod.fst) :
    (put name weaver entries).map Prod.fst = entries.map Prod.fst := by
  induction entries with
  | nil => cases known
  | cons entry rest ih =>
      rw [put]
      by_cases same : entry.1 = name
      · rw [if_pos same, List.map_cons, List.map_cons, same]
      · have later := (List.mem_cons.mp known).resolve_left (Ne.symm same)
        rw [if_neg same, List.map_cons, List.map_cons, ih later]

theorem put_of_not_mem (weaver : ω) (new : name ∉ entries.map Prod.fst) :
    put name weaver entries = entries ++ [(name, weaver)] := by
  induction entries with
  | nil => rfl
  | cons entry rest ih =>
      rw [List.map_cons, List.mem_cons, not_or] at new
      rw [put, if_neg (Ne.symm new.1), ih new.2, List.cons_append]

theorem put_eq_map (weaver : ω) (distinct : (entries.map Prod.fst).Nodup)
    (known : name ∈ entries.map Prod.fst) :
    put name weaver entries =
      entries.map fun entry => if entry.1 = name then (name, weaver) else entry := by
  induction entries with
  | nil => cases known
  | cons entry rest ih =>
      rw [List.map_cons, List.nodup_cons] at distinct
      rw [put, List.map_cons]
      by_cases same : entry.1 = name
      · have others : rest.map (fun entry => if entry.1 = name then (name, weaver) else entry) =
            rest := by
          refine (List.map_congr_left fun other later => if_neg fun again => ?_).trans rest.map_id
          exact distinct.1 (same.trans again.symm ▸ List.mem_map_of_mem later)
        rw [if_pos same, if_pos same, others]
      · have later := (List.mem_cons.mp known).resolve_left (Ne.symm same)
        rw [if_neg same, if_neg same, ih distinct.2 later]

theorem names_remove (chain : Chain ω) (name : Text) :
    (chain.remove name).names = chain.names.erase name := by
  have told : (fun entry : Text × ω => decide (entry.1 = name)) = (· == name) ∘ Prod.fst :=
    funext fun entry => (beq_eq_decide ..).symm
  rw [names, names, remove, List.erase_eq_eraseP', List.eraseP_map, told]

end Entries

/-! ### The run -/

/-- What a history tells of a chain. -/
structure Registered (actions : List Action) (chain : Chain StandardWeaver) : Prop where
  present : ∀ name, name ∈ chain.names ↔ ∃ moment, Since actions name moment
  ordered : chain.names.Pairwise fun name other => ∃ moment later,
    Since actions name moment ∧ Since actions other later ∧ moment < later
  standing : ∀ entry ∈ chain.entries, ∃ weaver, Stands actions entry.1 weaver ∧
    entry.2.settings = weaver.settings

namespace Registered

variable {actions : List Action} {chain : Chain StandardWeaver}

theorem nodup (registered : Registered actions chain) : chain.names.Nodup := by
  refine registered.ordered.imp ?_
  rintro name _ ⟨moment, later, since, otherSince, before⟩ rfl
  exact Nat.ne_of_lt before (since.unique otherSince)

theorem start : Registered [] {} where
  present name := by
    constructor
    · intro none
      cases none
    · rintro ⟨moment, since⟩
      obtain ⟨weaver, added⟩ := since.added
      exact absurd added.lt (Nat.not_lt_zero moment)
  ordered := .nil
  standing _ none := nomatch none

theorem ordered_concat (registered : Registered actions chain) {names : List Text}
    (sublist : names.Sublist chain.names) {action : Action}
    (stay : ∀ name ∈ names, ¬ action.IsRemoval name) :
    names.Pairwise fun name other => ∃ moment later,
      Since (actions ++ [action]) name moment ∧ Since (actions ++ [action]) other later ∧
        moment < later := by
  refine (registered.ordered.sublist sublist).imp_of_mem ?_
  rintro name other member otherMember ⟨moment, later, since, otherSince, before⟩
  exact ⟨moment, later, since.concat (stay name member),
    otherSince.concat (stay other otherMember), before⟩

theorem add (registered : Registered actions chain) (name : Text) (weaver : StandardWeaver) :
    Registered (actions ++ [.add name weaver]) (chain.add name weaver) := by
  have stays (other : Text) : ¬ (Action.add name weaver).IsRemoval other := by
    simp [Action.IsRemoval]
  have names : (chain.add name weaver).names =
      if name ∈ chain.names then chain.names else chain.names ++ [name] := by
    split
    · next known => exact names_put_of_mem weaver known
    · next new =>
        rw [Chain.names, Chain.add, put_of_not_mem weaver new, List.map_append]
        rfl
  refine ⟨fun other => ?_, ?_, fun entry member => ?_⟩
  · rw [exists_since_concat, ← registered.present, names]
    by_cases known : name ∈ chain.names
    · rw [if_pos known]
      refine ⟨fun member => .inr ⟨member, stays other⟩, ?_⟩
      rintro (⟨_, same⟩ | ⟨member, -⟩)
      · cases same
        exact known
      · exact member
    · rw [if_neg known, List.mem_append, List.mem_singleton, or_comm]
      refine or_congr ⟨?_, ?_⟩ (and_iff_left (stays other)).symm
      · rintro rfl
        exact ⟨weaver, rfl⟩
      · rintro ⟨_, same⟩
        cases same
        rfl
  · have before := registered.ordered_concat (List.Sublist.refl _) fun other _ => stays other
    rw [names]
    split
    · exact before
    · next new =>
        refine List.pairwise_append.mpr ⟨before, List.pairwise_singleton .., ?_⟩
        intro other member _ last
        obtain rfl := List.mem_singleton.mp last
        obtain ⟨moment, since⟩ := (registered.present other).mp member
        obtain ⟨_, added⟩ := since.added
        exact ⟨moment, actions.length, since.concat (stays other),
          since_last (mt (registered.present _).mpr new) weaver, added.lt⟩
  · have old (entry : Text × StandardWeaver) (member : entry ∈ chain.entries)
        (different : entry.1 ≠ name) : ∃ given, Stands (actions ++ [.add name weaver]) entry.1 given ∧
          entry.2.settings = given.settings := by
      obtain ⟨given, stands, settings⟩ := registered.standing entry member
      refine ⟨given, stands.concat (stays entry.1) fun _ same => ?_, settings⟩
      cases same
      exact different rfl
    have last : ∃ given, Stands (actions ++ [.add name weaver]) name given ∧
        weaver.settings = given.settings := ⟨weaver, stands_last actions name weaver, rfl⟩
    rw [Chain.add] at member
    by_cases known : name ∈ chain.names
    · rw [put_eq_map weaver registered.nodup known] at member
      obtain ⟨before, among, rfl⟩ := List.mem_map.mp member
      split
      · exact last
      · next different => exact old before among different
    · rw [put_of_not_mem weaver known] at member
      rcases List.mem_append.mp member with before | here
      · exact old entry before fun same => known (same ▸ List.mem_map_of_mem before)
      · rw [List.mem_singleton.mp here]
        exact last

theorem remove (registered : Registered actions chain) (name : Text) :
    Registered (actions ++ [.remove name]) (chain.remove name) := by
  have member_iff (other : Text) :
      other ∈ (chain.remove name).names ↔ other ≠ name ∧ other ∈ chain.names := by
    rw [names_remove]
    exact registered.nodup.mem_erase_iff
  have stays (other : Text) (different : other ≠ name) :
      ¬ (Action.remove name).IsRemoval other := by
    rintro (same | same)
    · cases same
      exact different rfl
    · cases same
  refine ⟨fun other => ?_, ?_, fun entry member => ?_⟩
  · rw [exists_since_concat, member_iff, ← registered.present]
    constructor
    · rintro ⟨different, member⟩
      exact .inr ⟨member, stays other different⟩
    · rintro (⟨_, same⟩ | ⟨member, stay⟩)
      · cases same
      · exact ⟨fun same => stay (.inl (congrArg _ same.symm)), member⟩
  · refine registered.ordered_concat (names_remove chain name ▸ List.erase_sublist) ?_
    exact fun other member => stays other ((member_iff other).mp member).1
  · obtain ⟨weaver, stands, settings⟩ := registered.standing entry (List.mem_of_mem_eraseP member)
    have different := ((member_iff entry.1).mp (List.mem_map_of_mem member)).1
    exact ⟨weaver, stands.concat (stays entry.1 different) (fun _ => by simp), settings⟩

theorem clear (actions : List Action) (chain : Chain StandardWeaver) :
    Registered (actions ++ [.clear]) chain.clear where
  present name := by
    rw [exists_since_concat]
    constructor
    · intro none
      cases none
    · rintro (⟨_, same⟩ | ⟨-, stays⟩)
      · cases same
      · exact absurd (.inr rfl) stays
  ordered := .nil
  standing _ none := nomatch none

theorem kept (registered : Registered actions chain) {action : Action}
    (woven : action.registers = false) {later : Chain StandardWeaver}
    (same : later.settings = chain.settings) : Registered (actions ++ [action]) later := by
  have names : later.names = chain.names := by
    rw [← names_settings, same, names_settings]
  have stays (name : Text) : ¬ action.IsRemoval name := by
    rintro (rfl | rfl) <;> cases woven
  have adds (name : Text) (weaver : StandardWeaver) : action ≠ .add name weaver := by
    rintro rfl
    cases woven
  refine ⟨fun name => ?_, ?_, fun entry member => ?_⟩
  · rw [names, registered.present, exists_since_concat, and_iff_left (stays name)]
    exact (or_iff_right fun ⟨weaver, same⟩ => adds name weaver same).symm
  · rw [names]
    exact registered.ordered_concat (List.Sublist.refl _) fun name _ => stays name
  · have told : (entry.1, entry.2.settings) ∈ settingsOf chain.entries := by
      rw [← show settingsOf later.entries = settingsOf chain.entries from
        congrArg Chain.entries same]
      exact List.mem_map_of_mem member
    obtain ⟨before, among, equal⟩ := List.mem_map.mp told
    obtain ⟨named, settings⟩ := Prod.mk.inj equal
    obtain ⟨weaver, stands, given⟩ := registered.standing before among
    rw [← named, ← settings]
    exact ⟨weaver, stands.concat (stays before.1) (adds before.1), given⟩

theorem act (registered : Registered actions chain) (action : Action) :
    Registered (actions ++ [action]) (chain.act action) := by
  cases action with
  | add name weaver => exact registered.add name weaver
  | remove name => exact registered.remove name
  | clear => exact .clear actions chain
  | weave source file => exact registered.kept rfl (settings_weave chain source file)
  | weaveTree tree file =>
      exact registered.kept rfl (congrArg Chain.mk (settingsOf_weaveAll chain.entries tree file))

end Registered

theorem registered_after (actions : List Action) : Registered actions (after actions) := by
  induction actions using List.reverseRecOn with
  | nil => exact .start
  | append_singleton actions action registered =>
      rw [after_concat]
      exact registered.act action

/-! ### What a chain makes of a file -/

/-- What weavers make of a tree, one after another. -/
def composed (weavers : List StandardWeaver) (tree : Tree) (file : Option Path) : Tree :=
  weavers.foldl (fun tree weaver => (Weaver.weave weaver tree file).2) tree

theorem snd_weaveAll (entries : List (Text × StandardWeaver)) (tree : Tree) (file : Option Path) :
    (weaveAll entries tree file).2 = composed (entries.map Prod.snd) tree file := by
  induction entries generalizing tree with
  | nil => rfl
  | cons entry rest ih => exact ih _

theorem exists_registered {actions : List Action} {entries : List (Text × StandardWeaver)}
    (standing : ∀ entry ∈ entries, ∃ weaver, Stands actions entry.1 weaver ∧
      entry.2.settings = weaver.settings) :
    ∃ weavers, List.Forall₂ (Stands actions) (entries.map Prod.fst) weavers ∧
      settingsOf ((entries.map Prod.fst).zip weavers) = settingsOf entries := by
  induction entries with
  | nil => exact ⟨[], .nil, rfl⟩
  | cons entry rest ih =>
      obtain ⟨weaver, stands, settings⟩ := standing entry List.mem_cons_self
      obtain ⟨weavers, others, same⟩ :=
        ih fun other later => standing other (List.mem_cons_of_mem entry later)
      refine ⟨weaver :: weavers, .cons stands others, ?_⟩
      rw [settingsOf] at same ⊢
      rw [settingsOf, List.map_cons, List.zip_cons_cons, List.map_cons, List.map_cons, same,
        settings]
      rfl

theorem settingsOf_put (name : Text) (weaver : StandardWeaver)
    (entries : List (Text × StandardWeaver)) :
    settingsOf (put name weaver entries) = put name weaver.settings (settingsOf entries) := by
  induction entries with
  | nil => rfl
  | cons entry rest ih =>
      rw [put, settingsOf, settingsOf, List.map_cons, put]
      split
      · rfl
      · exact congrArg (List.cons _) ih

theorem settings_act {chain other : Chain StandardWeaver} (same : chain.settings = other.settings)
    {action : Action} (registers : action.registers = true) :
    (chain.act action).settings = (other.act action).settings := by
  have entries : settingsOf chain.entries = settingsOf other.entries := congrArg Chain.entries same
  cases action with
  | add name weaver =>
      refine congrArg Chain.mk ?_
      change settingsOf (put name weaver _) = settingsOf (put name weaver _)
      rw [settingsOf_put, settingsOf_put, entries]
  | remove name =>
      have erased (entries : List (Text × StandardWeaver)) :
          settingsOf (entries.eraseP fun entry => entry.1 = name) =
            (settingsOf entries).eraseP fun entry => entry.1 = name := by
        rw [settingsOf, settingsOf, List.eraseP_map]
        rfl
      refine congrArg Chain.mk ?_
      change settingsOf (List.eraseP _ _) = settingsOf (List.eraseP _ _)
      rw [erased, erased, entries]
  | clear => rfl
  | weave | weaveTree => cases registers

theorem settings_after (actions : List Action) :
    (after (actions.filter Action.registers)).settings = (after actions).settings := by
  induction actions using List.reverseRecOn with
  | nil => rfl
  | append_singleton actions action ih =>
      rw [List.filter_append, after_concat]
      cases registers : action.registers with
      | true =>
          rw [List.filter_cons_of_pos registers, List.filter_nil, after_concat]
          exact settings_act ih registers
      | false =>
          rw [List.filter_cons_of_neg (Bool.eq_false_iff.mp registers), List.filter_nil,
            List.append_nil, ih]
          cases action with
          | weave source file => exact (settings_weave _ source file).symm
          | weaveTree tree file => exact congrArg Chain.mk (settingsOf_weaveAll _ tree file).symm
          | add | remove | clear => cases registers

/-- Names are all different and stand in the order in which they were first registered since their
last removal; a registration under a known name replaces the weaver and nothing else. A file is
outlined, woven by the weavers as they were registered, in the order of their names, and printed,
whatever was woven before; one without an outline leaves the chain as it is. -/
theorem chain_of_history (actions : List Action) :
    let chain := after actions
    chain.names.Nodup ∧
    (∀ name, name ∈ chain.names ↔ ∃ moment, Since actions name moment) ∧
    (chain.names.Pairwise fun name other => ∃ moment later,
      Since actions name moment ∧ Since actions other later ∧ moment < later) ∧
    (∀ name weaver, name ∈ chain.names → (chain.add name weaver).entries =
      chain.entries.map fun entry => if entry.1 = name then (name, weaver) else entry) ∧
    ∃ weavers, List.Forall₂ (Stands actions) chain.names weavers ∧
      (∀ tree file, chain.weaveTree tree file =
        (⟨(weaveAll (chain.names.zip weavers) tree file).1⟩, composed weavers tree file)) ∧
      ∀ source file,
        (chain.weave source file = match Tree.parse false source with
          | .error fault => (.error fault, chain)
          | .ok tree => (.ok (composed weavers tree file).source,
              ⟨(weaveAll (chain.names.zip weavers) tree file).1⟩)) ∧
        (chain.weave source file).1 =
          ((after (actions.filter Action.registers)).weave source file).1 := by
  intro chain
  have registered : Registered actions chain := registered_after actions
  obtain ⟨weavers, standing, settings⟩ : ∃ weavers,
      List.Forall₂ (Stands actions) chain.names weavers ∧
        settingsOf (chain.names.zip weavers) = settingsOf chain.entries :=
    exists_registered registered.standing
  have entries (tree : Tree) (file : Option Path) :
      weaveAll chain.entries tree file = weaveAll (chain.names.zip weavers) tree file := by
    rw [← weaveAll_settingsOf, ← settings, weaveAll_settingsOf]
  have woven (tree : Tree) (file : Option Path) :
      chain.weaveTree tree file =
        (⟨(weaveAll (chain.names.zip weavers) tree file).1⟩, composed weavers tree file) := by
    rw [weaveTree, entries, snd_weaveAll, List.map_snd_zip (Nat.le_of_eq standing.length_eq.symm)]
  refine ⟨registered.nodup, registered.present, registered.ordered, fun name weaver known =>
    put_eq_map weaver registered.nodup known, weavers, standing, woven, fun source file =>
    ⟨?_, ?_⟩⟩
  · rw [weave]
    cases Tree.parse false source with
    | error fault => rfl
    | ok tree => simp only [woven]
  · rw [← weave_settings chain, ← settings_after actions, weave_settings]

example : (after [.add ['a'] (.exitHook {}), .add ['b'] (.unsealing {}), .weave "<?php".toList none,
    .remove ['a'], .add ['b'] (.pathPin {}), .add ['a'] (.exitHook {})]).names = [['b'], ['a']] := by
  decide +kernel

end PhpWeave.Chain
