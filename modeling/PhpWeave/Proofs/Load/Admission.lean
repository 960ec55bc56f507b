import PhpWeave.Load.Loader
import PhpWeave.Proofs.Weave.Answering
import PhpWeave.Weave.Interception

set_option autoImplicit false

/-!
Which classes are woven is asked twice: a loader asks its settings, and an interception in its chain
asks its own lists. Both leave out the backslashes in front of a class. Those in front of a
beginning are left out by the settings only, so an interception finds no class below a beginning
that is written with one.
-/

namespace PhpWeave

open Lexeme

namespace Text

/-- A class begins as said, the backslashes in front of both left out. -/
def LiesUnder (className start : Text) : Prop :=
  dropLeadingSeparators start <+: dropLeadingSeparators className

instance (className start : Text) : Decidable (LiesUnder className start) :=
  inferInstanceAs (Decidable (dropLeadingSeparators start <+: dropLeadingSeparators className))

/-- A class begins as said in some of the beginnings, and each of those has a backslash in front. -/
def OnlyUnderRooted (className : Text) (starts : List Text) : Prop :=
  (∃ start ∈ starts, LiesUnder className start) ∧
    ∀ start ∈ starts, LiesUnder className start → isRooted start = true

/-- What has no backslash in front begins as said when it does so letter by letter, and the
beginning then has none either. -/
theorem isPrefixOf_dropLeadingSeparators {className start : Text} :
    start.isPrefixOf (dropLeadingSeparators className) = true ↔
      isRooted start = false ∧ LiesUnder className start := by
  rw [List.isPrefixOf_iff_prefix]
  constructor
  · intro begins
    have unrooted : isRooted start = false := by
      cases start with
      | nil => rfl
      | cons c rest =>
          obtain ⟨behind, whole⟩ := begins
          have plain := isRooted_dropLeadingSeparators className
          rw [← whole] at plain
          exact plain
    refine ⟨unrooted, ?_⟩
    rw [LiesUnder, dropLeadingSeparators_eq_self unrooted]
    exact begins
  · rintro ⟨unrooted, lies⟩
    rw [LiesUnder, dropLeadingSeparators_eq_self unrooted] at lies
    exact lies

end Text

open Text

variable {settings : LoaderSettings} {interception : Interception} {className : Text}

theorem LoaderSettings.admits_iff : settings.admits className = true ↔
    (∀ start ∈ settings.excluded, ¬ LiesUnder className start) ∧
      (settings.included = [] ∨ ∃ start ∈ settings.included, LiesUnder className start) := by
  rw [admits, Bool.and_eq_true, Bool.or_eq_true, Bool.not_eq_true', List.any_eq_false,
    List.any_eq_true, List.isEmpty_iff]
  simp only [List.isPrefixOf_iff_prefix, LiesUnder]

namespace Interception

theorem accepts_iff : interception.accepts className = true ↔
    (∀ start ∈ interception.excluded, isRooted start = false → ¬ LiesUnder className start) ∧
      (interception.included = [] ∨
        ∃ start ∈ interception.included, isRooted start = false ∧ LiesUnder className start) := by
  rw [accepts, Bool.and_eq_true, Bool.or_eq_true, Bool.not_eq_true', List.any_eq_false,
    List.any_eq_true, List.isEmpty_iff]
  simp only [isPrefixOf_dropLeadingSeparators, not_and]

/-- An interception with the lists of a loader. -/
def sharing (interception : Interception) (settings : LoaderSettings) : Interception :=
  { interception with included := settings.included, excluded := settings.excluded }

def sharingBare (interception : Interception) (settings : LoaderSettings) : Interception :=
  { interception with
    included := settings.included.map dropLeadingSeparators
    excluded := settings.excluded.map dropLeadingSeparators }

/-- How a loader and an interception with the same lists answer for a class. -/
structure Agreement (settings : LoaderSettings) (interception : Interception) (className : Text) :
    Prop where
  /-- A loader answers as an interception does whose beginnings have no backslash in front. -/
  bare : settings.admits className = (interception.sharingBare settings).accepts className
  /-- Both answer alike when no beginning is written with a backslash in front. -/
  alike : (∀ start ∈ settings.included ++ settings.excluded, isRooted start = false) →
    settings.admits className = (interception.sharing settings).accepts className
  /-- The interception alone weaves a class that is excluded by such beginnings only. -/
  letIn : settings.admits className = false ∧
      (interception.sharing settings).accepts className = true ↔
    OnlyUnderRooted className settings.excluded ∧
      (settings.included = [] ∨
        ∃ start ∈ settings.included, isRooted start = false ∧ LiesUnder className start)
  /-- The loader alone weaves a class that is included by such beginnings only. -/
  turnedAway : settings.admits className = true ∧
      (interception.sharing settings).accepts className = false ↔
    (∀ start ∈ settings.excluded, ¬ LiesUnder className start) ∧
      OnlyUnderRooted className settings.included

theorem admits_eq_sharingBare : settings.admits className =
    (interception.sharingBare settings).accepts className := by
  simp only [LoaderSettings.admits, accepts, sharingBare, List.any_map, List.isEmpty_map,
    Function.comp_def]

theorem admits_eq_sharing
    (plain : ∀ start ∈ settings.included ++ settings.excluded, isRooted start = false) :
    settings.admits className = (interception.sharing settings).accepts className := by
  have bare {starts : List Text} (among : starts ⊆ settings.included ++ settings.excluded) :
      starts.map dropLeadingSeparators = starts :=
    (List.map_congr_left fun start member =>
      dropLeadingSeparators_eq_self (plain start (among member))).trans (List.map_id' starts)
  have same : settings.admits className = (interception.sharingBare settings).accepts className :=
    admits_eq_sharingBare
  rw [same, sharingBare, bare (List.subset_append_left _ _), bare (List.subset_append_right _ _),
    sharing]

theorem lets_in_iff : settings.admits className = false ∧
      (interception.sharing settings).accepts className = true ↔
    OnlyUnderRooted className settings.excluded ∧
      (settings.included = [] ∨
        ∃ start ∈ settings.included, isRooted start = false ∧ LiesUnder className start) := by
  rw [← Bool.not_eq_true, LoaderSettings.admits_iff, accepts_iff]
  constructor
  · rintro ⟨notAdmitted, free, wanted⟩
    have wide : settings.included = [] ∨ ∃ start ∈ settings.included, LiesUnder className start :=
      wanted.imp_right fun ⟨start, member, _, lies⟩ => ⟨start, member, lies⟩
    have excluded : ∃ start ∈ settings.excluded, LiesUnder className start := by
      by_contra none
      exact notAdmitted ⟨fun start member lies => none ⟨start, member, lies⟩, wide⟩
    refine ⟨⟨excluded, fun start member lies => ?_⟩, wanted⟩
    by_contra plain
    exact free start member (Bool.eq_false_iff.mpr plain) lies
  · rintro ⟨⟨⟨start, member, lies⟩, rooted⟩, wanted⟩
    refine ⟨fun admitted => admitted.1 start member lies, fun other among plain begins => ?_, wanted⟩
    rw [rooted other among begins] at plain
    cases plain

theorem turns_away_iff : settings.admits className = true ∧
      (interception.sharing settings).accepts className = false ↔
    (∀ start ∈ settings.excluded, ¬ LiesUnder className start) ∧
      OnlyUnderRooted className settings.included := by
  rw [← Bool.not_eq_true, LoaderSettings.admits_iff, accepts_iff]
  constructor
  · rintro ⟨⟨free, wanted⟩, notAccepted⟩
    have missed : ¬ (settings.included = [] ∨
        ∃ start ∈ settings.included, isRooted start = false ∧ LiesUnder className start) :=
      fun found => notAccepted ⟨fun start member _ => free start member, found⟩
    rw [not_or] at missed
    refine ⟨free, wanted.resolve_left missed.1, fun start member lies => ?_⟩
    by_contra plain
    exact missed.2 ⟨start, member, Bool.eq_false_iff.mpr plain, lies⟩
  · rintro ⟨free, ⟨start, member, lies⟩, rooted⟩
    refine ⟨⟨free, .inr ⟨start, member, lies⟩⟩, fun accepted => ?_⟩
    rcases accepted.2 with none | ⟨other, among, plain, begins⟩
    · have absent : settings.included = [] := none
      rw [absent] at member
      cases member
    · rw [rooted other among begins] at plain
      cases plain

/-- For every class and all lists, a loader and an interception with the same lists answer alike but
where beginnings with a backslash in front decide. -/
theorem agreement (settings : LoaderSettings) (interception : Interception) (className : Text) :
    Agreement settings interception className :=
  ⟨admits_eq_sharingBare, admits_eq_sharing, lets_in_iff, turns_away_iff⟩

/-- A class that is excluded for a loader, and accepted by an interception with the same list. -/
theorem excluded_by_loader_only :
    let settings : LoaderSettings := { cacheDirectory := [], excluded := ["\\App\\".toList] }
    settings.admits "App\\Model".toList = false ∧
      (({} : Interception).sharing settings).accepts "App\\Model".toList = true := by
  decide

end Interception
end PhpWeave
