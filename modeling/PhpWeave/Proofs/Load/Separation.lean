import Mathlib.Data.List.ModifyLast
import PhpWeave.Proofs.Load.Keeping

set_option autoImplicit false

/-!
Entries of different sources. In the cache a source is told only by the names on the way to its woven
file: roots and dots are left out, two dots are a name like any other, and the metadata of one source
may lie where the woven file of another one does. Sources that are apart in all this share no file,
and putting the one does not change what is served of the other.
-/

namespace PhpWeave

open PhpWeave.Path

namespace Disk

variable {disk later : Disk} {touched : List Place} {directory path : Path} {names : List Text}

/-! ### Names behind a directory -/

theorem stepsOf_push {name : Text} (ordinary : IsOrdinary name) (path : Path) :
    stepsOf (push path name) = stepsOf path ++ [name] := by
  rw [push, ordinary.not_absolute, if_neg Bool.false_ne_true]
  split
  · next ends =>
      refine stepsOf_behind ?_ ordinary.single ordinary.ne_nil
      rcases Bool.or_eq_true_iff.mp ends with empty | slash
      · exact .inl (List.isEmpty_iff.mp empty)
      · exact .inr (List.getLast?_eq_some_iff.mp (eq_of_beq slash))
  · rw [stepsOf_append, stepsOf_piece ordinary.single ordinary.ne_nil]

theorem base_push {name : Text} (ordinary : IsOrdinary name) (path : Path) :
    base (push path name) = base path := by
  have relative := ordinary.not_absolute
  rw [push, relative, if_neg Bool.false_ne_true]
  cases path with
  | nil =>
      rw [base, base, List.isEmpty_nil, Bool.true_or, if_pos rfl, List.nil_append, relative]
      rfl
  | cons c rest => split <;> rfl

theorem stepTo_of_ordinary {name : Text} (ordinary : IsOrdinary name) (place : Place) :
    stepTo place name = place ++ [name] := by
  have other {dots : Text} (idle : part? dots ≠ some (.name dots)) : name ≠ dots :=
    fun same => idle (same ▸ ordinary.isPart)
  rw [stepTo, if_neg (other (by decide)), if_neg (other (by decide))]

theorem stepsOf_foldl_push (ordinary : ∀ name ∈ names, IsOrdinary name) (path : Path) :
    stepsOf (names.foldl push path) = stepsOf path ++ names := by
  induction names generalizing path with
  | nil => exact (List.append_nil _).symm
  | cons name rest ih =>
      rw [List.foldl_cons, ih (fun other member => ordinary other (.tail name member)),
        stepsOf_push (ordinary name (.head rest)), List.append_assoc, List.singleton_append]

theorem base_foldl_push (ordinary : ∀ name ∈ names, IsOrdinary name) (path : Path) :
    base (names.foldl push path) = base path := by
  induction names generalizing path with
  | nil => rfl
  | cons name rest ih =>
      rw [List.foldl_cons, ih (fun other member => ordinary other (.tail name member)),
        base_push (ordinary name (.head rest))]

theorem foldl_stepTo (ordinary : ∀ name ∈ names, IsOrdinary name) (place : Place) :
    names.foldl stepTo place = place ++ names := by
  induction names generalizing place with
  | nil => exact (List.append_nil _).symm
  | cons name rest ih =>
      rw [List.foldl_cons, ih (fun other member => ordinary other (.tail name member)),
        stepTo_of_ordinary (ordinary name (.head rest)), List.append_assoc, List.singleton_append]

theorem leads_foldl_push (ordinary : ∀ name ∈ names, IsOrdinary name) (path : Path) :
    leads (names.foldl push path) = leads path ++ names := by
  rw [leads, base_foldl_push ordinary, stepsOf_foldl_push ordinary, List.foldl_append,
    foldl_stepTo ordinary]
  rfl

theorem dots_not_mem (ordinary : ∀ name ∈ names, IsOrdinary name) : ['.', '.'] ∉ names :=
  fun member => absurd (ordinary _ member).isPart (by decide)

theorem dots_not_mem_metadataPath (level : ['.', '.'] ∉ stepsOf path) :
    ['.', '.'] ∉ stepsOf (Cache.metadataPath path) := by
  obtain ⟨front, piece, steps, longer⟩ := exists_stepsOf_metadataPath path
  rw [steps] at level
  rw [longer]
  intro member
  rcases List.mem_append.mp member with before | last
  · exact level (List.mem_append_left _ before)
  · have length := length_metadata piece
    rw [← List.mem_singleton.mp last, List.length_cons, List.length_singleton] at length
    omega

/-! ### Files below a directory -/

/-- Whether a directory is there already, or the way to it is without two dots. -/
def Anchors (disk : Disk) (directory : Path) : Prop :=
  ['.', '.'] ∉ stepsOf directory ∨ disk.isDirectory directory = true

instance (disk : Disk) (directory : Path) : Decidable (disk.Anchors directory) :=
  inferInstanceAs (Decidable (_ ∨ _))

theorem walks_of_isDirectory (there : disk.isDirectory path = true) :
    disk.Walks (base path) (stepsOf path) ∧ disk.HasDirectory (leads path) := by
  unfold isDirectory resolve at there
  cases found : disk.placeOf path with
  | error failure => simp [found] at there
  | ok place =>
      obtain ⟨-, walks, rfl⟩ := placeOf_eq_ok.mp found
      refine ⟨walks, ?_⟩
      cases here : disk.at? (leads path) with
      | none => simp [found, here] at there
      | some entry =>
          cases entry with
          | directory changed => exact ⟨changed, here⟩
          | file => cases slash : endsInSlash path <;> simp [found, here, slash] at there

theorem Grows.file?_below (grows : Grows touched disk later) (grounded : disk.Grounded)
    (anchored : disk.Anchors directory) (ordinary : ∀ name ∈ names, IsOrdinary name)
    (outside : leads directory ++ names ∉ touched) :
    later.file? (names.foldl push directory) = disk.file? (names.foldl push directory) := by
  have place := leads_foldl_push ordinary directory
  have steps := stepsOf_foldl_push ordinary directory
  refine grows.file?_eq (place ▸ outside) fun bytes changed before after walks => ?_
  rcases anchored with level | there
  · refine grounded.walks_of_later ?_ before after walks
    rw [steps]
    exact fun member => (List.mem_append.mp member).elim level (dots_not_mem ordinary)
  · obtain ⟨front, -⟩ := walks_of_isDirectory there
    rw [place, ← foldl_stepTo ordinary] at before after
    rw [base_foldl_push ordinary, steps] at walks ⊢
    exact walks_append.mpr ⟨front, grounded.walks_of_later (dots_not_mem ordinary) before after
      (walks_append.mp walks).2⟩

end Disk

namespace Cache

open OnDisk

/-- The name that a part of a source has in the cache. -/
def spelledName : Path.Part → Option Text
  | .name text => some text
  | .up => some ['_', '_']
  | .root | .here => none

/-- The names on the way from the cache directory to the woven file of a source. -/
def trail (source : Path) : List Text := (parts source).filterMap spelledName

def besideOf (names : List Text) : List Text := names.modifyLast (· ++ ".meta".toList)

/-- Whether two sources share no file of the cache: none of their woven files and metadata. -/
structure Separate (source other : Path) : Prop where
  woven : trail source ≠ trail other
  metadata : trail source ≠ besideOf (trail other)
  otherMetadata : trail other ≠ besideOf (trail source)

instance (source other : Path) : Decidable (Separate source other) :=
  decidable_of_iff (trail source ≠ trail other ∧ trail source ≠ besideOf (trail other) ∧
    trail other ≠ besideOf (trail source))
    ⟨fun ⟨woven, metadata, other⟩ => ⟨woven, metadata, other⟩,
      fun apart => ⟨apart.woven, apart.metadata, apart.otherMetadata⟩⟩

/-! ### Places of woven files and metadata -/

theorem ordinary_trail (source : Path) : ∀ name ∈ trail source, IsOrdinary name := by
  intro name member
  obtain ⟨part, among, spelling⟩ := List.mem_filterMap.mp member
  cases part with
  | name text =>
      cases spelling
      exact ordinary_of_mem among
  | up =>
      cases spelling
      exact ⟨by decide, by decide⟩
  | root | here => cases spelling

theorem pathOf_eq (cache : Cache) (source : Path) :
    cache.pathOf source = (trail source).foldl push cache.directory := by
  rw [pathOf, trail, List.foldl_filterMap]
  congr 1
  funext path part
  cases part <;> rfl

theorem ordinary_besideOf {names : List Text} (ordinary : ∀ name ∈ names, IsOrdinary name) :
    ∀ name ∈ besideOf names, IsOrdinary name := by
  induction names using List.reverseRecOn with
  | nil => exact nofun
  | append_singleton front last _ =>
      rw [besideOf, List.modifyLast_concat]
      intro name member
      rcases List.mem_append.mp member with before | ends
      · exact ordinary name (List.mem_append_left _ before)
      · rw [List.mem_singleton.mp ends]
        exact (ordinary last (List.mem_concat_self ..)).append (by decide)

theorem metadataPath_foldl_push {names : List Text} (some : names ≠ [])
    (ordinary : ∀ name ∈ names, IsOrdinary name) (directory : Path) :
    metadataPath (names.foldl push directory) = (besideOf names).foldl push directory := by
  obtain ⟨front, last, rfl⟩ := Text.exists_concat some
  have ends := ordinary last (List.mem_concat_self ..)
  rw [besideOf, List.modifyLast_concat, List.foldl_append, List.foldl_append, metadataPath]
  exact push_append ends _ (ends.append (by decide))

theorem besideOf_injective {names others : List Text} (some : names ≠ []) (otherSome : others ≠ [])
    (same : besideOf names = besideOf others) : names = others := by
  obtain ⟨front, last, rfl⟩ := Text.exists_concat some
  obtain ⟨before, final, rfl⟩ := Text.exists_concat otherSome
  rw [besideOf, besideOf, List.modifyLast_concat, List.modifyLast_concat] at same
  obtain ⟨rfl, ends⟩ := List.append_inj' same rfl
  rw [List.append_cancel_right (List.cons.inj ends).1]

theorem besideOf_ne_nil {names : List Text} (some : names ≠ []) : besideOf names ≠ [] := by
  obtain ⟨front, last, rfl⟩ := Text.exists_concat some
  rw [besideOf, List.modifyLast_concat]
  exact List.append_ne_nil_of_right_ne_nil _ (List.cons_ne_nil _ [])

theorem leads_pathOf (cache : Cache) (source : Path) :
    Disk.leads (cache.pathOf source) = Disk.leads cache.directory ++ trail source := by
  rw [pathOf_eq, Disk.leads_foldl_push (ordinary_trail source)]

theorem leads_metadata (cache : Cache) {source : Path} (some : trail source ≠ []) :
    Disk.leads (metadataPath (cache.pathOf source)) =
      Disk.leads cache.directory ++ besideOf (trail source) := by
  rw [pathOf_eq, metadataPath_foldl_push some (ordinary_trail source),
    Disk.leads_foldl_push (ordinary_besideOf (ordinary_trail source))]

/-! ### Putting another source -/

theorem changedAfter_congr {σ : Type} [Volume σ] {volume later : σ} {path : Path}
    (same : Volume.changed? later path = Volume.changed? volume path) (moment : Nat) :
    changedAfter later moment path = changedAfter volume moment path := by
  rw [changedAfter, changedAfter, same]

section Put

variable {σ : Type} [Volume σ] [OnDisk σ] {cache : Cache} {volume later : σ} {source other : Path}

theorem Separate.outside (apart : Separate source other) (some : trail other ≠ [])
    (cache : Cache) :
    Disk.leads cache.directory ++ trail source ∉
      [Disk.leads (metadataPath (cache.pathOf other)), Disk.leads (cache.pathOf other)] := by
  rw [leads_metadata cache some, leads_pathOf]
  simp [apart.woven, apart.metadata]

theorem Separate.outside_metadata (apart : Separate source other) (sourceSome : trail source ≠ [])
    (some : trail other ≠ []) (cache : Cache) :
    Disk.leads cache.directory ++ besideOf (trail source) ∉
      [Disk.leads (metadataPath (cache.pathOf other)), Disk.leads (cache.pathOf other)] := by
  rw [leads_metadata cache some, leads_pathOf]
  have beside := mt (besideOf_injective sourceSome some) apart.woven
  simp [beside, Ne.symm apart.otherMetadata]

variable [MetadataFormat]

/-- The same is served when the same files are there and nothing else changed. -/
theorem get?_congr {key : Text}
    (woven : (disk later).file? (cache.pathOf source) = (disk volume).file? (cache.pathOf source))
    (metadata : ∀ file, (disk volume).file? (cache.pathOf source) = some file →
      (disk later).file? (metadataPath (cache.pathOf source)) =
        (disk volume).file? (metadataPath (cache.pathOf source)))
    (still : ∀ path ∈ source :: cache.watched,
      Volume.changed? later path = Volume.changed? volume path) :
    cache.get? later source key = cache.get? volume source key := by
  rw [get?_eq, get?_eq, woven]
  cases here : (disk volume).file? (cache.pathOf source) with
  | none => rfl
  | some file =>
      have fresh : (source :: cache.watched).any (changedAfter later file.2) =
          (source :: cache.watched).any (changedAfter volume file.2) := by
        rw [Bool.eq_iff_iff, List.any_eq_true, List.any_eq_true]
        exact exists_congr fun path => and_congr_right fun member => by
          rw [changedAfter_congr (still path member)]
      rw [Option.bind_some, Option.bind_some, fresh, metadata?_eq, metadata?_eq, metadata file here]

theorem put_blocked (grounded : (disk volume).Grounded) (some : trail other ≠ [])
    {bytes : Bytes} {changed : Nat}
    (blocked : (disk volume).at? (Disk.leads cache.directory) = Option.some (.file bytes changed))
    (key text : Text) :
    Disk.Grows [] (disk volume) (disk (cache.put volume other key text).2) := by
  have put := put_cases cache grounded other key text
  have still := (put.grows.files (Disk.leads cache.directory) (by
    rw [leads_metadata cache some, leads_pathOf]
    simp [some, besideOf_ne_nil some]) bytes changed).mpr blocked
  rcases put.grows_or_metadata with grows | ⟨moment, beside⟩
  · exact grows
  · rw [leads_metadata cache some] at beside
    obtain ⟨_, directory⟩ := put.grows.grounded.directory_of_below (besideOf_ne_nil some) beside
    cases still.symm.trans directory

/-- Putting an entry, whether it succeeds or not, changes neither file of a source apart from its own. -/
theorem put_files (grounded : (disk volume).Grounded)
    (anchored : (disk volume).Anchors cache.directory) (some : trail other ≠ [])
    (apart : Separate source other) (key text : Text) :
    (disk (cache.put volume other key text).2).file? (cache.pathOf source) =
        (disk volume).file? (cache.pathOf source) ∧
      ∀ file, (disk volume).file? (cache.pathOf source) = Option.some file →
        (disk (cache.put volume other key text).2).file? (metadataPath (cache.pathOf source)) =
          (disk volume).file? (metadataPath (cache.pathOf source)) := by
  have put := put_cases cache grounded other key text
  have woven := put.grows.file?_below grounded anchored (ordinary_trail source)
    (apart.outside some cache)
  rw [← pathOf_eq] at woven
  refine ⟨woven, fun file here => ?_⟩
  by_cases sourceSome : trail source = []
  · -- The woven file would be the cache directory itself. As it is a file, nothing was written.
    rw [pathOf_eq, sourceSome] at here ⊢
    obtain ⟨-, -, -, blocked⟩ := Disk.file?_eq_some.mp here
    have grows := put_blocked grounded some blocked key text
    refine grows.file?_eq List.not_mem_nil fun _ _ before after walks =>
      grounded.walks_of_later (Disk.dots_not_mem_metadataPath ?_) before after walks
    refine anchored.resolve_right fun there => ?_
    obtain ⟨_, directory⟩ := (Disk.walks_of_isDirectory there).2
    cases blocked.symm.trans directory
  · have beside := put.grows.file?_below grounded anchored
      (ordinary_besideOf (ordinary_trail source)) (apart.outside_metadata sourceSome some cache)
    rwa [← metadataPath_foldl_push sourceSome (ordinary_trail source), ← pathOf_eq] at beside

/-- Putting an entry, whether it succeeds or not, does not change what is served of a source apart
from its own under any key, unless it touches that source itself or a watched file. -/
theorem put_separate (grounded : (disk volume).Grounded)
    (anchored : (disk volume).Anchors cache.directory) (some : trail other ≠ [])
    (apart : Separate source other) (key text asked : Text)
    (still : ∀ path ∈ source :: cache.watched,
      Volume.changed? (cache.put volume other key text).2 path = Volume.changed? volume path) :
    cache.get? (cache.put volume other key text).2 source asked =
      cache.get? volume source asked := by
  obtain ⟨woven, metadata⟩ := put_files grounded anchored some apart key text
  exact get?_congr woven metadata still

end Put

/-- Two files of one directory, watching a third, after an entry of the first was put. -/
theorem put_separate_siblings :
    get? ⟨"cache", ["watched.php"]⟩ (put ⟨"cache", ["watched.php"]⟩
      (put ⟨"cache", ["watched.php"]⟩ Disk.empty "lib/a.php" "k" "one").2 "lib/b.php" "k" "two").2
      "lib/a.php" "k" = some "one".toList := by
  have grounded : (disk (put ⟨"cache", ["watched.php"]⟩ Disk.empty
      "lib/a.php" "k" "one").2).Grounded := grounded_put Disk.grounded_empty _ _ _ _
  have served : get? ⟨"cache", ["watched.php"]⟩ (put ⟨"cache", ["watched.php"]⟩ Disk.empty
      "lib/a.php" "k" "one").2 "lib/a.php" "k" = some "one".toList := by
    decide +kernel
  rw [← served]
  refine put_separate grounded (.inl ?_) ?_ ?_ "k" "two" "k" ?_ <;> decide +kernel

/-- Whether what is served of a source changes when another one is put, though the two paths have
different parts. The entry was put while the cache directory was spelled in one way, and is asked for
while it is spelled in another. -/
def Disturbs (made directory source other : Path) : Prop :=
  (parts source).filter (· ≠ .here) ≠ (parts other).filter (· ≠ .here) ∧
    let disk := (put ⟨made, []⟩ Disk.empty source "k" "one").2
    get? ⟨directory, []⟩ (put ⟨directory, []⟩ disk other "k" "two").2 source "k" ≠
      get? ⟨directory, []⟩ disk source "k"

instance (made directory source other : Path) : Decidable (Disturbs made directory source other) :=
  inferInstanceAs (Decidable (_ ∧ _))

theorem put_disturbs :
    Disturbs "cache" "cache" "../a.php" "__/a.php" ∧ Disturbs "cache" "cache" "/a.php" "a.php" ∧
      Disturbs "cache" "cache" "a.php.meta" "a.php" ∧
      Disturbs "cache" "cache" "a.php" "a.php.meta" ∧
      Disturbs "cache" "cache" "cache/a.php" "a.php" ∧ Disturbs "cache/" "cache/" ".meta" "." ∧
      Disturbs "cache" "away/../cache" "a.php" "b.php" := by
  decide +kernel

end Cache
end PhpWeave
