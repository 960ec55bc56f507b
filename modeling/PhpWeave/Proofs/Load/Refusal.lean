import PhpWeave.Load.Loader
import PhpWeave.Proofs.Load.Keeping
import PhpWeave.Weave.Standard

set_option autoImplicit false

/-!
Runs of a cache on a volume that may refuse to write. An entry is written in two steps with nothing to
undo the first, so a run is told by its attempts: the last one to write the text says which text is
served, the last one to write the metadata says under which key. They are the same attempt unless one
failed between the two steps.
-/

namespace PhpWeave

namespace Cache

open OnDisk

/-- An attempt to put an entry. -/
structure Attempt where
  key : Text
  text : Text
  result : Except StoreError Path

namespace Attempt

/-- Whether the entry was put. -/
def isStored (attempt : Attempt) : Bool := attempt.result.toBool

/-- Whether the metadata was written, which is before the woven file. -/
def isMarked (woven : Path) (attempt : Attempt) : Bool :=
  match attempt.result with
  | .ok _ => true
  | .error (.unwritable path _) => path = woven
  | .error (.unreadable _ _) => false

theorem isMarked_of_isStored {attempt : Attempt} (stored : attempt.isStored = true)
    (woven : Path) : attempt.isMarked woven = true := by
  unfold isStored at stored
  unfold isMarked
  cases result : attempt.result with
  | ok path => rfl
  | error failure => simp [result, Except.toBool] at stored

theorem find?_isStored {woven : Path} {log : List Attempt} {attempt : Attempt}
    (stored : attempt.isStored = true) (last : log.find? (isMarked woven) = some attempt) :
    log.find? isStored = some attempt := by
  obtain ⟨-, before, after, rfl, unmarked⟩ := List.find?_eq_some_iff_append.mp last
  refine List.find?_eq_some_iff_append.mpr ⟨stored, before, after, rfl, fun other member => ?_⟩
  have other := Bool.not_eq_true' _ ▸ unmarked other member
  exact Bool.not_eq_true' _ ▸ Bool.eq_false_iff.mpr fun otherStored =>
    Bool.eq_false_iff.mp other (isMarked_of_isStored otherStored woven)

end Attempt

end Cache

namespace Loader

variable {σ ω : Type} [Volume σ] [Weaver ω] [MetadataFormat]

/-- The attempt that loading a file makes, if it comes to one. -/
def attempts (loader : Loader ω) (volume : σ) (path : Path) : List Cache.Attempt :=
  match loader.cache.get? volume path loader.cacheKey, readSource volume path with
  | none, .ok source =>
    match (loader.weaveSource source (some path)).1 with
    | .error _ => []
    | .ok text => [⟨loader.cacheKey, text, (loader.cache.put volume path loader.cacheKey text).1⟩]
  | _, _ => []

/-- Loading a file leaves the volume as it is, or it makes one attempt to put an entry, and fails
only if the attempt does. -/
theorem loadFile_cases (loader : Loader ω) (volume : σ) (path : Path) :
    loader.attempts volume path = [] ∧ (loader.loadFile volume path).2.2 = volume ∨
    ∃ text,
      let put := loader.cache.put volume path loader.cacheKey text
      loader.attempts volume path = [⟨loader.cacheKey, text, put.1⟩] ∧
        (loader.loadFile volume path).2.2 = put.2 ∧
        ∀ error, (loader.loadFile volume path).1 = .error error →
          ∃ failure, put.1 = .error failure ∧ error = .store failure := by
  unfold attempts loadFile weaveFile
  cases served : loader.cache.get? volume path loader.cacheKey with
  | some text => exact .inl ⟨rfl, rfl⟩
  | none =>
      cases read : readSource volume path with
      | error error => exact .inl ⟨rfl, rfl⟩
      | ok source =>
          rcases woven : loader.weaveSource source (some path) with ⟨error | text, after⟩
          · exact .inl ⟨by simp only [woven], by simp only [woven]⟩
          · refine .inr ⟨text, by simp only [woven], ?_⟩
            simp only [woven]
            cases put : loader.cache.put volume path loader.cacheKey text with
            | mk result later =>
                cases result with
                | ok woven => exact ⟨rfl, nofun⟩
                | error failure =>
                    exact ⟨rfl, fun error same => ⟨failure, rfl, (Except.error.inj same).symm⟩⟩

end Loader

namespace Cache

open OnDisk

section
variable {σ : Type} [Volume σ] [MetadataFormat] {cache : Cache} {source : Path}

theorem put_eq_error {volume : σ} {key text : Text} {error : StoreError}
    (failed : (cache.put volume source key text).1 = .error error) :
    ∃ path failure, error = .unwritable path failure := by
  unfold put makeRoom writeFile at failed
  grind

theorem loadFile_unchanged {ω : Type} [Weaver ω] {loader : Loader ω} {volume : σ}
    {error : LoadError} (failed : (loader.loadFile volume source).1 = .error error)
    (reading : ∀ path failure, error ≠ .store (.unwritable path failure)) :
    (loader.loadFile volume source).2.2 = volume := by
  rcases loader.loadFile_cases volume source with ⟨-, same⟩ | ⟨text, -, -, writing⟩
  · exact same
  · obtain ⟨failure, unput, rfl⟩ := writing error failed
    obtain ⟨path, why, rfl⟩ := put_eq_error unput
    exact absurd rfl (reading path why)

/-! ### Runs -/

variable [OnDisk σ]

/-- The volumes that a run of one source leads to, with its attempts, the last one first. A run
begins without the two files of the entry. Between the calls anything else may happen to the volume,
as long as nothing else is written to the two files. -/
inductive Run (cache : Cache) (source : Path) : σ → List Attempt → Prop where
  | start {volume : σ} (grounded : (disk volume).Grounded)
      (woven : ∀ bytes changed,
        (disk volume).at? (Disk.leads (cache.pathOf source)) ≠ some (.file bytes changed))
      (metadata : ∀ bytes changed, (disk volume).at? (Disk.leads (metadataPath
        (cache.pathOf source))) ≠ some (.file bytes changed)) :
      Run cache source volume []
  | put {volume : σ} {log : List Attempt} (run : Run cache source volume log) (key text : Text) :
      Run cache source (cache.put volume source key text).2
        (⟨key, text, (cache.put volume source key text).1⟩ :: log)
  | load {volume : σ} {log : List Attempt} (run : Run cache source volume log) {ω : Type}
      [Weaver ω] (loader : Loader ω) (same : loader.cache = cache) :
      Run cache source (loader.loadFile volume source).2.2
        (loader.attempts volume source ++ log)
  | elsewhere {volume later : σ} {log : List Attempt} (run : Run cache source volume log)
      (grounded : (disk later).Grounded)
      (woven : ∀ bytes changed,
        (disk later).at? (Disk.leads (cache.pathOf source)) = some (.file bytes changed) →
          ∃ moment, (disk volume).at? (Disk.leads (cache.pathOf source)) =
            some (.file bytes moment))
      (metadata : ∀ bytes changed,
        (disk later).at? (Disk.leads (metadataPath (cache.pathOf source))) =
          some (.file bytes changed) →
          ∃ moment, (disk volume).at? (Disk.leads (metadataPath (cache.pathOf source))) =
            some (.file bytes moment)) :
      Run cache source later log

structure Holds (cache : Cache) (source : Path) (log : List Attempt) (disk : Disk) : Prop where
  grounded : disk.Grounded
  woven : ∀ bytes changed,
    disk.at? (Disk.leads (cache.pathOf source)) = some (.file bytes changed) →
      ∃ attempt, log.find? Attempt.isStored = some attempt ∧ bytes = Utf8.encode attempt.text
  metadata : ∀ bytes changed,
    disk.at? (Disk.leads (metadataPath (cache.pathOf source))) = some (.file bytes changed) →
      ∃ attempt, log.find? (Attempt.isMarked (cache.pathOf source)) = some attempt ∧
        bytes = MetadataFormat.encode ⟨attempt.key, source⟩

theorem Holds.put {log : List Attempt} {before after : Disk} {key text : Text}
    {result : Except StoreError Path} (holds : Holds cache source log before)
    (put : cache.Put source key text before after result) :
    Holds cache source (⟨key, text, result⟩ :: log) after := by
  have grounded := put.grows.grounded
  cases put with
  | @missed path failure other grows =>
      have unmarked : Attempt.isMarked (cache.pathOf source)
          ⟨key, text, .error (.unwritable path failure)⟩ = false := decide_eq_false other
      refine ⟨grounded, fun bytes changed here => ?_, fun bytes changed here => ?_⟩
      · exact holds.woven bytes changed ((grows.files _ List.not_mem_nil ..).mp here)
      · rw [List.find?_cons_of_neg (by simp [unmarked])]
        exact holds.metadata bytes changed ((grows.files _ List.not_mem_nil ..).mp here)
  | @marked failure _ grows metadata =>
      -- The text was refused: the metadata is of this attempt, the woven file of one before.
      have marked : Attempt.isMarked (cache.pathOf source)
          ⟨key, text, .error (.unwritable (cache.pathOf source) failure)⟩ = true :=
        decide_eq_true rfl
      refine ⟨grounded, fun bytes changed here => ?_, fun bytes changed here => ?_⟩
      · have outside := mt List.mem_singleton.mp
          (Disk.leads_metadataPath (cache.pathOf source)).symm
        exact holds.woven bytes changed ((grows.files _ outside ..).mp here)
      · cases metadata.symm.trans here
        exact ⟨_, List.find?_cons_of_pos marked, rfl⟩
  | stored grows metadata woven =>
      refine ⟨grounded, fun bytes changed here => ?_, fun bytes changed here => ?_⟩
      · cases woven.symm.trans here
        exact ⟨_, List.find?_cons_of_pos rfl, rfl⟩
      · cases metadata.symm.trans here
        exact ⟨_, List.find?_cons_of_pos rfl, rfl⟩

theorem Run.holds {volume : σ} {log : List Attempt} (run : Run cache source volume log) :
    Holds cache source log (disk volume) := by
  -- On the run: a step is a put, or leaves the bytes of the two files as they were.
  induction run with
  | start grounded woven metadata =>
      exact ⟨grounded, fun bytes changed here => absurd here (woven bytes changed),
        fun bytes changed here => absurd here (metadata bytes changed)⟩
  | put run key text ih => exact ih.put (put_cases cache ih.grounded source key text)
  | @load volume log run ω _ loader same ih =>
      rcases loader.loadFile_cases volume source with ⟨none, unchanged⟩ | ⟨text, one, put, -⟩
      · rw [none, unchanged]
        exact ih
      · rw [one, put, same]
        exact ih.put (put_cases cache ih.grounded source loader.cacheKey text)
  | elsewhere run grounded woven metadata ih =>
      exact ⟨grounded, fun bytes changed here => (woven bytes changed here).elim (ih.woven bytes),
        fun bytes changed here => (metadata bytes changed here).elim (ih.metadata bytes)⟩

/-- In a run, the text that is served is that of the last attempt that was stored, and the key is
that of the last one that came as far as the metadata. Where these are one attempt, nothing is served
under another key than its own. Loads that fail before writing leave the volume as it was. -/
theorem served_of_run {volume : σ} {log : List Attempt} (run : Run cache source volume log)
    (reads : ∀ attempt ∈ log, Metadata.RoundTrips ⟨attempt.key, source⟩) :
    (∀ key text, cache.get? volume source key = some text →
      ∃ stored marked, log.find? Attempt.isStored = some stored ∧
        log.find? (Attempt.isMarked (cache.pathOf source)) = some marked ∧
        stored.text = text ∧ marked.key = key ∧
        (marked.isStored = true → stored = marked)) ∧
    ∀ {ω : Type} [Weaver ω] (loader : Loader ω) (error : LoadError),
      (loader.loadFile volume source).1 = .error error →
      (∀ path failure, error ≠ .store (.unwritable path failure)) →
      (loader.loadFile volume source).2.2 = volume := by
  refine ⟨fun key text served => ?_, fun loader error => loadFile_unchanged⟩
  obtain ⟨bytes, moment, written, changed, entry, woven, spelled, metadata, decoded, rfl⟩ :=
    exists_files_of_get? served
  obtain ⟨stored, lastStored, rfl⟩ := run.holds.woven bytes moment woven
  obtain ⟨marked, lastMarked, rfl⟩ := run.holds.metadata written changed metadata
  cases (reads marked (List.mem_of_find?_eq_some lastMarked)).symm.trans decoded
  refine ⟨stored, marked, lastStored, lastMarked, ?_, rfl, fun whole => ?_⟩
  · exact Option.some.inj ((Utf8.decode_encode stored.text).symm.trans spelled)
  · exact Option.some.inj (lastStored.symm.trans (Attempt.find?_isStored whole lastMarked))

end

theorem not_file_of_none {disk : Disk} {place : Place} (none : disk.at? place = none)
    (bytes : Bytes) (changed : Nat) : disk.at? place ≠ some (.file bytes changed) := by
  rw [none]
  exact nofun

/-- One entry is put. What is served is its text, and loading the file with another key fails, as
there is no such file. -/
theorem served_of_run_once :
    ∃ (volume : Disk) (log : List Attempt) (loader : Loader StandardWeaver),
      Run ⟨"cache", []⟩ "a.php" volume log ∧
        (∃ attempt, log.find? Attempt.isStored = some attempt ∧ attempt.text = "old".toList) ∧
        (loader.loadFile volume "a.php").2.2 = volume := by
  have start : Run ⟨"cache", []⟩ "a.php" Disk.empty [] :=
    .start Disk.grounded_empty (not_file_of_none (by decide +kernel))
      (not_file_of_none (by decide +kernel))
  have run := start.put "k" "old"
  have reads : ∀ attempt ∈ [(⟨"k", "old", (put ⟨"cache", []⟩ Disk.empty "a.php" "k" "old").1⟩ :
      Attempt)], Metadata.RoundTrips ⟨attempt.key, "a.php"⟩ := by
    intro attempt member
    rw [List.mem_singleton.mp member]
    exact Metadata.roundTrips_of_short (by decide +kernel) (by decide +kernel)
  obtain ⟨answers, unchanged⟩ := served_of_run run reads
  obtain ⟨stored, _, last, -, text, -, -⟩ := answers "k" "old" (by decide +kernel)
  have failed : ((⟨⟨"cache", [], [], []⟩, {}⟩ : Loader StandardWeaver).loadFile
      (put ⟨"cache", []⟩ Disk.empty "a.php" "k" "old").2 "a.php").1 =
        .error (.store (.unreadable "a.php" .missing)) := by decide +kernel
  exact ⟨_, _, _, run, ⟨stored, last, text⟩, unchanged _ _ failed nofun⟩

/-- The second attempt is refused its text, after its metadata was written. -/
theorem refused_text_serves_old :
    ∃ (volume : Unsteady Disk) (log : List Attempt), Run ⟨"cache", []⟩ "a.php" volume log ∧
      get? ⟨"cache", []⟩ volume "a.php" "k2" = some "old".toList ∧
      ∀ attempt ∈ log, attempt.key = "k2".toList → attempt.isStored = false := by
  have run : Run ⟨"cache", []⟩ "a.php"
      (⟨Disk.empty, [none, none, none, some .isDirectory]⟩ : Unsteady Disk) [] :=
    .start Disk.grounded_empty (not_file_of_none (by decide +kernel))
      (not_file_of_none (by decide +kernel))
  refine ⟨_, _, (run.put "k1" "old").put "k2" "new", ?_, ?_⟩ <;> decide +kernel

end Cache
end PhpWeave
