import PhpWeave.Proofs.Load.Separation
import PhpWeave.Proofs.Text.Parent

set_option autoImplicit false

/-!
What a cache writes lies in its directory. The path of a woven file and that of its metadata go on
from the parts of the cache directory with ordinary names, so nothing leads back up or begins again at
the root. Putting an entry asks the volume for nothing but directories and files at such paths. On a
disk no file outside is changed, and nothing at all when the cache directory is there.
-/

namespace PhpWeave

open PhpWeave.Path

namespace Path

/-- Whether a path has the parts of a directory and then some ordinary names. -/
structure Extends (directory : Path) (names : List Text) (path : Path) : Prop where
  ordinary : ∀ name ∈ names, IsOrdinary name
  parts : parts path = parts directory ++ names.map .name

theorem extends_self (path : Path) : Extends path [] path :=
  ⟨nofun, (List.append_nil _).symm⟩

theorem Extends.push {directory path : Path} {names : List Text} {name : Text}
    (behind : Extends directory names path) (ordinary : IsOrdinary name) :
    Extends directory (names ++ [name]) (push path name) where
  ordinary other member := by
    rcases List.mem_append.mp member with before | last
    · exact behind.ordinary other before
    · exact List.mem_singleton.mp last ▸ ordinary
  parts := by
    rw [parts_push ordinary, behind.parts, List.append_assoc, List.map_append]
    rfl

theorem extends_foldl_push {names : List Text} (ordinary : ∀ name ∈ names, IsOrdinary name)
    (directory : Path) : Extends directory names (names.foldl push directory) := by
  induction names using List.reverseRecOn with
  | nil => exact extends_self directory
  | append_singleton front last ih =>
      rw [List.foldl_append]
      exact (ih fun name member => ordinary name (List.mem_append_left _ member)).push
        (ordinary last (List.mem_concat_self ..))

theorem Extends.parent {directory path parent : Path} {names : List Text}
    (behind : Extends directory names path) (some : names ≠ [])
    (around : parent? path = Option.some parent) : Extends directory names.dropLast parent := by
  obtain ⟨front, last, rfl⟩ := Text.exists_concat some
  have drops := dropsLast_parent? path
  rw [around] at drops
  obtain ⟨-, final, -, parts⟩ := drops
  rw [behind.parts, List.map_append, ← List.append_assoc] at parts
  rw [List.dropLast_concat]
  exact ⟨fun name member => behind.ordinary name (List.mem_append_left _ member),
    (List.append_inj' parts rfl).1.symm⟩

end Path

namespace Disk

variable {disk later last : Disk} {place other : Place} {directory path : Path} {names : List Text}

/-! ### Places by parts -/

def stepOfPart : Path.Part → Option Text
  | .name text => some text
  | .up => some ['.', '.']
  | .root | .here => none

theorem stepOfPart_of_pieces (pieces : List Text) :
    (pieces.filterMap part?).filterMap stepOfPart =
      (pieces.filter fun piece => !piece.isEmpty).filter fun step => step ≠ ['.'] := by
  induction pieces with
  | nil => rfl
  | cons piece rest ih =>
      by_cases empty : piece = []
      · rw [List.filterMap_cons, List.filter_cons_of_neg (by simp [empty]), empty]
        exact ih
      · rw [List.filter_cons_of_pos (by simp [empty])]
        by_cases dot : piece = ['.']
        · rw [List.filter_cons_of_neg (by simp [dot]), dot]
          exact ih
        · rw [List.filter_cons_of_pos (by simp [dot]), ← ih, List.filterMap_cons, part?,
            if_neg (not_or.mpr ⟨empty, dot⟩)]
          by_cases up : piece = ['.', '.']
          · rw [if_pos up, up]
            rfl
          · rw [if_neg up]
            rfl

theorem filter_stepsOf (path : Path) :
    (stepsOf path).filter (fun step => step ≠ ['.']) = (parts path).filterMap stepOfPart := by
  rcases begins_cases path with ⟨rest, rfl⟩ | rfl | ⟨rest, rfl⟩ | plain
  · exact (stepOfPart_of_pieces (Text.splitAt '/' rest)).symm
  · rfl
  · exact (stepOfPart_of_pieces (Text.splitAt '/' rest)).symm
  · rw [plain.parts, stepOfPart_of_pieces]
    rfl

theorem root_mem_parts_iff (path : Path) : .root ∈ parts path ↔ isAbsolute path = true := by
  have other (pieces : List Text) : .root ∉ pieces.filterMap part? := by
    intro member
    obtain ⟨piece, -, isPart⟩ := List.mem_filterMap.mp member
    exact part?_ne_root isPart rfl
  rcases begins_cases path with ⟨rest, rfl⟩ | rfl | ⟨rest, rfl⟩ | plain
  · exact ⟨fun _ => rfl, fun _ => List.mem_cons_self⟩
  · decide
  · refine iff_of_false (fun member => ?_) (by simp [isAbsolute])
    exact other _ ((List.mem_cons.mp member).resolve_left Path.Part.noConfusion)
  · rw [plain.parts]
    refine iff_of_false (other _) fun absolute => ?_
    cases path with
    | nil => cases absolute
    | cons c rest =>
        exact plain.noSlash rest (congrArg (· :: rest) (by simpa [isAbsolute] using absolute))

/-- Steps that can be taken from a place, to a directory. -/
def Trod (disk : Disk) (place : Place) (steps : List Text) : Prop :=
  disk.Walks place steps ∧ disk.HasDirectory (steps.foldl stepTo place)

theorem Trod.start {steps : List Text} (trod : disk.Trod place steps) :
    disk.HasDirectory place := by
  cases steps with
  | nil => exact trod.2
  | cons step rest => exact trod.1.1

theorem trod_cons {step : Text} {rest : List Text} :
    disk.Trod place (step :: rest) ↔
      disk.HasDirectory place ∧ disk.Trod (stepTo place step) rest := by
  rw [Trod, Trod, Walks, List.foldl_cons, and_assoc]

theorem foldl_stepTo_filter (place : Place) (steps : List Text) :
    (steps.filter fun step => step ≠ ['.']).foldl stepTo place = steps.foldl stepTo place := by
  induction steps generalizing place with
  | nil => rfl
  | cons step rest ih =>
      by_cases dot : step = ['.']
      · rw [List.filter_cons_of_neg (by simp [dot]), ih, List.foldl_cons, stepTo, if_pos dot]
      · rw [List.filter_cons_of_pos (by simp [dot]), List.foldl_cons, List.foldl_cons, ih]

theorem trod_filter {steps : List Text} :
    disk.Trod place (steps.filter fun step => step ≠ ['.']) ↔ disk.Trod place steps := by
  induction steps generalizing place with
  | nil => exact Iff.rfl
  | cons step rest ih =>
      by_cases dot : step = ['.']
      · have stays : stepTo place step = place := if_pos dot
        rw [List.filter_cons_of_neg (by simp [dot]), ih, trod_cons, stays]
        exact ⟨fun trod => ⟨trod.start, trod⟩, And.right⟩
      · rw [List.filter_cons_of_pos (by simp [dot]), trod_cons, trod_cons, ih]

/-- Whether there is a directory where a path leads, and it leads there. The empty path leads to the
work place. -/
def Opens (disk : Disk) (path : Path) : Prop := disk.Trod (base path) (stepsOf path)

theorem leads_eq (path : Path) :
    leads path = ((parts path).filterMap stepOfPart).foldl stepTo (base path) := by
  rw [← filter_stepsOf, foldl_stepTo_filter]
  rfl

theorem opens_iff (path : Path) :
    disk.Opens path ↔ disk.Trod (base path) ((parts path).filterMap stepOfPart) := by
  rw [← filter_stepsOf]
  exact trod_filter.symm

theorem base_of_extends (behind : Extends directory names path) : base path = base directory := by
  have same : isAbsolute path = isAbsolute directory := by
    rw [Bool.eq_iff_iff, ← root_mem_parts_iff, ← root_mem_parts_iff, behind.parts]
    simp
  rw [base, base, same]

theorem leads_of_extends (behind : Extends directory names path) :
    leads path = leads directory ++ names := by
  have steps : (names.map Path.Part.name).filterMap stepOfPart = names := by
    rw [List.filterMap_map]
    exact List.filterMap_some
  rw [leads_eq, leads_eq, base_of_extends behind, behind.parts, List.filterMap_append, steps,
    List.foldl_append, foldl_stepTo behind.ordinary]

theorem opens_of_extends (behind : Extends directory [] path) (there : disk.Opens directory) :
    disk.Opens path := by
  have parts : parts path = parts directory := behind.parts.trans (List.append_nil _)
  rw [opens_iff] at there ⊢
  rwa [parts, base_of_extends behind]

/-! ### Changes below a place -/

/-- Whether a disk came from another by changes at a place and below it, which leave every directory a
directory. -/
structure Spares (place : Place) (disk later : Disk) : Prop where
  outside : ∀ other, ¬ place <+: other → later.at? other = disk.at? other
  directories : ∀ other, disk.HasDirectory other → later.HasDirectory other

theorem Spares.refl (place : Place) (disk : Disk) : Spares place disk disk :=
  ⟨fun _ _ => rfl, fun _ => id⟩

theorem Spares.trans (first : Spares place disk later) (second : Spares place later last) :
    Spares place disk last where
  outside other apart := (second.outside other apart).trans (first.outside other apart)
  directories other here := second.directories other (first.directories other here)

theorem Spares.tick (place : Place) (disk : Disk) : Spares place disk disk.tick :=
  ⟨fun _ _ => rfl, fun _ => id⟩

theorem Spares.opens (spares : Spares place disk later) (there : disk.Opens path) :
    later.Opens path :=
  ⟨there.1.mono spares.directories, spares.directories _ there.2⟩

/-- Whether a path goes through no place of a directory, and does not end in one. -/
def Avoids (place : Place) (path : Path) : Prop :=
  ∀ steps, steps <+: stepsOf path → ¬ place <+: steps.foldl stepTo (base path)

theorem prefix_foldl_stepTo {steps : List Text} (level : ['.', '.'] ∉ steps) (place : Place) :
    place <+: steps.foldl stepTo place := by
  induction steps generalizing place with
  | nil => exact List.prefix_rfl
  | cons step rest ih =>
      have goes : place <+: stepTo place step := by
        have down : step ≠ ['.', '.'] := fun up => level (up ▸ List.mem_cons_self)
        rw [stepTo, if_neg down]
        split
        · exact List.prefix_rfl
        · exact List.prefix_append ..
      exact goes.trans (ih (mt (List.mem_cons_of_mem step) level) _)

theorem avoids_of_level (level : ['.', '.'] ∉ stepsOf path) (apart : ¬ place <+: leads path) :
    Avoids place path := by
  intro steps front inside
  obtain ⟨rest, whole⟩ := front
  have below : ['.', '.'] ∉ rest :=
    fun member => level (whole ▸ List.mem_append_right steps member)
  rw [leads, ← whole, List.foldl_append] at apart
  exact apart (inside.trans (prefix_foldl_stepTo below _))

theorem follow_congr {steps : List Text}
    (same : ∀ front, front <+: steps →
      later.at? (front.foldl stepTo place) = disk.at? (front.foldl stepTo place)) :
    later.follow place steps = disk.follow place steps := by
  induction steps generalizing place with
  | nil => rfl
  | cons step rest ih =>
      have here : later.stepFrom place step = disk.stepFrom place step := by
        rw [stepFrom, stepFrom, show later.at? place = disk.at? place from
          same [] (List.nil_prefix)]
      rw [follow, follow, here]
      cases taken : disk.stepFrom place step with
      | error failure => rfl
      | ok next =>
          obtain ⟨-, rfl⟩ := stepFrom_eq_ok.mp taken
          exact ih fun front inside => same (step :: front) (List.prefix_cons_inj step |>.mpr inside)

/-- A path that stays outside leads to what it led to before. -/
theorem Spares.resolve_eq (spares : Spares place disk later) (avoids : Avoids place path) :
    later.resolve path = disk.resolve path := by
  have same (steps : List Text) (front : steps <+: stepsOf path) :
      later.at? (steps.foldl stepTo (base path)) = disk.at? (steps.foldl stepTo (base path)) :=
    spares.outside _ (avoids steps front)
  have found : later.placeOf path = disk.placeOf path := by
    rw [placeOf, placeOf]
    exact ite_congr rfl (fun _ => rfl) fun _ => follow_congr same
  rw [resolve, resolve, found]
  cases ends : disk.placeOf path with
  | error failure => rfl
  | ok place =>
      obtain ⟨-, -, rfl⟩ := placeOf_eq_ok.mp ends
      simp only [show later.at? (leads path) = disk.at? (leads path) from
        same _ List.prefix_rfl]

theorem Spares.changed?_eq (spares : Spares place disk later) (avoids : Avoids place path) :
    later.changed? path = disk.changed? path := by
  rw [changed?, changed?, spares.resolve_eq avoids]

theorem anchors_of_opens (there : disk.Opens path) : disk.Anchors path := by
  by_cases empty : path = []
  · rw [empty]
    exact .inl List.not_mem_nil
  · obtain ⟨changed, here⟩ := there.2
    have entry : disk.at? (leads path) = some (.directory changed) := here
    refine .inr ?_
    rw [isDirectory, resolve, placeOf_eq_ok.mpr ⟨empty, there.1, rfl⟩]
    simp only [entry]

theorem spares_set (below : place <+: other) {entry : DiskEntry}
    (kept : disk.HasDirectory other → ∃ changed, entry = .directory changed) :
    Spares place disk (disk.set other entry) where
  outside outer apart := by
    refine at?_set_of_ne ?_ disk entry
    rintro rfl
    exact apart below
  directories outer here := by
    by_cases same : outer = other
    · obtain ⟨changed, rfl⟩ := kept (same ▸ here)
      exact ⟨changed, same ▸ at?_set_self ..⟩
    · rwa [HasDirectory, at?_set_of_ne same]

theorem spares_add (some : names ≠ []) (missing : disk.at? (place ++ names) = none)
    (entry : DiskEntry) :
    Spares place disk ((disk.touchAbove (place ++ names)).set (place ++ names) entry) := by
  have around : above (place ++ names) = place ++ names.dropLast := List.dropLast_append_of_ne_nil some
  have apart : place ++ names ≠ above (place ++ names) := by
    rw [around, Ne, List.append_cancel_left_eq]
    intro same
    have shorter := congrArg List.length same
    rw [List.length_dropLast] at shorter
    have positive := List.length_pos_iff.mpr some
    omega
  have touched : Spares place disk (disk.touchAbove (place ++ names)) := by
    refine spares_set ?_ fun _ => ⟨_, rfl⟩
    rw [around]
    exact List.prefix_append ..
  refine touched.trans (spares_set (List.prefix_append ..) fun ⟨_, here⟩ => ?_)
  rw [touchAbove, at?_set_of_ne apart, missing] at here
  cases here

theorem spares_makeDirectory (there : disk.HasDirectory (leads directory))
    (behind : Extends directory names path) :
    Spares (leads directory) disk (disk.makeDirectory path).2 := by
  unfold makeDirectory
  split
  · exact .refl _ disk
  · next place found =>
      obtain ⟨-, -, rfl⟩ := placeOf_eq_ok.mp found
      rw [leads_of_extends behind]
      split
      · exact .refl _ disk
      · next missing =>
          have some : names ≠ [] := by
            rintro rfl
            obtain ⟨changed, here⟩ := there
            rw [List.append_nil, here] at missing
            cases missing
          have missing : disk.tick.at? (leads directory ++ names) = none := missing
          exact (Spares.tick (leads directory) disk).trans
            (spares_add some missing (.directory disk.tick.clock))

theorem ensureDirectory_snd (disk : Disk) (path : Path) :
    (disk.ensureDirectory path).2 = (disk.makeDirectory path).2 := by
  unfold ensureDirectory
  split
  · next made same => rw [same]
  · next failure kept same =>
      rw [same]
      split <;> rfl

theorem makeDirectory_of_opens (there : disk.Opens path) (some : path ≠ []) :
    disk.makeDirectory path = (.error .alreadyThere, disk) := by
  have found : disk.placeOf path = .ok (leads path) := placeOf_eq_ok.mpr ⟨some, there.1, rfl⟩
  obtain ⟨changed, here⟩ := there.2
  have entry : disk.at? (leads path) = Option.some (.directory changed) := here
  rw [makeDirectory, found]
  simp only [entry]

/-- Making directories behind one that is there changes nothing outside it. The walk up from a path
that is missing stops there at the latest. -/
theorem spares_makeWithin (there : disk.Opens directory) (behind : Extends directory names path)
    (fuel : Nat) : Spares (leads directory) disk (disk.makeWithin fuel path).2 := by
  induction fuel generalizing disk path names with
  | zero => exact .refl _ disk
  | succ fuel ih =>
      have made := spares_makeDirectory there.2 behind
      unfold makeWithin
      split
      · exact .refl _ disk
      · next filled =>
          split
          · next same => exact same ▸ made
          · next same =>
              rw [same] at made
              have some : names ≠ [] := by
                rintro rfl
                rw [makeDirectory_of_opens (opens_of_extends behind there) filled] at same
                cases same
              split
              · exact made
              · next parent around =>
                  have above := ih (made.opens there) (behind.parent some around)
                  split
                  · next same => exact made.trans (same ▸ above)
                  · next same =>
                      rw [same] at above
                      have reached := (made.trans above)
                      rw [ensureDirectory_snd]
                      exact reached.trans
                        (spares_makeDirectory (reached.opens there).2 behind)
          · next same =>
              rw [same] at made
              split <;> exact made

theorem spares_write (behind : Extends directory names path) (some : names ≠ []) (bytes : Bytes) :
    Spares (leads directory) disk (disk.write path bytes).2 := by
  have ticked := Spares.tick (leads directory) disk
  unfold write
  split
  · exact .refl _ disk
  · next place found =>
      obtain ⟨-, -, rfl⟩ := placeOf_eq_ok.mp found
      rw [leads_of_extends behind]
      split
      · exact .refl _ disk
      · simp only
        split
        · exact ticked
        · next old moment here =>
            refine ticked.trans (spares_set (List.prefix_append ..) fun ⟨_, directory⟩ => ?_)
            cases here.symm.trans directory
        · next missing => exact ticked.trans (spares_add some missing _)

end Disk

/-! ### What is asked of a volume -/

namespace Volume

variable {σ : Type} [Volume σ] {volume : σ} {directories files : Path → Prop}

/-- What a volume can become when directories are made and files are written at some paths only,
whether that succeeds or not. -/
inductive Changes (directories files : Path → Prop) (volume : σ) : σ → Prop where
  | none : Changes directories files volume volume
  | directory {later : σ} {path : Path} (before : Changes directories files volume later)
      (isOne : directories path) :
      Changes directories files volume (Volume.makeDirectories later path).2
  | file {later : σ} {path : Path} (before : Changes directories files volume later)
      (isOne : files path) (bytes : Bytes) :
      Changes directories files volume (Volume.write later path bytes).2

end Volume

theorem Disk.Spares.of_changes {disk later : Disk} {directory : Path} (there : disk.Opens directory)
    (changes : Volume.Changes (fun path => ∃ names, Extends directory names path)
      (fun path => ∃ names, names ≠ [] ∧ Extends directory names path) disk later) :
    Spares (leads directory) disk later := by
  induction changes with
  | none => exact .refl _ disk
  | directory before isOne ih =>
      obtain ⟨names, behind⟩ := isOne
      exact ih.trans (spares_makeWithin (ih.opens there) behind _)
  | file before isOne bytes ih =>
      obtain ⟨names, some, behind⟩ := isOne
      exact ih.trans (spares_write behind some bytes)

namespace Cache

open OnDisk

variable {source : Path}

/-- Whether a path has a part that counts in the cache: a name or two dots. -/
def Counts (source : Path) : Prop := ∃ part ∈ parts source, part = .up ∨ ∃ name, part = .name name

theorem Counts.trail_ne_nil (counts : Counts source) : trail source ≠ [] := by
  obtain ⟨part, member, spelled⟩ := counts
  rcases spelled with rfl | ⟨name, rfl⟩
  · exact List.ne_nil_of_mem (List.mem_filterMap.mpr ⟨_, member, rfl⟩)
  · exact List.ne_nil_of_mem (List.mem_filterMap.mpr ⟨_, member, rfl⟩)

theorem extends_pathOf (cache : Cache) (source : Path) :
    Extends cache.directory (trail source) (cache.pathOf source) := by
  rw [pathOf_eq]
  exact extends_foldl_push (ordinary_trail source) cache.directory

theorem extends_metadataPath (cache : Cache) (some : trail source ≠ []) :
    Extends cache.directory (besideOf (trail source)) (metadataPath (cache.pathOf source)) := by
  rw [pathOf_eq, metadataPath_foldl_push some (ordinary_trail source)]
  exact extends_foldl_push (ordinary_besideOf (ordinary_trail source)) cache.directory

section Put

variable {σ : Type} [Volume σ] {directories files : Path → Prop} {volume later : σ}

theorem changes_makeRoom {woven : Path} (changes : Volume.Changes directories files volume later)
    (isOne : ∀ parent, parent? woven = some parent → directories parent) :
    Volume.Changes directories files volume (makeRoom later woven).2 := by
  unfold makeRoom
  split
  · exact changes
  · next parent around =>
      have made := changes.directory (isOne parent around)
      split
      · next same =>
          rw [same] at made
          exact made
      · next same =>
          rw [same] at made
          exact made

theorem changes_writeFile {path : Path} (changes : Volume.Changes directories files volume later)
    (isOne : files path) (bytes : Bytes) :
    Volume.Changes directories files volume (writeFile later path bytes).2 := by
  have written := changes.file isOne bytes
  unfold writeFile
  split
  · next same =>
      rw [same] at written
      exact written
  · next same =>
      rw [same] at written
      exact written

theorem changes_put [MetadataFormat] (cache : Cache) (volume : σ) (source : Path)
    (key text : Text)
    (room : ∀ parent, parent? (cache.pathOf source) = some parent → directories parent)
    (metadata : files (metadataPath (cache.pathOf source))) (woven : files (cache.pathOf source)) :
    Volume.Changes directories files volume (cache.put volume source key text).2 := by
  have start : Volume.Changes directories files volume volume := .none
  have made := changes_makeRoom start room
  unfold put
  simp only
  split
  · next same =>
      rw [same] at made
      exact made
  · next same =>
      rw [same] at made
      have marked := changes_writeFile made metadata (MetadataFormat.encode ⟨key, source⟩)
      split
      · next same =>
          rw [same] at marked
          exact marked
      · next same =>
          rw [same] at marked
          have stored := changes_writeFile marked woven (Utf8.encode text)
          split
          · next same =>
              rw [same] at stored
              exact stored
          · next same =>
              rw [same] at stored
              exact stored

theorem changes_put_within [MetadataFormat] (cache : Cache) (volume : σ) (counts : Counts source)
    (key text : Text) :
    Volume.Changes (fun path => ∃ names, Extends cache.directory names path)
      (fun path => ∃ names, names ≠ [] ∧ Extends cache.directory names path)
      volume (cache.put volume source key text).2 :=
  have some := counts.trail_ne_nil
  have woven := cache.extends_pathOf source
  changes_put cache volume source key text (fun _ around => ⟨_, woven.parent some around⟩)
    ⟨_, besideOf_ne_nil some, cache.extends_metadataPath some⟩ ⟨_, some, woven⟩

end Put

/-- Whether what a cache writes for a source lies in the cache directory. -/
structure Contains (cache : Cache) (source : Path) : Prop where
  woven : ∃ names, names ≠ [] ∧ Extends cache.directory names (cache.pathOf source)
  metadata : ∃ names, names ≠ [] ∧
    Extends cache.directory names (metadataPath (cache.pathOf source))
  /-- Every volume is asked for nothing but directories on the way to the woven file, from the cache
  directory on, and files behind the cache directory. -/
  asked : ∀ [MetadataFormat] (σ : Type) [Volume σ] (volume : σ) (key text : Text),
    Volume.Changes (fun path => ∃ names, Extends cache.directory names path)
      (fun path => ∃ names, names ≠ [] ∧ Extends cache.directory names path)
      volume (cache.put volume source key text).2
  /-- On a disk, which may refuse writes, no file is changed but those below the place that the cache
  directory leads to. -/
  files : ∀ [MetadataFormat] (σ : Type) [Volume σ] [OnDisk σ] (volume : σ) (key text : Text),
    (disk volume).Grounded → ∀ place,
      (∀ names, names ≠ [] → place ≠ Disk.leads cache.directory ++ names) → ∀ bytes changed,
        (disk (cache.put volume source key text).2).at? place = some (.file bytes changed) ↔
          (disk volume).at? place = some (.file bytes changed)
  /-- Where the cache directory is there, nothing at all is changed but at this place and below. -/
  outside : ∀ [MetadataFormat] (disk : Disk) (key text : Text), disk.Opens cache.directory →
    ∀ place, ¬ Disk.leads cache.directory <+: place →
      (cache.put disk source key text).2.at? place = disk.at? place

/-- Where the cache directory is there, putting an entry changes nothing that is served of a source
apart from its own, if neither that source nor a watched file lies in the cache directory. -/
theorem get?_put_of_avoids [MetadataFormat] {cache : Cache} {disk : Disk} {other : Path}
    (grounded : disk.Grounded) (there : disk.Opens cache.directory) (counts : Counts other)
    (apart : Separate source other)
    (elsewhere : ∀ path ∈ source :: cache.watched,
      Disk.Avoids (Disk.leads cache.directory) path)
    (key text asked : Text) :
    cache.get? (cache.put disk other key text).2 source asked = cache.get? disk source asked := by
  have spares := Disk.Spares.of_changes there (changes_put_within cache disk counts key text)
  have rooted : (OnDisk.disk disk).Grounded := grounded
  obtain ⟨woven, metadata⟩ :=
    put_files rooted (Disk.anchors_of_opens there) counts.trail_ne_nil apart key text
  exact get?_congr woven metadata fun path member => spares.changed?_eq (elsewhere path member)

/-- Of every source whose path has a name or two dots in it, absolute or relative, the woven file and
its metadata lie in the cache directory, and putting them changes nothing outside. -/
theorem contains_of_counts (cache : Cache) (counts : Counts source) : cache.Contains source := by
  have some := counts.trail_ne_nil
  have woven := cache.extends_pathOf source
  have metadata := cache.extends_metadataPath some
  refine ⟨⟨_, some, woven⟩, ⟨_, besideOf_ne_nil some, metadata⟩,
    fun _ _ volume => changes_put_within cache volume counts, ?_, ?_⟩
  · intro _ σ _ _ volume key text grounded place outside
    refine (put_cases cache grounded source key text).grows.files place ?_
    rw [leads_metadata cache some, leads_pathOf]
    simp [outside _ some, outside _ (besideOf_ne_nil some)]
  · intro _ disk key text there place outside
    have changes := changes_put_within cache disk counts key text
    exact (Disk.Spares.of_changes there changes).outside place outside

/-- A source above the root, for a cache directory that is spelled with two dots as well. -/
theorem contains_of_counts_up :
    Counts "/../app/./a.php" ∧
      pathOf ⟨"/var/../cache/", []⟩ "/../app/./a.php" = "/var/../cache/__/app/a.php".toList ∧
      Contains ⟨"/var/../cache/", []⟩ "/../app/./a.php" := by
  have counts : Counts "/../app/./a.php" := ⟨.up, by decide, .inl rfl⟩
  exact ⟨counts, by decide +kernel, contains_of_counts _ counts⟩

end Cache
end PhpWeave
