import Mathlib.Data.List.Induction
import PhpWeave.Load.Disk
import PhpWeave.Proofs.Text.Pieces

set_option autoImplicit false

/-!
Where paths lead on a disk, and what writing changes there. A path leads to the same place on every
disk on which it leads anywhere, which is where each of its steps but the last finds a directory. On
a disk that is a tree, writing a file and making directories leave every other file as it was and
every directory a directory.
-/

namespace PhpWeave.Disk

variable {disk later : Disk} {place other : Place} {path : Path} {bytes : Bytes} {changed : Nat}

theorem at?_set_self (disk : Disk) (place : Place) (entry : DiskEntry) :
    (disk.set place entry).at? place = some entry :=
  List.lookup_cons_self

theorem at?_set_of_ne (different : other ≠ place) (disk : Disk) (entry : DiskEntry) :
    (disk.set place entry).at? other = disk.at? other := by
  have skip (entries : List (Place × DiskEntry)) :
      (entries.filter fun entry => entry.1 ≠ place).lookup other = entries.lookup other := by
    induction entries with
    | nil => rfl
    | cons first rest ih =>
        by_cases same : first.1 = place
        · have unlike : (other == first.1) = false := beq_false_of_ne (same ▸ different)
          rw [List.filter_cons_of_neg (by simp [same]), ih, List.lookup_cons, unlike]
        · rw [List.filter_cons_of_pos (by simp [same]), List.lookup_cons, List.lookup_cons, ih]
  rw [at?, set, List.lookup_cons, beq_false_of_ne different]
  exact skip disk.entries

def HasDirectory (disk : Disk) (place : Place) : Prop :=
  ∃ changed, disk.at? place = some (.directory changed)

/-! ### Walks -/

/-- Where a step leads from a directory. -/
def stepTo (place : Place) (step : Text) : Place :=
  if step = ['.'] then place else if step = ['.', '.'] then above place else place ++ [step]

/-- Whether there is a directory for each of some steps to begin at. -/
def Walks (disk : Disk) : Place → List Text → Prop
  | _, [] => True
  | place, step :: rest => disk.HasDirectory place ∧ Walks disk (stepTo place step) rest

def base (path : Path) : Place := if Path.isAbsolute path then [] else workPlace

/-- Where a path leads, if it leads anywhere. -/
def leads (path : Path) : Place := (stepsOf path).foldl stepTo (base path)

theorem stepFrom_eq_ok {step : Text} {found : Place} :
    disk.stepFrom place step = .ok found ↔ disk.HasDirectory place ∧ stepTo place step = found := by
  unfold stepFrom HasDirectory stepTo
  cases disk.at? place with
  | none => simp
  | some entry =>
      cases entry with
      | file => simp
      | directory changed =>
          simp only [Option.some.injEq, DiskEntry.directory.injEq, exists_eq', true_and]
          split
          · simp
          · split <;> simp

theorem follow_eq_ok {steps : List Text} {found : Place} :
    disk.follow place steps = .ok found ↔
      disk.Walks place steps ∧ steps.foldl stepTo place = found := by
  induction steps generalizing place with
  | nil => simp [follow, Walks]
  | cons step rest ih =>
      rw [follow, Walks, List.foldl_cons, and_assoc]
      cases taken : disk.stepFrom place step with
      | error failure =>
          have blocked : ¬ disk.HasDirectory place := fun directory => by
            cases taken.symm.trans (stepFrom_eq_ok.mpr ⟨directory, rfl⟩)
          simp [blocked]
      | ok next =>
          obtain ⟨directory, rfl⟩ := stepFrom_eq_ok.mp taken
          simp only [ih, directory, true_and]

theorem placeOf_eq_ok :
    disk.placeOf path = .ok place ↔
      path ≠ [] ∧ disk.Walks (base path) (stepsOf path) ∧ leads path = place := by
  unfold placeOf
  split
  · next empty => simp [empty]
  · next nonempty => simp [nonempty, follow_eq_ok, base, leads]

theorem Walks.mono (keeps : ∀ place, disk.HasDirectory place → later.HasDirectory place)
    {steps : List Text} (walks : disk.Walks place steps) : later.Walks place steps := by
  induction steps generalizing place with
  | nil => trivial
  | cons step rest ih => exact ⟨keeps place walks.1, ih walks.2⟩

theorem walks_append {front rest : List Text} :
    disk.Walks place (front ++ rest) ↔
      disk.Walks place front ∧ disk.Walks (front.foldl stepTo place) rest := by
  induction front generalizing place with
  | nil => simp [Walks]
  | cons step front ih => rw [List.cons_append, Walks, Walks, ih, and_assoc, List.foldl_cons]

/-! ### Steps of a path -/

theorem stepsOf_append (front rest : Path) :
    stepsOf (front ++ '/' :: rest) = stepsOf front ++ stepsOf rest := by
  rw [stepsOf, Text.splitAt_append, List.filter_append]
  rfl

theorem exists_last_piece (path : Path) :
    ∃ front piece, path = front ++ piece ∧ '/' ∉ piece ∧
      (front = [] ∨ ∃ above, front = above ++ ['/']) := by
  induction path using List.reverseRecOn with
  | nil => exact ⟨[], [], rfl, List.not_mem_nil, .inl rfl⟩
  | append_singleton path c ih =>
      by_cases slash : c = '/'
      · exact ⟨path ++ [c], [], (List.append_nil _).symm, List.not_mem_nil,
          .inr ⟨path, slash ▸ rfl⟩⟩
      · obtain ⟨front, piece, rfl, single, ends⟩ := ih
        refine ⟨front, piece ++ [c], List.append_assoc .., ?_, ends⟩
        simp [single, Ne.symm slash]

theorem stepsOf_piece {piece : Text} (single : '/' ∉ piece) (filled : piece ≠ []) :
    stepsOf piece = [piece] := by
  rw [stepsOf, Text.splitAt_of_not_mem single]
  exact List.filter_cons_of_pos (by simp [filled])

theorem stepsOf_behind {front : Path} (ends : front = [] ∨ ∃ above, front = above ++ ['/'])
    {piece : Text} (single : '/' ∉ piece) (filled : piece ≠ []) :
    stepsOf (front ++ piece) = stepsOf front ++ [piece] := by
  rcases ends with rfl | ⟨above, rfl⟩
  · exact stepsOf_piece single filled
  · rw [List.append_assoc, List.singleton_append, stepsOf_append, stepsOf_append,
      stepsOf_piece single filled]
    exact congrArg (· ++ [piece]) (List.append_nil _).symm

theorem stepTo_of_long (place : Place) {step : Text} (long : 2 < step.length) :
    stepTo place step = place ++ [step] := by
  have other (short : Text) (less : short.length ≤ 2) : step ≠ short :=
    fun same => absurd (same ▸ long) (Nat.not_lt.mpr less)
  rw [stepTo, if_neg (other _ (by decide)), if_neg (other _ (by decide))]

theorem stepTo_ne_concat (place : Place) {step longer : Text} (less : step.length < longer.length) :
    stepTo place step ≠ place ++ [longer] := by
  intro same
  unfold stepTo at same
  split at same
  · simp at same
  · split at same
    · have lengths := congrArg List.length same
      rw [above, List.length_dropLast, List.length_append, List.length_singleton] at lengths
      omega
    · rw [List.append_cancel_left_eq, List.cons.injEq] at same
      exact Nat.ne_of_lt less (congrArg List.length same.1)

/-! ### Files -/

def file? (disk : Disk) (path : Path) : Option (Bytes × Nat) :=
  match disk.resolve path with
  | .ok (_, .file bytes changed) => some (bytes, changed)
  | _ => none

theorem file?_eq_some :
    disk.file? path = some (bytes, changed) ↔
      path ≠ [] ∧ endsInSlash path = false ∧ disk.Walks (base path) (stepsOf path) ∧
        disk.at? (leads path) = some (.file bytes changed) := by
  unfold file? resolve
  cases found : disk.placeOf path with
  | error failure =>
      constructor
      · simp
      · rintro ⟨nonempty, -, walks, -⟩
        cases found.symm.trans (placeOf_eq_ok.mpr ⟨nonempty, walks, rfl⟩)
  | ok place =>
      obtain ⟨nonempty, walks, rfl⟩ := placeOf_eq_ok.mp found
      cases here : disk.at? (leads path) with
      | none => simp [here]
      | some entry =>
          cases entry with
          | directory => simp [here]
          | file => cases slash : endsInSlash path <;> simp [here, nonempty, walks]

theorem read_eq_ok :
    Volume.read disk path = .ok bytes ↔ ∃ changed, disk.file? path = some (bytes, changed) := by
  change Disk.read disk path = .ok bytes ↔ _
  unfold read file?
  split <;> simp_all

theorem changed?_of_file? (file : disk.file? path = some (bytes, changed)) :
    Volume.changed? disk path = some changed := by
  change Disk.changed? disk path = some changed
  unfold file? at file
  unfold changed?
  split at file
  · next found =>
      rw [found]
      exact congrArg some (Prod.mk.inj (Option.some.inj file)).2
  · cases file

/-! ### Trees -/

/-- Whether everything lies in a directory. -/
def Grounded (disk : Disk) : Prop :=
  ∀ place entry, disk.at? place = some entry → disk.HasDirectory (above place)

theorem grounded_empty : empty.Grounded := by
  intro place entry here
  obtain ⟨front, rest, whole, -⟩ := List.lookup_eq_some_iff.mp here
  have member : place ∈ empty.entries.map Prod.fst := by
    rw [whole, List.map_append, List.map_cons]
    exact List.mem_append_right _ List.mem_cons_self
  have places : empty.entries.map Prod.fst = [[], ["tmp".toList], workPlace] := rfl
  rw [places, List.mem_cons, List.mem_cons, List.mem_singleton] at member
  rcases member with rfl | rfl | rfl <;> exact ⟨beginning, rfl⟩

theorem all_slash_of_stepsOf (none : stepsOf path = []) : ∀ c ∈ path, c = '/' := by
  intro c member
  refine Decidable.byContradiction fun other => ?_
  have joined := (Text.joinWith_splitAt '/' path).symm ▸ member
  rcases Text.mem_joinWith joined with slash | ⟨piece, among, within⟩
  · exact other (List.mem_singleton.mp slash)
  · have filled : piece ∈ stepsOf path :=
      List.mem_filter.mpr ⟨among, by cases piece <;> simp_all⟩
    rw [none] at filled
    cases filled

/-- The directory around a missing place that a walk ends at: the step to it went down. -/
theorem Grounded.above_of_missing (grounded : disk.Grounded) {steps : List Text}
    (some : steps ≠ []) (walks : disk.Walks place steps)
    (missing : disk.at? (steps.foldl stepTo place) = none) :
    disk.HasDirectory (above (steps.foldl stepTo place)) := by
  obtain ⟨front, step, rfl⟩ := Text.exists_concat some
  rw [List.foldl_append] at missing ⊢
  obtain ⟨changed, here⟩ := ((walks_append.mp walks).2).1
  rw [List.foldl_cons, List.foldl_nil, stepTo] at missing ⊢
  split
  · next stays =>
      rw [if_pos stays] at missing
      cases here.symm.trans missing
  · next goes =>
      rw [if_neg goes] at missing
      split
      · next up =>
          rw [if_pos up] at missing
          obtain ⟨_, around⟩ := grounded _ _ here
          cases around.symm.trans missing
      · rw [above, List.dropLast_concat]
        exact ⟨changed, here⟩

/-! ### Changes -/

/-- Whether a disk came from another by changes that leave a tree, every directory a directory and
every file as it was but for those at some places. -/
structure Grows (touched : List Place) (disk later : Disk) : Prop where
  grounded : later.Grounded
  directories : ∀ place, disk.HasDirectory place → later.HasDirectory place
  files : ∀ place, place ∉ touched → ∀ bytes changed,
    later.at? place = some (.file bytes changed) ↔ disk.at? place = some (.file bytes changed)

namespace Grows

variable {touched : List Place} {last : Disk}

theorem refl (grounded : disk.Grounded) (touched : List Place) : Grows touched disk disk :=
  ⟨grounded, fun _ => id, fun _ _ _ _ => Iff.rfl⟩

theorem tick (grounded : disk.Grounded) (touched : List Place) : Grows touched disk disk.tick :=
  ⟨grounded, fun _ => id, fun _ _ _ _ => Iff.rfl⟩

theorem trans (first : Grows touched disk later) (second : Grows touched later last) :
    Grows touched disk last where
  grounded := second.grounded
  directories place here := second.directories place (first.directories place here)
  files place outside bytes changed :=
    (second.files place outside bytes changed).trans (first.files place outside bytes changed)

theorem mono {wider : List Place} (grows : Grows touched disk later)
    (subset : ∀ place ∈ touched, place ∈ wider) : Grows wider disk later where
  grounded := grows.grounded
  directories := grows.directories
  files place outside := grows.files place (mt (subset place) outside)

theorem set_directory (grounded : disk.Grounded)
    (free : ∀ bytes changed, disk.at? place ≠ some (.file bytes changed))
    (around : place = [] ∨ disk.HasDirectory (above place)) (changed : Nat) :
    Grows [] disk (disk.set place (.directory changed)) := by
  have here : (disk.set place (.directory changed)).HasDirectory place :=
    ⟨changed, at?_set_self ..⟩
  have directories (other : Place) (directory : disk.HasDirectory other) :
      (disk.set place (.directory changed)).HasDirectory other := by
    by_cases same : other = place
    · exact same ▸ here
    · rwa [HasDirectory, at?_set_of_ne same]
  refine ⟨fun other entry inside => ?_, directories, fun other _ bytes moment => ?_⟩
  · by_cases same : other = place
    · rw [same]
      rcases around with root | around
      · rw [root] at here ⊢
        exact here
      · exact directories _ around
    · rw [at?_set_of_ne same] at inside
      exact directories _ (grounded other entry inside)
  · by_cases same : other = place
    · rw [same, at?_set_self]
      exact ⟨nofun, fun file => absurd file (free bytes moment)⟩
    · rw [at?_set_of_ne same]

theorem set_file (grounded : disk.Grounded) (free : ¬ disk.HasDirectory place)
    (around : disk.HasDirectory (above place)) (bytes : Bytes) (changed : Nat) :
    Grows [place] disk (disk.set place (.file bytes changed)) := by
  have directories (other : Place) (directory : disk.HasDirectory other) :
      (disk.set place (.file bytes changed)).HasDirectory other := by
    have different : other ≠ place := fun same => free (same ▸ directory)
    rwa [HasDirectory, at?_set_of_ne different]
  refine ⟨fun other entry inside => ?_, directories, fun other outside written moment => ?_⟩
  · by_cases same : other = place
    · rw [same]
      exact directories _ around
    · rw [at?_set_of_ne same] at inside
      exact directories _ (grounded other entry inside)
  · rw [at?_set_of_ne (mt List.mem_singleton.mpr outside)]

theorem touchAbove (grounded : disk.Grounded)
    (around : place = [] ∨ disk.HasDirectory (above place))
    (missing : disk.at? place = none) : Grows [] disk (disk.touchAbove place) := by
  refine set_directory grounded ?_ ?_ disk.clock
  · intro bytes changed file
    rcases around with root | ⟨moment, directory⟩
    · rw [root] at missing file
      cases missing.symm.trans file
    · cases directory.symm.trans file
  · rcases around with root | directory
    · rw [root]
      exact .inl rfl
    · exact .inr (directory.elim fun moment here => grounded _ _ here)

end Grows

/-! ### Writing -/

theorem base_of_stepsOf (nonempty : path ≠ []) (none : stepsOf path = []) :
    base path = [] ∧ endsInSlash path = true := by
  have slashes := all_slash_of_stepsOf none
  constructor
  · cases path with
    | nil => exact absurd rfl nonempty
    | cons c rest =>
        rw [slashes c List.mem_cons_self]
        rfl
  · obtain ⟨front, last, rfl⟩ := Text.exists_concat nonempty
    rw [endsInSlash, List.getLast?_concat, slashes last (List.mem_concat_self ..)]
    rfl

theorem Grounded.around (grounded : disk.Grounded) (found : disk.placeOf path = .ok place)
    (missing : disk.at? place = none) : place = [] ∨ disk.HasDirectory (above place) := by
  obtain ⟨nonempty, walks, rfl⟩ := placeOf_eq_ok.mp found
  by_cases none : stepsOf path = []
  · left
    rw [leads, none]
    exact (base_of_stepsOf nonempty none).1
  · exact .inr (grounded.above_of_missing none walks missing)

/-- A write that fails changes no file; one that succeeds changes the file that it is about. -/
theorem write_cases (grounded : disk.Grounded) (path : Path) (bytes : Bytes) :
    (∃ failure, (disk.write path bytes).1 = .error failure ∧
      Grows [] disk (disk.write path bytes).2) ∨
    (disk.write path bytes).1 = .ok () ∧ Grows [leads path] disk (disk.write path bytes).2 ∧
      ∃ changed, (disk.write path bytes).2.at? (leads path) = some (.file bytes changed) := by
  have ticked := Grows.tick grounded [leads path]
  unfold write
  split
  · next failure _ => exact .inl ⟨failure, rfl, .refl grounded []⟩
  · next place found =>
      obtain ⟨nonempty, walks, rfl⟩ := placeOf_eq_ok.mp found
      split
      · exact .inl ⟨_, rfl, .refl grounded []⟩
      · next plain =>
          simp only
          split
          · exact .inl ⟨_, rfl, .tick grounded []⟩
          · next old moment here =>
              have free : ¬ disk.tick.HasDirectory (leads path) := by
                rintro ⟨_, directory⟩
                cases here.symm.trans directory
              have set := Grows.set_file ticked.grounded free (grounded _ _ here) bytes
                disk.tick.clock
              exact .inr ⟨rfl, ticked.trans set, _, at?_set_self ..⟩
          · next missing =>
              have some : stepsOf path ≠ [] := fun none =>
                plain (base_of_stepsOf nonempty none).2
              have around : disk.tick.HasDirectory (above (leads path)) :=
                grounded.above_of_missing some walks missing
              have touched := Grows.touchAbove ticked.grounded (.inr around) missing
              have apart : leads path ≠ above (leads path) := by
                intro same
                obtain ⟨_, directory⟩ := around
                rw [← same] at directory
                cases directory.symm.trans missing
              have free : ¬ (disk.tick.touchAbove (leads path)).HasDirectory (leads path) := by
                rintro ⟨_, directory⟩
                rw [Disk.touchAbove, at?_set_of_ne apart] at directory
                cases directory.symm.trans missing
              have set := Grows.set_file touched.grounded free (touched.directories _ around) bytes
                disk.tick.clock
              refine .inr ⟨rfl, ticked.trans (.trans (touched.mono ?_) set), _, at?_set_self ..⟩
              exact fun _ none => nomatch none

theorem grows_makeDirectory (grounded : disk.Grounded) (path : Path) :
    Grows [] disk (disk.makeDirectory path).2 := by
  unfold makeDirectory
  split
  · exact .refl grounded []
  · next place found =>
      split
      · exact .refl grounded []
      · next missing =>
          have around := grounded.around found missing
          have ticked := Grows.tick grounded []
          have touched := Grows.touchAbove ticked.grounded around missing
          refine ticked.trans (touched.trans (.set_directory touched.grounded ?_ ?_ _))
          · intro bytes changed file
            cases ((touched.files place nofun bytes changed).mp file).symm.trans missing
          · exact around.imp_right (touched.directories _)

theorem grows_ensureDirectory (grounded : disk.Grounded) (path : Path) :
    Grows [] disk (disk.ensureDirectory path).2 := by
  have made := grows_makeDirectory grounded path
  unfold ensureDirectory
  split
  · next same => exact same ▸ made
  · next same =>
      rw [same] at made
      split <;> exact made

theorem grows_makeWithin (grounded : disk.Grounded) (fuel : Nat) (path : Path) :
    Grows [] disk (disk.makeWithin fuel path).2 := by
  induction fuel generalizing disk path with
  | zero => exact .refl grounded []
  | succ fuel ih =>
      have made := grows_makeDirectory grounded path
      unfold makeWithin
      split
      · exact .refl grounded []
      · split
        · next same => exact same ▸ made
        · next same =>
            rw [same] at made
            split
            · exact made
            · next parent _ =>
                have above := ih made.grounded parent
                split
                · next same => exact made.trans (same ▸ above)
                · next same =>
                    rw [same] at above
                    exact (made.trans above).trans (grows_ensureDirectory above.grounded path)
        · next same =>
            rw [same] at made
            split <;> exact made

theorem grows_makeDirectories (grounded : disk.Grounded) (path : Path) :
    Grows [] disk (Volume.makeDirectories disk path).2 :=
  grows_makeWithin grounded path.length path

/-! ### Files after a change -/

theorem Grounded.directory_of_below (grounded : disk.Grounded) {rest : Place} (some : rest ≠ [])
    {entry : DiskEntry} (here : disk.at? (place ++ rest) = Option.some entry) :
    disk.HasDirectory place := by
  induction rest using List.reverseRecOn generalizing entry with
  | nil => exact absurd rfl some
  | append_singleton front last ih =>
      rw [← List.append_assoc] at here
      have around := grounded _ _ here
      rw [above, List.dropLast_concat] at around
      by_cases empty : front = []
      · rwa [empty, List.append_nil] at around
      · exact around.elim fun _ directory => ih empty directory

theorem Grounded.walks (grounded : disk.Grounded) {steps : List Text} (level : ['.', '.'] ∉ steps)
    (ends : disk.HasDirectory (steps.foldl stepTo place)) : disk.Walks place steps := by
  induction steps using List.reverseRecOn with
  | nil => trivial
  | append_singleton front step ih =>
      have before : disk.HasDirectory (front.foldl stepTo place) := by
        rw [List.foldl_append, List.foldl_cons, List.foldl_nil, stepTo] at ends
        split at ends
        · exact ends
        · split at ends
          · next up => exact absurd (up ▸ List.mem_concat_self ..) level
          · exact ends.elim fun _ here => grounded.directory_of_below (List.cons_ne_nil step []) here
      exact walks_append.mpr ⟨ih (mt (List.mem_append_left _) level) before, before, trivial⟩

variable {touched : List Place}

/-- A way without two dots to a file that stays is there before when it is there after. -/
theorem Grounded.walks_of_later (grounded : disk.Grounded) {steps : List Text}
    (level : ['.', '.'] ∉ steps) {entry : DiskEntry}
    (before : disk.at? (steps.foldl stepTo place) = some entry)
    (after : later.at? (steps.foldl stepTo place) = some (.file bytes changed))
    (walks : later.Walks place steps) : disk.Walks place steps := by
  induction steps using List.reverseRecOn with
  | nil => trivial
  | append_singleton front step _ =>
      -- The last step went down, as the file is no directory, and so from the directory around it.
      obtain ⟨_, ⟨moment, here⟩, -⟩ := walks_append.mp walks
      have last : disk.HasDirectory (front.foldl stepTo place) := by
        rw [List.foldl_append, List.foldl_cons, List.foldl_nil, stepTo] at before after
        split at after
        · cases here.symm.trans after
        · next stays =>
            split at after
            · next up => exact absurd (up ▸ List.mem_concat_self ..) level
            · next up =>
                rw [if_neg stays, if_neg up] at before
                exact grounded.directory_of_below (List.cons_ne_nil step []) before
      exact walks_append.mpr
        ⟨grounded.walks (mt (List.mem_append_left _) level) last, last, trivial⟩

theorem Grows.file?_of_some (grows : Grows touched disk later) (outside : leads path ∉ touched)
    {file : Bytes × Nat} (here : disk.file? path = some file) : later.file? path = some file := by
  obtain ⟨nonempty, plain, walks, entry⟩ := file?_eq_some.mp here
  exact file?_eq_some.mpr ⟨nonempty, plain, walks.mono grows.directories,
    (grows.files _ outside ..).mpr entry⟩

/-- A path leads to the same file, or to none, when the way to a file was there before. -/
theorem Grows.file?_eq (grows : Grows touched disk later) (outside : leads path ∉ touched)
    (way : ∀ bytes changed, disk.at? (leads path) = some (.file bytes changed) →
      later.at? (leads path) = some (.file bytes changed) →
      later.Walks (base path) (stepsOf path) → disk.Walks (base path) (stepsOf path)) :
    later.file? path = disk.file? path := by
  cases there : later.file? path with
  | some file =>
      obtain ⟨nonempty, plain, walks, entry⟩ := file?_eq_some.mp there
      have before := (grows.files _ outside ..).mp entry
      exact (file?_eq_some.mpr ⟨nonempty, plain, way _ _ before entry walks, before⟩).symm
  | none =>
      cases here : disk.file? path with
      | none => rfl
      | some file => exact there.symm.trans (grows.file?_of_some outside here)

end PhpWeave.Disk
