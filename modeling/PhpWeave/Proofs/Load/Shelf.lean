import PhpWeave.Load.Loader
import PhpWeave.Proofs.Load.Location

set_option autoImplicit false

/-!
A volume that is nothing but a map from paths to files, and what the cache and the loader do with it.
Paths with the same parts are the same; every change of a file has a moment of its own, later than
all before it; writing never fails, and there are no directories to be made first.
-/

namespace PhpWeave

/-- Files with the moments of their last changes, and the last of all moments. -/
structure Shelf where
  files : List Path.Part → Option (Bytes × Nat) := fun _ => none
  clock : Nat := 0

namespace Shelf

def at? (shelf : Shelf) (path : Path) : Option (Bytes × Nat) := shelf.files (Path.parts path)

def set (shelf : Shelf) (path : Path) (bytes : Option Bytes) : Shelf where
  files place :=
    if place = Path.parts path then bytes.map fun bytes => (bytes, shelf.clock + 1)
    else shelf.files place
  clock := shelf.clock + 1

def read (shelf : Shelf) (path : Path) : Except FileError Bytes :=
  match shelf.at? path with
  | none => .error .missing
  | some file => .ok file.1

def removeTree (shelf : Shelf) (path : Path) : Shelf :=
  { shelf with
    files := fun place =>
      if (Path.parts path).isPrefixOf place then none else shelf.files place }

instance : Volume Shelf where
  changed? shelf path := (shelf.at? path).map Prod.snd
  read := read
  write shelf path bytes := (.ok (), shelf.set path (some bytes))
  makeDirectories shelf _ := (.ok (), shelf)
  removeTree shelf path := (.ok (), shelf.removeTree path)

variable (shelf : Shelf) (path : Path) (bytes : Option Bytes)

theorem at?_set_self :
    (shelf.set path bytes).at? path = bytes.map fun bytes => (bytes, shelf.clock + 1) :=
  if_pos rfl

theorem at?_set_of_ne {other : Path} (apart : Path.parts other ≠ Path.parts path) :
    (shelf.set path bytes).at? other = shelf.at? other :=
  if_neg apart

theorem read_of_at? {shelf : Shelf} {path : Path} {file : Bytes × Nat}
    (here : shelf.at? path = some file) : Volume.read shelf path = .ok file.1 := by
  change Shelf.read shelf path = _
  rw [Shelf.read, here]

theorem readText_of_at? {shelf : Shelf} {path : Path} {bytes : Bytes} {moment : Nat}
    (here : shelf.at? path = some (bytes, moment)) {text : Text}
    (spelled : Utf8.decode bytes = some text) : Volume.readText shelf path = .ok text := by
  rw [Volume.readText, read_of_at? here]
  simp only [spelled]

theorem read_congr {shelf other : Shelf} {path : Path} (same : other.at? path = shelf.at? path) :
    Volume.read other path = Volume.read shelf path := by
  change Shelf.read other path = Shelf.read shelf path
  rw [Shelf.read, Shelf.read, same]

/-- Whether no file was changed after the last of all moments. -/
def Timely (shelf : Shelf) : Prop :=
  ∀ place bytes moment, shelf.files place = some (bytes, moment) → moment ≤ shelf.clock

theorem Timely.set {shelf : Shelf} (timely : shelf.Timely) (path : Path) (bytes : Option Bytes) :
    (shelf.set path bytes).Timely := by
  intro place written moment here
  change (if place = Path.parts path then _ else _) = _ at here
  split at here
  · obtain ⟨one, -, same⟩ := Option.map_eq_some_iff.mp here
    exact Nat.le_of_eq (Prod.mk.inj same).2.symm
  · exact Nat.le_succ_of_le (timely place written moment here)

end Shelf

/-! ### The cache -/

namespace Cache

variable [MetadataFormat]

section Volume

variable {σ : Type} [Volume σ]

/-- What is served was put under the key, and nothing changed since. -/
theorem get?_eq_some {cache : Cache} {volume : σ} {source : Path} {key text : Text}
    (served : cache.get? volume source key = some text) :
    ∃ moment, Volume.changed? volume (cache.pathOf source) = some moment ∧
      (∀ path ∈ source :: cache.watched, changedAfter volume moment path = false) ∧
      (metadata? volume (cache.pathOf source)).map Metadata.key = some key ∧
      Volume.readText volume (cache.pathOf source) = .ok text := by
  unfold get? at served
  simp only at served
  split at served
  · cases served
  · next moment changed =>
      split at served
      · cases served
      · next fresh =>
          split at served
          · next sameKey =>
              refine ⟨moment, changed, ?_, sameKey, ?_⟩
              · intro path member
                exact Bool.eq_false_iff.mpr fun later =>
                  fresh (List.any_eq_true.mpr ⟨path, member, later⟩)
              · cases read : Volume.readText volume (cache.pathOf source) with
                | error failure =>
                    rw [read] at served
                    cases served
                | ok found =>
                    rw [read] at served
                    exact congrArg Except.ok (Option.some.inj served)
          · cases served

end Volume

def stored (cache : Cache) (shelf : Shelf) (source : Path) (key text : Text) : Shelf :=
  (shelf.set (metadataPath (cache.pathOf source)) (some (MetadataFormat.encode ⟨key, source⟩))).set
    (cache.pathOf source) (some (Utf8.encode text))

theorem put_shelf (cache : Cache) (shelf : Shelf) (source : Path) (key text : Text) :
    cache.put shelf source key text =
      (.ok (cache.pathOf source), cache.stored shelf source key text) := by
  have room : makeRoom shelf (cache.pathOf source) = (.ok (), shelf) := by
    unfold makeRoom
    split <;> rfl
  unfold put
  simp only [room]
  rfl

end Cache

/-! ### The loader -/

namespace Loader

/-- What a loader does with a file: it serves what is fresh, else it weaves the file as it is now and
puts the woven text in the cache. -/
theorem loadFile_shelf [MetadataFormat] {ω : Type} [Weaver ω] (loader : Loader ω) (shelf : Shelf)
    (path : Path) :
    loader.loadFile shelf path =
      match loader.cache.get? shelf path loader.cacheKey with
      | some text => (.ok text, loader, shelf)
      | none =>
        match readSource shelf path with
        | .error error => (.error error, loader, shelf)
        | .ok source =>
          match loader.weaveSource source (some path) with
          | (.error error, loader) => (.error error, loader, shelf)
          | (.ok text, woven) =>
            (.ok text, woven, loader.cache.stored shelf path loader.cacheKey text) := by
  unfold loadFile
  cases loader.cache.get? shelf path loader.cacheKey with
  | some text => rfl
  | none =>
      cases read : readSource shelf path with
      | error error => simp [weaveFile, read]
      | ok source =>
          rcases woven : loader.weaveSource source (some path) with ⟨error | text, after⟩
          · simp [weaveFile, read, woven]
          · simp [weaveFile, read, woven, Cache.put_shelf]

end Loader
end PhpWeave
