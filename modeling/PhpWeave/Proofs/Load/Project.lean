import PhpWeave.Proofs.Load.Shelf
import PhpWeave.Proofs.Weave.Steady

set_option autoImplicit false

/-!
Entries that are right. A project is what stays the same while a loader works on it. An entry of its
cache does not hold the text that it was made of. That it is still right follows from its moment, as
long as a change of the file comes after all moments before it, and from its key, as long as the key
tells the names of the chain and a name always stands for the same weaver.
-/

namespace PhpWeave

namespace Loader

def keyOf (names : List Text) : Text := release ++ ':' :: Text.joinWith [','] names

/-- Whether a name leaves keys readable. -/
def IsPlain (name : Text) : Prop := name ≠ [] ∧ ',' ∉ name

theorem keyOf_injective {names others : List Text} (plain : ∀ name ∈ names, IsPlain name)
    (otherPlain : ∀ name ∈ others, IsPlain name) (same : keyOf names = keyOf others) :
    names = others := by
  rw [keyOf, keyOf, List.append_cancel_left_eq, List.cons.injEq] at same
  exact Text.joinWith_injective plain otherPlain same.2

end Loader

/-- What stays the same while a loader works: its settings, the files that it loads, none of which
lies in the cache or where the metadata of another would, and what each name stands for. -/
structure Project where
  settings : LoaderSettings
  isSource : Path → Prop
  weaver : Text → StandardWeaver
  normal : ∀ path, isSource path → path.IsNormal
  outside : ∀ path, isSource path →
    ¬ Path.parts settings.cacheDirectory <+: Path.parts path
  apart : ∀ path other, isSource path → isSource other → path ≠ Cache.metadataPath other

namespace Project

open PhpWeave.Path PhpWeave.Cache

variable (project : Project)

def cache : Cache := ⟨project.settings.cacheDirectory, project.settings.watched⟩

/-! ### Chains -/

def chainOf (names : List Text) : Chain StandardWeaver :=
  ⟨names.map fun name => (name, (project.weaver name).settings)⟩

def Binds (chain : Chain StandardWeaver) : Prop :=
  ∀ entry ∈ chain.entries,
    Loader.IsPlain entry.1 ∧ entry.2.settings = (project.weaver entry.1).settings

variable {project} {chain : Chain StandardWeaver}

theorem Binds.plain (binds : project.Binds chain) : ∀ name ∈ chain.names, Loader.IsPlain name := by
  intro name member
  obtain ⟨entry, among, rfl⟩ := List.mem_map.mp member
  exact (binds entry among).1

theorem Binds.weave_eq (binds : project.Binds chain) (source : Text) (file : Option Path) :
    ((project.chainOf chain.names).weave source file).1 = (chain.weave source file).1 := by
  have same : project.chainOf chain.names = chain.settings := by
    refine congrArg Chain.mk ?_
    rw [Chain.names, List.map_map]
    exact List.map_congr_left fun entry member =>
      congrArg (Prod.mk entry.1) (binds entry member).2.symm
  rw [same, Chain.weave_settings]

theorem Binds.add (binds : project.Binds chain) {name : Text} (plain : Loader.IsPlain name)
    {weaver : StandardWeaver} (stands : weaver.settings = (project.weaver name).settings) :
    project.Binds (chain.add name weaver) := by
  have among (entries : List (Text × StandardWeaver)) (entry : Text × StandardWeaver)
      (member : entry ∈ Chain.put name weaver entries) :
      entry = (name, weaver) ∨ entry ∈ entries := by
    induction entries with
    | nil => exact .inl (List.mem_singleton.mp member)
    | cons first rest ih =>
        rw [Chain.put] at member
        split at member
        · exact (List.mem_cons.mp member).imp_right (List.mem_cons_of_mem first)
        · rcases List.mem_cons.mp member with rfl | later
          · exact .inr List.mem_cons_self
          · exact (ih later).imp_right (List.mem_cons_of_mem first)
  intro entry member
  rcases among chain.entries entry member with rfl | old
  · exact ⟨plain, stands⟩
  · exact binds entry old

theorem Binds.remove (binds : project.Binds chain) (name : Text) :
    project.Binds (chain.remove name) :=
  fun entry member => binds entry (List.mem_of_mem_eraseP member)

theorem Binds.weave (binds : project.Binds chain) (source : Text) (file : Option Path) :
    project.Binds (chain.weave source file).2 := by
  have same : Chain.settingsOf (chain.weave source file).2.entries =
      Chain.settingsOf chain.entries :=
    congrArg Chain.entries (Chain.settings_weave chain source file)
  intro entry member
  have kept : (entry.1, entry.2.settings) ∈ Chain.settingsOf chain.entries :=
    same ▸ List.mem_map_of_mem member
  obtain ⟨before, among, told⟩ := List.mem_map.mp kept
  obtain ⟨named, settings⟩ := Prod.mk.inj told
  rw [← named, ← settings]
  exact binds before among

/-! ### Places -/

section Places

variable {path other : Path}

theorem below_pathOf (path : Path) :
    parts project.settings.cacheDirectory <+: parts (project.cache.pathOf path) :=
  ⟨_, (parts_pathOf project.cache path).symm⟩

theorem below_metadataPath (source : project.isSource path) :
    parts project.settings.cacheDirectory <+:
      parts (metadataPath (project.cache.pathOf path)) := by
  rw [(metadataPath_pathOf project.cache (project.normal path source)).2]
  exact below_pathOf _

theorem woven_ne (source : project.isSource path) (otherSource : project.isSource other)
    (different : path ≠ other) :
    parts (project.cache.pathOf path) ≠ parts (project.cache.pathOf other) :=
  fun same => different (pathOf_injective project.cache (project.normal path source)
    (project.normal other otherSource) same)

theorem woven_ne_metadata (source : project.isSource path) (otherSource : project.isSource other) :
    parts (project.cache.pathOf path) ≠
      parts (metadataPath (project.cache.pathOf other)) := by
  obtain ⟨normal, lies⟩ := metadataPath_pathOf project.cache (project.normal other otherSource)
  rw [lies]
  intro same
  exact project.apart path other source otherSource
    (pathOf_injective project.cache (project.normal path source) normal same)

theorem metadata_ne (source : project.isSource path) (otherSource : project.isSource other)
    (different : path ≠ other) :
    parts (metadataPath (project.cache.pathOf path)) ≠
      parts (metadataPath (project.cache.pathOf other)) := by
  obtain ⟨normal, lies⟩ := metadataPath_pathOf project.cache (project.normal path source)
  obtain ⟨otherNormal, otherLies⟩ :=
    metadataPath_pathOf project.cache (project.normal other otherSource)
  rw [lies, otherLies]
  exact fun same => different (List.append_cancel_right
    (pathOf_injective project.cache normal otherNormal same))

theorem ne_of_below {outer inner : Path}
    (outside : ¬ parts project.settings.cacheDirectory <+: parts outer)
    (below : parts project.settings.cacheDirectory <+: parts inner) : parts inner ≠ parts outer :=
  fun same => outside (same ▸ below)

end Places

/-! ### Entries -/

variable [MetadataFormat] (project)

/-- An entry of the cache for a source: some names tell the chain that made it, and it was made of
the text that the source has, unless the source was changed since. -/
structure Entry (shelf : Shelf) (path : Path) (moment : Nat) (names : List Text) (text : Text) :
    Prop where
  plain : ∀ name ∈ names, Loader.IsPlain name
  keyed : metadata? shelf (project.cache.pathOf path) = some ⟨Loader.keyOf names, path⟩
  made : ∀ source changed, shelf.at? path = some (source, changed) → changed ≤ moment →
    ∃ written, Utf8.decode source = some written ∧
      ((project.chainOf names).weave written (some path)).1 = .ok text

/-- Whether all that the cache has for a source is such an entry. -/
def Faithful (shelf : Shelf) (path : Path) : Prop :=
  ∀ bytes moment, shelf.at? (project.cache.pathOf path) = some (bytes, moment) →
    ∃ names text, bytes = Utf8.encode text ∧ project.Entry shelf path moment names text

variable {project} {shelf : Shelf} {path other : Path}

theorem Entry.congr {later : Shelf} {moment : Nat} {names : List Text} {text : Text}
    (entry : project.Entry shelf path moment names text)
    (metadata : later.at? (metadataPath (project.cache.pathOf path)) =
      shelf.at? (metadataPath (project.cache.pathOf path)))
    (source : ∀ bytes changed, later.at? path = some (bytes, changed) → changed ≤ moment →
      shelf.at? path = some (bytes, changed)) :
    project.Entry later path moment names text where
  plain := entry.plain
  keyed := by
    rw [← entry.keyed, metadata?, metadata?, Shelf.read_congr metadata]
  made bytes changed here early := entry.made bytes changed (source bytes changed here early) early

/-- A file changed outside of the cache makes no entry wrong: the change is later than all entries. -/
theorem Faithful.set (faithful : project.Faithful shelf path) (timely : shelf.Timely)
    (source : project.isSource path)
    (outside : ¬ parts project.settings.cacheDirectory <+: parts other) (bytes : Option Bytes) :
    project.Faithful (shelf.set other bytes) path := by
  intro woven moment here
  rw [shelf.at?_set_of_ne _ _ (ne_of_below outside (below_pathOf path))] at here
  obtain ⟨names, text, spelled, entry⟩ := faithful woven moment here
  refine ⟨names, text, spelled, entry.congr ?_ fun written changed now early => ?_⟩
  · exact shelf.at?_set_of_ne _ _ (ne_of_below outside (below_metadataPath source))
  · by_cases same : parts path = parts other
    · rw [Shelf.at?, same] at now
      obtain ⟨one, -, file⟩ := Option.map_eq_some_iff.mp ((shelf.at?_set_self other bytes).symm.trans
        now)
      have before := timely _ _ _ here
      obtain ⟨-, rfl⟩ := Prod.mk.inj file
      omega
    · rwa [shelf.at?_set_of_ne _ _ same] at now

section Stored

variable {key text : Text}

theorem stored_at_source (source : project.isSource path) (otherSource : project.isSource other) :
    (project.cache.stored shelf other key text).at? path = shelf.at? path := by
  have outside := project.outside path source
  rw [stored, Shelf.at?_set_of_ne _ _ _ (ne_of_below outside (below_pathOf other)).symm,
    Shelf.at?_set_of_ne _ _ _ (ne_of_below outside (below_metadataPath otherSource)).symm]

theorem stored_at_woven (path : Path) :
    (project.cache.stored shelf path key text).at? (project.cache.pathOf path) =
      some (Utf8.encode text, shelf.clock + 2) :=
  Shelf.at?_set_self _ _ _

theorem stored_at_metadata (source : project.isSource path) :
    (project.cache.stored shelf path key text).at? (metadataPath (project.cache.pathOf path)) =
      some (MetadataFormat.encode ⟨key, path⟩, shelf.clock + 1) := by
  rw [stored, Shelf.at?_set_of_ne _ _ _ (woven_ne_metadata source source).symm, Shelf.at?_set_self]
  rfl

theorem Faithful.stored (faithful : project.Faithful shelf path) (source : project.isSource path)
    (otherSource : project.isSource other) (different : path ≠ other) :
    project.Faithful (project.cache.stored shelf other key text) path := by
  intro bytes moment here
  rw [Cache.stored, Shelf.at?_set_of_ne _ _ _ (woven_ne source otherSource different),
    Shelf.at?_set_of_ne _ _ _ (woven_ne_metadata source otherSource)] at here
  obtain ⟨names, woven, spelled, entry⟩ := faithful bytes moment here
  refine ⟨names, woven, spelled, entry.congr ?_ fun written changed now _ => ?_⟩
  · rw [Cache.stored, Shelf.at?_set_of_ne _ _ _ (woven_ne_metadata otherSource source).symm,
      Shelf.at?_set_of_ne _ _ _ (metadata_ne source otherSource different)]
  · rwa [stored_at_source source otherSource] at now

theorem faithful_stored (binds : project.Binds chain) (source : project.isSource path)
    (roundTrips : Metadata.RoundTrips ⟨Loader.keyOf chain.names, path⟩) {written : Text}
    (read : Volume.readText shelf path = .ok written)
    (made : (chain.weave written (some path)).1 = .ok text) :
    project.Faithful (project.cache.stored shelf path (Loader.keyOf chain.names) text) path := by
  intro bytes moment here
  rw [stored_at_woven] at here
  obtain ⟨rfl, rfl⟩ := Prod.mk.inj (Option.some.inj here)
  refine ⟨chain.names, text, rfl, binds.plain, ?_, fun bytes changed now _ => ?_⟩
  · rw [metadata?, Shelf.read_of_at? (stored_at_metadata source)]
    exact roundTrips
  · rw [stored_at_source source source] at now
    refine ⟨written, ?_, (binds.weave_eq written (some path)).trans made⟩
    rw [Volume.readText, Shelf.read_of_at? now] at read
    simp only at read
    split at read
    · cases read
    · next found =>
        cases read
        exact found

end Stored

end Project
end PhpWeave
