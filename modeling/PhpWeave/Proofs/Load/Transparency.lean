import PhpWeave.Proofs.Load.Project

set_option autoImplicit false

/-!
The cache shows in no answer. While files are edited, weavers come and go and the loader loads, every
entry of the cache stays right, so what the loader gives for a file is what its chain makes of the
text that the file has.
-/

namespace PhpWeave

/-- A loader at work, with the files around it. -/
structure Session where
  loader : Loader StandardWeaver
  shelf : Shelf

namespace Loader

theorem ok_of_mapError {ε φ α : Type} {f : ε → φ} {result : Except ε α} {value : α}
    (mapped : result.mapError f = .ok value) : result = .ok value := by
  cases result with
  | error => cases mapped
  | ok => exact congrArg Except.ok (Except.ok.inj mapped)

theorem readSource_eq {σ : Type} [Volume σ] (volume : σ) (path : Path) :
    readSource volume path =
      (Volume.readText volume path).mapError fun failure => .store (.unreadable path failure) := by
  unfold readSource
  cases Volume.readText volume path <;> rfl

theorem weaveSource_eq (loader : Loader StandardWeaver) (source : Text) (file : Option Path) :
    loader.weaveSource source file =
      ((loader.chain.weave source file).1.mapError (.unwoven (file.getD [])),
        { loader with chain := (loader.chain.weave source file).2 }) := by
  unfold weaveSource
  rcases loader.chain.weave source file with ⟨fault | text, chain⟩
  · rfl
  · rfl

end Loader

namespace Session

/-- What happens in a session. -/
inductive Action where
  /-- A file gets new bytes, or goes away. -/
  | edit (path : Path) (bytes : Option Bytes)
  /-- Some moments go by. -/
  | wait (moments : Nat)
  | add (name : Text) (weaver : StandardWeaver)
  | remove (name : Text)
  | load (path : Path)

def withChain (session : Session) (chain : Chain StandardWeaver) : Session :=
  { session with loader := { session.loader with chain := chain } }

section
variable [MetadataFormat]

def act (session : Session) : Action → Session
  | .edit path bytes => { session with shelf := session.shelf.set path bytes }
  | .wait moments =>
    { session with shelf := { session.shelf with clock := session.shelf.clock + moments } }
  | .add name weaver => session.withChain (session.loader.chain.add name weaver)
  | .remove name => session.withChain (session.loader.chain.remove name)
  | .load path => ⟨(session.loader.loadFile session.shelf path).2.1,
      (session.loader.loadFile session.shelf path).2.2⟩

/-- Whether an action may happen in a session about a project: files are edited outside of the cache
only, a name gets the weaver that it stands for, whatever that weaver counted, and only sources are
loaded, whose metadata can be read back. -/
def Allows (session : Session) (project : Project) : Action → Prop
  | .edit path _ => ¬ Path.parts project.settings.cacheDirectory <+: Path.parts path
  | .wait _ | .remove _ => True
  | .add name weaver =>
    Loader.IsPlain name ∧ weaver.settings = (project.weaver name).settings
  | .load path =>
    project.isSource path ∧ Metadata.RoundTrips ⟨session.loader.cacheKey, path⟩

/-- The sessions about a project. They begin with no file and no weaver: those that are there before
anything is loaded are edited and added first. -/
inductive Reached (project : Project) : Session → Prop where
  | start : Reached project ⟨⟨project.settings, {}⟩, {}⟩
  | act {session : Session} {action : Action} (reached : Reached project session)
      (allowed : session.Allows project action) : Reached project (session.act action)

structure Sound (project : Project) (session : Session) : Prop where
  settings : session.loader.settings = project.settings
  binds : project.Binds session.loader.chain
  timely : session.shelf.Timely
  faithful : ∀ path, project.isSource path → project.Faithful session.shelf path

variable {project : Project} {session : Session}

namespace Sound

theorem start : Sound project ⟨⟨project.settings, {}⟩, {}⟩ where
  settings := rfl
  binds := fun _ none => nomatch none
  timely := fun _ _ _ none => nomatch none
  faithful := fun _ _ _ _ none => nomatch none

theorem cache (sound : Sound project session) : session.loader.cache = project.cache := by
  rw [Loader.cache, sound.settings]
  rfl

theorem edit (sound : Sound project session) {path : Path} (bytes : Option Bytes)
    (outside : ¬ Path.parts project.settings.cacheDirectory <+: Path.parts path) :
    Sound project (session.act (.edit path bytes)) where
  settings := sound.settings
  binds := sound.binds
  timely := sound.timely.set path bytes
  faithful source isSource := (sound.faithful source isSource).set sound.timely isSource outside bytes

theorem wait (sound : Sound project session) (moments : Nat) :
    Sound project (session.act (.wait moments)) where
  settings := sound.settings
  binds := sound.binds
  timely place bytes moment here :=
    Nat.le_add_right_of_le (sound.timely place bytes moment here)
  faithful path isSource bytes moment here := by
    obtain ⟨names, text, spelled, entry⟩ := sound.faithful path isSource bytes moment here
    exact ⟨names, text, spelled, entry.congr rfl fun _ _ now _ => now⟩

theorem withChain (sound : Sound project session) {chain : Chain StandardWeaver}
    (binds : project.Binds chain) : Sound project (session.withChain chain) where
  settings := sound.settings
  binds := binds
  timely := sound.timely
  faithful := sound.faithful

theorem stored (sound : Sound project session) {path : Path} (source : project.isSource path)
    (roundTrips : Metadata.RoundTrips ⟨session.loader.cacheKey, path⟩) {written text : Text}
    (read : Volume.readText session.shelf path = .ok written)
    (made : (session.loader.chain.weave written (some path)).1 = .ok text) :
    Sound project
      { session.withChain (session.loader.chain.weave written (some path)).2 with
        shelf := session.loader.cache.stored session.shelf path session.loader.cacheKey text } where
  settings := sound.settings
  binds := sound.binds.weave written (some path)
  timely := (sound.timely.set _ _).set _ _
  faithful other isSource := by
    rw [sound.cache]
    by_cases same : other = path
    · rw [same]
      exact Project.faithful_stored sound.binds source roundTrips read made
    · exact (sound.faithful other isSource).stored isSource source same

theorem load (sound : Sound project session) {path : Path} (source : project.isSource path)
    (roundTrips : Metadata.RoundTrips ⟨session.loader.cacheKey, path⟩) :
    Sound project (session.act (.load path)) := by
  rw [act, Loader.loadFile_shelf]
  split
  · exact sound
  · split
    · exact sound
    · next written read =>
        have text : Volume.readText session.shelf path = .ok written :=
          Loader.ok_of_mapError ((Loader.readSource_eq ..).symm.trans read)
        have woven := sound.withChain (sound.binds.weave written (some path))
        rw [Loader.weaveSource_eq]
        split
        · next failed =>
            obtain ⟨-, rfl⟩ := Prod.mk.inj failed
            exact woven
        · next made =>
            obtain ⟨whole, rfl⟩ := Prod.mk.inj made
            exact sound.stored source roundTrips text (Loader.ok_of_mapError whole)

end Sound

theorem sound_of_reached (reached : Reached project session) : Sound project session := by
  induction reached with
  | start => exact .start
  | @act session action _ allowed sound =>
      cases action with
      | edit path bytes => exact sound.edit bytes allowed
      | wait moments => exact sound.wait moments
      | add name weaver => exact sound.withChain (sound.binds.add allowed.1 allowed.2)
      | remove name => exact sound.withChain (sound.binds.remove name)
      | load path => exact sound.load allowed.1 allowed.2

/-- What the cache serves for a source that is there is what the chain makes of it. -/
theorem Sound.served (sound : Sound project session) {path : Path} (source : project.isSource path)
    (there : Volume.has session.shelf path = true) {text : Text}
    (served : session.loader.cache.get? session.shelf path session.loader.cacheKey = some text) :
    ∃ written, Volume.readText session.shelf path = .ok written ∧
      (session.loader.chain.weave written (some path)).1 = .ok text := by
  obtain ⟨stamp, changed, fresh, keyed, read⟩ := Cache.get?_eq_some served
  rw [sound.cache] at changed keyed read
  obtain ⟨⟨bytes, moment⟩, here, rfl⟩ := Option.map_eq_some_iff.mp changed
  obtain ⟨⟨now, last⟩, file⟩ : ∃ file, session.shelf.at? path = some file := by
    obtain ⟨last, known⟩ := Option.isSome_iff_exists.mp there
    obtain ⟨file, known, -⟩ := Option.map_eq_some_iff.mp known
    exact ⟨file, known⟩
  obtain ⟨names, woven, spelled, entry⟩ := sound.faithful path source bytes moment here
  have sameText : woven = text := by
    rw [Shelf.readText_of_at? here (spelled ▸ Utf8.decode_encode woven)] at read
    exact Except.ok.inj read
  have sameNames : names = session.loader.chain.names := by
    rw [entry.keyed] at keyed
    exact Loader.keyOf_injective entry.plain sound.binds.plain (Option.some.inj keyed)
  have early : last ≤ moment := by
    have notAfter := fresh path List.mem_cons_self
    change ((session.shelf.at? path).map Prod.snd |>.map _).getD false = false at notAfter
    rw [file] at notAfter
    exact Nat.le_of_not_lt (of_decide_eq_false notAfter)
  obtain ⟨written, decoded, made⟩ := entry.made now last file early
  refine ⟨written, Shelf.readText_of_at? file decoded, ?_⟩
  rw [← sameText, ← made, sameNames, sound.binds.weave_eq]

/-- A source that is there is loaded as its chain weaves it now, whatever was cached before and
whatever files are watched. -/
theorem loadFile_of_reached (reached : Reached project session) {path : Path}
    (source : project.isSource path) (there : Volume.has session.shelf path = true) :
    (session.loader.loadFile session.shelf path).1 =
      (Loader.readSource session.shelf path).bind fun written =>
        (session.loader.weaveSource written (some path)).1 := by
  rw [Loader.loadFile_shelf]
  split
  · next text served =>
      obtain ⟨written, read, made⟩ := (sound_of_reached reached).served source there served
      have woven : (session.loader.weaveSource written (some path)).1 = .ok text := by
        rw [Loader.weaveSource_eq]
        exact congrArg (Except.mapError _) made
      rw [Loader.readSource_eq, read]
      exact woven.symm
  · cases read : Loader.readSource session.shelf path with
    | error error => rfl
    | ok written =>
        simp only
        split
        · next failed => exact (congrArg Prod.fst failed).symm
        · next made => exact (congrArg Prod.fst made).symm

end

/-- A file that is edited after it was loaded is loaded as it is then. -/
theorem loadFile_of_reached_edited :
    let path : Path := "/app/a.php"
    let written : Text := "<?php time();"
    ∃ (project : Project) (session : Session), project.isSource path ∧ Reached project session ∧
      Volume.has session.shelf path = true ∧
      (session.loader.loadFile session.shelf path).1 =
        (session.loader.weaveSource written (some path)).1 := by
  intro path written
  have normal : path.IsNormal := by
    refine ⟨["app".toList, "a.php".toList], by decide, fun name member => ?_, rfl⟩
    rcases List.mem_cons.mp member with rfl | last
    · exact ⟨by decide, by decide⟩
    · rw [List.mem_singleton.mp last]
      exact ⟨by decide, by decide⟩
  have outside : ¬ Path.parts "/cache".toList <+: Path.parts path := by decide
  have apart : path ≠ Cache.metadataPath path := by decide
  have roundTrips : Metadata.RoundTrips ⟨Loader.keyOf ["monkey".toList], path⟩ :=
    Metadata.roundTrips_of_short (by decide +kernel) (by decide +kernel)
  let project : Project :=
    { settings := { cacheDirectory := "/cache", watched := ["/app".toList] }
      isSource := (· = path)
      weaver := fun _ => .redirection {}
      normal := fun _ isOne => isOne ▸ normal
      outside := fun _ isOne => isOne ▸ outside
      apart := fun _ _ isOne isOther => isOne ▸ isOther ▸ apart }
  let bound : Session :=
    Session.act ⟨⟨project.settings, {}⟩, {}⟩ (.add "monkey" (.redirection { count := 7 }))
  let first := bound.act (.edit path (some (Utf8.encode "<?php rand();".toList)))
  let loaded := first.act (.load path)
  let session := loaded.act (.edit path (some (Utf8.encode written)))
  have reached : Reached project session := by
    refine .act (.act (.act (.act .start ?_) ?_) ?_) ?_
    · exact ⟨⟨by decide, by decide⟩, rfl⟩
    · exact outside
    · exact ⟨rfl, roundTrips⟩
    · exact outside
  have here : session.shelf.at? path = some (Utf8.encode written, loaded.shelf.clock + 1) :=
    Shelf.at?_set_self _ _ _
  have there : Volume.has session.shelf path = true := by
    change ((session.shelf.at? path).map Prod.snd).isSome = true
    rw [here]
    rfl
  refine ⟨project, session, rfl, reached, there, ?_⟩
  rw [loadFile_of_reached reached rfl there, Loader.readSource_eq,
    Shelf.readText_of_at? here (Utf8.decode_encode written)]
  rfl

end Session
end PhpWeave
