import PhpWeave.Proofs.Load.Keeping
import PhpWeave.Proofs.Load.Project

set_option autoImplicit false

/-!
What the key of an entry tells of a chain: its names with every comma in a name taken for the end of
one. Names that are not empty and have no comma are told by it; other lists of names may share a key,
and then the entries of one chain are served to the other.
-/

namespace PhpWeave

namespace Cache

open OnDisk

variable {σ : Type} [Volume σ] [OnDisk σ] [MetadataFormat] {cache : Cache} {volume : σ}
  {source : Path} {key text : Text}

theorem key_of_put (grounded : (disk volume).Grounded)
    (read : Metadata.RoundTrips ⟨key, source⟩) {woven : Path}
    (stored : (cache.put volume source key text).1 = .ok woven) {asked found : Text}
    (served : cache.get? (cache.put volume source key text).2 source asked = some found) :
    asked = key := by
  have put := put_cases cache grounded source key text
  rw [stored] at put
  cases put with
  | stored grows metadata _ =>
      obtain ⟨_, _, written, _, entry, -, -, here, decoded, rfl⟩ := exists_files_of_get? served
      cases metadata.symm.trans here
      cases read.symm.trans decoded
      rfl

end Cache

namespace Loader

open OnDisk

instance (name : Text) : Decidable (IsPlain name) := inferInstanceAs (Decidable (_ ∧ _))

/-- The names that a key seems to be made of. -/
def segments (names : List Text) : List Text :=
  if names = [] then [[]] else names.flatMap (Text.splitAt ',')

theorem splitAt_joinWith_names (names : List Text) :
    Text.splitAt ',' (Text.joinWith [','] names) = segments names := by
  unfold segments
  split
  · next none => rw [none]; rfl
  · next some => exact Text.splitAt_joinWith_eq ',' some

theorem keyOf_eq_iff {names others : List Text} :
    keyOf names = keyOf others ↔ segments names = segments others := by
  rw [keyOf, keyOf, List.append_cancel_left_eq, List.cons_inj_right, ← splitAt_joinWith_names,
    ← splitAt_joinWith_names]
  exact ⟨congrArg _, Text.splitAt_injective⟩

/-- Two chains share a key just when the names of both come to the same when cut at commas. Chains
with plain names share one only if their names are the same. An entry that was put for one chain is
served to another as it would be to the one, or not at all. -/
theorem served_by_segments {ω : Type} (loader other : Loader ω) :
    (loader.cacheKey = other.cacheKey ↔
      segments loader.chain.names = segments other.chain.names) ∧
    ((∀ name ∈ loader.chain.names ++ other.chain.names, IsPlain name) →
      loader.chain.names ≠ other.chain.names → loader.cacheKey ≠ other.cacheKey) ∧
    ∀ [MetadataFormat] {σ : Type} [Volume σ] [OnDisk σ] (cache : Cache) (volume : σ)
      (source : Path) (text : Text),
      (disk volume).Grounded → Metadata.RoundTrips ⟨loader.cacheKey, source⟩ →
      ∀ woven, (cache.put volume source loader.cacheKey text).1 = .ok woven →
        cache.get? (cache.put volume source loader.cacheKey text).2 source other.cacheKey =
          if segments loader.chain.names = segments other.chain.names then
            cache.get? (cache.put volume source loader.cacheKey text).2 source loader.cacheKey
          else none := by
  have told : loader.cacheKey = other.cacheKey ↔
      segments loader.chain.names = segments other.chain.names := keyOf_eq_iff
  refine ⟨told, fun plain different same => different ?_, ?_⟩
  · exact keyOf_injective (fun name member => plain name (List.mem_append_left _ member))
      (fun name member => plain name (List.mem_append_right _ member)) same
  · intro _ σ _ _ cache volume source text grounded read woven stored
    split
    · next same => rw [told.mpr same]
    · next different =>
        cases served : cache.get? (cache.put volume source loader.cacheKey text).2 source
            other.cacheKey with
        | none => rfl
        | some found =>
            have same := Cache.key_of_put grounded read stored served
            exact absurd (told.mp same.symm) different

/-- A loader of a cache of its own, with some weavers. -/
def ofWeavers (weavers : List (Text × StandardWeaver)) : Loader StandardWeaver :=
  ⟨{ cacheDirectory := "cache" },
    weavers.foldl (fun chain entry => chain.add entry.1 entry.2) {}⟩

/-- A chain is not served what was put for the chain before another weaver was added. -/
theorem served_by_segments_added :
    let one := ofWeavers [("final", .unsealing {})]
    let two := ofWeavers [("final", .unsealing {}), ("quit", .exitHook {})]
    one.cacheKey ≠ two.cacheKey ∧
      one.cache.get? (one.cache.put Disk.empty "a.php" one.cacheKey "old").2 "a.php"
        two.cacheKey = none := by
  intro one two
  obtain ⟨-, plain, served⟩ := served_by_segments one two
  have stored : (one.cache.put Disk.empty "a.php" one.cacheKey "old").1 =
      .ok "cache/a.php".toList := by
    decide +kernel
  refine ⟨plain (by decide +kernel) (by decide +kernel), ?_⟩
  have read : Metadata.RoundTrips ⟨one.cacheKey, "a.php"⟩ :=
    Metadata.roundTrips_of_short (by decide +kernel) (by decide +kernel)
  rw [served one.cache Disk.empty "a.php" "old" Disk.grounded_empty read _ stored]
  exact if_neg (by decide +kernel)

/-- A name with a comma: the second chain is served what the first wove, though it weaves something
else itself. -/
theorem comma_confuses_chains :
    let one := ofWeavers [("final,quit", .unsealing {})]
    let two := ofWeavers [("final", .unsealing {}), ("quit", .exitHook {})]
    let disk := (Volume.write Disk.empty "a.php" (Utf8.encode "<?php exit;".toList)).2
    one.chain.names ≠ two.chain.names ∧ one.cacheKey = two.cacheKey ∧
      (two.loadFile (one.loadFile disk "a.php").2.2 "a.php").1 ≠ (two.loadFile disk "a.php").1 := by
  decide +kernel

end Loader
end PhpWeave
