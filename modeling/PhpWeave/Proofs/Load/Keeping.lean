import PhpWeave.Load.Cache
import PhpWeave.Proofs.Load.Ground
import PhpWeave.Proofs.Load.Location
import PhpWeave.Proofs.Load.Shelf

set_option autoImplicit false

/-!
What a cache keeps on a disk, also when writes may be refused. An entry is two files, the woven text
and its metadata, at two different places. Putting an entry changes no other file, and where it fails
tells which of the two it wrote: none, the metadata only, or both.
-/

namespace PhpWeave

/-- Volumes with their files on a disk. A write may fail, and then changes no file. -/
class OnDisk (σ : Type) [Volume σ] where
  disk : σ → Disk
  changed?_eq : ∀ (volume : σ) (path : Path),
    Volume.changed? volume path = Volume.changed? (disk volume) path
  read_eq : ∀ (volume : σ) (path : Path), Volume.read volume path = Volume.read (disk volume) path
  write_cases : ∀ (volume : σ) (path : Path) (bytes : Bytes), (disk volume).Grounded →
    (∃ failure, (Volume.write volume path bytes).1 = .error failure ∧
      Disk.Grows [] (disk volume) (disk (Volume.write volume path bytes).2)) ∨
    (Volume.write volume path bytes).1 = .ok () ∧
      Disk.Grows [Disk.leads path] (disk volume) (disk (Volume.write volume path bytes).2) ∧
      ∃ changed, (disk (Volume.write volume path bytes).2).at? (Disk.leads path) =
        some (.file bytes changed)
  grows_makeDirectories : ∀ (volume : σ) (path : Path), (disk volume).Grounded →
    Disk.Grows [] (disk volume) (disk (Volume.makeDirectories volume path).2)

instance : OnDisk Disk where
  disk := id
  changed?_eq _ _ := rfl
  read_eq _ _ := rfl
  write_cases _ path bytes grounded := Disk.write_cases grounded path bytes
  grows_makeDirectories _ path grounded := Disk.grows_makeDirectories grounded path

/-- A volume on which the next writes may be refused: each in turn, where a failure is listed. -/
structure Unsteady (σ : Type) where
  volume : σ
  refusals : List (Option FileError) := []

namespace Unsteady

variable {σ : Type} [Volume σ]

def write (unsteady : Unsteady σ) (path : Path) (bytes : Bytes) :
    Except FileError Unit × Unsteady σ :=
  match unsteady.refusals.head?.join with
  | some failure => (.error failure, { unsteady with refusals := unsteady.refusals.tail })
  | none =>
    let written := Volume.write unsteady.volume path bytes
    (written.1, ⟨written.2, unsteady.refusals.tail⟩)

instance : Volume (Unsteady σ) where
  changed? unsteady := Volume.changed? unsteady.volume
  read unsteady := Volume.read unsteady.volume
  write := write
  makeDirectories unsteady path :=
    ((Volume.makeDirectories unsteady.volume path).1,
      { unsteady with volume := (Volume.makeDirectories unsteady.volume path).2 })
  removeTree unsteady path :=
    ((Volume.removeTree unsteady.volume path).1,
      { unsteady with volume := (Volume.removeTree unsteady.volume path).2 })

instance [OnDisk σ] : OnDisk (Unsteady σ) where
  disk unsteady := OnDisk.disk unsteady.volume
  changed?_eq unsteady := OnDisk.changed?_eq unsteady.volume
  read_eq unsteady := OnDisk.read_eq unsteady.volume
  write_cases unsteady path bytes grounded := by
    cases refused : unsteady.refusals.head?.join with
    | some failure =>
        have same : Volume.write unsteady path bytes =
            (.error failure, { unsteady with refusals := unsteady.refusals.tail }) := by
          change unsteady.write path bytes = _
          rw [write, refused]
        rw [same]
        exact .inl ⟨failure, rfl, .refl grounded []⟩
    | none =>
        have same : Volume.write unsteady path bytes =
            ((Volume.write unsteady.volume path bytes).1,
              ⟨(Volume.write unsteady.volume path bytes).2, unsteady.refusals.tail⟩) := by
          change unsteady.write path bytes = _
          rw [write, refused]
        rw [same]
        exact OnDisk.write_cases unsteady.volume path bytes grounded
  grows_makeDirectories unsteady path grounded :=
    OnDisk.grows_makeDirectories unsteady.volume path grounded

end Unsteady

/-! ### Places of entries -/

namespace Path

theorem exists_dropped {pieces earlier : List Text} {piece : Text}
    (last : pieces.reverse.dropWhile isIdle = piece :: earlier) :
    piece ≠ [] ∧ ∃ dropped, piece ∈ dropped ∧
      pieces = (earlier.dropWhile isIdle).reverse ++ dropped := by
  refine ⟨?_, (earlier.takeWhile isIdle).reverse ++ piece ::
    (pieces.reverse.takeWhile isIdle).reverse, by simp, ?_⟩
  · rintro rfl
    have idle := List.head_dropWhile_not isIdle (last ▸ List.cons_ne_nil [] earlier)
    simp [last, isIdle] at idle
  · refine List.reverse_inj.mp ?_
    calc pieces.reverse
      _ = pieces.reverse.takeWhile isIdle ++
          piece :: (earlier.takeWhile isIdle ++ earlier.dropWhile isIdle) := by
        rw [List.takeWhile_append_dropWhile, ← last, List.takeWhile_append_dropWhile]
      _ = _ := by simp

theorem parent?_ne {path parent : Path} (around : parent? path = some parent) : parent ≠ path := by
  unfold parent? at around
  simp only at around
  split at around
  · split at around
    · next dot =>
        rintro rfl
        cases around
        cases dot
    · cases around
  · next piece earlier last =>
      cases around
      obtain ⟨filled, dropped, among, cut⟩ := exists_dropped last
      have shorter := Text.length_joinWith_lt ['/'] (earlier.dropWhile isIdle).reverse filled among
      rw [← cut, Text.joinWith_splitAt] at shorter
      intro same
      have whole := congrArg List.length (List.take_append_drop (headLength path) path)
      have lengths := congrArg List.length same
      rw [List.length_append] at whole lengths
      omega

end Path

namespace Disk

theorem exists_stepsOf_metadataPath (path : Path) :
    ∃ front piece, stepsOf path = front ++ (if piece = [] then [] else [piece]) ∧
      stepsOf (Cache.metadataPath path) = front ++ [piece ++ ".meta".toList] := by
  obtain ⟨front, piece, rfl, single, ends⟩ := exists_last_piece path
  refine ⟨stepsOf front, piece, ?_, ?_⟩
  · split
    · next none => rw [none, List.append_nil, List.append_nil]
    · next filled => exact stepsOf_behind ends single filled
  · rw [Cache.metadataPath, List.append_assoc]
    exact stepsOf_behind ends (by simp [single]) (by simp)

theorem length_metadata (piece : Text) : (piece ++ ".meta".toList).length = piece.length + 5 := by
  rw [List.length_append]
  rfl

theorem leads_metadataPath (path : Path) : leads (Cache.metadataPath path) ≠ leads path := by
  have start : base (Cache.metadataPath path) = base path := by cases path <;> rfl
  obtain ⟨front, piece, steps, longer⟩ := exists_stepsOf_metadataPath path
  have length := length_metadata piece
  rw [leads, leads, start, steps, longer, List.foldl_append, List.foldl_append, List.foldl_cons,
    List.foldl_nil, stepTo_of_long _ (by omega)]
  split
  · simp
  · exact (stepTo_ne_concat _ (by omega)).symm

end Disk

namespace Cache

open OnDisk

variable {σ : Type} [Volume σ] [OnDisk σ] {volume : σ} {source : Path} {key text : Text}

/-! ### Reading -/

section
variable [MetadataFormat]

theorem metadata?_eq (volume : σ) (woven : Path) :
    metadata? volume woven = ((disk volume).file? (metadataPath woven)).bind fun file =>
      MetadataFormat.decode? file.1 := by
  unfold metadata?
  rw [read_eq]
  cases read : Volume.read (disk volume) (metadataPath woven) with
  | error failure =>
      cases here : (disk volume).file? (metadataPath woven) with
      | none => rfl
      | some file => cases read.symm.trans (Disk.read_eq_ok.mpr ⟨file.2, here⟩)
  | ok bytes =>
      obtain ⟨changed, here⟩ := Disk.read_eq_ok.mp read
      rw [here]
      rfl

/-- What is served depends on two files and on the moments of the source and the watched files. -/
theorem get?_eq (cache : Cache) (volume : σ) (source : Path) (key : Text) :
    cache.get? volume source key = ((disk volume).file? (cache.pathOf source)).bind fun file =>
      if (source :: cache.watched).any (changedAfter volume file.2) then none
      else if (metadata? volume (cache.pathOf source)).map Metadata.key = some key then
        Utf8.decode file.1
      else none := by
  cases here : (disk volume).file? (cache.pathOf source) with
  | some file =>
      obtain ⟨bytes, moment⟩ := file
      have changed : Volume.changed? volume (cache.pathOf source) = some moment := by
        rw [changed?_eq]
        exact Disk.changed?_of_file? here
      have read : Volume.read volume (cache.pathOf source) = .ok bytes := by
        rw [read_eq]
        exact Disk.read_eq_ok.mpr ⟨moment, here⟩
      have text : (Volume.readText volume (cache.pathOf source)).toOption = Utf8.decode bytes := by
        unfold Volume.readText
        simp only [read]
        cases Utf8.decode bytes <;> rfl
      unfold get?
      simp only [changed, text]
      rfl
  | none =>
      cases served : cache.get? volume source key with
      | none => rfl
      | some text =>
          obtain ⟨-, -, -, -, readText⟩ := get?_eq_some served
          unfold Volume.readText at readText
          rw [read_eq] at readText
          split at readText
          · cases readText
          · next read =>
              obtain ⟨changed, file⟩ := Disk.read_eq_ok.mp read
              cases here.symm.trans file

/-- What is served lies in two files, its text in the one and its key in the other. -/
theorem exists_files_of_get? {cache : Cache} (served : cache.get? volume source key = some text) :
    ∃ bytes moment written changed entry,
      (disk volume).at? (Disk.leads (cache.pathOf source)) = some (.file bytes moment) ∧
        Utf8.decode bytes = some text ∧
        (disk volume).at? (Disk.leads (metadataPath (cache.pathOf source))) =
          some (.file written changed) ∧
        MetadataFormat.decode? written = some entry ∧ entry.key = key := by
  rw [get?_eq] at served
  obtain ⟨⟨bytes, moment⟩, woven, fresh⟩ := Option.bind_eq_some_iff.mp served
  split at fresh
  · cases fresh
  · split at fresh
    · next sameKey =>
        obtain ⟨entry, decoded, key⟩ := Option.map_eq_some_iff.mp sameKey
        rw [metadata?_eq] at decoded
        obtain ⟨⟨written, changed⟩, metadata, decoded⟩ := Option.bind_eq_some_iff.mp decoded
        exact ⟨bytes, moment, written, changed, entry, (Disk.file?_eq_some.mp woven).2.2.2, fresh,
          (Disk.file?_eq_some.mp metadata).2.2.2, decoded, key⟩
    · cases fresh

end

/-! ### Writing -/

theorem metadataPath_ne (path : Path) : metadataPath path ≠ path := by
  intro same
  have length := congrArg List.length same
  rw [metadataPath, List.length_append, Nat.add_eq_left] at length
  cases length

theorem makeRoom_cases (grounded : (disk volume).Grounded) (woven : Path) :
    Disk.Grows [] (disk volume) (disk (makeRoom volume woven).2) ∧
      ((makeRoom volume woven).1 = .ok () ∨
        ∃ parent failure, parent ≠ woven ∧
          (makeRoom volume woven).1 = .error (.unwritable parent failure)) := by
  unfold makeRoom
  split
  · exact ⟨.refl grounded [], .inl rfl⟩
  · next parent around =>
      have made := grows_makeDirectories volume parent grounded
      split
      · next failure later same =>
          rw [same] at made
          exact ⟨made, .inr ⟨parent, failure, Path.parent?_ne around, rfl⟩⟩
      · next later same =>
          rw [same] at made
          exact ⟨made, .inl rfl⟩

theorem writeFile_cases (grounded : (disk volume).Grounded) (path : Path) (bytes : Bytes) :
    (∃ failure, (writeFile volume path bytes).1 = .error (.unwritable path failure) ∧
      Disk.Grows [] (disk volume) (disk (writeFile volume path bytes).2)) ∨
    (writeFile volume path bytes).1 = .ok () ∧
      Disk.Grows [Disk.leads path] (disk volume) (disk (writeFile volume path bytes).2) ∧
      ∃ changed, (disk (writeFile volume path bytes).2).at? (Disk.leads path) =
        some (.file bytes changed) := by
  have written := write_cases volume path bytes grounded
  unfold writeFile
  split
  · next failure later same =>
      rw [same] at written
      rcases written with ⟨_, -, grows⟩ | ⟨succeeded, -⟩
      · exact .inl ⟨failure, rfl, grows⟩
      · cases succeeded
  · next later same =>
      rw [same] at written
      rcases written with ⟨_, failed, -⟩ | ⟨-, grows, here⟩
      · cases failed
      · exact .inr ⟨rfl, grows, here⟩

variable [MetadataFormat]

/-- What putting an entry does: it stops before anything is written, after the metadata, or not at
all. -/
inductive Put (cache : Cache) (source : Path) (key text : Text) (before after : Disk) :
    Except StoreError Path → Prop where
  | missed {path : Path} {failure : FileError} (other : path ≠ cache.pathOf source)
      (grows : Disk.Grows [] before after) :
      Put cache source key text before after (.error (.unwritable path failure))
  | marked {failure : FileError} {changed : Nat}
      (grows : Disk.Grows [Disk.leads (metadataPath (cache.pathOf source))] before after)
      (metadata : after.at? (Disk.leads (metadataPath (cache.pathOf source))) =
        some (.file (MetadataFormat.encode ⟨key, source⟩) changed)) :
      Put cache source key text before after
        (.error (.unwritable (cache.pathOf source) failure))
  | stored {changed moment : Nat}
      (grows : Disk.Grows [Disk.leads (metadataPath (cache.pathOf source)),
        Disk.leads (cache.pathOf source)] before after)
      (metadata : after.at? (Disk.leads (metadataPath (cache.pathOf source))) =
        some (.file (MetadataFormat.encode ⟨key, source⟩) changed))
      (woven : after.at? (Disk.leads (cache.pathOf source)) =
        some (.file (Utf8.encode text) moment)) :
      Put cache source key text before after (.ok (cache.pathOf source))

theorem Put.grows {cache : Cache} {before after : Disk} {result : Except StoreError Path}
    (put : cache.Put source key text before after result) :
    Disk.Grows [Disk.leads (metadataPath (cache.pathOf source)),
      Disk.leads (cache.pathOf source)] before after := by
  cases put with
  | missed _ grows => exact grows.mono nofun
  | marked grows => exact grows.mono (by simp)
  | stored grows => exact grows

/-- Putting an entry changes no file, or the metadata is there after it. -/
theorem Put.grows_or_metadata {cache : Cache} {before after : Disk}
    {result : Except StoreError Path} (put : cache.Put source key text before after result) :
    Disk.Grows [] before after ∨
      ∃ changed, after.at? (Disk.leads (metadataPath (cache.pathOf source))) =
        some (.file (MetadataFormat.encode ⟨key, source⟩) changed) := by
  cases put with
  | missed _ grows => exact .inl grows
  | marked _ metadata => exact .inr ⟨_, metadata⟩
  | stored _ metadata => exact .inr ⟨_, metadata⟩

theorem put_cases (cache : Cache) (grounded : (disk volume).Grounded) (source : Path)
    (key text : Text) :
    cache.Put source key text (disk volume) (disk (cache.put volume source key text).2)
      (cache.put volume source key text).1 := by
  obtain ⟨room, roomMade⟩ := makeRoom_cases grounded (cache.pathOf source)
  unfold put
  simp only
  -- The three writes in turn: the directories, the metadata, the woven file.
  split
  · next failure later same =>
      rw [same] at room roomMade
      rcases roomMade with made | ⟨parent, why, other, failed⟩
      · cases made
      · cases failed
        exact .missed other room
  · next later same =>
      rw [same] at room
      have marked := writeFile_cases room.grounded (metadataPath (cache.pathOf source))
        (MetadataFormat.encode ⟨key, source⟩)
      split
      · next failure last same =>
          rw [same] at marked
          rcases marked with ⟨why, failed, grows⟩ | ⟨succeeded, -⟩
          · cases failed
            exact .missed (metadataPath_ne _) (room.trans grows)
          · cases succeeded
      · next marking same =>
          rw [same] at marked
          rcases marked with ⟨_, failed, -⟩ | ⟨-, grows, changed, metadata⟩
          · cases failed
          · have stored := writeFile_cases grows.grounded (cache.pathOf source) (Utf8.encode text)
            have before := (room.mono nofun).trans grows
            split
            · next failure last same =>
                rw [same] at stored
                rcases stored with ⟨why, failed, kept⟩ | ⟨succeeded, -⟩
                · cases failed
                  have still := (kept.files _ List.not_mem_nil _ _).mpr metadata
                  exact .marked (before.trans (kept.mono nofun)) still
                · cases succeeded
            · next last same =>
                rw [same] at stored
                rcases stored with ⟨_, failed, -⟩ | ⟨-, kept, moment, woven⟩
                · cases failed
                · -- The woven file lies elsewhere, so the metadata is still as it was written.
                  have apart : Disk.leads (metadataPath (cache.pathOf source)) ∉
                      [Disk.leads (cache.pathOf source)] :=
                    mt List.mem_singleton.mp (Disk.leads_metadataPath _)
                  have still := (kept.files _ apart _ _).mpr metadata
                  exact .stored ((before.mono (by simp)).trans (kept.mono (by simp))) still woven

theorem grounded_put (grounded : (disk volume).Grounded) (cache : Cache) (source : Path)
    (key text : Text) : (disk (cache.put volume source key text).2).Grounded :=
  (put_cases cache grounded source key text).grows.grounded

end Cache
end PhpWeave
