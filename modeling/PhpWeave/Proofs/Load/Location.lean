import Mathlib.Algebra.Ring.Nat
import PhpWeave.Load.Cache
import PhpWeave.Proofs.Text.Pieces

set_option autoImplicit false

/-!
Where a cache keeps things. Putting a name after a path adds the name to its parts, so the woven file
of a source lies at the parts of the cache directory and then those of the source, two dots spelled
as a name. The sources of two woven files or of two metadata files are the same when the places are.

Metadata is read back as it was written: eight bytes hold the length of any text shorter than 2 ^ 64
bytes.
-/

namespace PhpWeave

open Text

namespace Path

/-- Whether a text can be a part of a path that is neither dots nor a slash. -/
structure IsOrdinary (name : Text) : Prop where
  single : '/' ∉ name
  isPart : part? name = some (.name name)

theorem part?_eq_name {piece name : Text} (isPart : part? piece = some (.name name)) :
    piece = name := by
  unfold part? at isPart
  split at isPart
  · cases isPart
  · split at isPart <;> cases isPart
    rfl

theorem IsOrdinary.ne_nil {name : Text} (ordinary : IsOrdinary name) : name ≠ [] := by
  rintro rfl
  cases ordinary.isPart

theorem IsOrdinary.not_absolute {name : Text} (ordinary : IsOrdinary name) :
    isAbsolute name = false := by
  cases name with
  | nil => rfl
  | cons c rest =>
      have other : c ≠ '/' := fun same => ordinary.single (same ▸ List.mem_cons_self)
      simpa [isAbsolute] using other

theorem IsOrdinary.append {name : Text} (ordinary : IsOrdinary name) {c d e : Char} {rest : Text}
    (single : '/' ∉ c :: d :: e :: rest) : IsOrdinary (name ++ c :: d :: e :: rest) where
  single member := (List.mem_append.mp member).elim ordinary.single single
  isPart := by
    have longer : 3 ≤ (name ++ c :: d :: e :: rest).length := by
      rw [List.length_append, List.length_cons, List.length_cons, List.length_cons]
      omega
    have other (short : Text) (less : short.length < 3) : name ++ c :: d :: e :: rest ≠ short := by
      intro same
      rw [same] at longer
      omega
    rw [part?, if_neg, if_neg (other _ (by decide))]
    exact not_or.mpr ⟨other _ (by decide), other _ (by decide)⟩

/-! ### Parts -/

theorem ordinary_of_piece {path name : Text}
    (member : .name name ∈ (splitAt '/' path).filterMap part?) : IsOrdinary name := by
  obtain ⟨piece, among, isPart⟩ := List.mem_filterMap.mp member
  obtain rfl := part?_eq_name isPart
  exact ⟨not_mem_of_mem_splitAt among, isPart⟩

theorem ordinary_of_mem {path : Path} {name : Text} (member : .name name ∈ parts path) :
    IsOrdinary name := by
  unfold parts at member
  split at member
  · exact ordinary_of_piece ((List.mem_cons.mp member).resolve_left Part.noConfusion)
  · cases List.mem_singleton.mp member
  · exact ordinary_of_piece ((List.mem_cons.mp member).resolve_left Part.noConfusion)
  · exact ordinary_of_piece member

theorem parts_append {path : Path} (some : path ≠ []) (rest : Text) :
    parts (path ++ '/' :: rest) = parts path ++ (splitAt '/' rest).filterMap part? := by
  have cut (front : Text) : (splitAt '/' (front ++ '/' :: rest)).filterMap part? =
      (splitAt '/' front).filterMap part? ++ (splitAt '/' rest).filterMap part? := by
    rw [splitAt_append, List.filterMap_append]
  cases path with
  | nil => exact absurd rfl some
  | cons c front =>
      by_cases rooted : c = '/'
      · rw [rooted]
        exact congrArg (List.cons Part.root) (cut front)
      · by_cases dotted : c = '.'
        · rw [dotted]
          cases front with
          | nil => rfl
          | cons d front =>
              by_cases relative : d = '/'
              · rw [relative]
                exact congrArg (List.cons Part.here) (cut front)
              · simpa [parts, relative] using cut ('.' :: d :: front)
        · simpa [parts, rooted, dotted] using cut (c :: front)

theorem parts_slash {path : Path} (some : path ≠ []) : parts (path ++ ['/']) = parts path := by
  rw [parts_append some []]
  exact List.append_nil _

theorem IsOrdinary.pieces {name : Text} (ordinary : IsOrdinary name) :
    (splitAt '/' name).filterMap part? = [.name name] := by
  rw [splitAt_of_not_mem ordinary.single, List.filterMap_cons, ordinary.isPart]
  rfl

theorem IsOrdinary.parts {name : Text} (ordinary : IsOrdinary name) :
    parts name = [.name name] := by
  have whole := ordinary.pieces
  cases name with
  | nil => exact absurd rfl ordinary.ne_nil
  | cons c rest =>
      have other : c ≠ '/' := fun same => ordinary.single (same ▸ List.mem_cons_self)
      by_cases dotted : c = '.'
      · rw [dotted] at whole ordinary ⊢
        cases rest with
        | nil => exact absurd ordinary.isPart (by decide)
        | cons d rest =>
            have next : d ≠ '/' := fun same =>
              ordinary.single (same ▸ List.mem_cons_of_mem _ List.mem_cons_self)
            simpa [Path.parts, next] using whole
      · simpa [Path.parts, other, dotted] using whole

theorem parts_push {name : Text} (ordinary : IsOrdinary name) (path : Path) :
    parts (push path name) = parts path ++ [.name name] := by
  have behind {front : Path} (some : front ≠ []) :
      parts (front ++ '/' :: name) = parts front ++ [.name name] := by
    rw [parts_append some, ordinary.pieces]
  rw [push, ordinary.not_absolute, if_neg Bool.false_ne_true]
  by_cases empty : path = []
  · rw [empty]
    exact ordinary.parts
  · by_cases ending : path.getLast? = some '/'
    · obtain ⟨front, rfl⟩ := List.getLast?_eq_some_iff.mp ending
      rw [if_pos (by simp), List.append_assoc]
      by_cases rooted : front = []
      · rw [rooted]
        exact congrArg (List.cons Part.root) ordinary.pieces
      · rw [parts_slash rooted]
        exact behind rooted
    · rw [if_neg (by simp [empty, ending])]
      exact behind empty

theorem push_append {name : Text} (ordinary : IsOrdinary name) (path : Path) {more : Text}
    (longer : IsOrdinary (name ++ more)) : push path name ++ more = push path (name ++ more) := by
  rw [push, push, ordinary.not_absolute, longer.not_absolute, if_neg Bool.false_ne_true,
    if_neg Bool.false_ne_true]
  split
  · exact List.append_assoc path name more
  · rw [List.append_assoc, List.cons_append]

/-! ### Normal paths -/

/-- Whether a path is absolute and written in one way only: ordinary names, each behind one
slash. -/
def IsNormal (path : Path) : Prop :=
  ∃ names, names ≠ [] ∧ (∀ name ∈ names, IsOrdinary name) ∧
    path = '/' :: joinWith ['/'] names

theorem parts_of_names {names : List Text} (some : names ≠ [])
    (ordinary : ∀ name ∈ names, IsOrdinary name) :
    parts ('/' :: joinWith ['/'] names) = .root :: names.map .name := by
  have cut := splitAt_joinWith some fun name member => (ordinary name member).single
  have all (names : List Text) (ordinary : ∀ name ∈ names, IsOrdinary name) :
      names.filterMap part? = names.map .name := by
    induction names with
    | nil => rfl
    | cons name rest ih =>
        rw [List.filterMap_cons, (ordinary name List.mem_cons_self).isPart, List.map_cons,
          ih fun other later => ordinary other (List.mem_cons_of_mem name later)]
  rw [parts, cut, all names ordinary]

theorem IsNormal.eq_of_parts {path other : Path} (normal : path.IsNormal)
    (otherNormal : other.IsNormal) (same : parts path = parts other) : path = other := by
  obtain ⟨names, some, ordinary, rfl⟩ := normal
  obtain ⟨others, otherSome, otherOrdinary, rfl⟩ := otherNormal
  rw [parts_of_names some ordinary, parts_of_names otherSome otherOrdinary,
    List.cons.injEq] at same
  rw [(List.map_inj_right fun _ _ => Part.name.inj).mp same.2]

end Path

namespace Cache

open PhpWeave.Path

def spelled : Path.Part → Option Path.Part
  | .name text => some (.name text)
  | .up => some (.name ['_', '_'])
  | .root | .here => none

theorem parts_pushPart (path : Path) (part : Path.Part)
    (ordinary : ∀ name, part = .name name → IsOrdinary name) :
    parts (pushPart path part) = parts path ++ (spelled part).toList := by
  cases part with
  | name text => exact parts_push (ordinary text rfl) path
  | up => exact parts_push ⟨by decide, by decide⟩ path
  | root | here => exact (List.append_nil _).symm

theorem parts_foldl_pushPart (path : Path) (steps : List Path.Part)
    (ordinary : ∀ name, .name name ∈ steps → IsOrdinary name) :
    parts (steps.foldl pushPart path) = parts path ++ steps.filterMap spelled := by
  induction steps generalizing path with
  | nil => exact (List.append_nil _).symm
  | cons part rest ih =>
      have here := parts_pushPart path part fun name same => ordinary name (same ▸ List.mem_cons_self)
      rw [List.foldl_cons, ih _ fun name later => ordinary name (List.mem_cons_of_mem part later),
        here, List.append_assoc, List.filterMap_cons]
      cases spelled part <;> rfl

theorem parts_pathOf (cache : Cache) (source : Path) :
    parts (cache.pathOf source) =
      parts cache.directory ++ (parts source).filterMap spelled :=
  parts_foldl_pushPart cache.directory (parts source) fun _ => ordinary_of_mem

theorem pathOf_injective (cache : Cache) {source other : Path} (normal : source.IsNormal)
    (otherNormal : other.IsNormal)
    (same : parts (cache.pathOf source) = parts (cache.pathOf other)) : source = other := by
  have spell {path : Path} (normal : path.IsNormal) :
      .root :: (parts path).filterMap spelled = parts path := by
    obtain ⟨names, some, ordinary, rfl⟩ := normal
    rw [parts_of_names some ordinary, List.filterMap_cons, List.filterMap_map]
    exact congrArg (List.cons Path.Part.root) (congrFun List.filterMap_eq_map names)
  rw [parts_pathOf, parts_pathOf, List.append_cancel_left_eq] at same
  refine normal.eq_of_parts otherNormal ?_
  rw [← spell normal, same, spell otherNormal]

/-- The metadata of a source lies where the woven file of another source would, the one whose path
goes on with the ending of metadata. -/
theorem metadataPath_pathOf (cache : Cache) {source : Path} (normal : source.IsNormal) :
    (metadataPath source).IsNormal ∧
      metadataPath (cache.pathOf source) = cache.pathOf (metadataPath source) := by
  obtain ⟨names, some, ordinary, rfl⟩ := normal
  obtain ⟨front, last, rfl⟩ := Text.exists_concat some
  have inFront (name : Text) (member : name ∈ front) : IsOrdinary name :=
    ordinary name (List.mem_append_left [last] member)
  have ends : IsOrdinary last := ordinary last (List.mem_concat_self ..)
  have longer : IsOrdinary (last ++ ".meta".toList) := ends.append (by decide)
  have more : metadataPath ('/' :: joinWith ['/'] (front ++ [last])) =
      '/' :: joinWith ['/'] (front ++ [last ++ ".meta".toList]) := by
    rw [metadataPath, joinWith_concat_append, List.cons_append]
  have all (final : Text) (isOne : IsOrdinary final) :
      ∀ name ∈ front ++ [final], IsOrdinary name := by
    intro name member
    rcases List.mem_append.mp member with before | last
    · exact inFront name before
    · exact List.mem_singleton.mp last ▸ isOne
  have lies (final : Text) (isOne : IsOrdinary final) :
      cache.pathOf ('/' :: joinWith ['/'] (front ++ [final])) =
        push ((.root :: front.map .name).foldl pushPart cache.directory) final := by
    rw [pathOf, parts_of_names (by simp) (all final isOne), List.map_append, ← List.cons_append,
      List.foldl_append]
    rfl
  refine ⟨⟨front ++ [last ++ ".meta".toList], by simp, all _ longer, more⟩, ?_⟩
  rw [more, lies last ends, lies _ longer, metadataPath, push_append ends _ longer]

end Cache

/-! ### Metadata -/

namespace Metadata

theorem length_numberBytes (count n : Nat) : (numberBytes count n).length = count := by
  induction count generalizing n with
  | zero => rfl
  | succ count ih => rw [numberBytes, List.length_cons, ih]

theorem numberOf_numberBytes {count n : Nat} (small : n < 256 ^ count) :
    numberOf (numberBytes count n) = n := by
  induction count generalizing n with
  | zero => exact (Nat.lt_one_iff.mp small).symm
  | succ count ih =>
      have low : (UInt8.ofNat (n % 256)).toNat = n % 256 := by simp
      have high : n / 256 < 256 ^ count := by
        rw [Nat.pow_succ] at small
        exact Nat.div_lt_of_lt_mul (Nat.mul_comm _ _ ▸ small)
      rw [numberBytes, numberOf, low, ih high]
      exact Nat.mod_add_div n 256

def IsShort (text : Text) : Prop := (Utf8.encode text).length < 256 ^ lengthWidth

instance (text : Text) : Decidable (IsShort text) := inferInstanceAs (Decidable (_ < _))

theorem decodeText?_encodeText {text : Text} (short : IsShort text) (rest : Bytes) :
    decodeText? (encodeText text ++ rest) = some (text, rest) := by
  have width := length_numberBytes lengthWidth (Utf8.encode text).length
  unfold decodeText? encodeText
  simp only [List.append_assoc]
  rw [List.take_left' width, List.drop_left' width, numberOf_numberBytes short, if_neg, if_neg,
    List.take_left, List.drop_left, Utf8.decode_encode, Option.map_some]
  · simp
  · simp [width]

theorem roundTrips_of_short {metadata : Metadata} (key : IsShort metadata.key)
    (source : IsShort metadata.source) : metadata.RoundTrips := by
  have last := decodeText?_encodeText source []
  rw [List.append_nil] at last
  change decode? (encode metadata) = some metadata
  rw [decode?, encode, decodeText?_encodeText key, Option.bind_some, last]
  rfl

end Metadata

end PhpWeave
