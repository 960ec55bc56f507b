import PhpWeave.Text.Utf8

set_option autoImplicit false

/-!
A text as a reader of bytes sees it: every byte of its encoding as the character with that number.
A character of ASCII stands for itself, any other one becomes several characters beyond ASCII, and
no encoding is the beginning of another. So a reader that looks for ASCII characters only cannot
stop inside a character.
-/

namespace PhpWeave.Text

open Utf8

def ofByte (byte : UInt8) : Char := Char.ofNat byte.toNat

def units (c : Char) : Text := (String.utf8EncodeChar c).map ofByte

/-- The bytes of a text. -/
def bytewise (text : Text) : Text := (encode text).map ofByte

def isWide (c : Char) : Bool := 0x80 ≤ c.val

/-- Whether a property does not tell characters beyond ASCII apart. -/
def Uniform (p : Char → Bool) : Prop := ∀ c d, isWide c = true → isWide d = true → p c = p d

/-- The number of bytes of the first characters of a text. -/
def offset (count : Nat) (text : Text) : Nat := (bytewise (text.take count)).length

/-! ### Bytes of a character -/

theorem ofByte_val (byte : UInt8) : (ofByte byte).val.toNat = byte.toNat := by
  have small : byte.toNat < 256 := byte.toNat_lt
  have valid : byte.toNat.isValidChar := .inl (by omega)
  rw [ofByte, Char.ofNat, dif_pos valid]
  change (UInt32.ofNatLT byte.toNat _).toNat = byte.toNat
  exact UInt32.toNat_ofNatLT

theorem ofByte_injective {left right : UInt8} (same : ofByte left = ofByte right) :
    left = right := by
  apply UInt8.toNat_inj.mp
  rw [← ofByte_val left, ← ofByte_val right, same]

theorem isWide_iff (c : Char) : isWide c = true ↔ 128 ≤ c.val.toNat := by
  simp only [isWide, decide_eq_true_eq, UInt32.le_iff_toNat_le]
  exact Iff.rfl

theorem units_narrow {c : Char} (narrow : isWide c = false) : units c = [c] := by
  have small : c.val.toNat ≤ 127 := by
    have notWide : ¬ 128 ≤ c.val.toNat := fun wide => by
      rw [(isWide_iff c).mpr wide] at narrow
      cases narrow
    omega
  have same : ofByte (UInt8.ofNat c.val.toNat) = c := by
    apply Char.ext
    apply UInt32.toNat_inj.mp
    rw [ofByte_val]
    exact UInt8.toNat_ofNat_of_lt' (Nat.lt_of_le_of_lt small (by decide))
  simp only [units, String.utf8EncodeChar, if_pos small, List.map_cons, List.map_nil, same]

theorem units_ne_nil (c : Char) : units c ≠ [] := by
  simp only [units, String.utf8EncodeChar]
  split
  · simp
  · split
    · simp
    · split <;> simp

theorem units_wide {c : Char} (wide : isWide c = true) : ∀ u ∈ units c, isWide u = true := by
  have large := (isWide_iff c).mp wide
  have byteWide {n : Nat} (lower : 128 ≤ n) (upper : n < 256) :
      isWide (ofByte (UInt8.ofNat n)) = true := by
    rw [isWide_iff, ofByte_val, UInt8.toNat_ofNat_of_lt' upper]
    exact lower
  intro u member
  obtain ⟨byte, inside, rfl⟩ := List.mem_map.mp member
  have long : ¬ c.val.toNat ≤ 127 := by omega
  simp only [String.utf8EncodeChar, if_neg long] at inside
  split at inside
  · simp only [List.mem_cons, List.not_mem_nil, or_false] at inside
    rcases inside with rfl | rfl <;> exact byteWide (by omega) (by omega)
  · split at inside
    · simp only [List.mem_cons, List.not_mem_nil, or_false] at inside
      rcases inside with rfl | rfl | rfl <;> exact byteWide (by omega) (by omega)
    · simp only [List.mem_cons, List.not_mem_nil, or_false] at inside
      rcases inside with rfl | rfl | rfl | rfl <;> exact byteWide (by omega) (by omega)

theorem Uniform.units {p : Char → Bool} (uniform : Uniform p) (c : Char) :
    ∀ u ∈ units c, p u = p c := by
  intro u member
  cases wide : isWide c with
  | false =>
      rw [units_narrow wide, List.mem_singleton] at member
      rw [member]
  | true => exact uniform u c (units_wide wide u member) wide

/-- A character of ASCII is told from all characters beyond ASCII. -/
theorem uniform_beq {d : Char} (narrow : isWide d = false) : Uniform (· == d) := by
  have differs (c : Char) (wide : isWide c = true) : (c == d) = false := by
    apply beq_eq_false_iff_ne.mpr
    intro same
    rw [same, narrow] at wide
    cases wide
  intro c e first second
  change (c == d) = (e == d)
  rw [differs c first, differs e second]

theorem Uniform.or {p q : Char → Bool} (left : Uniform p) (right : Uniform q) :
    Uniform fun c => p c || q c := by
  intro c d first second
  simp only [left c d first second, right c d first second]

/-! ### Bytes of a text -/

theorem bytewise_nil : bytewise [] = [] := rfl

theorem bytewise_append (left right : Text) :
    bytewise (left ++ right) = bytewise left ++ bytewise right := by
  simp only [bytewise, encode, List.flatMap_append, List.map_append]

theorem bytewise_cons (c : Char) (rest : Text) :
    bytewise (c :: rest) = units c ++ bytewise rest := by
  simp only [bytewise, encode, List.flatMap_cons, List.map_append, units]

theorem bytewise_cons_wide {c : Char} (wide : isWide c = true) (rest : Text) :
    ∃ u more, bytewise (c :: rest) = u :: more ∧ isWide u = true := by
  rw [bytewise_cons]
  cases bytes : units c with
  | nil => exact absurd bytes (units_ne_nil c)
  | cons u more =>
      exact ⟨u, more ++ bytewise rest, rfl, units_wide wide u (bytes ▸ List.mem_cons_self)⟩

theorem Uniform.bytewise_cons {p : Char → Bool} (uniform : Uniform p) (c : Char) (rest : Text) :
    ∃ u more, bytewise (c :: rest) = u :: more ∧ p u = p c := by
  rw [Text.bytewise_cons]
  cases bytes : Text.units c with
  | nil => exact absurd bytes (units_ne_nil c)
  | cons u more =>
      exact ⟨u, more ++ bytewise rest, rfl, uniform.units c u (bytes ▸ List.mem_cons_self)⟩

theorem bytewise_cons_narrow {c : Char} (narrow : isWide c = false) (rest : Text) :
    bytewise (c :: rest) = c :: bytewise rest := by
  rw [bytewise_cons, units_narrow narrow]
  rfl

theorem bytewise_narrow {text : Text} (narrow : ∀ c ∈ text, isWide c = false) :
    bytewise text = text := by
  induction text with
  | nil => rfl
  | cons c rest ih =>
      rw [bytewise_cons_narrow (narrow c List.mem_cons_self),
        ih fun d member => narrow d (List.mem_cons_of_mem c member)]

theorem bytewise_eq_nil {text : Text} : bytewise text = [] ↔ text = [] := by
  cases text with
  | nil => exact ⟨fun _ => rfl, fun _ => rfl⟩
  | cons c rest => simp [bytewise_cons, units_ne_nil]

private theorem map_ofByte_prefix {left right : Bytes}
    (isPrefix : left.map ofByte <+: right.map ofByte) : left <+: right := by
  obtain ⟨tail, same⟩ := isPrefix
  obtain ⟨first, rest, rfl, firstSame, -⟩ := List.map_eq_append_iff.mp same.symm
  rw [List.map_inj_right fun _ _ => ofByte_injective] at firstSame
  rw [firstSame]
  exact List.prefix_append _ _

/-- No encoding is the beginning of another one, except where the texts are. -/
theorem bytewise_prefix_iff {left right : Text} :
    bytewise left <+: bytewise right ↔ left <+: right := by
  constructor
  · intro isPrefix
    obtain ⟨tail, same⟩ := map_ofByte_prefix isPrefix
    apply List.isPrefix_of_utf8Encode_append_eq_utf8Encode tail.toByteArray
    have bytes := congrArg List.toByteArray same
    rw [List.toByteArray_append] at bytes
    exact bytes
  · rintro ⟨tail, rfl⟩
    rw [bytewise_append]
    exact List.prefix_append _ _

theorem bytewise_eq_append (front : Text) {more text : Text} (narrow : bytewise front = front)
    (same : bytewise text = front ++ more) :
    ∃ tail, text = front ++ tail ∧ more = bytewise tail := by
  have isPrefix : bytewise front <+: bytewise text := by
    rw [narrow, same]
    exact List.prefix_append _ _
  obtain ⟨tail, rfl⟩ := bytewise_prefix_iff.mp isPrefix
  rw [bytewise_append, narrow, List.append_cancel_left_eq] at same
  exact ⟨tail, rfl, same.symm⟩

theorem bytewise_injective {left right : Text} (same : bytewise left = bytewise right) :
    left = right := by
  have forward : left <+: right := bytewise_prefix_iff.mp (same ▸ List.prefix_refl _)
  have backward : right <+: left := bytewise_prefix_iff.mp (same ▸ List.prefix_refl _)
  exact forward.eq_of_length (Nat.le_antisymm forward.length_le backward.length_le)

/-! ### Cutting -/

theorem bytewise_take (count : Nat) (text : Text) :
    (bytewise text).take (offset count text) = bytewise (text.take count) := by
  have split : bytewise text = bytewise (text.take count) ++ bytewise (text.drop count) := by
    rw [← bytewise_append, List.take_append_drop]
  rw [split]
  exact List.take_left

theorem bytewise_drop (count : Nat) (text : Text) :
    (bytewise text).drop (offset count text) = bytewise (text.drop count) := by
  have split : bytewise text = bytewise (text.take count) ++ bytewise (text.drop count) := by
    rw [← bytewise_append, List.take_append_drop]
  rw [split]
  exact List.drop_left

theorem offset_zero (text : Text) : offset 0 text = 0 := rfl

theorem offset_add (first second : Nat) (text : Text) :
    offset (first + second) text = offset first text + offset second (text.drop first) := by
  simp only [offset, List.take_add, bytewise_append, List.length_append]

theorem offset_succ (count : Nat) (c : Char) (rest : Text) :
    offset (count + 1) (c :: rest) = (units c).length + offset count rest := by
  simp only [offset, List.take_succ_cons, bytewise_cons, List.length_append]

theorem offset_succ_narrow {c : Char} (narrow : isWide c = false) (count : Nat) (rest : Text) :
    offset (count + 1) (c :: rest) = 1 + offset count rest := by
  rw [offset_succ, units_narrow narrow]
  rfl

theorem offset_one {c : Char} (narrow : isWide c = false) (rest : Text) :
    offset 1 (c :: rest) = 1 := by
  rw [offset_succ_narrow narrow, offset_zero]

theorem offset_one_add {c : Char} (narrow : isWide c = false) (count : Nat) (rest : Text) :
    offset (1 + count) (c :: rest) = 1 + offset count rest := by
  rw [Nat.add_comm, offset_succ_narrow narrow]

theorem offset_length (front rest : Text) :
    offset front.length (front ++ rest) = (bytewise front).length := by
  rw [offset, List.take_left]

theorem offset_pos {count : Nat} {text : Text} (positive : 0 < count) (nonempty : text ≠ []) :
    0 < offset count text := by
  cases text with
  | nil => exact absurd rfl nonempty
  | cons c rest =>
      obtain ⟨less, rfl⟩ := Nat.exists_eq_succ_of_ne_zero (Nat.ne_of_gt positive)
      have bytes := List.length_pos_iff.mpr (units_ne_nil c)
      rw [Nat.succ_eq_add_one, offset_succ]
      omega

theorem offset_lt_offset {first second : Nat} {text : Text} (bound : second ≤ text.length) :
    offset first text < offset second text ↔ first < second := by
  constructor
  · intro less
    apply Nat.lt_of_not_le
    intro more
    obtain ⟨extra, rfl⟩ := Nat.exists_eq_add_of_le more
    rw [offset_add] at less
    omega
  · intro less
    obtain ⟨extra, rfl⟩ := Nat.exists_eq_add_of_lt less
    have nonempty : text.drop first ≠ [] := by
      rw [Ne, List.drop_eq_nil_iff]
      omega
    have positive : 0 < offset (extra + 1) (text.drop first) :=
      offset_pos (Nat.succ_pos extra) nonempty
    rw [Nat.add_assoc, offset_add]
    omega

theorem bytewise_takeWhile {p : Char → Bool} (uniform : Uniform p) (text : Text) :
    (bytewise text).takeWhile p = bytewise (text.takeWhile p) := by
  induction text with
  | nil => rfl
  | cons c rest ih =>
      rw [bytewise_cons]
      cases holds : p c with
      | true =>
          have all : ∀ u ∈ units c, p u = true := fun u member =>
            (uniform.units c u member).trans holds
          rw [List.takeWhile_append_of_pos all, ih, List.takeWhile_cons_of_pos holds, bytewise_cons]
      | false =>
          have none : ¬ p c = true := by simp [holds]
          rw [List.takeWhile_cons_of_neg none]
          cases bytes : units c with
          | nil => exact absurd bytes (units_ne_nil c)
          | cons u more =>
              have first : ¬ p u = true := by
                rw [uniform.units c u (bytes ▸ List.mem_cons_self)]
                exact none
              exact List.takeWhile_cons_of_neg first

/-! ### Case and lines -/

private theorem toLower_wide {c : Char} (wide : isWide c = true) : c.toLower = c := by
  have large := (isWide_iff c).mp wide
  apply dif_neg
  intro capital
  have upper : c.val.toNat ≤ 90 := UInt32.le_iff_toNat_le.mp capital.2
  omega

private theorem toLower_narrow {c : Char} (narrow : isWide c = false) :
    isWide c.toLower = false := by
  apply eq_false_of_ne_true
  intro wide
  by_cases capital : c.val ≥ 'A'.val ∧ c.val ≤ 'Z'.val
  · have upper : c.val.toNat ≤ 90 := UInt32.le_iff_toNat_le.mp capital.2
    have moved : c.toLower = ⟨c.val + ('a'.val - 'A'.val), _⟩ := dif_pos capital
    have small : c.toLower.val.toNat = c.val.toNat + 32 := by
      rw [moved, UInt32.toNat_add]
      change (c.val.toNat + 32) % 4294967296 = _
      omega
    have large := (isWide_iff _).mp wide
    omega
  · have kept : c.toLower = c := dif_neg capital
    rw [kept, narrow] at wide
    cases wide

theorem lower_bytewise (text : Text) : lower (bytewise text) = bytewise (lower text) := by
  induction text with
  | nil => rfl
  | cons c rest ih =>
      rw [bytewise_cons, lower_append, ih]
      change _ = bytewise (c.toLower :: lower rest)
      rw [bytewise_cons]
      congr 1
      cases wide : isWide c with
      | false => rw [units_narrow wide, units_narrow (toLower_narrow wide)]; rfl
      | true =>
          rw [toLower_wide wide]
          refine (List.map_congr_left fun u member => ?_).trans (List.map_id _)
          exact toLower_wide (units_wide wide u member)

theorem offset_lower (count : Nat) (text : Text) :
    offset count (lower text) = offset count text := by
  have same : (lower text).take count = lower (text.take count) := by
    rw [lower, lower, List.map_take]
  rw [offset, same, ← lower_bytewise, lower, List.length_map]
  rfl

theorem sameWord_bytewise (left right : Text) :
    sameWord (bytewise left) (bytewise right) = sameWord left right := by
  simp only [sameWord, lower_bytewise]
  apply Bool.eq_iff_iff.mpr
  simp only [beq_iff_eq]
  exact ⟨bytewise_injective, congrArg bytewise⟩

theorem newlines_bytewise (text : Text) : newlines (bytewise text) = newlines text := by
  induction text with
  | nil => rfl
  | cons c rest ih =>
      have single : newlines (units c) = newlines [c] := by
        cases wide : isWide c with
        | false => rw [units_narrow wide]
        | true =>
            have none (d : Char) (isOne : isWide d = true) : d ≠ '\n' := by
              rintro rfl
              cases isOne
            have absent : '\n' ∉ units c := fun member =>
              none _ (units_wide wide _ member) rfl
            rw [newlines, newlines, List.count_eq_zero_of_not_mem absent,
              List.count_eq_zero_of_not_mem (by simpa using (none c wide).symm)]
      rw [bytewise_cons, newlines_append, ih, single, ← newlines_append]
      rfl

end PhpWeave.Text
