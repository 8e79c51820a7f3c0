import CinderX.Foundation.Basic

/-!
# Little-endian integers and records of them

Bytes of an unsigned integer, least significant first, and records that are fields of
given widths one after the other.
-/

namespace CinderX.Foundation

open List

def leBytes : Nat → Nat → List UInt8
  | 0, _ => []
  | size + 1, n => UInt8.ofNat n :: leBytes size (n / 256)

def ofLeBytes : List UInt8 → Nat
  | [] => 0
  | b :: bytes => b.toNat + 256 * ofLeBytes bytes

@[simp]
theorem length_leBytes (size n : Nat) : (leBytes size n).length = size := by
  induction size generalizing n with
  | zero => rfl
  | succ size ih => simp [leBytes, ih]

theorem ofLeBytes_leBytes (size n : Nat) : ofLeBytes (leBytes size n) = n % 256 ^ size := by
  induction size generalizing n with
  | zero => simp [leBytes, ofLeBytes, Nat.mod_one]
  | succ size ih =>
    have hsplit : n % 256 ^ (size + 1) = n % 256 + 256 * (n / 256 % 256 ^ size) := by
      rw [Nat.pow_succ', Nat.mod_mul]
    rw [leBytes, ofLeBytes, ih, UInt8.toNat_ofNat', hsplit]

def slice {α : Type} (bytes : List α) (offset size : Nat) : List α :=
  (bytes.drop offset).take size

variable {α : Type}

theorem slice_append_add (a b : List α) (offset size : Nat) :
    slice (a ++ b) (a.length + offset) size = slice b offset size := by
  rw [slice, slice, drop_length_add_append]

theorem slice_append_length (a b : List α) : slice (a ++ b) 0 a.length = a := by
  rw [slice, drop_zero, take_left]

theorem slice_slice {bytes : List α} {offset size offset' size' : Nat}
    (h : offset' + size' ≤ size) :
    slice (slice bytes offset size) offset' size' = slice bytes (offset + offset') size' := by
  rw [slice, slice, slice, drop_take, drop_drop, take_take,
    Nat.min_eq_left (by omega)]

theorem length_slice (bytes : List α) (offset size : Nat) :
    (slice bytes offset size).length = min size (bytes.length - offset) := by
  rw [slice, length_take, length_drop]

theorem slice_eq_of_append {bytes pre mid post : List α}
    (h : bytes = pre ++ (mid ++ post)) : slice bytes pre.length mid.length = mid := by
  have hslice := slice_append_add pre (mid ++ post) 0 mid.length
  rw [Nat.add_zero] at hslice
  rw [h, hslice, slice_append_length]

theorem slice_flatMap {α β : Type} {f : β → List α} {size : Nat} (hf : ∀ b, (f b).length = size)
    {l : List β} {i : Nat} {b : β} (hi : l[i]? = some b) (rest : List α) :
    slice (l.flatMap f ++ rest) (size * i) size = f b := by
  induction l generalizing i with
  | nil => cases hi
  | cons a l ih =>
    rw [flatMap_cons, append_assoc]
    cases i with
    | zero =>
      obtain rfl : a = b := by simpa using hi
      rw [Nat.mul_zero, ← hf a]
      exact slice_append_length _ _
    | succ i =>
      have hoffset : size * (i + 1) = (f a).length + size * i := by
        rw [hf, Nat.mul_succ, Nat.add_comm]
      rw [hoffset, slice_append_add]
      exact ih hi

abbrev Fields := List (Nat × Nat)

namespace Fields

def bytes (fields : Fields) : List UInt8 := fields.flatMap fun f => leBytes f.1 f.2

def width (fields : Fields) : Nat := (fields.map Prod.fst).sum

@[simp]
theorem length_bytes (fields : Fields) : fields.bytes.length = fields.width := by
  simp [bytes, width, length_flatMap]

def start (fields : Fields) (i : Nat) : Nat := width (fields.take i)

theorem slice_bytes (fields : Fields) {i size value : Nat}
    (h : fields[i]? = some (size, value)) :
    fields.start i + size ≤ fields.width ∧
      slice fields.bytes (fields.start i) size = leBytes size value := by
  obtain ⟨hi, hfield⟩ := List.getElem?_eq_some_iff.mp h
  have hsplit : fields = fields.take i ++ ((size, value) :: fields.drop (i + 1)) := by
    rw [← hfield, ← drop_eq_getElem_cons hi, take_append_drop]
  have hbytes : fields.bytes = bytes (fields.take i) ++
      (leBytes size value ++ bytes (fields.drop (i + 1))) := by
    conv_lhs => rw [hsplit]
    simp only [bytes, flatMap_append, flatMap_cons]
  have hslice := slice_eq_of_append hbytes
  rw [length_bytes, length_leBytes] at hslice
  refine ⟨?_, hslice⟩
  have hlen := congrArg List.length hbytes
  simp only [length_append, length_bytes, length_leBytes] at hlen
  rw [start]
  omega

end Fields

end CinderX.Foundation
