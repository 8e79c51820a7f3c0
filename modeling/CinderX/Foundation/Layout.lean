import CinderX.Foundation.LittleEndian

/-!
# Layouts

Parts of a file, one after the other, each at the first offset of its own alignment that
is free.  The gaps are filled with a padding byte.
-/

namespace CinderX.Foundation.Layout

open List

def alignUp (align offset : Nat) : Nat := (offset + align - 1) / align * align

theorem dvd_alignUp (align offset : Nat) : align ∣ alignUp align offset :=
  Nat.dvd_mul_left align _

variable {align i size at' : Nat}

theorem le_alignUp (h : 0 < align) (offset : Nat) :
    offset ≤ alignUp align offset := by
  have hdiv := Nat.div_add_mod (offset + align - 1) align
  have hmod := Nat.mod_lt (offset + align - 1) h
  rw [alignUp, Nat.mul_comm]
  omega

theorem alignUp_of_dvd {align offset : Nat} (h : 0 < align) (hdvd : align ∣ offset) :
    alignUp align offset = offset := by
  obtain ⟨k, rfl⟩ := hdvd
  have hdiv : (align * k + align - 1) / align = k := by
    rw [Nat.add_sub_assoc h, Nat.mul_add_div h, Nat.div_eq_of_lt (by omega), Nat.add_zero]
  rw [alignUp, hdiv, Nat.mul_comm]

@[simp]
theorem alignUp_one (offset : Nat) : alignUp 1 offset = offset := by
  simp [alignUp]

def offsets : Nat → List (Nat × Nat) → List Nat
  | _, [] => []
  | offset, (align, size) :: parts =>
    alignUp align offset :: offsets (alignUp align offset + size) parts

def endOffset : Nat → List (Nat × Nat) → Nat
  | offset, [] => offset
  | offset, (align, size) :: parts => endOffset (alignUp align offset + size) parts

variable {parts : List (Nat × Nat)} {offset : Nat}

@[simp]
theorem length_offsets (offset : Nat) (parts : List (Nat × Nat)) :
    (offsets offset parts).length = parts.length := by
  induction parts generalizing offset with
  | nil => rfl
  | cons part parts ih => simp [offsets, ih]

theorem le_endOffset (h : ∀ part ∈ parts, 0 < part.1) : offset ≤ endOffset offset parts := by
  induction parts generalizing offset with
  | nil => exact Nat.le_refl offset
  | cons part parts ih =>
    have hle := le_alignUp (h part mem_cons_self) offset
    have hrest : alignUp part.1 offset + part.2 ≤
        endOffset (alignUp part.1 offset + part.2) parts :=
      ih fun p hp => h p (mem_cons_of_mem part hp)
    rw [endOffset]
    omega

theorem dvd_offset (hi : parts[i]? = some (align, size))
    (hat : (offsets offset parts)[i]? = some at') : align ∣ at' := by
  induction parts generalizing i offset with
  | nil => cases hi
  | cons part parts ih =>
    cases i with
    | zero =>
      cases hi
      cases hat
      exact dvd_alignUp align offset
    | succ i => exact ih hi hat

theorem offset_add_le (h : ∀ part ∈ parts, 0 < part.1)
    (hi : parts[i]? = some (align, size)) (hat : (offsets offset parts)[i]? = some at') :
    offset ≤ at' ∧ at' + size ≤ endOffset offset parts := by
  induction parts generalizing i offset with
  | nil => cases hi
  | cons part parts ih =>
    obtain ⟨hpart, hrest⟩ := forall_mem_cons.mp h
    have hle := le_alignUp hpart offset
    cases i with
    | zero =>
      cases hi
      cases hat
      exact ⟨hle, le_endOffset hrest⟩
    | succ i =>
      obtain ⟨hfrom, hto⟩ := ih hrest hi hat
      exact ⟨by omega, hto⟩

theorem offset_add_le_offset (h : ∀ part ∈ parts, 0 < part.1) {i j align size at' at'' : Nat}
    (hij : i < j) (hi : parts[i]? = some (align, size))
    (hat : (offsets offset parts)[i]? = some at')
    (hat' : (offsets offset parts)[j]? = some at'') : at' + size ≤ at'' := by
  induction parts generalizing i j offset with
  | nil => cases hi
  | cons part parts ih =>
    obtain ⟨-, hrest⟩ := forall_mem_cons.mp h
    obtain ⟨j, rfl⟩ : ∃ j', j = j' + 1 := ⟨j - 1, by omega⟩
    cases i with
    | zero =>
      cases hi
      cases hat
      have hlt : j < parts.length := by
        have := (List.getElem?_eq_some_iff.mp hat').1
        simpa [offsets] using this
      exact (offset_add_le hrest (getElem?_eq_getElem hlt) hat').1
    | succ i => exact ih hrest (by omega) hi hat hat'

variable {α : Type}

def sizes (parts : List (Nat × List α)) : List (Nat × Nat) :=
  parts.map fun part => (part.1, part.2.length)

def emit (pad : α) : Nat → List (Nat × List α) → List α
  | _, [] => []
  | offset, (align, bytes) :: parts =>
    replicate (alignUp align offset - offset) pad ++ bytes ++
      emit pad (alignUp align offset + bytes.length) parts

theorem length_emit (pad : α) {parts : List (Nat × List α)} {offset : Nat}
    (h : ∀ part ∈ parts, 0 < part.1) :
    offset + (emit pad offset parts).length = endOffset offset (sizes parts) := by
  induction parts generalizing offset with
  | nil => rfl
  | cons part parts ih =>
    obtain ⟨hpart, hparts⟩ := forall_mem_cons.mp h
    have hle := le_alignUp hpart offset
    have hrest := @ih (alignUp part.1 offset + part.2.length) hparts
    simp only [sizes, map_cons, endOffset, emit, length_append,
      length_replicate] at hrest ⊢
    omega

theorem slice_emit (pad : α) {parts : List (Nat × List α)} {offset : Nat}
    (h : ∀ part ∈ parts, 0 < part.1) {bytes : List α} (hi : parts[i]? = some (align, bytes))
    (hat : (offsets offset (sizes parts))[i]? = some at') :
    slice (emit pad offset parts) (at' - offset) bytes.length = bytes := by
  induction parts generalizing i offset with
  | nil => cases hi
  | cons part parts ih =>
    obtain ⟨hpart, hrest⟩ := forall_mem_cons.mp h
    have hle := le_alignUp hpart offset
    cases i with
    | zero =>
      cases hi
      cases hat
      have hemit : emit pad offset ((align, bytes) :: parts) =
          replicate (alignUp align offset - offset) pad ++
            (bytes ++ emit pad (alignUp align offset + bytes.length) parts) := by
        rw [emit, append_assoc]
      have hslice := slice_eq_of_append hemit
      rwa [length_replicate] at hslice
    | succ i =>
      have hpos : ∀ p ∈ sizes parts, 0 < p.1 := by
        intro p hp
        obtain ⟨q, hq, rfl⟩ := List.mem_map.mp hp
        exact hrest q hq
      have hsize : (sizes parts)[i]? = some (align, bytes.length) := by
        rw [sizes, getElem?_map]
        rw [getElem?_cons_succ] at hi
        rw [hi]
        rfl
      have hfrom := (offset_add_le hpos hsize hat).1
      have hslice := ih hrest hi hat
      rw [emit]
      have hlen : at' - offset =
          (replicate (alignUp part.1 offset - offset) pad ++ part.2).length +
            (at' - (alignUp part.1 offset + part.2.length)) := by
        rw [length_append, length_replicate]
        omega
      rw [hlen, slice_append_add]
      exact hslice

end CinderX.Foundation.Layout
