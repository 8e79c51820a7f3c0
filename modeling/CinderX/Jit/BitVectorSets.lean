import CinderX.Jit.BitVectorRuns

/-!
# Bit vectors as sets of numbers

A vector of some width holds the set of the numbers below the width whose bits are set.
-/

namespace CinderX.Jit

open Finset

def bitsOf (width : Nat) (s : Finset Nat) : List Bool := (List.range width).map fun i => i ∈ s

structure HoldsSet (bv : BitVector) (width : Nat) (s : Finset Nat) : Prop where
  holds : Holds bv (bitsOf width s)
  subset : s ⊆ range width

namespace BitVector

variable {bv bv' : BitVector} {width n : Nat} {s t : Finset Nat}

@[simp]
theorem length_bitsOf (width : Nat) (s : Finset Nat) : (bitsOf width s).length = width := by
  simp [bitsOf]

theorem getElem?_bitsOf (width : Nat) (s : Finset Nat) (i : Nat) :
    (bitsOf width s)[i]? = if i < width then some (decide (i ∈ s)) else none := by
  unfold bitsOf
  split
  next hi => simp [hi]
  next hi => simp [hi]

theorem getD_bitsOf (hs : s ⊆ range width) (i : Nat) :
    (bitsOf width s).getD i false = decide (i ∈ s) := by
  rw [List.getD_eq_getElem?_getD, getElem?_bitsOf]
  split
  next => rfl
  next hi =>
    have hnot : i ∉ s := fun hmem => hi (mem_range.mp (hs hmem))
    simp [hnot]

theorem bitsOf_injective (hs : s ⊆ range width) (ht : t ⊆ range width) :
    bitsOf width s = bitsOf width t ↔ s = t := by
  refine ⟨fun heq => ?_, fun heq => heq ▸ rfl⟩
  ext i
  have hi := congrArg (List.getD · i false) heq
  simp only [getD_bitsOf hs, getD_bitsOf ht] at hi
  simpa using hi

theorem eq_bitsOf {l : List Bool} (hlen : l.length = width)
    (hbits : ∀ i < width, l.getD i false = decide (i ∈ s)) : l = bitsOf width s := by
  apply ext_getD (by simpa using hlen)
  intro i
  by_cases hi : i < width
  · rw [hbits i hi, List.getD_eq_getElem?_getD, getElem?_bitsOf, if_pos hi]
    rfl
  · rw [List.getD_eq_default _ _ (by omega), List.getD_eq_default _ _ (by simpa using hi)]

theorem empty_holdsSet : HoldsSet empty 0 ∅ := ⟨empty_holds, empty_subset _⟩

theorem ofSize_holdsSet (n : Nat) : HoldsSet (ofSize n) n ∅ := by
  refine ⟨?_, empty_subset _⟩
  have hlist : List.replicate n false = bitsOf n ∅ :=
    eq_bitsOf (List.length_replicate ..) fun i _ => by
      rw [getD_replicate_false]
      simp
  rw [← hlist]
  exact ofSize_holds n

theorem eq_of_holdsSet (h : HoldsSet bv width s) (h' : HoldsSet bv' width t) :
    bv.eq bv' = some (decide (s = t)) := by
  rw [eq_of_holds h.holds h'.holds, if_pos (by simp)]
  simp only [bitsOf_injective h.subset h'.subset]

theorem getBit_of_holdsSet (h : HoldsSet bv width s) {i : Nat} (hi : i < width) :
    bv.getBit i = some (decide (i ∈ s)) := by
  rw [(represents_of_holds h.holds).getBit, getElem?_bitsOf, if_pos hi]

theorem setBit_holdsSet (h : HoldsSet bv width s) {i : Nat} (hi : i < width) :
    ∃ res, bv.setBit i true = some res ∧ HoldsSet res width (insert i s) := by
  have hrel := setBit_rel h.holds i true
  rw [if_pos (by simpa using hi)] at hrel
  cases hres : bv.setBit i true with
  | none =>
    rw [hres] at hrel
    cases hrel
  | some res =>
    rw [hres] at hrel
    obtain ⟨hholds⟩ := hrel
    refine ⟨res, rfl, ?_, insert_subset (mem_range.mpr hi) h.subset⟩
    have hlist : (bitsOf width s).set i true = bitsOf width (insert i s) := by
      refine eq_bitsOf (by simp) fun j _ => ?_
      rw [List.getD_eq_getElem?_getD, List.getElem?_set, getElem?_bitsOf]
      by_cases hij : i = j
      · simp [hij, show j < width by omega]
      · simp [hij, Ne.symm hij, show j < width by omega]
    rw [← hlist]
    exact hholds

theorem setBit_none (h : HoldsSet bv width s) {i : Nat} (hi : ¬ i < width) :
    bv.setBit i true = none := by
  rw [setBit, if_pos (by rwa [h.holds.num_bits, length_bitsOf])]

def setOp (op : BitOp) (s t : Finset Nat) : Finset Nat :=
  match op with
  | .and => s ∩ t
  | .or => s ∪ t
  | .sub => s \ t

theorem mem_setOp (op : BitOp) (i : Nat) :
    decide (i ∈ setOp op s t) = op.bool (decide (i ∈ s)) (decide (i ∈ t)) := by
  cases op <;> simp [setOp, BitOp.bool]

theorem zipWith_bitsOf (op : BitOp) (width : Nat) (s t : Finset Nat) :
    List.zipWith op.bool (bitsOf width s) (bitsOf width t) = bitsOf width (setOp op s t) := by
  refine eq_bitsOf (by simp) fun i hi => ?_
  rw [getD_zipWith op (by simp), mem_setOp, List.getD_eq_getElem?_getD,
    List.getD_eq_getElem?_getD, getElem?_bitsOf, getElem?_bitsOf, if_pos hi, if_pos hi]
  rfl

theorem setOp_subset (op : BitOp) (hs : s ⊆ range width) (ht : t ⊆ range width) :
    setOp op s t ⊆ range width := by
  cases op with
  | and => exact inter_subset_left.trans hs
  | or => exact union_subset hs ht
  | sub => exact sdiff_subset.trans hs

theorem binaryOp_holdsSet (op : BitOp) (h : HoldsSet bv width s) (h' : HoldsSet bv' width t) :
    ∃ res, HoldsSet res width (setOp op s t) ∧ bv.binaryOp op bv' = some res ∧
      bv.binaryOpAssign op bv' = some res := by
  obtain ⟨res, hholds, hop, hassign⟩ := binaryOp_of_length_eq op h.holds h'.holds (by simp)
  rw [zipWith_bitsOf] at hholds
  exact ⟨res, ⟨hholds, setOp_subset op h.subset h'.subset⟩, hop, hassign⟩

theorem setBitWidth_holdsSet (h : HoldsSet bv width s) (hn : n ≠ width) :
    ∃ res, bv.setBitWidth n = some res ∧ HoldsSet res n (s.filter fun i =>
      i < n ∧ (n % 64 ≠ 0 ∨ i + 64 < n)) := by
  obtain ⟨res, hres, hholds⟩ := setBitWidth_holds h.holds (by simpa using hn)
  refine ⟨res, hres, ?_, fun i hi => ?_⟩
  · rwa [eq_bitsOf (length_cutLast ..) fun i hi => ?_] at hholds
    rw [getD_cutLast, getD_bitsOf h.subset, numChunks_eq]
    have hcut : (decide (i / 64 ≠ (n + 63) / 64 - 1) || decide (i % 64 < n % 64)) =
        decide (n % 64 ≠ 0 ∨ i + 64 < n) := by
      rw [← Bool.decide_or, decide_eq_decide]
      omega
    rw [hcut]
    simp [hi]
  · exact mem_range.mpr (mem_filter.mp hi).2.1

end BitVector

end CinderX.Jit
