import CinderX.Foundation.Basic

/-!
# Bits of lists of words

A list of machine words is read as one sequence of bits, the lowest bit of the first
word first.  The bits that are set in a word can be visited by clearing the lowest one
again and again.
-/

namespace CinderX.Foundation.Words

open List

variable {w : Nat}

variable {x : BitVec w}

theorem getLsbD_clearLowest (hx : x ≠ 0) (i : Nat) :
    (x ^^^ (x &&& -x)).getLsbD i = (x.getLsbD i && decide (i ≠ x.ctz.toNat)) := by
  have hlowest := BitVec.getLsbD_true_ctz_of_ne_zero hx
  rw [BitVec.getLsbD_xor, BitVec.getLsbD_and, BitVec.getLsbD_neg]
  cases hi : x.getLsbD i with
  | false => simp
  | true =>
    have hlt : i < w := BitVec.lt_of_getLsbD hi
    have hbelow : (∃ j < i, x.getLsbD j = true) ↔ i ≠ x.ctz.toNat := by
      constructor
      · rintro ⟨j, hj, hset⟩ rfl
        exact Bool.false_ne_true ((BitVec.getLsbD_false_of_lt_ctz hj).symm.trans hset)
      · intro hne
        refine ⟨x.ctz.toNat, Nat.lt_of_le_of_ne ?_ (Ne.symm hne), hlowest⟩
        by_contra hgt
        exact Bool.false_ne_true
          ((BitVec.getLsbD_false_of_lt_ctz (Nat.lt_of_not_le hgt)).symm.trans hi)
    simp [hlt, hbelow]

theorem toNat_clearLowest_lt (hx : x ≠ 0) :
    (x ^^^ (x &&& -x)).toNat < x.toNat := by
  have hle : (x ^^^ (x &&& -x)).toNat ≤ x.toNat := by
    have hmasked : x ^^^ (x &&& -x) = x &&& (x ^^^ (x &&& -x)) := by
      apply BitVec.eq_of_getLsbD_eq
      intro i _
      rw [BitVec.getLsbD_and, getLsbD_clearLowest hx]
      cases x.getLsbD i <;> rfl
    rw [hmasked, BitVec.toNat_and]
    exact Nat.and_le_left
  refine Nat.lt_of_le_of_ne hle fun heq => ?_
  have hsame := congrArg (·.getLsbD x.ctz.toNat) (BitVec.eq_of_toNat_eq heq)
  simp only [getLsbD_clearLowest hx, BitVec.getLsbD_true_ctz_of_ne_zero hx] at hsame
  simp at hsame

variable {i : Nat}

theorem mem_range_filter_getLsbD :
    i ∈ (range w).filter x.getLsbD ↔ x.getLsbD i = true := by
  simp only [mem_filter, mem_range, and_iff_right_iff_imp]
  exact fun hi => BitVec.lt_of_getLsbD hi

theorem filter_getLsbD_of_ne_zero (hx : x ≠ 0) :
    (range w).filter x.getLsbD =
      x.ctz.toNat :: (range w).filter (x ^^^ (x &&& -x)).getLsbD := by
  have hsorted : ∀ y : BitVec w, ((range w).filter y.getLsbD).Pairwise (· < ·) := fun y =>
    pairwise_lt_range.filter _
  apply (hsorted x).eq_of_mem_iff
  · rw [pairwise_cons]
    refine ⟨fun i hi => ?_, hsorted _⟩
    rw [mem_range_filter_getLsbD, getLsbD_clearLowest hx, Bool.and_eq_true,
      decide_eq_true_eq] at hi
    by_contra hle
    exact Bool.false_ne_true ((BitVec.getLsbD_false_of_lt_ctz
      (Nat.lt_of_le_of_ne (Nat.le_of_not_lt hle) hi.2)).symm.trans hi.1)
  · intro i
    rw [mem_cons, mem_range_filter_getLsbD, mem_range_filter_getLsbD,
      getLsbD_clearLowest hx, Bool.and_eq_true, decide_eq_true_eq]
    by_cases hi : i = x.ctz.toNat
    · simp [hi, BitVec.getLsbD_true_ctz_of_ne_zero hx]
    · simp [hi]

theorem toNat_cpop (x : BitVec w) : x.cpop.toNat = (range w).countP x.getLsbD := by
  have hrec : ∀ n, x.cpopNatRec n 0 = (range n).countP x.getLsbD := by
    intro n
    induction n with
    | zero => rfl
    | succ n ih =>
      rw [BitVec.cpopNatRec_succ, BitVec.cpopNatRec_eq, ih, range_succ, countP_append]
      cases hbit : x.getLsbD n <;> simp [hbit]
  rw [BitVec.cpop, BitVec.toNat_ofNat, Nat.mod_eq_of_lt, hrec]
  exact Nat.lt_of_le_of_lt (BitVec.cpopNatRec_zero_le x w) Nat.lt_two_pow_self

def wordBit (ws : List (BitVec w)) (i : Nat) : Bool := (ws.getD (i / w) 0).getLsbD (i % w)

variable {ws : List (BitVec w)}

theorem wordBit_of_le (hi : ws.length * w ≤ i) :
    wordBit ws i = false := by
  cases w with
  | zero => simp [wordBit]
  | succ w =>
    have hlen : ws.length ≤ i / (w + 1) := (Nat.le_div_iff_mul_le (Nat.succ_pos w)).mpr hi
    rw [wordBit, getD_eq_default _ _ hlen]
    exact BitVec.getLsbD_zero

@[simp]
theorem wordBit_replicate_zero (n i : Nat) : wordBit (replicate n (0 : BitVec w)) i = false := by
  unfold wordBit
  rw [getD_eq_getElem?_getD, getElem?_replicate]
  split <;> simp

theorem wordBit_zipWith {op : BitVec w → BitVec w → BitVec w} {f : Bool → Bool → Bool}
    (hop : ∀ a b i, (op a b).getLsbD i = f (a.getLsbD i) (b.getLsbD i))
    (hf : f false false = false) {ws' : List (BitVec w)} (hlen : ws.length = ws'.length) (i : Nat) :
    wordBit (zipWith op ws ws') i = f (wordBit ws i) (wordBit ws' i) := by
  unfold wordBit
  simp only [getD_eq_getElem?_getD, getElem?_zipWith]
  by_cases hi : i / w < ws.length
  · have hi' : i / w < ws'.length := hlen ▸ hi
    simp [getElem?_eq_getElem hi, getElem?_eq_getElem hi', hop]
  · have hi' : ¬ i / w < ws'.length := hlen ▸ hi
    simp [getElem?_eq_none (Nat.le_of_not_lt hi), getElem?_eq_none (Nat.le_of_not_lt hi'),
      hf]

theorem wordBit_modify {k : Nat} (hk : k < ws.length) (f : BitVec w → BitVec w) (i : Nat) :
    wordBit (ws.modify k f) i =
      if i / w = k then (f (ws.getD k 0)).getLsbD (i % w) else wordBit ws i := by
  unfold wordBit
  simp only [getD_eq_getElem?_getD, getElem?_modify]
  split
  · next hik =>
      subst hik
      simp [getElem?_eq_getElem hk]
  · next hik =>
      rw [if_neg (Ne.symm hik)]
      simp

theorem wordBit_append_replicate_zero (ws : List (BitVec w)) (n i : Nat) :
    wordBit (ws ++ replicate n 0) i = wordBit ws i := by
  unfold wordBit
  by_cases hi : i / w < ws.length
  · rw [getD_append _ _ _ _ hi]
  · rw [getD_append_right _ _ _ _ (Nat.le_of_not_lt hi),
      getD_eq_default _ _ (Nat.le_of_not_lt hi), getD_eq_getElem?_getD,
      getElem?_replicate]
    split <;> simp

theorem wordBit_take (ws : List (BitVec w)) (n i : Nat) :
    wordBit (ws.take n) i = (decide (i / w < n) && wordBit ws i) := by
  unfold wordBit
  simp only [getD_eq_getElem?_getD, getElem?_take]
  split <;> simp [*]

theorem ext_wordBit (hw : 0 < w) {ws' : List (BitVec w)} (hlen : ws.length = ws'.length)
    (hbits : ∀ i, wordBit ws i = wordBit ws' i) : ws = ws' := by
  apply ext_getElem hlen
  intro k hk hk'
  apply BitVec.eq_of_getLsbD_eq
  intro j hj
  have hkj := hbits (k * w + j)
  have hdiv : (k * w + j) / w = k := by
    rw [Nat.add_comm, Nat.add_mul_div_right _ _ hw, Nat.div_eq_of_lt hj, Nat.zero_add]
  have hmod : (k * w + j) % w = j := by
    rw [Nat.add_comm, Nat.add_mul_mod_self_right, Nat.mod_eq_of_lt hj]
  rwa [wordBit, wordBit, hdiv, hmod, getD_eq_getElem _ _ hk, getD_eq_getElem _ _ hk']
    at hkj

theorem wordBit_cons_lt (hi : i < w) :
    wordBit (x :: ws) i = x.getLsbD i := by
  simp [wordBit, Nat.div_eq_of_lt hi, Nat.mod_eq_of_lt hi]

theorem wordBit_cons_add (hw : 0 < w) (i : Nat) :
    wordBit (x :: ws) (w + i) = wordBit ws i := by
  unfold wordBit
  rw [Nat.add_comm, Nat.add_div_right _ hw, Nat.add_mod_right, getD_cons_succ]

theorem filter_wordBit_cons (hw : 0 < w) (x : BitVec w) (ws : List (BitVec w)) :
    (range ((x :: ws).length * w)).filter (wordBit (x :: ws)) =
      (range w).filter x.getLsbD ++
        ((range (ws.length * w)).filter (wordBit ws)).map (w + ·) := by
  rw [length_cons, Nat.add_mul, Nat.one_mul, Nat.add_comm (ws.length * w), range_add,
    filter_append]
  congr 1
  · apply filter_congr
    intro i hi
    exact wordBit_cons_lt (mem_range.mp hi)
  · rw [List.filter_map]
    congr 1
    apply filter_congr
    intro i _
    exact wordBit_cons_add hw i

theorem filter_range_eq {p : Nat → Bool} {m n : Nat} (hmn : m ≤ n)
    (hp : ∀ i, m ≤ i → p i = false) : (range n).filter p = (range m).filter p := by
  obtain ⟨k, rfl⟩ := Nat.exists_eq_add_of_le hmn
  rw [range_add, filter_append]
  have hnone : ((range k).map (m + ·)).filter p = [] := by
    rw [filter_eq_nil_iff]
    intro i hi
    obtain ⟨j, -, rfl⟩ := List.mem_map.mp hi
    simp [hp (m + j) (Nat.le_add_right m j)]
  rw [hnone, append_nil]

end CinderX.Foundation.Words
