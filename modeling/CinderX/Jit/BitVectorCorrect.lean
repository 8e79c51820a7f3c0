import CinderX.Jit.BitVector

/-!
# Bit vectors hold their bits

In both representations the bits of a vector are those of its list, and everything that
is observed follows from them.
-/

namespace CinderX.Jit

open Foundation.Words List Option

/-! ## Words and masks -/

theorem numChunks_eq (n : Nat) : numChunks n = (n + 63) / 64 := by
  unfold numChunks PTR_WIDTH
  split <;> omega

variable {n bit i : Nat}

@[simp]
theorem getLsbD_lowMask (hn : n ≤ 64) (i : Nat) :
    (lowMask n).getLsbD i = decide (i < n) := by
  have hmask : lowMask n = BitVec.ofNat 64 (2 ^ n - 1) := by
    apply BitVec.eq_of_toNat_eq
    have hpos : 0 < 2 ^ n := Nat.two_pow_pos n
    have hle : 2 ^ n ≤ 2 ^ 64 := Nat.pow_le_pow_right (by decide) hn
    have hone : (1 : BitVec 64).toNat = 1 := rfl
    rw [lowMask, BitVec.toNat_sub, BitVec.toNat_shiftLeft, BitVec.toNat_ofNat, BitVec.toNat_ofNat,
      Nat.one_mod_eq_one.mpr (by decide), Nat.one_shiftLeft, hone]
    rcases Nat.lt_or_eq_of_le hle with hlt | heq
    · rw [Nat.mod_eq_of_lt hlt]
      omega
    · rw [heq, Nat.mod_self, Nat.add_zero]
  rw [hmask, BitVec.getLsbD_ofNat, Nat.testBit_two_pow_sub_one]
  by_cases hi : i < n
  · simp [hi, Nat.lt_of_lt_of_le hi hn]
  · simp [hi]

theorem getLsbD_bit (hi : i < 64) :
    (1#64 <<< bit).getLsbD i = decide (i = bit) := by
  rw [BitVec.getLsbD_shiftLeft, BitVec.getLsbD_one]
  by_cases heq : i = bit
  · simp [heq]
    omega
  · simp [heq]
    omega

theorem getLsbD_setWordBit (hi : i < 64) (v : Bool) (val : BitVec 64) :
    (setWordBit bit v val).getLsbD i = if i = bit then v else val.getLsbD i := by
  unfold setWordBit
  cases v with
  | true =>
    rw [if_pos rfl, BitVec.getLsbD_or, getLsbD_bit hi]
    by_cases heq : i = bit <;> simp [heq]
  | false =>
    rw [if_neg (by decide), BitVec.getLsbD_and, BitVec.getLsbD_not, getLsbD_bit hi]
    by_cases heq : i = bit <;> simp [heq, hi]

theorem and_bit_ne_zero_iff (hbit : bit < 64) (val : BitVec 64) :
    val &&& 1#64 <<< bit ≠ 0 ↔ val.getLsbD bit = true := by
  constructor
  · intro hne
    by_contra hfalse
    apply hne
    apply BitVec.eq_of_getLsbD_eq
    intro i hi
    rw [BitVec.getLsbD_and, getLsbD_bit hi]
    by_cases heq : i = bit
    · subst heq
      simp [hfalse]
    · simp [heq]
  · intro hset hzero
    have hbit' := congrArg (·.getLsbD bit) hzero
    simp [getLsbD_bit hbit, hset] at hbit'

theorem above_eq_zero_iff (hn : n ≤ 64) (val : BitVec 64) :
    val &&& ~~~lowMask n = 0 ↔ ∀ i, n ≤ i → val.getLsbD i = false := by
  constructor
  · intro hzero i hi
    by_cases hlt : i < 64
    · have hbit := congrArg (·.getLsbD i) hzero
      rw [BitVec.getLsbD_and, BitVec.getLsbD_not, getLsbD_lowMask hn] at hbit
      simpa [hlt, Nat.not_lt.mpr hi] using hbit
    · exact BitVec.getLsbD_of_ge _ _ (Nat.le_of_not_lt hlt)
  · intro habove
    apply BitVec.eq_of_getLsbD_eq
    intro i hi
    rw [BitVec.getLsbD_and, BitVec.getLsbD_not, getLsbD_lowMask hn]
    by_cases hlt : i < n
    · simp [hlt]
    · simp [habove i (Nat.le_of_not_lt hlt)]

theorem lt_two_pow_iff (val : BitVec 64) :
    val.toNat < 2 ^ n ↔ ∀ i, n ≤ i → val.getLsbD i = false := by
  constructor
  · intro hlt i hi
    exact Nat.testBit_lt_two_pow (Nat.lt_of_lt_of_le hlt (Nat.pow_le_pow_right (by decide) hi))
  · intro habove
    exact Nat.lt_pow_two_of_testBit _ habove

theorem forEachBitInChunk_eq (chunk : BitVec 64) (base : Nat) :
    forEachBitInChunk chunk base = ((range 64).filter chunk.getLsbD).map (base + ·) := by
  fun_induction forEachBitInChunk chunk base with
  | case1 =>
    have hnone : (range 64).filter (BitVec.getLsbD (0 : BitVec 64)) = [] :=
      filter_eq_nil_iff.mpr fun i _ => by simp
    rw [hnone]
    rfl
  | case2 chunk hne ih =>
    rw [filter_getLsbD_of_ne_zero hne, map_cons, ih, Nat.add_comm]

theorem forEachChunk_eq (base : Nat) (ws : List (BitVec 64)) :
    forEachChunk base ws =
      ((range (ws.length * 64)).filter (wordBit ws)).map (base + ·) := by
  induction ws generalizing base with
  | nil => simp [forEachChunk]
  | cons x ws ih =>
    rw [forEachChunk, ih, forEachBitInChunk_eq, filter_wordBit_cons (by decide), map_append,
      List.map_map]
    simp only [PTR_WIDTH, Function.comp_def, Nat.add_assoc]

theorem sum_cpop (ws : List (BitVec 64)) :
    (ws.map fun b => b.cpop.toNat).sum =
      ((range (ws.length * 64)).filter (wordBit ws)).length := by
  induction ws with
  | nil => rfl
  | cons x ws ih =>
    rw [map_cons, sum_cons, ih, filter_wordBit_cons (by decide), length_append,
      length_map, toNat_cpop, countP_eq_length_filter]

theorem all_zero_iff (ws : List (BitVec 64)) :
    ws.all (· = 0) = true ↔ ∀ i, wordBit ws i = false := by
  constructor
  · intro hall i
    have hzero : ws.getD (i / 64) 0 = 0 := by
      rw [getD_eq_getElem?_getD]
      cases hget : ws[i / 64]? with
      | none => rfl
      | some x => simpa using List.all_eq_true.mp hall x (mem_of_getElem? hget)
    rw [wordBit, hzero]
    exact BitVec.getLsbD_zero
  · intro hbits
    have hsame : ws = replicate ws.length 0 :=
      ext_wordBit (by decide) (by simp) fun i => by rw [hbits, wordBit_replicate_zero]
    rw [hsame, all_replicate]
    simp

theorem ext_getD {l l' : List Bool} (hlen : l.length = l'.length)
    (hbits : ∀ i, l.getD i false = l'.getD i false) : l = l' := by
  apply ext_getElem hlen
  intro i hi hi'
  have hbit := hbits i
  rwa [getD_eq_getElem _ _ hi, getD_eq_getElem _ _ hi'] at hbit

theorem getD_replicate_false (n i : Nat) : (replicate n false).getD i false = false := by
  rw [getD_eq_getElem?_getD, getElem?_replicate]
  split <;> rfl

theorem count_eq_length_filter (l : List Bool) :
    l.count true = ((range l.length).filter (l.getD · false)).length := by
  rw [← countP_eq_length_filter, List.count]
  induction l with
  | nil => rfl
  | cons b l ih =>
    rw [countP_cons, ih, length_cons, range_succ_eq_map, countP_cons,
      countP_map]
    cases b <;> rfl

/-- A vector with the bits of a list, in the representation for its width. -/
inductive Holds : BitVector → List Bool → Prop
  | short {word l} (hlen : l.length ≤ 64) (hbits : ∀ i, word.getLsbD i = l.getD i false) :
      Holds ⟨l.length, .bits word⟩ l
  | long {chunks l} (hlen : 64 < l.length) (hsize : chunks.length = numChunks l.length)
      (hbits : ∀ i, wordBit chunks i = l.getD i false) : Holds ⟨l.length, .bit_vec chunks⟩ l

@[simp]
theorem wordBit_singleton (word : BitVec 64) (i : Nat) : wordBit [word] i = word.getLsbD i := by
  by_cases hi : i < 64
  · exact wordBit_cons_lt hi
  · rw [wordBit_of_le (by simpa using hi), BitVec.getLsbD_of_ge _ _ (Nat.le_of_not_lt hi)]

namespace BitVector

variable {n : Nat}

theorem isShortVector_of_le (hn : n ≤ 64) (bits : Bits) :
    (⟨n, bits⟩ : BitVector).isShortVector = true := decide_eq_true hn

theorem isShortVector_of_lt (hn : 64 < n) (bits : Bits) :
    (⟨n, bits⟩ : BitVector).isShortVector = false := decide_eq_false (Nat.not_le.mpr hn)

variable {bv bv' : BitVector} {l l' : List Bool}

theorem words_of_holds (h : Holds bv l) : bv.num_bits = l.length ∧
    ∃ ws, bv.words = some ws ∧ ws.length = max 1 (numChunks l.length) ∧
      ∀ i, wordBit ws i = l.getD i false := by
  cases h with
  | @short word _ hlen hbits =>
    refine ⟨rfl, [word], ?_, ?_, fun i => ?_⟩
    · simp [words, isShortVector_of_le hlen, Bits.word]
    · rw [numChunks_eq, length_singleton]
      omega
    · rw [wordBit_singleton, hbits]
  | @long chunks _ hlen hsize hbits =>
    refine ⟨rfl, chunks, ?_, ?_, hbits⟩
    · simp [words, isShortVector_of_lt hlen, Bits.chunks]
    · rw [hsize, numChunks_eq]
      omega

theorem getPopCount_eq (bv : BitVector) :
    bv.getPopCount = bv.words.map fun ws => (ws.map fun b => b.cpop.toNat).sum := by
  unfold getPopCount words
  split
  · cases bv.bits.word <;> simp
  · cases bv.bits.chunks <;> simp

theorem isEmpty_eq (bv : BitVector) : bv.isEmpty = bv.words.map fun ws => ws.all (· = 0) := by
  unfold isEmpty words
  split
  · cases bv.bits.word <;> simp
  · cases bv.bits.chunks <;> simp

theorem forEachSetBit_eq (bv : BitVector) : bv.forEachSetBit = bv.words.map (forEachChunk 0) := by
  unfold forEachSetBit words
  split
  · cases bv.bits.word <;> simp [forEachChunk]
  · cases bv.bits.chunks <;> simp

theorem getBitChunk_eq (bv : BitVector) (chunk : Nat) :
    bv.getBitChunk chunk = bv.words.bind fun ws => ws[chunk]? := by
  unfold getBitChunk words
  split
  · cases bv.bits.word with
    | none => simp
    | some word => cases chunk <;> simp
  · cases bv.bits.chunks <;> simp

theorem getBit_eq (h : Holds bv l) (i : Nat) : bv.getBit i = l[i]? := by
  cases h with
  | short hlen hbits =>
    unfold getBit
    by_cases hi : i < l.length
    · have hbit := hbits i
      rw [getD_eq_getElem _ _ hi] at hbit
      have hiff := and_bit_ne_zero_iff (Nat.lt_of_lt_of_le hi hlen)
      rw [if_neg (not_not_intro hi), getElem?_eq_getElem hi, ← hbit]
      simp only [isShortVector_of_le hlen, if_true, Bits.word, hiff, Bool.decide_eq_true]
      rfl
    · simp [hi]
  | @long chunks _ hlen hsize hbits =>
    unfold getBit
    by_cases hi : i < l.length
    · have hbit := hbits i
      have hchunk : i / 64 < chunks.length := by
        rw [hsize, numChunks_eq]
        omega
      rw [getD_eq_getElem _ _ hi, wordBit, getD_eq_getElem _ _ hchunk] at hbit
      have hiff := and_bit_ne_zero_iff (Nat.mod_lt i (by decide : 0 < 64))
      rw [if_neg (not_not_intro hi), getElem?_eq_getElem hi, ← hbit]
      simp only [isShortVector_of_lt hlen, Bool.false_eq_true, if_false,
        Bits.chunks, PTR_WIDTH, bind_eq_bind, bind_some,
        getElem?_eq_getElem hchunk, hiff, Bool.decide_eq_true]
      rfl
    · simp [hi]

theorem represents_of_holds (h : Holds bv l) : Represents bv l := by
  obtain ⟨hnum, ws, hws, hlen, hbits⟩ := words_of_holds h
  have hwidth : l.length ≤ ws.length * 64 := by
    rw [hlen, numChunks_eq]
    omega
  have hout : ∀ i, l.length ≤ i → wordBit ws i = false := fun i hi => by
    rw [hbits, getD_eq_default _ _ hi]
  have hset : (range (ws.length * 64)).filter (wordBit ws) =
      (range l.length).filter (l.getD · false) := by
    rw [filter_range_eq hwidth hout]
    exact filter_congr fun i _ => hbits i
  refine ⟨hnum, getBit_eq h, ?_, ?_, fun chunk hchunk => ?_, fun chunk hchunk => ?_, ?_,
    ws, hws, hout⟩
  · rw [getPopCount_eq, hws, map_some, sum_cpop, hset, count_eq_length_filter]
  · rw [isEmpty_eq, hws, map_some, Option.some.injEq, Bool.eq_iff_iff, all_zero_iff]
    rw [Bool.not_eq_true', contains_eq_mem, decide_eq_false_iff_not]
    constructor
    · intro hzero hmem
      obtain ⟨i, hi, htrue⟩ := mem_iff_getElem.mp hmem
      have hfalse := (hbits i).symm.trans (hzero i)
      rw [getD_eq_getElem _ _ hi, htrue] at hfalse
      exact Bool.noConfusion hfalse
    · intro hnot i
      rw [hbits]
      by_contra htrue
      rw [Bool.not_eq_false, getD_eq_getElem?_getD] at htrue
      cases hget : l[i]? with
      | none => simp [hget] at htrue
      | some b =>
        rw [hget, getD_some] at htrue
        exact hnot (htrue ▸ mem_of_getElem? hget)
  · rw [← hlen] at hchunk
    refine ⟨ws[chunk], by rw [getBitChunk_eq, hws, bind_some, getElem?_eq_getElem],
      fun i hi => ?_⟩
    have hbit := hbits (PTR_WIDTH * chunk + i)
    have hdiv : (PTR_WIDTH * chunk + i) / 64 = chunk := by
      unfold PTR_WIDTH at hi ⊢
      omega
    have hmod : (PTR_WIDTH * chunk + i) % 64 = i := by
      unfold PTR_WIDTH at hi ⊢
      omega
    rwa [wordBit, hdiv, hmod, getD_eq_getElem _ _ hchunk] at hbit
  · rw [← hlen] at hchunk
    rw [getBitChunk_eq, hws, bind_some, getElem?_eq_none hchunk]
  · rw [forEachSetBit_eq, hws, map_some, forEachChunk_eq, hset]
    simp

theorem eq_of_represents (h : Represents bv l) (h' : Represents bv l') : l = l' := by
  apply ext_getElem?
  intro i
  rw [← h.getBit, h'.getBit]

theorem eq_of_holds (h : Holds bv l) (h' : Holds bv' l') :
    bv.eq bv' = if l.length = l'.length then some (decide (l = l')) else none := by
  obtain ⟨hnum, ws, hws, hlen, hbits⟩ := words_of_holds h
  obtain ⟨hnum', ws', hws', hlen', hbits'⟩ := words_of_holds h'
  unfold eq
  rw [hnum, hnum']
  by_cases hwidth : l.length = l'.length
  · have hshort : bv.isShortVector = bv'.isShortVector := by
      rw [isShortVector, isShortVector, hnum, hnum', hwidth]
    have hiff : ws = ws' ↔ l = l' := by
      constructor
      · intro heq
        exact ext_getD hwidth fun i => by rw [← hbits, ← hbits', heq]
      · intro heq
        apply ext_wordBit (by decide) (by rw [hlen, hlen', hwidth])
        exact fun i => by rw [hbits, hbits', heq]
    rw [if_neg (not_not_intro hwidth), if_pos hwidth]
    unfold words at hws hws'
    cases hs : bv.isShortVector with
    | true =>
      rw [hs, if_pos rfl] at hws
      rw [← hshort, hs, if_pos rfl] at hws'
      obtain ⟨word, hword, h⟩ := bind_eq_some_iff.mp hws
      obtain ⟨word', hword', h'⟩ := bind_eq_some_iff.mp hws'
      cases h
      cases h'
      simp only [List.cons.injEq, and_true] at hiff
      simp [hword, hword', hiff]
    | false =>
      rw [hs, if_neg Bool.false_ne_true] at hws
      rw [← hshort, hs, if_neg Bool.false_ne_true] at hws'
      simp [hws, hws', hiff]
  · rw [if_pos hwidth, if_neg hwidth]

end BitVector

end CinderX.Jit
