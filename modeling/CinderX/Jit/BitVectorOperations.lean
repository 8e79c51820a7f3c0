import CinderX.Jit.BitVectorCorrect

/-!
# The operations on bit vectors

Each operation turns vectors that hold their bits into one that holds the bits that the
list operation gives, and fails a check where that one has no result.
-/

namespace CinderX.Jit

open Foundation.Words List

theorem Holds.of_short {n : Nat} {word : BitVec 64} {l : List Bool} (hnum : n = l.length)
    (hlen : n ≤ 64) (hbits : ∀ i < 64, word.getLsbD i = l.getD i false) :
    Holds ⟨n, .bits word⟩ l := by
  subst hnum
  refine .short hlen fun i => ?_
  by_cases hi : i < 64
  · exact hbits i hi
  · have hout : 64 ≤ i := Nat.le_of_not_lt hi
    rw [BitVec.getLsbD_of_ge _ _ hout, getD_eq_default _ _ (Nat.le_trans hlen hout)]

theorem Holds.of_long {n : Nat} {chunks : List (BitVec 64)} {l : List Bool} (hnum : n = l.length)
    (hlen : 64 < n) (hsize : chunks.length = numChunks n)
    (hbits : ∀ i, wordBit chunks i = l.getD i false) : Holds ⟨n, .bit_vec chunks⟩ l := by
  subst hnum
  exact .long hlen hsize hbits

theorem Holds.num_bits {bv : BitVector} {l : List Bool} (h : Holds bv l) :
    bv.num_bits = l.length := by
  cases h <;> rfl

theorem getD_replicate (n i : Nat) (v : Bool) :
    (replicate n v).getD i false = (decide (i < n) && v) := by
  rw [getD_eq_getElem?_getD, getElem?_replicate]
  by_cases hi : i < n <;> simp [hi]

theorem getD_set (l : List Bool) (bit : Nat) (v : Bool) (hbit : bit < l.length) (i : Nat) :
    (l.set bit v).getD i false = if i = bit then v else l.getD i false := by
  simp only [getD_eq_getElem?_getD, getElem?_set, eq_comm (a := bit)]
  by_cases hi : i = bit
  · simp [hi, hbit]
  · simp [hi]

theorem getD_setChunk (l : List Bool) (chunk : Nat) (bits : BitVec 64) (i : Nat) :
    (BitSequence.setChunk l chunk bits).getD i false =
      (decide (i < l.length) &&
        if i / 64 = chunk then bits.getLsbD (i % 64) else l.getD i false) := by
  unfold BitSequence.setChunk
  rw [getD_eq_getElem?_getD, getElem?_mapIdx]
  by_cases hi : i < l.length
  · simp only [PTR_WIDTH, getElem?_eq_getElem hi, Option.map_some, Option.getD_some, hi,
      decide_true, Bool.true_and, getD_eq_getElem _ _ hi]
  · simp [hi]

theorem getD_zipWith (op : BitOp) {l l' : List Bool} (hlen : l.length = l'.length) (i : Nat) :
    (zipWith op.bool l l').getD i false = op.bool (l.getD i false) (l'.getD i false) := by
  simp only [getD_eq_getElem?_getD, getElem?_zipWith]
  by_cases hi : i < l.length
  · have hi' : i < l'.length := hlen ▸ hi
    simp [hi, hi']
  · have hout : l.length ≤ i := Nat.le_of_not_lt hi
    simp only [getElem?_eq_none hout, getElem?_eq_none (hlen ▸ hout)]
    cases op <;> rfl

theorem getLsbD_word (op : BitOp) (a b : BitVec 64) (i : Nat) :
    (op.word a b).getLsbD i = op.bool (a.getLsbD i) (b.getLsbD i) := by
  cases op with
  | and => exact BitVec.getLsbD_and
  | or => exact BitVec.getLsbD_or
  | sub =>
    rw [BitOp.word, BitVec.getLsbD_and, BitVec.getLsbD_not]
    by_cases hi : i < 64
    · simp [hi, BitOp.bool]
    · simp [BitVec.getLsbD_of_ge _ _ (Nat.le_of_not_lt hi), BitOp.bool]

namespace BitVector

variable {bv bv' : BitVector} {l l' : List Bool}

theorem empty_holds : Holds empty [] := .of_short rfl (by decide) fun i _ => by simp

theorem ofSize_holds (nb : Nat) : Holds (ofSize nb) (replicate nb false) := by
  unfold ofSize
  split
  · next hshort =>
      exact .of_short (by simp) hshort fun i _ => by rw [getD_replicate_false]; simp
  · next hlong =>
      refine .of_long (by simp) (Nat.lt_of_not_le hlong) (by simp) fun i => ?_
      rw [wordBit_replicate_zero, getD_replicate_false]

theorem ofValue_eq {nb : Nat} (hnb : nb ≤ 64) {val : BitVec 64}
    (habove : ∀ i, nb ≤ i → val.getLsbD i = false) : ofValue nb val = some ⟨nb, .bits val⟩ :=
  if_pos ⟨hnb, .inr ((above_eq_zero_iff hnb val).mpr habove)⟩

theorem ofValue_rel (nb : Nat) (val : BitVec 64) : Option.Rel Holds (ofValue nb val)
    (if nb ≤ PTR_WIDTH ∧ val.toNat < 2 ^ nb then some ((range nb).map val.getLsbD)
      else none) := by
  by_cases hnb : nb ≤ 64
  · by_cases hval : val.toNat < 2 ^ nb
    · have habove := (lt_two_pow_iff val).mp hval
      rw [if_pos ⟨hnb, hval⟩, ofValue_eq hnb habove]
      refine .some (.of_short (by simp) hnb fun i _ => ?_)
      rw [getD_eq_getElem?_getD, getElem?_map]
      by_cases hi : i < nb
      · simp [hi]
      · simp [hi, habove i (Nat.le_of_not_lt hi)]
    · have hfull : nb ≠ 64 := by
        rintro rfl
        exact hval val.isLt
      have hmask : ¬ val &&& ~~~lowMask nb = 0 := fun hzero =>
        hval ((lt_two_pow_iff val).mpr ((above_eq_zero_iff hnb val).mp hzero))
      rw [if_neg (by simp [hval]), ofValue, if_neg fun hok => hmask (hok.2.resolve_left hfull)]
      exact .none
  · rw [if_neg (by simp [PTR_WIDTH, hnb]), ofValue, if_neg (by simp [hnb])]
    exact .none

theorem copyAssign_eq (h : Holds bv l) (h' : Holds bv' l') : bv.copyAssign bv' = some bv' := by
  unfold copyAssign
  cases h' with
  | short hlen' =>
    rw [isShortVector_of_le hlen']
  | long hlen' =>
    rw [isShortVector_of_lt hlen']
    cases h with
    | short hlen =>
      rw [isShortVector_of_le hlen]
      rfl
    | long hlen =>
      rw [isShortVector_of_lt hlen]
      rfl

theorem moveAssign_holds (h : Holds bv l) (hlen : l.length ≤ 64) (hclear : true ∉ l) :
    Holds bv.moveAssign.2 [] := by
  cases h with
  | short _ hbits =>
    refine .of_short rfl (by decide) fun i _ => ?_
    rw [hbits]
    by_contra hset
    rw [getD_nil, Bool.not_eq_false, getD_eq_getElem?_getD] at hset
    cases hget : l[i]? with
    | none => simp [hget] at hset
    | some b =>
      rw [hget, Option.getD_some] at hset
      exact hclear (hset ▸ mem_of_getElem? hget)
  | long hlong => exact absurd hlen (Nat.not_le.mpr hlong)

theorem not_represents_moved (h : Holds bv l) (hbits : ¬ (l.length ≤ 64 ∧ true ∉ l)) :
    ¬ Represents bv.moveAssign.2 [] := by
  intro hrep
  obtain ⟨ws, hws, hclear⟩ := hrep.clean
  apply hbits
  cases h with
  | @short word _ hlen hword =>
    refine ⟨hlen, fun hmem => ?_⟩
    obtain ⟨i, hi, htrue⟩ := mem_iff_getElem.mp hmem
    cases hws
    have hfalse := hclear i (Nat.zero_le i)
    rw [wordBit_singleton, hword, getD_eq_getElem _ _ hi, htrue] at hfalse
    exact Bool.noConfusion hfalse
  | long => cases hws

theorem binaryOp_of_length_eq (op : BitOp) (h : Holds bv l) (h' : Holds bv' l')
    (hlen : l.length = l'.length) : ∃ res, Holds res (zipWith op.bool l l') ∧
      bv.binaryOp op bv' = some res ∧ bv.binaryOpAssign op bv' = some res := by
  have hzip : l.length = (zipWith op.bool l l').length := by simp [hlen]
  have hnum : ¬ bv.num_bits ≠ bv'.num_bits := by
    rw [h.num_bits, h'.num_bits]
    exact not_not_intro hlen
  unfold binaryOp binaryOpAssign
  rw [if_neg hnum, if_neg hnum]
  cases h with
  | @short word _ hshort hbits =>
    cases h' with
    | long hlong' => exact absurd (hlen ▸ hshort) (Nat.not_le.mpr hlong')
    | @short word' _ _ hbits' =>
      have hop : ∀ i, (op.word word word').getLsbD i =
          (zipWith op.bool l l').getD i false := fun i => by
        rw [getLsbD_word, hbits, hbits', getD_zipWith op hlen]
      have habove : ∀ i, l.length ≤ i → (op.word word word').getLsbD i = false :=
        fun i hi => by rw [hop, getD_eq_default _ _ (hzip ▸ hi)]
      refine ⟨_, .of_short hzip hshort fun i _ => hop i, ?_, ?_⟩
      · rw [isShortVector_of_le hshort]
        exact ofValue_eq hshort habove
      · rw [isShortVector_of_le hshort]
        rfl
  | @long chunks _ hlong hsize hbits =>
    cases h' with
    | short hshort' => exact absurd (hlen ▸ hshort') (Nat.not_le.mpr hlong)
    | @long chunks' _ _ hsize' hbits' =>
      have hsame : chunks.length = chunks'.length := by rw [hsize, hsize', hlen]
      have hop : ∀ i, wordBit (zipWith op.word chunks chunks') i =
          (zipWith op.bool l l').getD i false := fun i => by
        rw [wordBit_zipWith (getLsbD_word op) (by cases op <;> rfl) hsame, hbits, hbits',
          getD_zipWith op hlen]
      refine ⟨_, .of_long hzip hlong (by simp [hsame, hsize', hlen]) hop, ?_, ?_⟩
      · rw [isShortVector_of_lt hlong]
        rfl
      · rw [isShortVector_of_lt hlong]
        rfl

theorem binaryOp_rel (op : BitOp) (h : Holds bv l) (h' : Holds bv' l') :
    Option.Rel Holds (bv.binaryOp op bv')
      (if l.length = l'.length then some (zipWith op.bool l l') else none) := by
  by_cases hlen : l.length = l'.length
  · obtain ⟨res, hres, hop, -⟩ := binaryOp_of_length_eq op h h' hlen
    rw [if_pos hlen, hop]
    exact .some hres
  · rw [if_neg hlen, binaryOp, if_pos (by rwa [h.num_bits, h'.num_bits])]
    exact .none

theorem binaryOpAssign_rel (op : BitOp) (h : Holds bv l) (h' : Holds bv' l') :
    Option.Rel Holds (bv.binaryOpAssign op bv')
      (if l.length = l'.length then some (zipWith op.bool l l') else none) := by
  by_cases hlen : l.length = l'.length
  · obtain ⟨res, hres, -, hop⟩ := binaryOp_of_length_eq op h h' hlen
    rw [if_pos hlen, hop]
    exact .some hres
  · rw [if_neg hlen, binaryOpAssign, if_pos (by rwa [h.num_bits, h'.num_bits])]
    exact .none

/-! ## Setting bits -/

theorem resetAll_holds (h : Holds bv l) :
    ∃ res, bv.resetAll = some res ∧ Holds res (replicate l.length false) := by
  unfold resetAll
  cases h with
  | short hlen =>
    rw [isShortVector_of_le hlen]
    exact ⟨_, rfl, .of_short (by simp) hlen fun i _ => by rw [getD_replicate_false]; simp⟩
  | @long chunks _ hlen hsize =>
    rw [isShortVector_of_lt hlen]
    refine ⟨_, rfl, .of_long (by simp) hlen (by simp [hsize]) fun i => ?_⟩
    rw [map_const', wordBit_replicate_zero, getD_replicate_false]

theorem getLsbD_neg_one {i : Nat} (hi : i < 64) : (-1 : BitVec 64).getLsbD i = true := by
  have hones : (-1 : BitVec 64) = BitVec.allOnes 64 := by decide
  rw [hones, BitVec.getLsbD_allOnes, decide_eq_true hi]

theorem fill_holds (h : Holds bv l) (v : Bool) :
    ∃ res, bv.fill v = some res ∧ Holds res (replicate l.length v) := by
  unfold fill
  cases v with
  | false => exact resetAll_holds h
  | true =>
    rw [if_neg (by decide)]
    cases h with
    | short hlen =>
      rw [isShortVector_of_le hlen, if_pos rfl]
      by_cases hfull : l.length = 64
      · refine ⟨_, if_pos hfull, .of_short (by simp) hlen fun i hi => ?_⟩
        rw [getLsbD_neg_one hi, getD_replicate]
        simp [hfull, hi]
      · refine ⟨_, if_neg hfull, .of_short (by simp) hlen fun i _ => ?_⟩
        rw [getLsbD_lowMask hlen, getD_replicate, Bool.and_true]
    | @long chunks _ hlen hsize =>
      rw [isShortVector_of_lt hlen]
      rw [numChunks_eq] at hsize
      refine ⟨_, rfl, .of_long (by simp) hlen ?_ fun i => ?_⟩
      · simp only [length_append, length_map, length_dropLast,
          length_singleton, hsize, numChunks_eq]
        omega
      · have hinit : (chunks.dropLast.map fun _ => (-1 : BitVec 64)).length =
            (l.length + 63) / 64 - 1 := by simp [hsize]
        rw [getD_replicate, Bool.and_true, wordBit]
        simp only [PTR_WIDTH]
        by_cases hi : i / 64 < (l.length + 63) / 64 - 1
        · rw [getD_append _ _ _ _ (hinit ▸ hi), getD_eq_getElem _ _ (hinit ▸ hi),
            getElem_map, getLsbD_neg_one (Nat.mod_lt i (by decide))]
          exact (decide_eq_true (by omega)).symm
        · have hout : (chunks.dropLast.map fun _ => (-1 : BitVec 64)).length ≤ i / 64 :=
            hinit ▸ Nat.le_of_not_lt hi
          rw [getD_append_right _ _ _ _ hout, hinit]
          by_cases hlast : i / 64 = (l.length + 63) / 64 - 1
          · rw [hlast, Nat.sub_self, getD_cons_zero]
            by_cases hmod : l.length % 64 = 0
            · rw [if_pos hmod, getLsbD_neg_one (Nat.mod_lt i (by decide))]
              exact (decide_eq_true (by omega)).symm
            · rw [if_neg hmod, getLsbD_lowMask (Nat.le_of_lt (Nat.mod_lt _ (by decide)))]
              exact decide_eq_decide.mpr (by omega)
          · rw [getD_eq_default _ _ (by simp; omega)]
            exact BitVec.getLsbD_zero.trans (decide_eq_false (by omega)).symm

theorem setBit_rel (h : Holds bv l) (bit : Nat) (v : Bool) :
    Option.Rel Holds (bv.setBit bit v)
      (if bit < l.length then some (l.set bit v) else none) := by
  unfold setBit
  by_cases hbit : bit < l.length
  · rw [if_neg (by rw [h.num_bits]; exact not_not_intro hbit), if_pos hbit]
    cases h with
    | short hlen hbits =>
      rw [isShortVector_of_le hlen]
      refine .some (.of_short (by simp) hlen fun i hi => ?_)
      rw [getLsbD_setWordBit hi, hbits, getD_set _ _ _ hbit]
    | @long chunks _ hlen hsize hbits =>
      rw [isShortVector_of_lt hlen]
      have hchunk : bit / PTR_WIDTH < chunks.length := by
        rw [hsize, numChunks_eq, PTR_WIDTH]
        omega
      simp only [Bool.false_eq_true, if_false, Bits.chunks, Option.bind_eq_bind, Option.bind_some,
        if_pos hchunk]
      refine .some (.of_long (by simp) hlen (by simp [hsize]) fun i => ?_)
      have hword := hbits i
      rw [wordBit_modify hchunk, getLsbD_setWordBit (Nat.mod_lt i (by decide)),
        getD_set _ _ _ hbit, ← hbits, wordBit]
      unfold PTR_WIDTH
      by_cases hi : i = bit
      · subst hi
        simp
      · by_cases hdiv : i / 64 = bit / 64
        · rw [if_pos hdiv, if_neg (by omega), if_neg hi, hdiv]
        · rw [if_neg hdiv, if_neg hi]
  · rw [if_pos (by rwa [h.num_bits]), if_neg hbit]
    exact .none

theorem setBitChunk_check_iff {n chunk : Nat} (bits : BitVec 64)
    (hchunk : chunk < (n + PTR_WIDTH - 1) / PTR_WIDTH) :
    ¬ (chunk = (n + PTR_WIDTH - 1) / PTR_WIDTH - 1 ∧ n % PTR_WIDTH ≠ 0 ∧
        ~~~lowMask (n % PTR_WIDTH) &&& bits ≠ 0) ↔
      ∀ i < PTR_WIDTH, bits.getLsbD i → PTR_WIDTH * chunk + i < n := by
  simp only [PTR_WIDTH] at *
  have habove := above_eq_zero_iff (Nat.le_of_lt (Nat.mod_lt n (by decide : 0 < 64))) bits
  rw [BitVec.and_comm] at habove
  by_cases hlast : chunk = (n + 64 - 1) / 64 - 1 ∧ n % 64 ≠ 0
  · rw [show (chunk = (n + 64 - 1) / 64 - 1 ∧ n % 64 ≠ 0 ∧ ~~~lowMask (n % 64) &&& bits ≠ 0) ↔
        ~~~lowMask (n % 64) &&& bits ≠ 0 from by simp [hlast.1, hlast.2], not_not, habove]
    constructor
    · intro hclear i hi hset
      by_contra hout
      exact Bool.false_ne_true ((hclear i (by omega)).symm.trans hset)
    · intro hbelow i hi
      by_contra hset
      rw [Bool.not_eq_false] at hset
      have hlt := hbelow i (BitVec.lt_of_getLsbD hset) hset
      omega
  · constructor
    · intro _ i hi _
      omega
    · intro _ hbad
      exact hlast ⟨hbad.1, hbad.2.1⟩

theorem setBitChunk_rel (h : Holds bv l) (chunk : Nat) (bits : BitVec 64) :
    Option.Rel Holds (bv.setBitChunk chunk bits)
      (if PTR_WIDTH * chunk < l.length ∧
          ∀ i < PTR_WIDTH, bits.getLsbD i → PTR_WIDTH * chunk + i < l.length then
        some (BitSequence.setChunk l chunk bits) else none) := by
  unfold setBitChunk
  simp only [h.num_bits]
  have hcount : chunk < (l.length + PTR_WIDTH - 1) / PTR_WIDTH ↔ PTR_WIDTH * chunk < l.length := by
    unfold PTR_WIDTH
    omega
  by_cases hchunk : PTR_WIDTH * chunk < l.length
  · have hcheck := setBitChunk_check_iff bits (hcount.mpr hchunk)
    rw [if_neg (not_not_intro (hcount.mpr hchunk))]
    by_cases hfits : ∀ i < PTR_WIDTH, bits.getLsbD i → PTR_WIDTH * chunk + i < l.length
    · rw [if_neg (hcheck.mpr hfits), if_pos (And.intro hchunk hfits)]
      have hwidth : l.length = (BitSequence.setChunk l chunk bits).length := by
        simp [BitSequence.setChunk]
      have hout : ∀ i, i / 64 = chunk → bits.getLsbD (i % 64) = true → i < l.length := by
        intro i hi hset
        have hlt := hfits (i % 64) (Nat.mod_lt i (by decide)) hset
        unfold PTR_WIDTH at hlt
        omega
      cases h with
      | short hlen hbits =>
        rw [isShortVector_of_le hlen]
        refine .some (.of_short hwidth hlen fun i hi => ?_)
        have hzero : chunk = 0 := by
          unfold PTR_WIDTH at hchunk
          omega
        subst hzero
        rw [getD_setChunk, if_pos (Nat.div_eq_of_lt hi), Nat.mod_eq_of_lt hi]
        by_cases hlt : i < l.length
        · simp [hlt]
        · rw [decide_eq_false hlt, Bool.false_and]
          by_contra hset
          rw [Bool.not_eq_false] at hset
          exact hlt (hout i (Nat.div_eq_of_lt hi) (by rwa [Nat.mod_eq_of_lt hi]))
      | @long chunks _ hlen hsize hbits =>
        rw [isShortVector_of_lt hlen]
        refine .some (.of_long hwidth hlen (by simp [hsize]) fun i => ?_)
        have hlt : chunk < chunks.length := by
          rw [hsize, numChunks_eq]
          unfold PTR_WIDTH at hchunk
          omega
        rw [set_eq_modify, wordBit_modify hlt, getD_setChunk]
        by_cases hi : i < l.length
        · simp [hi, hbits]
        · rw [decide_eq_false hi, Bool.false_and]
          split
          · next hdiv =>
              by_contra hset
              rw [Bool.not_eq_false] at hset
              exact hi (hout i hdiv hset)
          · rw [hbits, getD_eq_default _ _ (Nat.le_of_not_lt hi)]
    · rw [if_pos (by by_contra hok; exact hfits (hcheck.mp hok)), if_neg fun hok => hfits hok.2]
      exact .none
  · rw [if_pos (by rwa [hcount]), if_neg fun hok => hchunk hok.1]
    exact .none

end BitVector

end CinderX.Jit
