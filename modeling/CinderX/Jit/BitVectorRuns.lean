import CinderX.Jit.BitVectorOperations

/-!
# Programs on bit vectors

A program agrees with the one on lists as long as no width is set to a multiple of 64
while a bit of the last chunk is set, and no bits are left in a vector that was moved from.
-/

namespace CinderX.Jit

open Foundation.Words List Function

/-! ## Changing the width -/

/-- What the mask of `SetBitWidth` leaves: of the last chunk only the bits below the
remainder. -/
def cutLast (n : Nat) (l : List Bool) : List Bool :=
  l.mapIdx fun i b => b && (decide (i / 64 ≠ numChunks n - 1) || decide (i % 64 < n % 64))

theorem length_setWidth (l : List Bool) (n : Nat) : (BitSequence.setWidth l n).length = n := by
  simp only [BitSequence.setWidth, length_append, length_take, length_replicate]
  omega

theorem getD_setWidth (l : List Bool) (n i : Nat) :
    (BitSequence.setWidth l n).getD i false = (decide (i < n) && l.getD i false) := by
  unfold BitSequence.setWidth
  by_cases hi : i < (l.take n).length
  · have hi' : i < n ∧ i < l.length := by simpa using hi
    rw [getD_append _ _ _ _ hi, getD_eq_getElem _ _ hi, getElem_take,
      getD_eq_getElem _ _ hi'.2]
    simp [hi'.1]
  · rw [getD_append_right _ _ _ _ (Nat.le_of_not_lt hi), getD_replicate_false]
    by_cases hn : i < n
    · have hout : l.length ≤ i := by
        rw [length_take] at hi
        omega
      rw [getD_eq_default _ _ hout, Bool.and_false]
    · simp [hn]

theorem length_cutLast (l : List Bool) (n : Nat) :
    (cutLast n (BitSequence.setWidth l n)).length = n := by
  rw [cutLast, length_mapIdx, length_setWidth]

theorem getD_cutLast (l : List Bool) (n i : Nat) :
    (cutLast n (BitSequence.setWidth l n)).getD i false = (decide (i < n) && l.getD i false &&
      (decide (i / 64 ≠ numChunks n - 1) || decide (i % 64 < n % 64))) := by
  rw [← getD_setWidth, cutLast, getD_eq_getElem?_getD, getElem?_mapIdx,
    getD_eq_getElem?_getD]
  cases (BitSequence.setWidth l n)[i]? <;> rfl

theorem cutLast_eq_iff {l : List Bool} {n : Nat} (hn : n ≠ l.length) :
    cutLast n (BitSequence.setWidth l n) = BitSequence.setWidth l n ↔ KeepsBits l n := by
  have hcut : ∀ i, i < n → ((decide (i / 64 ≠ numChunks n - 1) || decide (i % 64 < n % 64)) = true ↔
      n % 64 ≠ 0 ∨ i + 64 < n) := fun i hi => by
    rw [Bool.or_eq_true, decide_eq_true_eq, decide_eq_true_eq, numChunks_eq]
    omega
  constructor
  · intro heq
    by_cases hmod : n % 64 = 0
    · refine .inr (.inr fun i hi hlast hset => ?_)
      have hone : l.getD i false = true := by rw [getD_eq_getElem?_getD, hset]; rfl
      have hbit := congrArg (·.getD i false) heq
      simp only [getD_cutLast, getD_setWidth, hone, hi, decide_true, Bool.true_and, hcut i hi]
        at hbit
      unfold PTR_WIDTH at hlast
      omega
    · exact .inr (.inl hmod)
  · intro hkeeps
    apply ext_getD (by rw [length_cutLast, length_setWidth])
    intro i
    rw [getD_cutLast, getD_setWidth]
    by_cases hi : i < n
    · cases hset : l.getD i false with
      | false => simp
      | true =>
        have hcond := (hcut i hi).mpr ?_
        · simp only [hcond, Bool.and_true]
        · rcases hkeeps with hsame | hmod | hclear
          · exact absurd hsame hn
          · exact .inl hmod
          · refine .inr ?_
            by_contra hlast
            apply hclear i hi (by unfold PTR_WIDTH; omega)
            have hlt : i < l.length := by
              by_contra hout
              rw [getD_eq_default _ _ (Nat.le_of_not_lt hout)] at hset
              exact Bool.noConfusion hset
            rw [getElem?_eq_getElem hlt, ← getD_eq_getElem l false hlt, hset]
    · simp [hi]

namespace BitVector

variable {bv bv' : BitVector} {l l' : List Bool} {n : Nat}

theorem getLsbD_masked (word : BitVec 64) (n i : Nat) :
    (word &&& lowMask (n % 64)).getLsbD i = (word.getLsbD i && decide (i < n % 64)) := by
  rw [BitVec.getLsbD_and, getLsbD_lowMask (Nat.le_of_lt (Nat.mod_lt _ (by decide)))]

theorem short_holds {word : BitVec 64} (hn : n ≤ 64)
    (hbits : ∀ i < 64, word.getLsbD i = l.getD i false) :
    Holds ⟨n, .bits (word &&& lowMask (n % 64))⟩ (cutLast n (BitSequence.setWidth l n)) := by
  refine .of_short (length_cutLast l n).symm hn fun i hi => ?_
  have hcut : (decide (i / 64 ≠ numChunks n - 1) || decide (i % 64 < n % 64)) =
      decide (i < n % 64) := by
    rw [numChunks_eq, Bool.eq_iff_iff, Bool.or_eq_true]
    simp only [decide_eq_true_eq]
    omega
  rw [getLsbD_masked, hbits i hi, getD_cutLast, hcut]
  by_cases hlt : i < n % 64
  · simp [hlt, show i < n by omega]
  · simp [hlt]

theorem long_holds {chunks : List (BitVec 64)} (hn : 64 < n) (hsize : chunks.length = numChunks n)
    (hbits : ∀ i, i / 64 < numChunks n → wordBit chunks i = l.getD i false) :
    Holds ⟨n, .bit_vec (chunks.modify (chunks.length - 1) (· &&& lowMask (n % 64)))⟩
      (cutLast n (BitSequence.setWidth l n)) := by
  have hlast : chunks.length - 1 < chunks.length := by
    rw [hsize, numChunks_eq]
    omega
  refine .of_long (length_cutLast l n).symm hn (by simp [hsize]) fun i => ?_
  rw [wordBit_modify hlast, getD_cutLast, hsize]
  have hcut : (decide (i / 64 ≠ numChunks n - 1) || decide (i % 64 < n % 64)) = true ↔
      i / 64 ≠ numChunks n - 1 ∨ i % 64 < n % 64 := by
    rw [Bool.or_eq_true, decide_eq_true_eq, decide_eq_true_eq]
  by_cases hi : i / 64 < numChunks n
  · have hbit := hbits i hi
    rw [← hbit, wordBit]
    split
    · next hdiv =>
        rw [getLsbD_masked, hdiv]
        by_cases hlt : i % 64 < n % 64
        · have hin : i < n := by
            rw [numChunks_eq] at hdiv
            omega
          simp [hlt, hin]
        · simp [hlt]
    · next hdiv =>
        have hin : i < n := by
          rw [numChunks_eq] at hdiv hi
          omega
        rw [hcut.mpr (.inl hdiv)]
        simp [hin]
  · have hout : ¬ i < n := by
      rw [numChunks_eq] at hi
      omega
    rw [if_neg (by omega), wordBit_of_le (by rw [hsize]; omega)]
    simp [hout]

theorem setBitWidth_holds (h : Holds bv l) (hn : n ≠ l.length) :
    ∃ res, bv.setBitWidth n = some res ∧ Holds res (cutLast n (BitSequence.setWidth l n)) := by
  unfold setBitWidth
  rw [if_neg (by rw [h.num_bits]; exact hn.symm)]
  cases h with
  | @short word _ hlen hbits =>
    rw [isShortVector_of_le hlen]
    by_cases hshort : n ≤ 64
    · rw [decide_eq_true hshort]
      exact ⟨_, rfl, short_holds hshort fun i _ => hbits i⟩
    · rw [decide_eq_false hshort]
      refine ⟨_, if_neg hshort, long_holds (Nat.lt_of_not_le hshort) ?_ fun i _ => ?_⟩
      · rw [length_cons, length_replicate, numChunks_eq]
        omega
      · rw [← singleton_append, wordBit_append_replicate_zero, wordBit_singleton, hbits]
  | @long chunks _ hlen hsize hbits =>
    rw [isShortVector_of_lt hlen]
    by_cases hshort : n ≤ 64
    · rw [decide_eq_true hshort]
      have hfirst : 0 < chunks.length := by
        rw [hsize, numChunks_eq]
        omega
      simp only [Bits.chunks, Option.bind_eq_bind, Option.bind_some,
        getElem?_eq_getElem hfirst]
      refine ⟨_, rfl, short_holds hshort fun i hi => ?_⟩
      have hbit := hbits i
      rwa [wordBit, Nat.div_eq_of_lt hi, Nat.mod_eq_of_lt hi, getD_eq_getElem _ _ hfirst]
        at hbit
    · rw [decide_eq_false hshort]
      refine ⟨_, if_neg hshort, long_holds (Nat.lt_of_not_le hshort) ?_ fun i hi => ?_⟩
      · rw [resize, length_append, length_take, length_replicate]
        omega
      · rw [resize, wordBit_append_replicate_zero, wordBit_take, decide_eq_true hi, hbits]
        rfl

theorem setBitWidth_of_keepsBits (h : Holds bv l) (hkeeps : KeepsBits l n) :
    ∃ res, bv.setBitWidth n = some res ∧ Holds res (BitSequence.setWidth l n) := by
  by_cases hn : n = l.length
  · refine ⟨bv, if_pos (by rw [h.num_bits, hn]), ?_⟩
    rw [BitSequence.setWidth, hn]
    simpa using h
  · obtain ⟨res, hres, hholds⟩ := setBitWidth_holds h hn
    rw [(cutLast_eq_iff hn).mpr hkeeps] at hholds
    exact ⟨res, hres, hholds⟩

theorem setBitWidth_loses (h : Holds bv l) (hkeeps : ¬ KeepsBits l n) :
    ∃ res, bv.setBitWidth n = some res ∧ ¬ Represents res (BitSequence.setWidth l n) := by
  have hn : n ≠ l.length := fun heq => hkeeps (.inl heq)
  obtain ⟨res, hres, hholds⟩ := setBitWidth_holds h hn
  refine ⟨res, hres, fun hrep => hkeeps ((cutLast_eq_iff hn).mp ?_)⟩
  exact eq_of_represents (represents_of_holds hholds) hrep

end BitVector

/-! ## Programs -/

variable {Var : Type}

def AllHold (s : Var → BitVector) (l : Var → List Bool) : Prop := ∀ x, Holds (s x) (l x)

variable {s : Var → BitVector} {l : Var → List Bool}

theorem AllHold.agrees (h : AllHold s l) : Agrees s l where
  represents x := BitVector.represents_of_holds (h x)
  eq x y := BitVector.eq_of_holds (h x) (h y)

variable [DecidableEq Var]

theorem AllHold.update (h : AllHold s l) (x : Var) {bv : BitVector} {bits : List Bool}
    (hx : Holds bv bits) : AllHold (Function.update s x bv) (Function.update l x bits) := by
  intro y
  by_cases hy : y = x
  · subst hy
    simpa using hx
  · simpa [hy] using h y

theorem AllHold.update_rel (h : AllHold s l) (x : Var) {res : Option BitVector}
    {bits : Option (List Bool)} (hres : Option.Rel Holds res bits) :
    Option.Rel AllHold (res.bind fun bv => some (Function.update s x bv))
      (bits.map (Function.update l x)) := by
  cases hres with
  | some hx => exact .some (h.update x hx)
  | none => exact .none

omit [DecidableEq Var] in
theorem map_ite {c : Prop} [Decidable c] (bits : List Bool) (f : List Bool → Var → List Bool) :
    (if c then some (f bits) else none) = (if c then some bits else none).map f := by
  split <;> rfl

theorem step_rel (h : AllHold s l) {op : Operation Var} (hop : op.Faithful l) :
    Option.Rel AllHold (step s op) (BitSequence.step l op) := by
  cases op with
  | construct x nb => exact .some (h.update x (BitVector.ofSize_holds nb))
  | constructValue x nb val =>
    rw [BitSequence.step, map_ite]
    exact h.update_rel x (BitVector.ofValue_rel nb val)
  | copyAssign x y =>
    rw [step, BitSequence.step]
    by_cases hxy : x = y
    · subst hxy
      rw [if_pos rfl, update_eq_self]
      exact .some h
    · rw [if_neg hxy, BitVector.copyAssign_eq (h x) (h y)]
      exact .some (h.update x (h y))
  | moveAssign x y =>
    rw [step, BitSequence.step]
    by_cases hxy : x = y
    · rw [if_pos hxy, if_pos hxy]
      exact .some h
    · rw [if_neg hxy, if_neg hxy]
      obtain ⟨hlen, hclear⟩ := hop.resolve_left hxy
      exact .some ((h.update x (h y)).update y (BitVector.moveAssign_holds (h y) hlen hclear))
  | setBit x bit v =>
    rw [BitSequence.step, map_ite]
    exact h.update_rel x (BitVector.setBit_rel (h x) bit v)
  | fill x v =>
    obtain ⟨res, hres, hx⟩ := BitVector.fill_holds (h x) v
    rw [step, hres]
    exact .some (h.update x hx)
  | resetAll x =>
    obtain ⟨res, hres, hx⟩ := BitVector.resetAll_holds (h x)
    rw [step, hres]
    exact .some (h.update x hx)
  | setBitChunk x chunk bits =>
    rw [BitSequence.step, map_ite]
    exact h.update_rel x (BitVector.setBitChunk_rel (h x) chunk bits)
  | binaryOp op x y z =>
    rw [BitSequence.step, map_ite]
    exact h.update_rel x (BitVector.binaryOp_rel op (h y) (h z))
  | binaryOpAssign op x y =>
    rw [BitSequence.step, map_ite]
    exact h.update_rel x (BitVector.binaryOpAssign_rel op (h x) (h y))
  | addBits x i =>
    obtain ⟨res, hres, hx⟩ := BitVector.setBitWidth_of_keepsBits (h x) hop
    rw [step, BitVector.addBits, (h x).num_bits, hres]
    exact .some (h.update x hx)
  | setBitWidth x size =>
    obtain ⟨res, hres, hx⟩ := BitVector.setBitWidth_of_keepsBits (h x) hop
    rw [step, hres]
    exact .some (h.update x hx)

theorem step_disagrees (h : AllHold s l) {op : Operation Var} (hop : ¬ op.Faithful l) :
    ∃ s' l', step s op = some s' ∧ BitSequence.step l op = some l' ∧ ¬ Agrees s' l' := by
  cases op with
  | moveAssign x y =>
    obtain ⟨hxy, hbits⟩ := not_or.mp hop
    rw [step, BitSequence.step]
    rw [if_neg hxy, if_neg hxy]
    refine ⟨_, _, rfl, rfl, fun hagrees => ?_⟩
    have hy := hagrees.represents y
    rw [update_self, update_self] at hy
    exact BitVector.not_represents_moved (h y) hbits hy
  | addBits x i =>
    obtain ⟨res, hres, hx⟩ := BitVector.setBitWidth_loses (h x) hop
    rw [step, BitVector.addBits, (h x).num_bits, hres]
    refine ⟨_, _, rfl, rfl, fun hagrees => hx ?_⟩
    have hrep := hagrees.represents x
    rwa [update_self, update_self] at hrep
  | setBitWidth x size =>
    obtain ⟨res, hres, hx⟩ := BitVector.setBitWidth_loses (h x) hop
    rw [step, hres]
    refine ⟨_, _, rfl, rfl, fun hagrees => hx ?_⟩
    have hrep := hagrees.represents x
    rwa [update_self, update_self] at hrep
  | _ => exact absurd trivial hop

theorem run_cons (op : Operation Var) (ops : List (Operation Var)) :
    run s (op :: ops) = (step s op).bind fun s' => run s' ops := rfl

theorem BitSequence.run_cons (op : Operation Var) (ops : List (Operation Var)) :
    BitSequence.run l (op :: ops) =
      (BitSequence.step l op).bind fun l' => BitSequence.run l' ops := rfl

theorem runs_agree_iff (h : AllHold s l) (ops : List (Operation Var)) :
    (∀ n, Option.Rel Agrees (run s (ops.take n)) (BitSequence.run l (ops.take n))) ↔
      Faithful l ops := by
  induction ops generalizing s l with
  | nil =>
    constructor
    · exact fun _ => trivial
    · intro _ n
      rw [take_nil]
      exact .some h.agrees
  | cons op ops ih =>
    constructor
    · intro hagree
      have hop : op.Faithful l := by
        by_contra hnot
        obtain ⟨s', l', hs, hl, hdisagrees⟩ := step_disagrees h hnot
        have hone := hagree 1
        rw [take_succ_cons, take_zero, run_cons, BitSequence.run_cons, hs, hl] at hone
        cases hone with
        | some hagrees => exact hdisagrees hagrees
      refine ⟨hop, fun l' hl => ?_⟩
      have hrel := step_rel h hop
      rw [hl] at hrel
      cases hs : step s op with
      | none =>
        rw [hs] at hrel
        cases hrel
      | some s' =>
        rw [hs] at hrel
        cases hrel with
        | some h' =>
          rw [← ih h']
          intro n
          have hlater := hagree (n + 1)
          rwa [take_succ_cons, run_cons, BitSequence.run_cons, hs, hl] at hlater
    · rintro ⟨hop, hops⟩ n
      cases n with
      | zero =>
        rw [take_zero]
        exact .some h.agrees
      | succ n =>
        rw [take_succ_cons, run_cons, BitSequence.run_cons]
        have hrel := step_rel h hop
        cases hl : BitSequence.step l op with
        | none =>
          rw [hl] at hrel
          cases hs : step s op with
          | none => exact .none
          | some s' =>
            rw [hs] at hrel
            cases hrel
        | some l' =>
          rw [hl] at hrel
          cases hs : step s op with
          | none =>
            rw [hs] at hrel
            cases hrel
          | some s' =>
            rw [hs] at hrel
            cases hrel with
            | some h' => exact (ih h').mpr (hops l' hl) n

/-- A program on new vectors shows the bits of the program on lists after each of its
operations if and only if every operation of it is faithful. -/
theorem bitVector_refines_iff (ops : List (Operation Var)) :
    (∀ n, Option.Rel Agrees (run (fun _ => .empty) (ops.take n))
      (BitSequence.run (fun _ => []) (ops.take n))) ↔ Faithful (fun _ => []) ops :=
  runs_agree_iff (fun _ => BitVector.empty_holds) ops

def narrowing : List (Operation Unit) :=
  [.construct () 65, .setBit () 0 true, .setBitWidth () 64]

theorem narrowing_loses_bit :
    ∃ s l, run (fun _ => .empty) narrowing = some s ∧
      BitSequence.run (fun _ => []) narrowing = some l ∧
      (l ())[0]? = some true ∧ (s ()).getBit 0 = some false ∧
      ¬ ∀ n, Option.Rel Agrees (run (fun _ => .empty) (narrowing.take n))
        (BitSequence.run (fun _ => []) (narrowing.take n)) := by
  refine ⟨_, _, rfl, rfl, by decide, by decide, fun hagree => ?_⟩
  have hlast := hagree 3
  cases hlast with
  | some hagrees =>
    have hbit := (hagrees.represents ()).getBit 0
    revert hbit
    decide

end CinderX.Jit
