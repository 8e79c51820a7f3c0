import CinderX.Jit.Codegen.ArchImmediates

/-!
# The helpers for immediates are exact
-/

namespace CinderX.Jit.Codegen.Arch

open CinderX.Foundation Nat

/-! ## The constants -/

variable {w : Nat} {hi lo offset : BitVec 32} {value : BitVec 64} {scratch base : Fin 32}
  {size : AccessSize}

theorem and_not_eq_zero_iff {x m : BitVec w} : x &&& ~~~m = 0 ↔ x &&& m = x := by
  constructor
  · intro h
    apply BitVec.eq_of_getLsbD_eq
    intro i hi
    have hbit : (x &&& ~~~m).getLsbD i = false := by rw [h]; simp
    rw [BitVec.getLsbD_and, BitVec.getLsbD_not] at hbit
    rw [BitVec.getLsbD_and]
    grind
  · intro h
    rw [← h]
    apply BitVec.eq_of_getLsbD_eq
    intro i hi
    simp [hi]

theorem and_shifted (imm : BitVec 64) :
    (imm &&& 0xFFF#64 <<< 12).toNat = imm.toNat / 2 ^ 12 % 2 ^ 12 * 2 ^ 12 := by
  have hsplit : imm &&& 0xFFF#64 <<< 12 = (imm >>> 12 &&& 0xFFF#64) <<< 12 := by
    apply BitVec.eq_of_getLsbD_eq
    intro i hi
    rw [BitVec.getLsbD_and, BitVec.getLsbD_shiftLeft, BitVec.getLsbD_shiftLeft,
      BitVec.getLsbD_and, BitVec.getLsbD_ushiftRight]
    by_cases hlt : i < 12
    · simp [hlt]
    · simp [hlt, hi, show 12 + (i - 12) = i by omega]
  have hlow : (imm >>> 12 &&& 0xFFF#64).toNat = imm.toNat / 2 ^ 12 % 2 ^ 12 := by
    rw [BitVec.toNat_and, BitVec.toNat_ushiftRight, shiftRight_eq_div_pow]
    exact and_two_pow_sub_one_eq_mod _ 12
  rw [hsplit, BitVec.toNat_shiftLeft, hlow, shiftLeft_eq, mod_eq_of_lt (by omega)]

theorem fitsShifted_iff {imm : BitVec 64} :
    fitsShifted imm = true ↔ 2 ^ 12 ∣ imm.toNat ∧ imm.toNat < 2 ^ 24 := by
  rw [fitsShifted, decide_eq_true_iff, and_not_eq_zero_iff, ← BitVec.toNat_inj, and_shifted]
  omega

theorem lt_imm {imm : BitVec 64} : 0xFFF < imm ↔ 2 ^ 12 ≤ imm.toNat := by
  rw [BitVec.lt_def]
  exact succ_le_iff.symm

theorem isAddSubImm_iff {imm : BitVec 64} :
    isAddSubImm imm = true ↔ imm.toNat < 2 ^ 12 ∨ 2 ^ 12 ∣ imm.toNat ∧ imm.toNat < 2 ^ 24 := by
  rw [isAddSubImm, Bool.or_eq_true, decide_eq_true_iff, fitsShifted_iff, ← BitVec.not_lt, lt_imm]
  omega

theorem value_encodeImm12 {imm : BitVec 64} (h : isAddSubImm imm = true) :
    (encodeImm12 imm false).map Imm12.value = some imm := by
  rw [isAddSubImm_iff] at h
  unfold encodeImm12
  split
  case isTrue hlt =>
    rw [lt_imm] at hlt
    have hfits : fitsShifted imm = true := fitsShifted_iff.2 (by omega)
    simp only [hfits, Bool.false_eq_true, Bool.true_eq_false, or_self, if_false, Option.map_some]
    congr 1
    apply BitVec.eq_of_toNat_eq
    simp [Imm12.value, shiftRight_eq_div_pow, shiftLeft_eq]
    omega
  case isFalse hle =>
    rw [lt_imm] at hle
    rw [Option.map_some]
    congr 1
    apply BitVec.eq_of_toNat_eq
    simp [Imm12.value]
    omega

theorem value_encodeImm12_shifted (h : hi.toNat < 2 ^ 12) :
    (encodeImm12 (hi.setWidth 64) true).map Imm12.value = some (hi.setWidth 64 <<< 12) := by
  have hle : ¬ 0xFFF < hi.setWidth 64 := by
    rw [lt_imm, BitVec.toNat_setWidth]
    omega
  rw [encodeImm12, if_neg hle, Option.map_some]
  congr 1
  apply BitVec.eq_of_toNat_eq
  simp [Imm12.value, shiftLeft_eq]
  omega

theorem splitAddSubImm_eq_some {imm : BitVec 64} (h : splitAddSubImm imm = some (hi, lo)) :
    hi.toNat < 2 ^ 12 ∧ lo.toNat < 2 ^ 12 ∧ imm.toNat = hi.toNat * 2 ^ 12 + lo.toNat := by
  have hmask : (imm &&& kAddSubImmMask).toNat = imm.toNat % 2 ^ 12 := by
    rw [BitVec.toNat_and]
    exact and_two_pow_sub_one_eq_mod _ 12
  have hmax : kMaxSplitAddSubImm.toNat = 2 ^ 24 - 1 := by decide
  rw [splitAddSubImm] at h
  split at h
  · cases h
  case isFalse hsplit =>
    have hle : imm.toNat ≤ 2 ^ 24 - 1 := by
      rw [← hmax, ← BitVec.le_def, ← BitVec.not_lt]
      tauto
    simp only [Option.ite_none_left_eq_some, Option.some.injEq, Prod.mk.injEq] at h
    obtain ⟨-, rfl, rfl⟩ := h
    rw [BitVec.toNat_setWidth, BitVec.toNat_setWidth, BitVec.toNat_ushiftRight, hmask,
      kAddSubImmShift, shiftRight_eq_div_pow]
    omega

theorem toNat_and_mask (imm : BitVec 64) : (imm &&& kAddSubImmMask).toNat = imm.toNat % 2 ^ 12 := by
  rw [BitVec.toNat_and]
  exact and_two_pow_sub_one_eq_mod _ 12

theorem toNat_kMaxSplitAddSubImm : kMaxSplitAddSubImm.toNat = 2 ^ 24 - 1 := by decide

theorem splitAddSubImm_isSome {imm : BitVec 64} (hlt : imm.toNat < 2 ^ 24)
    (h : isAddSubImm imm = false) : ∃ hi lo, splitAddSubImm imm = some (hi, lo) := by
  have hnot : ¬ isAddSubImm imm = true := by simp [h]
  rw [isAddSubImm_iff] at hnot
  have hsmall : ¬ (imm = 0 ∨ kMaxSplitAddSubImm < imm ∨ isAddSubImm imm = true) := by
    rw [BitVec.lt_def, toNat_kMaxSplitAddSubImm, isAddSubImm_iff]
    rintro (rfl | hbig | hsome)
    · simp at hnot
    · omega
    · exact hnot hsome
  have hhi : ((imm >>> kAddSubImmShift).setWidth 32).toNat = imm.toNat / 2 ^ 12 := by
    rw [BitVec.toNat_setWidth, BitVec.toNat_ushiftRight, shiftRight_eq_div_pow, kAddSubImmShift]
    omega
  have hlo : ((imm &&& kAddSubImmMask).setWidth 32).toNat = imm.toNat % 2 ^ 12 := by
    rw [BitVec.toNat_setWidth, toNat_and_mask]
    omega
  have hparts : ¬ ((imm >>> kAddSubImmShift).setWidth 32 = 0 ∨
      0xfff < (imm >>> kAddSubImmShift).setWidth 32 ∨
      (imm &&& kAddSubImmMask).setWidth 32 = 0) := by
    rw [← BitVec.toNat_inj, BitVec.lt_def, ← BitVec.toNat_inj, hhi, hlo]
    rw [show (0 : BitVec 32).toNat = 0 from rfl, show (0xfff : BitVec 32).toNat = 0xfff from rfl]
    omega
  refine ⟨(imm >>> kAddSubImmShift).setWidth 32, (imm &&& kAddSubImmMask).setWidth 32, ?_⟩
  rw [splitAddSubImm, if_neg hsmall]
  exact if_neg hparts

@[simp] theorem State.read_write (st : State) (reg : Gp) (value : BitVec reg.type.bits) :
    (st.write reg value).read reg = value := by
  have hle := reg.type.bits_le
  simp [State.read, State.write, BitVec.setWidth_setWidth_of_le _ hle]

theorem AddSub.apply_apply (op : AddSub) (x y z : BitVec w) :
    op.apply (op.apply x y) z = op.apply x (y + z) := by
  cases op
  · exact BitVec.add_assoc x y z
  · simp only [AddSub.apply, BitVec.sub_eq_add_neg, BitVec.neg_add, BitVec.add_assoc]

variable {st : State} {type : RegType} {res lhs : Fin 32} {imm : BitVec 64} {op : AddSub}

theorem setWidth_split (h : splitAddSubImm imm = some (hi, lo)) :
    imm.setWidth type.bits =
      (hi.setWidth 64 <<< 12).setWidth type.bits + (lo.setWidth 64).setWidth type.bits := by
  have hsplit := splitAddSubImm_eq_some h
  rw [← BitVec.setWidth_add _ _ type.bits_le]
  congr 1
  apply BitVec.eq_of_toNat_eq
  simp [shiftLeft_eq]
  omega

theorem isAddSubImm_low (h : splitAddSubImm imm = some (hi, lo)) :
    isAddSubImm (lo.setWidth 64) = true := by
  have hsplit := splitAddSubImm_eq_some h
  rw [isAddSubImm_iff, BitVec.toNat_setWidth]
  omega

theorem step_arithImm {lsl12 : Bool} (h : (encodeImm12 imm lsl12).map Imm12.value = some value) :
    step st (.arithImm op ⟨res, type⟩ ⟨lhs, type⟩ imm lsl12) =
      some (st.write ⟨res, type⟩ (op.apply (st.read ⟨lhs, type⟩) (value.setWidth type.bits))) := by
  obtain ⟨field, hfield, rfl⟩ := Option.map_eq_some_iff.1 h
  simp [step, hfield]

theorem step_cmpImm (h : (encodeImm12 imm false).map Imm12.value = some value) :
    step st (.cmpImm op ⟨lhs, type⟩ imm) =
      some { st with flags := op.flags (st.read ⟨lhs, type⟩) (value.setWidth type.bits) } := by
  obtain ⟨field, hfield, rfl⟩ := Option.map_eq_some_iff.1 h
  simp [step, hfield]

theorem read_movImm (h : lhs ≠ scratch) :
    (st.write ⟨scratch, type⟩ (imm.setWidth type.bits)).read ⟨lhs, type⟩ =
      st.read ⟨lhs, type⟩ := by
  simp [State.read, State.write, h]

@[simp] theorem AddSub.apply_zero (op : AddSub) (x : BitVec w) : op.apply x 0#w = x := by
  cases op <;> simp [AddSub.apply]

theorem exec_arithSplit (h : splitAddSubImm imm = some (hi, lo)) :
    (exec st [.arithImm op ⟨res, type⟩ ⟨lhs, type⟩ (hi.setWidth 64) true,
        .arithImm op ⟨res, type⟩ ⟨res, type⟩ (lo.setWidth 64) false]).map (·.read ⟨res, type⟩) =
      some (op.apply (st.read ⟨lhs, type⟩) (imm.setWidth type.bits)) := by
  have hhi := value_encodeImm12_shifted (splitAddSubImm_eq_some h).1
  simp [exec, step_arithImm hhi, step_arithImm (value_encodeImm12 (isAddSubImm_low h)),
    AddSub.apply_apply, setWidth_split h]

theorem exec_arithScratch (hlhs : lhs ≠ scratch) (hscratch : scratch ≠ SP) :
    (exec st [.movImm ⟨scratch, type⟩ imm,
        .arithReg op ⟨res, type⟩ ⟨lhs, type⟩ ⟨scratch, type⟩]).map (·.read ⟨res, type⟩) =
      some (op.apply (st.read ⟨lhs, type⟩) (imm.setWidth type.bits)) := by
  simp [exec, step, hscratch, read_movImm hlhs]

theorem exec_arithImmediate (st : State) (op : AddSub) (hlhs : lhs ≠ reg_scratch_0.id)
    (hwide : type = .gpX ∨ imm.toNat < 2 ^ 24) :
    (exec st (arithImmediate op ⟨res, type⟩ ⟨lhs, type⟩ imm)).map (·.read ⟨res, type⟩) =
      some (op.apply (st.read ⟨lhs, type⟩) (imm.setWidth type.bits)) := by
  unfold arithImmediate
  split
  case isTrue hzero =>
    subst hzero
    split
    · simp [exec, step]
    case isFalse hsame =>
      obtain rfl : res = lhs := congrArg Gp.id (not_not.1 hsame)
      simp [exec]
  case isFalse hzero =>
    split
    case isTrue hone => simp [exec, step_arithImm (value_encodeImm12 hone)]
    case isFalse hone =>
      split
      case h_1 hi lo hsplit => exact exec_arithSplit hsplit
      case h_2 hnone =>
        have htype : type = .gpX := by
          apply hwide.resolve_right
          intro hlt
          obtain ⟨hi, lo, hsome⟩ := splitAddSubImm_isSome hlt (by simpa using hone)
          simp [hnone] at hsome
        subst htype
        exact exec_arithScratch hlhs (by decide)

theorem exec_arithImmediate_narrow (st : State) (hle : 2 ^ 24 ≤ imm.toNat) :
    exec st (arithImmediate op ⟨res, .gpW⟩ ⟨lhs, .gpW⟩ imm) = none := by
  have hzero : imm ≠ 0#64 := by
    rintro rfl
    simp at hle
  have hone : ¬ isAddSubImm imm = true := by
    rw [isAddSubImm_iff]
    omega
  have hnone : splitAddSubImm imm = none := by
    rw [Option.eq_none_iff_forall_not_mem]
    rintro ⟨hi, lo⟩ hsome
    have hsplit := splitAddSubImm_eq_some hsome
    omega
  simp [arithImmediate, hzero, hone, hnone, exec, step, reg_scratch_0]

theorem exec_addSignedImmediate (st : State) (hlhs : lhs ≠ reg_scratch_0.id)
    (hwide : type = .gpX ∨ imm.toInt.natAbs < 2 ^ 24) :
    (exec st (addSignedImmediate ⟨res, type⟩ ⟨lhs, type⟩ imm)).map (·.read ⟨res, type⟩) =
      some (st.read ⟨lhs, type⟩ + imm.setWidth type.bits) := by
  have hint := BitVec.toInt_eq_toNat_cond imm
  have hlt := imm.isLt
  unfold addSignedImmediate
  split
  case isTrue hpos => exact exec_arithImmediate st .add hlhs (hwide.imp_right (by grind))
  case isFalse hneg =>
    have hwide' : type = .gpX ∨ (-imm).toNat < 2 ^ 24 := by
      apply hwide.imp_right
      intro hsmall
      rw [BitVec.toNat_neg]
      split at hint <;> omega
    have hsub : (exec st (subImmediate ⟨res, type⟩ ⟨lhs, type⟩ (-imm))).map (·.read ⟨res, type⟩) =
        some (st.read ⟨lhs, type⟩ - (-imm).setWidth type.bits) :=
      exec_arithImmediate st .sub hlhs hwide'
    rw [hsub, BitVec.setWidth_neg_of_le type.bits_le, BitVec.sub_neg]

theorem addSignedImmediate_iff (hlhs : lhs ≠ reg_scratch_0.id) :
    (∀ st, (exec st (addSignedImmediate ⟨res, type⟩ ⟨lhs, type⟩ imm)).map (·.read ⟨res, type⟩) =
      some (st.read ⟨lhs, type⟩ + imm.setWidth type.bits)) ↔
    type = .gpX ∨ imm.toInt.natAbs < 2 ^ 24 := by
  refine ⟨fun hexact => ?_, fun hwide st => exec_addSignedImmediate st hlhs hwide⟩
  cases type with
  | gpX => exact .inl rfl
  | gpW =>
    right
    by_contra hle
    have hint := BitVec.toInt_eq_toNat_cond imm
    have hadd := hexact default
    unfold addSignedImmediate at hadd
    split at hadd
    case isTrue hpos =>
      have hbig : 2 ^ 24 ≤ imm.toNat := by grind
      simp [addImmediate, exec_arithImmediate_narrow default hbig] at hadd
    case isFalse hneg =>
      have hbig : 2 ^ 24 ≤ (-imm).toNat := by
        rw [BitVec.toNat_neg]
        split at hint <;> omega
      simp [subImmediate, exec_arithImmediate_narrow default hbig] at hadd

theorem adds_flags_neg {x : BitVec w} (hw : 32 ≤ w) (hle : w ≤ 64)
    (hzero : imm ≠ 0) (himm : isAddSubImm (-imm) = true) :
    (adds x ((-imm).setWidth w)).2 = (subs x (imm.setWidth w)).2 := by
  rw [isAddSubImm_iff] at himm
  have hpow : 2 ^ 32 ≤ 2 ^ w := Nat.pow_le_pow_right (by decide) hw
  have hnat : ((-imm).setWidth w).toNat = (-imm).toNat := by
    rw [BitVec.toNat_setWidth, mod_eq_of_lt (by omega)]
  have hpos : (-imm).toNat ≠ 0 := by
    intro h
    apply hzero
    have : -imm = 0 := BitVec.eq_of_toNat_eq (by simpa using h)
    simpa using this
  rw [adds_eq_subs_neg, BitVec.setWidth_neg_of_le hle, BitVec.neg_neg]
  · intro h
    apply hpos
    rw [← hnat, h]
    simp
  · rw [hnat]
    omega

theorem scratchForCmp_spec (reg : Fin 32) (type : RegType) :
    ∃ id, scratchForCmp ⟨reg, type⟩ = ⟨id, type⟩ ∧ id ≠ reg ∧ id ≠ SP := by
  unfold scratchForCmp
  split
  case isTrue h =>
    refine ⟨reg_scratch_1.id, by cases type <;> rfl, ?_, by decide⟩
    intro heq
    rw [← heq] at h
    exact absurd (show reg_scratch_1.id = reg_scratch_0.id from h) (by decide)
  case isFalse h =>
    exact ⟨reg_scratch_0.id, by cases type <;> rfl, fun heq => h heq.symm, by decide⟩

theorem AddSub.z_flags (op : AddSub) (x y : BitVec w) :
    (op.flags x y).z = decide (op.apply x y = 0) := by
  cases op
  · exact Bool.eq_iff_iff.2 ((z_adds x y).trans decide_eq_true_iff.symm)
  · exact Bool.eq_iff_iff.2 ((z_subs x y).trans decide_eq_true_iff.symm)

theorem RegType.le_bits (type : RegType) : 32 ≤ type.bits := by
  cases type <;> decide

theorem exec_cmpImmediate (st : State) (type : RegType) (reg : Fin 32) (imm : BitVec 64) :
    (exec st (cmpImmediate ⟨reg, type⟩ imm)).map State.flags =
      some (subs (st.read ⟨reg, type⟩) (imm.setWidth type.bits)).2 := by
  unfold cmpImmediate
  split
  case isTrue hone => simp [exec, step_cmpImm (value_encodeImm12 hone), AddSub.flags]
  case isFalse hone =>
    split
    case isTrue hneg =>
      have hzero : imm ≠ 0 := by
        rintro rfl
        exact hone (by decide)
      simp [exec, step_cmpImm (value_encodeImm12 hneg), AddSub.flags,
        adds_flags_neg type.le_bits type.bits_le hzero hneg]
    case isFalse hneg =>
      obtain ⟨id, hscratch, hne, hsp⟩ := scratchForCmp_spec reg type
      simp [hscratch, exec, step, hsp, AddSub.flags, read_movImm hne.symm]

theorem sub_eq_zero_iff {x y : BitVec w} : x - y = 0 ↔ x = y := by
  rw [BitVec.sub_eq_iff_eq_add]
  simp

theorem exec_cmpImmediate_equal (st : State) (type : RegType) (reg : Fin 32) (imm : BitVec 64) :
    (exec st (cmpImmediate ⟨reg, type⟩ imm)).map (·.flags.z) =
      some (decide (st.read ⟨reg, type⟩ = imm.setWidth type.bits)) := by
  have hflags := congrArg (Option.map ConditionFlags.z) (exec_cmpImmediate st type reg imm)
  rw [Option.map_map, Option.map_some] at hflags
  refine hflags.trans (congrArg some ((AddSub.z_flags .sub _ _).trans ?_))
  simp only [AddSub.apply, sub_eq_zero_iff]

theorem exec_cmpSplit (h : splitAddSubImm imm = some (hi, lo)) :
    (exec st [.arithImm op ⟨scratch, type⟩ ⟨lhs, type⟩ (hi.setWidth 64) true,
        .cmpImm op ⟨scratch, type⟩ (lo.setWidth 64)]).map (·.flags.z) =
      some (decide (op.apply (st.read ⟨lhs, type⟩) (imm.setWidth type.bits) = 0)) := by
  have hhi := value_encodeImm12_shifted (splitAddSubImm_eq_some h).1
  simp [exec, step_arithImm hhi, step_cmpImm (value_encodeImm12 (isAddSubImm_low h)), op.z_flags,
    AddSub.apply_apply, setWidth_split h]

theorem exec_cmpImmediateForEquality (st : State) (type : RegType) (reg : Fin 32)
    (imm : BitVec 64) :
    (exec st (cmpImmediateForEquality ⟨reg, type⟩ imm)).map (·.flags.z) =
      some (decide (st.read ⟨reg, type⟩ = imm.setWidth type.bits)) := by
  obtain ⟨id, hscratch, -⟩ := scratchForCmp_spec reg type
  unfold cmpImmediateForEquality
  split
  · exact exec_cmpImmediate_equal st type reg imm
  · rw [hscratch]
    split
    case h_1 hi lo hsplit =>
      simp only [exec_cmpSplit hsplit, AddSub.apply, sub_eq_zero_iff]
    case h_2 =>
      split
      case h_1 hi lo hsplit =>
        simp only [exec_cmpSplit hsplit, AddSub.apply, BitVec.setWidth_neg_of_le type.bits_le,
          ← BitVec.sub_eq_add_neg, sub_eq_zero_iff]
      case h_2 => exact exec_cmpImmediate_equal st type reg imm

theorem AccessSize.bytes_pos (size : AccessSize) : 0 < size.bytes := by
  cases size <;> decide

theorem aligned_iff (offset : BitVec 32) (size : AccessSize) :
    offset &&& (BitVec.ofNat 32 size.bytes - 1) = 0 ↔ size.bytes ∣ offset.toNat := by
  have hpow : ∃ k, size.bytes = 2 ^ k ∧ (BitVec.ofNat 32 size.bytes - 1).toNat = 2 ^ k - 1 := by
    cases size
    exacts [⟨0, by decide⟩, ⟨1, by decide⟩, ⟨2, by decide⟩, ⟨3, by decide⟩]
  obtain ⟨k, hbytes, hmask⟩ := hpow
  rw [← BitVec.toNat_inj, BitVec.toNat_and, hmask, and_two_pow_sub_one_eq_mod, hbytes,
    dvd_iff_mod_eq_zero]
  simp

theorem ptrOffsetTry_spec {mem : Mem} (h : ptrOffsetTry ⟨base, .gpX⟩ offset size = some mem) :
    mem = .baseOffset ⟨base, .gpX⟩ offset ∧ mem.Encodable size := by
  by_cases hnear : -256 ≤ offset.toInt ∧ offset.toInt < 256
  · rw [ptrOffsetTry, if_pos hnear, Option.some.injEq] at h
    exact ⟨h.symm, by rw [← h]; exact ⟨rfl, .inr hnear⟩⟩
  · rw [ptrOffsetTry, if_neg hnear, Option.ite_none_right_eq_some, Option.some.injEq] at h
    obtain ⟨⟨hpos, hmask, hlt⟩, rfl⟩ := h
    have hnat : offset.toInt = offset.toNat := BitVec.toInt_eq_toNat_of_lt (by
      rw [BitVec.toInt_eq_toNat_cond] at hpos
      split at hpos <;> omega)
    refine ⟨rfl, rfl, .inl ⟨(aligned_iff offset size).1 hmask, ?_⟩⟩
    rw [Nat.div_lt_iff_lt_mul size.bytes_pos, Nat.mul_comm]
    omega

theorem signExtend_neg (h : isAddSubImm ((-offset).signExtend 64) = true) :
    (-offset).signExtend 64 = -offset.signExtend 64 := by
  have hmin : offset ≠ BitVec.intMin 32 := by
    rintro rfl
    exact absurd h (by decide)
  rw [BitVec.signExtend, BitVec.signExtend, BitVec.toInt_neg_of_ne_intMin hmin, BitVec.ofInt_neg]

/-- The instructions run, and the operand they leave can be encoded and addresses `address`. -/
def Addresses (st : State) (resolved : List Insn × Mem) (size : AccessSize)
    (address : BitVec 64) : Prop :=
  resolved.2.Encodable size ∧ (exec st resolved.1).map resolved.2.address = some address

theorem addresses_arithImm (h : isAddSubImm value = true) :
    Addresses st ([.arithImm op ⟨scratch, .gpX⟩ ⟨base, .gpX⟩ value false],
        .baseOffset ⟨scratch, .gpX⟩ 0) size (op.apply (st.regs base) value) := by
  refine ⟨⟨rfl, .inl ⟨Nat.dvd_zero _, by simp⟩⟩, ?_⟩
  simp [exec, step_arithImm (value_encodeImm12 h), Mem.address, State.write, State.read]

theorem ptrResolve_addresses (st : State) (hscratch : scratch ≠ base)
    (hsp : scratch ≠ SP) (offset : BitVec 32) (size : AccessSize) :
    Addresses st (ptrResolve ⟨base, .gpX⟩ offset ⟨scratch, .gpX⟩ size) size
      (st.regs base + offset.signExtend 64) := by
  unfold ptrResolve
  split
  case h_1 mem hmem =>
    obtain ⟨rfl, hencodable⟩ := ptrOffsetTry_spec hmem
    exact ⟨hencodable, rfl⟩
  case h_2 =>
    split
    case isTrue hadd => exact addresses_arithImm hadd.2
    case isFalse hadd =>
      split
      case isTrue hsub =>
        have haddress : st.regs base + offset.signExtend 64 =
            AddSub.sub.apply (st.regs base) ((-offset).signExtend 64) := by
          rw [AddSub.apply, signExtend_neg hsub.2, BitVec.sub_neg]
        rw [haddress]
        exact addresses_arithImm hsub.2
      case isFalse hsub =>
        refine ⟨⟨rfl, rfl, hsp⟩, ?_⟩
        simp [exec, step, Mem.address, State.write, hscratch.symm]

/-- What the helpers promise for registers of one width and one immediate. -/
structure ImmediatesExact (type : RegType) (res lhs : Fin 32) (imm : BitVec 64) : Prop where
  addImmediate : ∀ st, (exec st (addImmediate ⟨res, type⟩ ⟨lhs, type⟩ imm)).map
    (·.read ⟨res, type⟩) = some (st.read ⟨lhs, type⟩ + imm.setWidth type.bits)
  subImmediate : ∀ st, (exec st (subImmediate ⟨res, type⟩ ⟨lhs, type⟩ imm)).map
    (·.read ⟨res, type⟩) = some (st.read ⟨lhs, type⟩ - imm.setWidth type.bits)
  addSignedImmediate : ∀ st, (exec st (addSignedImmediate ⟨res, type⟩ ⟨lhs, type⟩ imm)).map
    (·.read ⟨res, type⟩) = some (st.read ⟨lhs, type⟩ + imm.setWidth type.bits)
  cmpImmediate : ∀ st, (exec st (cmpImmediate ⟨lhs, type⟩ imm)).map State.flags =
    some (subs (st.read ⟨lhs, type⟩) (imm.setWidth type.bits)).2
  cmpImmediateForEquality : ∀ st,
    (exec st (cmpImmediateForEquality ⟨lhs, type⟩ imm)).map (·.flags.z) =
      some (decide (st.read ⟨lhs, type⟩ = imm.setWidth type.bits))
  ptrResolve : ∀ st base scratch offset size, scratch ≠ base → scratch ≠ SP →
    Addresses st (ptrResolve ⟨base, .gpX⟩ offset ⟨scratch, .gpX⟩ size) size
      (st.regs base + offset.signExtend 64)

/-- The scratch register is wide; it can hold a constant for a narrow register only where
none is needed. -/
theorem immediatesExact_iff (type : RegType) (res lhs : Fin 32) (imm : BitVec 64)
    (hlhs : lhs ≠ reg_scratch_0.id) :
    ImmediatesExact type res lhs imm ↔ type = .gpX ∨ imm.toNat < 2 ^ 24 := by
  constructor
  · intro hexact
    cases type with
    | gpX => exact .inl rfl
    | gpW =>
      right
      by_contra hle
      have hadd := hexact.addImmediate default
      simp [addImmediate, exec_arithImmediate_narrow default (not_lt.1 hle)] at hadd
  · intro hwide
    have hsigned : type = .gpX ∨ imm.toInt.natAbs < 2 ^ 24 := by
      apply hwide.imp_right
      intro hlt
      rw [BitVec.toInt_eq_toNat_of_lt (by omega)]
      omega
    exact {
      addImmediate := fun st => exec_arithImmediate st .add hlhs hwide
      subImmediate := fun st => exec_arithImmediate st .sub hlhs hwide
      addSignedImmediate := fun st => exec_addSignedImmediate st hlhs hsigned
      cmpImmediate := fun st => exec_cmpImmediate st type lhs imm
      cmpImmediateForEquality := fun st => exec_cmpImmediateForEquality st type lhs imm
      ptrResolve := fun st _ _ offset size hbase hsp =>
        ptrResolve_addresses st hbase hsp offset size }

theorem immediatesExact_w0 : ImmediatesExact .gpW 0 1 0x1001 :=
  (immediatesExact_iff .gpW 0 1 0x1001 (by decide)).2 (by decide)

theorem narrow_notExact : ¬ ImmediatesExact .gpW 0 0 0x1000000 := by
  intro hexact
  have hadd := hexact.addImmediate default
  simp [addImmediate, exec_arithImmediate_narrow default
    (show 2 ^ 24 ≤ (0x1000000#64).toNat by decide)] at hadd

end CinderX.Jit.Codegen.Arch
