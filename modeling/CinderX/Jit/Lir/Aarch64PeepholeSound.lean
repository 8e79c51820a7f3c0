import CinderX.Jit.Lir.Aarch64Peephole

/-!
# Soundness of the AArch64 peephole

Where the last uses are marked soundly, a run of the peephole ends, and every block
behind it leaves the same memory and the same values in the registers that may be
read as the block did before.
-/

namespace CinderX.Jit.Lir.Aarch64

open CinderX.Foundation List

variable {type : DataType} {alignment : Int} {lower upper : BitVec 32} {loc : Nat}

theorem isPointerWidth_iff :
    isPointerWidth type = true ↔ type = .k64bit ∨ type = .kObject := by
  simp [isPointerWidth]

theorem bitSize_of_isPointerWidth (h : isPointerWidth type = true) :
    bitSize type = 64 := by
  rcases isPointerWidth_iff.mp h with rfl | rfl <;> rfl

theorem adjacentOffsets_iff :
    adjacentOffsets alignment lower upper = true ↔
      upper.toInt - lower.toInt = 8 ∧ lower.toInt % alignment = 0 ∧ -512 ≤ lower.toInt ∧
        lower.toInt ≤ 504 :=
  decide_eq_true_iff

theorem isGpRegister_iff : isGpRegister loc = true ↔ loc < 32 :=
  decide_eq_true_iff

theorem isRegister_iff : isRegister loc = true ↔ loc < 64 :=
  decide_eq_true_iff

theorem setWidth_of_eq {width : Nat} (word : (n : Nat) → BitVec n) (h : width = 64) :
    (word width).setWidth 64 = word 64 := by
  subst h
  exact BitVec.setWidth_eq _

theorem setWidth_signExtend_offset (offset : BitVec 32) :
    (offset.signExtend 64).setWidth 32 = offset := by
  apply BitVec.eq_of_getLsbD_eq
  intro i hi
  rw [BitVec.getLsbD_setWidth, BitVec.getLsbD_signExtend]
  have hwide : i < 64 := by omega
  simp [hi, hwide]

theorem signExtend_adjacent (h : adjacentOffsets alignment lower upper = true) :
    upper.signExtend 64 = lower.signExtend 64 + 8 := by
  have hdiff : upper.toInt = lower.toInt + 8 := by
    have hapart := (adjacentOffsets_iff.mp h).1
    omega
  rw [BitVec.signExtend, BitVec.signExtend, hdiff, BitVec.ofInt_add]
  rfl

section Exec

variable {σ ε : Type*} (other : Code σ ε)

theorem exec_of_isModelled {instr : Instruction} (h : isModelled instr = true) (s : State σ) :
    (code other).exec instr s = execEffect s instr :=
  if_pos h

theorem live_of_isModelled {instr : Instruction} (h : isModelled instr = true)
    (out : Set Nat) (rest : List Instruction) :
    (code other).live out (instr :: rest) =
      (code other).live out rest \ {r | r ∈ defLocs instr} ∪ {r | r ∈ useLocs instr} := by
  simp only [StraightLine.live, code, h, if_true]

end Exec

section Loads

variable {instr first second : Instruction} {pairable firstLoad secondLoad : PairableLoad}

theorem getPairableLoad_cases (h : getPairableLoad instr = some pairable) :
    (∃ multiplier type, instr = ⟨.kMove, .reg pairable.destination,
      [.ind ⟨some pairable.base, none, multiplier, pairable.offset⟩ type]⟩) ∧
    isPointerWidth pairable.destination.dataType = true ∧
    (isGpRegister pairable.destination.loc = true ∧ pairable.destination.loc ≠ X29 ∧
      pairable.destination.loc ≠ XZR) ∧
    isValidLoadPairBase pairable.base = true := by
  unfold getPairableLoad at h
  split at h
  next out base multiplier offset type =>
    split at h
    next hchecks =>
      cases h
      exact ⟨⟨multiplier, type, rfl⟩, hchecks.1, hchecks.2.1, hchecks.2.2.2⟩
    next => contradiction
  next => contradiction

theorem baseValue_of_isValidLoadPairBase {base : RegOperand} (regs : Regs)
    (h : isValidLoadPairBase base = true) : baseValue regs base.loc = some (regs base.loc) := by
  simp only [isValidLoadPairBase, decide_eq_true_eq] at h
  exact if_pos h.2.2

theorem effect_pairableLoad (h : getPairableLoad instr = some pairable) (regs : Regs)
    (mem : Memory) :
    effect regs mem instr = some ⟨[(pairable.destination.loc,
      load mem (regs pairable.base.loc + pairable.offset.signExtend 64) 64)], mem⟩ := by
  obtain ⟨⟨multiplier, type, rfl⟩, hwidth, ⟨hgp, -⟩, hbase⟩ := getPairableLoad_cases h
  have hregister : isRegister pairable.destination.loc = true :=
    isRegister_iff.mpr (Nat.lt_trans (isGpRegister_iff.mp hgp) (by decide))
  have hbaseWidth : bitSize pairable.base.dataType = 64 := by
    simp only [isValidLoadPairBase, decide_eq_true_eq] at hbase
    exact bitSize_of_isPointerWidth hbase.2.1
  simp only [effect, moveEffect, loadToReg, hregister, if_true, address, indirectAddress,
    hbaseWidth, or_true, baseValue_of_isValidLoadPairBase regs hbase, Option.map_some]
  rw [setWidth_of_eq (load mem _) (bitSize_of_isPointerWidth hwidth)]

theorem canPairLoads_cases (h : canPairLoads first second = some (firstLoad, secondLoad)) :
    getPairableLoad first = some firstLoad ∧ getPairableLoad second = some secondLoad ∧
      firstLoad.base.loc = secondLoad.base.loc ∧
      adjacentOffsets kPointerSize firstLoad.offset secondLoad.offset = true ∧
      firstLoad.destination.loc ≠ secondLoad.destination.loc ∧
      firstLoad.destination.loc ≠ firstLoad.base.loc ∧
      secondLoad.destination.loc ≠ firstLoad.base.loc := by
  obtain ⟨firstLoad', hfirst, h⟩ := Option.bind_eq_some_iff.mp h
  obtain ⟨secondLoad', hsecond, h⟩ := Option.bind_eq_some_iff.mp h
  split at h
  next hchecks =>
    cases h
    exact ⟨hfirst, hsecond, hchecks⟩
  next => contradiction

def loadPair (firstLoad secondLoad : PairableLoad) : Instruction :=
  ⟨.kLoadPair, .none, pairInputs firstLoad.offset firstLoad.base firstLoad.destination
    secondLoad.destination⟩

theorem effect_loadPair (h : canPairLoads first second = some (firstLoad, secondLoad))
    (regs : Regs) (mem : Memory) :
    effect regs mem (loadPair firstLoad secondLoad) =
      some ⟨[(firstLoad.destination.loc,
          load mem (regs firstLoad.base.loc + firstLoad.offset.signExtend 64) 64),
        (secondLoad.destination.loc,
          load mem (regs firstLoad.base.loc + firstLoad.offset.signExtend 64 + 8) 64)],
        mem⟩ := by
  obtain ⟨hfirst, hsecond, hbase, hoffsets, hdistinct, hfirstBase, hsecondBase⟩ :=
    canPairLoads_cases h
  obtain ⟨-, hwidth0, hgp0, hvalid⟩ := getPairableLoad_cases hfirst
  obtain ⟨-, hwidth1, hgp1, -⟩ := getPairableLoad_cases hsecond
  have hencodable : firstLoad.offset.toInt % 8 = 0 ∧
      isInt7 (firstLoad.offset.toInt / 8) = true := by
    obtain ⟨-, haligned, hlow, hhigh⟩ := adjacentOffsets_iff.mp hoffsets
    simp only [kPointerSize] at haligned
    simp only [isInt7, Bool.and_eq_true, decide_eq_true_eq]
    omega
  simp only [effect, loadPair, pairInputs, loadPairEffect, RegOperand.allocate,
    setWidth_signExtend_offset]
  rw [if_pos, baseValue_of_isValidLoadPairBase regs hvalid]
  · rfl
  · exact ⟨⟨hgp0.1, hgp0.2.1, hgp0.2.2, hgp1.1, hgp1.2.1, hgp1.2.2, hdistinct, hfirstBase,
      hsecondBase⟩, hencodable, bitSize_of_isPointerWidth hwidth0,
      bitSize_of_isPointerWidth hwidth1⟩

end Loads

section LoadPairs

variable {σ ε : Type*} {other : Code σ ε} {out : Set Nat}
variable {instr first second : Instruction} {pairable firstLoad secondLoad : PairableLoad}

theorem locs_pairableLoad (h : getPairableLoad instr = some pairable) :
    isModelled instr = true ∧ useLocs instr = [pairable.base.loc] ∧
      defLocs instr = [pairable.destination.loc] := by
  obtain ⟨⟨multiplier, type, rfl⟩, -⟩ := getPairableLoad_cases h
  exact ⟨rfl, rfl, rfl⟩

theorem exec_pairableLoad (h : getPairableLoad instr = some pairable) (s : State σ) :
    (code other).exec instr s = .ok ⟨Function.update s.regs pairable.destination.loc
      (load s.rest.1 (s.regs pairable.base.loc + pairable.offset.signExtend 64) 64), s.rest⟩ := by
  rw [exec_of_isModelled other (locs_pairableLoad h).1, execEffect, effect_pairableLoad h]
  rfl

theorem run_loadPair (h : canPairLoads first second = some (firstLoad, secondLoad))
    (s : State σ) :
    (code other).run [first, second] s =
      (code other).run [loadPair firstLoad secondLoad] s := by
  obtain ⟨hfirst, hsecond, hbase, hoffsets, -, hfirstBase, -⟩ := canPairLoads_cases h
  have hkept : ∀ word, Function.update s.regs firstLoad.destination.loc word
      secondLoad.base.loc = s.regs firstLoad.base.loc :=
    fun word => hbase ▸ Function.update_of_ne hfirstBase.symm word s.regs
  rw [StraightLine.run_pair, exec_pairableLoad hfirst, StraightLine.run_singleton,
    exec_of_isModelled other rfl, execEffect, effect_loadPair h]
  change (code other).exec second _ = _
  rw [exec_pairableLoad hsecond]
  dsimp only
  rw [hkept, signExtend_adjacent hoffsets, ← BitVec.add_assoc]
  rfl

theorem replaces_loadPair (h : canPairLoads first second = some (firstLoad, secondLoad))
    (rest : List Instruction) :
    (code other).Replaces out (first :: second :: rest)
      (loadPair firstLoad secondLoad :: rest) := by
  refine StraightLine.Replaces.append_right rest (.of_run_eq ?_ (run_loadPair h))
  obtain ⟨hfirst, hsecond, hbase, -, -, hfirstBase, -⟩ := canPairLoads_cases h
  obtain ⟨hmodelled, huse, hdef⟩ := locs_pairableLoad hfirst
  obtain ⟨hmodelled', huse', hdef'⟩ := locs_pairableLoad hsecond
  rw [live_of_isModelled other hmodelled, live_of_isModelled other hmodelled',
    live_of_isModelled other rfl, huse, huse', hdef, hdef', ← hbase]
  ext r
  simp [StraightLine.live, loadPair, pairInputs, useLocs, defLocs, inputLocs, regLocs,
    addressLocs, RegOperand.allocate]
  grind

end LoadPairs

theorem isFpRegister_of_ne {operand : RegOperand} (h : operand.dataType ≠ .kDouble) :
    isFpRegister operand.loc = false := by
  rw [operand.regClass, decide_eq_false h]

section StorePairs

variable {σ ε : Type*} {other : Code σ ε} {out : Set Nat}
variable {instr first second : Instruction} {pairable firstStore secondStore : PairableStore}

theorem getPairableStore_cases (h : getPairableStore instr = some pairable) :
    (∃ multiplier type, isPointerWidth type = true ∧
      instr = ⟨.kMove, .ind ⟨some pairable.base, none, multiplier, pairable.offset⟩ type,
        [.reg pairable.value]⟩) ∧
    pairable.value.dataType ≠ .kDouble ∧ pairable.base.dataType = .kObject := by
  unfold getPairableStore at h
  split at h
  next base multiplier offset type value =>
    split at h
    next hchecks =>
      cases h
      exact ⟨⟨multiplier, type, hchecks.1, rfl⟩, hchecks.2.1.2.1, hchecks.2.2.2⟩
    next => contradiction
  next => contradiction

theorem locs_pairableStore (h : getPairableStore instr = some pairable) :
    isModelled instr = true ∧ useLocs instr = [pairable.base.loc, pairable.value.loc] ∧
      defLocs instr = [] := by
  obtain ⟨⟨multiplier, type, -, rfl⟩, -⟩ := getPairableStore_cases h
  exact ⟨rfl, rfl, rfl⟩

theorem store_readReg_of_eq (regs : Regs) (mem : Memory) (a : BitVec 64) (loc : Nat)
    {width : Nat} (h : width = 64) :
    store mem a (readReg regs loc width) = store mem a (readReg regs loc 64) := by
  subst h
  rfl

theorem effect_pairableStore (h : getPairableStore instr = some pairable) (regs : Regs)
    (mem : Memory) :
    effect regs mem instr =
      if isGpRegister pairable.value.loc = true then
        (baseValue regs pairable.base.loc).map fun b =>
          ⟨[], store mem (b + pairable.offset.signExtend 64)
            (readReg regs pairable.value.loc 64)⟩
      else none := by
  obtain ⟨⟨multiplier, type, hwidth, rfl⟩, hvalue, hbase⟩ := getPairableStore_cases h
  have htype : type ≠ .kDouble := by rintro rfl; exact absurd hwidth (by decide)
  have hbaseWidth : bitSize pairable.base.dataType = 64 := by rw [hbase]; rfl
  simp only [effect, moveEffect, storeFromReg, isFpRegister_of_ne hvalue, htype, ne_eq,
    not_false_eq_true, and_true, address, indirectAddress, hbaseWidth, or_true, if_true,
    Bool.false_eq_true, if_false, Option.map_map,
    store_readReg_of_eq _ _ _ _ (bitSize_of_isPointerWidth hwidth)]
  rfl

theorem exec_pairableStore (h : getPairableStore instr = some pairable) (s : State σ) :
    (code other).exec instr s =
      match isGpRegister pairable.value.loc, baseValue s.regs pairable.base.loc with
      | true, some b => .ok ⟨s.regs, store s.rest.1 (b + pairable.offset.signExtend 64)
          (readReg s.regs pairable.value.loc 64), s.rest.2⟩
      | _, _ => .error none := by
  rw [exec_of_isModelled other (locs_pairableStore h).1, execEffect, effect_pairableStore h]
  cases isGpRegister pairable.value.loc with
  | false => rfl
  | true => cases baseValue s.regs pairable.base.loc <;> rfl

theorem canPairStores_cases (h : canPairStores first second = some (firstStore, secondStore)) :
    getPairableStore first = some firstStore ∧ getPairableStore second = some secondStore ∧
      firstStore.base.loc = secondStore.base.loc ∧
      adjacentOffsets (2 * kPointerSize) firstStore.offset secondStore.offset = true ∧
      firstStore.value.loc ≠ firstStore.base.loc := by
  obtain ⟨firstStore', hfirst, h⟩ := Option.bind_eq_some_iff.mp h
  obtain ⟨secondStore', hsecond, h⟩ := Option.bind_eq_some_iff.mp h
  split at h
  next hchecks =>
    cases h
    exact ⟨hfirst, hsecond, hchecks.1, hchecks.2.1, hchecks.2.2.2.2.1⟩
  next => contradiction

def storePair (firstStore secondStore : PairableStore) : Instruction :=
  ⟨.kStorePair, .none, pairInputs firstStore.offset firstStore.base firstStore.value
    secondStore.value⟩

theorem effect_storePair (firstStore secondStore : PairableStore) (regs : Regs)
    (mem : Memory) :
    effect regs mem (storePair firstStore secondStore) =
      if isGpRegister firstStore.value.loc = true ∧
          isGpRegister secondStore.value.loc = true then
        (baseValue regs firstStore.base.loc).map fun b =>
          ⟨[], store
            (store mem (b + firstStore.offset.signExtend 64)
              (readReg regs firstStore.value.loc 64))
            (b + firstStore.offset.signExtend 64 + 8)
            (readReg regs secondStore.value.loc 64)⟩
      else none := by
  simp only [effect, storePair, pairInputs, storePairEffect, RegOperand.allocate,
    setWidth_signExtend_offset]

theorem exec_storePair (firstStore secondStore : PairableStore) (s : State σ) :
    (code other).exec (storePair firstStore secondStore) s =
      match isGpRegister firstStore.value.loc, isGpRegister secondStore.value.loc,
        baseValue s.regs firstStore.base.loc with
      | true, true, some b => .ok ⟨s.regs, store
          (store s.rest.1 (b + firstStore.offset.signExtend 64)
            (readReg s.regs firstStore.value.loc 64))
          (b + firstStore.offset.signExtend 64 + 8)
          (readReg s.regs secondStore.value.loc 64), s.rest.2⟩
      | _, _, _ => .error none := by
  rw [exec_of_isModelled other rfl, execEffect, effect_storePair]
  cases isGpRegister firstStore.value.loc with
  | false => rfl
  | true =>
    cases isGpRegister secondStore.value.loc with
    | false => rfl
    | true => cases baseValue s.regs firstStore.base.loc <;> rfl

theorem run_storePair (h : canPairStores first second = some (firstStore, secondStore))
    (s : State σ) :
    (code other).run [first, second] s =
      (code other).run [storePair firstStore secondStore] s := by
  obtain ⟨hfirst, hsecond, hbase, hoffsets, -⟩ := canPairStores_cases h
  rw [StraightLine.run_pair, StraightLine.run_singleton, exec_pairableStore hfirst,
    exec_storePair]
  cases isGpRegister firstStore.value.loc with
  | false => rfl
  | true =>
    cases hb : baseValue s.regs firstStore.base.loc with
    | none => cases isGpRegister secondStore.value.loc <;> rfl
    | some b =>
      change (code other).exec second _ = _
      rw [exec_pairableStore hsecond]
      dsimp only
      rw [← hbase, hb, signExtend_adjacent hoffsets]
      cases isGpRegister secondStore.value.loc with
      | false => rfl
      | true => simp only [BitVec.add_assoc]

theorem replaces_storePair (h : canPairStores first second = some (firstStore, secondStore))
    (rest : List Instruction) :
    (code other).Replaces out (first :: second :: rest)
      (storePair firstStore secondStore :: rest) := by
  refine StraightLine.Replaces.append_right rest (.of_run_eq ?_ (run_storePair h))
  obtain ⟨hfirst, hsecond, hbase, -⟩ := canPairStores_cases h
  obtain ⟨hmodelled, huse, hdef⟩ := locs_pairableStore hfirst
  obtain ⟨hmodelled', huse', hdef'⟩ := locs_pairableStore hsecond
  rw [live_of_isModelled other hmodelled, live_of_isModelled other hmodelled',
    live_of_isModelled other rfl, huse, huse', hdef, hdef', ← hbase]
  ext r
  simp [StraightLine.live, storePair, pairInputs, useLocs, defLocs, inputLocs, addressLocs,
    RegOperand.allocate]
  grind

end StorePairs

section Immediates

variable {σ ε : Type*} {other : Code σ ε} {out : Set Nat}
variable {first second materialize instr instr' : Instruction}
variable {destination : RegOperand}

def materialization (destination : RegOperand) (constant : BitVec 64) (type : DataType) :
    Instruction :=
  ⟨.kMove, .reg destination, [.imm constant type false]⟩

theorem isModelled_materialization (h : isFpRegister destination.loc = false)
    (constant : BitVec 64) (type : DataType) :
    isModelled (materialization destination constant type) = true := by
  simp [isModelled, materialization, h]

theorem exec_materialization (h : isFpRegister destination.loc = false)
    (constant : BitVec 64) (type : DataType) (s : State σ) :
    (code other).exec (materialization destination constant type) s =
      if isGpRegister destination.loc = true then
        .ok ⟨Function.update s.regs destination.loc
          (immediateValue destination.dataType constant type), s.rest⟩
      else .error none := by
  rw [exec_of_isModelled other (isModelled_materialization h constant type), execEffect]
  cases hgp : isGpRegister destination.loc with
  | false => simp [effect, materialization, moveEffect, hgp]
  | true =>
    simp only [effect, materialization, moveEffect, hgp, if_true]
    rfl

theorem live_materialization (h : isFpRegister destination.loc = false)
    (constant : BitVec 64) (type : DataType) (rest : List Instruction) :
    (code other).live out (materialization destination constant type :: rest) =
      (code other).live out rest \ {destination.loc} := by
  rw [live_of_isModelled other (isModelled_materialization h constant type)]
  ext r
  simp [materialization, useLocs, defLocs, regLocs, addressLocs, inputLocs]

theorem zeroMaterialization_cases (h : zeroMaterialization materialize = some destination) :
    ∃ type, materialize = materialization destination 0 type := by
  unfold zeroMaterialization at h
  split at h
  next destination constant type linked =>
    split at h
    next hchecks =>
      cases h
      exact ⟨type, by rw [materialization, hchecks.1, hchecks.2.2]⟩
    next => contradiction
  next => contradiction

theorem zeroMaterialization_of_ne {constant : BitVec 64} {type : DataType}
    (h : constant ≠ 0) : zeroMaterialization (materialization destination constant type) = none :=
  if_neg fun hchecks => h hchecks.2.2

theorem zeroStore_cases (h : zeroStore destination instr = some instr') :
    ∃ indirect storeType stored,
      instr = ⟨.kMove, .ind indirect storeType, [.reg stored]⟩ ∧
      instr' = ⟨.kMove, .ind indirect storeType, [.imm 0 storeType false]⟩ ∧
      stored.dataType ≠ .kDouble ∧ stored.loc = destination.loc ∧ stored.lastUse = true ∧
      indirectAddressUsesRegister indirect destination.loc = false ∧
      storeType ≠ .kDouble := by
  unfold zeroStore at h
  split at h
  next indirect storeType stored =>
    split at h
    next => contradiction
    next hstored =>
      dsimp only at h
      split at h
      next => contradiction
      next haddress =>
        split at h
        next hsupported =>
          cases h
          simp only [not_or, Bool.not_eq_true] at hstored haddress
          exact ⟨indirect, storeType, stored, rfl, rfl, hstored.2.1,
            not_not.mp hstored.2.2.2, by simpa using hstored.2.2.1, haddress.2,
            by simpa [supportsZeroRegisterStore] using hsupported⟩
        next => contradiction
  next => contradiction

variable {loc : Nat} {indirect : MemoryIndirect}

theorem not_mem_of_operandUsesRegister {operand : Option RegOperand}
    (h : operandUsesRegister operand loc = false) : loc ∉ optionLocs operand := by
  cases operand with
  | none => simp [optionLocs]
  | some operand =>
    simp only [operandUsesRegister, decide_eq_false_iff_not] at h
    simpa [optionLocs] using Ne.symm h

theorem not_mem_of_indirectAddressUsesRegister
    (h : indirectAddressUsesRegister indirect loc = false) :
    loc ∉ optionLocs indirect.base ++ optionLocs indirect.index := by
  obtain ⟨hbase, hindex⟩ := Bool.or_eq_false_iff.mp h
  rw [mem_append, not_or]
  exact ⟨not_mem_of_operandUsesRegister hbase, not_mem_of_operandUsesRegister hindex⟩

theorem immediateValue_zero (outType type : DataType) : immediateValue outType 0 type = 0 := by
  simp [immediateValue]

theorem readReg_update_zero (regs : Regs) (loc width : Nat) :
    readReg (Function.update regs loc 0) loc width = 0 := by
  simp [readReg]

theorem effect_zeroStore {storeType : DataType}
    {stored : RegOperand} (hstored : stored.dataType ≠ .kDouble) (hdouble : storeType ≠ .kDouble)
    (hgp : isGpRegister stored.loc = true)
    (haddress : stored.loc ∉ optionLocs indirect.base ++ optionLocs indirect.index)
    (regs : Regs) (mem : Memory) :
    effect (Function.update regs stored.loc 0) mem
        ⟨.kMove, .ind indirect storeType, [.reg stored]⟩ =
      effect regs mem ⟨.kMove, .ind indirect storeType, [.imm 0 storeType false]⟩ := by
  have hsame : indirectAddress (Function.update regs stored.loc 0) indirect =
      indirectAddress regs indirect := by
    refine indirectAddress_congr fun r hr => Function.update_of_ne ?_ _ _
    rintro rfl
    exact haddress hr
  simp only [effect, moveEffect, storeFromReg, isFpRegister_of_ne hstored, hgp, address,
    hsame, readReg_update_zero]
  simp [hdouble]

theorem replaces_zeroStore (hzero : zeroMaterialization materialize = some destination)
    (hstore : zeroStore destination instr = some instr') (rest : List Instruction)
    (hdead : destination.loc ∉ (code other).live out rest) :
    (code other).Replaces out (materialize :: instr :: rest) (instr' :: rest) := by
  obtain ⟨type, rfl⟩ := zeroMaterialization_cases hzero
  obtain ⟨indirect, storeType, stored, rfl, rfl, hstored, hloc, -, huses, hdouble⟩ :=
    zeroStore_cases hstore
  have hfp : isFpRegister destination.loc = false := hloc ▸ isFpRegister_of_ne hstored
  have haddress := not_mem_of_indirectAddressUsesRegister huses
  change (code other).Replaces out ([materialization destination 0 type,
    ⟨.kMove, .ind indirect storeType, [.reg stored]⟩] ++ rest)
    ([⟨.kMove, .ind indirect storeType, [.imm 0 storeType false]⟩] ++ rest)
  refine StraightLine.Replaces.append_right rest ⟨?_, fun s => ?_⟩
  · rw [live_materialization hfp, live_of_isModelled other rfl,
      live_of_isModelled other rfl]
    ext r
    simp [StraightLine.live, useLocs, defLocs, inputLocs, addressLocs, regLocs, hloc]
    grind
  · rw [StraightLine.run_pair, StraightLine.run_singleton, exec_materialization hfp,
      exec_of_isModelled other rfl, immediateValue_zero]
    split
    next hgp =>
      change Refines (Agree _) ((code other).exec ⟨.kMove, .ind indirect storeType,
        [.reg stored]⟩ ⟨Function.update s.regs destination.loc 0, s.rest⟩) _
      rw [exec_of_isModelled other rfl, execEffect, execEffect, ← hloc,
        effect_zeroStore hstored hdouble (hloc ▸ hgp) (hloc ▸ haddress)]
      cases he : effect s.regs s.rest.1
        ⟨.kMove, .ind indirect storeType, [.imm 0 storeType false]⟩ with
      | none => exact .stuck _
      | some e =>
        have hwrites : e.writes = [] := map_eq_nil_iff.mp (effect_writes he)
        simp only [hwrites, applyWrites]
        exact .ok (agree_update (hloc ▸ hdead) 0 s.regs _)
    next => exact .stuck _

end Immediates

section ConstantFill

variable {σ ε : Type*} {other : Code σ ε} {out : Set Nat}
variable {first second instr : Instruction} {destination : RegOperand}
variable {pairable : PairableStore}

theorem sameNonZeroImmediateMaterialization_cases
    (h : sameNonZeroImmediateMaterialization first second = some destination) :
    ∃ constant type again, first = materialization destination constant type ∧
      second = materialization again constant type ∧ constant ≠ 0 ∧
      again.loc = destination.loc ∧ again.dataType = destination.dataType ∧
      destination.dataType ≠ .kDouble := by
  unfold sameNonZeroImmediateMaterialization at h
  split at h
  next destination constant type linked again constant' type' linked' =>
    split at h
    next hchecks =>
      cases h
      obtain ⟨⟨rfl, rfl⟩, -, ⟨hconstant, rfl⟩, ⟨rfl, -⟩, hwidth, htype, hloc⟩ := hchecks
      refine ⟨constant, type, again, rfl, rfl, hconstant, hloc.symm, htype.symm, ?_⟩
      intro hdouble
      rw [hdouble] at hwidth
      exact absurd hwidth (by decide)
    next => contradiction
  next => contradiction

theorem run_constantFill
    (hsame : sameNonZeroImmediateMaterialization first second = some destination)
    (hstore : getPairableStore instr = some pairable) (s : State σ) :
    (code other).run [first, instr, second] s = (code other).run [first, instr] s := by
  obtain ⟨constant, type, again, rfl, rfl, -, hloc, htype, hdouble⟩ :=
    sameNonZeroImmediateMaterialization_cases hsame
  have hfp : isFpRegister destination.loc = false := isFpRegister_of_ne hdouble
  have hfp' : isFpRegister again.loc = false := hloc ▸ hfp
  rw [StraightLine.run, StraightLine.run_pair, exec_materialization hfp]
  split
  next hgp =>
    change (code other).run [instr, materialization again constant type]
      ⟨Function.update s.regs destination.loc
        (immediateValue destination.dataType constant type), s.rest⟩ = _ >>= _
    rw [StraightLine.run_pair]
    change _ = (code other).exec instr _
    rw [exec_pairableStore hstore]
    split
    next =>
      change (code other).exec (materialization again constant type) _ = _
      rw [exec_materialization hfp', if_pos (hloc ▸ hgp)]
      simp only [hloc, htype, Function.update_idem]
    next => rfl
  next => rfl

theorem replaces_constantFill
    (hsame : sameNonZeroImmediateMaterialization first second = some destination)
    (hstore : getPairableStore instr = some pairable)
    (hvalue : pairable.value.loc = destination.loc) (rest : List Instruction) :
    (code other).Replaces out (first :: instr :: second :: rest) (first :: instr :: rest) := by
  refine StraightLine.Replaces.append_right rest (.of_run_eq ?_ (run_constantFill hsame hstore))
  obtain ⟨constant, type, again, rfl, rfl, -, hloc, -, hdouble⟩ :=
    sameNonZeroImmediateMaterialization_cases hsame
  have hfp : isFpRegister destination.loc = false := isFpRegister_of_ne hdouble
  have hfp' : isFpRegister again.loc = false := hloc ▸ hfp
  obtain ⟨hmodelled, huse, hdef⟩ := locs_pairableStore hstore
  rw [live_materialization hfp, live_materialization hfp, live_of_isModelled other hmodelled,
    live_of_isModelled other hmodelled, live_materialization hfp', huse, hdef, hloc, hvalue]
  ext r
  simp [StraightLine.live]
  grind

end ConstantFill

section Marks

variable {σ ε : Type*} (other : Code σ ε) (out : Set Nat)

def operandLastUses : Operand → List Nat
  | .reg operand => if operand.lastUse then [operand.loc] else []
  | .ind indirect _ =>
    (indirect.base.toList ++ indirect.index.toList).flatMap fun operand =>
      if operand.lastUse then [operand.loc] else []
  | _ => []

def lastUses (instr : Instruction) : List Nat :=
  instr.inputs.flatMap operandLastUses ++
    match instr.output with
    | .ind indirect type => operandLastUses (.ind indirect type)
    | _ => []

/--
What the allocator promises of its marks: a register that is marked holds nothing that
is read behind the instruction, unless the instruction gives it a new value.
-/
def LastUsesSound : List Instruction → Prop
  | [] => True
  | instr :: rest =>
    (∀ r ∈ lastUses instr, r ∈ (code other).live out rest → r ∈ (code other).defs instr) ∧
      LastUsesSound rest

/-- The register of a zero store is dead behind it when its materialization goes. -/
def PairSound (instr : Instruction) : List Instruction → Prop
  | store :: rest => ∀ destination store', zeroMaterialization instr = some destination →
      zeroStore destination store = some store' →
        destination.loc ∉ (code other).live out rest
  | [] => True

def ZeroStoresSound : List Instruction → Prop
  | [] => True
  | instr :: rest => PairSound other out instr rest ∧ ZeroStoresSound rest

variable {other out}

theorem zeroStoresSound_of_lastUsesSound {instrs : List Instruction}
    (h : LastUsesSound other out instrs) : ZeroStoresSound other out instrs := by
  induction instrs with
  | nil => exact trivial
  | cons instr rest ih =>
    refine ⟨?_, ih h.2⟩
    match rest, h.2 with
    | [], _ => exact trivial
    | store :: rest, hrest =>
      intro destination store' _ hstore hlive
      obtain ⟨indirect, storeType, stored, rfl, -, -, hloc, hlast, -⟩ :=
        zeroStore_cases hstore
      have hmarked : destination.loc ∈ lastUses
          ⟨.kMove, .ind indirect storeType, [.reg stored]⟩ := by
        simp [lastUses, operandLastUses, hlast, hloc]
      have hdef := hrest.1 _ hmarked hlive
      exact absurd hdef (by simp [code, isModelled, defLocs, regLocs])

end Marks

section Rules

variable {σ ε : Type*} (other : Code σ ε) (out : Set Nat)

/-- One piece of code for another, in front of which marks stay sound. -/
structure Rewrites (instrs instrs' : List Instruction) : Prop where
  replaces : (code other).Replaces out instrs instrs'
  sound : ZeroStoresSound other out instrs'
  pair : ∀ instr, PairSound other out instr instrs → PairSound other out instr instrs'

def Rewritten.Sound (instr : Instruction) (rest : List Instruction) : Rewritten → Prop
  | .kUnchanged => True
  | .kChanged rest' =>
    Rewrites other out (instr :: rest) (instr :: rest') ∧ rest'.length < rest.length
  | .kRemoved rest' => Rewrites other out (instr :: rest) rest' ∧ rest'.length ≤ rest.length

variable {other out}

theorem pairSound_of_zeroStore {store : Instruction}
    (h : ∀ destination, zeroStore destination store = none) (instr : Instruction)
    (rest : List Instruction) : PairSound other out instr (store :: rest) := by
  intro destination store' _ hstore
  rw [h destination] at hstore
  contradiction

theorem pairSound_of_zeroMaterialization {instr : Instruction}
    (h : zeroMaterialization instr = none) (rest : List Instruction) :
    PairSound other out instr rest := by
  cases rest with
  | nil => exact trivial
  | cons store rest =>
    intro destination store' hzero
    rw [h] at hzero
    contradiction

theorem Rewritten.Sound.orElse {instr : Instruction} {rest : List Instruction}
    {first second : Rewritten} (hfirst : first.Sound other out instr rest)
    (hsecond : second.Sound other out instr rest) :
    (first.orElse second).Sound other out instr rest := by
  cases first with
  | kUnchanged => exact hsecond
  | kChanged => exact hfirst
  | kRemoved => exact hfirst

variable {instr : Instruction} {rest : List Instruction}
variable (h : ZeroStoresSound other out (instr :: rest))

include h in
theorem loadToLoadPair_sound :
    (rewriteAdjacentLoadsToLoadPair instr rest).Sound other out instr rest := by
  unfold rewriteAdjacentLoadsToLoadPair
  split
  next second rest =>
    split
    next hpair =>
      refine ⟨⟨replaces_loadPair hpair rest, ⟨?_, h.2.2⟩, fun first _ => ?_⟩, le_rfl⟩
      · exact pairSound_of_zeroMaterialization rfl rest
      · exact pairSound_of_zeroStore (fun _ => rfl) first rest
    next => exact trivial
  next => exact trivial

include h in
theorem storeToStorePair_sound :
    (rewriteAdjacentStoresToStorePair instr rest).Sound other out instr rest := by
  unfold rewriteAdjacentStoresToStorePair
  split
  next second rest =>
    split
    next hpair =>
      refine ⟨⟨replaces_storePair hpair rest, ⟨?_, h.2.2⟩, fun first _ => ?_⟩, le_rfl⟩
      · exact pairSound_of_zeroMaterialization rfl rest
      · exact pairSound_of_zeroStore (fun _ => rfl) first rest
    next => exact trivial
  next => exact trivial

include h in
theorem zeroMaterializationStore_sound :
    (rewriteZeroMaterializationStore instr rest).Sound other out instr rest := by
  unfold rewriteZeroMaterializationStore
  split
  next store rest =>
    split
    next store' hboth =>
      obtain ⟨destination, hzero, hstore⟩ := Option.bind_eq_some_iff.mp hboth
      have hreplaces : (code other).Replaces out (instr :: store :: rest) (store' :: rest) :=
        replaces_zeroStore hzero hstore rest (h.1 destination store' hzero hstore)
      obtain ⟨indirect, storeType, stored, -, rfl, -⟩ := zeroStore_cases hstore
      refine ⟨⟨hreplaces, ⟨?_, h.2.2⟩, fun first _ => ?_⟩, le_rfl⟩
      · exact pairSound_of_zeroMaterialization rfl rest
      · exact pairSound_of_zeroStore (fun _ => rfl) first rest
    next => exact trivial
  next => exact trivial

include h in
theorem constantFill_sound :
    (rewriteConstantFillForStorePair instr rest).Sound other out instr rest := by
  unfold rewriteConstantFillForStorePair
  split
  next firstStore second secondStore rest =>
    split
    next destination first last hsame hstores =>
      split
      next hvalues =>
        obtain ⟨hfirst, -⟩ := canPairStores_cases hstores
        have hreplaces : (code other).Replaces out
            (instr :: firstStore :: second :: secondStore :: rest)
            (instr :: firstStore :: secondStore :: rest) :=
          replaces_constantFill hsame hfirst hvalues.1 (secondStore :: rest)
        obtain ⟨constant, type, again, rfl, rfl, hconstant, -⟩ :=
          sameNonZeroImmediateMaterialization_cases hsame
        obtain ⟨⟨multiplier, type', -, rfl⟩, -⟩ := getPairableStore_cases hfirst
        refine ⟨⟨hreplaces, ⟨?_, ?_, h.2.2.2⟩, fun first _ => ?_⟩, by simp⟩
        · exact pairSound_of_zeroMaterialization (zeroMaterialization_of_ne hconstant) _
        · exact pairSound_of_zeroMaterialization rfl _
        · exact pairSound_of_zeroStore (fun _ => rfl) first _
      next => exact trivial
    next => exact trivial
  next => exact trivial

include h in
theorem rewriteAArch64Peepholes_sound :
    (rewriteAArch64Peepholes instr rest).Sound other out instr rest := by
  unfold rewriteAArch64Peepholes
  split
  · exact (loadToLoadPair_sound h).orElse
      ((zeroMaterializationStore_sound h).orElse (constantFill_sound h))
  · exact storeToStorePair_sound h
  · exact trivial

end Rules

section Walks

variable {σ ε : Type*} {other : Code σ ε} {out : Set Nat}
variable {instr : Instruction} {instrs instrs' instrs'' rest : List Instruction}

namespace Rewrites

theorem refl (h : ZeroStoresSound other out instrs) : Rewrites other out instrs instrs :=
  ⟨.refl instrs, h, fun _ hpair => hpair⟩

theorem trans (h : Rewrites other out instrs instrs')
    (h' : Rewrites other out instrs' instrs'') : Rewrites other out instrs instrs'' :=
  ⟨h.replaces.trans h'.replaces, h'.sound, fun first hpair => h'.pair first (h.pair first hpair)⟩

theorem cons (hpair : PairSound other out instr instrs)
    (h : Rewrites other out instrs instrs') :
    Rewrites other out (instr :: instrs) (instr :: instrs') := by
  refine ⟨h.replaces.cons instr, ⟨h.pair instr hpair, h.sound⟩, fun first hfirst => ?_⟩
  intro destination store' hzero hstore
  rw [← h.replaces.1]
  exact hfirst destination store' hzero hstore

end Rewrites

/-- What a walk does: it rewrites the code, and shortens it where it changes it. -/
structure Walks (other : Code σ ε) (out : Set Nat) (instrs : List Instruction)
    (changed : Bool) (instrs' : List Instruction) : Prop where
  rewrites : Rewrites other out instrs instrs'
  shorter : instrs'.length + changed.toNat ≤ instrs.length

theorem toNat_or_le (a b : Bool) : (a || b).toNat ≤ a.toNat + b.toNat := by
  cases a <;> cases b <;> decide

theorem runOneTypeRewrites_spec (h : ZeroStoresSound other out (instr :: rest)) :
    ∃ changed kept rest', (∀ fuel, rest.length < fuel →
        runOneTypeRewrites fuel instr rest = some (changed, kept, rest')) ∧
      Walks other out (instr :: rest) changed (kept ++ rest') ∧
      (kept = [] ∨ kept = [instr]) ∧ rest'.length ≤ rest.length := by
  induction hlength : rest.length using Nat.strong_induction_on generalizing rest with
  | _ n ih =>
    subst hlength
    have hsound := rewriteAArch64Peepholes_sound h
    cases hrewritten : rewriteAArch64Peepholes instr rest with
    | kUnchanged =>
      refine ⟨false, [instr], rest, fun fuel hfuel => ?_, ⟨.refl h, ?_⟩, .inr rfl, le_rfl⟩
      · obtain ⟨fuel, rfl⟩ := Nat.exists_eq_add_of_lt hfuel
        simp only [runOneTypeRewrites, hrewritten]
      · simp
    | kRemoved rest' =>
      rw [hrewritten] at hsound
      refine ⟨true, [], rest', fun fuel hfuel => ?_, ⟨hsound.1, ?_⟩, .inl rfl, hsound.2⟩
      · obtain ⟨fuel, rfl⟩ := Nat.exists_eq_add_of_lt hfuel
        simp only [runOneTypeRewrites, hrewritten]
      · have hshorter := hsound.2
        simpa using hshorter
    | kChanged rest' =>
      rw [hrewritten] at hsound
      obtain ⟨hrewrites, hshorter⟩ := hsound
      obtain ⟨changed, kept, rest'', hrun, hwalk, hkept, hle⟩ :=
        ih rest'.length hshorter hrewrites.sound rfl
      refine ⟨true, kept, rest'', fun fuel hfuel => ?_,
        ⟨hrewrites.trans hwalk.rewrites, ?_⟩, hkept, by omega⟩
      · obtain ⟨fuel, rfl⟩ := Nat.exists_eq_add_of_lt hfuel
        simp only [runOneTypeRewrites, hrewritten]
        rw [hrun _ (by omega)]
        rfl
      · have hlength := hwalk.shorter
        simp only [length_cons, Bool.toNat_true] at hlength ⊢
        omega

theorem rewriteInstructions_spec (h : ZeroStoresSound other out instrs) :
    ∃ changed instrs', (∀ fuel, instrs.length ≤ fuel →
        rewriteInstructions fuel instrs = some (changed, instrs')) ∧
      Walks other out instrs changed instrs' := by
  induction hlength : instrs.length using Nat.strong_induction_on generalizing instrs with
  | _ n ih =>
    subst hlength
    match instrs with
    | [] => exact ⟨false, [], fun fuel _ => by cases fuel <;> rfl, .refl h, by simp⟩
    | instr :: rest =>
      obtain ⟨changed, kept, rest', hrun, hwalk, hkept, hle⟩ := runOneTypeRewrites_spec h
      have hrest : ZeroStoresSound other out rest' := by
        rcases hkept with rfl | rfl
        · exact hwalk.rewrites.sound
        · exact hwalk.rewrites.sound.2
      obtain ⟨changed', instrs', hrun', hwalk'⟩ :=
        ih rest'.length (Nat.lt_succ_of_le hle) hrest rfl
      have hbehind : Rewrites other out (kept ++ rest') (kept ++ instrs') := by
        rcases hkept with rfl | rfl
        · exact hwalk'.rewrites
        · exact .cons hwalk.rewrites.sound.1 hwalk'.rewrites
      refine ⟨changed || changed', kept ++ instrs', fun fuel hfuel => ?_,
        hwalk.rewrites.trans hbehind, ?_⟩
      · obtain ⟨fuel, rfl⟩ := Nat.exists_eq_add_of_lt (Nat.lt_of_succ_le hfuel)
        simp only [rewriteInstructions, hrun _ (Nat.lt_of_succ_le hfuel)]
        rw [hrun' _ (by omega)]
        rfl
      · have hshorter := hwalk.shorter
        have hshorter' := hwalk'.shorter
        have htoNat := toNat_or_le changed changed'
        rw [length_append] at hshorter ⊢
        omega

end Walks

section Stage

variable {σ ε : Type*} {other : Code σ ε} {liveOut : Nat → Set Nat}
variable {block block' block'' : BasicBlock} {blocks : List BasicBlock}

structure RewritesBlock (other : Code σ ε) (liveOut : Nat → Set Nat)
    (block block' : BasicBlock) : Prop where
  id_eq : block'.id = block.id
  rewrites : Rewrites other (liveOut block.id) block.instructions block'.instructions

theorem RewritesBlock.trans (h : RewritesBlock other liveOut block block')
    (h' : RewritesBlock other liveOut block' block'') :
    RewritesBlock other liveOut block block'' :=
  ⟨h'.id_eq.trans h.id_eq, h.rewrites.trans (h.id_eq ▸ h'.rewrites)⟩

def instructionCount (blocks : List BasicBlock) : Nat :=
  (blocks.map fun block => block.instructions.length).sum

def BlocksSound (other : Code σ ε) (liveOut : Nat → Set Nat) (blocks : List BasicBlock) :
    Prop :=
  ∀ block ∈ blocks, ZeroStoresSound other (liveOut block.id) block.instructions

theorem rewriteBlocks_spec (h : BlocksSound other liveOut blocks) :
    ∃ changed blocks', (∀ fuel, instructionCount blocks ≤ fuel →
        rewriteBlocks fuel blocks = some (changed, blocks')) ∧
      List.Forall₂ (RewritesBlock other liveOut) blocks blocks' ∧
      instructionCount blocks' + changed.toNat ≤ instructionCount blocks := by
  induction blocks with
  | nil => exact ⟨false, [], fun _ _ => rfl, .nil, by simp⟩
  | cons block blocks ih =>
    obtain ⟨changed, instructions, hrun, hwalk⟩ :=
      rewriteInstructions_spec (h block (mem_cons_self ..))
    obtain ⟨changed', blocks', hrun', hblocks, hshorter'⟩ :=
      ih fun block hblock => h block (mem_cons_of_mem _ hblock)
    refine ⟨changed || changed', { block with instructions } :: blocks',
      fun fuel hfuel => ?_, .cons ⟨rfl, hwalk.rewrites⟩ hblocks, ?_⟩
    · simp only [instructionCount, map_cons, sum_cons] at hfuel
      simp only [rewriteBlocks, hrun _ (by omega : block.instructions.length ≤ fuel)]
      rw [hrun' _ (by simp only [instructionCount]; omega)]
    · have hshorter := hwalk.shorter
      have htoNat := toNat_or_le changed changed'
      simp only [instructionCount, map_cons, sum_cons] at hshorter' ⊢
      omega

theorem blocksSound_of_forall₂ {blocks' : List BasicBlock}
    (h : List.Forall₂ (RewritesBlock other liveOut) blocks blocks') :
    BlocksSound other liveOut blocks' := by
  induction h with
  | nil => exact fun _ hmem => absurd hmem not_mem_nil
  | cons hblock _ ih =>
    intro block' hmem
    rcases mem_cons.mp hmem with rfl | hmem
    · exact hblock.id_eq ▸ hblock.rewrites.sound
    · exact ih block' hmem

theorem rewritesBlocks_trans {blocks' blocks'' : List BasicBlock}
    (h : List.Forall₂ (RewritesBlock other liveOut) blocks blocks')
    (h' : List.Forall₂ (RewritesBlock other liveOut) blocks' blocks'') :
    List.Forall₂ (RewritesBlock other liveOut) blocks blocks'' := by
  induction h generalizing blocks'' with
  | nil => exact h'
  | cons hblock _ ih =>
    cases h' with
    | cons hblock' hblocks' => exact .cons (hblock.trans hblock') (ih hblocks')

theorem runOneStage_spec (h : BlocksSound other liveOut blocks) :
    ∃ blocks', (∀ fuel, instructionCount blocks < fuel →
        runOneStage fuel blocks = some blocks') ∧
      List.Forall₂ (RewritesBlock other liveOut) blocks blocks' := by
  induction hcount : instructionCount blocks using Nat.strong_induction_on
    generalizing blocks with
  | _ n ih =>
    subst hcount
    obtain ⟨changed, blocks', hrun, hblocks, hshorter⟩ := rewriteBlocks_spec h
    cases changed with
    | false =>
      refine ⟨blocks', fun fuel hfuel => ?_, hblocks⟩
      obtain ⟨fuel, rfl⟩ := Nat.exists_eq_add_of_lt hfuel
      simp only [runOneStage]
      rw [hrun _ (by omega)]
    | true =>
      have hless : instructionCount blocks' < instructionCount blocks := hshorter
      obtain ⟨blocks'', hrun', hblocks'⟩ :=
        ih _ hless (blocksSound_of_forall₂ hblocks) rfl
      refine ⟨blocks'', fun fuel hfuel => ?_, ?_⟩
      · obtain ⟨fuel, rfl⟩ := Nat.exists_eq_add_of_lt hfuel
        simp only [runOneStage]
        rw [hrun _ (by omega)]
        exact hrun' _ (by omega)
      · exact rewritesBlocks_trans hblocks hblocks'

/--
The peephole over a function: the run ends, and from every state every block goes on to
the same memory and the same values of its live registers, or leaves with the same
observation, as it did before.
-/
theorem runOneStage_preserves (other : Code σ ε) (liveOut : Nat → Set Nat)
    (blocks : List BasicBlock)
    (h : ∀ block ∈ blocks, LastUsesSound other (liveOut block.id) block.instructions) :
    ∃ blocks', (∀ fuel, instructionCount blocks < fuel →
        runOneStage fuel blocks = some blocks') ∧
      List.Forall₂ (fun block block' => block'.id = block.id ∧
        ∀ s, Refines (Agree (liveOut block.id)) ((code other).run block.instructions s)
          ((code other).run block'.instructions s)) blocks blocks' := by
  have hsound : BlocksSound other liveOut blocks :=
    fun block hblock => zeroStoresSound_of_lastUsesSound (h block hblock)
  obtain ⟨blocks', hrun, hblocks⟩ := runOneStage_spec hsound
  exact ⟨blocks', hrun, hblocks.imp fun _ _ hblock =>
    ⟨hblock.id_eq, hblock.rewrites.replaces.2⟩⟩

end Stage

section Sample

/-- The machine on which the instructions that are not modelled do nothing. -/
def idle : Code Unit Unit where
  exec _ s := .ok s
  uses _ := ∅
  defs _ := ∅
  exec_agree _ _ _ _ h := .ok ⟨fun r hr => h.1 r (.inl ⟨hr, fun h => h⟩), h.2⟩

def pointer (loc : Nat) (lastUse : Bool) (h : isFpRegister loc = false) : RegOperand :=
  ⟨loc, .kObject, false, lastUse, h⟩

def pointerAt (base : RegOperand) (offset : BitVec 32) : Operand :=
  .ind ⟨some base, none, 0, offset⟩ .kObject

/-- A zero store, two loads and a fill with a constant, each through its own base. -/
def peepholeSample : List BasicBlock :=
  let x1 := pointer 1 false rfl
  let x3 := pointer 3 false rfl
  let x6 := pointer 6 false rfl
  [⟨0, [⟨.kMove, .reg (pointer 0 false rfl), [.imm 0 .kObject false]⟩,
    ⟨.kMove, pointerAt x1 4, [.reg (pointer 0 true rfl)]⟩,
    ⟨.kMove, .reg (pointer 2 false rfl), [pointerAt x3 8]⟩,
    ⟨.kMove, .reg (pointer 4 false rfl), [pointerAt x3 16]⟩,
    ⟨.kMove, .reg (pointer 5 false rfl), [.imm 7 .kObject false]⟩,
    ⟨.kMove, pointerAt x6 16, [.reg (pointer 5 true rfl)]⟩,
    ⟨.kMove, .reg (pointer 5 false rfl), [.imm 7 .kObject false]⟩,
    ⟨.kMove, pointerAt x6 24, [.reg (pointer 5 true rfl)]⟩]⟩]

example : (runOneStage 9 peepholeSample).map (fun blocks =>
    blocks.map fun block => block.instructions.map Instruction.opcode) =
      some [[.kMove, .kLoadPair, .kMove, .kStorePair]] := by
  decide

theorem peepholeSample_preserved :
    ∃ blocks', (∀ fuel, instructionCount peepholeSample < fuel →
        runOneStage fuel peepholeSample = some blocks') ∧
      List.Forall₂ (fun block block' => block'.id = block.id ∧
        ∀ s, Refines (Agree {2, 4}) ((code idle).run block.instructions s)
          ((code idle).run block'.instructions s)) peepholeSample blocks' := by
  refine runOneStage_preserves idle (fun _ => {2, 4}) peepholeSample ?_
  intro block hblock
  obtain rfl := mem_singleton.mp hblock
  simp [LastUsesSound, lastUses, operandLastUses, StraightLine.live, code, isModelled,
    useLocs, defLocs, inputLocs, regLocs, addressLocs, optionLocs, pointer, pointerAt,
    isFpRegister, VECD_REG_BASE, NUM_REGS]

end Sample

end CinderX.Jit.Lir.Aarch64
