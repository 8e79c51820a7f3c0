import CinderX.Jit.Lir.Liveness

/-!
# The steps of the live interval pass

What each step of `calculateLiveIntervals` does to the set of live registers
and to the locations that their intervals cover.
-/

namespace CinderX.Jit.Lir

structure BlockTables where
  regallocBlocks : BlockId → Option RegallocBlockState
  loopEnds : BlockId → List Int
  visitedBlocks : Finset BlockId
  totalIds : Int

namespace LiveState

def tables (st : LiveState) : BlockTables :=
  ⟨st.regallocBlocks, st.loopEnds, st.visitedBlocks, st.totalIds⟩

def Covered (st : LiveState) (v : VReg) (loc : Int) : Prop :=
  (st.intervals (.vreg v)).Mem loc

@[simp] theorem tables_setInterval (st : LiveState) (operand : OperandId)
    (interval : LiveInterval) : (st.setInterval operand interval).tables = st.tables := rfl

@[simp] theorem tables_addPhyUse (st : LiveState) (operand : OperandId) (loc : Int) :
    (st.addPhyUse operand loc).tables = st.tables := rfl

@[simp] theorem covered_addPhyUse (st : LiveState) (operand : OperandId) (loc : Int) :
    (st.addPhyUse operand loc).Covered = st.Covered := rfl

@[simp] theorem tables_addRangeToAll (st : LiveState) (live : Finset VReg)
    (range : LiveRange) : (st.addRangeToAll live range).tables = st.tables := rfl

theorem covered_addRangeToAll (st : LiveState) (live : Finset VReg) (range : LiveRange)
    (v : VReg) (loc : Int) :
    (st.addRangeToAll live range).Covered v loc ↔
      st.Covered v loc ∨ (v ∈ live ∧ range.isInRange loc = true) := by
  unfold Covered addRangeToAll
  dsimp only
  split <;> simp_all

@[simp] theorem tables_recordLastUse (st : LiveState) (operand : LinkedOperand)
    (loc : Int) : (st.recordLastUse operand loc).tables = st.tables := by
  unfold recordLastUse
  dsimp only
  split <;> rfl

@[simp] theorem covered_recordLastUse (st : LiveState) (operand : LinkedOperand)
    (loc : Int) : (st.recordLastUse operand loc).Covered = st.Covered := by
  unfold recordLastUse
  dsimp only
  split <;> rfl

@[simp] theorem tables_reserveRegister (st : LiveState) (instrId : Int) (reg : Nat) :
    (st.reserveRegister instrId reg).tables = st.tables := rfl

@[simp] theorem covered_reserveRegister (st : LiveState) (instrId : Int) (reg : Nat) :
    (st.reserveRegister instrId reg).Covered = st.Covered := by
  funext v loc
  simp [reserveRegister, Covered, setInterval, addPhyUse]

@[simp] theorem tables_reserveRegisters (st : LiveState) (instrId : Int) (regs : List Nat) :
    (st.reserveRegisters instrId regs).tables = st.tables := by
  unfold reserveRegisters
  induction regs generalizing st with
  | nil => rfl
  | cons reg rest ih => simp [ih]

@[simp] theorem covered_reserveRegisters (st : LiveState) (instrId : Int)
    (regs : List Nat) : (st.reserveRegisters instrId regs).Covered = st.Covered := by
  unfold reserveRegisters
  induction regs generalizing st with
  | nil => rfl
  | cons reg rest ih => simp [ih]

theorem covered_setInterval_self (st : LiveState) (v : VReg) (interval : LiveInterval)
    (loc : Int) : (st.setInterval (.vreg v) interval).Covered v loc ↔ interval.Mem loc := by
  simp [Covered, setInterval]

theorem covered_setInterval_of_ne (st : LiveState) {v w : VReg} (h : v ≠ w)
    (interval : LiveInterval) (loc : Int) :
    (st.setInterval (.vreg w) interval).Covered v loc ↔ st.Covered v loc := by
  simp [Covered, setInterval, h]

theorem covered_setInterval_addRange (st : LiveState) (w : VReg) (range : LiveRange)
    (v : VReg) (loc : Int) :
    (st.setInterval (.vreg w) ((st.intervals (.vreg w)).addRange range)).Covered v loc ↔
      st.Covered v loc ∨ (v = w ∧ range.isInRange loc = true) := by
  by_cases h : v = w
  · subst h
    rw [covered_setInterval_self, LiveInterval.mem_addRange_iff]
    simp [Covered]
  · simp [covered_setInterval_of_ne st h, h]

end LiveState

namespace BlockPass

structure Reads (pos : InstrPos) (liveAcross : Bool) (reads : List VReg)
    (pass pass' : BlockPass) : Prop where
  tables : pass'.st.tables = pass.st.tables
  live : ∀ v, v ∈ pass'.live ↔ v ∈ pass.live ∨ v ∈ reads
  covered : ∀ v loc, pass'.st.Covered v loc ↔
    pass.st.Covered v loc ∨ (v ∈ reads ∧ (pos.useRange liveAcross).isInRange loc = true)

theorem Reads.none (pos : InstrPos) (liveAcross : Bool) (pass : BlockPass) :
    Reads pos liveAcross [] pass pass :=
  ⟨rfl, by simp, by simp⟩

variable {pos : InstrPos} {liveAcross : Bool} {pass pass' : BlockPass}

theorem Reads.append {first second : List VReg} {pass'' : BlockPass}
    (h : Reads pos liveAcross first pass pass') (h' : Reads pos liveAcross second pass' pass'') :
    Reads pos liveAcross (first ++ second) pass pass'' := by
  refine ⟨h'.tables.trans h.tables, ?_, ?_⟩
  · intro v
    rw [h'.live, h.live, List.mem_append, or_assoc]
  · intro v loc
    rw [h'.covered, h.covered, List.mem_append, or_and_right, or_assoc]

theorem Reads.congr {reads reads' : List VReg} (h : Reads pos liveAcross reads pass pass')
    (hmem : ∀ v, v ∈ reads ↔ v ∈ reads') : Reads pos liveAcross reads' pass pass' :=
  ⟨h.tables, fun v => by rw [h.live, hmem], fun v loc => by rw [h.covered, hmem]⟩

theorem registerInput_reads (pos : InstrPos) (liveAcross : Bool) (pass : BlockPass)
    (operand : LinkedOperand) (reguse : Bool) :
    Reads pos liveAcross [operand.define] pass
      (pass.registerInput pos liveAcross operand reguse) := by
  unfold registerInput
  refine ⟨?_, ?_, ?_⟩
  · dsimp only
    split <;> split <;> (try split) <;> simp
  · intro v
    simp [or_comm]
  · intro v loc
    dsimp only
    rw [List.mem_singleton, ← LiveState.covered_setInterval_addRange]
    split <;> split <;> (try split) <;> simp

theorem registerAddressReg_reads (pos : InstrPos) (liveAcross : Bool) (pass : BlockPass)
    (reg : AddressReg) :
    Reads pos liveAcross reg.reads pass (pass.registerAddressReg pos liveAcross reg) := by
  cases reg with
  | vreg operand => exact registerInput_reads pos liveAcross pass operand true
  | phyReg loc => exact Reads.none pos liveAcross pass

theorem visitIndirect_reads (pos : InstrPos) (liveAcross : Bool) (pass : BlockPass)
    (indirect : MemoryIndirect) :
    Reads pos liveAcross indirect.reads pass
      (pass.visitIndirect pos liveAcross indirect) := by
  unfold visitIndirect MemoryIndirect.reads
  have hbase := registerAddressReg_reads pos liveAcross pass indirect.base
  cases indirect.index with
  | none => exact hbase.append (Reads.none _ _ _)
  | some index => exact hbase.append (registerAddressReg_reads pos liveAcross _ index)

theorem processInput_reads (pos : InstrPos) (instr : Instruction) (pass : BlockPass)
    (index : Nat) (input : Input) :
    Reads pos instr.opcode.inputsLiveAcross input.reads pass
      (pass.processInput pos instr index input) := by
  unfold processInput Input.reads
  cases input.kind with
  | vreg operand => exact registerInput_reads _ _ _ _ _
  | ind indirect => exact visitIndirect_reads _ _ _ _
  | phyReg loc => exact Reads.none _ _ _
  | stack loc => exact Reads.none _ _ _
  | mem => exact Reads.none _ _ _
  | imm => exact Reads.none _ _ _
  | label block => exact Reads.none _ _ _

theorem processInputs_reads (pos : InstrPos) (instr : Instruction) (pass : BlockPass)
    (index : Nat) (inputs : List Input) :
    Reads pos instr.opcode.inputsLiveAcross (inputs.flatMap Input.reads) pass
      (pass.processInputs pos instr index inputs) := by
  induction inputs generalizing index with
  | nil => exact Reads.none _ _ _
  | cons input rest ih =>
    have h := (ih (index + 1)).append
      (processInput_reads pos instr (pass.processInputs pos instr (index + 1) rest)
        index input)
    exact h.congr fun v => by simp [or_comm]

/-! ## Instructions -/

/-- What an instruction other than a phi does to the sets of the pass. -/
structure Transfers (pos : InstrPos) (instr : Instruction) (pass pass' : BlockPass) :
    Prop where
  tables : pass'.st.tables = pass.st.tables
  live : ∀ v, v ∈ pass'.live ↔
    v ∈ instr.reads ∨ (instr.output ≠ .vreg v ∧ v ∈ pass.live)
  of_covered : ∀ v loc, pass'.st.Covered v loc → pass.st.Covered v loc ∨
    (v ∈ instr.reads ∧
      (pos.useRange instr.opcode.inputsLiveAcross).isInRange loc = true)
  covered_read : ∀ v loc, v ∈ instr.reads →
    (pos.useRange instr.opcode.inputsLiveAcross).isInRange loc = true →
    pass'.st.Covered v loc
  covered_keep : ∀ v loc, pass.st.Covered v loc →
    (instr.output = .vreg v → pos.instrId + 1 ≤ loc) → pass'.st.Covered v loc

theorem reserve_frame (target : Target) (pos : InstrPos) (instr : Instruction)
    (pass : BlockPass) :
    (pass.reserve target pos instr).live = pass.live ∧
      (pass.reserve target pos instr).st.tables = pass.st.tables ∧
      (pass.reserve target pos instr).st.Covered = pass.st.Covered := by
  have hfold : ∀ (regs : List (List Nat)) (st : LiveState),
      (regs.foldl (fun st regs => st.reserveRegisters pos.instrId regs) st).tables = st.tables ∧
        (regs.foldl (fun st regs => st.reserveRegisters pos.instrId regs) st).Covered =
          st.Covered := by
    intro regs
    induction regs with
    | nil => simp
    | cons first rest ih =>
      intro st
      simp [ih]
  refine ⟨rfl, ?_, ?_⟩
  · unfold reserve
    dsimp only
    rw [(hfold _ _).1]
    split <;> rfl
  · unfold reserve
    dsimp only
    rw [(hfold _ _).2]
    split <;> rfl

theorem bind_frame (instr : Instruction) (pass : BlockPass) :
    (pass.bind instr).live = pass.live ∧ (pass.bind instr).st.tables = pass.st.tables ∧
      (pass.bind instr).st.Covered = pass.st.Covered := by
  unfold bind
  split
  case h_1 w _ _ _ _ _ _ =>
      refine ⟨rfl, rfl, ?_⟩
      funext v loc
      by_cases h : v = w
      · subst h
        exact propext (LiveState.covered_setInterval_self _ _ _ _)
      · exact propext (LiveState.covered_setInterval_of_ne _ h _ _)
  case h_2 => simp

variable {instr : Instruction} {index : Nat} {rest : List Instruction} {bb : BasicBlock}

theorem Transfers.of_reads (houtput : ∀ v, instr.output ≠ .vreg v)
    (h : Reads pos instr.opcode.inputsLiveAcross instr.reads pass pass') :
    Transfers pos instr pass pass' := by
  refine ⟨h.tables, ?_, ?_, ?_, ?_⟩
  · intro v
    rw [h.live]
    simp [houtput v, or_comm]
  · intro v loc hcovered
    exact (h.covered v loc).mp hcovered
  · intro v loc hread hrange
    exact (h.covered v loc).mpr (Or.inr ⟨hread, hrange⟩)
  · intro v loc hcovered _
    exact (h.covered v loc).mpr (Or.inl hcovered)

theorem processOutputInputs_transfers (pos : InstrPos) (instr : Instruction)
    (pass : BlockPass) :
    Transfers pos instr pass
      ((pass.processOutput pos instr).processInputs pos instr 0 instr.inputs) := by
  have hinputs := processInputs_reads pos instr (pass.processOutput pos instr) 0 instr.inputs
  unfold processOutput at hinputs ⊢
  cases houtput : instr.output with
  | vreg w =>
    simp only [houtput] at hinputs ⊢
    have hreads : instr.reads = instr.inputs.flatMap Input.reads := by
      simp [Instruction.reads, houtput, Output.reads]
    rw [← hreads] at hinputs
    have hset : ∀ (st : LiveState) (phyUse : Bool),
        (if phyUse then st.addPhyUse (.vreg w) (pos.instrId + 1) else st).tables = st.tables ∧
          (if phyUse then st.addPhyUse (.vreg w) (pos.instrId + 1) else st).Covered =
            st.Covered := by
      intro st phyUse
      cases phyUse <;> simp
    refine ⟨?_, ?_, ?_, ?_, ?_⟩
    · rw [hinputs.tables, (hset _ _).1]
      rfl
    · intro v
      rw [hinputs.live, Finset.mem_erase, houtput, or_comm]
      simp [eq_comm]
    · intro v loc hcovered
      rw [hinputs.covered, (hset _ _).2] at hcovered
      refine hcovered.imp_left ?_
      intro hcovered
      by_cases h : v = w
      · subst h
        rw [LiveState.covered_setInterval_self] at hcovered
        exact inRanges_of_setFrom hcovered
      · exact (LiveState.covered_setInterval_of_ne _ h _ _).mp hcovered
    · intro v loc hread hrange
      rw [hinputs.covered]
      exact Or.inr ⟨hread, hrange⟩
    · intro v loc hcovered hafter
      rw [hinputs.covered, (hset _ _).2]
      left
      by_cases h : v = w
      · subst h
        rw [LiveState.covered_setInterval_self]
        exact inRanges_setFrom_of_le hcovered (hafter houtput)
      · exact (LiveState.covered_setInterval_of_ne _ h _ _).mpr hcovered
  | ind indirect =>
    simp only [houtput] at hinputs ⊢
    apply Transfers.of_reads (by simp [houtput])
    have h := (visitIndirect_reads pos instr.opcode.inputsLiveAcross pass indirect).append
      hinputs
    exact h.congr fun v => by simp [Instruction.reads, houtput, Output.reads]
  | _ =>
    simp only [houtput] at hinputs ⊢
    apply Transfers.of_reads (by simp [houtput])
    exact hinputs.congr fun v => by simp [Instruction.reads, houtput, Output.reads]

theorem processInstr_transfers (target : Target) (pos : InstrPos) (instr : Instruction)
    (hphi : instr.isPhi = false) (pass : BlockPass) :
    Transfers pos instr pass (pass.processInstr target pos instr) := by
  have h := processOutputInputs_transfers pos instr pass
  unfold processInstr
  simp only [hphi, Bool.false_eq_true, if_false]
  obtain ⟨hlive, htables, hcovered⟩ := reserve_frame target pos instr
    ((pass.processOutput pos instr).processInputs pos instr 0 instr.inputs)
  obtain ⟨hlive', htables', hcovered'⟩ := bind_frame instr
    (((pass.processOutput pos instr).processInputs pos instr 0 instr.inputs).reserve
      target pos instr)
  refine ⟨?_, ?_, ?_, ?_, ?_⟩
  · rw [htables', htables, h.tables]
  · rw [hlive', hlive]
    exact h.live
  · rw [hcovered', hcovered]
    exact h.of_covered
  · rw [hcovered', hcovered]
    exact h.covered_read
  · rw [hcovered', hcovered]
    exact h.covered_keep

/-- A list of instructions, the first at `index`, reads a register at or after a location. -/
def ReadsFrom (bbStart : Int) (index : Nat) (instrs : List Instruction) (v : VReg)
    (loc : Int) : Prop :=
  ∃ i instr, instrs[i]? = some instr ∧ instr.isPhi = false ∧ v ∈ instr.reads ∧
    (InstrPos.useRange ⟨bbStart, index + i⟩ instr.opcode.inputsLiveAcross).isInRange loc = true

def DefinesUpTo (bbStart : Int) (index : Nat) (instrs : List Instruction) (v : VReg)
    (loc : Int) : Prop :=
  ∀ i instr, instrs[i]? = some instr → instr.isPhi = false → instr.output = .vreg v →
    InstrPos.instrId ⟨bbStart, index + i⟩ + 1 ≤ loc

variable {bbStart : Int} {v : VReg} {loc : Int}

theorem readsFrom_cons :
    ReadsFrom bbStart index (instr :: rest) v loc ↔
      (instr.isPhi = false ∧ v ∈ instr.reads ∧
        (InstrPos.useRange ⟨bbStart, index⟩ instr.opcode.inputsLiveAcross).isInRange loc
          = true) ∨
      ReadsFrom bbStart (index + 1) rest v loc := by
  constructor
  · rintro ⟨i, instr', hget, h⟩
    cases i with
    | zero =>
      simp only [List.getElem?_cons_zero, Option.some.injEq] at hget
      subst hget
      exact Or.inl h
    | succ i =>
      rw [List.getElem?_cons_succ] at hget
      rw [show index + (i + 1) = index + 1 + i by omega] at h
      exact Or.inr ⟨i, instr', hget, h⟩
  · rintro (h | ⟨i, instr', hget, h⟩)
    · exact ⟨0, instr, rfl, h⟩
    · rw [show index + 1 + i = index + (i + 1) by omega] at h
      exact ⟨i + 1, instr', hget, h⟩

theorem DefinesUpTo.tail {bbStart : Int} {v : VReg} {loc : Int}
    (h : DefinesUpTo bbStart index (instr :: rest) v loc) :
    DefinesUpTo bbStart (index + 1) rest v loc := by
  intro i instr' hget
  have := h (i + 1) instr' hget
  rwa [show index + (i + 1) = index + 1 + i by omega] at this

structure TransfersAll (bbStart : Int) (index : Nat) (instrs : List Instruction)
    (pass pass' : BlockPass) : Prop where
  tables : pass'.st.tables = pass.st.tables
  live : ∀ v, v ∈ pass'.live ↔ Function.LiveBefore (v ∈ pass.live) v instrs
  of_covered : ∀ v loc, pass'.st.Covered v loc →
    pass.st.Covered v loc ∨ ReadsFrom bbStart index instrs v loc
  covered : ∀ v loc, pass.st.Covered v loc ∨ ReadsFrom bbStart index instrs v loc →
    DefinesUpTo bbStart index instrs v loc → pass'.st.Covered v loc

theorem processInstrs_transfersAll (target : Target) (bbStart : Int) (pass : BlockPass)
    (index : Nat) (instrs : List Instruction) :
    TransfersAll bbStart index instrs pass
      (pass.processInstrs target bbStart index instrs) := by
  induction instrs generalizing index with
  | nil =>
    refine ⟨rfl, by simp [processInstrs, Function.LiveBefore], ?_, ?_⟩
    · intro v loc h
      exact Or.inl h
    · rintro v loc (h | ⟨i, instr, hget, -⟩) -
      · exact h
      · simp at hget
  | cons instr rest ih =>
    have hrest := ih (index + 1)
    simp only [processInstrs]
    cases hphi : instr.isPhi with
    | true =>
      have hsame : ∀ pass' : BlockPass,
          pass'.processInstr target ⟨bbStart, index⟩ instr = pass' := by
        intro pass'
        simp [processInstr, hphi]
      rw [hsame]
      refine ⟨hrest.tables, ?_, ?_, ?_⟩
      · intro v
        rw [hrest.live]
        simp [Function.LiveBefore, hphi]
      · intro v loc h
        rw [readsFrom_cons]
        exact (hrest.of_covered v loc h).imp_right Or.inr
      · intro v loc h hdefines
        rw [readsFrom_cons] at h
        exact hrest.covered v loc (by simpa [hphi] using h) hdefines.tail
    | false =>
      have hinstr := processInstr_transfers target ⟨bbStart, index⟩ instr hphi
        (pass.processInstrs target bbStart (index + 1) rest)
      refine ⟨hinstr.tables.trans hrest.tables, ?_, ?_, ?_⟩
      · intro v
        rw [hinstr.live, hrest.live]
        simp [Function.LiveBefore, hphi]
      · intro v loc h
        rw [readsFrom_cons]
        rcases hinstr.of_covered v loc h with h | h
        · exact (hrest.of_covered v loc h).imp_right Or.inr
        · exact Or.inr (Or.inl ⟨hphi, h⟩)
      · intro v loc h hdefines
        rw [readsFrom_cons] at h
        have hkeep : pass.st.Covered v loc ∨ ReadsFrom bbStart (index + 1) rest v loc →
            (pass.processInstrs target bbStart (index + 1) rest
              |>.processInstr target ⟨bbStart, index⟩ instr).st.Covered v loc := by
          intro h
          apply hinstr.covered_keep v loc (hrest.covered v loc h hdefines.tail)
          exact hdefines 0 instr rfl hphi
        rcases h with h | ⟨-, hread, hrange⟩ | h
        · exact hkeep (Or.inl h)
        · exact hinstr.covered_read v loc hread hrange
        · exact hkeep (Or.inr h)

theorem useRange_isInRange_iff :
    (InstrPos.useRange ⟨bbStart, index⟩ liveAcross).isInRange loc = true ↔
      bbStart ≤ loc ∧
        (loc ≤ bbStart + (2 * index + 1 : Nat) ∨
          liveAcross = true ∧ loc ≤ bbStart + (2 * index + 2 : Nat)) := by
  unfold InstrPos.useRange
  split
  case isTrue h =>
      simp only [LiveRange.isInRange_iff, InstrPos.instrId, kIdsPerInstr, h, true_and]
      omega
  case isFalse h =>
      simp only [LiveRange.isInRange_iff, InstrPos.instrId, kIdsPerInstr, h, false_and,
        Bool.false_eq_true, or_false]
      omega

theorem readsFrom_iff :
    ReadsFrom bbStart 0 bb.instrs v loc ↔
      bbStart ≤ loc ∧ ∃ offset : Nat, bb.ReadsAt v offset ∧ loc ≤ bbStart + offset := by
  unfold ReadsFrom
  simp only [Nat.zero_add, useRange_isInRange_iff]
  constructor
  · rintro ⟨index, instr, hget, hphi, hread, hle, hloc | ⟨hacross, hloc⟩⟩
    · exact ⟨hle, _, ⟨index, instr, ⟨hget, hphi⟩, hread, Or.inl rfl⟩, hloc⟩
    · exact ⟨hle, _, ⟨index, instr, ⟨hget, hphi⟩, hread, Or.inr ⟨hacross, rfl⟩⟩, hloc⟩
  · rintro ⟨hle, _, ⟨index, instr, ⟨hget, hphi⟩, hread, rfl | ⟨hacross, rfl⟩⟩, hloc⟩
    · exact ⟨index, instr, hget, hphi, hread, hle, Or.inl hloc⟩
    · exact ⟨index, instr, hget, hphi, hread, hle, Or.inr ⟨hacross, hloc⟩⟩

theorem definesUpTo_of (h : ∀ define : Nat, bb.DefinesAt v define → bbStart + define ≤ loc) :
    DefinesUpTo bbStart 0 bb.instrs v loc := by
  intro index instr hget hphi houtput
  have := h _ (Or.inr ⟨index, instr, ⟨hget, hphi⟩, houtput, rfl⟩)
  simp only [InstrPos.instrId, kIdsPerInstr]
  omega

end BlockPass

namespace LiveState

variable {st : LiveState}

theorem mem_liveOut {f : Function} {bb : BasicBlock} {v : VReg} :
    v ∈ st.liveOut f bb ↔ ∃ succ ∈ bb.successors, v ∈ st.liveFromSuccessor f bb succ := by
  have hfold : ∀ (successors : List BlockId) (live : Finset VReg),
      v ∈ successors.foldl (fun live succ => live ∪ st.liveFromSuccessor f bb succ) live ↔
        v ∈ live ∨ ∃ succ ∈ successors, v ∈ st.liveFromSuccessor f bb succ := by
    intro successors
    induction successors with
    | nil => simp
    | cons succ rest ih =>
      intro live
      simp [ih, or_assoc]
  simp [liveOut, hfold]

theorem extendOverLoop_fold (live : Finset VReg) (ranges : List LiveRange) (st : LiveState) :
    (ranges.foldl (extendOverLoop live) st).tables = st.tables ∧
      ∀ v loc, (ranges.foldl (extendOverLoop live) st).Covered v loc ↔
        st.Covered v loc ∨ (v ∈ live ∧ InRanges ranges loc) := by
  induction ranges generalizing st with
  | nil => simp
  | cons range rest ih =>
    obtain ⟨htables, hcovered⟩ := ih (extendOverLoop live st range)
    have hstep : (extendOverLoop live st range).tables = st.tables := rfl
    have hstepCovered : ∀ v loc, (extendOverLoop live st range).Covered v loc ↔
        st.Covered v loc ∨ (v ∈ live ∧ range.isInRange loc = true) :=
      fun v loc => covered_addRangeToAll
        { st with loopRanges := st.loopRanges ++ [range] } live range v loc
    refine ⟨htables.trans hstep, ?_⟩
    intro v loc
    rw [List.foldl_cons, hcovered, hstepCovered, inRanges_cons, and_or_left, or_assoc]

theorem recordLoopEnds_spec (bb : BasicBlock) (loopEnd : Int) (st : LiveState)
    (hnew : bb.id ∉ st.visitedBlocks) :
    (st.recordLoopEnds bb loopEnd).regallocBlocks = st.regallocBlocks ∧
      (st.recordLoopEnds bb loopEnd).visitedBlocks = st.visitedBlocks ∧
      (st.recordLoopEnds bb loopEnd).totalIds = st.totalIds ∧
      (st.recordLoopEnds bb loopEnd).Covered = st.Covered ∧
      ∀ id e, e ∈ (st.recordLoopEnds bb loopEnd).loopEnds id ↔
        e ∈ st.loopEnds id ∨ (id ∈ bb.successors ∧ e = loopEnd) := by
  unfold recordLoopEnds
  generalize bb.successors = successors
  induction successors generalizing st with
  | nil => simp
  | cons succ rest ih =>
    simp only [List.foldl_cons, if_neg hnew]
    obtain ⟨hblocks, hvisited, htotal, hcovered, hends⟩ :=
      ih { st with
        loopEnds := Function.update st.loopEnds succ (st.loopEnds succ ++ [loopEnd]) } hnew
    refine ⟨hblocks, hvisited, htotal, hcovered.trans rfl, ?_⟩
    intro id e
    rw [hends]
    by_cases hid : id = succ
    · subst hid
      simp only [Function.update_self, List.mem_append, List.mem_cons, true_or, true_and]
      tauto
    · simp [hid]

theorem mem_loopRangesAt {bbStart : Int} {id : BlockId} {loc : Int} :
    InRanges (st.loopRangesAt bbStart id) loc ↔
      bbStart ≤ loc ∧ ∃ loopEnd ∈ st.loopEnds id, loc < loopEnd := by
  unfold loopRangesAt InRanges
  simp only [List.mem_filterMap, LiveRange.isInRange_iff]
  constructor
  · rintro ⟨range, ⟨loopEnd, hmem, hmake⟩, hle, hlt⟩
    unfold LiveRange.make? at hmake
    split at hmake
    · simp only [Option.some.injEq] at hmake
      subst hmake
      exact ⟨hle, loopEnd, hmem, hlt⟩
    · simp at hmake
  · rintro ⟨hle, loopEnd, hmem, hlt⟩
    have h : bbStart < loopEnd := by omega
    exact ⟨⟨bbStart, loopEnd, h⟩, ⟨loopEnd, hmem, by simp [LiveRange.make?, h]⟩, hle, hlt⟩

end LiveState

end CinderX.Jit.Lir
