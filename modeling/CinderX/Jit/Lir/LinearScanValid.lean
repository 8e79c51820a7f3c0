import CinderX.Jit.Lir.LinearScanTurn
import CinderX.Jit.Lir.LiveIntervalsSound

/-!
# Linear scan allocates correctly

The intervals that the pass over the blocks produces satisfy the invariant of
the scan at its start.  When the queue is empty every interval is handled, and
the invariant is the correctness of the allocation.
-/

namespace CinderX.Jit.Lir

open List LiveInterval

/-! ## The intervals at the start -/

/-- Only reserved registers are fixed, and only they start before the first block. -/
def IntervalOk : OperandId → LiveInterval → Prop
  | .vreg v, interval =>
    interval.operand = .vreg v ∧ interval.fixed = false ∧
      ∀ loc, interval.Mem loc → 0 ≤ loc
  | .phyReg reg, interval =>
    interval.operand = .phyReg reg ∧
      (interval.ranges = [] ∨
        interval.fixed = true ∧ interval.allocatedLoc.loc = reg ∧ interval.Mem (-1) ∧
          ∀ loc, interval.Mem loc → -1 ≤ loc)

variable {interval : LiveInterval}

theorem IntervalOk.operand {operand : OperandId} (h : IntervalOk operand interval) :
    interval.operand = operand := by
  cases operand with
  | vreg v => exact h.1
  | phyReg reg => exact h.1

theorem IntervalOk.addRange {v : VReg} (h : IntervalOk (.vreg v) interval) {range : LiveRange}
    (hrange : 0 ≤ range.start) : IntervalOk (.vreg v) (interval.addRange range) := by
  refine ⟨h.1, h.2.1, ?_⟩
  intro loc hmem
  rw [mem_addRange_iff, LiveRange.isInRange_iff] at hmem
  cases hmem with
  | inl hold => exact h.2.2 loc hold
  | inr hnew => omega

theorem IntervalOk.reserved {reg : Nat} (h : IntervalOk (.phyReg reg) interval) :
    let base := if interval.isEmpty then interval.addRange ⟨-1, 0, by decide⟩ else interval
    base.operand = .phyReg reg ∧ base.Mem (-1) ∧ ∀ loc, base.Mem loc → -1 ≤ loc := by
  dsimp only
  split
  case isTrue hempty =>
      have hnil : interval.ranges = [] := by
        simpa [LiveInterval.isEmpty] using hempty
      have hmem : ∀ loc, (interval.addRange ⟨-1, 0, by decide⟩).Mem loc ↔ -1 ≤ loc ∧ loc < 0 := by
        intro loc
        rw [mem_addRange_iff, LiveRange.isInRange_iff, LiveInterval.Mem, hnil]
        simp
      refine ⟨h.1, (hmem (-1)).mpr (by decide), ?_⟩
      intro loc hloc
      exact ((hmem loc).mp hloc).1
  case isFalse hnonempty =>
      cases h.2 with
      | inl hnil => simp [LiveInterval.isEmpty, hnil] at hnonempty
      | inr hfixed => exact ⟨h.1, hfixed.2.2⟩

namespace LiveState

def IntervalsOk (st : LiveState) : Prop := ∀ operand, IntervalOk operand (st.intervals operand)

variable {st : LiveState}

theorem IntervalsOk.setInterval (h : st.IntervalsOk) {operand : OperandId}
    {interval : LiveInterval} (hok : IntervalOk operand interval) :
    (st.setInterval operand interval).IntervalsOk := by
  intro operand'
  unfold LiveState.setInterval
  by_cases heq : operand' = operand
  · subst heq
    simpa using hok
  · simpa [heq] using h operand'

theorem IntervalsOk.addRangeToAll (h : st.IntervalsOk) (live : Finset VReg) {range : LiveRange}
    (hrange : 0 ≤ range.start) : (st.addRangeToAll live range).IntervalsOk := by
  intro operand
  unfold LiveState.addRangeToAll
  cases operand with
  | phyReg reg => exact h (.phyReg reg)
  | vreg v =>
    dsimp only
    split
    · exact (h (.vreg v)).addRange hrange
    · exact h (.vreg v)

theorem IntervalsOk.recordLastUse (h : st.IntervalsOk) (operand : LinkedOperand) (instrId : Int) :
    (st.recordLastUse operand instrId).IntervalsOk := by
  unfold LiveState.recordLastUse
  dsimp only
  split <;> exact h

theorem IntervalsOk.reserveRegister (h : st.IntervalsOk) {instrId : Int} (hid : 0 ≤ instrId)
    (reg : Nat) : (st.reserveRegister instrId reg).IntervalsOk := by
  obtain ⟨hoperand, hlow, hall⟩ := (h (.phyReg reg)).reserved
  apply IntervalsOk.setInterval h
  refine ⟨hoperand, Or.inr ⟨rfl, rfl, ?_, ?_⟩⟩
  · exact (mem_addRange_iff _ _ _).mpr (Or.inl hlow)
  · intro loc hmem
    cases (mem_addRange_iff _ _ _).mp hmem with
    | inl hold => exact hall loc hold
    | inr hnew =>
      rw [LiveRange.isInRange_iff] at hnew
      dsimp only at hnew
      omega

theorem IntervalsOk.reserveRegisters (h : st.IntervalsOk) {instrId : Int} (hid : 0 ≤ instrId)
    (regs : List Nat) : (st.reserveRegisters instrId regs).IntervalsOk := by
  unfold LiveState.reserveRegisters
  induction regs generalizing st with
  | nil => exact h
  | cons reg rest ih => exact ih (h.reserveRegister hid reg)

end LiveState

namespace BlockPass

open LiveState

variable {pos : InstrPos} {pass : BlockPass}

theorem registerInput_ok (hpos : 0 ≤ pos.bbStart) (h : pass.st.IntervalsOk)
    (liveAcross : Bool) (operand : LinkedOperand) (reguse : Bool) :
    (pass.registerInput pos liveAcross operand reguse).st.IntervalsOk := by
  have hrange : 0 ≤ (pos.useRange liveAcross).start := by
    unfold InstrPos.useRange
    split <;> exact hpos
  have hset := h.setInterval ((h (.vreg operand.define)).addRange hrange)
  have hlast : ∀ st : LiveState, st.IntervalsOk → (if operand.define ∈ pass.live then st
      else st.recordLastUse operand pos.instrId).IntervalsOk := by
    intro st hst
    split
    · exact hst
    · exact hst.recordLastUse operand pos.instrId
  unfold registerInput
  dsimp only
  split
  · split <;> exact hlast _ hset
  · exact hlast _ hset

theorem registerAddressReg_ok (hpos : 0 ≤ pos.bbStart) (h : pass.st.IntervalsOk)
    (liveAcross : Bool) (reg : AddressReg) :
    (pass.registerAddressReg pos liveAcross reg).st.IntervalsOk := by
  cases reg with
  | vreg operand => exact registerInput_ok hpos h liveAcross operand true
  | phyReg loc => exact h

theorem visitIndirect_ok (hpos : 0 ≤ pos.bbStart) (h : pass.st.IntervalsOk)
    (liveAcross : Bool) (indirect : MemoryIndirect) :
    (pass.visitIndirect pos liveAcross indirect).st.IntervalsOk := by
  have hbase := registerAddressReg_ok hpos h liveAcross indirect.base
  unfold visitIndirect
  dsimp only
  split
  · exact registerAddressReg_ok hpos hbase liveAcross _
  · exact hbase

theorem processOutput_ok (hpos : 0 ≤ pos.bbStart) (h : pass.st.IntervalsOk)
    (instr : Instruction) : (pass.processOutput pos instr).st.IntervalsOk := by
  unfold processOutput
  split
  case h_1 v _ =>
      have hv := h (.vreg v)
      have hset : (pass.st.setInterval (.vreg v)
          ((pass.st.intervals (.vreg v)).setFrom (pos.instrId + 1))).IntervalsOk := by
        apply h.setInterval
        exact ⟨hv.1, hv.2.1, fun loc hmem => hv.2.2 loc (inRanges_of_setFrom hmem)⟩
      dsimp only
      split <;> exact hset
  case h_2 => exact visitIndirect_ok hpos h _ _
  case h_3 => exact h

theorem processInput_ok (hpos : 0 ≤ pos.bbStart) (h : pass.st.IntervalsOk)
    (instr : Instruction) (index : Nat) (input : Input) :
    (pass.processInput pos instr index input).st.IntervalsOk := by
  unfold processInput
  split
  · exact registerInput_ok hpos h _ _ _
  · exact visitIndirect_ok hpos h _ _
  · exact h

theorem processInputs_ok (hpos : 0 ≤ pos.bbStart) (h : pass.st.IntervalsOk)
    (instr : Instruction) (index : Nat) (inputs : List Input) :
    (pass.processInputs pos instr index inputs).st.IntervalsOk := by
  induction inputs generalizing index with
  | nil => exact h
  | cons input rest ih => exact processInput_ok hpos (ih (index + 1)) instr index input

theorem reserve_ok (hpos : 0 ≤ pos.bbStart) (h : pass.st.IntervalsOk) (target : Target)
    (instr : Instruction) : (pass.reserve target pos instr).st.IntervalsOk := by
  have hid : 0 ≤ pos.instrId := by
    simp only [InstrPos.instrId, kIdsPerInstr]
    omega
  have hfold : ∀ (regs : List (List Nat)) (st : LiveState), st.IntervalsOk →
      (regs.foldl (fun st regs => st.reserveRegisters pos.instrId regs) st).IntervalsOk := by
    intro regs
    induction regs with
    | nil => exact fun _ hst => hst
    | cons first rest ih => exact fun st hst => ih _ (hst.reserveRegisters hid first)
  unfold reserve
  apply hfold
  dsimp only
  split <;> exact h

theorem bind_ok (h : pass.st.IntervalsOk) (instr : Instruction) :
    (pass.bind instr).st.IntervalsOk := by
  unfold bind
  split
  case h_1 v _ _ _ _ _ _ =>
      have hv := h (.vreg v)
      exact h.setInterval ⟨hv.1, hv.2.1, hv.2.2⟩
  case h_2 => exact h

theorem processInstr_ok (hpos : 0 ≤ pos.bbStart) (h : pass.st.IntervalsOk)
    (target : Target) (instr : Instruction) :
    (pass.processInstr target pos instr).st.IntervalsOk := by
  unfold processInstr
  split
  · exact h
  · apply bind_ok
    apply reserve_ok hpos
    exact processInputs_ok hpos (processOutput_ok hpos h instr) instr 0 instr.inputs

theorem processInstrs_ok {bbStart : Int} (hstart : 0 ≤ bbStart) (h : pass.st.IntervalsOk)
    (target : Target) (index : Nat) (instrs : List Instruction) :
    (processInstrs target bbStart pass index instrs).st.IntervalsOk := by
  induction instrs generalizing index with
  | nil => exact h
  | cons instr rest ih =>
    exact @processInstr_ok ⟨bbStart, index⟩ _ hstart (ih (index + 1)) target instr

end BlockPass

namespace LiveState

theorem IntervalsOk.extendOverLoops {bbStart : Int} (hstart : 0 ≤ bbStart)
    (live : Finset VReg) (ranges : List LiveRange) (hranges : ∀ r ∈ ranges, r.start = bbStart)
    {st : LiveState} (h : st.IntervalsOk) :
    (ranges.foldl (extendOverLoop live) st).IntervalsOk := by
  induction ranges generalizing st with
  | nil => exact h
  | cons range rest ih =>
    apply ih (fun r hr => hranges r (by simp [hr]))
    have hrange : 0 ≤ range.start := by
      rw [hranges range (by simp)]
      exact hstart
    exact IntervalsOk.addRangeToAll h live hrange

theorem start_of_mem_loopRangesAt {st : LiveState} {bbStart : Int} {id : BlockId}
    {range : LiveRange} (h : range ∈ st.loopRangesAt bbStart id) : range.start = bbStart := by
  simp only [loopRangesAt, mem_filterMap, LiveRange.make?] at h
  obtain ⟨loopEnd, -, h⟩ := h
  split at h
  · rw [← Option.some.inj h]
  · simp at h

theorem recordLoopEnds_frame (bb : BasicBlock) (loopEnd : Int) (st : LiveState) :
    (st.recordLoopEnds bb loopEnd).intervals = st.intervals ∧
      (st.recordLoopEnds bb loopEnd).totalIds = st.totalIds := by
  unfold recordLoopEnds
  induction bb.successors generalizing st with
  | nil => exact ⟨rfl, rfl⟩
  | cons succ rest ih =>
    rw [foldl_cons]
    split
    · exact ih st
    · exact ih _

theorem IntervalsOk.processBlockAt {st : LiveState} (h : st.IntervalsOk) (target : Target)
    (f : Function) (bb : BasicBlock) {range : LiveRange} (hrange : 0 ≤ range.start)
    (loopEnd : Int) :
    (st.processBlockAt target f bb range loopEnd).IntervalsOk ∧
      (st.processBlockAt target f bb range loopEnd).totalIds = range.start := by
  have hentered : (st.enterBlock bb range.start).IntervalsOk := h
  have hout := hentered.addRangeToAll ((st.enterBlock bb range.start).liveOut f bb) hrange
  have hpass := @BlockPass.processInstrs_ok
    ⟨_, (st.enterBlock bb range.start).liveOut f bb⟩ range.start hrange hout target 0 bb.instrs
  unfold LiveState.processBlockAt leaveBlock
  dsimp only
  constructor
  · intro operand
    dsimp only
    rw [(recordLoopEnds_frame _ _ _).1]
    exact IntervalsOk.extendOverLoops hrange _ _ (fun r hr => start_of_mem_loopRangesAt hr)
      hpass operand
  · rw [(recordLoopEnds_frame _ _ _).2]
    have hinstrs := BlockPass.processInstrs_transfersAll target range.start
      ⟨(st.enterBlock bb range.start).addRangeToAll
        ((st.enterBlock bb range.start).liveOut f bb) range,
        (st.enterBlock bb range.start).liveOut f bb⟩ 0 bb.instrs
    exact congrArg BlockTables.totalIds ((extendOverLoop_fold _ _ _).1.trans hinstrs.tables)

end LiveState

theorem foldl_processBlock_ok (target : Target) (f : Function) (blocks : List BasicBlock)
    {st : LiveState} (h : st.IntervalsOk) (htotal : st.totalIds = span blocks) :
    (blocks.foldl (fun st bb => st.processBlock target f bb) st).IntervalsOk := by
  induction blocks generalizing st with
  | nil => exact h
  | cons bb rest ih =>
    have hstart : st.totalIds - ((bb.getNumInstrs * kIdsPerInstr : Nat) : Int) - 1 =
        span rest := by
      rw [htotal, span_cons]
      simp only [BasicBlock.getNumInstrs, kIdsPerInstr, BasicBlock.size]
      omega
    rw [foldl_cons]
    unfold LiveState.processBlock
    have hrange : 0 ≤ st.totalIds - ((bb.getNumInstrs * kIdsPerInstr : Nat) : Int) - 1 := by
      rw [hstart]
      omega
    have hblock := @LiveState.IntervalsOk.processBlockAt st h target f bb
      ⟨st.totalIds - ((bb.getNumInstrs * kIdsPerInstr : Nat) : Int) - 1, st.totalIds, by omega⟩
      hrange
    exact ih (hblock _).1 ((hblock _).2.trans hstart)

theorem calculateLiveIntervals_ok (target : Target) (f : Function) :
    (calculateLiveIntervals target f).IntervalsOk := by
  unfold calculateLiveIntervals
  apply foldl_processBlock_ok
  · intro operand
    cases operand with
    | vreg v => exact ⟨rfl, rfl, fun loc hmem => absurd hmem (inRanges_nil loc)⟩
    | phyReg reg => exact ⟨rfl, Or.inl rfl⟩
  · have hspan : span f.blocks.reverse = span f.blocks := by
      simp [span, map_reverse, sum_reverse]
    rw [hspan, ← totalIds_eq_span]
    rfl

theorem firstCandidate_mem {address : OperandId → Nat} {intervals : List LiveInterval}
    {best : LiveInterval} (h : firstCandidate address intervals = some best) :
    best ∈ intervals := by
  induction intervals generalizing best with
  | nil => simp [firstCandidate] at h
  | cons interval rest ih =>
    simp only [firstCandidate] at h
    cases hrest : firstCandidate address rest with
    | none => simp_all
    | some best' =>
      rw [hrest] at h
      dsimp only at h
      split at h
      · rw [← Option.some.inj h]
        exact mem_cons_of_mem _ (ih hrest)
      · simp_all

variable {live : LiveState}

theorem isVreg_of_firstCandidate {f : Function} {address : OperandId → Nat}
    {intervals : List LiveInterval} {p : LiveInterval → Bool} {operand : OperandId}
    (h : (firstCandidate address ((intervals.filter (isLoopCallCandidate f live)).filter p)).map
      LiveInterval.operand = some operand) :
    ∃ v, operand = .vreg v := by
  rw [Option.map_eq_some_iff] at h
  obtain ⟨best, hbest, rfl⟩ := h
  have hmem := firstCandidate_mem hbest
  simp only [mem_filter] at hmem
  have hcandidate := hmem.1.2
  cases hoperand : best.operand with
  | vreg v => exact ⟨v, rfl⟩
  | phyReg reg => simp [isLoopCallCandidate, hoperand] at hcandidate

def Prefers (g : LiveInterval → LiveInterval) : Prop :=
  ∀ interval, g interval = interval ∨
    ∃ v loc, interval.operand = .vreg v ∧ g interval = interval.allocateTo loc

theorem assignLoopCallRegisterPreferences_prefers (regs : RegisterFile) (f : Function)
    (live : LiveState) (address : OperandId → Nat) (intervals : List LiveInterval) :
    ∃ g, assignLoopCallRegisterPreferences regs f live address intervals = intervals.map g ∧
      Prefers g := by
  unfold assignLoopCallRegisterPreferences
  cases regs.loopCallRegs with
  | none => exact ⟨id, by simp, fun _ => Or.inl rfl⟩
  | some loopCallRegs =>
    refine ⟨_, rfl, ?_⟩
    intro interval
    dsimp only
    split
    case isTrue hbest =>
        obtain ⟨v, hv⟩ := isVreg_of_firstCandidate hbest
        exact Or.inr ⟨v, _, hv, rfl⟩
    case isFalse =>
        split
        case isTrue hbest =>
            obtain ⟨v, hv⟩ := isVreg_of_firstCandidate hbest
            exact Or.inr ⟨v, _, hv, rfl⟩
        case isFalse => exact Or.inl rfl

namespace Prefers

variable {g : LiveInterval → LiveInterval}

theorem operand (h : Prefers g) (interval : LiveInterval) :
    (g interval).operand = interval.operand := by
  rcases h interval with heq | ⟨v, loc, -, heq⟩ <;> rw [heq]
  rfl

theorem ranges (h : Prefers g) (interval : LiveInterval) :
    (g interval).ranges = interval.ranges := by
  rcases h interval with heq | ⟨v, loc, -, heq⟩ <;> rw [heq]
  rfl

theorem fixed (h : Prefers g) (interval : LiveInterval) :
    (g interval).fixed = interval.fixed := by
  rcases h interval with heq | ⟨v, loc, -, heq⟩ <;> rw [heq]
  rfl

theorem phyReg (h : Prefers g) {interval : LiveInterval} {reg : Nat}
    (hreg : interval.operand = .phyReg reg) : g interval = interval := by
  rcases h interval with heq | ⟨v, loc, hv, -⟩
  · exact heq
  · simp [hreg] at hv

end Prefers

/-! ## The invariant at the start -/

structure Numbers (live : LiveState) (operands : List OperandId) (s : Scan) : Prop where
  count : s.count = operands.length
  interval : ∀ i operand, operands[i]? = some operand →
    (s.intervals i).operand = operand ∧
      (s.intervals i).ranges = (live.intervals operand).ranges ∧
      (s.intervals i).fixed = (live.intervals operand).fixed ∧
      ∀ reg, operand = .phyReg reg → s.intervals i = live.intervals operand

theorem initialScan_numbers (regs : RegisterFile) (f : Function) (hok : live.IntervalsOk)
    (address : OperandId → Nat) (reservedStackSpace : Nat) (operands : List OperandId) :
    Numbers live operands (initialScan regs f live address reservedStackSpace operands) := by
  obtain ⟨g, hmap, hprefers⟩ := assignLoopCallRegisterPreferences_prefers regs f live address
    (operands.map live.intervals)
  refine ⟨rfl, ?_⟩
  intro i operand hget
  have hinterval : (initialScan regs f live address reservedStackSpace operands).intervals i =
      g (live.intervals operand) := by
    simp [initialScan, hmap, getD_eq_getElem?_getD, hget]
  rw [hinterval]
  refine ⟨(hprefers.operand _).trans (hok operand).operand, hprefers.ranges _,
    hprefers.fixed _, ?_⟩
  rintro reg rfl
  exact hprefers.phyReg (hok (.phyReg reg)).operand

namespace Numbers

variable {live : LiveState} {operands : List OperandId} {s : Scan}

theorem exists_operand (h : Numbers live operands s) (henum : Enumerates live operands)
    {i : Nat} (hi : i < s.count) :
    ∃ operand, operands[i]? = some operand ∧ (live.intervals operand).ranges ≠ [] := by
  rw [h.count] at hi
  refine ⟨operands[i], by simp [hi], ?_⟩
  have hmem := (henum.mem_iff operands[i]).mp (getElem_mem hi)
  simpa [LiveInterval.isEmpty] using hmem

theorem mem_iff (h : Numbers live operands s) {i : Nat} {operand : OperandId}
    (hget : operands[i]? = some operand) (loc : Int) :
    (s.intervals i).Mem loc ↔ (live.intervals operand).Mem loc := by
  simp only [LiveInterval.Mem, (h.interval i operand hget).2.1]

theorem eq_of_operand (h : Numbers live operands s) (henum : Enumerates live operands)
    {i j : Nat} {operand : OperandId} (hi : i < s.count) (hgeti : operands[i]? = some operand)
    (hgetj : operands[j]? = some operand) : i = j := by
  rw [h.count] at hi
  exact (getElem?_inj hi henum.nodup).mp (hgeti.trans hgetj.symm)

theorem partitions (h : Numbers live operands s) (henum : Enumerates live operands) :
    s.Partitions live.intervals := by
  constructor
  · intro i hi
    obtain ⟨operand, hget, hne⟩ := h.exists_operand henum hi
    rw [(h.interval i operand hget).2.1]
    exact hne
  · intro operand loc
    constructor
    · intro hmem
      have hoperand : operand ∈ operands := by
        rw [henum.mem_iff]
        simpa [LiveInterval.isEmpty] using LiveInterval.ranges_ne_nil_of_mem hmem
      obtain ⟨i, hget⟩ := mem_iff_getElem?.mp hoperand
      have hlt : i < operands.length := (List.getElem?_eq_some_iff.mp hget).1
      exact ⟨i, by rw [h.count]; exact hlt, (h.interval i operand hget).1,
        (h.mem_iff hget loc).mpr hmem⟩
    · rintro ⟨i, hi, hoperand, hmem⟩
      obtain ⟨operand', hget, -⟩ := h.exists_operand henum hi
      rw [(h.interval i operand' hget).1] at hoperand
      subst hoperand
      exact (h.mem_iff hget loc).mp hmem
  · intro i hi j hj hne hoperand
    obtain ⟨operandi, hgeti, -⟩ := h.exists_operand henum hi
    obtain ⟨operandj, hgetj, -⟩ := h.exists_operand henum hj
    rw [(h.interval i operandi hgeti).1, (h.interval j operandj hgetj).1] at hoperand
    subst hoperand
    exact absurd (h.eq_of_operand henum hi hgeti hgetj) hne

theorem reserved (h : Numbers live operands s) (henum : Enumerates live operands)
    (hok : live.IntervalsOk) {i : Nat} (hi : i < s.count) :
    ((s.intervals i).fixed = true ∧ ∃ reg, operands[i]? = some (.phyReg reg) ∧
      (s.intervals i).operand = .phyReg reg ∧ (s.intervals i).allocatedLoc.loc = reg ∧
      (s.intervals i).startLocation = -1) ∨
    ((s.intervals i).fixed = false ∧ 0 ≤ (s.intervals i).startLocation) := by
  obtain ⟨operand, hget, hne⟩ := h.exists_operand henum hi
  obtain ⟨hoperand, hranges, hfixed, hsame⟩ := h.interval i operand hget
  have hstart : (s.intervals i).Mem (s.intervals i).startLocation :=
    startLocation_mem (by rw [hranges]; exact hne)
  cases operand with
  | vreg v =>
    obtain ⟨-, hnot, hnonneg⟩ := hok (.vreg v)
    right
    exact ⟨hfixed.trans hnot, hnonneg _ ((h.mem_iff hget _).mp hstart)⟩
  | phyReg reg =>
    left
    obtain ⟨-, hnil | ⟨hyes, hloc, hlow, hall⟩⟩ := hok (.phyReg reg)
    · exact absurd hnil hne
    · refine ⟨hfixed.trans hyes, reg, hget, hoperand, by rw [hsame reg rfl, hloc], ?_⟩
      apply le_antisymm
      · exact startLocation_le ((h.mem_iff hget _).mpr hlow)
      · exact hall _ ((h.mem_iff hget _).mp hstart)

theorem fixedOk (h : Numbers live operands s) (henum : Enumerates live operands)
    (hok : live.IntervalsOk) (regs : RegisterFile) (f : Function) :
    s.FixedOk (scanContext regs f live) := by
  constructor
  · intro i hi hfixed
    rcases h.reserved henum hok hi with ⟨-, reg, -, -, -, hstart⟩ | ⟨hnot, -⟩
    · exact hstart
    · simp [hfixed] at hnot
  · intro i hi hfixed
    rcases h.reserved henum hok hi with ⟨-, reg, -, hoperand, hloc, -⟩ | ⟨hnot, -⟩
    · rw [hoperand, hloc]
      simp [Scan.isFpRegister, scanContext, OperandId.isFp]
    · simp [hfixed] at hnot
  · intro i hi j hj hfixedi hfixedj hloc
    rcases h.reserved henum hok hi with ⟨-, regi, hgeti, -, hloci, -⟩ | ⟨hnot, -⟩
    · rcases h.reserved henum hok hj with ⟨-, regj, hgetj, -, hlocj, -⟩ | ⟨hnot, -⟩
      · have hreg : regi = regj := by omega
        subst hreg
        exact h.eq_of_operand henum hi hgeti hgetj
      · simp [hfixedj] at hnot
    · simp [hfixedi] at hnot
  · intro i hi hfixed
    rcases h.reserved henum hok hi with ⟨hyes, -⟩ | ⟨-, hstart⟩
    · simp [hfixed] at hyes
    · exact hstart

end Numbers

theorem initialScan_between (regs : RegisterFile) (f : Function) (hok : live.IntervalsOk)
    (address : OperandId → Nat) (reservedStackSpace : Nat) {operands : List OperandId}
    (henum : Enumerates live operands) :
    (initialScan regs f live address reservedStackSpace operands).Between
      (scanContext regs f live) live.intervals := by
  have hnumbers := initialScan_numbers regs f hok address reservedStackSpace operands
  have hpending : ∀ i, i ∈ (initialScan regs f live address reservedStackSpace
      operands).unhandled ↔ i < operands.length := by
    simp [initialScan]
  have hnone : ∀ i, ¬ (initialScan regs f live address reservedStackSpace operands).Handled
      (fun i => i ∈ (initialScan regs f live address reservedStackSpace operands).unhandled)
      i := by
    intro i hi
    exact hi.2 ((hpending i).mpr hi.1)
  refine ⟨-1, ?_⟩
  constructor
  · exact hnumbers.partitions henum
  · exact fun operand loc hmem => LiveInterval.lt_endLocation hmem
  · exact hnumbers.fixedOk henum hok regs f
  · constructor <;> simp [initialScan]
  · exact ⟨fun i hi => absurd hi (hnone i), fun i hi => absurd hi (hnone i),
      fun i _ hi => absurd hi (hnone i), fun i hi => absurd hi (hnone i),
      fun i hi => absurd hi (hnone i), fun i _ hi => absurd hi (hnone i)⟩
  · exact fun i hi => (hpending i).mp hi
  · intro i hi
    rcases hnumbers.reserved henum hok ((hpending i).mp hi) with
      ⟨-, reg, -, -, -, hstart⟩ | ⟨-, hstart⟩
    · rw [hstart]
    · omega
  · exact fun i hi => absurd hi (hnone i)
  · simp [initialScan]
  · exact fun i hi => absurd hi (hnone i)

/-- A correct assignment of locations to the intervals of a function. -/
structure ValidAllocation (live : LiveState) (s : Scan) : Prop where
  allocated : ∀ i < s.count, (s.intervals i).isAllocated = true
  apart : ∀ i < s.count, ∀ j < s.count, (s.intervals i).operand ≠ (s.intervals j).operand →
    (s.intervals i).allocatedLoc.loc = (s.intervals j).allocatedLoc.loc → s.Apart i j
  covered : ∀ operand loc, (live.intervals operand).Mem loc ↔
    ∃ i < s.count, (s.intervals i).operand = operand ∧ (s.intervals i).Mem loc
  once : ∀ i < s.count, ∀ j < s.count, i ≠ j →
    (s.intervals i).operand = (s.intervals j).operand → s.Apart i j
  register : ∀ i < s.count, ∀ use ∈ live.vregPhyUses (s.intervals i).operand,
    (s.intervals i).Mem use → (s.intervals i).isRegisterAllocated = true

theorem linearScan_valid (regs : RegisterFile) (target : Target) (f : Function)
    (reservedStackSpace : Nat) (s : Scan)
    (h : LinearScanResult regs f (calculateLiveIntervals target f) reservedStackSpace s) :
    ValidAllocation (calculateLiveIntervals target f) s := by
  obtain ⟨address, operands, henum, hrun, hempty⟩ := h
  obtain ⟨pos, hinv⟩ := (initialScan_between regs f (calculateLiveIntervals_ok target f) address
    reservedStackSpace henum).run hrun
  have hhandled : ∀ i < s.count, s.Handled (fun i => i ∈ s.unhandled) i := by
    intro i hi
    exact ⟨hi, by simp [hempty]⟩
  constructor
  · intro i hi
    have hloc := hinv.placed.allocated i (hhandled i hi)
    apply decide_eq_true
    simp only [PhyLocation.REG_INVALID]
    omega
  · intro i hi j hj hne heq
    by_cases hreg : 0 ≤ (s.intervals i).allocatedLoc.loc
    · have hij : i ≠ j := by
        rintro rfl
        exact hne rfl
      exact hinv.placed.apart_reg i j (hhandled i hi) (hhandled j hj) hij hreg heq
    · exact hinv.placed.apart_slot i j (hhandled i hi) (hhandled j hj) hne (by omega) heq
  · exact hinv.partitions.mem_iff
  · exact hinv.partitions.apart
  · intro i hi use huse hmem
    by_contra hstack
    simp only [isRegisterAllocated, PhyLocation.isRegister, decide_eq_true_eq, not_le] at hstack
    exact hinv.placed.stack_use i (hhandled i hi) hstack use huse hmem

namespace Scan

theorem eq_nil_of_firstTop {s : Scan} {queue : List Nat} (h : s.firstTop queue = none) :
    queue = [] := by
  cases queue with
  | nil => rfl
  | cons first rest =>
    simp only [firstTop] at h
    split at h
    · split at h <;> simp at h
    · simp at h

theorem firstTop_spec {s : Scan} {queue : List Nat} {current : Nat}
    (h : s.firstTop queue = some current) :
    current ∈ queue ∧
      ∀ i ∈ queue, (s.intervals current).startLocation ≤ (s.intervals i).startLocation := by
  induction queue generalizing current with
  | nil => simp [firstTop] at h
  | cons first rest ih =>
    simp only [firstTop] at h
    cases hrest : s.firstTop rest with
    | none =>
      have hnil := eq_nil_of_firstTop hrest
      simp_all
    | some best =>
      have hbest := ih hrest
      rw [hrest] at h
      dsimp only at h
      split at h
      case isTrue hlt =>
          rw [← Option.some.inj h]
          refine ⟨mem_cons_of_mem _ hbest.1, ?_⟩
          intro i hi
          cases mem_cons.mp hi with
          | inl heq => rw [heq]; omega
          | inr hmem => exact hbest.2 i hmem
      case isFalse hlt =>
          rw [← Option.some.inj h]
          refine ⟨by simp, ?_⟩
          intro i hi
          cases mem_cons.mp hi with
          | inl heq => rw [heq]
          | inr hmem =>
            have := hbest.2 i hmem
            omega

theorem drain_run {ctx : ScanContext} {fuel : Nat} {s s' : Scan}
    (h : drain ctx fuel s = some s') : Run ctx s s' ∧ s'.unhandled = [] := by
  induction fuel generalizing s with
  | zero =>
    simp only [drain] at h
    split at h
    case isTrue hempty =>
        rw [← Option.some.inj h]
        exact ⟨Relation.ReflTransGen.refl, by simpa using hempty⟩
    case isFalse => simp at h
  | succ fuel ih =>
    simp only [drain] at h
    split at h
    case h_1 hnone =>
        rw [← Option.some.inj h]
        exact ⟨Relation.ReflTransGen.refl, eq_nil_of_firstTop hnone⟩
    case h_2 current htop =>
        rw [Option.bind_eq_some_iff] at h
        obtain ⟨s₁, hstep, hrest⟩ := h
        obtain ⟨hrun, hempty⟩ := ih hrest
        refine ⟨Relation.ReflTransGen.head ?_ hrun, hempty⟩
        exact ⟨current, s.active, s.inactive, firstTop_spec htop, List.Perm.refl _,
          List.Perm.refl _, hstep⟩

end Scan

def acrossCall : Function where
  blocks := [⟨0, [
    ⟨.kMove, .vreg 0, [⟨.imm, .k64bit⟩]⟩,
    ⟨.kMove, .vreg 1, [⟨.imm, .k64bit⟩]⟩,
    ⟨.kCall, .none, [⟨.imm, .k64bit⟩]⟩,
    ⟨.kAdd, .vreg 2, [⟨.vreg ⟨0, 0⟩, .k64bit⟩, ⟨.vreg ⟨1, 1⟩, .k64bit⟩]⟩,
    ⟨.kReturn, .none, [⟨.vreg ⟨2, 2⟩, .k64bit⟩]⟩], []⟩]
  dataType _ := .k64bit

def acrossCallOperands : List OperandId :=
  (List.range 3).map .vreg ++ (List.range 8).map .phyReg

theorem acrossCall_enumerates :
    Enumerates (calculateLiveIntervals unknownTarget acrossCall) acrossCallOperands := by
  have hvreg : ∀ v < 3, OperandId.vreg v ∈ acrossCallOperands ↔
      ((calculateLiveIntervals unknownTarget acrossCall).intervals (.vreg v)).isEmpty =
        false := by
    decide
  have hphyReg : ∀ reg < 8, OperandId.phyReg reg ∈ acrossCallOperands ↔
      ((calculateLiveIntervals unknownTarget acrossCall).intervals (.phyReg reg)).isEmpty =
        false := by
    decide
  refine ⟨by decide, ?_⟩
  rintro (v | reg)
  · by_cases hlt : v < 3
    · exact hvreg v hlt
    · obtain ⟨n, rfl⟩ := Nat.exists_eq_add_of_le' (not_lt.mp hlt)
      have hempty : ((calculateLiveIntervals unknownTarget acrossCall).intervals
          (.vreg (n + 3))).isEmpty = true := rfl
      simp [hempty, acrossCallOperands]
  · by_cases hlt : reg < 8
    · exact hphyReg reg hlt
    · obtain ⟨n, rfl⟩ := Nat.exists_eq_add_of_le' (not_lt.mp hlt)
      have hempty : ((calculateLiveIntervals unknownTarget acrossCall).intervals
          (.phyReg (n + 8))).isEmpty = true := rfl
      simp [hempty, acrossCallOperands]

theorem acrossCall_drains :
    (Scan.drain (scanContext unknownRegisterFile acrossCall
        (calculateLiveIntervals unknownTarget acrossCall)) 20
      (initialScan unknownRegisterFile acrossCall
        (calculateLiveIntervals unknownTarget acrossCall) (fun _ => 0) 0
        acrossCallOperands)).isSome = true := by
  decide

theorem linearScan_valid_acrossCall :
    ∃ s, LinearScanResult unknownRegisterFile acrossCall
        (calculateLiveIntervals unknownTarget acrossCall) 0 s ∧
      ValidAllocation (calculateLiveIntervals unknownTarget acrossCall) s := by
  obtain ⟨s, hs⟩ := Option.isSome_iff_exists.mp acrossCall_drains
  obtain ⟨hrun, hempty⟩ := Scan.drain_run hs
  have hresult : LinearScanResult unknownRegisterFile acrossCall
      (calculateLiveIntervals unknownTarget acrossCall) 0 s :=
    ⟨_, _, acrossCall_enumerates, hrun, hempty⟩
  exact ⟨s, hresult, linearScan_valid unknownRegisterFile unknownTarget acrossCall 0 s hresult⟩

end CinderX.Jit.Lir
