import CinderX.Jit.Lir.LiveInterval

/-!
# Calculating live intervals

`LinearScanAllocator::calculateLiveIntervals`: one pass over the blocks and
their instructions in reverse order.  Sets of operands are finite sets, the
hash maps of the allocator are functions, and what the build fixes about the
machine is a `Target`.
-/

namespace CinderX.Jit.Lir

structure Target where
  callerSaveRegs : List Nat
  initRegisters : List Nat
  /-- `RETURN_REGS[0]`. -/
  returnReg : Nat
  /-- `RAX` and `RDX` on x86-64. -/
  x86 : Option (Nat × Nat)
  tstateOffset : Int

def x86Target : Target where
  callerSaveRegs := [0, 1, 2, 6, 7, 8, 9, 10, 11] ++ List.range' 16 16
  initRegisters := [0, 1, 2, 3] ++ List.range' 6 26
  returnReg := 0
  x86 := some (0, 2)
  tstateOffset := -1

/-- The build without a code generator, where calls keep no register. -/
def unknownTarget : Target where
  callerSaveRegs := List.range 8
  initRegisters := List.range 8
  returnReg := 0
  x86 := none
  tstateOffset := -1

def kIdsPerInstr : Nat := 2

structure RegallocBlockState where
  blockStartIndex : Int
  livein : Finset VReg

/-- The fields of the allocator that the pass fills in, and its local tables. -/
structure LiveState where
  intervals : OperandId → LiveInterval
  vregPhyUses : OperandId → Finset Int
  vregLastUse : VReg → List (LinkedOperand × Int)
  callLocations : Finset Int
  loopRanges : List LiveRange
  regallocBlocks : BlockId → Option RegallocBlockState
  loopEnds : BlockId → List Int
  visitedBlocks : Finset BlockId
  totalIds : Int

namespace LiveState

def setInterval (st : LiveState) (operand : OperandId) (interval : LiveInterval) :
    LiveState :=
  { st with intervals := Function.update st.intervals operand interval }

def addPhyUse (st : LiveState) (operand : OperandId) (loc : Int) : LiveState :=
  { st with
    vregPhyUses := Function.update st.vregPhyUses operand
      (insert loc (st.vregPhyUses operand)) }

def addRangeToAll (st : LiveState) (live : Finset VReg) (range : LiveRange) : LiveState :=
  { st with
    intervals := fun operand =>
      match operand with
      | .vreg v =>
        if v ∈ live then (st.intervals operand).addRange range else st.intervals operand
      | .phyReg _ => st.intervals operand }

def reserveRegister (st : LiveState) (instrId : Int) (reg : Nat) : LiveState :=
  let interval := st.intervals (.phyReg reg)
  let interval :=
    if interval.isEmpty then interval.addRange ⟨-1, 0, by decide⟩ else interval
  let interval := interval.addRange ⟨instrId, instrId + 1, Int.lt_succ instrId⟩
  let interval := { interval.allocateTo reg with fixed := true }
  (st.setInterval (.phyReg reg) interval).addPhyUse (.phyReg reg) instrId

def reserveRegisters (st : LiveState) (instrId : Int) (regs : List Nat) : LiveState :=
  regs.foldl (fun st reg => st.reserveRegister instrId reg) st

def recordLastUse (st : LiveState) (operand : LinkedOperand) (instrId : Int) : LiveState :=
  let uses := st.vregLastUse operand.define
  if uses.any fun use => use.1 = operand then st
  else
    { st with
      vregLastUse := Function.update st.vregLastUse operand.define
        (uses ++ [(operand, instrId)]) }

def dropLastUsesIn (st : LiveState) (live : Finset VReg) (range : LiveRange) : LiveState :=
  { st with
    vregLastUse := fun v =>
      if v ∈ live then (st.vregLastUse v).filter fun use => !range.isInRange use.2
      else st.vregLastUse v }

end LiveState

structure BlockPass where
  st : LiveState
  live : Finset VReg

structure InstrPos where
  bbStart : Int
  index : Nat

namespace InstrPos

def instrId (pos : InstrPos) : Int := pos.bbStart + 1 + kIdsPerInstr * pos.index

theorem bbStart_lt (pos : InstrPos) : pos.bbStart < pos.instrId + 1 := by
  simp only [instrId, kIdsPerInstr]
  omega

theorem bbStart_lt_across (pos : InstrPos) : pos.bbStart < pos.instrId + kIdsPerInstr := by
  simp only [instrId, kIdsPerInstr]
  omega

def useRange (pos : InstrPos) (liveAcross : Bool) : LiveRange :=
  if liveAcross then ⟨pos.bbStart, pos.instrId + kIdsPerInstr, pos.bbStart_lt_across⟩
  else ⟨pos.bbStart, pos.instrId + 1, pos.bbStart_lt⟩

end InstrPos

namespace BlockPass

def registerInput (pos : InstrPos) (liveAcross : Bool) (pass : BlockPass)
    (operand : LinkedOperand) (reguse : Bool) : BlockPass :=
  let define := operand.define
  let st := pass.st.setInterval (.vreg define)
    ((pass.st.intervals (.vreg define)).addRange (pos.useRange liveAcross))
  let st := if define ∈ pass.live then st else st.recordLastUse operand pos.instrId
  let st :=
    if reguse then
      let st := st.addPhyUse (.vreg define) pos.instrId
      if liveAcross then st.addPhyUse (.vreg define) (pos.instrId + 1) else st
    else st
  ⟨st, insert define pass.live⟩

def registerAddressReg (pos : InstrPos) (liveAcross : Bool) (pass : BlockPass) :
    AddressReg → BlockPass
  | .vreg operand => pass.registerInput pos liveAcross operand true
  | .phyReg _ => pass

def visitIndirect (pos : InstrPos) (liveAcross : Bool) (pass : BlockPass)
    (indirect : MemoryIndirect) : BlockPass :=
  let pass := pass.registerAddressReg pos liveAcross indirect.base
  match indirect.index with
  | some index => pass.registerAddressReg pos liveAcross index
  | none => pass

def processOutput (pos : InstrPos) (instr : Instruction) (pass : BlockPass) : BlockPass :=
  match instr.output with
  | .vreg v =>
    let st := pass.st.setInterval (.vreg v)
      ((pass.st.intervals (.vreg v)).setFrom (pos.instrId + 1))
    let st :=
      if instr.opcode.outputPhyUse then st.addPhyUse (.vreg v) (pos.instrId + 1) else st
    ⟨st, pass.live.erase v⟩
  | .ind indirect => pass.visitIndirect pos instr.opcode.inputsLiveAcross indirect
  | _ => pass

def processInput (pos : InstrPos) (instr : Instruction) (pass : BlockPass)
    (index : Nat) (input : Input) : BlockPass :=
  match input.kind with
  | .vreg operand =>
    pass.registerInput pos instr.opcode.inputsLiveAcross operand
      (instr.getInputPhyRegUse index)
  | .ind indirect => pass.visitIndirect pos instr.opcode.inputsLiveAcross indirect
  | _ => pass

/-- The inputs from the last to the first; `index` is the position of the first one. -/
def processInputs (pos : InstrPos) (instr : Instruction) (pass : BlockPass) :
    Nat → List Input → BlockPass
  | _, [] => pass
  | index, input :: rest =>
    (processInputs pos instr pass (index + 1) rest).processInput pos instr index input

def reservedRegisters (target : Target) (instr : Instruction) : List (List Nat) :=
  let call :=
    if instr.opcode.isCallLike || instr.opcode.isTreeIterHelperCall then
      [target.callerSaveRegs]
    else []
  let threadState :=
    if instr.opcode = .kLoadThreadState then
      if target.tstateOffset = -1 then [target.callerSaveRegs] else [[target.returnReg]]
    else []
  let x86 :=
    match target.x86 with
    | none => []
    | some (rax, rdx) =>
      if instr.opcode = .kMul ∧ (instr.inputs[0]?.map Input.dataType) = some .k8bit then
        [[rax]]
      else if instr.opcode = .kDiv ∨ instr.opcode = .kDivUn then
        if (instr.inputs[1]?.map Input.dataType) ≠ some .k8bit then [[rax, rdx]]
        else [[rax]]
      else []
  let yield := if instr.opcode.isAnyYield then [target.initRegisters] else []
  call ++ threadState ++ x86 ++ yield

def reserve (target : Target) (pos : InstrPos) (instr : Instruction) (pass : BlockPass) :
    BlockPass :=
  let st :=
    if instr.opcode.isCallLike || instr.opcode.isTreeIterHelperCall then
      { pass.st with callLocations := insert pos.instrId pass.st.callLocations }
    else pass.st
  ⟨(reservedRegisters target instr).foldl
    (fun st regs => st.reserveRegisters pos.instrId regs) st, pass.live⟩

/-- A `Bind` ties its output to the register that it reads. -/
def bind (instr : Instruction) (pass : BlockPass) : BlockPass :=
  match instr.opcode, instr.output, instr.inputs with
  | .kBind, .vreg v, ⟨.phyReg loc, _⟩ :: _ =>
    ⟨pass.st.setInterval (.vreg v) ((pass.st.intervals (.vreg v)).allocateTo loc),
      pass.live⟩
  | _, _, _ => pass

def processInstr (target : Target) (pos : InstrPos) (instr : Instruction)
    (pass : BlockPass) : BlockPass :=
  if instr.isPhi then pass
  else
    let pass := pass.processOutput pos instr
    let pass := pass.processInputs pos instr 0 instr.inputs
    (pass.reserve target pos instr).bind instr

/-- The instructions from the last to the first; `index` is that of the first one. -/
def processInstrs (target : Target) (bbStart : Int) (pass : BlockPass) :
    Nat → List Instruction → BlockPass
  | _, [] => pass
  | index, instr :: rest =>
    (processInstrs target bbStart pass (index + 1) rest).processInstr target
      ⟨bbStart, index⟩ instr

end BlockPass

def phiInput? (phi : Instruction) (pred : BlockId) : Option VReg :=
  match phi.getOperandByPredecessor pred with
  | some ⟨.vreg operand, _⟩ => some operand.define
  | _ => none

def phiInputs (bb : BasicBlock) (pred : BlockId) : Finset VReg :=
  (bb.phis.filterMap fun phi => phiInput? phi pred).toFinset

def phiOutput? (phi : Instruction) : Option VReg :=
  match phi.output with
  | .vreg v => some v
  | _ => none

def phiOutputs (bb : BasicBlock) : Finset VReg := (bb.phis.filterMap phiOutput?).toFinset

namespace LiveState

def liveFromSuccessor (f : Function) (bb : BasicBlock) (st : LiveState)
    (succ : BlockId) : Finset VReg :=
  let livein :=
    match st.regallocBlocks succ with
    | some state => state.livein
    | none => ∅
  let phis :=
    match f.block? succ with
    | some succBlock => phiInputs succBlock bb.id
    | none => ∅
  livein ∪ phis

def liveOut (f : Function) (bb : BasicBlock) (st : LiveState) : Finset VReg :=
  bb.successors.foldl (fun live succ => live ∪ st.liveFromSuccessor f bb succ) ∅

def extendOverLoop (live : Finset VReg) (st : LiveState) (range : LiveRange) : LiveState :=
  let st := { st with loopRanges := st.loopRanges ++ [range] }
  (st.addRangeToAll live range).dropLastUsesIn live range

def loopRangesAt (st : LiveState) (bbStart : Int) (bb : BlockId) : List LiveRange :=
  (st.loopEnds bb).filterMap fun loopEnd => LiveRange.make? bbStart loopEnd

def recordLoopEnds (bb : BasicBlock) (loopEnd : Int) (st : LiveState) : LiveState :=
  bb.successors.foldl (fun st succ =>
    if bb.id ∈ st.visitedBlocks then st
    else
      { st with
        loopEnds := Function.update st.loopEnds succ (st.loopEnds succ ++ [loopEnd]) }) st

def enterBlock (st : LiveState) (bb : BasicBlock) (bbStart : Int) : LiveState :=
  { st with
    totalIds := bbStart
    regallocBlocks := Function.update st.regallocBlocks bb.id (some ⟨bbStart, ∅⟩) }

def leaveBlock (st : LiveState) (bb : BasicBlock) (bbStart loopEnd : Int)
    (live : Finset VReg) : LiveState :=
  let st :=
    { st with
      regallocBlocks := Function.update st.regallocBlocks bb.id (some ⟨bbStart, live⟩) }
  let st := st.recordLoopEnds bb loopEnd
  { st with visitedBlocks := insert bb.id st.visitedBlocks }

def processBlockAt (target : Target) (f : Function) (bb : BasicBlock) (range : LiveRange)
    (loopEnd : Int) (st : LiveState) : LiveState :=
  let st := st.enterBlock bb range.start
  let live := st.liveOut f bb
  let st := st.addRangeToAll live range
  let pass := BlockPass.processInstrs target range.start ⟨st, live⟩ 0 bb.instrs
  let live := pass.live \ phiOutputs bb
  let st := (pass.st.loopRangesAt range.start bb.id).foldl (extendOverLoop live) pass.st
  st.leaveBlock bb range.start loopEnd live

def processBlock (target : Target) (f : Function) (bb : BasicBlock) (st : LiveState) :
    LiveState :=
  let bbEnd := st.totalIds
  let bbInstrs := bb.getNumInstrs * kIdsPerInstr
  let bbStart := bbEnd - bbInstrs - 1
  st.processBlockAt target f bb ⟨bbStart, bbEnd, by omega⟩ (bbStart + bbInstrs + 1)

end LiveState

def OperandId.sizeInBits (f : Function) : OperandId → Nat
  | .vreg v => bitSize (f.dataType v)
  | .phyReg _ => 64

def totalIds (blocks : List BasicBlock) : Nat :=
  (blocks.map BasicBlock.getNumInstrs).sum * kIdsPerInstr + blocks.length

def initialLiveState (f : Function) : LiveState where
  intervals operand := LiveInterval.empty operand (operand.sizeInBits f)
  vregPhyUses _ := ∅
  vregLastUse _ := []
  callLocations := ∅
  loopRanges := []
  regallocBlocks _ := none
  loopEnds _ := []
  visitedBlocks := ∅
  totalIds := totalIds f.blocks

def calculateLiveIntervals (target : Target) (f : Function) : LiveState :=
  f.blocks.reverse.foldl (fun st bb => st.processBlock target f bb) (initialLiveState f)

end CinderX.Jit.Lir
