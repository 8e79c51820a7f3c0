import CinderX.Jit.Lir.CalculateLiveIntervals

/-!
# Linear scan

`LinearScanAllocator::linearScan` and the functions it calls.  Intervals are
objects that are split and moved between sets while the scan runs, so they are
numbered here, and the sets hold their numbers.  A failing check has no
result.
-/

namespace CinderX.Jit.Lir

def START_LOCATION : Int := 0

def MAX_LOCATION : Int := 2147483647

def kPointerSize : Int := 8

structure RegisterFile where
  numRegs : Nat
  vecdRegBase : Nat
  numVecdRegs : Nat
  /-- `DISALLOWED_REGISTERS` and those that OSR entries add. -/
  disallowed : List Nat
  /-- `X27` and `D15` on AArch64. -/
  loopCallRegs : Option (Nat × Nat)
  numRegs_eq : numRegs = vecdRegBase + numVecdRegs
  numVecdRegs_le : numVecdRegs ≤ vecdRegBase

/-- The build without a code generator: four registers of each kind. -/
def unknownRegisterFile : RegisterFile where
  numRegs := 8
  vecdRegBase := 4
  numVecdRegs := 4
  disallowed := []
  loopCallRegs := none
  numRegs_eq := rfl
  numVecdRegs_le := le_refl 4

structure ScanContext where
  regs : RegisterFile
  isFp : OperandId → Bool
  vregPhyUses : OperandId → Finset Int
  vregGlobalLastUse : OperandId → Int

structure Scan where
  intervals : Nat → LiveInterval
  count : Nat
  unhandled : List Nat
  active : List Nat
  inactive : List Nat
  stackIntervals : List Nat
  operandToSlot : OperandId → Option Int
  /-- The slot freed last comes first. -/
  freeStackSlots : List Int
  maxStackSlot : Int
  changedRegs : Finset Int

namespace Scan

def getUseAtOrAfter (ctx : ScanContext) (operand : OperandId) (loc : Int) : Int :=
  ((ctx.vregPhyUses operand).filter fun use => loc ≤ use).min.untopD MAX_LOCATION

def splitAndSave (s : Scan) (i : Nat) (loc : Int) : Option Scan :=
  if (s.intervals i).startLocation < loc then
    match (s.intervals i).splitAt? loc with
    | some (first, second) =>
      if second.startLocation < second.endLocation then
        some { s with
          intervals := Function.update (Function.update s.intervals i first) s.count second
          count := s.count + 1
          unhandled := s.count :: s.unhandled }
      else none
    | none => none
  else none

def newStackSlot (s : Scan) : Int × Scan :=
  match s.freeStackSlots with
  | slot :: rest => (slot, { s with freeStackSlots := rest })
  | [] =>
    let slot := s.maxStackSlot - kPointerSize
    (slot, { s with maxStackSlot := slot })

def getStackSlot (s : Scan) (operand : OperandId) : Option (Int × Scan) :=
  match s.operandToSlot operand with
  | some slot => some (slot, s)
  | none =>
    let (slot, s) := s.newStackSlot
    if slot < 0 then
      some (slot,
        { s with operandToSlot := Function.update s.operandToSlot operand (some slot) })
    else none

def freeStackSlot (s : Scan) (operand : OperandId) : Option Scan :=
  match s.operandToSlot operand with
  | some slot =>
    if slot < 0 then
      some { s with
        operandToSlot := Function.update s.operandToSlot operand none
        freeStackSlots := slot :: s.freeStackSlots }
    else none
  | none => none

def releaseStackSlot (ctx : ScanContext) (position : Int) (s : Scan) (i : Nat) :
    Option Scan :=
  let operand := (s.intervals i).operand
  if ctx.vregGlobalLastUse operand < position then s.freeStackSlot operand else some s

def releaseStackSlots (ctx : ScanContext) (position : Int) (s : Scan) : Option Scan := do
  let s ← s.stackIntervals.foldlM (releaseStackSlot ctx position) s
  return { s with stackIntervals := [] }

def updateSets (position : Int) (s : Scan) : Scan :=
  let alive i := position < (s.intervals i).endLocation
  let covers i := (s.intervals i).covers position
  let active := s.active.filter fun i => alive i && covers i
  let inactive := s.inactive ++ s.active.filter fun i => alive i && !covers i
  { s with
    active := active ++ inactive.filter fun i => alive i && covers i
    inactive := inactive.filter fun i => alive i && !covers i }

/-- The intervals of a set that hold a register of the class of an operand. -/
def holding (ctx : ScanContext) (s : Scan) (set : List Nat) (isFp : Bool) (reg : Nat) :
    List Nat :=
  set.filter fun j =>
    ctx.isFp (s.intervals j).operand = isFp ∧ (s.intervals j).allocatedLoc.loc = reg

def candidates (lo hi : Nat) : List Nat := List.range' lo (hi - lo)

def maxElement (pos : Nat → Int) : List Nat → Option Nat
  | [] => none
  | reg :: rest =>
    match maxElement pos rest with
    | some best => if pos reg < pos best then some best else some reg
    | none => some reg

def freeUntilPos (ctx : ScanContext) (s : Scan) (current : Nat) (reg : Nat) : Int :=
  let isFp := ctx.isFp (s.intervals current).operand
  if reg ∈ ctx.regs.disallowed then START_LOCATION
  else
    let pos := if (s.holding ctx s.active isFp reg).isEmpty then MAX_LOCATION else START_LOCATION
    (s.holding ctx s.inactive isFp reg).foldl (fun pos j =>
      match (s.intervals j).intersectWith (s.intervals current) with
      | some intersect => min pos intersect
      | none => pos) pos

def isFpRegister (ctx : ScanContext) (loc : Int) : Bool := ctx.regs.vecdRegBase ≤ loc

/-- The register that a preallocated interval asks for, if it is free. -/
def preferredReg (ctx : ScanContext) (s : Scan) (current : Nat) : Option (Option Nat) :=
  let interval := s.intervals current
  if interval.isRegisterAllocated then
    if ctx.isFp interval.operand = isFpRegister ctx interval.allocatedLoc.loc then
      let reg := interval.allocatedLoc.loc.toNat
      if s.freeUntilPos ctx current reg = START_LOCATION then some none else some (some reg)
    else none
  else some none

/-- The register that is free for longest; the inner `none` when there is none. -/
def freestReg (ctx : ScanContext) (s : Scan) (current : Nat) : Option (Option Nat) :=
  let regs :=
    if ctx.isFp (s.intervals current).operand then
      candidates ctx.regs.vecdRegBase ctx.regs.numRegs
    else candidates 0 (ctx.regs.numRegs - ctx.regs.numVecdRegs)
  match maxElement (s.freeUntilPos ctx current) regs with
  | some reg =>
    if s.freeUntilPos ctx current reg = START_LOCATION then some none else some (some reg)
  | none => none

def allocateTo (s : Scan) (i : Nat) (loc : Int) : Scan :=
  { s with intervals := Function.update s.intervals i ((s.intervals i).allocateTo loc) }

def freeReg (ctx : ScanContext) (s : Scan) (current : Nat) : Option (Option Nat) :=
  match s.preferredReg ctx current with
  | some (some reg) => some (some reg)
  | some none => s.freestReg ctx current
  | none => none

/-- The inner `none` stands for `return false`. -/
def tryAllocateFreeReg (ctx : ScanContext) (s : Scan) (current : Nat) :
    Option (Option Scan) := do
  if (s.intervals current).fixed then return some s
  match ← s.freeReg ctx current with
  | none => return none
  | some reg =>
    let regFreeUntil := s.freeUntilPos ctx current reg
    let s := s.allocateTo current reg
    if regFreeUntil < (s.intervals current).endLocation then
      let s ← s.splitAndSave current regFreeUntil
      return some s
    else return some s

def nextUsePos (ctx : ScanContext) (s : Scan) (current : Nat) (reg : Nat) : Int :=
  let isFp := ctx.isFp (s.intervals current).operand
  let start := (s.intervals current).startLocation
  let nextUse j := getUseAtOrAfter ctx (s.intervals j).operand start
  if reg ∈ ctx.regs.disallowed then START_LOCATION
  else
    let pos := (s.holding ctx s.active isFp reg).foldl (fun _ j => nextUse j) MAX_LOCATION
    (s.holding ctx s.inactive isFp reg).foldl (fun pos j =>
      match (s.intervals j).intersectWith (s.intervals current) with
      | some _ => min pos (nextUse j)
      | none => pos) pos

def farthestReg (ctx : ScanContext) (s : Scan) (current : Nat) : Option Nat :=
  let regs :=
    if ctx.isFp (s.intervals current).operand then
      candidates ctx.regs.vecdRegBase ctx.regs.numRegs
    else candidates 0 (ctx.regs.numRegs - ctx.regs.vecdRegBase)
  maxElement (s.nextUsePos ctx current) regs

def spillCurrent (s : Scan) (current : Nat) (firstUse : Int) : Option Scan := do
  let (slot, s) ← s.getStackSlot (s.intervals current).operand
  let s := s.allocateTo current slot
  if firstUse < (s.intervals current).endLocation then s.splitAndSave current firstUse
  else return s

def evictActive (s : Scan) (start : Int) (holder : Nat) : Option Scan :=
  if start = (s.intervals holder).startLocation then
    some { s with
      active := s.active.filter fun i => i ≠ holder
      unhandled := holder :: s.unhandled }
  else s.splitAndSave holder start

def evictInactive (current : Nat) (start : Int) (s : Scan) (j : Nat) : Option Scan :=
  if (s.intervals j).fixed then
    match (s.intervals current).intersectWith (s.intervals j) with
    | some intersect => s.splitAndSave current intersect
    | none => some s
  else s.splitAndSave j start

def allocateBlockedReg (ctx : ScanContext) (s : Scan) (current : Nat) : Option Scan := do
  let interval := s.intervals current
  let isFp := ctx.isFp interval.operand
  let start := interval.startLocation
  let reg ← s.farthestReg ctx current
  let firstUse := getUseAtOrAfter ctx interval.operand start
  if s.nextUsePos ctx current reg ≤ firstUse then s.spillCurrent current firstUse
  else
    let holders := s.holding ctx s.active isFp reg
    let inactive := s.holding ctx s.inactive isFp reg
    let s := s.allocateTo current reg
    let holder ← holders.head?
    let s ← s.evictActive start holder
    inactive.foldlM (evictInactive current start) s

def allocate (ctx : ScanContext) (s : Scan) (current : Nat) : Option Scan :=
  match s.tryAllocateFreeReg ctx current with
  | some (some s) => some s
  | some none => s.allocateBlockedReg ctx current
  | none => none

def recordLocation (s : Scan) (current : Nat) : Scan :=
  if (s.intervals current).isRegisterAllocated then
    { s with
      changedRegs := insert (s.intervals current).allocatedLoc.loc s.changedRegs
      active := current :: s.active }
  else { s with stackIntervals := [current] }

def step (ctx : ScanContext) (current : Nat) (s : Scan) : Option Scan := do
  let s := { s with unhandled := s.unhandled.filter fun i => i ≠ current }
  let position := (s.intervals current).startLocation
  let s ← s.releaseStackSlots ctx position
  let s ← (s.updateSets position).allocate ctx current
  return s.recordLocation current

def IsTop (s : Scan) (current : Nat) : Prop :=
  current ∈ s.unhandled ∧
    ∀ i ∈ s.unhandled, (s.intervals current).startLocation ≤ (s.intervals i).startLocation

/-- One turn of the loop.  The sets are hash sets, met in any order. -/
def Step (ctx : ScanContext) (s s' : Scan) : Prop :=
  ∃ current active inactive, s.IsTop current ∧
    active.Perm s.active ∧ inactive.Perm s.inactive ∧
    step ctx current { s with active := active, inactive := inactive } = some s'

def Run (ctx : ScanContext) : Scan → Scan → Prop := Relation.ReflTransGen (Step ctx)

/-- An interval with the least start, as one queue would hand it out. -/
def firstTop (s : Scan) : List Nat → Option Nat
  | [] => none
  | i :: rest =>
    match s.firstTop rest with
    | some best =>
      if (s.intervals best).startLocation < (s.intervals i).startLocation then some best
      else some i
    | none => some i

/-- The loop with one order of the sets, for a bounded number of turns. -/
def drain (ctx : ScanContext) : Nat → Scan → Option Scan
  | 0, s => if s.unhandled.isEmpty then some s else none
  | fuel + 1, s =>
    match s.firstTop s.unhandled with
    | none => some s
    | some current => (step ctx current s).bind (drain ctx fuel)

end Scan

def intervalCoversLoopCall (live : LiveState) (interval : LiveInterval) : Bool :=
  live.loopRanges.any fun range =>
    ∃ call ∈ live.callLocations, range.isInRange call = true ∧ interval.covers call = true

/-- The intervals that may get a register reserved for loops with calls. -/
def isLoopCallCandidate (f : Function) (live : LiveState) (interval : LiveInterval) : Bool :=
  match interval.operand with
  | .vreg v =>
    !interval.fixed && !interval.isRegisterAllocated && f.dataType v ≠ .kObject &&
      intervalCoversLoopCall live interval
  | .phyReg _ => false

def precedes (address : OperandId → Nat) (a b : LiveInterval) : Bool :=
  if a.startLocation ≠ b.startLocation then a.startLocation < b.startLocation
  else if a.endLocation ≠ b.endLocation then b.endLocation < a.endLocation
  else address a.operand < address b.operand

def firstCandidate (address : OperandId → Nat) : List LiveInterval → Option LiveInterval
  | [] => none
  | interval :: rest =>
    match firstCandidate address rest with
    | some best => if precedes address best interval then some best else some interval
    | none => some interval

def OperandId.isFp (regs : RegisterFile) (f : Function) : OperandId → Bool
  | .vreg v => f.dataType v = .kDouble
  | .phyReg loc => regs.vecdRegBase ≤ loc

/-- One candidate of each class gets the register that its class has for this. -/
def assignLoopCallRegisterPreferences (regs : RegisterFile) (f : Function) (live : LiveState)
    (address : OperandId → Nat) (intervals : List LiveInterval) : List LiveInterval :=
  match regs.loopCallRegs with
  | none => intervals
  | some (gpReg, fpReg) =>
    let candidates := intervals.filter (isLoopCallCandidate f live)
    let best isFp := firstCandidate address
      (candidates.filter fun interval => interval.operand.isFp regs f = isFp)
    intervals.map fun interval =>
      if (best true).map LiveInterval.operand = some interval.operand then
        interval.allocateTo fpReg
      else if (best false).map LiveInterval.operand = some interval.operand then
        interval.allocateTo gpReg
      else interval

def scanContext (regs : RegisterFile) (f : Function) (live : LiveState) : ScanContext where
  regs := regs
  isFp := OperandId.isFp regs f
  vregPhyUses := live.vregPhyUses
  vregGlobalLastUse operand := (live.intervals operand).endLocation

/-- The operands with a nonempty interval, in the order in which the map has them. -/
structure Enumerates (live : LiveState) (operands : List OperandId) : Prop where
  nodup : operands.Nodup
  mem_iff : ∀ operand, operand ∈ operands ↔ (live.intervals operand).isEmpty = false

def initialScan (regs : RegisterFile) (f : Function) (live : LiveState)
    (address : OperandId → Nat) (reservedStackSpace : Nat) (operands : List OperandId) :
    Scan where
  intervals i :=
    (assignLoopCallRegisterPreferences regs f live address
      (operands.map live.intervals)).getD i (LiveInterval.empty (.vreg 0) 64)
  count := operands.length
  unhandled := List.range operands.length
  active := []
  inactive := []
  stackIntervals := []
  operandToSlot _ := none
  freeStackSlots := []
  maxStackSlot := -reservedStackSpace
  changedRegs := ∅

def LinearScanResult (regs : RegisterFile) (f : Function) (live : LiveState)
    (reservedStackSpace : Nat) (s : Scan) : Prop :=
  ∃ address operands, Enumerates live operands ∧
    Scan.Run (scanContext regs f live)
      (initialScan regs f live address reservedStackSpace operands) s ∧
    s.unhandled = []

end CinderX.Jit.Lir
