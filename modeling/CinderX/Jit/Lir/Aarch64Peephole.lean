import CinderX.Jit.Lir.Aarch64Machine

/-!
# The AArch64 peephole

The rewrites that `registerAArch64PeepholeRewrites` adds to the last stage of the
rewrites after register allocation, and the stage itself.  A rewrite is called at an
instruction and sees the instructions behind it in its block.
-/

namespace CinderX.Jit.Lir.Aarch64

def kPointerSize : Int := 8

/-- The instruction is kept when the code behind it is changed. -/
inductive Rewritten where
  | kUnchanged
  | kChanged (rest : List Instruction)
  | kRemoved (rest : List Instruction)
  deriving DecidableEq

def Rewritten.orElse : Rewritten → Rewritten → Rewritten
  | .kUnchanged, second => second
  | first, _ => first

def supportsZeroRegisterStore (type : DataType) : Bool := type ≠ .kDouble

def operandUsesRegister (operand : Option RegOperand) (loc : Nat) : Bool :=
  match operand with
  | some operand => operand.loc = loc
  | none => false

def indirectAddressUsesRegister (indirect : MemoryIndirect) (loc : Nat) : Bool :=
  operandUsesRegister indirect.base loc || operandUsesRegister indirect.index loc

def isSubWordZeroStoreShape (materializationType storedValueType storeType : DataType) :
    Bool :=
  materializationType = .k32bit ∧ (storeType = .k8bit ∨ storeType = .k16bit) ∧
    storedValueType = storeType

def zeroMaterialization : Instruction → Option RegOperand
  | ⟨.kMove, .reg out, [.imm constant type linked]⟩ =>
    if linked = false ∧ type ≠ .kDouble ∧ constant = 0 then some out else none
  | _ => none

def zeroStore (out : RegOperand) : Instruction → Option Instruction
  | ⟨.kMove, .ind indirect storeType, [.reg stored]⟩ =>
    if stored.linked = true ∨ stored.dataType = .kDouble ∨ stored.lastUse = false ∨
        stored.loc ≠ out.loc then none
    else
      let exactWidth := bitSize out.dataType = bitSize storeType ∧
        bitSize stored.dataType = bitSize storeType
      let subwordZeroStore :=
        isSubWordZeroStoreShape out.dataType stored.dataType storeType = true
      if (¬ exactWidth ∧ ¬ subwordZeroStore) ∨
          indirectAddressUsesRegister indirect out.loc = true then none
      else if supportsZeroRegisterStore storeType = true then
        some ⟨.kMove, .ind indirect storeType, [.imm 0 storeType false]⟩
      else none
  | _ => none

def rewriteZeroMaterializationStore (materialize : Instruction) :
    List Instruction → Rewritten
  | store :: rest =>
    match (zeroMaterialization materialize).bind (zeroStore · store) with
    | some store' => .kRemoved (store' :: rest)
    | none => .kUnchanged
  | [] => .kUnchanged

def isPointerWidth (type : DataType) : Bool := type = .k64bit ∨ type = .kObject

structure PairableLoad where
  base : RegOperand
  destination : RegOperand
  offset : BitVec 32

def isValidLoadPairBase (base : RegOperand) : Bool :=
  base.linked = false ∧ isPointerWidth base.dataType = true ∧
    (base.loc = SP ∨ isGpRegister base.loc = true ∧ base.loc ≠ XZR)

def getPairableLoad : Instruction → Option PairableLoad
  | ⟨.kMove, .reg out, [.ind ⟨some base, none, _, offset⟩ type]⟩ =>
    if isPointerWidth out.dataType = true ∧
        (isGpRegister out.loc = true ∧ out.loc ≠ X29 ∧ out.loc ≠ XZR) ∧
        isPointerWidth type = true ∧ isValidLoadPairBase base = true then
      some ⟨base, out, offset⟩
    else none
  | _ => none

/-- Two neighbouring slots, whose offset is a multiple of `alignment` and fits a pair. -/
def adjacentOffsets (alignment : Int) (lower upper : BitVec 32) : Bool :=
  upper.toInt - lower.toInt = kPointerSize ∧ lower.toInt % alignment = 0 ∧
    -64 * kPointerSize ≤ lower.toInt ∧ lower.toInt ≤ 63 * kPointerSize

def canPairLoads (first second : Instruction) : Option (PairableLoad × PairableLoad) :=
  (getPairableLoad first).bind fun firstLoad =>
    (getPairableLoad second).bind fun secondLoad =>
      if firstLoad.base.loc = secondLoad.base.loc ∧
          adjacentOffsets kPointerSize firstLoad.offset secondLoad.offset = true ∧
          firstLoad.destination.loc ≠ secondLoad.destination.loc ∧
          firstLoad.destination.loc ≠ firstLoad.base.loc ∧
          secondLoad.destination.loc ≠ firstLoad.base.loc then
        some (firstLoad, secondLoad)
      else none

def RegOperand.allocate (operand : RegOperand) : RegOperand :=
  { operand with linked := false, lastUse := false }

def pairInputs (offset : BitVec 32) (base lower upper : RegOperand) : List Operand :=
  [.imm (offset.signExtend 64) .k64bit false, .reg base.allocate, .reg lower.allocate,
    .reg upper.allocate]

def rewriteAdjacentLoadsToLoadPair (first : Instruction) : List Instruction → Rewritten
  | second :: rest =>
    match canPairLoads first second with
    | some (firstLoad, secondLoad) =>
      .kRemoved (⟨.kLoadPair, .none, pairInputs firstLoad.offset firstLoad.base
        firstLoad.destination secondLoad.destination⟩ :: rest)
    | none => .kUnchanged
  | [] => .kUnchanged

structure PairableStore where
  base : RegOperand
  value : RegOperand
  offset : BitVec 32

def getPairableStore : Instruction → Option PairableStore
  | ⟨.kMove, .ind ⟨some base, none, _, offset⟩ type, [.reg value]⟩ =>
    if isPointerWidth type = true ∧
        (value.linked = false ∧ value.dataType ≠ .kDouble ∧
          isPointerWidth value.dataType = true) ∧
        base.linked = false ∧ base.dataType = .kObject then
      some ⟨base, value, offset⟩
    else none
  | _ => none

def canPairStores (first second : Instruction) : Option (PairableStore × PairableStore) :=
  (getPairableStore first).bind fun firstStore =>
    (getPairableStore second).bind fun secondStore =>
      if firstStore.base.loc = secondStore.base.loc ∧
          adjacentOffsets (2 * kPointerSize) firstStore.offset secondStore.offset = true ∧
          firstStore.value.loc ≠ SP ∧ secondStore.value.loc ≠ SP ∧
          firstStore.value.loc ≠ firstStore.base.loc ∧
          secondStore.value.loc ≠ firstStore.base.loc then
        some (firstStore, secondStore)
      else none

def rewriteAdjacentStoresToStorePair (first : Instruction) : List Instruction → Rewritten
  | second :: rest =>
    match canPairStores first second with
    | some (firstStore, secondStore) =>
      .kRemoved (⟨.kStorePair, .none, pairInputs firstStore.offset firstStore.base
        firstStore.value secondStore.value⟩ :: rest)
    | none => .kUnchanged
  | [] => .kUnchanged

/-- The register that both instructions set to one constant of pointer width. -/
def sameNonZeroImmediateMaterialization : Instruction → Instruction → Option RegOperand
  | ⟨.kMove, .reg first, [.imm firstValue firstType firstLinked]⟩,
    ⟨.kMove, .reg second, [.imm secondValue secondType secondLinked]⟩ =>
      if (firstLinked = false ∧ secondLinked = false) ∧
          (firstType ≠ .kDouble ∧ secondType ≠ .kDouble) ∧
          (firstValue ≠ 0 ∧ firstValue = secondValue) ∧
          (firstType = secondType ∧ firstType = first.dataType) ∧
          isPointerWidth first.dataType = true ∧
          first.dataType = second.dataType ∧ first.loc = second.loc then
        some first
      else none
  | _, _ => none

def rewriteConstantFillForStorePair (firstMaterialization : Instruction) :
    List Instruction → Rewritten
  | firstStore :: secondMaterialization :: secondStore :: rest =>
    match sameNonZeroImmediateMaterialization firstMaterialization secondMaterialization,
      canPairStores firstStore secondStore with
    | some out, some (first, second) =>
      if first.value.loc = out.loc ∧ second.value.loc = out.loc then
        .kChanged (firstStore :: secondStore :: rest)
      else .kUnchanged
    | _, _ => .kUnchanged
  | _ => .kUnchanged

def rewriteAArch64Peepholes (instr : Instruction) (rest : List Instruction) : Rewritten :=
  match instr.opcode, instr.output with
  | .kMove, .reg _ =>
    (rewriteAdjacentLoadsToLoadPair instr rest).orElse
      ((rewriteZeroMaterializationStore instr rest).orElse
        (rewriteConstantFillForStorePair instr rest))
  | .kMove, .ind .. => rewriteAdjacentStoresToStorePair instr rest
  | _, _ => .kUnchanged

/--
`runOneTypeRewrites` at one instruction: whether something changed, the instruction
unless it was removed, and the instructions behind it.
-/
def runOneTypeRewrites : Nat → Instruction → List Instruction →
    Option (Bool × List Instruction × List Instruction)
  | 0, _, _ => none
  | fuel + 1, instr, rest =>
    match rewriteAArch64Peepholes instr rest with
    | .kUnchanged => some (false, [instr], rest)
    | .kChanged rest => (runOneTypeRewrites fuel instr rest).map fun result => (true, result.2)
    | .kRemoved rest => some (true, [], rest)

/-- The walk of `runOneStage` over the instructions of a block. -/
def rewriteInstructions : Nat → List Instruction → Option (Bool × List Instruction)
  | _, [] => some (false, [])
  | 0, _ :: _ => none
  | fuel + 1, instr :: rest =>
    match runOneTypeRewrites (fuel + 1) instr rest with
    | some (changed, kept, rest) =>
      (rewriteInstructions fuel rest).map fun result =>
        (changed || result.1, kept ++ result.2)
    | none => none

structure BasicBlock where
  id : Nat
  instructions : List Instruction
  deriving DecidableEq

def rewriteBlocks (fuel : Nat) : List BasicBlock → Option (Bool × List BasicBlock)
  | [] => some (false, [])
  | block :: blocks =>
    match rewriteInstructions fuel block.instructions, rewriteBlocks fuel blocks with
    | some (changed, instructions), some (changed', blocks) =>
      some (changed || changed', { block with instructions } :: blocks)
    | _, _ => none

/-- `Rewrite::runOneStage`: walks over the blocks until nothing changes. -/
def runOneStage : Nat → List BasicBlock → Option (List BasicBlock)
  | 0, _ => none
  | fuel + 1, blocks =>
    match rewriteBlocks (fuel + 1) blocks with
    | some (true, blocks) => runOneStage fuel blocks
    | some (false, blocks) => some blocks
    | none => none

end CinderX.Jit.Lir.Aarch64
