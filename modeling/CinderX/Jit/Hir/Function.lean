import CinderX.Foundation.Basic

/-!
# HIR functions

Registers are numbered: a function with `n` registers uses those below `n`.
Instructions keep what the passes ask about them, and of types only the answers
to the questions that reference counting asks.
-/

namespace CinderX.Jit.Hir

inductive Opcode where
  | kAssign | kBatchDecref | kBeginInlinedFunction | kBinaryOp | kBitCast | kBranch
  | kBuildSlice | kBuildString | kBuildInterpolation | kBuildTemplate | kCallCFunc | kCallEx
  | kCallIntrinsic | kCallInd | kCallMethod | kCallStatic | kCallStaticRetVoid | kCast
  | kCheckSequenceBounds | kCheckErrOccurred | kCheckExc | kCheckNeg | kCheckVar
  | kCheckFreevar | kCheckField | kCheckInstrumentation | kCheckTreeIterChildEntry
  | kCIntToCBool | kClearTreeIterState | kCompactLongUnbox | kCompare | kCompareBool
  | kConvertValue | kCopyDictWithoutKeys | kCondBranch | kCondBranchIterNotDone
  | kCondBranchCheckType | kDecref | kDeleteAttr | kDeleteSubscr | kDeopt | kDeoptPatchpoint
  | kDictMerge | kDictSubscr | kDictUpdate | kDoubleBinaryOp | kEagerImportName
  | kEndInlinedFunction | kEnsureTreeIterState | kFillTypeAttrCache | kFillTypeMethodCache
  | kFloatBinaryOp | kFloatCompare | kFormatValue | kFormatWithSpec | kGetAIter | kGetANext
  | kGetIter | kGetLength | kGetSecondOutput | kGetTuple | kGuard | kGuardIs | kGuardType
  | kHintType | kImportFrom | kImportName | kInitFrameCellVars | kInitListElements
  | kInitTupleElements | kInPlaceOp | kIncref | kIndexUnbox | kInitialYield | kIntBinaryOp
  | kPrimitiveBoxBool | kPrimitiveBox | kPrimitiveCompare | kPrimitiveConvert
  | kPrimitiveUnaryOp | kPrimitiveUnbox | kInvokeIterNext | kIsCompactLong | kIsInstance
  | kInvokeStaticFunction | kIsNegativeAndErrOccurred | kIsTruthy | kListAppend | kListExtend
  | kLoadArrayItem | kLoadFieldAddress | kLoadArg | kLoadAttr | kLoadAttrCached
  | kLoadAttrSpecial | kLoadAttrSuper | kLoadCellItem | kLoadConst | kLoadCurrentFunc
  | kLoadCurrentNode | kLoadFrame | kLoadEvalBreaker | kAtQuiescentState | kLoadField
  | kLoadFunctionIndirect | kLoadGlobalCached | kLoadGlobal | kLoadMethod | kLoadMethodCached
  | kLoadModuleAttrCached | kLoadModuleMethodCached | kLoadMethodSuper | kLoadPhase
  | kLoadPoppedPhase | kLoadSpecial | kLoadSplitDictItem | kLoadStackTop | kLoadTupleItem
  | kLoadTypeAttrCacheEntryType | kLoadTypeAttrCacheEntryValue | kLoadTypeMethodCacheEntryType
  | kLoadTypeMethodCacheEntryValue | kLoadVarObjectSize | kLongCompare | kLongBinaryOp
  | kLongInPlaceOp | kMakeCheckedDict | kMakeCheckedList | kMakeCell | kMakeDict
  | kMakeFunction | kMakeList | kMakeTuple | kMakeSet | kMakeTupleFromList | kMatchClass
  | kMatchKeys | kMergeSetUnpack | kOSREntry | kPhi | kRaise | kRaiseStatic
  | kRaiseAwaitableError | kRefineType | kReturn | kRunPeriodicTasks | kSaveCurrentNode
  | kSavePhase | kSend | kSetCellItem | kSetCurrentAwaiter | kSetDictItem | kSetFunctionAttr
  | kSetSetItem | kSetUpdate | kSnapshot | kStateStackPop | kStateStackPush | kStealCellItem
  | kSwapCellItem | kStoreArrayItem | kStoreAttr | kStoreAttrCached | kStoreField
  | kStoreSubscr | kTpAlloc | kTreeIterEnterChild | kTreeIterLeaveCurrentNode | kUnaryOp
  | kUnicodeCompare | kUnicodeConcat | kUnicodeRepeat | kUnicodeSubscr | kUnpackExToTuple
  | kReserveStack | kUnpackSequence | kUnreachable | kUpdatePrevInstr | kUseObj | kUseType
  | kVectorCall | kWaitHandleLoadCoroOrResult | kWaitHandleLoadWaiter | kWaitHandleRelease
  | kXDecref | kXIncref | kYieldValue
  deriving DecidableEq, Repr

namespace Opcode

def isTerminator : Opcode → Bool
  | kBranch | kDeopt | kCondBranch | kCondBranchIterNotDone | kCondBranchCheckType | kRaise
  | kRaiseAwaitableError | kRaiseStatic | kReturn | kUnreachable => true
  | _ => false

def numEdges : Opcode → Nat
  | kBranch => 1
  | kCondBranch | kCondBranchIterNotDone | kCondBranchCheckType => 2
  | _ => 0

def isReplayable : Opcode → Bool
  | kAssign | kAtQuiescentState | kBitCast | kBuildString | kCast | kCheckErrOccurred
  | kCheckInstrumentation | kCheckExc | kCheckField | kCheckFreevar | kCheckNeg
  | kCheckSequenceBounds | kCheckVar | kCIntToCBool | kCompactLongUnbox | kDoubleBinaryOp
  | kFloatCompare | kFormatValue | kFormatWithSpec | kGetSecondOutput | kGuard | kGuardIs
  | kGuardType | kHintType | kIndexUnbox | kIntBinaryOp | kPrimitiveConvert | kIsCompactLong
  | kIsNegativeAndErrOccurred | kLoadArg | kLoadArrayItem | kLoadCellItem | kLoadConst
  | kLoadCurrentFunc | kLoadFrame | kLoadEvalBreaker | kLoadField | kLoadFieldAddress
  | kLoadFunctionIndirect | kLoadGlobalCached | kLoadSplitDictItem | kLoadTupleItem
  | kLoadTypeAttrCacheEntryType | kLoadTypeAttrCacheEntryValue | kLoadTypeMethodCacheEntryType
  | kLoadTypeMethodCacheEntryValue | kLoadVarObjectSize | kLongCompare | kPrimitiveBox
  | kPrimitiveBoxBool | kPrimitiveCompare | kPrimitiveUnaryOp | kPrimitiveUnbox | kRaise
  | kRaiseStatic | kRefineType | kStealCellItem | kUpdatePrevInstr | kUnicodeCompare
  | kUnicodeConcat | kUnicodeSubscr | kUseObj | kUseType | kWaitHandleLoadCoroOrResult
  | kWaitHandleLoadWaiter => true
  | _ => false

end Opcode

abbrev Register (n : Nat) := Fin n

abbrev BlockId := Nat

/-- What a `FrameState` says about one activation. -/
structure Frame (n : Nat) where
  localsplus : List (Option (Register n))
  stack : List (Register n)
  curInstrOffs : Int := -2
  deriving DecidableEq

abbrev FrameState (n : Nat) := List (Frame n)

/-- What `asDeoptBase()` gives access to. -/
structure DeoptInfo (n : Nat) where
  frameState : FrameState n
  guiltyReg : Option (Register n)
  deriving DecidableEq

structure Instr (n : Nat) where
  opcode : Opcode
  /-- What else the instruction was created with (a constant, an operator, a name), by number. -/
  immediate : Nat := 0
  output : Option (Register n) := none
  operands : List (Register n) := []
  /-- The targets of the edges, `true_bb` before `false_bb`. -/
  successors : List BlockId := []
  /-- `basic_blocks()` of a phi, one for each operand. -/
  basicBlocks : List BlockId := []
  deopt : Option (DeoptInfo n) := none
  /-- `frameState()` of a `Snapshot`. -/
  snapshotState : FrameState n := []
  yieldFromIter : Option (Register n) := none
  /-- `pytype() == &PyFloat_Type` of a `Cast`. -/
  castsToFloat : Bool := false
  /-- `borrowed()` of a `LoadField` or `LoadArrayItem`. -/
  borrowed : Bool := false
  /-- `type() == TWaitHandle` of a `CondBranchCheckType`. -/
  checksWaitHandle : Bool := false
  /-- Whether the type of the operand of a `Decref` has a known destructor. -/
  destructorKnown : Bool := false
  deriving DecidableEq

variable {n : Nat}

instance lawfulBEqInstr : LawfulBEq (Instr n) := instLawfulBEq

namespace Frame

def uses (frame : Frame n) : List (Register n) := frame.stack ++ frame.localsplus.filterMap id

end Frame

namespace Instr

def isPhi (instr : Instr n) : Bool := instr.opcode = .kPhi

def numEdges (instr : Instr n) : Nat := instr.successors.length

def isPassthrough (instr : Instr n) : Bool :=
  match instr.opcode with
  | .kAssign | .kBitCast | .kCheckErrOccurred | .kCheckInstrumentation | .kCheckExc
  | .kCheckField | .kCheckFreevar | .kCheckNeg | .kCheckVar | .kGuardIs | .kGuardType
  | .kRefineType | .kUseObj | .kUseType => true
  | .kCast => !instr.castsToFloat
  | _ => false

/-- A passthrough that keeps the reference of its operand, which `GuardIs` does not. -/
def copies (instr : Instr n) : Bool := instr.isPassthrough && instr.opcode ≠ .kGuardIs

def visitUses (instr : Instr n) : List (Register n) :=
  let deopt :=
    match instr.deopt with
    | some info => info.frameState.flatMap Frame.uses ++ info.guiltyReg.toList
    | none => []
  instr.operands ++ deopt ++ instr.snapshotState.flatMap Frame.uses ++ instr.yieldFromIter.toList

def phiOperand? (instr : Instr n) (pred : BlockId) : Option (Register n) :=
  ((instr.basicBlocks.zip instr.operands).find? fun pair => pair.1 = pred).map Prod.snd

end Instr

structure BasicBlock (n : Nat) where
  id : BlockId
  instrs : List (Instr n)
  deriving DecidableEq

namespace BasicBlock

def phis (block : BasicBlock n) : List (Instr n) := block.instrs.takeWhile Instr.isPhi

def terminator? (block : BasicBlock n) : Option (Instr n) := block.instrs.getLast?

def outEdges (block : BasicBlock n) : List BlockId := block.instrs.flatMap Instr.successors

def outputs (block : BasicBlock n) : List (Register n) := block.instrs.filterMap Instr.output

def definesPhi (block : BasicBlock n) (reg : Register n) : Bool :=
  block.phis.any fun phi => phi.output = some reg

end BasicBlock

structure Function (n : Nat) where
  blocks : List (BasicBlock n)
  entryBlock : BlockId
  nodupIds : (blocks.map BasicBlock.id).Nodup
  /-- `type().couldBe(TMortalObject)`. -/
  couldBeMortal : Register n → Bool
  /-- `type() <= TObject`. -/
  isObject : Register n → Bool
  /-- `type().couldBe(TCPtr)`. -/
  couldBeCPtr : Register n → Bool

namespace Function

/-- A function that starts with block 0 and whose values are objects, mortal ones maybe. -/
def ofObjects (blocks : List (BasicBlock n)) (nodupIds : (blocks.map BasicBlock.id).Nodup) :
    Function n where
  blocks
  entryBlock := 0
  nodupIds
  couldBeMortal _ := true
  isObject _ := true
  couldBeCPtr _ := false

def block? (f : Function n) (id : BlockId) : Option (BasicBlock n) :=
  f.blocks.find? fun block => block.id = id

def inEdges (f : Function n) (id : BlockId) : List BlockId :=
  f.blocks.flatMap fun block => (block.outEdges.filter fun succ => succ = id).map fun _ => block.id

def phis (f : Function n) : List (Instr n) := f.blocks.flatMap BasicBlock.phis

def instr? (f : Function n) (reg : Register n) : Option (Instr n) :=
  (f.blocks.flatMap BasicBlock.instrs).find? fun instr => instr.output = some reg

def copiedFrom? (f : Function n) (reg : Register n) : Option (Register n) :=
  match f.instr? reg with
  | some instr => if instr.copies then instr.operands.head? else none
  | none => none

def modelRegIn (f : Function n) : Nat → Register n → Register n
  | 0, reg => reg
  | fuel + 1, reg =>
    match f.copiedFrom? reg with
    | some source => f.modelRegIn fuel source
    | none => reg

def modelReg (f : Function n) (reg : Register n) : Register n := f.modelRegIn n reg

def isUncounted (f : Function n) (reg : Register n) : Bool := !f.couldBeMortal reg

end Function

end CinderX.Jit.Hir
