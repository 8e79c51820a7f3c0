import CinderX.Jit.Hir.Function

/-!
# Memory effects of instructions

`memoryEffects`: where an instruction takes its output from, which references
it takes over from its operands, and which memory it may write.
-/

namespace CinderX.Jit.Hir

/-- The disjoint locations, each of which is one bit of an `AliasClass`. -/
inductive Location where
  | arrayItem | cellItem | dictItem | funcArgs | funcAttr | global | inObjectAttr | listItem
  | other | tupleItem | typeAttrCache | typeMethodCache
  deriving DecidableEq, Repr

abbrev AliasClass := Finset Location

namespace AliasClass

def AEmpty : AliasClass := ∅

def AAny : AliasClass :=
  {.arrayItem, .cellItem, .dictItem, .funcArgs, .funcAttr, .global, .inObjectAttr, .listItem,
    .other, .tupleItem, .typeAttrCache, .typeMethodCache}

def AManagedHeapAny : AliasClass := AAny.erase .funcArgs

end AliasClass

open AliasClass

structure MemoryEffects where
  borrowsOutput : Bool
  borrowSupport : AliasClass
  /-- The positions of the operands whose reference is taken over. -/
  stolenInputs : List Nat
  mayStore : AliasClass
  deriving DecidableEq

namespace MemoryEffects

def common (mayStore : AliasClass) : MemoryEffects := ⟨false, AEmpty, [], mayStore⟩

def borrowFrom (borrowSupport : AliasClass) : MemoryEffects := ⟨true, borrowSupport, [], AEmpty⟩

end MemoryEffects

open MemoryEffects

variable {n : Nat}

def memoryEffects (freeThreaded : Bool) (instr : Instr n) : Option MemoryEffects :=
  match instr.opcode with
  | .kAssign | .kBitCast | .kBuildSlice | .kBuildString | .kBuildInterpolation | .kBuildTemplate
  | .kCast | .kCIntToCBool | .kCompactLongUnbox | .kDeopt | .kDeoptPatchpoint | .kDoubleBinaryOp
  | .kFloatCompare | .kGetSecondOutput | .kHintType | .kIndexUnbox | .kIntBinaryOp
  | .kPrimitiveConvert | .kIsCompactLong | .kIsNegativeAndErrOccurred | .kLoadEvalBreaker
  | .kLoadVarObjectSize | .kLongCompare | .kMakeCell | .kMakeCheckedDict | .kMakeDict | .kMakeSet
  | .kMakeTupleFromList | .kOSREntry | .kPrimitiveCompare | .kPrimitiveUnaryOp | .kPrimitiveUnbox
  | .kRefineType | .kSnapshot | .kTpAlloc | .kUnicodeCompare | .kUnicodeConcat | .kUnicodeRepeat
  | .kUnicodeSubscr | .kUnreachable | .kUseObj | .kUseType | .kWaitHandleLoadCoroOrResult
  | .kWaitHandleLoadWaiter => some (common AEmpty)
  | .kPrimitiveBoxBool => some (borrowFrom AEmpty)
  | .kPrimitiveBox => some (common AEmpty)
  | .kBeginInlinedFunction | .kEndInlinedFunction | .kUpdatePrevInstr | .kSetCurrentAwaiter
  | .kWaitHandleRelease | .kLoadFrame => some (common {.other})
  | .kCheckErrOccurred | .kCheckInstrumentation | .kCheckExc | .kCheckField | .kCheckFreevar
  | .kCheckNeg | .kCheckSequenceBounds | .kCheckVar | .kGuard | .kGuardType =>
    some (common AEmpty)
  | .kBinaryOp | .kCallEx | .kCallInd | .kCallIntrinsic | .kCallMethod | .kCallStatic
  | .kCallStaticRetVoid | .kCompare | .kCompareBool | .kConvertValue | .kCopyDictWithoutKeys
  | .kDeleteAttr | .kDeleteSubscr | .kDictMerge | .kDictUpdate | .kDictSubscr | .kEagerImportName
  | .kFillTypeAttrCache | .kFillTypeMethodCache | .kFloatBinaryOp | .kFormatValue
  | .kFormatWithSpec | .kGetAIter | .kGetANext | .kGetIter | .kGetLength | .kImportFrom
  | .kImportName | .kInPlaceOp | .kInitFrameCellVars | .kInvokeIterNext | .kInvokeStaticFunction
  | .kIsInstance | .kIsTruthy | .kLoadAttr | .kLoadAttrCached | .kLoadAttrSpecial
  | .kLoadAttrSuper | .kLoadGlobal | .kLoadMethod | .kLoadMethodCached | .kLoadMethodSuper
  | .kLoadModuleAttrCached | .kLoadModuleMethodCached | .kLoadSpecial | .kLongBinaryOp
  | .kLongInPlaceOp | .kMatchClass | .kMatchKeys | .kSend | .kUnaryOp | .kUnpackExToTuple
  | .kReserveStack | .kUnpackSequence | .kVectorCall => some (common AManagedHeapAny)
  | .kSetCellItem => some ⟨true, AEmpty, [1], {.cellItem}⟩
  | .kSwapCellItem => some ⟨false, AEmpty, [1], {.cellItem}⟩
  | .kStealCellItem => some (common AEmpty)
  | .kMergeSetUnpack | .kRunPeriodicTasks | .kSetDictItem | .kSetSetItem | .kSetUpdate
  | .kStoreAttr | .kStoreAttrCached | .kStoreSubscr => some ⟨true, AEmpty, [], AManagedHeapAny⟩
  | .kAtQuiescentState => some ⟨false, AEmpty, [], AManagedHeapAny⟩
  | .kListAppend | .kListExtend => some ⟨true, AEmpty, [], {.listItem}⟩
  | .kIncref | .kXIncref => some ⟨false, AEmpty, [], {.other}⟩
  | .kBatchDecref => some ⟨false, AEmpty, [0], AManagedHeapAny⟩
  | .kDecref | .kXDecref =>
    if instr.destructorKnown then some ⟨false, AEmpty, [], {.other}⟩
    else some ⟨false, AEmpty, [0], AManagedHeapAny⟩
  | .kMakeFunction => some (common {.other})
  | .kMakeCheckedList | .kMakeList | .kMakeTuple => some (common AEmpty)
  | .kInitListElements =>
    some ⟨false, AEmpty, (List.range instr.operands.length).tail, {.listItem}⟩
  | .kInitTupleElements =>
    some ⟨false, AEmpty, (List.range instr.operands.length).tail, {.tupleItem}⟩
  | .kStoreField => some ⟨false, AEmpty, [1], {.inObjectAttr}⟩
  | .kLoadArg | .kLoadCurrentFunc => some (borrowFrom {.funcArgs})
  | .kGuardIs | .kLoadConst => some (borrowFrom AEmpty)
  | .kLoadCellItem =>
    if freeThreaded then some (common AEmpty) else some (borrowFrom {.cellItem})
  | .kLoadField =>
    if instr.borrowed then some (borrowFrom {.inObjectAttr}) else some (common AEmpty)
  | .kLoadFieldAddress => some (common AEmpty)
  | .kLoadFunctionIndirect | .kLoadGlobalCached => some (borrowFrom {.global})
  | .kLoadTupleItem => some (borrowFrom {.tupleItem})
  | .kLoadArrayItem =>
    if instr.borrowed then some (borrowFrom {.arrayItem, .listItem})
    else some (common {.arrayItem})
  | .kStoreArrayItem => some ⟨false, AEmpty, [2], {.arrayItem, .listItem}⟩
  | .kLoadSplitDictItem => some (borrowFrom {.dictItem})
  | .kLoadTypeAttrCacheEntryType | .kLoadTypeAttrCacheEntryValue =>
    some (borrowFrom {.typeAttrCache})
  | .kLoadTypeMethodCacheEntryValue => some (common AEmpty)
  | .kLoadTypeMethodCacheEntryType => some (borrowFrom {.typeMethodCache})
  | .kReturn => some ⟨false, AEmpty, [0], AManagedHeapAny⟩
  | .kSetFunctionAttr => some ⟨false, AEmpty, [0], {.funcAttr}⟩
  | .kRaise => some ⟨false, AEmpty, List.range instr.operands.length, AEmpty⟩
  | .kRaiseAwaitableError | .kRaiseStatic => some (common AManagedHeapAny)
  | .kInitialYield => some ⟨true, {.funcArgs}, [], AAny⟩
  | .kYieldValue => some ⟨true, {.funcArgs}, [0], AAny⟩
  | .kCallCFunc => some (common AManagedHeapAny)
  | .kEnsureTreeIterState | .kSaveCurrentNode | .kStateStackPush | .kCheckTreeIterChildEntry
  | .kTreeIterEnterChild | .kTreeIterLeaveCurrentNode | .kClearTreeIterState =>
    some (common AManagedHeapAny)
  | .kLoadCurrentNode | .kStateStackPop => some (common {.other})
  | .kSavePhase => some (common {.other})
  | .kLoadPhase | .kLoadPoppedPhase | .kLoadStackTop => some (common AEmpty)
  | .kBranch | .kCondBranch | .kCondBranchCheckType | .kCondBranchIterNotDone | .kPhi => none
  | .kGetTuple => some (common AAny)

inductive CFunc where
  | kCix_PyAsyncGenValueWrapperNew | kJitCoro_GetAwaitableIter | kJitGen_yf
  deriving DecidableEq

/-- The instruction may call arbitrary code; `func` is that of a `CallCFunc`. -/
def Opcode.hasArbitraryExecution (func : CFunc) : Opcode → Bool
  | .kBatchDecref | .kBinaryOp | .kCallEx | .kCallInd | .kCallIntrinsic | .kCallMethod
  | .kCallStatic | .kCallStaticRetVoid | .kCompare | .kCompareBool | .kConvertValue
  | .kCopyDictWithoutKeys | .kDecref | .kDeleteAttr | .kDeleteSubscr | .kDictMerge | .kDictSubscr
  | .kDictUpdate | .kEagerImportName | .kFillTypeAttrCache | .kFillTypeMethodCache
  | .kFloatBinaryOp | .kFormatValue | .kFormatWithSpec | .kGetAIter | .kGetANext | .kGetIter
  | .kGetLength | .kGetTuple | .kImportFrom | .kImportName | .kInitialYield | .kInPlaceOp
  | .kInvokeIterNext | .kInvokeStaticFunction | .kIsInstance | .kIsTruthy | .kLoadAttr
  | .kLoadAttrCached | .kLoadAttrSpecial | .kLoadAttrSuper | .kLoadGlobal | .kLoadMethod
  | .kLoadMethodCached | .kLoadMethodSuper | .kLoadModuleAttrCached | .kLoadModuleMethodCached
  | .kLoadSpecial | .kLongBinaryOp | .kLongInPlaceOp | .kMakeFunction | .kMergeSetUnpack
  | .kMatchClass | .kMatchKeys | .kRunPeriodicTasks | .kSend | .kSetCurrentAwaiter
  | .kSetDictItem | .kSetSetItem | .kSetUpdate | .kStoreAttr | .kStoreAttrCached
  | .kStoreSubscr | .kUnaryOp | .kUnpackExToTuple | .kUnpackSequence | .kVectorCall | .kXDecref
  | .kYieldValue | .kEnsureTreeIterState | .kSaveCurrentNode | .kLoadCurrentNode | .kSavePhase
  | .kStateStackPush | .kStateStackPop | .kCheckTreeIterChildEntry | .kTreeIterEnterChild
  | .kTreeIterLeaveCurrentNode | .kClearTreeIterState => true
  | .kCallCFunc => func = .kJitCoro_GetAwaitableIter
  | _ => false

theorem AliasClass.aManagedHeapAny_ne : AManagedHeapAny ≠ AEmpty := by decide

theorem AliasClass.aAny_ne : AAny ≠ AEmpty := by decide

/-- The two tables agree: what writes no memory runs no arbitrary code. -/
theorem hasArbitraryExecution_eq_false {freeThreaded : Bool} {instr : Instr n}
    {effects : MemoryEffects} (h : memoryEffects freeThreaded instr = some effects)
    (hempty : effects.mayStore = AEmpty) (func : CFunc) :
    instr.opcode.hasArbitraryExecution func = false := by
  by_contra harbitrary
  have hmanaged := AliasClass.aManagedHeapAny_ne
  have hany := AliasClass.aAny_ne
  unfold memoryEffects at h
  cases hopcode : instr.opcode <;>
    simp only [hopcode, Opcode.hasArbitraryExecution, not_true_eq_false] at harbitrary <;>
    simp only [hopcode, Option.some.injEq] at h
  case kDecref | kXDecref =>
    split at h <;> (cases h; simp_all [AEmpty])
  all_goals
    subst h
    simp_all [common, AEmpty]

end CinderX.Jit.Hir
