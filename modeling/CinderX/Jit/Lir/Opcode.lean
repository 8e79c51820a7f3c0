import CinderX.Foundation.Basic

/-!
# LIR opcodes

The opcodes of LIR instructions, and the rows of the instruction table that
register allocation reads.
-/

namespace CinderX.Jit.Lir

inductive Opcode where
  | kBind | kNop | kUnreachable | kCall | kLoadAttrCachedFastPath
  | kLoadMethodCachedFastPath | kStoreAttrCachedFastPath
  | kBinaryOpExactLongAddSubFastPath | kVectorCall | kVectorCallTstate | kVarArgCall
  | kGuard | kDeoptPatchpoint | kOSREntry | kSext | kZext | kNegate | kInvert | kAdd
  | kSub | kAnd | kXor | kDiv | kDivUn | kMul | kMulAdd | kMulSub | kOr | kFadd | kFsub
  | kFmul | kFdiv | kInt64ToDouble | kLShift | kRShift | kRShiftUn | kTest | kTest32
  | kEqual | kNotEqual | kGreaterThanSigned | kLessThanSigned | kGreaterThanEqualSigned
  | kLessThanEqualSigned | kGreaterThanUnsigned | kLessThanUnsigned
  | kGreaterThanEqualUnsigned | kLessThanEqualUnsigned | kCmp | kLea | kReserveStack
  | kLoadArg | kLoadSecondCallResult | kExchange | kMove | kMoveRelaxed | kMovConstPool
  | kPush | kPop | kCdq | kCwd | kCqo | kBranch | kBranchNZ | kBranchZ | kBranchA
  | kBranchB | kBranchAE | kBranchBE | kBranchG | kBranchL | kBranchGE | kBranchLE
  | kBranchC | kBranchNC | kBranchO | kBranchNO | kBranchS | kBranchNS | kBranchE
  | kBranchNE | kBranchBitSet | kBranchBitNotSet | kInc | kDec | kCondBranch | kSelect
  | kPhi | kReturn | kMovZX | kMovSX | kMovSXD | kIntToBool | kLoadThreadState
  | kYieldInitial | kStoreGenYieldPoint | kStoreGenYieldFromPoint | kBranchToYieldExit
  | kResumeGenYield | kEpilogueEnd | kPrologue | kSetupFrame | kVariadicPush | kStorePair
  | kLoadPair | kLeave | kRet | kEnsureTreeIterState | kSaveCurrentNode
  | kLoadCurrentNode | kSavePhase | kLoadPhase | kStateStackPush | kStateStackPop
  | kLoadPoppedPhase | kLoadStackTop | kCheckTreeIterChildEntry | kTreeIterEnterChild
  | kTreeIterLeaveCurrentNode | kClearTreeIterState | kCmpBranchZero | kCmpBranchNonZero
  | kA64SubSetFlags | kA64GuardCC
  deriving DecidableEq, Repr

namespace Opcode

/-- The inputs are read until the end of the instruction, not only at its beginning. -/
def inputsLiveAcross : Opcode → Bool
  | .kSub | .kFsub | .kFdiv | .kSelect | .kA64SubSetFlags => true
  | _ => false

def outputPhyUse : Opcode → Bool
  | .kUnreachable | .kDeoptPatchpoint | .kOSREntry | .kTest | .kTest32
  | .kLoadSecondCallResult | .kPop | .kBranchBitSet | .kBranchBitNotSet | .kCondBranch
  | .kLoadThreadState | .kYieldInitial | .kStoreGenYieldPoint
  | .kStoreGenYieldFromPoint | .kBranchToYieldExit | .kResumeGenYield | .kEpilogueEnd
  | .kPrologue | .kSetupFrame | .kVariadicPush | .kStorePair | .kLoadPair | .kLeave
  | .kRet | .kSaveCurrentNode | .kSavePhase | .kTreeIterEnterChild
  | .kTreeIterLeaveCurrentNode | .kClearTreeIterState | .kCmpBranchZero
  | .kCmpBranchNonZero | .kA64GuardCC => false
  | _ => true

/-- The inputs that must be in physical registers; those past the list need not be. -/
def inputPhyUses : Opcode → List Bool
  | .kVectorCall | .kVectorCallTstate | .kVarArgCall | .kAdd | .kAnd | .kXor | .kDiv
  | .kDivUn | .kMul | .kOr | .kInt64ToDouble | .kLShift | .kRShift | .kRShiftUn
  | .kBranchBitSet | .kBranchBitNotSet | .kCondBranch | .kIntToBool | .kSaveCurrentNode
  | .kSavePhase | .kCheckTreeIterChildEntry | .kTreeIterEnterChild | .kCmpBranchZero
  | .kCmpBranchNonZero => [true]
  | .kGuard => [false, false, true, true]
  | .kDeoptPatchpoint | .kSub | .kFadd | .kFsub | .kFmul | .kFdiv | .kTest | .kTest32
  | .kEqual | .kNotEqual | .kGreaterThanSigned | .kLessThanSigned
  | .kGreaterThanEqualSigned | .kLessThanEqualSigned | .kGreaterThanUnsigned
  | .kLessThanUnsigned | .kGreaterThanEqualUnsigned | .kLessThanEqualUnsigned | .kCmp
  | .kLea | .kExchange | .kStateStackPush | .kA64SubSetFlags => [true, true]
  | .kMulAdd | .kMulSub | .kSelect => [true, true, true]
  | .kStorePair | .kLoadPair => [false, true, true, true]
  | _ => []

def isAnyYield : Opcode → Bool
  | .kYieldInitial | .kStoreGenYieldPoint | .kStoreGenYieldFromPoint => true
  | _ => false

def isCallLike : Opcode → Bool
  | .kCall | .kLoadAttrCachedFastPath | .kLoadMethodCachedFastPath
  | .kStoreAttrCachedFastPath | .kBinaryOpExactLongAddSubFastPath | .kVarArgCall
  | .kVectorCall | .kVectorCallTstate => true
  | _ => false

def isTreeIterHelperCall : Opcode → Bool
  | .kEnsureTreeIterState | .kSaveCurrentNode | .kLoadCurrentNode | .kSavePhase
  | .kLoadPhase | .kStateStackPush | .kStateStackPop | .kLoadPoppedPhase
  | .kLoadStackTop | .kCheckTreeIterChildEntry | .kTreeIterEnterChild
  | .kTreeIterLeaveCurrentNode | .kClearTreeIterState => true
  | _ => false

end Opcode

end CinderX.Jit.Lir
