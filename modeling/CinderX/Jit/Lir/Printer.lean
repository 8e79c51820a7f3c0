import CinderX.Jit.Lir.DataType
import CinderX.Jit.Lir.Opcode
import CinderX.Foundation.Numerals

/-!
# The text of LIR functions

`Printer` writes a function with one instruction a line.  Texts are lists of
characters.
-/

namespace CinderX.Jit.Lir.Text

open CinderX.Foundation

inductive CodeSection where
  | kHot
  | kCold
  deriving DecidableEq, Repr

/-- The base or the index of a memory operand; a virtual register is an instruction's id. -/
inductive AddressReg where
  | vreg (id : Int)
  | phyReg (loc : Int)
  deriving DecidableEq, Repr

/--
`base + index * 2 ^ multiplier + offset`, with an offset of 32 bits.  The pointer to
the base may be null.
-/
structure MemoryIndirect where
  base : Option AddressReg
  index : Option AddressReg
  multiplier : Nat
  offset : Int
  deriving DecidableEq, Repr

inductive Value where
  | phyReg (loc : Int)
  | stack (loc : Int)
  | mem (address : BitVec 64)
  | ind (indirect : MemoryIndirect)
  | imm (constant : BitVec 64)
  deriving DecidableEq, Repr

inductive Operand where
  | vreg (id : Int)
  | label (block : Int)
  | value (v : Value) (dataType : DataType)
  deriving DecidableEq, Repr

inductive Output where
  | none
  | vreg (dataType : DataType)
  | value (v : Value) (dataType : DataType)
  deriving DecidableEq, Repr

structure Instruction where
  id : Int
  opcode : Option Opcode
  output : Output
  inputs : List Operand
  deriving DecidableEq, Repr

structure BasicBlock where
  id : Int
  codeSection : CodeSection
  successors : List Int
  instructions : List Instruction
  deriving DecidableEq, Repr

abbrev Function := List BasicBlock

def toInt (n : Int) : Int := Int.bmod n (2 ^ 32)

def instrNames : List (String × Opcode) :=
  [("Bind", .kBind), ("Nop", .kNop), ("Unreachable", .kUnreachable), ("Call", .kCall),
   ("LoadAttrCachedFastPath", .kLoadAttrCachedFastPath),
   ("LoadMethodCachedFastPath", .kLoadMethodCachedFastPath),
   ("StoreAttrCachedFastPath", .kStoreAttrCachedFastPath),
   ("BinaryOpExactLongAddSubFastPath", .kBinaryOpExactLongAddSubFastPath),
   ("VectorCall", .kVectorCall), ("VectorCallTstate", .kVectorCallTstate),
   ("VarArgCall", .kVarArgCall), ("Guard", .kGuard), ("DeoptPatchpoint", .kDeoptPatchpoint),
   ("OSREntry", .kOSREntry), ("Sext", .kSext), ("Zext", .kZext), ("Negate", .kNegate),
   ("Invert", .kInvert), ("Add", .kAdd), ("Sub", .kSub), ("And", .kAnd), ("Xor", .kXor),
   ("Div", .kDiv), ("DivUn", .kDivUn), ("Mul", .kMul), ("MulAdd", .kMulAdd),
   ("MulSub", .kMulSub), ("Or", .kOr), ("Fadd", .kFadd), ("Fsub", .kFsub), ("Fmul", .kFmul),
   ("Fdiv", .kFdiv), ("Int64ToDouble", .kInt64ToDouble), ("LShift", .kLShift),
   ("RShift", .kRShift), ("RShiftUn", .kRShiftUn), ("Test", .kTest), ("Test32", .kTest32),
   ("Equal", .kEqual), ("NotEqual", .kNotEqual), ("GreaterThanSigned", .kGreaterThanSigned),
   ("LessThanSigned", .kLessThanSigned), ("GreaterThanEqualSigned", .kGreaterThanEqualSigned),
   ("LessThanEqualSigned", .kLessThanEqualSigned),
   ("GreaterThanUnsigned", .kGreaterThanUnsigned), ("LessThanUnsigned", .kLessThanUnsigned),
   ("GreaterThanEqualUnsigned", .kGreaterThanEqualUnsigned),
   ("LessThanEqualUnsigned", .kLessThanEqualUnsigned), ("Cmp", .kCmp), ("Lea", .kLea),
   ("ReserveStack", .kReserveStack), ("LoadArg", .kLoadArg),
   ("LoadSecondCallResult", .kLoadSecondCallResult), ("Exchange", .kExchange),
   ("Move", .kMove), ("MoveRelaxed", .kMoveRelaxed), ("MovConstPool", .kMovConstPool),
   ("Push", .kPush), ("Pop", .kPop), ("Cdq", .kCdq), ("Cwd", .kCwd), ("Cqo", .kCqo),
   ("Branch", .kBranch), ("BranchNZ", .kBranchNZ), ("BranchZ", .kBranchZ),
   ("BranchA", .kBranchA), ("BranchB", .kBranchB), ("BranchAE", .kBranchAE),
   ("BranchBE", .kBranchBE), ("BranchG", .kBranchG), ("BranchL", .kBranchL),
   ("BranchGE", .kBranchGE), ("BranchLE", .kBranchLE), ("BranchC", .kBranchC),
   ("BranchNC", .kBranchNC), ("BranchO", .kBranchO), ("BranchNO", .kBranchNO),
   ("BranchS", .kBranchS), ("BranchNS", .kBranchNS), ("BranchE", .kBranchE),
   ("BranchNE", .kBranchNE), ("BranchBitSet", .kBranchBitSet),
   ("BranchBitNotSet", .kBranchBitNotSet), ("Inc", .kInc), ("Dec", .kDec),
   ("CondBranch", .kCondBranch), ("Select", .kSelect), ("Phi", .kPhi), ("Return", .kReturn),
   ("MovZX", .kMovZX), ("MovSX", .kMovSX), ("MovSXD", .kMovSXD), ("IntToBool", .kIntToBool),
   ("LoadThreadState", .kLoadThreadState), ("YieldInitial", .kYieldInitial),
   ("StoreGenYieldPoint", .kStoreGenYieldPoint),
   ("StoreGenYieldFromPoint", .kStoreGenYieldFromPoint),
   ("BranchToYieldExit", .kBranchToYieldExit), ("ResumeGenYield", .kResumeGenYield),
   ("EpilogueEnd", .kEpilogueEnd), ("Prologue", .kPrologue), ("SetupFrame", .kSetupFrame),
   ("VariadicPush", .kVariadicPush), ("StorePair", .kStorePair), ("LoadPair", .kLoadPair),
   ("Leave", .kLeave), ("Ret", .kRet), ("EnsureTreeIterState", .kEnsureTreeIterState),
   ("SaveCurrentNode", .kSaveCurrentNode), ("LoadCurrentNode", .kLoadCurrentNode),
   ("SavePhase", .kSavePhase), ("LoadPhase", .kLoadPhase),
   ("StateStackPush", .kStateStackPush), ("StateStackPop", .kStateStackPop),
   ("LoadPoppedPhase", .kLoadPoppedPhase), ("LoadStackTop", .kLoadStackTop),
   ("CheckTreeIterChildEntry", .kCheckTreeIterChildEntry),
   ("TreeIterEnterChild", .kTreeIterEnterChild),
   ("TreeIterLeaveCurrentNode", .kTreeIterLeaveCurrentNode),
   ("ClearTreeIterState", .kClearTreeIterState), ("CmpBranchZero", .kCmpBranchZero),
   ("CmpBranchNonZero", .kCmpBranchNonZero), ("A64SubSetFlags", .kA64SubSetFlags),
   ("A64GuardCC", .kA64GuardCC)]
def instrName (opcode : Option Opcode) : List Char :=
  match opcode with
  | some opcode =>
    ((instrNames.find? fun pair => pair.2 = opcode).map fun pair => pair.1.toList).getD []
  | none => []

def dataTypeName : DataType → List Char
  | .k8bit => "8bit".toList
  | .k16bit => "16bit".toList
  | .k32bit => "32bit".toList
  | .k64bit => "64bit".toList
  | .kDouble => "Double".toList
  | .kObject => "Object".toList

def codeSectionName : CodeSection → List Char
  | .kHot => ".text".toList
  | .kCold => ".coldtext".toList

def Instruction.vregType? (instr : Instruction) : Option DataType :=
  match instr.output with
  | .vreg dataType => some dataType
  | _ => none

def Function.vregType (f : Function) (id : Int) : DataType :=
  (((f.flatMap BasicBlock.instructions).find? fun instr => instr.id = id).bind
    Instruction.vregType?).getD .kObject

def Function.predecessors (f : Function) (id : Int) : List Int :=
  (f.flatMap fun block => (block.successors.filter fun succ => succ = id).map
    fun _ => block.id).mergeSort

/-! ## The names of locations -/

/-- `FOREACH_GP`: a register's name, and those of its lower parts. -/
def gpRegs : Arch → List (List (List Char))
  | .kX86_64 =>
    [["RAX", "EAX", "AX", "AL"], ["RCX", "ECX", "CX", "CL"], ["RDX", "EDX", "DX", "DL"],
     ["RBX", "EBX", "BX", "BL"], ["RSP", "ESP", "SP", "SPL"], ["RBP", "EBP", "BP", "BPL"],
     ["RSI", "ESI", "SI", "SIL"], ["RDI", "EDI", "DI", "DIL"]].map (List.map String.toList) ++
    (List.range' 8 8).map fun i =>
      [[], ['D'], ['W'], ['B']].map fun suffix => 'R' :: (decimal i ++ suffix)
  | .kAarch64 =>
    (List.range 31).map (fun i => ['X' :: decimal i, 'W' :: decimal i]) ++
      [["XZR".toList, "WZR".toList]]

/-- `FOREACH_VECD`. -/
def vecdRegs : Arch → List (List (List Char))
  | .kX86_64 => (List.range 16).map fun i => ["XMM".toList ++ decimal i]
  | .kAarch64 => (List.range 32).map fun i => ['D' :: decimal i]

def registers (arch : Arch) : List (Nat × List (List Char)) :=
  (gpRegs arch ++ vecdRegs arch).zipIdx.map (fun (names, id) => (id, names)) ++
    match arch with
    | .kX86_64 => []
    | .kAarch64 => [(0xFFFF, ["SP".toList])]

def nameColumn : Arch → Nat → Nat
  | .kX86_64, 32 | .kAarch64, 32 | .kAarch64, 16 | .kAarch64, 8 => 1
  | .kX86_64, 16 => 2
  | .kX86_64, 8 => 3
  | _, _ => 0

/-- `name`, `name32`, `name16` and `name8`, which abort without such a register. -/
def regName (arch : Arch) (id bits : Nat) : Option (List Char) :=
  ((registers arch).lookup id).bind (·[nameColumn arch bits]?)

/-- `PhyLocation::parse`, which aborts at other names. -/
def parseReg (arch : Arch) (name : List Char) : Option Int :=
  ((registers arch).find? fun reg => name ∈ reg.2).map fun reg => (reg.1 : Int)

structure Target where
  arch : Arch
  pyFunctionFromName : List Char → Option (BitVec 64)
  /-- The address of the copy of a string literal. -/
  stringLiteral : List Char → BitVec 64

section Print

variable (target : Target) (f : Function)

def printInt (n : Int) : List Char :=
  if n < 0 then '-' :: decimal n.natAbs else decimal n.natAbs

def printHex (n : Int) : List Char :=
  if n < 0 then '-' :: '0' :: 'x' :: hexadecimal n.natAbs
  else '0' :: 'x' :: hexadecimal n.natAbs

def frameReg : Arch → List Char
  | .kX86_64 => "RBP".toList
  | .kAarch64 => "X29".toList

/-- `PhyLocation::toString`; the data type of an operand fixes the bits of its location. -/
def locText (arch : Arch) (loc : Int) (dataType : DataType) : Option (List Char) :=
  if loc < 0 then some ('[' :: (frameReg arch ++ '(' :: (printInt loc ++ ")]".toList)))
  else regName arch loc.toNat (bitSize dataType)

def printLoc (arch : Arch) (loc : Int) (dataType : DataType) : List Char :=
  (locText arch loc dataType).getD []

def printAddress (address : BitVec 64) : List Char :=
  if address = 0 then ['0'] else '0' :: 'x' :: hexadecimal address.toNat

def printType (dataType : DataType) : List Char := ':' :: dataTypeName dataType

section Indirect

variable (printReg : AddressReg → List Char)

/-- The factor is `1 << multiplier`, whose shift the machine takes modulo 32. -/
def printIndex (ind : MemoryIndirect) : List Char :=
  match ind.index with
  | none => []
  | some index =>
    " + ".toList ++ printReg index ++
      if 0 < ind.multiplier then
        " * ".toList ++ printInt (toInt (2 ^ (ind.multiplier % 32)))
      else []

def printOffset (offset : Int) : List Char :=
  if offset = 0 then []
  else if 0 < offset then " + ".toList ++ printHex offset
  else " - ".toList ++ printHex (toInt (-offset))

def printIndirect (ind : MemoryIndirect) : List Char :=
  '[' :: ((ind.base.map printReg).getD [] ++ printIndex printReg ind ++ printOffset ind.offset ++
    [']'])

def printValue (v : Value) (dataType : DataType) : List Char :=
  match v with
  | .phyReg loc | .stack loc => printLoc target.arch loc dataType
  | .mem address => '[' :: (printAddress address ++ [']'])
  | .ind ind => printIndirect printReg ind
  | .imm constant =>
    decimal constant.toNat ++ "(0x".toList ++ hexadecimal constant.toNat ++ [')']

end Indirect

def printLinked (id : Int) : List Char :=
  '%' :: (printInt id ++ printType (Function.vregType f id))

def printAddressReg : AddressReg → List Char
  | .vreg id => printLinked f id
  | .phyReg loc => printLoc target.arch loc .kObject ++ printType .kObject

def printOperand : Operand → List Char
  | .vreg id => printLinked f id
  | .label block => "BB%".toList ++ printInt block
  | .value v dataType =>
    printValue target (printAddressReg target f) v dataType ++ printType dataType

def setw (text : List Char) : List Char := List.replicate (16 - text.length) ' ' ++ text

def printOutput (instr : Instruction) : List Char :=
  match instr.output with
  | .none => List.replicate 19 ' '
  | .vreg dataType =>
    setw ('%' :: (printInt instr.id ++ printType dataType)) ++ " = ".toList
  | .value v dataType =>
    setw (printValue target (printAddressReg target f) v dataType ++ printType dataType) ++
      " = ".toList

def printInputs (sep : List Char) : List Operand → List Char
  | [] => []
  | input :: rest => sep ++ printOperand target f input ++ printInputs ", ".toList rest

def printPhiInputs (sep : List Char) : List Operand → List Char
  | block :: value :: rest =>
    sep ++ '(' :: (printOperand target f block ++ ", ".toList ++
      printOperand target f value ++ ')' :: printPhiInputs ", ".toList rest)
  | _ => []

def printInstruction (instr : Instruction) : List Char :=
  printOutput target f instr ++ instrName instr.opcode ++
    if instr.opcode = some .kPhi then printPhiInputs target f [' '] instr.inputs
    else printInputs target f [' '] instr.inputs

def printBlocks (which : String) (blocks : List Int) : List Char :=
  if blocks = [] then []
  else which.toList ++ blocks.flatMap fun id => " %".toList ++ printInt id

def printHeader (block : BasicBlock) : List Char :=
  "BB %".toList ++ printInt block.id ++
    printBlocks " - preds:" (Function.predecessors f block.id) ++
    printBlocks " - succs:" block.successors ++
    (if block.codeSection = .kHot then []
      else " - section: ".toList ++ codeSectionName block.codeSection) ++ ['\n']

def printBlock (block : BasicBlock) : List Char :=
  printHeader f block ++
    block.instructions.flatMap fun instr => printInstruction target f instr ++ ['\n']

def printText : List Char :=
  "Function:\n".toList ++ f.flatMap fun block => printBlock target f block ++ ['\n']

end Print

def AddressReg.locs : AddressReg → List (Int × DataType)
  | .vreg _ => []
  | .phyReg loc => [(loc, .kObject)]

def Value.locs (v : Value) (dataType : DataType) : List (Int × DataType) :=
  match v with
  | .phyReg loc | .stack loc => [(loc, dataType)]
  | .ind indirect => (indirect.base.toList ++ indirect.index.toList).flatMap AddressReg.locs
  | .mem _ | .imm _ => []

def Output.locs : Output → List (Int × DataType)
  | .value v dataType => v.locs dataType
  | _ => []

def Operand.locs : Operand → List (Int × DataType)
  | .value v dataType => v.locs dataType
  | _ => []

def Instruction.locs (instr : Instruction) : List (Int × DataType) :=
  instr.output.locs ++ instr.inputs.flatMap Operand.locs

def Function.locs (f : Function) : List (Int × DataType) :=
  f.flatMap fun block => block.instructions.flatMap Instruction.locs

/--
`Printer::print`, with the comments about the origins of instructions switched off, and
nothing where it aborts at a location.
-/
def print (target : Target) (f : Function) : Option (List Char) :=
  if ∀ loc ∈ f.locs, (locText target.arch loc.1 loc.2).isSome then some (printText target f)
  else none

end CinderX.Jit.Lir.Text
