import CinderX.Jit.Lir.DataType
import CinderX.Jit.Lir.Opcode

/-!
# LIR functions

A function is a list of basic blocks in the order in which they are emitted.
Operands that are objects in the source are told apart by numbers: a virtual
register stands for the output operand that defines it, and every input that
refers to it has a number of its own.
-/

namespace CinderX.Jit.Lir

abbrev BlockId := Nat

abbrev VReg := Nat

structure LinkedOperand where
  id : Nat
  define : VReg
  deriving DecidableEq, Repr

inductive AddressReg where
  | vreg (operand : LinkedOperand)
  | phyReg (loc : Nat)
  deriving DecidableEq, Repr

structure MemoryIndirect where
  base : AddressReg
  index : Option AddressReg
  deriving DecidableEq, Repr

inductive Output where
  | none
  | vreg (v : VReg)
  | phyReg (loc : Nat)
  | stack (loc : Int)
  | mem
  | ind (indirect : MemoryIndirect)
  deriving DecidableEq, Repr

inductive InputKind where
  | vreg (operand : LinkedOperand)
  | phyReg (loc : Nat)
  | stack (loc : Int)
  | mem
  | imm
  | ind (indirect : MemoryIndirect)
  | label (block : BlockId)
  deriving DecidableEq, Repr

structure Input where
  kind : InputKind
  dataType : DataType
  deriving DecidableEq, Repr

structure Instruction where
  opcode : Opcode
  output : Output
  inputs : List Input
  deriving DecidableEq, Repr

namespace Instruction

def isPhi (instr : Instruction) : Bool := instr.opcode = .kPhi

def getInputPhyRegUse (instr : Instruction) (i : Nat) : Bool :=
  match instr.opcode, instr.output with
  | .kMove, .ind _ | .kMoveRelaxed, .ind _ => true
  | opcode, _ => opcode.inputPhyUses.getD i false

def operandByPredecessor (pred : BlockId) : List Input → Option Input
  | label :: value :: rest =>
    if label.kind = .label pred then some value else operandByPredecessor pred rest
  | _ => none

def getOperandByPredecessor (instr : Instruction) (pred : BlockId) : Option Input :=
  operandByPredecessor pred instr.inputs

end Instruction

structure BasicBlock where
  id : BlockId
  instrs : List Instruction
  successors : List BlockId
  deriving DecidableEq, Repr

namespace BasicBlock

def getNumInstrs (bb : BasicBlock) : Nat := bb.instrs.length

def phis (bb : BasicBlock) : List Instruction := bb.instrs.filter Instruction.isPhi

end BasicBlock

/-- Every virtual register has the data type of the operand that defines it. -/
structure Function where
  blocks : List BasicBlock
  dataType : VReg → DataType

namespace Function

def block? (f : Function) (id : BlockId) : Option BasicBlock :=
  f.blocks.find? fun bb => bb.id = id

end Function

end CinderX.Jit.Lir
