import CinderX.Foundation.AddWithCarry

/-!
# Immediates on AArch64

The helpers that add, subtract and compare with any constant and that address any offset.
They return the instructions they emit; an instruction whose operands the assembler does
not encode has no effect, and the run is undefined.
-/

namespace CinderX.Jit.Codegen.Arch

open CinderX.Foundation

inductive RegType where
  | gpW
  | gpX
  deriving DecidableEq, Repr

abbrev RegType.bits : RegType → Nat
  | .gpW => 32
  | .gpX => 64

theorem RegType.bits_le (type : RegType) : type.bits ≤ 64 := by
  cases type <;> decide

/-- A general register or the stack pointer, whole or its lower half. -/
structure Gp where
  id : Fin 32
  type : RegType
  deriving DecidableEq, Repr

/-- The zero register has the same number in an encoding and is no operand here. -/
def SP : Fin 32 := 31

def reg_scratch_0 : Gp := ⟨13, .gpX⟩

def reg_scratch_1 : Gp := ⟨14, .gpX⟩

def Gp.w (reg : Gp) : Gp := { reg with type := .gpW }

inductive AddSub where
  | add
  | sub
  deriving DecidableEq, Repr

inductive Insn where
  | movImm (dst : Gp) (imm : BitVec 64)
  | movReg (dst src : Gp)
  | arithImm (op : AddSub) (dst src : Gp) (imm : BitVec 64) (lsl12 : Bool)
  | arithReg (op : AddSub) (dst lhs rhs : Gp)
  /-- `cmp` where the operation subtracts, `cmn` where it adds. -/
  | cmpImm (op : AddSub) (reg : Gp) (imm : BitVec 64)
  | cmpReg (reg rhs : Gp)
  deriving DecidableEq, Repr

structure State where
  regs : Fin 32 → BitVec 64
  flags : ConditionFlags
  deriving Inhabited

def State.read (st : State) (reg : Gp) : BitVec reg.type.bits :=
  (st.regs reg.id).setWidth reg.type.bits

/-- A write of the narrow register clears the upper half. -/
def State.write (st : State) (reg : Gp) (value : BitVec reg.type.bits) : State :=
  { st with regs := fun id => if id = reg.id then value.setWidth 64 else st.regs id }

def AddSub.apply {w : Nat} : AddSub → BitVec w → BitVec w → BitVec w
  | .add, x, y => x + y
  | .sub, x, y => x - y

def AddSub.flags {w : Nat} : AddSub → BitVec w → BitVec w → ConditionFlags
  | .add, x, y => (adds x y).2
  | .sub, x, y => (subs x y).2

structure Imm12 where
  imm : BitVec 12
  shift : Bool
  deriving DecidableEq, Repr

def Imm12.value (field : Imm12) : BitVec 64 :=
  if field.shift then field.imm.setWidth 64 <<< 12 else field.imm.setWidth 64

def fitsShifted (imm : BitVec 64) : Bool := imm &&& ~~~(0xFFF#64 <<< 12) = 0

/-- The assembler's encoding of the last operands of `add`, `sub`, `cmp` and `cmn`. -/
def encodeImm12 (imm : BitVec 64) (lsl12 : Bool) : Option Imm12 :=
  if 0xFFF < imm then
    if lsl12 = true ∨ fitsShifted imm = false then none
    else some ⟨(imm >>> 12).setWidth 12, true⟩
  else some ⟨imm.setWidth 12, lsl12⟩

/-- One instruction, if its operands have the widths and the values it can encode. -/
def step (st : State) : Insn → Option State
  | .movImm dst imm => some (st.write dst (imm.setWidth dst.type.bits))
  | .movReg dst src =>
    if dst.type = src.type then some (st.write dst ((st.read src).setWidth _)) else none
  | .arithImm op dst src imm lsl12 =>
    if dst.type = src.type then
      (encodeImm12 imm lsl12).map fun field =>
        st.write dst (op.apply ((st.read src).setWidth _) (field.value.setWidth _))
    else none
  | .arithReg op dst lhs rhs =>
    if dst.type = lhs.type ∧ lhs.type = rhs.type ∧ rhs.id ≠ SP then
      some (st.write dst (op.apply ((st.read lhs).setWidth _) ((st.read rhs).setWidth _)))
    else none
  | .cmpImm op reg imm =>
    (encodeImm12 imm false).map fun field =>
      { st with flags := op.flags (st.read reg) (field.value.setWidth _) }
  | .cmpReg reg rhs =>
    if reg.type = rhs.type ∧ rhs.id ≠ SP then
      some { st with flags := AddSub.sub.flags (st.read reg) ((st.read rhs).setWidth _) }
    else none

def exec (st : State) (insns : List Insn) : Option State := insns.foldlM step st

def isAddSubImm (imm : BitVec 64) : Bool := decide (imm ≤ 0xFFF) || fitsShifted imm

def kAddSubImmMask : BitVec 64 := 0xfff

def kAddSubImmShift : Nat := 12

def kMaxSplitAddSubImm : BitVec 64 := kAddSubImmMask + kAddSubImmMask <<< kAddSubImmShift

/-- The upper and the lower part of a constant that takes two instructions. -/
def splitAddSubImm (imm : BitVec 64) : Option (BitVec 32 × BitVec 32) :=
  if imm = 0 ∨ kMaxSplitAddSubImm < imm ∨ isAddSubImm imm = true then none
  else
    let hi := (imm >>> kAddSubImmShift).setWidth 32
    let lo := (imm &&& kAddSubImmMask).setWidth 32
    if hi = 0 ∨ 0xfff < hi ∨ lo = 0 then none else some (hi, lo)

def scratchForCmp (reg : Gp) : Gp :=
  let scratch := if reg.id = reg_scratch_0.id then reg_scratch_1 else reg_scratch_0
  if reg.type = .gpW then scratch.w else scratch

def cmpImmediate (reg : Gp) (imm : BitVec 64) : List Insn :=
  if isAddSubImm imm = true then [.cmpImm .sub reg imm]
  else if isAddSubImm (-imm) = true then [.cmpImm .add reg (-imm)]
  else [.movImm (scratchForCmp reg) imm, .cmpReg reg (scratchForCmp reg)]

def cmpImmediateForEquality (reg : Gp) (imm : BitVec 64) : List Insn :=
  let scratch := scratchForCmp reg
  if isAddSubImm imm = true ∨ isAddSubImm (-imm) = true then cmpImmediate reg imm
  else
    match splitAddSubImm imm with
    | some (hi, lo) =>
      [.arithImm .sub scratch reg (hi.setWidth 64) true,
        .cmpImm .sub scratch (lo.setWidth 64)]
    | none =>
      match splitAddSubImm (-imm) with
      | some (hi, lo) =>
        [.arithImm .add scratch reg (hi.setWidth 64) true,
          .cmpImm .add scratch (lo.setWidth 64)]
      | none => cmpImmediate reg imm

/-- `add_immediate` and `sub_immediate`; the scratch register is always the wide one. -/
def arithImmediate (op : AddSub) (res lhs : Gp) (rhsi : BitVec 64) : List Insn :=
  if rhsi = 0 then if res ≠ lhs then [.movReg res lhs] else []
  else if isAddSubImm rhsi = true then [.arithImm op res lhs rhsi false]
  else
    match splitAddSubImm rhsi with
    | some (hi, lo) =>
      [.arithImm op res lhs (hi.setWidth 64) true,
        .arithImm op res res (lo.setWidth 64) false]
    | none => [.movImm reg_scratch_0 rhsi, .arithReg op res lhs reg_scratch_0]

def addImmediate : Gp → Gp → BitVec 64 → List Insn := arithImmediate .add

def subImmediate : Gp → Gp → BitVec 64 → List Insn := arithImmediate .sub

def addSignedImmediate (res lhs : Gp) (rhsi : BitVec 64) : List Insn :=
  if 0 ≤ rhsi.toInt then addImmediate res lhs rhsi else subImmediate res lhs (-rhsi)

inductive AccessSize where
  | k8
  | k16
  | k32
  | k64
  deriving DecidableEq, Repr

def AccessSize.bytes : AccessSize → Nat
  | .k8 => 1
  | .k16 => 2
  | .k32 => 4
  | .k64 => 8

inductive Mem where
  | baseOffset (base : Gp) (offset : BitVec 32)
  | baseIndex (base index : Gp)
  deriving DecidableEq, Repr

def Mem.Encodable (size : AccessSize) : Mem → Prop
  | .baseOffset base offset =>
    base.type = .gpX ∧
      (size.bytes ∣ offset.toNat ∧ offset.toNat / size.bytes < 2 ^ 12 ∨
        -256 ≤ offset.toInt ∧ offset.toInt < 256)
  | .baseIndex base index => base.type = .gpX ∧ index.type = .gpX ∧ index.id ≠ SP

def Mem.address (st : State) : Mem → BitVec 64
  | .baseOffset base offset => st.regs base.id + offset.signExtend 64
  | .baseIndex base index => st.regs base.id + st.regs index.id

def ptrOffsetTry (base : Gp) (offset : BitVec 32) (size : AccessSize) : Option Mem :=
  if -256 ≤ offset.toInt ∧ offset.toInt < 256 then some (.baseOffset base offset)
  else if 0 ≤ offset.toInt ∧ offset &&& (BitVec.ofNat 32 size.bytes - 1) = 0 ∧
      offset.toInt < size.bytes * 4096 then
    some (.baseOffset base offset)
  else none

/-- The instructions come first; `-offset` wraps for the least offset. -/
def ptrResolve (base : Gp) (offset : BitVec 32) (scratch : Gp) (size : AccessSize) :
    List Insn × Mem :=
  match ptrOffsetTry base offset size with
  | some mem => ([], mem)
  | none =>
    if 0 ≤ offset.toInt ∧ isAddSubImm (offset.signExtend 64) = true then
      ([.arithImm .add scratch base (offset.signExtend 64) false], .baseOffset scratch 0)
    else if offset.toInt < 0 ∧ isAddSubImm ((-offset).signExtend 64) = true then
      ([.arithImm .sub scratch base ((-offset).signExtend 64) false], .baseOffset scratch 0)
    else ([.movImm scratch (offset.signExtend 64)], .baseIndex base scratch)

end CinderX.Jit.Codegen.Arch
