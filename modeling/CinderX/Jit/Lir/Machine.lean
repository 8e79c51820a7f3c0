import CinderX.Jit.Lir.DataType
import CinderX.Jit.Lir.Opcode
import CinderX.Foundation.Bytes

/-!
# Moves on the machine

Instructions after register allocation, whose operands are registers, stack
slots and immediates, and the effect of the machine code emitted for the moves,
the extending moves and `Xor` on the general purpose registers and the bytes of
the frame.  An instruction that the code generator aborts on, or that the
assembler refuses, has no effect here.
-/

namespace CinderX.Jit.Lir.PostAlloc

open CinderX.Foundation BitVec

inductive Operand where
  | none
  | reg (loc : Nat) (type : DataType)
  | stack (loc : Int) (type : DataType)
  | imm (constant : BitVec 64) (type : DataType)
  deriving DecidableEq, Repr

structure Instruction where
  opcode : Opcode
  output : Operand
  inputs : List Operand
  deriving DecidableEq, Repr

namespace Operand

def dataType : Operand → DataType
  | .none => .kObject
  | .reg _ type | .stack _ type | .imm _ type => type

def setDataType (type : DataType) : Operand → Operand
  | .none => .none
  | .reg loc _ => .reg loc type
  | .stack loc _ => .stack loc type
  | .imm constant _ => .imm constant type

def sizeInBits (operand : Operand) : Nat := bitSize operand.dataType

end Operand

structure State where
  regs : Nat → BitVec 64
  frame : Int → BitVec 8

namespace State

def read (s : State) (width : Nat) : Operand → BitVec width
  | .none => 0
  | .reg loc _ => (s.regs loc).setWidth width
  | .stack loc _ => loadWord s.frame loc width
  | .imm constant _ => constant.setWidth width

/--
The register after `value` is written to it.  On x86-64 a write of 8 or 16 bits
leaves the others as they were; every other write clears the bits above it.
-/
def mergeReg (arch : Arch) {width : Nat} (old : BitVec 64) (value : BitVec width) :
    BitVec 64 :=
  if arch = .kX86_64 ∧ width < 32 then replaceLow old value else value.setWidth 64

def writeReg (arch : Arch) (s : State) (loc : Nat) {width : Nat}
    (value : BitVec width) : State :=
  { s with regs := Function.update s.regs loc (mergeReg arch (s.regs loc) value) }

def writeStack (s : State) (loc : Int) {width : Nat} (value : BitVec width) : State :=
  { s with frame := storeWord s.frame loc value }

end State

/-- `AutoTranslator::getGpWiden`: AArch64 has no registers narrower than 32 bits. -/
def gpWiden (width : Nat) : Nat := max width 32

def extendTo (signed : Bool) {narrow : Nat} (wide : Nat) (value : BitVec narrow) :
    BitVec wide :=
  if signed then value.signExtend wide else value.setWidth wide

def regWidth : Arch → Nat → Nat
  | .kX86_64, width => width
  | .kAarch64, width => gpWiden width

/-- `Instruction::kMove` of the x86-64 `translateInstr`; the output's size is used. -/
def moveX86 (s : State) (output input : Operand) : Option State :=
  let width := output.sizeInBits
  match output, input with
  | .reg _ _, .none => none
  | .reg loc _, input => some (s.writeReg .kX86_64 loc (s.read width input))
  | .stack loc _, .reg .. => some (s.writeStack loc (s.read width input))
  -- no instruction stores an immediate of 64 bits: its low half is sign-extended
  | .stack loc _, .imm .. =>
    some (s.writeStack loc ((s.read (min width 32) input).signExtend width))
  | _, _ => none

/-- `translateMove`.  The assembler has no move between registers of two sizes. -/
def moveAarch64 (s : State) (output input : Operand) : Option State :=
  let width := output.sizeInBits
  match output, input with
  | .reg loc _, .reg .. =>
    if gpWiden width = gpWiden input.sizeInBits then
      some (s.writeReg .kAarch64 loc (s.read (gpWiden width) input))
    else none
  | .reg loc _, .stack .. => some (s.writeReg .kAarch64 loc (s.read width input))
  | .reg loc _, .imm constant type =>
    if constant ≠ 0 ∧ type = .kObject then
      some (s.writeReg .kAarch64 loc constant)
    else some (s.writeReg .kAarch64 loc (s.read (gpWiden width) input))
  | .stack loc _, .reg .. => some (s.writeStack loc (s.read width input))
  | _, _ => none

def move : Arch → State → Operand → Operand → Option State
  | .kX86_64 => moveX86
  | .kAarch64 => moveAarch64

def isRegOrStack : Operand → Bool
  | .reg .. | .stack .. => true
  | _ => false

/--
`kMovZX` and `kMovSX`.  The x86-64 encoding reads a byte or else a 16-bit word;
`translateMovExtOp` moves an input of 32 bits as it is.
-/
def moveExtend (arch : Arch) (s : State) (signed : Bool) (output input : Operand) :
    Option State :=
  match output with
  | .reg loc _ =>
    if ¬ isRegOrStack input then none
    else
      let width := regWidth arch output.sizeInBits
      match arch, input.sizeInBits with
      | _, 8 => some (s.writeReg arch loc (extendTo signed width (s.read 8 input)))
      | .kX86_64, _ => some (s.writeReg arch loc (extendTo signed width (s.read 16 input)))
      | .kAarch64, 16 => some (s.writeReg arch loc (extendTo signed width (s.read 16 input)))
      | .kAarch64, 32 => some (s.writeReg arch loc (s.read 32 input))
      | .kAarch64, _ => none
  | _ => none

def moveSignExtendDouble (arch : Arch) (s : State) (output input : Operand) :
    Option State :=
  match output with
  | .reg loc _ =>
    if isRegOrStack input then
      some (s.writeReg arch loc ((s.read 32 input).signExtend output.sizeInBits))
    else none
  | _ => none

/-- `Xor` of two registers without an output works on its first input in place. -/
def xorInPlace (arch : Arch) (s : State) (left right : Operand) : Option State :=
  match left, right with
  | .reg loc type, .reg .. =>
    let width := regWidth arch (bitSize type)
    some (s.writeReg arch loc (s.read width left ^^^ s.read width right))
  | _, _ => none

def execInstr (arch : Arch) (s : State) (instr : Instruction) : Option State :=
  match instr.opcode, instr.inputs with
  | .kMove, [input] => move arch s instr.output input
  | .kMovZX, [input] => moveExtend arch s false instr.output input
  | .kMovSX, [input] => moveExtend arch s true instr.output input
  | .kMovSXD, [input] => moveSignExtendDouble arch s instr.output input
  | .kXor, [left, right] =>
    if instr.output = .none then xorInPlace arch s left right else none
  | _, _ => none

def execInstrs (arch : Arch) : State → List Instruction → Option State
  | s, [] => some s
  | s, instr :: rest => (execInstr arch s instr).bind (execInstrs arch · rest)

section Widths

variable {signed : Bool} {narrow : Nat} (value : BitVec narrow)

theorem extendTo_of_le {wide : Nat} (h : wide ≤ narrow) :
    extendTo signed wide value = value.setWidth wide := by
  unfold extendTo
  split
  · exact signExtend_eq_setWidth_of_le _ h
  · rfl

theorem getLsbD_extendTo (wide i : Nat) (h : i < wide) :
    (extendTo signed wide value).getLsbD i =
      if i < narrow then value.getLsbD i else signed && value.getLsbD (narrow - 1) := by
  cases signed with
  | false =>
    simp only [extendTo, Bool.false_eq_true, if_false, getLsbD_setWidth, h,
      decide_true, Bool.true_and, Bool.false_and]
    split
    · rfl
    · exact getLsbD_of_ge _ _ (by omega)
  | true =>
    simp only [extendTo, if_true, getLsbD_signExtend, h, decide_true,
      Bool.true_and, msb_eq_getLsbD_last]

theorem setWidth_extendTo {wide width : Nat} (h : width ≤ wide) :
    (extendTo signed wide value).setWidth width = extendTo signed width value := by
  apply eq_of_getLsbD_eq
  intro i hi
  rw [getLsbD_setWidth, getLsbD_extendTo value wide i (by omega),
    getLsbD_extendTo value width i hi]
  simp [hi]

end Widths

theorem bitSize_cases (type : DataType) :
    bitSize type = 8 ∨ bitSize type = 16 ∨ bitSize type = 32 ∨ bitSize type = 64 := by
  cases type <;> decide

theorem eight_dvd_bitSize (type : DataType) : 8 ∣ bitSize type := by
  cases type <;> decide

theorem le_regWidth (arch : Arch) (width : Nat) : width ≤ regWidth arch width := by
  cases arch with
  | kX86_64 => exact Nat.le_refl _
  | kAarch64 => exact Nat.le_max_left _ _

theorem regWidth_le (arch : Arch) (type : DataType) : regWidth arch (bitSize type) ≤ 64 := by
  cases arch <;> cases type <;> decide

namespace State

variable {arch : Arch} {s : State} {loc : Nat} {type : DataType}

variable {width : Nat}

theorem setWidth_read {wide : Nat} (h : width ≤ wide) (operand : Operand) :
    (s.read wide operand).setWidth width = s.read width operand := by
  cases operand with
  | none => simp [read]
  | reg => exact setWidth_setWidth_of_le _ h
  | stack => exact setWidth_loadWord _ _ h
  | imm => exact setWidth_setWidth_of_le _ h

variable {written : Nat}

theorem read_writeReg (value : BitVec written) (h : width ≤ written) (hwritten : written ≤ 64) :
    (s.writeReg arch loc value).read width (.reg loc type) = value.setWidth width := by
  simp only [read, writeReg, Function.update_self, mergeReg]
  split
  · exact setWidth_replaceLow _ _ h (by omega)
  · exact setWidth_setWidth_of_le _ (by omega)

theorem read_writeReg_of_word (value : BitVec written) (h : 32 ≤ written) (hwidth : width ≤ 64) :
    (s.writeReg arch loc value).read width (.reg loc type) = value.setWidth width := by
  simp only [read, writeReg, Function.update_self, mergeReg]
  rw [if_neg (by omega)]
  exact setWidth_setWidth_of_le _ hwidth

theorem read_writeStack {slot : Int} (width : Nat) (value : BitVec (bitSize type))
    (type' : DataType) :
    (s.writeStack slot value).read width (.stack slot type') =
      replaceLow (s.read width (.stack slot type')) value :=
  loadWord_storeWord _ _ _ (eight_dvd_bitSize type) _

end State

def moveEncodable (arch : Arch) : Operand → Operand → Bool
  | .reg _ outType, .reg _ inType =>
    arch = .kX86_64 ∨ gpWiden (bitSize outType) = gpWiden (bitSize inType)
  | .reg .., .stack .. | .reg .., .imm .. | .stack .., .reg .. => true
  | .stack .., .imm .. => arch = .kX86_64
  | _, _ => false

variable {arch : Arch} {s : State} {output input : Operand}

theorem move_eq_none (h : moveEncodable arch output input = false) :
    move arch s output input = none := by
  cases arch <;> cases output <;> cases input <;>
    simp_all [moveEncodable, move, moveX86, moveAarch64, Operand.sizeInBits,
      Operand.dataType]

theorem move_spec (h : moveEncodable arch output input = true)
    (hinput : isRegOrStack input = true) :
    ∃ s', move arch s output input = some s' ∧
      s'.read output.sizeInBits output = s.read output.sizeInBits input := by
  have hwidth := bitSize_le output.dataType
  match output, input with
  | .reg loc outType, .reg source inType =>
    cases arch with
    | kX86_64 =>
      refine ⟨_, rfl, ?_⟩
      exact (State.read_writeReg _ (Nat.le_refl _) hwidth).trans (setWidth_eq _)
    | kAarch64 =>
      have hsame : gpWiden (bitSize outType) = gpWiden (bitSize inType) := by
        simpa [moveEncodable] using h
      refine ⟨_, if_pos hsame, ?_⟩
      have hwiden := le_regWidth .kAarch64 (bitSize outType)
      exact (State.read_writeReg _ hwiden (regWidth_le .kAarch64 outType)).trans
        (State.setWidth_read hwiden _)
  | .reg loc outType, .stack slot inType =>
    cases arch with
    | kX86_64 | kAarch64 =>
      refine ⟨_, rfl, ?_⟩
      exact (State.read_writeReg _ (Nat.le_refl _) hwidth).trans (setWidth_eq _)
  | .stack slot outType, .reg source inType =>
    cases arch with
    | kX86_64 | kAarch64 =>
      refine ⟨_, rfl, ?_⟩
      exact (State.read_writeStack _ _ _).trans (replaceLow_self _ _)
  | .stack .., .stack .. => simp [moveEncodable] at h
  | .none, _ => simp [moveEncodable] at h
  | _, .none | _, .imm .. => simp [isRegOrStack] at hinput

def isReg : Operand → Bool
  | .reg .. => true
  | _ => false

/--
A 32-bit move leaves the zero-extension of its input in the place of its output:
always in a register, and in a slot on top of what was above the 32 bits.
-/
theorem move_word_spec {width : Nat} (houtput : output.dataType = .k32bit)
    (h : moveEncodable arch output input = true) (hinput : isRegOrStack input = true)
    (hwidth : width ≤ 64) :
    ∃ s', move arch s output input = some s' ∧
      s'.read width output =
        if isReg output then (s.read 32 input).setWidth width
        else replaceLow (s.read width output) (s.read 32 input) := by
  match output, input with
  | .reg loc outType, .reg source inType =>
    cases houtput
    cases arch with
    | kX86_64 =>
      exact ⟨_, rfl, State.read_writeReg_of_word _ (Nat.le_refl _) hwidth⟩
    | kAarch64 =>
      have hsame : gpWiden (bitSize .k32bit) = gpWiden (bitSize inType) := by
        simpa [moveEncodable] using h
      exact ⟨_, if_pos hsame, State.read_writeReg_of_word _ (Nat.le_refl _) hwidth⟩
  | .reg loc outType, .stack slot inType =>
    cases houtput
    cases arch with
    | kX86_64 | kAarch64 =>
      exact ⟨_, rfl, State.read_writeReg_of_word _ (Nat.le_refl _) hwidth⟩
  | .stack slot outType, .reg source inType =>
    cases houtput
    cases arch with
    | kX86_64 | kAarch64 => exact ⟨_, rfl, State.read_writeStack _ _ _⟩
  | .stack .., .stack .. => simp [moveEncodable] at h
  | .none, _ => simp [moveEncodable] at h
  | _, .none | _, .imm .. => simp [isRegOrStack] at hinput

theorem moveExtend_eq_none {signed : Bool} (h : isReg output = false) :
    moveExtend arch s signed output input = none := by
  cases output with
  | reg => simp [isReg] at h
  | none | stack | imm => rfl

theorem moveExtend_spec {signed : Bool} (houtput : isReg output = true)
    (hinput : isRegOrStack input = true)
    (hnarrow : input.dataType = .k8bit ∨ input.dataType = .k16bit) :
    ∃ s', moveExtend arch s signed output input = some s' ∧
      s'.read output.sizeInBits output =
        extendTo signed output.sizeInBits (s.read input.sizeInBits input) := by
  match output with
  | .reg loc outType =>
    have hwiden := le_regWidth arch (bitSize outType)
    have hwritten {narrow : Nat} (value : BitVec narrow) :
        (s.writeReg arch loc
          (extendTo signed (regWidth arch (bitSize outType)) value)).read
            (bitSize outType) (.reg loc outType) =
          extendTo signed (bitSize outType) value :=
      (State.read_writeReg _ hwiden (regWidth_le arch outType)).trans
        (setWidth_extendTo value hwiden)
    simp only [moveExtend, hinput, not_true_eq_false, if_false]
    rcases hnarrow with hbyte | hhalf
    · have hsize : input.sizeInBits = 8 := by rw [Operand.sizeInBits, hbyte]; rfl
      rw [hsize]
      exact ⟨_, rfl, hwritten _⟩
    · have hsize : input.sizeInBits = 16 := by rw [Operand.sizeInBits, hhalf]; rfl
      rw [hsize]
      cases arch with
      | kX86_64 | kAarch64 => exact ⟨_, rfl, hwritten _⟩
  | .none | .stack .. | .imm .. => simp [isReg] at houtput

theorem moveSignExtendDouble_eq_none (h : isReg output = false) :
    moveSignExtendDouble arch s output input = none := by
  cases output with
  | reg => simp [isReg] at h
  | none | stack | imm => rfl

theorem moveSignExtendDouble_spec (houtput : isReg output = true)
    (hinput : isRegOrStack input = true) :
    ∃ s', moveSignExtendDouble arch s output input = some s' ∧
      s'.read output.sizeInBits output =
        extendTo true output.sizeInBits (s.read 32 input) := by
  match output with
  | .reg loc outType =>
    refine ⟨_, if_pos hinput, ?_⟩
    exact (State.read_writeReg _ (Nat.le_refl _) (bitSize_le outType)).trans
      (setWidth_eq _)
  | .none | .stack .. | .imm .. => simp [isReg] at houtput

/-- The bit of an immediate that ends up at `i`; a store has no more than 32 of them. -/
def encodedBit (output : Operand) (constant : BitVec 64) (i : Nat) : Bool :=
  match output with
  | .stack .. => constant.getLsbD (min i 31)
  | _ => constant.getLsbD i

variable {constant : BitVec 64}

theorem read_writeReg_imm {loc : Nat} {outType : DataType} {written : Nat}
    (hwritten : bitSize outType ≤ written) (hle : written ≤ 64) (i : Nat)
    (hi : i < bitSize outType) :
    ((s.writeReg arch loc (constant.setWidth written)).read (bitSize outType)
      (.reg loc outType)).getLsbD i = constant.getLsbD i := by
  rw [State.read_writeReg _ hwritten hle, setWidth_setWidth_of_le _ hwritten,
    getLsbD_setWidth]
  simp [hi]

theorem move_imm_spec (h : moveEncodable arch output (.imm constant output.dataType) = true) :
    ∃ s', move arch s output (.imm constant output.dataType) = some s' ∧
      ∀ i, i < output.sizeInBits →
        (s'.read output.sizeInBits output).getLsbD i = encodedBit output constant i := by
  match output with
  | .reg loc outType =>
    cases arch with
    | kX86_64 =>
      exact ⟨_, rfl, read_writeReg_imm (Nat.le_refl _) (bitSize_le outType)⟩
    | kAarch64 =>
      by_cases hobject : constant ≠ 0 ∧ outType = .kObject
      · refine ⟨s.writeReg .kAarch64 loc constant, if_pos hobject, ?_⟩
        intro i hi
        have hread : ((s.writeReg .kAarch64 loc (constant.setWidth 64)).read
            (bitSize outType) (.reg loc outType)).getLsbD i = constant.getLsbD i :=
          read_writeReg_imm (bitSize_le outType) (Nat.le_refl 64) i hi
        rwa [setWidth_eq] at hread
      · exact ⟨_, if_neg hobject,
          read_writeReg_imm (le_regWidth .kAarch64 _) (regWidth_le .kAarch64 outType)⟩
  | .stack slot outType =>
    cases arch with
    | kX86_64 =>
      refine ⟨_, rfl, ?_⟩
      intro i hi
      have hread : (s.writeStack slot (extendTo true (bitSize outType)
          (constant.setWidth (min (bitSize outType) 32)))).read (bitSize outType)
            (.stack slot outType) = _ :=
        (State.read_writeStack _ _ _).trans (replaceLow_self _ _)
      refine (congrArg (fun word => word.getLsbD i) hread).trans ?_
      have hi' : i < bitSize outType := hi
      dsimp only [encodedBit]
      rw [getLsbD_extendTo _ _ _ hi', getLsbD_setWidth, getLsbD_setWidth]
      by_cases hlow : i < min (bitSize outType) 32
      · have hindex : min i 31 = i := by omega
        simp [hlow, hindex]
      · have hcases := bitSize_cases outType
        have hhalf : min (bitSize outType) 32 = 32 := by omega
        have hindex : min i 31 = 31 := by omega
        rw [hhalf] at hlow
        simp [hhalf, hlow, hindex]
    | kAarch64 => simp [moveEncodable] at h
  | .none | .imm .. => simp [moveEncodable] at h

end CinderX.Jit.Lir.PostAlloc
