import CinderX.Jit.Lir.Machine

/-!
# Lowering of sign and zero extensions

`rewriteBitExtensionInstrs` replaces `Sext` and `Zext` by moves, and
`optimizeMoveInstrs` deletes a move between equal locations.  The theorem at the
end says for which extensions, and from which states, what is left computes the
extension.
-/

namespace CinderX.Jit.Lir

def DataType.rank : DataType → Nat
  | .k8bit => 0
  | .k16bit => 1
  | .k32bit => 2
  | .k64bit => 3
  | .kDouble => 4
  | .kObject => 5

end CinderX.Jit.Lir

namespace CinderX.Jit.Lir.PostAlloc

open CinderX.Foundation

/-- What a rewrite does with its instruction; `aborted` is a failed check. -/
inductive RewriteResult where
  | kUnchanged
  | kChanged (instr : Instruction)
  | kRemoved
  | aborted
  deriving DecidableEq, Repr

def constantMask : DataType → BitVec 64
  | .k32bit => 0xffffffff
  | .k16bit => 0xffff
  | .k8bit => 0xff
  | _ => 0xffffffffffffffff

def rewriteBitExtensionInstrs (instr : Instruction) : RewriteResult :=
  if instr.opcode ≠ .kSext ∧ instr.opcode ≠ .kZext then .kUnchanged
  else
    match instr.inputs with
    | [] => .aborted
    | input :: rest =>
      let outSize := instr.output.dataType
      match input with
      | .imm constant _ =>
        .kChanged
          { instr with
            opcode := .kMove
            inputs := .imm (constant &&& constantMask outSize) outSize :: rest }
      | input =>
        if outSize.rank ≤ input.dataType.rank then
          .kChanged { instr with opcode := .kMove }
        else
          match input.dataType with
          | .k8bit | .k16bit =>
            .kChanged
              { instr with
                opcode := if instr.opcode = .kSext then .kMovSX else .kMovZX }
          | .k32bit =>
            if instr.opcode = .kSext then
              .kChanged { instr with opcode := .kMovSXD }
            else
              -- a 32-bit move is to clear the upper half of the output
              .kChanged
                { instr with
                  opcode := .kMove
                  output := instr.output.setDataType .k32bit }
          | .k64bit | .kObject | .kDouble => .aborted

def sameLocation : Operand → Operand → Bool
  | .reg left _, .reg right _ => left = right
  | .stack left _, .stack right _ => left = right
  | _, _ => false

def optimizeMoveInstrs (arch : Arch) (instr : Instruction) : RewriteResult :=
  if instr.opcode ≠ .kMove then .kUnchanged
  else
    match instr.inputs with
    | [] => .aborted
    | input :: _ =>
      if sameLocation instr.output input then .kRemoved
      else
        match arch, input, instr.output with
        | .kX86_64, .imm constant type, .reg loc outType =>
          if type ≠ .kDouble ∧ constant = 0 then
            .kChanged ⟨.kXor, .none, [.reg loc outType, .reg loc outType]⟩
          else .kUnchanged
        | _, _, _ => .kUnchanged

/-- What a rewrite leaves of an instruction; nothing when a check of the source fails. -/
def RewriteResult.left (instr : Instruction) : RewriteResult → Option (List Instruction)
  | .kUnchanged => some [instr]
  | .kChanged instr => some [instr]
  | .kRemoved => some []
  | .aborted => none

def lowerExtension (arch : Arch) (instr : Instruction) : Option (List Instruction) :=
  match (rewriteBitExtensionInstrs instr).left instr with
  | some [instr] => (optimizeMoveInstrs arch instr).left instr
  | result => result

def Operand.IsInteger (operand : Operand) : Prop :=
  operand ≠ .none ∧ operand.dataType ≠ .kDouble

instance (operand : Operand) : Decidable operand.IsInteger :=
  inferInstanceAs (Decidable (_ ∧ _))

/-- A `Sext` or `Zext` on general purpose registers, stack slots and immediates. -/
structure BitExtension where
  signed : Bool
  input : Operand
  output : Operand
  integerInput : input.IsInteger
  integerOutput : output.IsInteger
  locatedOutput : isRegOrStack output

namespace BitExtension

def instr (e : BitExtension) : Instruction :=
  ⟨if e.signed then .kSext else .kZext, e.output, [e.input]⟩

def value (e : BitExtension) (s : State) : BitVec e.output.sizeInBits :=
  extendTo e.signed e.output.sizeInBits (s.read e.input.sizeInBits e.input)

def KeepsValue (e : BitExtension) (arch : Arch) (s : State) : Prop :=
  ∃ instrs s', lowerExtension arch e.instr = some instrs ∧
    execInstrs arch s instrs = some s' ∧
    s'.read e.output.sizeInBits e.output = e.value s

/--
When the lowering of an extension is exact.  An immediate must carry its
extension already, in the bits that are kept of it.  A narrowing needs a move the
machine has, unless the operands are in one place.  An extension from 8 or 16
bits, or a signed one from 32, needs an output register.  An unsigned one from 32
bits is a 32-bit move: it needs the upper half of the output to be zero already
when the move is deleted or goes to a slot.
-/
def LoweringExact (e : BitExtension) (arch : Arch) (s : State) : Prop :=
  match e.input with
  | .imm constant inType =>
    moveEncodable arch e.output (.imm constant inType) = true ∧
      ∀ i, i < e.output.sizeInBits →
        encodedBit e.output constant i =
          if i < bitSize inType then constant.getLsbD i
          else e.signed && constant.getLsbD (bitSize inType - 1)
  | input =>
    if e.output.dataType.rank ≤ input.dataType.rank then
      sameLocation e.output input = true ∨ moveEncodable arch e.output input = true
    else
      match input.dataType with
      | .k8bit | .k16bit => isReg e.output = true
      | .k32bit =>
        if e.signed then isReg e.output = true
        else if sameLocation e.output input then
          ∀ i, 32 ≤ i → i < 64 → (s.read 64 e.output).getLsbD i = false
        else
          moveEncodable arch (e.output.setDataType .k32bit) input = true ∧
            (isReg e.output = false →
              ∀ i, 32 ≤ i → i < 64 → (s.read 64 e.output).getLsbD i = false)
      | .k64bit | .kDouble | .kObject => False

end BitExtension

theorem bitSize_mono {left right : DataType} (h : left.rank ≤ right.rank) :
    bitSize left ≤ bitSize right := by
  cases left <;> cases right <;> simp_all [DataType.rank, bitSize]

theorem sameLocation_setDataType (type : DataType) (output input : Operand) :
    sameLocation (output.setDataType type) input = sameLocation output input := by
  cases output <;> cases input <;> rfl

variable {output input : Operand}

theorem dataType_setDataType {type : DataType}
    (h : isRegOrStack output = true) : (output.setDataType type).dataType = type := by
  cases output with
  | reg | stack => rfl
  | none | imm => simp [isRegOrStack] at h

theorem isReg_setDataType (type : DataType) (output : Operand) :
    isReg (output.setDataType type) = isReg output := by
  cases output <;> rfl

theorem State.read_setDataType (s : State) (width : Nat) (type : DataType)
    (operand : Operand) :
    s.read width (operand.setDataType type) = s.read width operand := by
  cases operand <;> rfl

theorem State.read_of_sameLocation {s : State}
    (h : sameLocation output input = true) (width : Nat) :
    s.read width output = s.read width input := by
  match output, input with
  | .reg .., .reg .. | .stack .., .stack .. =>
    simp only [sameLocation, decide_eq_true_eq] at h
    subst h
    rfl
  | .none, _ | .imm .., _ => simp [sameLocation] at h
  | .reg .., .none | .reg .., .stack .. | .reg .., .imm .. => simp [sameLocation] at h
  | .stack .., .none | .stack .., .reg .. | .stack .., .imm .. =>
    simp [sameLocation] at h

theorem left_optimizeMove {arch : Arch} (hinput : isRegOrStack input = true) :
    (optimizeMoveInstrs arch ⟨.kMove, output, [input]⟩).left ⟨.kMove, output, [input]⟩ =
      some (if sameLocation output input then [] else [⟨.kMove, output, [input]⟩]) := by
  simp only [optimizeMoveInstrs, ne_eq, not_true_eq_false, if_false]
  split
  · rfl
  · split
    · simp [isRegOrStack] at hinput
    · rfl

namespace BitExtension

variable {e : BitExtension} {arch : Arch} {s : State}

theorem not_keepsValue_of_aborted (h : lowerExtension arch e.instr = none) :
    ¬ e.KeepsValue arch s := by
  rintro ⟨instrs, s', hlower, -⟩
  simp [h] at hlower

theorem keepsValue_of_removed (h : lowerExtension arch e.instr = some []) :
    e.KeepsValue arch s ↔ s.read e.output.sizeInBits e.output = e.value s := by
  simp [KeepsValue, h, execInstrs]

variable {next : Instruction}

theorem keepsValue_of_single (h : lowerExtension arch e.instr = some [next]) :
    e.KeepsValue arch s ↔ ∃ s', execInstr arch s next = some s' ∧
      s'.read e.output.sizeInBits e.output = e.value s := by
  simp [KeepsValue, h, execInstrs]

theorem keepsValue_iff_of_spec {result : BitVec e.output.sizeInBits}
    (h : lowerExtension arch e.instr = some [next])
    (hspec : ∃ s', execInstr arch s next = some s' ∧ s'.read e.output.sizeInBits e.output =
      result) :
    e.KeepsValue arch s ↔ result = e.value s := by
  obtain ⟨s', hexec, hread⟩ := hspec
  rw [keepsValue_of_single h, hexec]
  simp [hread]

theorem not_keepsValue_of_stuck (h : lowerExtension arch e.instr = some [next])
    (hstuck : execInstr arch s next = none) : ¬ e.KeepsValue arch s := by
  rw [keepsValue_of_single h, hstuck]
  simp

theorem value_of_narrowing (h : e.output.dataType.rank ≤ e.input.dataType.rank) :
    e.value s = s.read e.output.sizeInBits e.input := by
  have hle : e.output.sizeInBits ≤ e.input.sizeInBits := bitSize_mono h
  rw [value, extendTo_of_le _ hle, State.setWidth_read hle]

theorem value_of_word (h : e.input.dataType = .k32bit) :
    e.value s = extendTo e.signed e.output.sizeInBits (s.read 32 e.input) := by
  have hsize : e.input.sizeInBits = 32 := by rw [Operand.sizeInBits, h]; rfl
  rw [value, hsize]

theorem sizeInBits_output_of_word (h : ¬ e.output.dataType.rank ≤ e.input.dataType.rank)
    (hword : e.input.dataType = .k32bit) : e.output.sizeInBits = 64 := by
  rw [hword] at h
  rw [Operand.sizeInBits]
  cases hout : e.output.dataType with
  | k8bit | k16bit | k32bit => simp [hout, DataType.rank] at h
  | k64bit | kDouble | kObject => rfl

section Located

variable (hinput : isRegOrStack e.input = true)
include hinput

theorem rewrite_located :
    rewriteBitExtensionInstrs e.instr =
      if e.output.dataType.rank ≤ e.input.dataType.rank then
        .kChanged ⟨.kMove, e.output, [e.input]⟩
      else
        match e.input.dataType with
        | .k8bit | .k16bit =>
          .kChanged ⟨if e.signed then .kMovSX else .kMovZX, e.output, [e.input]⟩
        | .k32bit =>
          if e.signed then .kChanged ⟨.kMovSXD, e.output, [e.input]⟩
          else .kChanged ⟨.kMove, e.output.setDataType .k32bit, [e.input]⟩
        | .k64bit | .kObject | .kDouble => .aborted := by
  cases hcase : e.input with
  | none | imm => simp [hcase, isRegOrStack] at hinput
  | reg loc type | stack loc type =>
    cases hsigned : e.signed with
    | true | false =>
      simp [rewriteBitExtensionInstrs, instr, hcase, hsigned, Operand.dataType]

theorem lower_narrowing (h : e.output.dataType.rank ≤ e.input.dataType.rank) :
    lowerExtension arch e.instr =
      some (if sameLocation e.output e.input then []
        else [⟨.kMove, e.output, [e.input]⟩]) := by
  rw [lowerExtension, rewrite_located hinput, if_pos h]
  exact left_optimizeMove hinput

theorem lower_subword (h : ¬ e.output.dataType.rank ≤ e.input.dataType.rank)
    (hnarrow : e.input.dataType = .k8bit ∨ e.input.dataType = .k16bit) :
    lowerExtension arch e.instr =
      some [⟨if e.signed then .kMovSX else .kMovZX, e.output, [e.input]⟩] := by
  rw [lowerExtension, rewrite_located hinput, if_neg h]
  rcases hnarrow with hnarrow | hnarrow <;> rw [hnarrow] <;>
    cases e.signed <;> rfl

theorem lower_signed_word (h : ¬ e.output.dataType.rank ≤ e.input.dataType.rank)
    (hword : e.input.dataType = .k32bit) (hsigned : e.signed = true) :
    lowerExtension arch e.instr = some [⟨.kMovSXD, e.output, [e.input]⟩] := by
  rw [lowerExtension, rewrite_located hinput, if_neg h, hword, hsigned]
  rfl

theorem lower_unsigned_word (h : ¬ e.output.dataType.rank ≤ e.input.dataType.rank)
    (hword : e.input.dataType = .k32bit) (hsigned : e.signed = false) :
    lowerExtension arch e.instr =
      some (if sameLocation e.output e.input then []
        else [⟨.kMove, e.output.setDataType .k32bit, [e.input]⟩]) := by
  rw [lowerExtension, rewrite_located hinput, if_neg h, hword, hsigned,
    ← sameLocation_setDataType .k32bit]
  exact left_optimizeMove hinput

theorem lower_aborted (h : ¬ e.output.dataType.rank ≤ e.input.dataType.rank)
    (hwide : 64 ≤ bitSize e.input.dataType) : lowerExtension arch e.instr = none := by
  rw [lowerExtension, rewrite_located hinput, if_neg h]
  cases hcase : e.input.dataType with
  | k8bit | k16bit | k32bit => simp [hcase, bitSize] at hwide
  | k64bit | kDouble | kObject => rfl

theorem keepsValue_narrowing_iff (h : e.output.dataType.rank ≤ e.input.dataType.rank) :
    e.KeepsValue arch s ↔
      sameLocation e.output e.input = true ∨
        moveEncodable arch e.output e.input = true := by
  have hlower : lowerExtension arch e.instr = _ := lower_narrowing hinput h
  cases hsame : sameLocation e.output e.input with
  | true =>
    rw [hsame, if_pos rfl] at hlower
    rw [keepsValue_of_removed hlower, value_of_narrowing h]
    simp [State.read_of_sameLocation hsame]
  | false =>
    rw [hsame, if_neg Bool.false_ne_true] at hlower
    cases hmove : moveEncodable arch e.output e.input with
    | true =>
      rw [keepsValue_iff_of_spec hlower (move_spec hmove hinput),
        value_of_narrowing h]
      simp
    | false =>
      simpa using not_keepsValue_of_stuck hlower (move_eq_none hmove)

theorem keepsValue_subword_iff (h : ¬ e.output.dataType.rank ≤ e.input.dataType.rank)
    (hnarrow : e.input.dataType = .k8bit ∨ e.input.dataType = .k16bit) :
    e.KeepsValue arch s ↔ isReg e.output = true := by
  have hlower : lowerExtension arch e.instr = _ := lower_subword hinput h hnarrow
  have hexec : execInstr arch s ⟨if e.signed then .kMovSX else .kMovZX, e.output, [e.input]⟩ =
      moveExtend arch s e.signed e.output e.input := by
    cases e.signed <;> rfl
  cases hreg : isReg e.output with
  | true =>
    rw [keepsValue_iff_of_spec hlower (hexec ▸ moveExtend_spec hreg hinput hnarrow)]
    simp [value]
  | false =>
    simpa using not_keepsValue_of_stuck hlower (hexec.trans (moveExtend_eq_none hreg))

theorem keepsValue_signed_word_iff (h : ¬ e.output.dataType.rank ≤ e.input.dataType.rank)
    (hword : e.input.dataType = .k32bit) (hsigned : e.signed = true) :
    e.KeepsValue arch s ↔ isReg e.output = true := by
  have hlower : lowerExtension arch e.instr = _ :=
    lower_signed_word hinput h hword hsigned
  cases hreg : isReg e.output with
  | true =>
    rw [keepsValue_iff_of_spec hlower (moveSignExtendDouble_spec hreg hinput),
      value_of_word hword, hsigned]
    simp
  | false =>
    simpa using not_keepsValue_of_stuck hlower (moveSignExtendDouble_eq_none hreg)

theorem keepsValue_unsigned_word_iff (h : ¬ e.output.dataType.rank ≤ e.input.dataType.rank)
    (hword : e.input.dataType = .k32bit) (hsigned : e.signed = false) :
    e.KeepsValue arch s ↔
      if sameLocation e.output e.input then
        ∀ i, 32 ≤ i → i < 64 → (s.read 64 e.output).getLsbD i = false
      else
        moveEncodable arch (e.output.setDataType .k32bit) e.input = true ∧
          (isReg e.output = false →
            ∀ i, 32 ≤ i → i < 64 → (s.read 64 e.output).getLsbD i = false) := by
  have hlower : lowerExtension arch e.instr = _ :=
    lower_unsigned_word hinput h hword hsigned
  have hsize := sizeInBits_output_of_word h hword
  have hvalue : e.value s = (s.read 32 e.input).setWidth e.output.sizeInBits := by
    rw [value_of_word hword, hsigned]
    rfl
  have hupper : replaceLow (s.read e.output.sizeInBits e.output) (s.read 32 e.input) =
        e.value s ↔
      ∀ i, 32 ≤ i → i < 64 → (s.read 64 e.output).getLsbD i = false := by
    rw [hvalue, replaceLow_eq_setWidth_iff, hsize]
  cases hsame : sameLocation e.output e.input with
  | true =>
    have hlow : s.read 32 e.input = (s.read e.output.sizeInBits e.output).setWidth 32 := by
      rw [State.setWidth_read (by omega), State.read_of_sameLocation hsame]
    rw [hsame, if_pos rfl] at hlower
    rw [hlow, replaceLow_setWidth] at hupper
    rw [keepsValue_of_removed hlower, hupper]
    simp
  | false =>
    rw [hsame, if_neg Bool.false_ne_true] at hlower
    cases hmove : moveEncodable arch (e.output.setDataType .k32bit) e.input with
    | false =>
      simpa using not_keepsValue_of_stuck hlower (move_eq_none hmove)
    | true =>
      have hspec := move_word_spec (s := s) (dataType_setDataType e.locatedOutput)
        hmove hinput (Nat.le_of_eq hsize)
      simp only [State.read_setDataType, isReg_setDataType] at hspec
      rw [keepsValue_iff_of_spec hlower hspec]
      cases hreg : isReg e.output with
      | true => simp [hvalue]
      | false => simpa using hupper

end Located

section Immediate

variable {type : DataType} {i : Nat}

theorem getLsbD_constantMask (constant : BitVec 64) (hi : i < bitSize type) :
    (constant &&& constantMask type).getLsbD i = constant.getLsbD i := by
  have hmask : ∀ i : Fin 64, i.val < bitSize type → (constantMask type).getLsbD i = true := by
    cases type <;> decide
  rw [BitVec.getLsbD_and, hmask ⟨i, by have := bitSize_le type; omega⟩ hi, Bool.and_true]

theorem encodedBit_constantMask {output : Operand} (constant : BitVec 64)
    (hi : i < output.sizeInBits) :
    encodedBit output (constant &&& constantMask output.dataType) i =
      encodedBit output constant i := by
  have hmin : min i 31 < bitSize output.dataType :=
    Nat.lt_of_le_of_lt (Nat.min_le_left _ _) hi
  cases output with
  | stack => exact getLsbD_constantMask constant hmin
  | none | reg | imm => exact getLsbD_constantMask constant hi

variable {constant : BitVec 64} {inType : DataType}

theorem rewrite_imm (h : e.input = .imm constant inType) :
    rewriteBitExtensionInstrs e.instr =
      .kChanged ⟨.kMove, e.output,
        [.imm (constant &&& constantMask e.output.dataType) e.output.dataType]⟩ := by
  cases hsigned : e.signed <;> simp [rewriteBitExtensionInstrs, instr, h, hsigned]

theorem exec_xor_self {loc : Nat} :
    ∃ s', execInstr arch s ⟨.kXor, .none, [.reg loc type, .reg loc type]⟩ = some s' ∧
      s'.read (bitSize type) (.reg loc type) = 0 := by
  refine ⟨_, rfl, ?_⟩
  rw [BitVec.xor_self,
    State.read_writeReg _ (le_regWidth arch _) (regWidth_le arch type)]
  exact BitVec.setWidth_zero _ _

theorem lower_imm (h : e.input = .imm constant inType) :
    ∃ next, lowerExtension arch e.instr = some [next] ∧
      (next = ⟨.kMove, e.output,
          [.imm (constant &&& constantMask e.output.dataType) e.output.dataType]⟩ ∨
        ∃ loc type, e.output = .reg loc type ∧
          constant &&& constantMask type = 0 ∧
          next = ⟨.kXor, .none, [.reg loc type, .reg loc type]⟩) := by
  rw [lowerExtension, rewrite_imm h]
  generalize hmasked : constant &&& constantMask e.output.dataType = masked
  cases arch with
  | kAarch64 =>
    refine ⟨_, ?_, .inl rfl⟩
    simp [RewriteResult.left, optimizeMoveInstrs, sameLocation]
  | kX86_64 =>
    match hout : e.output with
    | .reg loc type =>
      have hdouble : type ≠ .kDouble := by
        simpa [hout, Operand.dataType] using e.integerOutput.2
      rw [hout] at hmasked
      by_cases hzero : masked = 0#64
      · refine ⟨_, ?_, .inr ⟨loc, type, rfl, hmasked.trans hzero, rfl⟩⟩
        simp [RewriteResult.left, optimizeMoveInstrs, sameLocation, hzero, hdouble,
          Operand.dataType]
      · refine ⟨_, ?_, .inl rfl⟩
        simp [RewriteResult.left, optimizeMoveInstrs, sameLocation, hzero]
    | .none | .stack .. | .imm .. =>
      refine ⟨_, ?_, .inl rfl⟩
      simp [RewriteResult.left, optimizeMoveInstrs, sameLocation]

theorem moveEncodable_imm (output : Operand) (left right : BitVec 64)
    (leftType rightType : DataType) :
    moveEncodable arch output (.imm left leftType) =
      moveEncodable arch output (.imm right rightType) := by
  cases output <;> rfl

theorem exec_lower_imm {next : Instruction} (h : e.input = .imm constant inType)
    (hlower : lowerExtension arch e.instr = some [next])
    (hmove : moveEncodable arch e.output (.imm constant inType) = true) :
    ∃ s', execInstr arch s next = some s' ∧
      ∀ i, i < e.output.sizeInBits →
        (s'.read e.output.sizeInBits e.output).getLsbD i =
          encodedBit e.output constant i := by
  obtain ⟨other, hother, hnext⟩ : ∃ other, lowerExtension arch e.instr = some [other] ∧ _ :=
    lower_imm h
  obtain rfl : next = other := by simpa using hlower.symm.trans hother
  rcases hnext with rfl | ⟨loc, type, hout, hzero, rfl⟩
  · rw [moveEncodable_imm _ constant (constant &&& constantMask e.output.dataType) inType
      e.output.dataType] at hmove
    obtain ⟨s', hexec, hbits⟩ := move_imm_spec hmove
    exact ⟨s', hexec, fun i hi =>
      (hbits i hi).trans (encodedBit_constantMask constant hi)⟩
  · obtain ⟨s', hexec, hread⟩ : ∃ s', execInstr arch s ⟨.kXor, .none, [.reg loc type,
        .reg loc type]⟩ = some s' ∧ s'.read (bitSize type) (.reg loc type) = 0 :=
      exec_xor_self
    refine ⟨s', hexec, ?_⟩
    rw [hout]
    intro i hi
    have hbit : constant.getLsbD i = false := by
      rw [← getLsbD_constantMask constant hi]
      exact (congrArg (fun word => word.getLsbD i) hzero).trans BitVec.getLsbD_zero
    simp [Operand.sizeInBits, Operand.dataType, hread, encodedBit, hbit]

theorem getLsbD_value_imm (h : e.input = .imm constant inType) (i : Nat)
    (hi : i < e.output.sizeInBits) :
    (e.value s).getLsbD i =
      if i < bitSize inType then constant.getLsbD i
      else e.signed && constant.getLsbD (bitSize inType - 1) := by
  have hpos : bitSize inType - 1 < bitSize inType := by cases inType <;> decide
  rw [value, h, getLsbD_extendTo _ _ _ hi]
  simp only [State.read, Operand.sizeInBits, Operand.dataType, BitVec.getLsbD_setWidth,
    hpos, decide_true, Bool.true_and]
  split
  next hlow => simp [hlow]
  next => rfl

theorem keepsValue_imm_iff (h : e.input = .imm constant inType) :
    e.KeepsValue arch s ↔
      moveEncodable arch e.output (.imm constant inType) = true ∧
        ∀ i, i < e.output.sizeInBits →
          encodedBit e.output constant i =
            if i < bitSize inType then constant.getLsbD i
            else e.signed && constant.getLsbD (bitSize inType - 1) := by
  obtain ⟨next, hlower, hnext⟩ : ∃ next, lowerExtension arch e.instr = some [next] ∧ _ :=
    lower_imm h
  cases hmove : moveEncodable arch e.output (.imm constant inType) with
  | true =>
    obtain ⟨s', hexec, hbits⟩ := exec_lower_imm h hlower hmove
    rw [keepsValue_of_single hlower, hexec]
    simp only [Option.some.injEq, exists_eq_left', true_and]
    constructor
    · intro hread i hi
      rw [← hbits i hi, hread, getLsbD_value_imm h i hi]
    · intro hvalue
      apply BitVec.eq_of_getLsbD_eq
      intro i hi
      rw [hbits i hi, hvalue i hi, getLsbD_value_imm h i hi]
  | false =>
    rcases hnext with rfl | ⟨loc, type, hout, -, -⟩
    · rw [moveEncodable_imm _ constant (constant &&& constantMask e.output.dataType)
        inType e.output.dataType] at hmove
      simpa using not_keepsValue_of_stuck hlower (move_eq_none hmove)
    · rw [hout] at hmove
      simp [moveEncodable] at hmove

end Immediate

theorem keepsValue_located_iff (hinput : isRegOrStack e.input = true) :
    e.KeepsValue arch s ↔
      if e.output.dataType.rank ≤ e.input.dataType.rank then
        sameLocation e.output e.input = true ∨ moveEncodable arch e.output e.input = true
      else
        match e.input.dataType with
        | .k8bit | .k16bit => isReg e.output = true
        | .k32bit =>
          if e.signed then isReg e.output = true
          else if sameLocation e.output e.input then
            ∀ i, 32 ≤ i → i < 64 → (s.read 64 e.output).getLsbD i = false
          else
            moveEncodable arch (e.output.setDataType .k32bit) e.input = true ∧
              (isReg e.output = false →
                ∀ i, 32 ≤ i → i < 64 → (s.read 64 e.output).getLsbD i = false)
        | .k64bit | .kDouble | .kObject => False := by
  by_cases hle : e.output.dataType.rank ≤ e.input.dataType.rank
  · rw [if_pos hle]
    exact keepsValue_narrowing_iff hinput hle
  · rw [if_neg hle]
    cases htype : e.input.dataType with
    | k8bit => exact keepsValue_subword_iff hinput hle (.inl htype)
    | k16bit => exact keepsValue_subword_iff hinput hle (.inr htype)
    | k32bit =>
      cases hsigned : e.signed with
      | true => simpa using keepsValue_signed_word_iff hinput hle htype hsigned
      | false => simpa using keepsValue_unsigned_word_iff hinput hle htype hsigned
    | k64bit | kDouble | kObject =>
      have hlower : lowerExtension arch e.instr = none :=
        lower_aborted hinput hle (by rw [htype]; decide)
      simpa using not_keepsValue_of_aborted hlower

/-- What is left of an extension computes it exactly under `LoweringExact`. -/
theorem keepsValue_iff (e : BitExtension) (arch : Arch) (s : State) :
    e.KeepsValue arch s ↔ e.LoweringExact arch s := by
  unfold LoweringExact
  match hinput : e.input with
  | .none => exact absurd hinput e.integerInput.1
  | .imm constant inType => exact keepsValue_imm_iff hinput
  | .reg loc inType | .stack loc inType =>
    have hlocated : e.KeepsValue arch s ↔ _ :=
      keepsValue_located_iff (by rw [hinput]; rfl)
    rwa [hinput] at hlocated

def zextInPlace : BitExtension where
  signed := false
  input := .reg 0 .k32bit
  output := .reg 0 .k64bit
  integerInput := by decide
  integerOutput := by decide
  locatedOutput := rfl

def staleUpperHalf : State where
  regs := fun _ => 0x100000000
  frame := fun _ => 0

/-- The 32-bit move is deleted, and the stale upper half stays. -/
theorem zextInPlace_losesValue : ¬ zextInPlace.KeepsValue .kX86_64 staleUpperHalf := by
  rintro ⟨instrs, s', hlower, hexec, hread⟩
  have hdeleted : lowerExtension .kX86_64 zextInPlace.instr = some [] := by decide
  obtain rfl : [] = instrs := by simpa [hdeleted] using hlower
  obtain rfl : staleUpperHalf = s' := by simpa [execInstrs] using hexec
  exact absurd hread (by decide)

end BitExtension

end CinderX.Jit.Lir.PostAlloc
