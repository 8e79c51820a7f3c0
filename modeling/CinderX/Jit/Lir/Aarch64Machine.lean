import CinderX.Jit.Lir.Machine
import CinderX.Foundation.StraightLine

/-!
# Register-allocated code on AArch64

Instructions whose operands are physical registers, memory and immediates, and
the effect of the machine code that `translateMove`, `translateLoadPair` and
`translateStorePair` emit for them on the registers and the bytes of the memory.
The scratch registers of the code generator are never allocated and stay out of
the effects.  Every other instruction comes from a parameter.
-/

namespace CinderX.Jit.Lir.Aarch64

open CinderX.Foundation
open CinderX.Jit.Lir.PostAlloc (gpWiden)

abbrev X29 : Nat := 29
abbrev XZR : Nat := 31
abbrev SP : Nat := 0xFFFF
abbrev VECD_REG_BASE : Nat := 32
abbrev NUM_REGS : Nat := 64

def isRegister (loc : Nat) : Bool := loc < NUM_REGS

def isGpRegister (loc : Nat) : Bool := loc < VECD_REG_BASE

def isFpRegister (loc : Nat) : Bool := VECD_REG_BASE ≤ loc && loc < NUM_REGS

/-- The allocator gives the doubles, and nothing else, the vector registers. -/
structure RegOperand where
  loc : Nat
  dataType : DataType
  linked : Bool
  lastUse : Bool
  regClass : isFpRegister loc = decide (dataType = .kDouble)
  deriving DecidableEq

structure MemoryIndirect where
  base : Option RegOperand
  index : Option RegOperand
  multiplier : Nat
  offset : BitVec 32
  deriving DecidableEq

inductive Operand where
  | none
  | reg (operand : RegOperand)
  | stack (loc : Int) (type : DataType)
  | mem (address : BitVec 64) (type : DataType)
  | ind (indirect : MemoryIndirect) (type : DataType)
  | imm (constant : BitVec 64) (type : DataType) (linked : Bool)
  | label (block : Nat)
  deriving DecidableEq

structure Instruction where
  opcode : Opcode
  output : Operand
  inputs : List Operand
  deriving DecidableEq

abbrev Regs := Nat → BitVec 64

abbrev Memory := BitVec 64 → BitVec 8

def load (mem : Memory) (address : BitVec 64) (width : Nat) : BitVec width :=
  (BitVec.iunfoldr
    (fun i _ => ((), (mem (address + BitVec.ofNat 64 (i.val / 8))).getLsbD (i.val % 8))) ()).2

def store (mem : Memory) (address : BitVec 64) {width : Nat} (word : BitVec width) : Memory :=
  fun a =>
    if (a - address).toNat < width / 8 then
      (word >>> (8 * (a - address).toNat)).setWidth 8
    else mem a

def readReg (regs : Regs) (loc width : Nat) : BitVec width :=
  if loc = XZR then 0 else (regs loc).setWidth width

/-- `getGpOrSP`: a base is the stack pointer or a register that is not `XZR`. -/
def baseValue (regs : Regs) (loc : Nat) : Option (BitVec 64) :=
  if loc = SP ∨ isGpRegister loc = true ∧ loc ≠ XZR then some (regs loc) else none

def indexValue (regs : Regs) (index : RegOperand) : Option (BitVec 64) :=
  if isGpRegister index.loc = true ∧ 32 ≤ bitSize index.dataType then
    some ((readReg regs index.loc (bitSize index.dataType)).setWidth 64)
  else none

def indirectAddress (regs : Regs) (indirect : MemoryIndirect) : Option (BitVec 64) :=
  match indirect.base with
  | none => none
  | some base =>
    if base.loc = SP ∨ bitSize base.dataType = 64 then
      match indirect.index with
      | none => (baseValue regs base.loc).map (· + indirect.offset.signExtend 64)
      | some index =>
        if indirect.multiplier ≤ 3 then
          (baseValue regs base.loc).bind fun b =>
            (indexValue regs index).map fun (i : BitVec 64) =>
              b + i <<< indirect.multiplier + indirect.offset.signExtend 64
        else none
    else none

def address (regs : Regs) : Operand → Option (BitVec 64)
  | .stack loc _ => some (regs X29 + BitVec.ofInt 64 loc)
  | .mem address _ => some address
  | .ind indirect _ => indirectAddress regs indirect
  | _ => none

/-- The registers that an instruction writes, in order, and the memory behind it. -/
structure Effect where
  writes : List (Nat × BitVec 64)
  mem : Memory

/-- Loading a constant into a register; only pointers are loaded at full width. -/
def immediateValue (outType : DataType) (constant : BitVec 64) (type : DataType) :
    BitVec 64 :=
  if constant ≠ 0 ∧ type = .kObject then constant
  else (constant.setWidth (gpWiden (bitSize outType))).setWidth 64

def loadToReg (regs : Regs) (mem : Memory) (out : RegOperand) (input : Operand) :
    Option Effect :=
  if isRegister out.loc = true then
    (address regs input).map fun a =>
      ⟨[(out.loc, (load mem a (bitSize out.dataType)).setWidth 64)], mem⟩
  else none

/-- The width of a store is the width of its output, and no double is stored from `Xn`. -/
def storeFromReg (regs : Regs) (mem : Memory) (output : Operand) (type : DataType)
    (source : RegOperand) : Option Effect :=
  if isFpRegister source.loc = true then
    (address regs output).map fun a => ⟨[], store mem a (regs source.loc)⟩
  else if isGpRegister source.loc = true ∧ type ≠ .kDouble then
    (address regs output).map fun a =>
      ⟨[], store mem a (readReg regs source.loc (bitSize type))⟩
  else none

def moveEffect (regs : Regs) (mem : Memory) : Operand → Operand → Option Effect
  | .reg out, .reg source =>
    let width := gpWiden (bitSize out.dataType)
    if isRegister out.loc = true ∧ isRegister source.loc = true ∧
        width = gpWiden (bitSize source.dataType) then
      some ⟨[(out.loc, (readReg regs source.loc width).setWidth 64)], mem⟩
    else none
  | .reg out, .stack loc type => loadToReg regs mem out (.stack loc type)
  | .reg out, .ind indirect type => loadToReg regs mem out (.ind indirect type)
  | .reg out, .imm constant type _ =>
    if isGpRegister out.loc = true then
      some ⟨[(out.loc, immediateValue out.dataType constant type)], mem⟩
    else none
  | .stack loc type, .reg source => storeFromReg regs mem (.stack loc type) type source
  | .mem a _, .reg source =>
    if isRegister source.loc = true then
      some ⟨[], store mem a
        (readReg regs source.loc (gpWiden (bitSize source.dataType)))⟩
    else none
  | .mem a _, .imm constant _ _ => some ⟨[], store mem a constant⟩
  | .ind indirect type, .reg source =>
    storeFromReg regs mem (.ind indirect type) type source
  | .ind indirect type, .imm constant _ _ =>
    (indirectAddress regs indirect).map fun a =>
      ⟨[], store mem a (constant.setWidth (bitSize type))⟩
  | _, _ => none

def isInt7 (n : Int) : Bool := -64 ≤ n && n < 64

def loadPairEffect (regs : Regs) (mem : Memory) : List Operand → Option Effect
  | [.imm constant _ _, .reg base, .reg dst0, .reg dst1] =>
    let offset := constant.setWidth 32
    if (isGpRegister dst0.loc = true ∧ dst0.loc ≠ X29 ∧ dst0.loc ≠ XZR ∧
        isGpRegister dst1.loc = true ∧ dst1.loc ≠ X29 ∧ dst1.loc ≠ XZR ∧
        dst0.loc ≠ dst1.loc ∧ dst0.loc ≠ base.loc ∧ dst1.loc ≠ base.loc) ∧
        (offset.toInt % 8 = 0 ∧ isInt7 (offset.toInt / 8) = true) ∧
        bitSize dst0.dataType = 64 ∧ bitSize dst1.dataType = 64 then
      (baseValue regs base.loc).map fun b =>
        let a := b + offset.signExtend 64
        ⟨[(dst0.loc, load mem a 64), (dst1.loc, load mem (a + 8) 64)], mem⟩
    else none
  | _ => none

/-- `translateStorePair`; without an encodable offset it emits two stores. -/
def storePairEffect (regs : Regs) (mem : Memory) : List Operand → Option Effect
  | [.imm constant _ _, .reg base, .reg val0, .reg val1] =>
    if isGpRegister val0.loc = true ∧ isGpRegister val1.loc = true then
      (baseValue regs base.loc).map fun b =>
        let a := b + (constant.setWidth 32).signExtend 64
        ⟨[], store (store mem a (readReg regs val0.loc 64)) (a + 8)
          (readReg regs val1.loc 64)⟩
    else none
  | _ => none

def isModelled (instr : Instruction) : Bool :=
  match instr.opcode, instr.output, instr.inputs with
  | .kMove, .reg out, [.imm ..] => !isFpRegister out.loc
  | .kMove, _, [_] | .kLoadPair, _, _ | .kStorePair, _, _ => true
  | _, _, _ => false

def effect (regs : Regs) (mem : Memory) (instr : Instruction) : Option Effect :=
  match instr.opcode, instr.inputs with
  | .kMove, [input] => moveEffect regs mem instr.output input
  | .kLoadPair, inputs => loadPairEffect regs mem inputs
  | .kStorePair, inputs => storePairEffect regs mem inputs
  | _, _ => none

def applyWrites (regs : Regs) : List (Nat × BitVec 64) → Regs
  | [] => regs
  | write :: writes => applyWrites (Function.update regs write.1 write.2) writes

def optionLocs (operand : Option RegOperand) : List Nat :=
  operand.toList.map RegOperand.loc

def addressLocs : Operand → List Nat
  | .stack .. => [X29]
  | .ind indirect _ => optionLocs indirect.base ++ optionLocs indirect.index
  | _ => []

def inputLocs : Operand → List Nat
  | .reg operand => [operand.loc]
  | operand => addressLocs operand

/-- The last two inputs of a `LoadPair` are hidden definitions. -/
def useLocs (instr : Instruction) : List Nat :=
  match instr.opcode with
  | .kLoadPair => (instr.inputs.take 2).flatMap inputLocs
  | _ => addressLocs instr.output ++ instr.inputs.flatMap inputLocs

def regLocs : Operand → List Nat
  | .reg operand => [operand.loc]
  | _ => []

def defLocs (instr : Instruction) : List Nat :=
  match instr.opcode with
  | .kLoadPair => (instr.inputs.drop 2).flatMap regLocs
  | .kStorePair => []
  | _ => regLocs instr.output

section Congruence

variable {regs regs' : Regs} {mem : Memory} {loc : Nat} {input output : Operand}
  {inputs : List Operand}

theorem readReg_congr (h : regs loc = regs' loc) (width : Nat) :
    readReg regs loc width = readReg regs' loc width := by
  rw [readReg, readReg, h]

theorem baseValue_congr (h : regs loc = regs' loc) :
    baseValue regs loc = baseValue regs' loc := by
  rw [baseValue, baseValue, h]

theorem indexValue_congr {index : RegOperand} (h : regs index.loc = regs' index.loc) :
    indexValue regs index = indexValue regs' index := by
  rw [indexValue, indexValue, readReg_congr h]

theorem indirectAddress_congr {indirect : MemoryIndirect}
    (h : ∀ r ∈ optionLocs indirect.base ++ optionLocs indirect.index, regs r = regs' r) :
    indirectAddress regs indirect = indirectAddress regs' indirect := by
  unfold indirectAddress
  cases hbase : indirect.base with
  | none => rfl
  | some base =>
    have hb : regs base.loc = regs' base.loc := h _ (by simp [optionLocs, hbase])
    cases hindex : indirect.index with
    | none => simp only [baseValue_congr hb]
    | some index =>
      have hi : regs index.loc = regs' index.loc := h _ (by simp [optionLocs, hindex])
      simp only [baseValue_congr hb, indexValue_congr hi]

theorem address_congr {operand : Operand}
    (h : ∀ r ∈ addressLocs operand, regs r = regs' r) :
    address regs operand = address regs' operand := by
  cases operand with
  | stack => exact congrArg (fun b => some (b + _)) (h X29 (by simp [addressLocs]))
  | ind indirect => exact indirectAddress_congr h
  | none | reg | mem | imm | label => rfl

theorem loadToReg_congr {out : RegOperand} (h : ∀ r ∈ addressLocs input, regs r = regs' r) :
    loadToReg regs mem out input = loadToReg regs' mem out input := by
  rw [loadToReg, loadToReg, address_congr h]

theorem storeFromReg_congr {type : DataType} {source : RegOperand}
    (haddress : ∀ r ∈ addressLocs output, regs r = regs' r)
    (hsource : regs source.loc = regs' source.loc) :
    storeFromReg regs mem output type source = storeFromReg regs' mem output type source := by
  rw [storeFromReg, storeFromReg, address_congr haddress, hsource, readReg_congr hsource]

theorem moveEffect_congr (haddress : ∀ r ∈ addressLocs output, regs r = regs' r)
    (hinput : ∀ r ∈ inputLocs input, regs r = regs' r) :
    moveEffect regs mem output input = moveEffect regs' mem output input := by
  cases input with
  | reg source =>
    have hsource : regs source.loc = regs' source.loc := hinput _ (by simp [inputLocs])
    cases output with
    | reg out => simp only [moveEffect, readReg_congr hsource]
    | stack | ind => exact storeFromReg_congr haddress hsource
    | mem => simp only [moveEffect, readReg_congr hsource]
    | none | imm | label => rfl
  | stack | ind =>
    cases output with
    | reg out => exact loadToReg_congr hinput
    | none | stack | mem | ind | imm | label => rfl
  | imm =>
    cases output with
    | ind indirect => simp only [moveEffect, indirectAddress_congr haddress]
    | none | reg | stack | mem | imm | label => rfl
  | none | mem | label => cases output <;> rfl

theorem loadPairEffect_congr (h : ∀ r ∈ (inputs.take 2).flatMap inputLocs, regs r = regs' r) :
    loadPairEffect regs mem inputs = loadPairEffect regs' mem inputs := by
  unfold loadPairEffect
  split
  · rename_i base dst0 dst1
    have hbase : regs base.loc = regs' base.loc := h _ (by simp [inputLocs])
    rw [baseValue_congr hbase]
  · rfl

theorem storePairEffect_congr (h : ∀ r ∈ inputs.flatMap inputLocs, regs r = regs' r) :
    storePairEffect regs mem inputs = storePairEffect regs' mem inputs := by
  unfold storePairEffect
  split
  · rename_i base val0 val1
    have hbase : regs base.loc = regs' base.loc := h _ (by simp [inputLocs])
    have hval0 : regs val0.loc = regs' val0.loc := h _ (by simp [inputLocs])
    have hval1 : regs val1.loc = regs' val1.loc := h _ (by simp [inputLocs])
    rw [baseValue_congr hbase, readReg_congr hval0, readReg_congr hval1]
  · rfl

theorem effect_congr {instr : Instruction}
    (h : ∀ r ∈ useLocs instr, regs r = regs' r) :
    effect regs mem instr = effect regs' mem instr := by
  unfold effect
  split
  next input hopcode hinputs =>
    simp only [useLocs, hopcode, hinputs, List.flatMap_cons, List.flatMap_nil,
      List.append_nil, List.mem_append] at h
    exact moveEffect_congr (fun r hr => h r (.inl hr)) fun r hr => h r (.inr hr)
  next hopcode =>
    simp only [useLocs, hopcode] at h
    exact loadPairEffect_congr h
  next hopcode =>
    simp only [useLocs, hopcode, List.mem_append] at h
    exact storePairEffect_congr fun r hr => h r (.inr hr)
  next => rfl

end Congruence

variable {regs : Regs} {mem : Memory} {e : Effect} {input output : Operand}

theorem loadToReg_writes {out : RegOperand} (h : loadToReg regs mem out input = some e) :
    e.writes.map Prod.fst = [out.loc] := by
  unfold loadToReg at h
  split at h
  · obtain ⟨a, -, rfl⟩ := Option.map_eq_some_iff.mp h
    rfl
  · contradiction

theorem storeFromReg_writes {type : DataType} {source : RegOperand}
    (h : storeFromReg regs mem output type source = some e) : e.writes = [] := by
  unfold storeFromReg at h
  split at h
  · obtain ⟨a, -, rfl⟩ := Option.map_eq_some_iff.mp h
    rfl
  · split at h
    · obtain ⟨a, -, rfl⟩ := Option.map_eq_some_iff.mp h
      rfl
    · contradiction

theorem moveEffect_writes (h : moveEffect regs mem output input = some e) :
    e.writes.map Prod.fst = regLocs output := by
  unfold moveEffect at h
  split at h
  · dsimp only at h
    split at h
    · cases h; rfl
    · contradiction
  · exact loadToReg_writes h
  · exact loadToReg_writes h
  · split at h
    · cases h; rfl
    · contradiction
  · rw [storeFromReg_writes h]; rfl
  · split at h
    · cases h; rfl
    · contradiction
  · cases h; rfl
  · rw [storeFromReg_writes h]; rfl
  · obtain ⟨a, -, rfl⟩ := Option.map_eq_some_iff.mp h
    rfl
  · contradiction

theorem effect_writes {instr : Instruction} (h : effect regs mem instr = some e) :
    e.writes.map Prod.fst = defLocs instr := by
  unfold effect at h
  split at h
  next hopcode _ =>
    simp only [defLocs, hopcode]
    exact moveEffect_writes h
  next hopcode =>
    simp only [defLocs, hopcode]
    unfold loadPairEffect at h
    split at h
    next hinputs =>
      dsimp only at h
      split at h
      · obtain ⟨b, -, rfl⟩ := Option.map_eq_some_iff.mp h
        rw [hinputs]
        rfl
      · contradiction
    next => contradiction
  next hopcode =>
    simp only [defLocs, hopcode]
    unfold storePairEffect at h
    split at h
    · split at h
      · obtain ⟨b, -, rfl⟩ := Option.map_eq_some_iff.mp h
        rfl
      · contradiction
    · contradiction
  next => contradiction

theorem applyWrites_agree {live : Set Nat} {writes : List (Nat × BitVec 64)} {regs' : Regs}
    (h : ∀ r ∈ live, r ∉ writes.map Prod.fst → regs r = regs' r) {r : Nat} (hr : r ∈ live) :
    applyWrites regs writes r = applyWrites regs' writes r := by
  induction writes generalizing regs regs' with
  | nil => exact h r hr (by simp)
  | cons write writes ih =>
    refine ih fun r hr hnot => ?_
    rcases eq_or_ne r write.1 with rfl | hne
    · rw [Function.update_self, Function.update_self]
    · rw [Function.update_of_ne hne, Function.update_of_ne hne]
      exact h r hr (by simpa [hne] using hnot)

section Machine

variable {σ ε : Type*}

abbrev State (σ : Type*) := RegState Nat (BitVec 64) (Memory × σ)

abbrev Code (σ ε : Type*) :=
  StraightLine Instruction Nat (BitVec 64) (Memory × σ) ε

def execEffect (s : State σ) (instr : Instruction) : Except (Option ε) (State σ) :=
  match effect s.regs s.rest.1 instr with
  | some e => .ok ⟨applyWrites s.regs e.writes, e.mem, s.rest.2⟩
  | none => .error none

theorem execEffect_agree (instr : Instruction) (live : Set Nat) (s s' : State σ)
    (h : Agree (live \ {r | r ∈ defLocs instr} ∪ {r | r ∈ useLocs instr}) s s') :
    Refines (Agree live) (execEffect s instr : Except (Option ε) (State σ))
      (execEffect s' instr) := by
  have heffect : effect s.regs s.rest.1 instr = effect s'.regs s'.rest.1 instr := by
    rw [h.2]
    exact effect_congr fun r hr => h.1 r (.inr hr)
  unfold execEffect
  rw [← heffect]
  cases he : effect s.regs s.rest.1 instr with
  | none => exact .stuck _
  | some e =>
    refine .ok ⟨fun r hr => ?_, congrArg (fun rest => (e.mem, rest.2)) h.2⟩
    refine applyWrites_agree (fun r hr hnot => h.1 r (.inl ⟨hr, ?_⟩)) hr
    rwa [effect_writes he] at hnot

def code (other : Code σ ε) : Code σ ε where
  exec instr s := if isModelled instr then execEffect s instr else other.exec instr s
  uses instr := if isModelled instr then {r | r ∈ useLocs instr} else other.uses instr
  defs instr := if isModelled instr then {r | r ∈ defLocs instr} else other.defs instr
  exec_agree instr live s s' h := by
    cases hmodelled : isModelled instr with
    | true =>
      simp only [hmodelled, if_true] at h ⊢
      exact execEffect_agree instr live s s' h
    | false =>
      simp only [hmodelled, Bool.false_eq_true, if_false] at h ⊢
      exact other.exec_agree instr live s s' h

end Machine

end CinderX.Jit.Lir.Aarch64
