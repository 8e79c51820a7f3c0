import CinderX.Foundation.Basic

/-!
# Flattening a flow graph to bytes

`instrsize`, `flatten_graph` and `make_byte_code` of the 3.12 and 3.14 flow graphs, and
`decode`, which reads code units as the interpreter does.
-/

namespace CinderX.Compiler

/-- What the assembler and the interpreter know of the opcodes.  The static opcodes
have a prefix on 3.14 only, and numbers of their own there. -/
structure Opcodes (Op : Type) where
  isStatic : Op → Bool
  opmap : Op → Nat
  hasJump : Op → Bool
  /-- The jumps whose operand is counted backward. -/
  isBackward : Op → Bool
  inlineCacheEntries : Op → Nat
  END_ASYNC_FOR : Option Op
  numPopped : Op → Nat → Nat
  numPushed : Op → Nat → Fin 4
  EXTENDED_ARG : Nat
  isExtendedArg : Op → Bool
  EXTENDED_OPCODE : Option Nat
  /-- The caches after an opcode number, with the flag of the static ones. -/
  caches : Bool → Nat → Nat
  opmap_extendedArg : ∀ op, opmap op = EXTENDED_ARG ↔ isExtendedArg op
  static_extendedArg : ∀ op, isExtendedArg op → isStatic op = false ∧ inlineCacheEntries op = 0
  opmap_ne_extendedOpcode : ∀ op, isStatic op = false → some (opmap op) ≠ EXTENDED_OPCODE
  extendedArg_ne : some EXTENDED_ARG ≠ EXTENDED_OPCODE
  static_extendedOpcode : ∀ op, isStatic op → EXTENDED_OPCODE.isSome
  caches_opmap : ∀ op, caches (isStatic op) (opmap op) = inlineCacheEntries op

/-- `oparg` stands for the argument the instruction was emitted with, `target` is the id
of a block. -/
structure Inst (Op : Type) where
  opname : Op
  oparg : Nat
  ioparg : Int
  target : Option Nat
  deriving DecidableEq

structure Block (Op : Type) where
  bid : Nat
  insts : List (Inst Op)
  deriving DecidableEq

section Assembler

variable {Op : Type} (opcodes : Opcodes Op)

def getExtOparg (inst : Inst Op) : Nat :=
  opcodes.numPopped inst.opname inst.oparg <<< 2 ||| opcodes.numPushed inst.opname inst.oparg

def extendedCount (oparg : Nat) : Nat :=
  if oparg ≥ 256 then extendedCount (oparg >>> 8) + 1 else 0
termination_by oparg
decreasing_by
  rw [Nat.shiftRight_eq_div_pow]
  omega

def opargSize (oparg : Int) : Nat :=
  if oparg ≤ 0xFF then 1
  else if oparg ≤ 0xFFFF then 2
  else if oparg ≤ 0xFFFFFF then 3
  else 4

def instrsize (inst : Inst Op) (oparg : Int) : Nat :=
  opargSize oparg + opcodes.inlineCacheEntries inst.opname +
    if opcodes.isStatic inst.opname then 1 + extendedCount (getExtOparg opcodes inst) else 0

def instSize (inst : Inst Op) : Nat := instrsize opcodes inst inst.ioparg

def instsSize (insts : List (Inst Op)) : Nat := (insts.map (instSize opcodes)).sum

def blockOffsets : Nat → List (Block Op) → List (Nat × Nat)
  | _, [] => []
  | pc, b :: bs => (b.bid, pc) :: blockOffsets (pc + instsSize opcodes b.insts) bs

def END_SEND_OFFSET : Int := 5

/-- `label_map` of 3.14: the index of each block's first instruction. -/
def labelMap : Nat → List (Block Op) → List (Nat × Nat)
  | _, [] => []
  | offset, b :: bs => (b.bid, offset) :: labelMap (offset + b.insts.length) bs

def initOperand (v314 : Bool) (labels : List (Nat × Nat)) (inst : Inst Op) : Inst Op :=
  if opcodes.hasJump inst.opname then
    { inst with
      ioparg := if v314 then ((inst.target.bind (List.lookup · labels)).getD 0 : Nat) else 0 }
  else inst

/-- The jump operands that the passes start from: zero, and on 3.14 the index of the target. -/
def initOperands (v314 : Bool) (g : List (Block Op)) : List (Block Op) :=
  g.map fun b => ⟨b.bid, b.insts.map (initOperand opcodes v314 (labelMap 0 g))⟩

section Flatten

variable [DecidableEq Op]

/-- `none` is the failed assertion that there is a target, or a target that is not in
the graph. -/
def flattenJump (offsets : List (Nat × Nat)) (inst : Inst Op) (pc : Nat) : Option Int := do
  let target ← inst.target
  let offset ← offsets.lookup target
  let res : Int := ((offset : Int) - pc).natAbs
  return if some inst.opname = opcodes.END_ASYNC_FOR then res - END_SEND_OFFSET else res

def flattenInsts (offsets : List (Nat × Nat)) :
    Nat → List (Inst Op) → Option (List (Inst Op) × Bool)
  | _, [] => some ([], false)
  | pc, inst :: insts => do
      let pc := pc + instSize opcodes inst
      let (insts, recompile) ← flattenInsts offsets pc insts
      if opcodes.hasJump inst.opname then
        let offset ← flattenJump opcodes offsets inst pc
        return ({ inst with ioparg := offset } :: insts,
          recompile || instSize opcodes inst != instrsize opcodes inst offset)
      else return (inst :: insts, recompile)

def flattenBlocks (offsets : List (Nat × Nat)) :
    Nat → List (Block Op) → Option (List (Block Op) × Bool)
  | _, [] => some ([], false)
  | pc, b :: bs => do
      let (insts, recompile) ← flattenInsts opcodes offsets pc b.insts
      let (bs, recompile') ← flattenBlocks offsets (pc + instsSize opcodes b.insts) bs
      return (⟨b.bid, insts⟩ :: bs, recompile || recompile')

def flattenStep (g : List (Block Op)) : Option (List (Block Op) × Bool) :=
  flattenBlocks opcodes (blockOffsets opcodes 0 g) 0 g

inductive FlattensTo : List (Block Op) → List (Block Op) → Prop
  | done {g g'} (h : flattenStep opcodes g = some (g', false)) : FlattensTo g g'
  | again {g g' g''} (h : flattenStep opcodes g = some (g', true)) (h' : FlattensTo g' g'') :
      FlattensTo g g''

end Flatten

def flatInsts (g : List (Block Op)) : List (Inst Op) := g.flatMap (·.insts)

def extendedUnits (oparg : Nat) : List (Nat × Nat) :=
  (if oparg > 0xFFFFFF then [(opcodes.EXTENDED_ARG, (oparg >>> 24) &&& 0xFF)] else []) ++
  (if oparg > 0xFFFF then [(opcodes.EXTENDED_ARG, (oparg >>> 16) &&& 0xFF)] else []) ++
  if oparg > 0xFF then [(opcodes.EXTENDED_ARG, (oparg >>> 8) &&& 0xFF)] else []

def prefixUnits (inst : Inst Op) : Option (List (Nat × Nat)) :=
  if opcodes.isStatic inst.opname then
    opcodes.EXTENDED_OPCODE.map fun opcode =>
      extendedUnits opcodes (getExtOparg opcodes inst) ++
        [(opcode, (getExtOparg opcodes inst) &&& 0xFF)]
  else some []

/-- `none` is a failed assertion about the oparg or the opcode. -/
def instUnits (inst : Inst Op) : Option (List (Nat × Nat)) := do
  let units ← prefixUnits opcodes inst
  if (0 ≤ inst.ioparg ∧ inst.ioparg ≤ 0xFFFFFFFF) ∧ opcodes.opmap inst.opname < 256 then
    let oparg := inst.ioparg.toNat
    return units ++ extendedUnits opcodes oparg ++
      [(opcodes.opmap inst.opname, oparg &&& 0xFF)] ++
      List.replicate (opcodes.inlineCacheEntries inst.opname) (0, 0)
  else none

def codeUnits : List (Inst Op) → Option (List (Nat × Nat))
  | [] => some []
  | inst :: insts => do
      let units ← instUnits opcodes inst
      let rest ← codeUnits insts
      return units ++ rest

def makeByteCode (g : List (Block Op)) : Option (List Nat) :=
  (codeUnits opcodes (flatInsts g)).map (·.flatMap fun u => [u.1, u.2])

structure Decoded where
  isStatic : Bool
  opcode : Nat
  oparg : Nat
  extOparg : Nat
  deriving DecidableEq, Repr

def extend (oparg byte : Nat) : Nat := (oparg <<< 8 ||| byte) % 2 ^ 32

def skipCaches (d : Decoded) (units : List (Nat × Nat)) : Decoded × List (Nat × Nat) :=
  (d, units.drop (opcodes.caches d.isStatic d.opcode))

def decodeExtended (extOparg : Nat) : Nat → List (Nat × Nat) →
    Option (Decoded × List (Nat × Nat))
  | _, [] => none
  | oparg, (opcode, byte) :: units =>
    if opcode = opcodes.EXTENDED_ARG then decodeExtended extOparg (extend oparg byte) units
    else some (skipCaches opcodes ⟨true, opcode, extend oparg byte, extOparg⟩ units)

def decodeInst : Nat → List (Nat × Nat) → Option (Decoded × List (Nat × Nat))
  | _, [] => none
  | oparg, (opcode, byte) :: units =>
    if opcode = opcodes.EXTENDED_ARG then decodeInst (extend oparg byte) units
    else if some opcode = opcodes.EXTENDED_OPCODE then
      decodeExtended opcodes (extend oparg byte) 0 units
    else some (skipCaches opcodes ⟨false, opcode, extend oparg byte, 0⟩ units)

theorem length_decodeExtended (extOparg : Nat) (units : List (Nat × Nat)) :
    ∀ {oparg : Nat} {r : Decoded × List (Nat × Nat)},
      decodeExtended opcodes extOparg oparg units = some r → r.2.length < units.length := by
  induction units with
  | nil => exact nofun
  | cons unit units ih =>
    intro oparg r h
    simp only [decodeExtended] at h
    split at h
    · have hlt := ih h
      exact Nat.lt_succ_of_lt hlt
    · cases h
      simp only [skipCaches, List.length_drop, List.length_cons]
      omega

theorem length_decodeInst (units : List (Nat × Nat)) :
    ∀ {oparg : Nat} {r : Decoded × List (Nat × Nat)},
      decodeInst opcodes oparg units = some r → r.2.length < units.length := by
  induction units with
  | nil => exact nofun
  | cons unit units ih =>
    intro oparg r h
    simp only [decodeInst] at h
    split at h
    · have hlt := ih h
      exact Nat.lt_succ_of_lt hlt
    split at h
    · have hlt := length_decodeExtended opcodes _ units h
      exact Nat.lt_succ_of_lt hlt
    · cases h
      simp only [skipCaches, List.length_drop, List.length_cons]
      omega

def decodeUnits (units : List (Nat × Nat)) : Option (List Decoded) :=
  if units = [] then some []
  else
    match _h : decodeInst opcodes 0 units with
    | none => none
    | some (inst, rest) => (decodeUnits rest).map (inst :: ·)
termination_by units.length
decreasing_by exact length_decodeInst opcodes units _h

def unitsOf : List Nat → Option (List (Nat × Nat))
  | [] => some []
  | [_] => none
  | opcode :: oparg :: bytes => (unitsOf bytes).map ((opcode, oparg) :: ·)

def decode (bytes : List Nat) : Option (List Decoded) :=
  (unitsOf bytes).bind (decodeUnits opcodes)

end Assembler

end CinderX.Compiler
