import CinderX.Compiler.JumpDirections

/-!
# The assembled code

From a graph whose jumps have been directed, flattening and `make_byte_code` give bytes
that are decoded as the instructions, with every jump at its target.
-/

namespace CinderX.Compiler

open List

variable {Op : Type}

section Offsets

variable {opcodes : Opcodes Op}

theorem blockOffset_le (g : List (Block Op)) {j k : Nat} (h : j ≤ k) :
    blockOffset opcodes g j ≤ blockOffset opcodes g k := by
  obtain ⟨n, rfl⟩ := Nat.exists_eq_add_of_le h
  simp [blockOffset, codeSize, take_add]

variable {g : List (Block Op)} {k i : Nat} {b : Block Op}

theorem blockOffset_succ (h : g[k]? = some b) :
    blockOffset opcodes g (k + 1) = blockOffset opcodes g k + instsSize opcodes b.insts := by
  simp [blockOffset, codeSize, take_add_one, h]

theorem instsSize_take_le (insts : List (Inst Op)) (i : Nat) :
    instsSize opcodes (insts.take i) ≤ instsSize opcodes insts := by
  conv_rhs => rw [← take_append_drop i insts]
  rw [instsSize, instsSize, map_append, sum_append]
  exact Nat.le_add_right ..

theorem instsSize_take_succ {insts : List (Inst Op)} {inst : Inst Op} (h : insts[i]? = some inst) :
    instsSize opcodes (insts.take (i + 1)) =
      instsSize opcodes (insts.take i) + instSize opcodes inst := by
  simp [instsSize, take_add_one, h]

def jumpEnd (opcodes : Opcodes Op) (g : List (Block Op)) (k i : Nat) (b : Block Op) : Nat :=
  blockOffset opcodes g k + instsSize opcodes (b.insts.take (i + 1))

theorem blockOffset_le_jumpEnd (g : List (Block Op)) (k i : Nat) (b : Block Op) :
    blockOffset opcodes g k ≤ jumpEnd opcodes g k i b := Nat.le_add_right ..

theorem jumpEnd_le_blockOffset
    (h : g[k]? = some b) : jumpEnd opcodes g k i b ≤ blockOffset opcodes g (k + 1) := by
  rw [blockOffset_succ h]
  exact Nat.add_le_add_left (instsSize_take_le b.insts (i + 1)) _

end Offsets

section Cores

variable (opcodes : Opcodes Op)

@[simp]
theorem Inst.core_opname (inst : Inst Op) : (inst.core opcodes).opname = inst.opname := by
  unfold Inst.core
  split <;> rfl

@[simp]
theorem Inst.core_target (inst : Inst Op) : (inst.core opcodes).target = inst.target := by
  unfold Inst.core
  split <;> rfl

end Cores

/-- How much shorter than the distance the operand of `END_ASYNC_FOR` is. -/
def shortfall [DecidableEq Op] (opcodes : Opcodes Op) (inst : Inst Op) : Int :=
  if some inst.opname = opcodes.END_ASYNC_FOR then END_SEND_OFFSET else 0

/-- Where a jump's operand leads from its end: to the start of the block that it names. -/
def JumpLands [DecidableEq Op] (opcodes : JumpOpcodes Op) (code : List (Block Op)) (k i : Nat)
    (b : Block Op) (inst : Inst Op) : Prop :=
  ∃ j target, code[j]? = some target ∧ inst.target = some target.bid ∧
    if opcodes.isBackward inst.opname then
      (jumpEnd opcodes.toOpcodes code k i b : Int) =
        blockOffset opcodes.toOpcodes code j + inst.ioparg + shortfall opcodes.toOpcodes inst
    else
      (jumpEnd opcodes.toOpcodes code k i b : Int) + inst.ioparg +
          shortfall opcodes.toOpcodes inst = blockOffset opcodes.toOpcodes code j

structure Assembled [DecidableEq Op] (opcodes : JumpOpcodes Op) (g : List (LinkedBlock Op))
    (code : List (Block Op)) (bytes : List Nat) : Prop where
  insts : code.map (Block.core opcodes.toOpcodes) =
    (g.map LinkedBlock.block).map (Block.core opcodes.toOpcodes)
  nonneg : ∀ inst ∈ flatInsts code, 0 ≤ inst.ioparg
  length : bytes.length = 2 * instsSize opcodes.toOpcodes (flatInsts code)
  decode : ∀ i,
    decode opcodes.toOpcodes
        (bytes.drop (2 * instsSize opcodes.toOpcodes ((flatInsts code).take i))) =
      some (decodedInsts opcodes.toOpcodes ((flatInsts code).drop i))
  decode_block : ∀ k,
    Compiler.decode opcodes.toOpcodes
        (bytes.drop (2 * blockOffset opcodes.toOpcodes code k)) =
      some (decodedInsts opcodes.toOpcodes (flatInsts (code.drop k)))
  jump : ∀ k b i inst, code[k]? = some b → b.insts[i]? = some inst →
    opcodes.hasJump inst.opname → JumpLands opcodes code k i b inst

variable [DecidableEq Op] {opcodes : JumpOpcodes Op}

theorem flattened_jump {g : List (LinkedBlock Op)} {code : List (Block Op)}
    (hdirected : Directed opcodes.toOpcodes (fun _ => False) [] g) (hnodup : (bids g).Nodup)
    (hcore : code.map (Block.core opcodes.toOpcodes) =
      (g.map LinkedBlock.block).map (Block.core opcodes.toOpcodes))
    (hflat : ∀ k b, code[k]? = some b → JumpsFlat opcodes.toOpcodes
      (blockOffsets opcodes.toOpcodes 0 code) (blockOffset opcodes.toOpcodes code k) b.insts)
    {k i : Nat} {b : Block Op} {inst : Inst Op} (hk : code[k]? = some b)
    (hi : b.insts[i]? = some inst) (hjump : opcodes.hasJump inst.opname) :
    JumpLands opcodes code k i b inst := by
  -- the block and the instruction of the graph
  have hcoreAt : ∀ k : Nat, (code[k]?).map (Block.core opcodes.toOpcodes) =
      (g[k]?).map fun b => Block.core opcodes.toOpcodes b.block := by
    intro k
    have hat := congrArg (·[k]?) hcore
    simpa [Function.comp_def] using hat
  obtain ⟨b₀, hb₀, hblock⟩ : ∃ b₀, g[k]? = some b₀ ∧
      Block.core opcodes.toOpcodes b₀.block = Block.core opcodes.toOpcodes b := by
    have hat := hcoreAt k
    rw [hk] at hat
    exact Option.map_eq_some_iff.mp hat.symm
  obtain ⟨inst₀, hinst₀, hinst⟩ : ∃ inst₀, inst₀ ∈ b₀.insts ∧
      Inst.core opcodes.toOpcodes inst₀ = Inst.core opcodes.toOpcodes inst := by
    have hinsts : b₀.insts.map (Inst.core opcodes.toOpcodes) =
        b.insts.map (Inst.core opcodes.toOpcodes) := (Block.mk.inj hblock).2
    have hmem : Inst.core opcodes.toOpcodes inst ∈
        b₀.insts.map (Inst.core opcodes.toOpcodes) :=
      hinsts ▸ List.mem_map_of_mem (mem_of_getElem? hi)
    exact List.mem_map.mp hmem
  have hopname : inst₀.opname = inst.opname := by
    simpa using congrArg Inst.opname hinst
  have htarget₀ : inst₀.target = inst.target := by
    simpa using congrArg Inst.target hinst
  obtain ⟨j, b₁, hj, htarget, hway⟩ := hdirected.target_index hb₀ hinst₀ (hopname ▸ hjump)
  obtain ⟨target, hcode, htargetCore⟩ : ∃ target, code[j]? = some target ∧
      Block.core opcodes.toOpcodes target = Block.core opcodes.toOpcodes b₁.block := by
    have hat := hcoreAt j
    rw [hj] at hat
    exact Option.map_eq_some_iff.mp hat
  have hbid : target.bid = b₁.bid := (Block.mk.inj htargetCore).1
  rw [htarget₀, ← hbid] at htarget
  rw [hopname] at hway
  -- the offset that `flatten_jump` has used
  have hcodeNodup : (code.map (·.bid)).Nodup := by
    have hbids : code.map (·.bid) = bids g := by
      have hmap := congrArg (List.map Block.bid) hcore
      simpa [Function.comp_def, Block.core, LinkedBlock.block, bids] using hmap
    rw [hbids]
    exact hnodup
  have hoperand := hflat k b hk i inst hi hjump
  unfold flattenJump at hoperand
  rw [htarget] at hoperand
  simp only [Option.bind_eq_bind, Option.bind_some] at hoperand
  rw [lookup_blockOffsets code hcodeNodup hcode, Option.bind_some, Nat.zero_add, Nat.add_assoc,
    ← instsSize_take_succ hi] at hoperand
  have hdistance : inst.ioparg + shortfall opcodes.toOpcodes inst =
      ((blockOffset opcodes.toOpcodes code j : Int) -
        jumpEnd opcodes.toOpcodes code k i b).natAbs := by
    have hoperand := Option.some.inj hoperand
    unfold shortfall jumpEnd
    split at hoperand
    next hend =>
      rw [if_pos hend]
      omega
    next hend =>
      rw [if_neg hend]
      omega
  refine ⟨j, target, hcode, htarget, ?_⟩
  split at hway
  next hback =>
    have hle : blockOffset opcodes.toOpcodes code j ≤ jumpEnd opcodes.toOpcodes code k i b :=
      Nat.le_trans (blockOffset_le code hway) (blockOffset_le_jumpEnd code k i b)
    rw [if_pos hback]
    omega
  next hback =>
    have hle : jumpEnd opcodes.toOpcodes code k i b ≤ blockOffset opcodes.toOpcodes code j :=
      Nat.le_trans (jumpEnd_le_blockOffset hk) (blockOffset_le code hway)
    rw [if_neg hback]
    omega

/-- Directing the jumps, flattening and writing the bytes: what is decoded is what was
assembled. -/
theorem assembled_code_decodes {v314 : Bool} {fresh : Nat} {g g₁ : List (LinkedBlock Op)}
    {code : List (Block Op)} {bytes : List Nat} (hready : Ready opcodes [] g)
    (hnodup : (bids g).Nodup) (hfresh : ∀ bid ∈ bids g, bid < fresh)
    (hdirect : directJumps opcodes v314 fresh g = some g₁)
    (hflat : FlattensTo opcodes.toOpcodes
      (initOperands opcodes.toOpcodes v314 (g₁.map LinkedBlock.block)) code)
    (hfits : ExtendedFits opcodes.toOpcodes (flatInsts code))
    (hempty : PrefixesEmpty opcodes.toOpcodes (flatInsts code))
    (hbytes : makeByteCode opcodes.toOpcodes code = some bytes) :
    Assembled opcodes g₁ code bytes := by
  obtain ⟨hlength, hnonneg, hdecode⟩ := makeByteCode_spec hfits hempty hbytes
  obtain ⟨hdirected, hnodup₁⟩ := directJumps_directed hready hnodup hfresh hdirect
  have hcore := hflat.core.trans (initOperands_core v314 (g₁.map LinkedBlock.block))
  refine ⟨hcore, hnonneg, hlength, hdecode, fun k => ?_, fun k b i inst hk hi hjump =>
    flattened_jump hdirected hnodup₁ hcore hflat.jumpsFlat hk hi hjump⟩
  have hat := hdecode (flatInsts (code.take k)).length
  have hsplit : flatInsts code = flatInsts (code.take k) ++ flatInsts (code.drop k) := by
    unfold flatInsts
    rw [← flatMap_append, take_append_drop]
  rw [hsplit, take_left, drop_left, instsSize_flatInsts] at hat
  exact hat

/-! ## Some opcodes of 3.14 -/

inductive SampleOp
  | JUMP
  | JUMP_NO_INTERRUPT
  | JUMP_FORWARD
  | JUMP_BACKWARD
  | JUMP_BACKWARD_NO_INTERRUPT
  | NOT_TAKEN
  | POP_JUMP_IF_FALSE
  | POP_JUMP_IF_TRUE
  | FOR_ITER
  | END_ASYNC_FOR
  | EXTENDED_ARG
  | LOAD_FAST
  | BUILD_CHECKED_LIST
  deriving DecidableEq

namespace SampleOp

def opmap : SampleOp → Nat
  | JUMP => 260
  | JUMP_NO_INTERRUPT => 261
  | JUMP_FORWARD => 77
  | JUMP_BACKWARD => 75
  | JUMP_BACKWARD_NO_INTERRUPT => 76
  | NOT_TAKEN => 28
  | POP_JUMP_IF_FALSE => 100
  | POP_JUMP_IF_TRUE => 103
  | FOR_ITER => 70
  | END_ASYNC_FOR => 68
  | EXTENDED_ARG => 69
  | LOAD_FAST => 84
  | BUILD_CHECKED_LIST => 9

def hasJump : SampleOp → Bool
  | NOT_TAKEN | EXTENDED_ARG | LOAD_FAST | BUILD_CHECKED_LIST => false
  | _ => true

def isBackward : SampleOp → Bool
  | JUMP_BACKWARD | JUMP_BACKWARD_NO_INTERRUPT | END_ASYNC_FOR => true
  | _ => false

def inlineCacheEntries : SampleOp → Nat
  | JUMP_BACKWARD | POP_JUMP_IF_FALSE | POP_JUMP_IF_TRUE | FOR_ITER => 1
  | _ => 0

def numPopped : SampleOp → Nat → Nat
  | BUILD_CHECKED_LIST, oparg => oparg
  | END_ASYNC_FOR, _ => 2
  | POP_JUMP_IF_FALSE, _ | POP_JUMP_IF_TRUE, _ | FOR_ITER, _ => 1
  | _, _ => 0

def numPushed : SampleOp → Nat → Fin 4
  | BUILD_CHECKED_LIST, _ | LOAD_FAST, _ => 1
  | FOR_ITER, _ => 2
  | _, _ => 0

def reversedJumps : SampleOp → Option SampleOp
  | POP_JUMP_IF_FALSE => some POP_JUMP_IF_TRUE
  | POP_JUMP_IF_TRUE => some POP_JUMP_IF_FALSE
  | _ => none

end SampleOp

def sampleOpcodes : JumpOpcodes SampleOp where
  isStatic op := op = .BUILD_CHECKED_LIST
  opmap := SampleOp.opmap
  hasJump := SampleOp.hasJump
  isBackward := SampleOp.isBackward
  inlineCacheEntries := SampleOp.inlineCacheEntries
  END_ASYNC_FOR := some .END_ASYNC_FOR
  numPopped := SampleOp.numPopped
  numPushed := SampleOp.numPushed
  EXTENDED_ARG := 69
  isExtendedArg op := op = .EXTENDED_ARG
  EXTENDED_OPCODE := some 126
  caches _ opcode := if opcode ∈ [75, 100, 103, 70] then 1 else 0
  opmap_extendedArg op := by cases op <;> decide
  static_extendedArg op := by cases op <;> decide
  opmap_ne_extendedOpcode op := by cases op <;> decide
  extendedArg_ne := by decide
  static_extendedOpcode op := by cases op <;> decide
  caches_opmap op := by cases op <;> decide
  JUMP := .JUMP
  JUMP_NO_INTERRUPT := .JUMP_NO_INTERRUPT
  JUMP_FORWARD := .JUMP_FORWARD
  JUMP_BACKWARD := .JUMP_BACKWARD
  JUMP_BACKWARD_NO_INTERRUPT := .JUMP_BACKWARD_NO_INTERRUPT
  NOT_TAKEN := .NOT_TAKEN
  reversedJumps := SampleOp.reversedJumps
  isBackward_forward := rfl
  isBackward_backward := rfl
  isBackward_noInterrupt := rfl
  hasJump_jump := ⟨rfl, rfl⟩
  hasJump_notTaken := rfl
  reversedJumps_spec op op' := by cases op <;> cases op' <;> decide

def sampleLoop : List (LinkedBlock SampleOp) :=
  [⟨0, [⟨.LOAD_FAST, 3, 3, none⟩, ⟨.POP_JUMP_IF_FALSE, 0, 0, some 0⟩], some 1⟩,
    ⟨1, [⟨.EXTENDED_ARG, 0, 0, none⟩, ⟨.BUILD_CHECKED_LIST, 300, 5, none⟩,
      ⟨.JUMP, 0, 0, some 0⟩], none⟩]

def sampleDirected (ahead back back' : Int) : List (LinkedBlock SampleOp) :=
  [⟨0, [⟨.LOAD_FAST, 3, 3, none⟩, ⟨.POP_JUMP_IF_TRUE, 0, ahead, some 1⟩], some 2⟩,
    ⟨2, [⟨.NOT_TAKEN, 0, 0, none⟩, ⟨.JUMP_BACKWARD, 0, back, some 0⟩], some 1⟩,
    ⟨1, [⟨.EXTENDED_ARG, 0, 0, none⟩, ⟨.BUILD_CHECKED_LIST, 300, 5, none⟩,
      ⟨.JUMP_BACKWARD, 0, back', some 0⟩], none⟩]

def sampleBytes : List Nat :=
  [84, 3, 103, 3, 0, 0, 28, 0, 75, 6, 0, 0, 69, 0, 69, 4, 126, 177, 9, 5, 75, 12, 0, 0]

theorem assembled_code_decodes_sample :
    Assembled sampleOpcodes (sampleDirected 0 0 0)
      ((sampleDirected 3 6 12).map LinkedBlock.block) sampleBytes := by
  have hready : Ready sampleOpcodes [] sampleLoop := by
    refine ⟨⟨jumpsTo_of_no_jump (by decide), ?_⟩, ⟨jumpsTo_of_no_jump (by decide), ?_⟩, trivial⟩
    · intro last hlast _
      cases hlast
      exact ⟨0, rfl, by decide, by decide⟩
    · intro last hlast _
      cases hlast
      exact ⟨0, rfl, by decide, by decide⟩
  refine @assembled_code_decodes _ _ sampleOpcodes true 2 sampleLoop _ _ _ hready (by decide)
    (by decide) rfl (.done (by decide +kernel)) ?_ ?_ (by decide)
  · unfold ExtendedFits
    decide
  · simp [PrefixesEmpty, flatInsts, sampleDirected, LinkedBlock.block, sampleOpcodes]

/-- The graph with the one block `insts` is assembled, as `insts'` and in `bytes`. -/
def SampleAssembled (insts insts' : List (Inst SampleOp)) (bytes : List Nat) : Prop :=
  directJumps sampleOpcodes true 1 [⟨0, insts, none⟩] = some [⟨0, insts, none⟩] ∧
    FlattensTo sampleOpcodes.toOpcodes
      (initOperands sampleOpcodes.toOpcodes true [⟨0, insts⟩]) [⟨0, insts'⟩] ∧
    makeByteCode sampleOpcodes.toOpcodes [⟨0, insts'⟩] = some bytes

/-- Where the code is not what the graph says: the operand of `END_ASYNC_FOR` is not its
distance, a `FOR_ITER` to a block that does not lie ahead of it jumps ahead, an
`EXTENDED_ARG` is not decoded as an instruction, and a static instruction with too long
an extended oparg has fewer units than its size. -/
theorem assembled_code_exceptions :
    (∃ insts insts' bytes, SampleAssembled insts insts' bytes ∧
      insts'[5]? = some ⟨.END_ASYNC_FOR, 0, 1, some 0⟩ ∧
      jumpEnd sampleOpcodes.toOpcodes [⟨0, insts'⟩] 0 5 ⟨0, insts'⟩ - 1 ≠
        blockOffset sampleOpcodes.toOpcodes [⟨0, insts'⟩] 0) ∧
    (∃ insts insts' bytes, SampleAssembled insts insts' bytes ∧
      insts'[0]? = some ⟨.FOR_ITER, 0, 2, some 0⟩ ∧
      jumpEnd sampleOpcodes.toOpcodes [⟨0, insts'⟩] 0 0 ⟨0, insts'⟩ + 2 ≠
        blockOffset sampleOpcodes.toOpcodes [⟨0, insts'⟩] 0) ∧
    (∃ insts bytes, SampleAssembled insts insts bytes ∧
      decode sampleOpcodes.toOpcodes bytes ≠
        some (insts.map (Inst.decoded sampleOpcodes.toOpcodes))) ∧
    ∃ insts bytes, SampleAssembled insts insts bytes ∧
      bytes.length ≠ 2 * instsSize sampleOpcodes.toOpcodes insts := by
  refine ⟨⟨replicate 5 ⟨.LOAD_FAST, 0, 0, none⟩ ++ [⟨.END_ASYNC_FOR, 0, 0, some 0⟩],
      replicate 5 ⟨.LOAD_FAST, 0, 0, none⟩ ++ [⟨.END_ASYNC_FOR, 0, 1, some 0⟩],
      [84, 0, 84, 0, 84, 0, 84, 0, 84, 0, 68, 1], ?_, rfl, by decide⟩,
    ⟨[⟨.FOR_ITER, 0, 0, some 0⟩], [⟨.FOR_ITER, 0, 2, some 0⟩], [70, 2, 0, 0], ?_, rfl, by decide⟩,
    ⟨[⟨.EXTENDED_ARG, 0, 0, none⟩, ⟨.LOAD_FAST, 3, 3, none⟩], [69, 0, 84, 3], ?_,
      by decide +kernel⟩,
    [⟨.BUILD_CHECKED_LIST, 2 ^ 30, 5, none⟩], [69, 0, 69, 0, 69, 0, 126, 1, 9, 5], ?_,
      by decide +kernel⟩
  all_goals exact ⟨by decide, .done (by decide), by decide⟩

end CinderX.Compiler
