import CinderX.Jit.Hir.Analysis

/-!
# The verifier of HIR functions

`checkFunc` and what it calls, without the messages it prints.  The link from a
register to its instruction is not kept apart from the instruction here, so the
check of that link has nothing to compare.
-/

namespace CinderX.Jit.Hir

open Foundation

variable {n : Nat}

/-- The blocks that a breadth-first search finds, unless it meets one outside the function. -/
def searchBlocks (f : Function n) :
    Nat → List BlockId → List BlockId → Option (List BlockId)
  | _, [], reachable => some reachable
  | 0, _ :: _, _ => none
  | fuel + 1, id :: queue, reachable =>
    match f.block? id with
    | none => none
    | some block =>
      let found := (block.outEdges.filter fun succ => succ ∉ reachable).dedup
      searchBlocks f fuel (queue ++ found) (reachable ++ found)

def reachableBlocks (f : Function n) : Option (List BlockId) :=
  searchBlocks f (f.blocks.length + 1) [f.entryBlock] [f.entryBlock]

def checkCFG (f : Function n) : Bool :=
  match reachableBlocks f with
  | none => false
  | some reachable =>
    f.blocks.all fun block =>
      decide (block.id ∈ reachable) &&
        ((f.inEdges block.id).all fun pred => pred ∈ reachable) &&
        decide (f.inEdges block.id).Nodup

structure CheckEnv (n : Nat) where
  ok : Bool
  /-- The registers that have been defined so far, in any block. -/
  defs : List (Register n)
  /-- The registers that are defined at the current instruction. -/
  defined : Finset (Register n)
  phiSection : Bool
  allowPrologueLoads : Bool

def Instr.isPrologueLoad (instr : Instr n) : Bool :=
  instr.opcode = .kLoadArg || instr.opcode = .kLoadCurrentFunc || instr.opcode = .kLoadFrame

def checkPhi (f : Function n) (block : BlockId) (phi : Instr n) : Bool :=
  decide (phi.operands ≠ []) && phi.basicBlocks.all fun pred => pred ∈ f.inEdges block

def checkOperands (assign : Dataflow.State BlockId (Register n)) (defined : Finset (Register n))
    (instr : Instr n) : Bool :=
  if instr.isPhi then
    (instr.basicBlocks.zip instr.operands).all fun pair => pair.2 ∈ assign.after pair.1
  else instr.operands.all fun operand => operand ∈ defined

def checkInstr (f : Function n) (assign : Dataflow.State BlockId (Register n))
    (block : BlockId) (env : CheckEnv n) (instr : Instr n) (isLast : Bool) : Bool :=
  (!instr.isPhi || checkPhi f block instr) &&
    (!instr.isPrologueLoad || env.allowPrologueLoads) &&
    decide (instr.opcode.isTerminator = isLast) &&
    checkOperands assign env.defined instr &&
    instr.output.all fun output => output ∉ env.defs

def CheckEnv.advance (env : CheckEnv n) (instr : Instr n) : CheckEnv n where
  ok := env.ok
  defs := env.defs ++ instr.output.toList
  defined := env.defined ∪ instr.output.toFinset
  phiSection := env.phiSection && instr.isPhi
  allowPrologueLoads := env.allowPrologueLoads && instr.isPrologueLoad

def checkInstrs (f : Function n) (assign : Dataflow.State BlockId (Register n))
    (block : BlockId) : CheckEnv n → List (Instr n) → CheckEnv n
  | env, [] => env
  | env, instr :: rest =>
    if instr.isPhi && !env.phiSection then
      checkInstrs f assign block { env with ok := false } rest
    else
      checkInstrs f assign block
        { env.advance instr with
          ok := env.ok && checkInstr f assign block env instr rest.isEmpty } rest

def checkBlock (f : Function n) (assign : Dataflow.State BlockId (Register n))
    (env : CheckEnv n) (block : BasicBlock n) : CheckEnv n :=
  if block.instrs.isEmpty then { env with ok := false }
  else
    checkInstrs f assign block.id
      { env with
        defined := assign.before block.id
        phiSection := true
        allowPrologueLoads := block.id = f.entryBlock } block.instrs

/-- Which registers are assigned does not depend on the order of the hash tables. -/
def checkFunc (f : Function n) : Bool :=
  if !checkCFG f then false
  else
    match f.assignmentAnalysis (.ofFunction f) true with
    | none => false
    | some assign => (f.blocks.foldl (checkBlock f assign) ⟨true, [], ∅, true, true⟩).ok

end CinderX.Jit.Hir
