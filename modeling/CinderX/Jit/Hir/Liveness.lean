import CinderX.Jit.Hir.Function

/-!
# Liveness of HIR registers

What `LivenessAnalysis` ends with: sets of live registers that satisfy the data
flow equations, and the registers that die at each instruction.
-/

namespace CinderX.Jit.Hir

variable {n : Nat}

def BasicBlock.liveOut (block : BasicBlock n) (liveIn : BlockId → Finset (Register n)) :
    Finset (Register n) :=
  block.outEdges.foldl (fun live succ => live ∪ liveIn succ) ∅

namespace Function

def edgeUses (f : Function n) (block : BlockId) (instr : Instr n) : List (Register n) :=
  instr.successors.flatMap fun succ =>
    match f.block? succ with
    | some succBlock => succBlock.phis.filterMap fun phi => phi.phiOperand? block
    | none => []

def instrUses (f : Function n) (block : BlockId) (instr : Instr n) : Finset (Register n) :=
  if instr.isPhi then ∅ else (instr.visitUses ++ f.edgeUses block instr).toFinset

def dyingRegs (f : Function n) (block : BlockId) (instr : Instr n) (live : Finset (Register n)) :
    Finset (Register n) :=
  (instr.output.toFinset \ live) ∪ (f.instrUses block instr \ (live \ instr.output.toFinset))

def liveBefore (f : Function n) (block : BlockId) (instr : Instr n)
    (live : Finset (Register n)) : Finset (Register n) :=
  (live \ instr.output.toFinset) ∪ f.instrUses block instr

def liveBeforeAll (f : Function n) (block : BlockId) (live : Finset (Register n)) :
    List (Instr n) → Finset (Register n)
  | [] => live
  | instr :: rest => f.liveBefore block instr (f.liveBeforeAll block live rest)

end Function

structure LivenessAnalysis (f : Function n) where
  getIn : BlockId → Finset (Register n)
  getIn_eq : ∀ block ∈ f.blocks,
    getIn block.id = f.liveBeforeAll block.id (block.liveOut getIn) block.instrs

/-- An instruction with its entry in `last_uses` and the instruction after it. -/
structure InstrStep (n : Nat) where
  instr : Instr n
  dying : Finset (Register n)
  next : Option (Instr n)
  deriving DecidableEq

namespace Function

def stepsOf (f : Function n) (block : BlockId) (live : Finset (Register n)) :
    List (Instr n) → List (InstrStep n)
  | [] => []
  | instr :: rest =>
    ⟨instr, f.dyingRegs block instr (f.liveBeforeAll block live rest), rest.head?⟩ ::
      f.stepsOf block live rest

end Function

namespace LivenessAnalysis

variable {f : Function n}

def getOut (liveness : LivenessAnalysis f) (block : BasicBlock n) : Finset (Register n) :=
  block.liveOut liveness.getIn

def steps (liveness : LivenessAnalysis f) (block : BasicBlock n) : List (InstrStep n) :=
  f.stepsOf block.id (liveness.getOut block) block.instrs

end LivenessAnalysis

end CinderX.Jit.Hir
