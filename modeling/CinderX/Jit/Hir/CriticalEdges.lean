import CinderX.Jit.Hir.TrampolinesSound

/-!
# Critical edges

`CFG::splitCriticalEdges`: every edge from a block with several edges out of it to a block with
several edges into it gets a block of its own.  Bytecode offsets are not kept.
-/

namespace CinderX.Jit.Hir

variable {n : Nat}

namespace Instr

def setArg (args : List (BlockId × Register n)) (arg : BlockId × Register n) :
    List (BlockId × Register n) :=
  arg :: args.filter fun other => other.1 ≠ arg.1

/-- The arguments in the order of their blocks; operands without one stay. -/
def setArgs (phi : Instr n) (args : List (BlockId × Register n)) : Instr n :=
  let sorted := args.insertionSort fun arg other => arg.1 ≤ other.1
  { phi with
    basicBlocks := sorted.map Prod.fst
    operands := sorted.map Prod.snd ++ phi.operands.drop args.length }

def fixupPhi (oldPred newPred : BlockId) (phi : Instr n) : Instr n :=
  phi.setArgs ((phi.basicBlocks.zip phi.operands).foldl
    (fun args arg => setArg args (if arg.1 = oldPred then newPred else arg.1, arg.2)) [])

def setTo (index : Nat) (target : BlockId) (instr : Instr n) : Instr n :=
  { instr with successors := instr.successors.set index target }

end Instr

namespace BasicBlock

def fixupPhis (oldPred newPred : BlockId) (block : BasicBlock n) : BasicBlock n :=
  ⟨block.id, block.phis.map (Instr.fixupPhi oldPred newPred) ++ block.body⟩

def setTo (index : Nat) (target : BlockId) (block : BasicBlock n) : BasicBlock n :=
  ⟨block.id,
    block.instrs.dropLast ++ (block.terminator?.map (Instr.setTo index target)).toList⟩

def splitEdge (pred : BlockId) (index : Nat) (succ split : BlockId) (block : BasicBlock n) :
    BasicBlock n :=
  let block := if block.id = pred then block.setTo index split else block
  if block.id = succ then block.fixupPhis pred split else block

variable (pred : BlockId) (index : Nat) (succ split : BlockId) (block : BasicBlock n)

@[simp]
theorem id_splitEdge : (block.splitEdge pred index succ split).id = block.id := by
  simp only [splitEdge]
  split <;> split <;> rfl

end BasicBlock

def Instr.branchTo (target : BlockId) : Instr n := { opcode := .kBranch, successors := [target] }

namespace Function

def edgeTo? (f : Function n) (edge : BlockId × Nat) : Option BlockId := do
  let block ← f.block? edge.1
  let term ← block.terminator?
  term.successors[edge.2]?

def criticalEdges (f : Function n) : List (BlockId × Nat) :=
  f.blocks.flatMap fun block =>
    match block.terminator? with
    | none => []
    | some term =>
      if term.numEdges < 2 then []
      else ((List.range term.numEdges).filter fun i =>
        term.successors[i]?.any fun succ => 1 < (f.inEdges succ).length).map fun i => (block.id, i)

def splitEdge (f : Function n) (pred : BlockId) (index : Nat) (succ split : BlockId)
    (hfresh : split ∉ f.blockIds) : Function n where
  blocks := f.blocks.map (BasicBlock.splitEdge pred index succ split) ++
    [⟨split, [Instr.branchTo succ]⟩]
  entryBlock := f.entryBlock
  nodupIds := by
    rw [List.map_append, List.map_map]
    have hids : BasicBlock.id ∘ BasicBlock.splitEdge (n := n) pred index succ split =
        BasicBlock.id := by
      funext block
      simp
    rw [hids]
    exact f.nodupIds.append (by simp) (by simpa [blockIds] using hfresh)
  couldBeMortal := f.couldBeMortal
  isObject := f.isObject
  couldBeCPtr := f.couldBeCPtr

end Function

structure CFG (n : Nat) extends Function n where
  nextBlockId : BlockId
  fresh : ∀ id ∈ toFunction.blockIds, id < nextBlockId

namespace CFG

variable (cfg : CFG n)

theorem nextBlockId_not_mem : cfg.nextBlockId ∉ cfg.blockIds :=
  fun h => lt_irrefl _ (cfg.fresh _ h)

theorem mem_blockIds_splitEdge {f : Function n} {pred : BlockId} {index : Nat}
    {succ split : BlockId} {hfresh : split ∉ f.blockIds} {id : BlockId} :
    id ∈ (f.splitEdge pred index succ split hfresh).blockIds ↔ id ∈ f.blockIds ∨ id = split := by
  simp [Function.blockIds, Function.splitEdge]

def splitEdge (edge : BlockId × Nat) : CFG n :=
  match cfg.edgeTo? edge with
  | none => cfg
  | some succ => {
      toFunction :=
        cfg.toFunction.splitEdge edge.1 edge.2 succ cfg.nextBlockId cfg.nextBlockId_not_mem
      nextBlockId := cfg.nextBlockId + 1
      fresh := by
        intro id hid
        rcases mem_blockIds_splitEdge.mp hid with hid | rfl
        · exact Nat.lt_succ_of_lt (cfg.fresh id hid)
        · exact Nat.lt_succ_self _ }

def splitCriticalEdges : CFG n := cfg.criticalEdges.foldl splitEdge cfg

end CFG

end CinderX.Jit.Hir
