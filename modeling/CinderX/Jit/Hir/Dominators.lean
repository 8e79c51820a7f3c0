import CinderX.Foundation.DepthFirst
import CinderX.Foundation.DominatorTree
import CinderX.Jit.Hir.Cfg

/-!
# The dominator analysis

`DominatorAnalysis` in `analysis.cpp`, with the traversals of `cfg.cpp` that it uses.  Blocks are
known by their numbers.  The functions are `none` where a check fails, where a null pointer is
followed, and where their loops take more rounds than they are given.
-/

namespace CinderX.Jit.Hir

open Foundation

variable {n : Nat}

/-- The blocks that `postorder_traverse` goes to from a terminator, `false_bb` before `true_bb`. -/
def Instr.targets (instr : Instr n) : Option (List BlockId) :=
  match instr.opcode with
  | .kCondBranch | .kCondBranchIterNotDone | .kCondBranchCheckType => some instr.successors.reverse
  | .kBranch => some instr.successors
  | .kDeopt | .kRaise | .kRaiseAwaitableError | .kRaiseStatic | .kUnreachable | .kReturn => some []
  | _ => none

namespace Function

variable (f : Function n)

def targets (id : BlockId) : Option (List BlockId) := do
  (← (← f.block? id).terminator?).targets

def postorder_traverse :
    Nat → BlockId → DepthFirst.Progress BlockId → Option (DepthFirst.Progress BlockId) :=
  DepthFirst.visit f.targets

def GetPostOrderTraversal (fuel : Nat) (start : BlockId) : Option (List BlockId) := do
  return (← f.postorder_traverse fuel start {}).traversal

def GetRPOTraversal (fuel : Nat) : Option (List BlockId) := do
  return (← f.GetPostOrderTraversal fuel f.entryBlock).reverse

/-- The order in which the set `in_edges()` of a block is gone through. -/
structure EdgeOrder where
  in_edges : BlockId → List BlockId
  perm : ∀ id, (in_edges id).Perm (f.inEdges id)

end Function

structure DominatorAnalysis where
  idoms_ : BlockId → Option BlockId
  dom_sets_ : BlockId → Finset BlockId

namespace DominatorAnalysis

/-- The map `rpo_index`; looking up a block that it does not have gives zero. -/
def rpoIndex (rpo : List BlockId) (id : BlockId) : Nat := if id ∈ rpo then rpo.idxOf id else 0

section Loops

variable (rpo_index : BlockId → Nat) (idoms : BlockId → Option BlockId)

def firstProcessed : List BlockId → Option (BlockId × List BlockId)
  | [] => none
  | pred1 :: rest => if (idoms pred1).isSome then some (pred1, rest) else firstProcessed rest

/-- `while (rpo_index[limit] < rpo_index[pred]) pred = idoms_[pred]`. -/
def climb (limit : BlockId) : Nat → BlockId → Option BlockId
  | 0, pred => if rpo_index limit < rpo_index pred then none else some pred
  | fuel + 1, pred =>
    if rpo_index limit < rpo_index pred then do climb limit fuel (← idoms pred) else some pred

def intersect : Nat → BlockId → BlockId → Option BlockId
  | 0, _, _ => none
  | fuel + 1, pred1, pred2 => do
      let pred2 ← climb rpo_index idoms pred1 fuel pred2
      let pred1 ← climb rpo_index idoms pred2 fuel pred1
      if pred1 = pred2 then some pred1 else intersect fuel pred1 pred2

def commonPred (fuel : Nat) (in_edges : List BlockId) : Option BlockId := do
  let (pred1, rest) ← firstProcessed idoms in_edges
  rest.foldlM (fun pred1 pred2 =>
    if pred2 = pred1 ∨ idoms pred2 = none then some pred1
    else intersect rpo_index idoms fuel pred1 pred2) pred1

end Loops

def visitBlock (rpo_index : BlockId → Nat) (in_edges : BlockId → List BlockId) (fuel : Nat)
    (s : (BlockId → Option BlockId) × Bool) (block : BlockId) :
    Option ((BlockId → Option BlockId) × Bool) := do
  let pred1 ← commonPred rpo_index s.1 fuel (in_edges block)
  return if s.1 block ≠ some pred1 then (Function.update s.1 block (some pred1), true) else s

def passes (rpo : List BlockId) (in_edges : BlockId → List BlockId) (bound : Nat) :
    Nat → (BlockId → Option BlockId) → Option (BlockId → Option BlockId)
  | 0, _ => none
  | fuel + 1, idoms => do
      let (idoms, changed) ←
        rpo.tail.foldlM (visitBlock (rpoIndex rpo) in_edges bound) (idoms, false)
      if changed then passes rpo in_edges bound fuel idoms else return idoms

def addDominated (idoms : BlockId → Option BlockId) (dom_sets : BlockId → Finset BlockId)
    (block : BlockId) : BlockId → Finset BlockId :=
  let block_dom_set := insert block (dom_sets block)
  let dom_sets := Function.update dom_sets block block_dom_set
  match idoms block with
  | some block_dom => Function.update dom_sets block_dom (dom_sets block_dom ∪ block_dom_set)
  | none => dom_sets

/-- The constructor; every loop gets `fuel` rounds. -/
def create (f : Function n) (order : f.EdgeOrder) (fuel : Nat) : Option DominatorAnalysis := do
  let rpo ← f.GetRPOTraversal fuel
  let entry ← rpo.head?
  let idoms ← passes rpo order.in_edges fuel fuel
    (Function.update (fun _ => none) entry (some entry))
  let idoms := Function.update idoms entry none
  return ⟨idoms, rpo.reverse.foldl (addDominated idoms) fun _ => ∅⟩

variable (a : DominatorAnalysis)

def immediateDominator (block : BlockId) : Option BlockId := a.idoms_ block

def getBlocksDominatedBy (block : BlockId) : Finset BlockId := a.dom_sets_ block

end DominatorAnalysis

end CinderX.Jit.Hir
