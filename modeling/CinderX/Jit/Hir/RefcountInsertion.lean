import CinderX.Jit.Hir.InstrEffects
import CinderX.Jit.Hir.Liveness

/-!
# Reference count insertion

`RefcountInsertion::Run` after its preparations: an analysis that iterates over
the blocks until their states do not change, and a second walk over the blocks
that emits the reference count operations.  Both use the same functions, with a
flag.  A failing check has no result, and the order in which hash tables are
traversed is left open.
-/

namespace CinderX.Jit.Hir

open AliasClass

variable {n : Nat}

/-- Memory locations and registers; registers stand for their bits. -/
structure BorrowSupport (n : Nat) where
  acls : AliasClass
  regs : Finset (Register n)
  deriving DecidableEq

inductive Support (n : Nat) where
  | acls (acls : AliasClass)
  | bit (reg : Register n)

namespace BorrowSupport

def empty : BorrowSupport n := ⟨∅, ∅⟩

def intersects (support : BorrowSupport n) : Support n → Bool
  | .acls acls => (support.acls ∩ acls).Nonempty
  | .bit reg => reg ∈ support.regs

def add (support other : BorrowSupport n) : BorrowSupport n :=
  ⟨support.acls ∪ other.acls, support.regs ∪ other.regs⟩

def remove (support : BorrowSupport n) : Support n → BorrowSupport n
  | .acls acls => { support with acls := support.acls \ acls }
  | .bit reg => { support with regs := support.regs.erase reg }

end BorrowSupport

inductive RefKind where
  | kUncounted
  | kBorrowed
  | kOwned
  deriving DecidableEq, Repr

/-- `kind_` together with `support_`, which only borrowed values have. -/
inductive Ref (n : Nat) where
  | uncounted
  | borrowed (support : BorrowSupport n)
  | owned
  deriving DecidableEq

namespace Ref

def kind : Ref n → RefKind
  | .uncounted => .kUncounted
  | .borrowed _ => .kBorrowed
  | .owned => .kOwned

def isBorrowed (ref : Ref n) : Bool := ref.kind = .kBorrowed

def support : Ref n → BorrowSupport n
  | .borrowed support => support
  | _ => .empty

def merge : Ref n → Ref n → Ref n
  | .borrowed support, .borrowed other => .borrowed (support.add other)
  | .uncounted, ref => ref
  | ref, .uncounted => ref
  | _, _ => .owned

end Ref

/-- The live copies of a model register, in the order of their definitions. -/
structure RegState (n : Nat) where
  copies : List (Register n)
  ref : Ref n
  deriving DecidableEq

namespace RegState

def ofModel (model : Register n) : RegState n := ⟨[model], .uncounted⟩

def setRef (rstate : RegState n) (ref : Ref n) : RegState n := { rstate with ref := ref }

def addCopy (rstate : RegState n) (copy : Register n) : RegState n :=
  { rstate with copies := rstate.copies ++ [copy] }

def current? (rstate : RegState n) : Option (Register n) := rstate.copies.getLast?

end RegState

abbrev StateMap (n : Nat) := Register n → Option (RegState n)

/-- The instructions of the result; those of the input carry their live registers. -/
inductive Op (n : Nat) where
  | incref (reg : Register n)
  | xincref (reg : Register n)
  | decref (reg : Register n)
  | xdecref (reg : Register n)
  | instr (instr : Instr n) (liveRegs : List (Register n × RefKind))

/-- The transient part of `Env`, and the instructions of the block so far. -/
structure State (n : Nat) where
  liveRegs : StateMap n
  borrowSupport : BorrowSupport n
  borrowedRegs : Finset (Register n)
  deferredDeaths : List (Register n)
  code : List (Op n)

/-- What both phases read: the function, the build, and the liveness of registers. -/
structure Env (n : Nat) where
  func : Function n
  freeThreaded : Bool
  liveness : LivenessAnalysis func

namespace Env

def liveIn (env : Env n) (block : BlockId) : Finset (Register n) := env.liveness.getIn block

def steps (env : Env n) (block : BasicBlock n) : List (InstrStep n) := env.liveness.steps block

def hasBit (env : Env n) (reg : Register n) : Bool :=
  env.func.phis.any fun phi =>
    phi.output = some reg || phi.operands.any fun operand => env.func.modelReg operand = reg

end Env

namespace State

def emit (st : State n) (ops : List (Op n)) : State n := { st with code := st.code ++ ops }

def emitIf (mutate : Bool) (st : State n) (ops : List (Op n)) : State n :=
  if mutate then st.emit ops else st

def setLive (st : State n) (model : Register n) (rstate : Option (RegState n)) : State n :=
  { st with liveRegs := Function.update st.liveRegs model rstate }

end State

def increfOp (env : Env n) (reg : Register n) : Op n :=
  if env.func.isObject reg then .incref reg else .xincref reg

def decrefOp (env : Env n) (reg : Register n) : Op n :=
  if env.func.isObject reg then .decref reg else .xdecref reg

namespace State

def promotes (st : State n) (support : Support n) (model : Register n) : Bool :=
  model ∈ st.borrowedRegs &&
    match st.liveRegs model with
    | some rstate => rstate.ref.support.intersects support
    | none => false

def failsOn (st : State n) : Support n → Bool
  | .acls _ => false
  | .bit _ => !decide (∀ model ∈ st.borrowedRegs, ∀ rstate ∈ st.liveRegs model,
      rstate.ref.isBorrowed = true)

def promotedIncrefs (env : Env n) (st : State n) (support : Support n) : List (Op n) :=
  (List.finRange n).filterMap fun model =>
    if st.promotes support model then
      ((st.liveRegs model).bind RegState.current?).map (increfOp env)
    else none

def invalidateBorrowSupport (env : Env n) (mutate : Bool) (support : Support n)
    (st : State n) : Option (State n) :=
  if !st.borrowSupport.intersects support then some st
  else if st.failsOn support then none
  else
    some ({ st with
      liveRegs := fun model =>
        if st.promotes support model then (st.liveRegs model).map (RegState.setRef · .owned)
        else st.liveRegs model
      borrowedRegs := st.borrowedRegs.filter fun model => !st.promotes support model
      borrowSupport := st.borrowSupport.remove support }.emitIf mutate
        (st.promotedIncrefs env support))

def dropOwned (env : Env n) (mutate : Bool) (model copy : Register n) (st : State n) :
    Option (State n) := do
  let st ← if env.hasBit model then st.invalidateBorrowSupport env mutate (.bit model) else some st
  let st ← st.invalidateBorrowSupport env mutate (.acls AManagedHeapAny)
  return st.emitIf mutate [decrefOp env copy]

def killRegister (env : Env n) (mutate : Bool) (st : State n) (copy : Register n) :
    Option (State n) := do
  let model := env.func.modelReg copy
  let rstate ← st.liveRegs model
  if copy ∉ rstate.copies then none
  else
    let copies := rstate.copies.erase copy
    if copies ≠ [] then return st.setLive model (some { rstate with copies := copies })
    else
      let st ← if rstate.ref = .owned then st.dropOwned env mutate model copy else some st
      return { st.setLive model none with borrowedRegs := st.borrowedRegs.erase model }

def killKey (env : Env n) (st : State n) (copy : Register n) : Nat :=
  let model := env.func.modelReg copy
  match st.liveRegs model with
  | some rstate => if rstate.ref.isBorrowed then model else n + model
  | none => n + model

def killRegisters (env : Env n) (mutate : Bool) (regs : List (Register n)) (st : State n) :
    Option (State n) :=
  if regs.all fun reg => (st.liveRegs (env.func.modelReg reg)).isSome then
    (regs.insertionSort fun a b => st.killKey env a ≤ st.killKey env b).foldlM
      (killRegister env mutate) st
  else none

end State

structure BlockState (n : Nat) where
  inState : StateMap n
  out : StateMap n

abbrev Blocks (n : Nat) := BlockId → Option (BlockState n)

def StateMap.empty : StateMap n := fun _ => none

def StateMap.supportOf (state : StateMap n) (model : Register n) : BorrowSupport n :=
  match state model with
  | some rstate => rstate.ref.support
  | none => .empty

def useInState (state : StateMap n) : State n where
  liveRegs := state
  borrowSupport :=
    ⟨Finset.univ.biUnion fun model => (state.supportOf model).acls,
      Finset.univ.biUnion fun model => (state.supportOf model).regs⟩
  borrowedRegs := Finset.univ.filter fun model => state.supportOf model ≠ .empty
  deferredDeaths := []
  code := []

def uncountedOnEdge? (term : Instr n) (block : BlockId) : Option (Register n) :=
  match term.opcode with
  | .kCondBranch | .kCondBranchIterNotDone =>
    if term.successors[1]? = some block then term.operands.head? else none
  | .kCondBranchCheckType =>
    if term.checksWaitHandle ∧ term.successors[0]? = some block then term.operands.head?
    else none
  | _ => none

def dyingOnEdge (state : StateMap n) (liveIn : Finset (Register n)) : List (Register n) :=
  (List.finRange n).flatMap fun model =>
    match state model with
    | some rstate => rstate.copies.reverse.filter fun copy => copy ∉ liveIn
    | none => []

def setUncountedOnEdge (env : Env n) (term : Instr n) (block : BlockId) (st : State n) :
    Option (State n) :=
  match uncountedOnEdge? term block with
  | some reg =>
    let model := env.func.modelReg reg
    match st.liveRegs model with
    | some rstate => some (st.setLive model (some (rstate.setRef .uncounted)))
    | none => none
  | none => some st

def useSimpleInState (env : Env n) (mutate : Bool) (blocks : Blocks n) (block : BlockId) :
    Option (State n) :=
  match env.func.inEdges block with
  | [] => some (useInState StateMap.empty)
  | pred :: _ => do
      let predState ← blocks pred
      let predBlock ← env.func.block? pred
      let term ← predBlock.terminator?
      let st ← setUncountedOnEdge env term block (useInState predState.out)
      st.killRegisters env mutate (dyingOnEdge st.liveRegs (env.liveIn block))

structure PredState (n : Nat) where
  block : BlockId
  state : StateMap n

def collectPredStates (env : Env n) (blocks : Blocks n) (block : BlockId) :
    List (PredState n) :=
  ((env.func.inEdges block).insertionSort (· ≤ ·)).filterMap fun pred =>
    (blocks pred).map fun blockState => ⟨pred, blockState.out⟩

def initializeInState (env : Env n) (block : BasicBlock n) (predState : StateMap n) :
    Option (StateMap n) :=
  let liveIn := env.liveIn block.id
  let models := liveIn.image env.func.modelReg
  if ∀ model ∈ models, (predState model).isSome then
    some fun model =>
      if model ∈ models then
        (predState model).map fun rstate =>
          ⟨rstate.copies.filter fun copy => copy ∈ liveIn, .uncounted⟩
      else if block.definesPhi model then some (.ofModel model)
      else none
  else none

def isLiveIn (block : BasicBlock n) (reg : Register n) (inState : StateMap n) : Bool :=
  !block.definesPhi reg && (inState reg).isSome

def collectPhiInputs (env : Env n) (preds : List (PredState n)) (phi : Instr n) :
    Option (List (Register n × Ref n)) :=
  preds.mapM fun pred => do
    let operand ← phi.phiOperand? pred.block
    let model := env.func.modelReg operand
    let rstate ← pred.state model
    return (model, rstate.ref)

structure PhiSupport (n : Nat) where
  dead : Finset (Register n)
  forwards : Register n → Finset (Register n)

def PhiSupport.empty : PhiSupport n := ⟨∅, fun _ => ∅⟩

def PhiSupport.forward (info : PhiSupport n) (output : Register n)
    (models : List (Register n)) : PhiSupport n where
  dead := info.dead ∪ models.toFinset
  forwards model :=
    if model ∈ models then insert output (info.forwards model) else info.forwards model

def phiSupport (inputs : List (Register n × Ref n)) : BorrowSupport n :=
  inputs.foldl (fun support input =>
    match input.2 with
    | .owned => support.add ⟨∅, {input.1}⟩
    | .borrowed other => support.add other
    | .uncounted => support) .empty

def processPhi (env : Env n) (block : BasicBlock n) (preds : List (PredState n))
    (acc : StateMap n × PhiSupport n) (phi : Instr n) :
    Option (StateMap n × PhiSupport n) := do
  let (inState, info) := acc
  let output ← phi.output
  let rstate ← inState output
  if env.func.isUncounted output || rstate.ref = .owned then return acc
  else
    let inputs ← collectPhiInputs env preds phi
    let dead := (inputs.filter fun input =>
      !isLiveIn block input.1 inState && input.2 = .owned).map Prod.fst
    if dead ≠ [] then
      return (Function.update inState output (some (rstate.setRef .owned)),
        info.forward output dead)
    else
      return (Function.update inState output
        (some (rstate.setRef (.borrowed (phiSupport inputs)))), info)

def processPhis (env : Env n) (block : BasicBlock n) (preds : List (PredState n))
    (inState : StateMap n) : Option (StateMap n × PhiSupport n) :=
  block.phis.foldlM (processPhi env block preds) (inState, .empty)

def mergePreds (model : Register n) (ref : Ref n) : List (PredState n) → Option (Ref n)
  | [] => some ref
  | pred :: rest => do
      let rstate ← pred.state model
      let ref := ref.merge rstate.ref
      if ref = .owned then return ref else mergePreds model ref rest

/-- Values borrowed from dead phi inputs borrow from the phi outputs instead. -/
def forwardSupport (info : PhiSupport n) (order : List (Register n))
    (support : BorrowSupport n) : BorrowSupport n :=
  if Disjoint support.regs info.dead then support
  else
    order.foldl (fun support model =>
      if model ∈ info.dead ∧ model ∈ support.regs then
        (support.remove (.bit model)).add ⟨∅, info.forwards model⟩
      else support) support

def updateRef (env : Env n) (block : BasicBlock n) (preds : List (PredState n))
    (info : PhiSupport n) (order : List (Register n)) (model : Register n)
    (rstate : RegState n) : Option (Ref n) := do
  let current ← rstate.current?
  if env.func.isUncounted current || rstate.ref = .owned then return rstate.ref
  else
    let ref ← if block.definesPhi model then some rstate.ref else mergePreds model rstate.ref preds
    match ref with
    | .borrowed support => return .borrowed (forwardSupport info order support)
    | ref => return ref

/-- The loop over the in-state; every entry depends on itself and the predecessors only. -/
def updateRefs (env : Env n) (block : BasicBlock n) (preds : List (PredState n))
    (info : PhiSupport n) (order : List (Register n)) (inState : StateMap n) :
    Option (StateMap n) :=
  if ∀ model, ∀ rstate ∈ inState model,
      (updateRef env block preds info order model rstate).isSome then
    some fun model => (inState model).bind fun rstate =>
      (updateRef env block preds info order model rstate).map rstate.setRef
  else none

def joinInState (env : Env n) (order : List (Register n)) (blocks : Blocks n)
    (block : BasicBlock n) : Option (StateMap n) := do
  let preds := collectPredStates env blocks block.id
  let inState ←
    match blocks block.id with
    | some blockState => some blockState.inState
    | none => do
        let first ← preds.head?
        initializeInState env block first.state
  let (inState, info) ← processPhis env block preds inState
  updateRefs env block preds info order inState

def deoptLiveRegs (env : Env n) (state : StateMap n) : List (Register n × RefKind) :=
  let entries := (List.finRange n).flatMap fun model =>
    match state model with
    | some rstate =>
      let copies := rstate.copies.filter fun copy => !env.func.couldBeCPtr copy
      match rstate.ref.kind, copies with
      | .kOwned, first :: rest => (first, .kOwned) :: rest.map fun copy => (copy, .kBorrowed)
      | kind, copies => copies.map fun copy => (copy, kind)
    | none => []
  entries.insertionSort fun a b => a.1 ≤ b.1

def emitInstr (env : Env n) (mutate : Bool) (st : State n) (instr : Instr n) : State n :=
  st.emitIf mutate
    [.instr instr (if instr.deopt.isSome then deoptLiveRegs env st.liveRegs else [])]

def isInFrameState (instr : Instr n) (reg : Register n) : Bool :=
  match instr.deopt with
  | some info => info.frameState.any fun frame =>
    frame.localsplus.contains (some reg) || frame.stack.contains reg
  | none => false

def isYield (instr : Instr n) : Bool :=
  instr.opcode = .kYieldValue || instr.opcode = .kInitialYield

def keepsYielded (mutate : Bool) (instr : Instr n) (reg : Register n) : Bool :=
  isYield instr && isInFrameState instr reg && mutate

namespace State

def stealInput (env : Env n) (mutate : Bool) (instr : Instr n) (dying : Finset (Register n))
    (st : State n) (reg : Register n) : Option (State n) := do
  let model := env.func.modelReg reg
  let rstate ← st.liveRegs model
  if rstate.ref = .owned ∧ reg ∈ dying then
    if keepsYielded mutate instr reg then return st.emit [increfOp env reg]
    else return st.setLive model (some (rstate.setRef (.borrowed .empty)))
  else if rstate.ref ≠ .uncounted then return st.emitIf mutate [increfOp env reg]
  else return st

def stealInputs (env : Env n) (mutate : Bool) (instr : Instr n) (stolen : List Nat)
    (dying : Finset (Register n)) (st : State n) : Option (State n) :=
  (stolen.filterMap fun i => instr.operands[i]?).foldlM (stealInput env mutate instr dying) st

def processOutput (env : Env n) (instr : Instr n) (effects : MemoryEffects) (st : State n) :
    Option (State n) :=
  match instr.output with
  | none => some st
  | some output =>
    if instr.copies then do
      let model := env.func.modelReg output
      let rstate ← st.liveRegs model
      let rstate := rstate.addCopy output
      return st.setLive model
        (some (if env.func.isUncounted output then rstate.setRef .uncounted else rstate))
    else
      let rstate := (st.liveRegs output).getD (.ofModel output)
      if env.func.isUncounted output then some (st.setLive output (some rstate))
      else if effects.borrowsOutput then
        let support : BorrowSupport n := ⟨effects.borrowSupport, ∅⟩
        let st := st.setLive output (some (rstate.setRef (.borrowed support)))
        if support = .empty then some st
        else
          some { st with
            borrowSupport := st.borrowSupport.add support
            borrowedRegs := insert output st.borrowedRegs }
      else some (st.setLive output (some (rstate.setRef .owned)))

def processPhiDeath (env : Env n) (mutate : Bool) (step : InstrStep n) (st : State n) :
    Option (State n) := do
  let next ← step.next
  let deaths :=
    if step.dying.Nonempty then st.deferredDeaths ++ step.instr.output.toList
    else st.deferredDeaths
  if !next.isPhi && !deaths.isEmpty then
    let st ← st.killRegisters env mutate deaths
    return { st with deferredDeaths := [] }
  else return { st with deferredDeaths := deaths }

def processInstr (env : Env n) (mutate : Bool) (st : State n) (step : InstrStep n) :
    Option (State n) := do
  if step.instr.numEdges > 0 then return st
  else if step.instr.isPhi then
    (emitInstr env mutate st step.instr).processPhiDeath env mutate step
  else
    let effects ← memoryEffects env.freeThreaded step.instr
    let st ← st.invalidateBorrowSupport env mutate (.acls effects.mayStore)
    let st ← st.stealInputs env mutate step.instr effects.stolenInputs step.dying
    let st := emitInstr env mutate st step.instr
    if step.instr.opcode.isTerminator then return st
    else
      let st ← st.processOutput env step.instr effects
      st.killRegisters env mutate ((List.finRange n).filter fun reg => reg ∈ step.dying)

def processInstrs (env : Env n) (mutate : Bool) (steps : List (InstrStep n)) (st : State n) :
    Option (State n) :=
  steps.foldlM (processInstr env mutate) st

end State

structure Analysis (n : Nat) where
  blocks : Blocks n
  worklist : List BlockId
  /-- The state with which the last visit of a block started. -/
  entry : BlockId → Option (State n)

namespace Analysis

def push (worklist : List BlockId) (block : BlockId) : List BlockId :=
  if block ∈ worklist then worklist else worklist ++ [block]

def updateInState (env : Env n) (order : List (Register n)) (blocks : Blocks n)
    (block : BasicBlock n) : Option (State n × StateMap n) :=
  if (env.func.inEdges block.id).length ≤ 1 then do
    let st ← useSimpleInState env false blocks block.id
    return (st, StateMap.empty)
  else do
    let inState ← joinInState env order blocks block
    return (useInState inState, inState)

def visit (env : Env n) (order : List (Register n)) (analysis : Analysis n) :
    Option (Analysis n) :=
  match analysis.worklist with
  | [] => none
  | id :: worklist => do
      let block ← env.func.block? id
      let (entry, inState) ← updateInState env order analysis.blocks block
      let st ← entry.processInstrs env false (env.steps block)
      let old :=
        match analysis.blocks id with
        | some blockState => blockState.out
        | none => StateMap.empty
      return {
        blocks := Function.update analysis.blocks id (some ⟨inState, st.liveRegs⟩)
        worklist := if st.liveRegs = old then worklist else block.outEdges.foldl push worklist
        entry := Function.update analysis.entry id (some entry) }

/-- One turn of the loop, for any order in which a hash table is traversed. -/
def Step (env : Env n) (analysis analysis' : Analysis n) : Prop :=
  ∃ order, order.Perm (List.finRange n) ∧ visit env order analysis = some analysis'

def start (rpoBlocks : List BlockId) : Analysis n :=
  ⟨fun _ => none, rpoBlocks, fun _ => none⟩

def Converged (env : Env n) (rpoBlocks : List BlockId) (analysis : Analysis n) : Prop :=
  Relation.ReflTransGen (Step env) (start rpoBlocks) analysis ∧ analysis.worklist = []

end Analysis

def enterBlock (env : Env n) (blocks : Blocks n) (block : BasicBlock n) : Option (State n) :=
  if (env.func.inEdges block.id).length ≤ 1 then useSimpleInState env true blocks block.id
  else (blocks block.id).map fun blockState => useInState blockState.inState

end CinderX.Jit.Hir
