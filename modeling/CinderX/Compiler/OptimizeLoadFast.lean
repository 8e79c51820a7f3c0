import CinderX.Compiler.StackOpcodes

/-!
# `optimize_load_fast`

The loads whose references a block consumes, with no store to their local in between,
become borrowing loads.
-/

namespace CinderX.Compiler.LoadFast

/-- A reference on the simulated stack: the instruction that has pushed it (`none` is
`DUMMY_INSTR`), and the local it was loaded from (`none` is `NOT_LOCAL`). -/
structure Ref where
  instr : Option Nat
  loc : Option Nat
  deriving DecidableEq

def dummyRef : Ref := ⟨none, none⟩

/-- The state of a block's simulation, with the top of the stack first: `flagged` are
the keys of `instr_flags`, `pushed` the calls of `load_fast_push_block`. -/
structure Analysis where
  refs : List Ref
  flagged : List Nat
  pushed : List (Nat × Int)
  deriving DecidableEq

namespace Analysis

def push (a : Analysis) (r : Ref) : Analysis := { a with refs := r :: a.refs }

def pushNew (a : Analysis) (i n : Nat) : Analysis :=
  { a with refs := List.replicate n ⟨some i, none⟩ ++ a.refs }

def pop (a : Analysis) : Option (Ref × Analysis) :=
  match a.refs with
  | [] => none
  | r :: refs => some (r, { a with refs })

def popMany (a : Analysis) (n : Nat) : Option Analysis :=
  if n ≤ a.refs.length then some { a with refs := a.refs.drop n } else none

def killLocal (a : Analysis) (loc : Nat) : Analysis :=
  { a with flagged := (a.refs.filter (·.loc = some loc)).filterMap (·.instr) ++ a.flagged }

def storeLocal (a : Analysis) (loc : Nat) (r : Ref) : Analysis :=
  let a := a.killLocal loc
  { a with flagged := r.instr.toList ++ a.flagged }

def pushBlock (a : Analysis) (target : Nat) (depth : Int) : Analysis :=
  { a with pushed := a.pushed ++ [(target, depth)] }

end Analysis

/-- What the last branch takes `get_num_popped` and `get_num_pushed` to be. -/
def Instr.popped : Instr → Nat
  | plain op oparg _ => op.popped oparg
  | STORE_LOCAL .. | REFINE_TYPE | PRIMITIVE_BOX | PRIMITIVE_UNBOX | LOAD_METHOD_STATIC => 1
  | _ => 0

def Instr.pushed : Instr → Nat
  | plain op oparg _ => op.pushed oparg
  | LOAD_FAST_BORROW _ | LOAD_FAST_CHECK _ | LOAD_LOCAL _ | REFINE_TYPE | PRIMITIVE_BOX
  | PRIMITIVE_UNBOX => 1
  | LOAD_FAST_BORROW_LOAD_FAST_BORROW _ | LOAD_METHOD_STATIC => 2
  | _ => 0

def Instr.target : Instr → Option Nat
  | FOR_ITER target | SEND target => some target
  | plain _ _ target => target
  | _ => none

def analyzePlain (i : Nat) (inst : Instr) (a : Analysis) : Option Analysis := do
  let a := match inst.target with
    | some target => a.pushBlock target (a.refs.length - inst.popped + inst.pushed)
    | none => a
  let a ← a.popMany inst.popped
  return a.pushNew i inst.pushed

/-- `none` is a failed assertion, or an entry that is not on the stack. -/
def analyzeInst (i : Nat) (inst : Instr) (a : Analysis) : Option Analysis :=
  match inst with
  | .DELETE_FAST loc => some (a.killLocal loc)
  | .LOAD_FAST loc => some (a.push ⟨some i, some loc⟩)
  | .LOAD_FAST_AND_CLEAR loc => some ((a.killLocal loc).push ⟨some i, some loc⟩)
  | .LOAD_FAST_LOAD_FAST ioparg =>
    some ((a.push ⟨some i, some (firstLocal ioparg)⟩).push ⟨some i, some (secondLocal ioparg)⟩)
  | .STORE_FAST loc => do
      let (r, a) ← a.pop
      return a.storeLocal loc r
  | .STORE_FAST_LOAD_FAST ioparg => do
      let (r, a) ← a.pop
      return (a.storeLocal (firstLocal ioparg) r).push ⟨some i, some (secondLocal ioparg)⟩
  | .STORE_FAST_STORE_FAST ioparg => do
      let (r, a) ← a.pop
      let (r', a) ← (a.storeLocal (firstLocal ioparg) r).pop
      return a.storeLocal (secondLocal ioparg) r'
  | .COPY ioparg =>
    if 0 < ioparg then do
      let r ← a.refs[ioparg - 1]?
      return a.push r
    else none
  | .SWAP ioparg =>
    if 2 ≤ ioparg then do
      let refs ← swapTop ioparg a.refs
      return { a with refs }
    else none
  | .noInput op => some (a.pushNew i op.delta)
  | .partly op oparg => a.popMany (op.netPopped oparg)
  | .END_SEND | .SET_FUNCTION_ATTRIBUTE => do
      let (tos, a) ← a.pop
      let (_, a) ← a.pop
      return a.push tos
  | .CHECK_EXC_MATCH => do
      let (_, a) ← a.pop
      return a.pushNew i 1
  | .FOR_ITER target => some ((a.pushBlock target (a.refs.length + 1)).pushNew i 1)
  | .LOAD_ATTR ioparg => do
      let (self, a) ← a.pop
      let a := a.pushNew i 1
      return if ioparg &&& 1 = 1 then a.push self else a
  | .LOAD_SUPER_ATTR ioparg => do
      let (self, a) ← a.pop
      let a ← a.popMany 2
      let a := a.pushNew i 1
      return if ioparg &&& 1 = 1 then a.push self else a
  | .LOAD_SPECIAL | .PUSH_EXC_INFO => do
      let (tos, a) ← a.pop
      return (a.pushNew i 1).push tos
  | .SEND target => do
      let (_, a') ← (a.pushBlock target a.refs.length).pop
      return a'.pushNew i 1
  | inst => analyzePlain i inst a

def analyzeInsts : Nat → List Inst → Analysis → Option Analysis
  | _, [], a => some a
  | i, inst :: insts, a => (analyzeInst i inst.op a).bind (analyzeInsts (i + 1) insts)

structure Block where
  bid : Nat
  insts : List Inst
  startdepth : Int
  next : Option Nat
  hasFallthrough : Bool
  deriving DecidableEq

def Instr.borrow : Instr → Instr
  | LOAD_FAST loc => LOAD_FAST_BORROW loc
  | LOAD_FAST_LOAD_FAST ioparg => LOAD_FAST_BORROW_LOAD_FAST_BORROW ioparg
  | inst => inst

def optimizeInst (flagged : List Nat) (i : Nat) (inst : Inst) : Inst :=
  if i ∈ flagged then inst else { inst with op := inst.op.borrow }

def analyzeBlock (b : Block) : Option Analysis := do
  let a ← analyzeInsts 0 b.insts ⟨List.replicate b.startdepth.toNat dummyRef, [], []⟩
  let a := match b.next with
    | some next => if b.hasFallthrough then a.pushBlock next a.refs.length else a
    | none => a
  return { a with flagged := a.refs.filterMap (·.instr) ++ a.flagged }

def Block.optimized (b : Block) (flagged : List Nat) : Block :=
  { b with insts := b.insts.mapIdx (optimizeInst flagged) }

/-- `stack`, top first, with `visited` and the graph. -/
structure Worklist where
  stack : List Nat
  visited : List Nat
  blocks : List Block

def pushTarget (blocks : List Block) (w : List Nat × List Nat) (push : Nat × Int) :
    Option (List Nat × List Nat) := do
  let target ← blocks.find? (·.bid = push.1)
  if 0 ≤ target.startdepth ∧ target.startdepth = push.2 then
    return if push.1 ∈ w.2 then w else (push.1 :: w.1, push.1 :: w.2)
  else none

/-- One iteration of the loop; `none` when the stack is empty or an assertion fails. -/
def Worklist.step (w : Worklist) : Option Worklist :=
  match w.stack with
  | [] => none
  | bid :: stack => do
      let block ← w.blocks.find? (·.bid = bid)
      let a ← analyzeBlock block
      let (stack, visited) ← a.pushed.foldlM (pushTarget w.blocks) (stack, bid :: w.visited)
      return ⟨stack, visited,
        w.blocks.map fun b => if b.bid = bid then block.optimized a.flagged else b⟩

def initialWorklist (entry : Nat) (blocks : List Block) : Worklist :=
  ⟨[entry], [], blocks.map fun b => if b.bid = entry then { b with startdepth := 0 } else b⟩

end CinderX.Compiler.LoadFast
