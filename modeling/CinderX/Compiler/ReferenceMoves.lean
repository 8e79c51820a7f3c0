import CinderX.Compiler.OptimizeLoadFast

/-!
# How the interpreter moves references

What each opcode of the 3.14 interpreter does with the references on the operand stack
and in the locals, and what it means that the borrowed ones are safe.
-/

namespace CinderX.Compiler.LoadFast

/-- A reference in the frame.  `borrowed i loc` is one that instruction `i` of the block
has borrowed from `loc`; all others are owned or null. -/
inductive Value
  | null
  | owned
  | borrowed (i loc : Nat)
  deriving DecidableEq

def Value.isNew : Value → Bool
  | borrowed .. => false
  | _ => true

structure State where
  stack : List Value
  locals : Nat → Value

structure Write where
  loc : Nat
  frame : State

/-- The method or null that `LOAD_ATTR` and its like push above the attribute. -/
def selfOrNull (self v : Value) : Prop := v = self ∨ v = .null

def copyFreeVars (locals : Nat → Value) (first count : Nat) : Nat → Value := fun loc =>
  if first ≤ loc ∧ loc < first + count then .owned else locals loc

/-- Instruction `i` is executed to its end, with the writes to locals on the way. -/
inductive Completes (i : Nat) : Instr → State → List Write → State → Prop
  | DELETE_FAST {loc stack locals} (h : locals loc ≠ .null) :
      Completes i (.DELETE_FAST loc) ⟨stack, locals⟩ [⟨loc, ⟨stack, locals⟩⟩]
        ⟨stack, Function.update locals loc .null⟩
  | LOAD_FAST {loc stack locals} (h : locals loc ≠ .null) :
      Completes i (.LOAD_FAST loc) ⟨stack, locals⟩ [] ⟨locals loc :: stack, locals⟩
  | LOAD_FAST_BORROW {loc stack locals} (h : locals loc ≠ .null) :
      Completes i (.LOAD_FAST_BORROW loc) ⟨stack, locals⟩ []
        ⟨.borrowed i loc :: stack, locals⟩
  | LOAD_FAST_CHECK {loc stack locals} (h : locals loc ≠ .null) :
      Completes i (.LOAD_FAST_CHECK loc) ⟨stack, locals⟩ [] ⟨locals loc :: stack, locals⟩
  | LOAD_FAST_AND_CLEAR {loc stack locals} :
      Completes i (.LOAD_FAST_AND_CLEAR loc) ⟨stack, locals⟩ [⟨loc, ⟨stack, locals⟩⟩]
        ⟨locals loc :: stack, Function.update locals loc .null⟩
  | LOAD_FAST_LOAD_FAST {ioparg stack locals} (h₁ : locals (firstLocal ioparg) ≠ .null)
      (h₂ : locals (secondLocal ioparg) ≠ .null) :
      Completes i (.LOAD_FAST_LOAD_FAST ioparg) ⟨stack, locals⟩ []
        ⟨locals (secondLocal ioparg) :: locals (firstLocal ioparg) :: stack, locals⟩
  | LOAD_FAST_BORROW_LOAD_FAST_BORROW {ioparg stack locals}
      (h₁ : locals (firstLocal ioparg) ≠ .null) (h₂ : locals (secondLocal ioparg) ≠ .null) :
      Completes i (.LOAD_FAST_BORROW_LOAD_FAST_BORROW ioparg) ⟨stack, locals⟩ []
        ⟨.borrowed i (secondLocal ioparg) :: .borrowed i (firstLocal ioparg) :: stack, locals⟩
  | STORE_FAST {loc v stack locals} :
      Completes i (.STORE_FAST loc) ⟨v :: stack, locals⟩ [⟨loc, ⟨stack, locals⟩⟩]
        ⟨stack, Function.update locals loc v⟩
  | STORE_FAST_LOAD_FAST {ioparg v stack locals locals'}
      (h : locals' = Function.update locals (firstLocal ioparg) v)
      (h' : locals' (secondLocal ioparg) ≠ .null) :
      Completes i (.STORE_FAST_LOAD_FAST ioparg) ⟨v :: stack, locals⟩
        [⟨firstLocal ioparg, ⟨stack, locals⟩⟩] ⟨locals' (secondLocal ioparg) :: stack, locals'⟩
  | STORE_FAST_STORE_FAST {ioparg v v' stack locals} :
      Completes i (.STORE_FAST_STORE_FAST ioparg) ⟨v :: v' :: stack, locals⟩
        [⟨firstLocal ioparg, ⟨v' :: stack, locals⟩⟩,
          ⟨secondLocal ioparg, ⟨stack, Function.update locals (firstLocal ioparg) v⟩⟩]
        ⟨stack, Function.update (Function.update locals (firstLocal ioparg) v)
          (secondLocal ioparg) v'⟩
  | COPY {ioparg v stack locals} (hpos : 0 < ioparg) (h : stack[ioparg - 1]? = some v) :
      Completes i (.COPY ioparg) ⟨stack, locals⟩ [] ⟨v :: stack, locals⟩
  | SWAP {ioparg stack stack' locals} (hpos : 2 ≤ ioparg) (h : swapTop ioparg stack = some stack') :
      Completes i (.SWAP ioparg) ⟨stack, locals⟩ [] ⟨stack', locals⟩
  | noInput {op stack new locals} (hlength : new.length = op.delta)
      (hnew : ∀ v ∈ new, v.isNew) :
      Completes i (.noInput op) ⟨stack, locals⟩ [] ⟨new ++ stack, locals⟩
  -- the value that is formatted, or the iterable, is replaced
  | noInput_replaced {op v v' stack locals}
      (hop : op = .FORMAT_SIMPLE ∨ op = .GET_YIELD_FROM_ITER) (hnew : v'.isNew) :
      Completes i (.noInput op) ⟨v :: stack, locals⟩ [] ⟨v' :: stack, locals⟩
  | partly {op oparg args stack locals} (hlength : args.length = op.netPopped oparg) :
      Completes i (.partly op oparg) ⟨args ++ stack, locals⟩ [] ⟨stack, locals⟩
  | END_SEND {v receiver stack locals} :
      Completes i .END_SEND ⟨v :: receiver :: stack, locals⟩ [] ⟨v :: stack, locals⟩
  | SET_FUNCTION_ATTRIBUTE {func attr stack locals} :
      Completes i .SET_FUNCTION_ATTRIBUTE ⟨func :: attr :: stack, locals⟩ []
        ⟨func :: stack, locals⟩
  | CHECK_EXC_MATCH {v v' stack locals} (hnew : v'.isNew) :
      Completes i .CHECK_EXC_MATCH ⟨v :: stack, locals⟩ [] ⟨v' :: stack, locals⟩
  | FOR_ITER {target next stack locals} (hnew : next.isNew) :
      Completes i (.FOR_ITER target) ⟨stack, locals⟩ [] ⟨next :: stack, locals⟩
  | LOAD_ATTR {ioparg owner attr stack locals} (hmethod : ioparg &&& 1 ≠ 1)
      (hnew : attr.isNew) :
      Completes i (.LOAD_ATTR ioparg) ⟨owner :: stack, locals⟩ [] ⟨attr :: stack, locals⟩
  | LOAD_ATTR_method {ioparg owner attr v stack locals} (hmethod : ioparg &&& 1 = 1)
      (hnew : attr.isNew) (hself : selfOrNull owner v) :
      Completes i (.LOAD_ATTR ioparg) ⟨owner :: stack, locals⟩ [] ⟨v :: attr :: stack, locals⟩
  | LOAD_SUPER_ATTR {ioparg self cls sup attr stack locals} (hmethod : ioparg &&& 1 ≠ 1)
      (hnew : attr.isNew) :
      Completes i (.LOAD_SUPER_ATTR ioparg) ⟨self :: cls :: sup :: stack, locals⟩ []
        ⟨attr :: stack, locals⟩
  | LOAD_SUPER_ATTR_method {ioparg self cls sup attr v stack locals}
      (hmethod : ioparg &&& 1 = 1) (hnew : attr.isNew) (hself : selfOrNull self v) :
      Completes i (.LOAD_SUPER_ATTR ioparg) ⟨self :: cls :: sup :: stack, locals⟩ []
        ⟨v :: attr :: stack, locals⟩
  | LOAD_SPECIAL {self method v stack locals} (hnew : method.isNew) (hself : selfOrNull self v) :
      Completes i .LOAD_SPECIAL ⟨self :: stack, locals⟩ [] ⟨v :: method :: stack, locals⟩
  | PUSH_EXC_INFO {exc prev stack locals} (hnew : prev.isNew) :
      Completes i .PUSH_EXC_INFO ⟨exc :: stack, locals⟩ [] ⟨exc :: prev :: stack, locals⟩
  | SEND {target v retval stack locals} (hnew : retval.isNew) :
      Completes i (.SEND target) ⟨v :: stack, locals⟩ [] ⟨retval :: stack, locals⟩
  | plain {op oparg target args new stack locals} (hargs : args.length = op.popped oparg)
      (hlength : new.length = op.pushed oparg) (hnew : ∀ v ∈ new, v.isNew) :
      Completes i (.plain op oparg target) ⟨args ++ stack, locals⟩ [] ⟨new ++ stack, locals⟩
  | MAKE_CELL {loc stack locals} :
      Completes i (.MAKE_CELL loc) ⟨stack, locals⟩ [⟨loc, ⟨stack, locals⟩⟩]
        ⟨stack, Function.update locals loc .owned⟩
  | COPY_FREE_VARS {first count stack locals} :
      Completes i (.COPY_FREE_VARS first count) ⟨stack, locals⟩
        ((List.range' first count).map (⟨·, ⟨stack, locals⟩⟩))
        ⟨stack, copyFreeVars locals first count⟩
  | LOAD_LOCAL {loc stack locals} (h : locals loc ≠ .null) :
      Completes i (.LOAD_LOCAL loc) ⟨stack, locals⟩ [] ⟨locals loc :: stack, locals⟩
  -- a primitive that has no value yet is set to zero
  | LOAD_LOCAL_default {loc stack locals} (h : locals loc = .null) :
      Completes i (.LOAD_LOCAL loc) ⟨stack, locals⟩ [⟨loc, ⟨stack, locals⟩⟩]
        ⟨.owned :: stack, Function.update locals loc .owned⟩
  | STORE_LOCAL {loc isDouble v stack locals} :
      Completes i (.STORE_LOCAL loc isDouble) ⟨v :: stack, locals⟩ [⟨loc, ⟨v :: stack, locals⟩⟩]
        ⟨stack, Function.update locals loc (if isDouble then v else .owned)⟩
  | REFINE_TYPE {v stack locals} :
      Completes i .REFINE_TYPE ⟨v :: stack, locals⟩ [] ⟨v :: stack, locals⟩
  -- the value is replaced when its sign has to be extended
  | PRIMITIVE_BOX {v v' stack locals} (h : v' = v ∨ v'.isNew) :
      Completes i .PRIMITIVE_BOX ⟨v :: stack, locals⟩ [] ⟨v' :: stack, locals⟩
  | PRIMITIVE_UNBOX {v stack locals} :
      Completes i .PRIMITIVE_UNBOX ⟨v :: stack, locals⟩ [] ⟨v :: stack, locals⟩
  | LOAD_METHOD_STATIC {self func stack locals} (hnew : func.isNew) :
      Completes i .LOAD_METHOD_STATIC ⟨self :: stack, locals⟩ []
        ⟨self :: func :: stack, locals⟩

inductive JumpsWith : Instr → List Value → List Value → Prop
  | FOR_ITER {target stack} : JumpsWith (.FOR_ITER target) stack stack
  | SEND {target v retval stack} (hnew : retval.isNew) :
      JumpsWith (.SEND target) (v :: stack) (retval :: stack)
  | plain {op oparg target args new stack} (hargs : args.length = op.popped oparg)
      (hlength : new.length = op.pushed oparg) (hnew : ∀ v ∈ new, v.isNew) :
      JumpsWith (.plain op oparg (some target)) (args ++ stack) (new ++ stack)

/-- The block is entered with nothing borrowed, executed from its start, and is now at
instruction `i`; every step has met `cond`. -/
inductive Run (cond : Nat → State → Prop) (b : Block) : Nat → State → Prop
  | start {s : State} (hdepth : s.stack.length = b.startdepth.toNat)
      (hstack : ∀ v ∈ s.stack, v.isNew) (hlocals : ∀ loc, (s.locals loc).isNew) : Run cond b 0 s
  | step {i : Nat} {inst : Inst} {s s' : State} {writes : List Write} (h : Run cond b i s)
      (hinst : b.insts[i]? = some inst) (hcond : cond i s)
      (hstep : Completes i inst.op s writes s') : Run cond b (i + 1) s'

def Instr.needs : Instr → Nat
  | STORE_FAST _ | STORE_FAST_LOAD_FAST _ | CHECK_EXC_MATCH | LOAD_ATTR _ | LOAD_SPECIAL
  | PUSH_EXC_INFO | SEND _ => 1
  | STORE_FAST_STORE_FAST _ | END_SEND | SET_FUNCTION_ATTRIBUTE => 2
  | LOAD_SUPER_ATTR _ => 3
  | SWAP ioparg => ioparg
  | partly op oparg => op.netPopped oparg
  | inst => inst.popped

def Instr.leaves : Instr → Nat
  | LOAD_FAST _ | LOAD_FAST_AND_CLEAR _ | STORE_FAST_LOAD_FAST _ | COPY _ | END_SEND
  | SET_FUNCTION_ATTRIBUTE | CHECK_EXC_MATCH | FOR_ITER _ | SEND _ => 1
  | LOAD_FAST_LOAD_FAST _ | LOAD_SPECIAL | PUSH_EXC_INFO => 2
  | LOAD_ATTR ioparg | LOAD_SUPER_ATTR ioparg => if ioparg &&& 1 = 1 then 2 else 1
  | SWAP ioparg => ioparg
  | noInput op => op.delta
  | inst => inst.pushed

/-- From a stack of `height` entries the instructions leave the lowest `depth` alone. -/
def Keeps (depth : Nat) : Nat → List Inst → Prop
  | height, [] => depth ≤ height
  | height, inst :: insts =>
    depth + inst.op.needs ≤ height ∧ Keeps depth (height - inst.op.needs + inst.op.leaves) insts

/-- The block is left at instruction `i`, with these references still on the stack.
`kept` has to hold of the instructions that the block goes on with, the height they
start at, and the depth that the stack is left with. -/
inductive Leaves (kept : List Inst → Nat → Nat → Prop) (b : Block) :
    Nat → State → List Value → Prop
  | falls {s} : Leaves kept b b.insts.length s s.stack
  | jumps {i inst s stack} (hinst : b.insts[i]? = some inst)
      (hjump : JumpsWith inst.op s.stack stack)
      (hkept : kept (b.insts.drop (i + 1)) (s.stack.length - inst.op.needs + inst.op.leaves)
        stack.length) : Leaves kept b i s stack
  | raises {i inst s depth} (hinst : b.insts[i]? = some inst)
      (hhandler : inst.handler = some depth) (hdepth : depth ≤ s.stack.length)
      (hkept : kept (b.insts.drop i) s.stack.length depth) :
      Leaves kept b i s (s.stack.drop (s.stack.length - depth))

/-- In runs of the block, no borrowed reference is on the stack or in a local when the
local it was borrowed from is overwritten, and none when the block is left. -/
structure BorrowsSafely (cond : Nat → State → Prop) (kept : List Inst → Nat → Nat → Prop)
    (b : Block) : Prop where
  writes : ∀ i s, Run cond b i s → cond i s → ∀ inst, b.insts[i]? = some inst →
    ∀ writes s', Completes i inst.op s writes s' → ∀ w ∈ writes, ∀ k,
      .borrowed k w.loc ∉ w.frame.stack ∧ ∀ loc, w.frame.locals loc ≠ .borrowed k w.loc
  leaves : ∀ i s, Run cond b i s → ∀ stack, Leaves kept b i s stack →
    (∀ v ∈ stack, v.isNew) ∧ ∀ loc, (s.locals loc).isNew

/-- The opcodes that leave their input on the stack, or store it, though the last branch
of the simulation takes them to consume it. -/
def Instr.passes : Instr → Bool
  | REFINE_TYPE | PRIMITIVE_BOX | PRIMITIVE_UNBOX | LOAD_METHOD_STATIC => true
  | STORE_LOCAL _ isDouble => isDouble
  | _ => false

def Instr.overwrites : Instr → List Nat
  | MAKE_CELL loc | STORE_LOCAL loc _ => [loc]
  | COPY_FREE_VARS first count => List.range' first count
  | _ => []

def Instr.loads : Instr → List Nat
  | LOAD_FAST loc | LOAD_FAST_BORROW loc => [loc]
  | LOAD_FAST_LOAD_FAST ioparg | LOAD_FAST_BORROW_LOAD_FAST_BORROW ioparg =>
    [firstLocal ioparg, secondLocal ioparg]
  | _ => []

/-- An opcode that passes its input on is not given a borrowed one, and one that
overwrites a local unnoticed finds it null or not loaded by the block so far. -/
structure Tracked (b : Block) (i : Nat) (s : State) : Prop where
  passes : ∀ inst, b.insts[i]? = some inst → inst.op.passes →
    ∀ v, s.stack.head? = some v → v.isNew
  overwrites : ∀ inst, b.insts[i]? = some inst → ∀ loc ∈ inst.op.overwrites,
    s.locals loc = .null ∨
      ∀ k < i, ∀ inst', b.insts[k]? = some inst' → loc ∉ inst'.op.loads

end CinderX.Compiler.LoadFast
