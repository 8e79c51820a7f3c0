import CinderX.Jit.Hir.InstrEffects

/-!
# Tracking the current line

`InsertUpdatePrevInstr`, as it is built for Python 3.12 to 3.14, with and without lightweight
frames.  Of an instruction it looks at the opcode, the bytecode offset and the inlined function.
The functions are `none` where `at` does not find its key, where a block has no terminator, and
where the worklist takes more rounds than there are.
-/

namespace CinderX.Jit.Hir.UpdatePrevInstr

structure PyCodeAddressRange where
  ar_start : Nat
  ar_end : Nat
  ar_line : Int
  deriving DecidableEq

/-- What a code object says about lines; `ranges` is what its line table is iterated to. -/
structure PyCodeObject where
  numIndices : Nat
  ranges : List PyCodeAddressRange
  /-- The size of `co_linetable`, if there is one. -/
  co_linetable : Option Nat
  firsttraceable : Int
  deriving DecidableEq

namespace BytecodeIndexToLine

/-- The loop over the ranges; `idx` is the number of lines there are. -/
def fill (numIndices : Nat) : List Int → List PyCodeAddressRange → List Int
  | lines, [] => lines
  | lines, range :: ranges =>
    if lines.length ≥ numIndices then lines
    else fill numIndices
      (lines ++ List.replicate (range.ar_end / 2 - lines.length) range.ar_line) ranges

def create (co : PyCodeObject) : List Int := fill co.numIndices [] co.ranges

def lineNoFor (indexToLine : List Int) (index : Int) : Int :=
  if index < 0 then -1 else indexToLine.getD index.toNat (-1)

end BytecodeIndexToLine

def asIndex (offset : Int) : Int := offset.tdiv 2

def INT_MAX : Int := 2147483647

structure BeginInlinedFunction where
  address : Nat
  code : PyCodeObject
  deriving DecidableEq

structure Instr where
  opcode : Opcode
  bytecodeOffset : Int := -1
  /-- The instruction itself, `matchingBegin()` of its end, or `parent()` of an update. -/
  inlined : Option BeginInlinedFunction := none
  /-- `lineNo()` of an update. -/
  lineNo : Int := 0
  /-- `func()` of a `CallCFunc`. -/
  func : CFunc := .kJitGen_yf
  successors : List BlockId := []
  deriving DecidableEq

def hasArbitraryExecution (instr : Instr) : Bool := instr.opcode.hasArbitraryExecution instr.func

structure Function where
  code : PyCodeObject
  entry_block : BlockId
  ids : List BlockId
  block : BlockId → List Instr

namespace Function

variable (func : Function)

def update_every_bc : Bool := func.code.co_linetable = none || func.code.co_linetable = some 0

def codeOf (parent : Option BeginInlinedFunction) : PyCodeObject :=
  match parent with
  | none => func.code
  | some begin => begin.code

end Function

/-! ## The pass -/

/-- The variables of the pass, while it goes through a block. -/
structure State where
  code_bc_idx_map : PyCodeObject → Option (List Int)
  parents : BeginInlinedFunction → Option BeginInlinedFunction := fun _ => none
  inited_once : Bool := false
  parent : Option BeginInlinedFunction := none
  prev_emitted_lno_or_bc : Int := INT_MAX
  /-- The instructions of the block up to `last_emitted`, or all of them. -/
  front : List Instr := []
  /-- `last_emitted`, with the instructions that have followed it. -/
  last_emitted : Option (Instr × List Instr) := none

namespace State

variable (s : State)

def instrs : List Instr :=
  match s.last_emitted with
  | some (update, since) => s.front ++ update :: since
  | none => s.front

def push (instr : Instr) : State :=
  match s.last_emitted with
  | some (update, since) => { s with last_emitted := some (update, since ++ [instr]) }
  | none => { s with front := s.front ++ [instr] }

def forget : State := { s with front := s.instrs, last_emitted := none }

/-- An update in front of an instruction; it is `last_emitted`, or a new one. -/
def add_update_prev_instr (instr : Instr) (line_no : Int) : State :=
  match s.last_emitted with
  | some (update, since) => { s with
      front := s.front ++ since
      last_emitted := some
        ({ update with lineNo := line_no, bytecodeOffset := instr.bytecodeOffset }, []) }
  | none => { s with
      last_emitted := some ({
        opcode := .kUpdatePrevInstr, lineNo := line_no, inlined := s.parent,
        bytecodeOffset := instr.bytecodeOffset }, []) }

variable (func : Function)

def update_one (instr : Instr) : Option State :=
  if func.update_every_bc then
    let cur_bc_offs := instr.bytecodeOffset
    if cur_bc_offs ≠ s.prev_emitted_lno_or_bc then
      some { s.add_update_prev_instr instr (-1) with prev_emitted_lno_or_bc := cur_bc_offs }
    else some s
  else do
    let cur_bc_idx_to_line ← s.code_bc_idx_map (func.codeOf s.parent)
    let cur_line_no := BytecodeIndexToLine.lineNoFor cur_bc_idx_to_line
      (asIndex instr.bytecodeOffset)
    if cur_line_no ≠ s.prev_emitted_lno_or_bc then
      return { s.add_update_prev_instr instr cur_line_no with
        prev_emitted_lno_or_bc := cur_line_no }
    else return s

variable (lightweight : Bool)

def visitInlined (instr : Instr) : Option State :=
  match instr.opcode, instr.inlined with
  | .kBeginInlinedFunction, some begin => do
      let s ← s.update_one func instr
      return { s.forget with
        code_bc_idx_map :=
          if s.code_bc_idx_map begin.code = none then
            Function.update s.code_bc_idx_map begin.code
              (some (BytecodeIndexToLine.create begin.code))
          else s.code_bc_idx_map
        parents := Function.update s.parents begin s.parent
        parent := some begin
        prev_emitted_lno_or_bc := INT_MAX
        inited_once := if lightweight then false else s.inited_once }
  | .kEndInlinedFunction, some begin =>
    some { s.forget with
      parent := s.parents begin
      prev_emitted_lno_or_bc := INT_MAX }
  | _, _ => some s

/-- The update for `RESUME`, which says that the frame is complete. -/
def initOnce : Option State := do
  let target_code := func.codeOf s.parent
  let cur_bc_idx_to_line ← s.code_bc_idx_map target_code
  let update_instr : Instr := {
    opcode := .kUpdatePrevInstr, inlined := s.parent,
    lineNo := BytecodeIndexToLine.lineNoFor cur_bc_idx_to_line target_code.firsttraceable
    bytecodeOffset := target_code.firsttraceable * 2 }
  return { s with
    front := s.instrs
    last_emitted := some (update_instr, [])
    inited_once := true }

def visitInstr (instr : Instr) : Option State := do
  let s ← s.visitInlined func lightweight instr
  let s ←
    if lightweight = true ∧ s.inited_once = false ∧ instr.opcode = .kLoadEvalBreaker then
      s.initOnce func
    else if hasArbitraryExecution instr then do
      let s ← s.update_one func instr
      some s.forget
    else some s
  return s.push instr

end State

structure InlineStackState where
  block : BlockId
  parent : Option BeginInlinedFunction

structure Run where
  block : BlockId → List Instr
  worklist : List InlineStackState
  enqueued : List BlockId := []
  state : State

namespace Run

variable (func : Function) (lightweight : Bool) (r : Run)

def enqueue (parent : Option BeginInlinedFunction) (r : Run) (succ : BlockId) : Run :=
  if succ ∈ r.enqueued then r
  else { r with worklist := ⟨succ, parent⟩ :: r.worklist, enqueued := succ :: r.enqueued }

/-- One block; `rest` is the worklist without it. -/
def visitBlock (cur : InlineStackState) (rest : List InlineStackState) : Option Run := do
  let state ← (r.block cur.block).foldlM (State.visitInstr · func lightweight ·) { r.state with
    parent := cur.parent
    prev_emitted_lno_or_bc := INT_MAX
    front := []
    last_emitted := none }
  let term ← (r.block cur.block).getLast?
  return term.successors.foldl (enqueue state.parent) { r with
    block := Function.update r.block cur.block state.instrs
    worklist := rest
    state := state }

def loop : Nat → Run → Option Run
  | 0, r => if r.worklist.isEmpty then some r else none
  | fuel + 1, r =>
    match r.worklist with
    | [] => some r
    | cur :: rest => do loop fuel (← r.visitBlock func lightweight cur rest)

def start : Run where
  block := func.block
  worklist := [⟨func.entry_block, none⟩]
  state := {
    code_bc_idx_map :=
      Function.update (fun _ => none) func.code (some (BytecodeIndexToLine.create func.code)) }

end Run

def Function.insertUpdates (func : Function) (lightweight : Bool) (fuel : Nat) :
    Option Function := do
  let r ← Run.loop func lightweight fuel (Run.start func)
  return { func with block := r.block }

end CinderX.Jit.Hir.UpdatePrevInstr
