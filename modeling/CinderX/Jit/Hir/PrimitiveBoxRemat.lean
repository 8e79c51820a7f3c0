import CinderX.Jit.Hir.FloatComparison

/-!
# Rematerialization of boxed doubles

A deopt boxes the doubles that it finds in frame states.  A `PrimitiveBox` whose
output is in frame states and otherwise only in `UseType`s is removed, and the
frame states keep the double.  Before Python 3.12 a box that is the right side of
an in-place operation behind a type check is moved to that operation first.

The types of the registers are a parameter here, so there is nothing to do for
`reflowTypes`.
-/

namespace CinderX.Jit.Hir

variable {n : Nat} {f : Function n}

inductive InPlaceOpKind where
  | kAdd | kAnd | kFloorDivide | kLShift | kMatrixMultiply | kModulo | kMultiply | kOr | kPower
  | kRShift | kSubtract | kTrueDivide | kXor
  deriving DecidableEq

namespace InPlaceOpKind

def all : List InPlaceOpKind :=
  [kAdd, kAnd, kFloorDivide, kLShift, kMatrixMultiply, kModulo, kMultiply, kOr, kPower, kRShift,
    kSubtract, kTrueDivide, kXor]

end InPlaceOpKind

namespace Instr

/-- `get_frame_state` with the parents, for a `Snapshot` or a deopt.  What a `BeginInlinedFunction`
owns is a `Caller` below, as its `visitUses` does not go through it. -/
def frames (instr : Instr n) : FrameState n :=
  (match instr.deopt with
    | some info => info.frameState
    | none => []) ++ instr.snapshotState

def frameUses (instr : Instr n) : List (Register n) := instr.frames.flatMap Frame.uses

/-- What `visitUses` goes through apart from operands and frame states. -/
def otherUses (instr : Instr n) : List (Register n) :=
  (match instr.deopt with
    | some info => info.guiltyReg.toList
    | none => []) ++ instr.yieldFromIter.toList

def mapFrames (rename : Register n → Register n) (instr : Instr n) : Instr n :=
  { instr with
    deopt := instr.deopt.map fun info =>
      ⟨info.frameState.map (Frame.mapUses rename), info.guiltyReg⟩
    snapshotState := instr.snapshotState.map (Frame.mapUses rename) }

def isDoubleBox (instr : Instr n) : Bool :=
  instr.opcode = .kPrimitiveBox && instr.immediate = TCDouble

def inPlaceOpKind? (instr : Instr n) : Option InPlaceOpKind :=
  InPlaceOpKind.all[instr.immediate / 2]?

def hasFloatFastPath (instr : Instr n) : Bool := instr.immediate % 2 = 1

end Instr

/-- The frame state that a `BeginInlinedFunction` owns, without its parents: other ones own these.
`visitUses` goes through it only if it is `shared`, as a parent of the frame state of an instruction
that is left when copies are propagated. -/
structure Caller (n : Nat) where
  frame : Frame n
  shared : Bool

def Caller.mapUses (rename : Register n → Register n) (caller : Caller n) : Caller n :=
  if caller.shared then { caller with frame := caller.frame.mapUses rename } else caller

structure InlinedFunction (n : Nat) extends Function n where
  callers : List (Caller n) := []

structure BoxMove (n : Nat) where
  box : Instr n
  boxed : Register n
  unboxed : Register n
  target : Option BlockId
  deriving DecidableEq

def unboxedIn (moves : List (BoxMove n)) (reg : Register n) : Register n :=
  match moves.find? fun move => move.boxed = reg with
  | some move => move.unboxed
  | none => reg

def isUnlinked (moves : List (BoxMove n)) (instr : Instr n) : Bool :=
  moves.any fun move =>
    instr = move.box ∨ instr.opcode = .kUseType ∧ move.boxed ∈ instr.operands

def keptIn (moves : List (BoxMove n)) (instrs : List (Instr n)) : List (Instr n) :=
  (instrs.filter fun instr => !isUnlinked moves instr).map (Instr.mapFrames (unboxedIn moves))

def insertedIn (moves : List (BoxMove n)) (id : BlockId) : List (Instr n) :=
  (moves.filter fun move => move.target = some id).map BoxMove.box

def Function.moveBoxes (f : Function n) (moves : List (BoxMove n)) : Function n :=
  f.mapBlocks fun block => insertedIn moves block.id ++ keptIn moves block.instrs

def InlinedFunction.moveBoxes (f : InlinedFunction n) (moves : List (BoxMove n)) :
    InlinedFunction n where
  toFunction := f.toFunction.moveBoxes moves
  callers := f.callers.map fun caller =>
    { caller with frame := caller.frame.mapUses (unboxedIn moves) }

def Opcode.passesBox : Opcode → Bool
  | .kSnapshot | .kCheckInstrumentation | .kUpdatePrevInstr | .kUseType => true
  | _ => false

namespace Function

def doubleBoxes (f : Function n) : List (Register n) :=
  f.instrs.filterMap fun instr => if instr.isDoubleBox then instr.output else none

/-- The `InPlaceOp` that is the only instruction, apart from `UseType`s, with a box as an
operand. -/
def inPlaceUser? (f : Function n) (boxed : Register n) : Option (Instr n) :=
  match (f.directRegUses boxed).filter fun use => use.opcode ≠ .kUseType with
  | [consumer] =>
    match consumer.operands with
    | [left, right] =>
      if consumer.opcode = .kInPlaceOp ∧ consumer.hasFloatFastPath = false ∧ right = boxed ∧
          left ≠ boxed ∧ (consumer.inPlaceOpKind? = some .kAdd ∨
            consumer.inPlaceOpKind? = some .kSubtract) then
        some consumer
      else none
    | _ => none
  | _ => none

def blockOf? (f : Function n) (instr : Instr n) : Option (BasicBlock n) :=
  f.blocks.find? fun block => instr ∈ block.instrs

/-- The `UseType`s of a register, if it is no operand of anything else. -/
def collectRemovableUses (f : Function n) (boxed : Register n) : Option (List (Instr n)) :=
  if ∀ use ∈ f.directRegUses boxed, use.opcode = .kUseType then some (f.directRegUses boxed)
  else none

def rematCandidates (f : Function n) (isCDouble : Register n → Bool) : List (BoxMove n) :=
  f.instrs.filterMap fun box =>
    match box.output, box.operands with
    | some boxed, [unboxed] =>
      if box.isDoubleBox ∧ isCDouble unboxed ∧ (f.collectRemovableUses boxed).isSome then
        some ⟨box, boxed, unboxed, none⟩
      else none
    | _, _ => none

end Function

namespace InlinedFunction

variable (f : InlinedFunction n)

/-- All that `get_frame_state` finds in the function, with the parents. -/
def frames : List (Frame n) := f.instrs.flatMap Instr.frames ++ f.callers.map Caller.frame

def namedRegs : List (Register n) :=
  f.frames.flatMap fun frame => (frame.localsplus.filterMap id).map f.modelReg

/-- Whether every frame state with the box on its stack is between the box and the branch, where no
function is inlined. -/
def stackUsesBeforeBranch (source : BasicBlock n) (box : Instr n) (boxed : Register n) : Bool :=
  (f.callers.all fun caller => boxed ∉ caller.frame.stack) &&
    f.blocks.all fun block =>
      let outside := if block.id = source.id then
          source.instrs.takeWhile (fun instr => instr ≠ box) ++ [box]
        else block.instrs
      outside.all fun instr => instr.frames.all fun frame => boxed ∉ frame.stack

def sinkTarget? (box : Instr n) (boxed : Register n) : Option BlockId :=
  if boxed ∈ f.namedRegs then none
  else
    match f.inPlaceUser? boxed with
    | none => none
    | some consumer =>
      match f.blockOf? box, f.blockOf? consumer with
      | some source, some slow =>
        match source.terminator? with
        | none => none
        | some branch =>
          if branch.opcode = .kCondBranchCheckType ∧ source.id ≠ slow.id ∧
              (f.inEdges slow.id).length = 1 ∧ slow.instrs.head? = some consumer ∧
              branch.immediate = TFloatExact ∧ branch.successors[1]? = some slow.id ∧
              branch.operands.head? = consumer.operands.head? ∧
              (∀ instr ∈ (source.instrs.dropWhile fun instr => instr ≠ box).tail.dropLast,
                instr.opcode.passesBox = true) ∧
              f.stackUsesBeforeBranch source box boxed = true then
            some slow.id
          else none
      | _, _ => none

def sink? (boxed : Register n) : Option (BoxMove n) :=
  match f.instr? boxed with
  | none => none
  | some box =>
    match box.operands with
    | [value] =>
      if box.isDoubleBox then
        (f.sinkTarget? box boxed).map fun slow => ⟨box, boxed, value, some slow⟩
      else none
    | _ => none

/-- No local variable is a box that is moved, so that both parts of a frame state can be mapped. -/
def sinkBoxes :
    List (Register n) → InlinedFunction n → InlinedFunction n × List (BoxMove n)
  | [], f => (f, [])
  | boxed :: rest, f =>
    match f.sink? boxed with
    | none => sinkBoxes rest f
    | some move =>
      let later := sinkBoxes rest (f.moveBoxes [move])
      (later.1, move :: later.2)

def sinkInPlaceTemporaryBoxes : InlinedFunction n × List (BoxMove n) :=
  sinkBoxes f.doubleBoxes f

def rematerialized (isCDouble : Register n → Bool) : List (BoxMove n) :=
  (f.rematCandidates isCDouble).filter fun move => f.frames.any fun frame => move.boxed ∈ frame.uses

def movedBoxes (beforePy312 : Bool) (isCDouble : Register n → Bool) :
    InlinedFunction n × List (BoxMove n) :=
  let sunk := if beforePy312 then f.sinkInPlaceTemporaryBoxes else (f, [])
  let removed := sunk.1.rematerialized isCDouble
  (sunk.1.moveBoxes removed, sunk.2 ++ removed)

def copyPropagation : Option (InlinedFunction n) :=
  (Hir.copyPropagation f.toFunction).map fun g =>
    { toFunction := g
      callers := f.callers.map (Caller.mapUses f.propagatedTo) }

end InlinedFunction

def primitiveBoxRemat (beforePy312 : Bool) (isCDouble : Register n → Bool)
    (f : InlinedFunction n) : Option (InlinedFunction n) :=
  let moved := f.movedBoxes beforePy312 isCDouble
  if moved.2 = [] then some f else moved.1.copyPropagation

end CinderX.Jit.Hir
