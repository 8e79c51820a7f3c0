import CinderX.Jit.Hir.FloatComparison
import CinderX.Jit.Hir.PyNumber

/-!
# Lowering arithmetic

What the simplifier makes of a `BinaryOp` or an `InPlaceOp` with float and int
operands.  Which instructions it emits depends on the types of the operands only;
they are given by what they do with the operands.  Versions before 3.14 call the
square root for an int to the power 0.5; here it is the power, which raises no
exception either.
-/

namespace CinderX.Jit.Hir

open Foundation

inductive Target where
  | x86_64 | aarch64
  deriving DecidableEq

/-- What `TranslateCompare` reads after `comisd`, which clears the sign and the overflow flag. -/
def PrimitiveCompareOp.afterComisd (op : PrimitiveCompareOp) (order : Option Ordering) : Bool :=
  let zf := order = none || order = some .eq
  let cf := order = none || order = some .lt
  match op with
  | kEqual => zf
  | kNotEqual => !zf
  | kGreaterThan => !zf
  | kGreaterThanEqual => true
  | kLessThan => false
  | kLessThanEqual => zf
  | kGreaterThanUnsigned => !cf && !zf
  | kGreaterThanEqualUnsigned => !cf
  | kLessThanUnsigned => cf
  | kLessThanEqualUnsigned => cf || zf

def Target.compare (target : Target) (op : PrimitiveCompareOp) (a b : Double) : Bool :=
  match target with
  | .x86_64 => op.afterComisd (a.compare b)
  | .aarch64 => op.condCode.holds (fcmp a b)

/-- How far the iterations of the simplifier get: to the operation, to the `FloatBinaryOp` or the
`LongBinaryOp` that it has become, or to the comparisons emitted for that. -/
inductive Progress where
  | operation | slot | comparison
  deriving DecidableEq

structure Platform where
  target : Target
  /-- `PY_VERSION_HEX` -/
  version : Nat
  multithreadedCompile : Bool
  specializedOpcodes : Bool
  progress : Progress

/-- `other` is any type that is neither `TLongExact` nor `TFloatExact` nor below one of them. -/
inductive StaticType where
  | longExact (spec : Option Int)
  | floatExact (spec : Option Double)
  | other (couldBeFloat : Bool)

namespace StaticType

def Has : StaticType → Number → Prop
  | longExact spec, .long i => ∀ j ∈ spec, i = j
  | floatExact spec, .float d => ∀ e ∈ spec, d = e
  | other couldBeFloat, .float _ => couldBeFloat = true
  | other _, .long _ => True
  | _, _ => False

def couldBeFloat : StaticType → Bool
  | longExact _ => false
  | floatExact _ => true
  | other couldBeFloat => couldBeFloat

def refineFloat : StaticType → StaticType
  | floatExact spec => floatExact spec
  | _ => floatExact none

theorem has_floatExact {spec : Option Double} {value : Number} (h : (floatExact spec).Has value) :
    ∃ d, value = .float d ∧ ∀ e ∈ spec, d = e := by
  cases value with
  | float d => exact ⟨d, rfl, h⟩
  | long i => exact h.elim

theorem has_longExact {spec : Option Int} {value : Number} (h : (longExact spec).Has value) :
    ∃ i, value = .long i ∧ ∀ j ∈ spec, i = j := by
  cases value with
  | float d => exact h.elim
  | long i => exact ⟨i, rfl, h⟩

theorem has_refineFloat {type : StaticType} {d : Double} (h : type.Has (.float d)) :
    type.refineFloat.Has (.float d) := by
  cases type with
  | floatExact spec => exact h
  | longExact spec => exact h.elim
  | other couldBeFloat => simp [refineFloat, Has]

end StaticType

/-- How code ends early; `abort` for an operand of another type than the instruction has. -/
inductive CodeExit where
  | deopt
  | raised (exc : Exc)
  | abort
  deriving DecidableEq

abbrev Code : Type := Number → Number → Except CodeExit PyResult

namespace Lowered

def primitiveUnbox : Number → Except CodeExit Double
  | .float d => .ok d
  | .long _ => .error .abort

def primitiveBox (d : Double) : Except CodeExit PyResult := .ok (.float d)

def guard (value : Bool) : Except CodeExit Unit := if value then .ok () else .error .deopt

def guardFloat : Number → Except CodeExit Number
  | .float d => .ok (.float d)
  | .long _ => .error .deopt

def isCompact (i : Int) : Bool := i.natAbs < 2 ^ 30

def isCompactLong : Number → Except CodeExit Bool
  | .long i => .ok (isCompact i)
  | .float _ => .error .abort

def compactLongUnbox : Number → Except CodeExit Int
  | .long i => .ok i
  | .float _ => .error .abort

def doubleBinaryOp (rt : Runtime) (op : BinaryOpKind) (a b : Double) : Except CodeExit Double :=
  match op with
  | .kAdd => .ok (a.add b)
  | .kSubtract => .ok (a.sub b)
  | .kMultiply => .ok (a.mul b)
  | .kTrueDivide => .ok (a.div b)
  | .kPower => .ok (rt.pow a b)
  | _ => .error .abort

def call (result : Except Exc PyResult) : Except CodeExit PyResult := result.mapError .raised

def floatSlot (rt : Runtime) (op : BinaryOpKind) : Code
  | .float a, .float b => call (rt.floatSlot op a b)
  | _, _ => .error .abort

def longSlot (rt : Runtime) (op : BinaryOpKind) : Code
  | .long a, .long b => call (rt.longBinary op a b)
  | _, _ => .error .abort

/-- `PrimitiveCompare` with 0.0.  Two constants are found unequal if they are not the same
pattern. -/
def isNonzero (p : Platform) (spec : Option Double) (value : Double) : Bool :=
  if p.progress = .comparison ∧ ∃ d ∈ spec, d ≠ Double.zero false then true
  else p.target.compare .kNotEqual value (.zero false)

def longFloatTrueDivide : Code
  | .long i, .float d => call do
      let lhs ← PyLong_AsDouble i
      if d.isZero then .error .ZeroDivisionError else .ok (.float (lhs.div d))
  | _, _ => .error .abort

end Lowered

open Lowered

/-! ## Lowering -/

section

variable (rt : Runtime) (p : Platform)

inductive Lowering where
  | longBinaryOp (op : BinaryOpKind)
  | floatBinaryOp (op : BinaryOpKind)
  | floatInPlace (op : BinaryOpKind)
  | code (run : Code)

def BinaryOpKind.isUnboxed : BinaryOpKind → Bool
  | kAdd | kSubtract | kMultiply | kTrueDivide | kPower => true
  | _ => false

def fitsLong (i : Int) : Bool := -2 ^ 63 ≤ i && i < 2 ^ 63

def square (unboxed : Double) : Except CodeExit PyResult := do
  let result ← doubleBinaryOp rt .kMultiply unboxed unboxed
  guard (p.target.compare .kLessThan result .maxFinite)
  primitiveBox result

def mixedConstant (op : BinaryOpKind) (longVal : Int) (floatSpec : Option Double)
    (intOnRight : Bool) : Code := fun left right => do
  let unboxFloat ← primitiveUnbox (if intOnRight then left else right)
  if op = .kPower ∧ longVal = 2 then square rt p unboxFloat
  else
    let constDouble := Double.ofInt longVal
    let unboxLeft := if intOnRight then unboxFloat else constDouble
    let unboxRight := if intOnRight then constDouble else unboxFloat
    if op = .kTrueDivide then
      guard (isNonzero p (if intOnRight then some constDouble else floatSpec) unboxRight)
    let result ← doubleBinaryOp rt op unboxLeft unboxRight
    primitiveBox result

def mixedCompact (op : BinaryOpKind) (intOnRight : Bool) : Code := fun left right => do
  let int := if intOnRight then right else left
  guard (← isCompactLong int)
  let intAsDouble := Double.ofInt (← compactLongUnbox int)
  let unboxFloat ← primitiveUnbox (if intOnRight then left else right)
  let unboxLeft := if intOnRight then unboxFloat else intAsDouble
  let unboxRight := if intOnRight then intAsDouble else unboxFloat
  if op = .kTrueDivide then guard (isNonzero p none unboxRight)
  let result ← doubleBinaryOp rt op unboxLeft unboxRight
  primitiveBox result

def simplifyBinaryOp (op : BinaryOpKind) (left right : StaticType) : Option Lowering :=
  if op = .kSubscript then none
  else
    match left, right with
    | .longExact _, .longExact _ =>
      if op = .kMatrixMultiply then none else some (.longBinaryOp op)
    | .floatExact _, .floatExact _ => if op.isFloatSlot then some (.floatBinaryOp op) else none
    | .floatExact spec, .longExact (some longVal) =>
      if op.isUnboxed && fitsLong longVal then
        some (.code (mixedConstant rt p op longVal spec true))
      else none
    | .longExact (some longVal), .floatExact spec =>
      if op.isUnboxed && fitsLong longVal then
        some (.code (mixedConstant rt p op longVal spec false))
      else none
    | .floatExact _, .longExact none =>
      if op.isUnboxed then some (.code (mixedCompact rt p op true)) else none
    | .longExact none, .floatExact _ =>
      if op = .kTrueDivide then some (.code longFloatTrueDivide)
      else if op.isUnboxed then some (.code (mixedCompact rt p op false)) else none
    | .other _, .longExact (some longVal) =>
      if op = .kPower ∧ longVal = 2 then
        some (.code fun left _ => do square rt p (← primitiveUnbox (← guardFloat left)))
      else none
    | _, _ => none

/-- The exponents for which versions from 3.14 on have a fast path: 0.5, 1, 1.5, 2, 3, -0.5, -1,
-1.5 and -2. -/
def fastExponents : List Double :=
  [⟨0x3FE0000000000000⟩, ⟨0x3FF0000000000000⟩, ⟨0x3FF8000000000000⟩, ⟨0x4000000000000000⟩,
    ⟨0x4008000000000000⟩, ⟨0xBFE0000000000000⟩, ⟨0xBFF0000000000000⟩, ⟨0xBFF8000000000000⟩,
    ⟨0xC000000000000000⟩]

def fastPower (exponent : Double) : Code := fun left _ => do
  let base ← primitiveUnbox left
  guard (p.target.compare .kGreaterThan base (.zero false))
  let power ← doubleBinaryOp rt .kPower base exponent
  guard (p.target.compare .kLessThan power .maxFinite)
  primitiveBox power

def foldSlot (result : Except Exc PyResult) : Option Code :=
  match result with
  | .ok result => if p.multithreadedCompile then none else some fun _ _ => .ok result
  | .error _ => none

def simplifyFloatBinaryOp (op : BinaryOpKind) (left right : StaticType) : Option Code :=
  match op with
  | .kAdd | .kSubtract | .kMultiply => some fun left right => do
      let unboxLeft ← primitiveUnbox left
      let unboxRight ← primitiveUnbox right
      let result ← doubleBinaryOp rt op unboxLeft unboxRight
      primitiveBox result
  | .kTrueDivide => some fun left right' => do
      let unboxLeft ← primitiveUnbox left
      let unboxRight ← primitiveUnbox right'
      guard (isNonzero p (match right with | .floatExact spec => spec | _ => none) unboxRight)
      let result ← doubleBinaryOp rt op unboxLeft unboxRight
      primitiveBox result
  | op =>
    match left, right with
    | .floatExact (some a), .floatExact (some b) => foldSlot p (rt.floatSlot op a b)
    | .floatExact none, .floatExact (some exponent) =>
      if op = .kPower ∧ 0x030E0000 ≤ p.version ∧ exponent ∈ fastExponents then
        some (fastPower rt p exponent)
      else none
    | _, _ => none

def simplifyLongBinaryOp (op : BinaryOpKind) (left right : StaticType) : Option Code :=
  match left, right with
  | .longExact (some a), .longExact (some b) => foldSlot p (rt.longBinary op a b)
  | _, _ => none

structure InPlaceOp where
  op : BinaryOpKind
  op_ne : op ≠ .kSubscript
  hasFloatFastPath : Bool
  frameStateSize : Nat

def trySimplifyFloatInPlace (instr : InPlaceOp) (left right : StaticType) : Option Lowering :=
  if p.version < 0x030C0000 ∧ instr.hasFloatFastPath = true ∧ p.specializedOpcodes = true ∧
      (instr.op = .kAdd ∨ instr.op = .kSubtract) ∧ left.couldBeFloat = true ∧
        right.couldBeFloat = true then
    some (.floatInPlace instr.op)
  else none

def compactInPlace (op : BinaryOpKind) : Code := fun left right => do
  guard ((← isCompactLong left) && (← isCompactLong right))
  let unboxedLhs ← compactLongUnbox left
  let unboxedRhs ← compactLongUnbox right
  .ok (.long (if op = .kAdd then unboxedLhs + unboxedRhs else unboxedLhs - unboxedRhs))

def simplifyInPlaceOp (instr : InPlaceOp) (left right : StaticType) : Option Lowering :=
  match left, right with
  | .longExact _, .longExact _ =>
    if p.version < 0x030C0000 ∧ (instr.op = .kAdd ∨ instr.op = .kSubtract) ∧
        instr.frameStateSize ≤ 8 then
      some (.code (compactInPlace instr.op))
    else if instr.op = .kMatrixMultiply then none
    else some (.longBinaryOp instr.op)
  | .floatExact _, .floatExact _ =>
    if instr.op.isFloatSlot then some (.floatBinaryOp instr.op) else none
  | left, right => trySimplifyFloatInPlace p instr left right

end

inductive Operation where
  | binaryOp (op : BinaryOpKind)
  | inPlaceOp (instr : InPlaceOp)

namespace Operation

def op : Operation → BinaryOpKind
  | binaryOp op => op
  | inPlaceOp instr => instr.op

variable (rt : Runtime) (p : Platform)

def simplify : Operation → StaticType → StaticType → Option Lowering
  | binaryOp op, left, right => simplifyBinaryOp rt p op left right
  | inPlaceOp instr, left, right => simplifyInPlaceOp p instr left right

def slotCode (simplified : Option Code) (slot : Code) : Code :=
  if p.progress = .operation then slot else simplified.getD slot

def floatCode (op : BinaryOpKind) (left right : StaticType) : Code :=
  slotCode p (simplifyFloatBinaryOp rt p op left right) (floatSlot rt op)

def longCode (op : BinaryOpKind) (left right : StaticType) : Code :=
  slotCode p (simplifyLongBinaryOp rt p op left right) (longSlot rt op)

def lower (operation : Operation) (left right : StaticType) : Option Code :=
  (operation.simplify rt p left right).map fun
    | .longBinaryOp op => longCode rt p op left right
    | .floatBinaryOp op => floatCode rt p op left right
    | .floatInPlace op => fun leftValue rightValue =>
      match leftValue, rightValue with
      | .float _, .float _ =>
        floatCode rt p op left.refineFloat right.refineFloat leftValue rightValue
      | _, _ => call (rt.binaryOp op leftValue rightValue)
    | .code run => run

end Operation

end CinderX.Jit.Hir
