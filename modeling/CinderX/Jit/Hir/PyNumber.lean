import CinderX.Foundation.Ieee754

/-!
# Python's arithmetic on floats and ints

What the generic operations give for exact floats and ints, by the slots of `float`
and `int`.  The functions of the C library, the remainders of floats, the powers
that are complex and most operations of two ints are parameters.
-/

namespace CinderX.Jit.Hir

open Foundation

inductive BinaryOpKind where
  | kAdd | kAnd | kFloorDivide | kLShift | kMatrixMultiply | kModulo | kMultiply | kOr | kPower
  | kRShift | kSubscript | kSubtract | kTrueDivide | kXor
  deriving DecidableEq

inductive Exc where
  | ZeroDivisionError | OverflowError | ValueError | TypeError
  deriving DecidableEq

inductive Number where
  | float (value : Double)
  | long (value : Int)
  deriving DecidableEq

inductive PyResult where
  | number (value : Number)
  | complex (re im : Double)
  deriving DecidableEq

inductive PyType where
  | float | long | complex
  deriving DecidableEq

namespace PyResult

def float (value : Double) : PyResult := .number (.float value)

def long (value : Int) : PyResult := .number (.long value)

def type : PyResult → PyType
  | .number (.float _) => .float
  | .number (.long _) => .long
  | .complex _ _ => .complex

end PyResult

inductive Errno where
  | EDOM | ERANGE
  deriving DecidableEq

/-- With what the C library documents of `pow`: for a positive base the only error is a range error,
the result being infinite for an overflow and 0 for an underflow; and an overflow is reported only
for a result beyond the largest double, here for squares in the units of `magnitude`. -/
structure Runtime where
  pow : Double → Double → Double
  errno : Double → Double → Option Errno
  floorDivide : Double → Double → Double
  remainder : Double → Double → Double
  complexPow : Double → Double → Except Exc (Double × Double)
  longSlot : BinaryOpKind → Int → Int → Except Exc PyResult
  pow_positive : ∀ base exponent, base.isFinite = true → base.sign = false →
    exponent.isFinite = true → (pow base exponent).sign = false
  errno_pow : ∀ base exponent, base.isFinite = true → base.sign = false → base.isZero = false →
    exponent.isFinite = true → errno base exponent = none ∨ errno base exponent = some .ERANGE ∧
      ((pow base exponent).isInfinite = true ∨ (pow base exponent).isZero = true)
  overflow_square : ∀ base, base.isFinite = true → base.sign = false →
    (pow base Double.two).isInfinite = true →
      Double.maxFinite.magnitude * 2 ^ 1074 ≤ base.magnitude * base.magnitude

namespace Runtime

variable (rt : Runtime)

def powError (base exponent : Double) : Option Exc :=
  match rt.errno base exponent with
  | none => if (rt.pow base exponent).isInfinite then some .OverflowError else none
  | some .ERANGE => if (rt.pow base exponent).isZero then none else some .OverflowError
  | some .EDOM => some .ValueError

def floatPow (iv iw : Double) : Except Exc PyResult :=
  if iw.isZero then .ok (.float .one)
  else if iv.isNaN then .ok (.float iv)
  else if iw.isNaN then .ok (.float (if iv = .one then .one else iw))
  else if iw.isInfinite then
    if iv.abs = .one then .ok (.float .one)
    else if !iw.sign = decide (iv.abs.compare .one = some .gt) then .ok (.float iw.abs)
    else .ok (.float (.zero false))
  else if iv.isInfinite then
    if iw.sign then .ok (.float (.zero (iw.isOddInteger && iv.sign)))
    else .ok (.float (if iw.isOddInteger then iv else iv.abs))
  else if iv.isZero then
    if iw.sign then .error .ZeroDivisionError
    else .ok (.float (if iw.isOddInteger then iv else .zero false))
  else if iv.sign && !iw.isInteger then (rt.complexPow iv iw).map fun (re, im) => .complex re im
  else
    let negateResult := iv.sign && iw.isOddInteger
    if iv.abs = .one then .ok (.float (if negateResult then Double.one.neg else .one))
    else
      match rt.powError iv.abs iw with
      | none => .ok (.float (if negateResult then (rt.pow iv.abs iw).neg else rt.pow iv.abs iw))
      | some exc => .error exc

def floatSlot (op : BinaryOpKind) (a b : Double) : Except Exc PyResult :=
  match op with
  | .kAdd => .ok (.float (a.add b))
  | .kSubtract => .ok (.float (a.sub b))
  | .kMultiply => .ok (.float (a.mul b))
  | .kTrueDivide => if b.isZero then .error .ZeroDivisionError else .ok (.float (a.div b))
  | .kFloorDivide =>
    if b.isZero then .error .ZeroDivisionError else .ok (.float (rt.floorDivide a b))
  | .kModulo => if b.isZero then .error .ZeroDivisionError else .ok (.float (rt.remainder a b))
  | .kPower => rt.floatPow a b
  | .kAnd | .kLShift | .kMatrixMultiply | .kOr | .kRShift | .kSubscript | .kXor => .error .TypeError

def longBinary (op : BinaryOpKind) (a b : Int) : Except Exc PyResult :=
  match op with
  | .kAdd => .ok (.long (a + b))
  | .kSubtract => .ok (.long (a - b))
  | .kMultiply => .ok (.long (a * b))
  | .kMatrixMultiply | .kSubscript => .error .TypeError
  | op => rt.longSlot op a b

end Runtime

def BinaryOpKind.isFloatSlot : BinaryOpKind → Bool
  | kAdd | kFloorDivide | kModulo | kMultiply | kPower | kSubtract | kTrueDivide => true
  | _ => false

def PyLong_AsDouble (i : Int) : Except Exc Double :=
  if (Double.ofInt i).isFinite then .ok (.ofInt i) else .error .OverflowError

def Runtime.binaryOp (rt : Runtime) (op : BinaryOpKind) : Number → Number → Except Exc PyResult
  | .long a, .long b => rt.longBinary op a b
  | .float a, .float b => rt.floatSlot op a b
  | .float a, .long b =>
    if op.isFloatSlot then PyLong_AsDouble b >>= fun b => rt.floatSlot op a b
    else .error .TypeError
  | .long a, .float b =>
    if op.isFloatSlot then PyLong_AsDouble a >>= fun a => rt.floatSlot op a b
    else .error .TypeError

namespace Runtime

variable (rt : Runtime)

/-- Zero to a negative power, a negative number to a fractional power, or an error of the
library. -/
def PowerLeaves (base exponent : Double) : Prop :=
  base.isFinite = true ∧ exponent.isFinite = true ∧ exponent.isZero = false ∧
    (if base.isZero then exponent.sign = true
    else if base.sign && !exponent.isInteger then True
    else base.abs ≠ Double.one ∧ rt.powError base.abs exponent ≠ none)

variable {base exponent : Double}

theorem floatPow_of_special
    (h : ¬(base.isFinite = true ∧ exponent.isFinite = true ∧ exponent.isZero = false)) :
    ∃ d, rt.floatPow base exponent = .ok (.float d) := by
  unfold floatPow
  split
  next => exact ⟨_, rfl⟩
  next hzero =>
    split
    next => exact ⟨_, rfl⟩
    next hnan =>
      split
      next => exact ⟨_, rfl⟩
      next hnan' =>
        split
        next =>
          split
          next => exact ⟨_, rfl⟩
          next => split <;> exact ⟨_, rfl⟩
        next hinfinite' =>
          split
          next => split <;> exact ⟨_, rfl⟩
          next hinfinite =>
            refine absurd ⟨?_, ?_, by simpa using hzero⟩ h
            · exact Double.isFinite_iff.mpr ⟨by simpa using hnan, by simpa using hinfinite⟩
            · exact Double.isFinite_iff.mpr ⟨by simpa using hnan', by simpa using hinfinite'⟩

theorem floatPow_of_finite (hbase : base.isFinite = true)
    (hexponent : exponent.isFinite = true) (hzero : exponent.isZero = false) :
    (∃ d, rt.floatPow base exponent = .ok (.float d)) ↔ ¬rt.PowerLeaves base exponent := by
  obtain ⟨hnan, hinfinite⟩ := Double.isFinite_iff.mp hbase
  obtain ⟨hnan', hinfinite'⟩ := Double.isFinite_iff.mp hexponent
  simp only [floatPow, PowerLeaves, hbase, hexponent, hzero, hnan, hinfinite, hnan', hinfinite',
    Bool.false_eq_true, if_false, true_and]
  split
  next => split <;> simp_all
  next =>
    split
    next =>
      -- a complex number, or the error that complex powers raise
      cases rt.complexPow base exponent <;> simp [Except.map, PyResult.float]
    next =>
      split
      next hone => simp [hone]
      next hone =>
        cases herror : rt.powError base.abs exponent <;> simp [hone]

theorem floatPow_float_iff :
    (∃ d, rt.floatPow base exponent = .ok (.float d)) ↔ ¬rt.PowerLeaves base exponent := by
  by_cases h : base.isFinite = true ∧ exponent.isFinite = true ∧ exponent.isZero = false
  · exact rt.floatPow_of_finite h.1 h.2.1 h.2.2
  · exact iff_of_true (rt.floatPow_of_special h) fun hleaves =>
      h ⟨hleaves.1, hleaves.2.1, hleaves.2.2.1⟩

end Runtime

end CinderX.Jit.Hir
