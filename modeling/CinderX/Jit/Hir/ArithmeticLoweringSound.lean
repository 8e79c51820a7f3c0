import CinderX.Jit.Hir.ArithmeticLowering

/-!
# Which exceptions lowered arithmetic loses

A power of a float and an int is computed without a guard, but for squares; and
the guard before a division by the constant -0.0 is folded away.  Otherwise code
fails a guard where the generic operation raises or leaves the floats.
-/

namespace CinderX.Jit.Hir

open Foundation Lowered

/-- If the generic operation raises, the code deopts or raises the same exception, and if it returns
a value, the code deopts or returns a value of the same type. -/
def KeepsExceptions : Except Exc PyResult → Except CodeExit PyResult → Prop
  | _, .error .deopt => True
  | .error exc, .error (.raised exc') => exc = exc'
  | .ok result, .ok result' => result.type = result'.type
  | _, _ => False

def LosesException (rt : Runtime) (p : Platform) :
    BinaryOpKind → StaticType → StaticType → Number → Number → Prop
  | .kPower, .floatExact _, .longExact (some i), .float x, _ =>
    i ≠ 2 ∧ rt.PowerLeaves x (.ofInt i)
  | .kPower, .longExact (some i), .floatExact _, _, .float x =>
    (i = 2 → p.target.compare .kLessThan (x.mul x) .maxFinite = true) ∧
      rt.PowerLeaves (.ofInt i) x
  | .kPower, .floatExact _, .longExact none, .float x, .long i =>
    isCompact i = true ∧ rt.PowerLeaves x (.ofInt i)
  | .kPower, .longExact none, .floatExact _, .long i, .float x =>
    isCompact i = true ∧ rt.PowerLeaves (.ofInt i) x
  | .kTrueDivide, .floatExact _, .floatExact (some d), _, _ =>
    p.progress = .comparison ∧ d = .zero true
  | .kTrueDivide, .longExact (some _), .floatExact (some d), _, _ =>
    p.progress = .comparison ∧ d = .zero true
  | _, _, _, _, _ => False

section

variable {generic : Except Exc PyResult}

theorem keeps_deopt : KeepsExceptions generic (.error .deopt) := by
  cases generic <;> trivial

theorem keeps_call : KeepsExceptions generic (call generic) := by
  cases generic <;> rfl

theorem keeps_float_iff {d : Double} :
    KeepsExceptions generic (.ok (.float d)) ↔ ∃ e, generic = .ok (.float e) := by
  cases generic with
  | error exc => simp [KeepsExceptions]
  | ok result =>
    match result with
    | .number (.float e) => simp [KeepsExceptions, PyResult.type, PyResult.float]
    | .number (.long i) => simp [KeepsExceptions, PyResult.type, PyResult.float]
    | .complex re im => simp [KeepsExceptions, PyResult.type, PyResult.float]

theorem guard_bind (value : Bool) (rest : Unit → Except CodeExit PyResult) :
    (guard value >>= rest) = if value then rest () else .error .deopt := by
  cases value <;> rfl

theorem keeps_guard_iff {value : Bool} {rest : Except CodeExit PyResult} :
    KeepsExceptions generic (if value then rest else .error .deopt) ↔
      (value = true → KeepsExceptions generic rest) := by
  cases value with
  | false => simp [keeps_deopt]
  | true => simp

end

namespace Target

variable {target : Target} {d : Double}

theorem compare_of_isZero (hzero : d.isZero = true) :
    target.compare .kNotEqual d (.zero false) = false := by
  cases target with
  | x86_64 => simp [compare, Double.compare_of_isZero hzero, PrimitiveCompareOp.afterComisd]
  | aarch64 =>
    simp [compare, fcmp, Double.compare_of_isZero hzero, PrimitiveCompareOp.condCode,
      CondCode.holds]

theorem compare_lessThan_max (h : d.compare .maxFinite = some .eq ∨ d.compare .maxFinite =
      some .gt) :
    target.compare .kLessThan d .maxFinite = false := by
  cases target with
  | x86_64 => rfl
  | aarch64 =>
    cases h with
    | inl heq => simp [compare, fcmp, heq, PrimitiveCompareOp.condCode, CondCode.holds]
    | inr hgt => simp [compare, fcmp, hgt, PrimitiveCompareOp.condCode, CondCode.holds]

theorem compare_infinity (hinfinite : d.isInfinite = true) (hsign : d.sign = false) :
    target.compare .kLessThan d .maxFinite = false := by
  rw [Double.eq_infinity hinfinite hsign]
  exact compare_lessThan_max (.inr Double.compare_infinity)

theorem positive_of_compare {power : Double}
    (hbase : target.compare .kGreaterThan d (.zero false) = true)
    (hpower : target.compare .kLessThan power .maxFinite = true) :
    d.sign = false ∧ d.isZero = false := by
  cases target with
  | x86_64 => simp [compare, PrimitiveCompareOp.afterComisd] at hpower
  | aarch64 =>
    apply Double.sign_of_compare
    revert hbase
    unfold compare fcmp
    cases d.compare (.zero false) with
    | none => simp [PrimitiveCompareOp.condCode, CondCode.holds]
    | some order => cases order <;> simp [PrimitiveCompareOp.condCode, CondCode.holds]

end Target

section

variable {rt : Runtime} {p : Platform} {base exponent : Double}

theorem Runtime.PowerLeaves.isInfinite (h : rt.PowerLeaves base exponent)
    (hzero : base.isZero = false) (hreal : base.sign = false ∨ exponent.isInteger = true) :
    (rt.pow base.abs exponent).isInfinite = true := by
  obtain ⟨hfinite, hexponent, -, hcases⟩ := h
  have hnot : (base.sign && !exponent.isInteger) = false := by
    cases hreal with
    | inl hsign => simp [hsign]
    | inr hinteger => simp [hinteger]
  simp only [hzero, hnot, Bool.false_eq_true, if_false] at hcases
  obtain ⟨-, herror⟩ := hcases
  unfold Runtime.powError at herror
  cases rt.errno_pow base.abs exponent (by simpa using hfinite) (by simp) (by simpa using hzero)
    hexponent with
  | inl hnone => simpa [hnone] using herror
  | inr hrange =>
    obtain ⟨herrno, hresult⟩ := hrange
    cases hresult with
    | inl hinfinite => exact hinfinite
    | inr hunderflow => simp [herrno, hunderflow] at herror

theorem Double.isInteger_two : Double.two.isInteger = true ∧ Double.two.sign = false := by
  have hexponent : Double.two.exponent = 1023 + 1 := by decide
  have hfraction : Double.two.fraction = 0 := by decide
  have hmagnitude : Double.two.magnitude = 2 ^ (52 + 1023) := by
    rw [Double.magnitude, hfraction, hexponent, Nat.add_sub_cancel, if_neg (Nat.succ_ne_zero _),
      Nat.add_zero, Nat.pow_add]
  have hunits : 2 ^ (52 + 1023) % 2 ^ 1074 = 0 := Double.two_pow_mod (by decide)
  refine ⟨?_, by decide⟩
  rw [Double.isInteger, hmagnitude, hunits]
  rfl

theorem Runtime.PowerLeaves.square (h : rt.PowerLeaves base .two) :
    p.target.compare .kLessThan (base.mul base) .maxFinite = false := by
  have hzero : base.isZero = false := by
    cases hzero : base.isZero with
    | false => rfl
    | true =>
      have hsign := h.2.2.2
      rw [if_pos hzero] at hsign
      exact absurd hsign (by decide)
  have hfinite := h.1
  have hinfinite := h.isInfinite hzero (.inr Double.isInteger_two.1)
  have hle := rt.overflow_square base.abs (by simpa using hfinite) (by simp) hinfinite
  rw [Double.magnitude_abs] at hle
  exact Target.compare_lessThan_max (Double.compare_mul_self hfinite hle)

theorem keeps_square (unboxed : Double) :
    KeepsExceptions (rt.floatPow unboxed .two) (square rt p unboxed) := by
  have hsquare : square rt p unboxed =
      if p.target.compare .kLessThan (unboxed.mul unboxed) .maxFinite then
        .ok (.float (unboxed.mul unboxed))
      else .error .deopt := guard_bind _ _
  rw [hsquare, keeps_guard_iff, keeps_float_iff, Runtime.floatPow_float_iff]
  intro hless hleaves
  rw [hleaves.square] at hless
  exact Bool.false_ne_true hless

theorem keeps_fastPower (base exponent : Double) {right : Number} :
    KeepsExceptions (rt.floatPow base exponent) (fastPower rt p exponent (.float base) right) := by
  have hpower : fastPower rt p exponent (.float base) right =
      if p.target.compare .kGreaterThan base (.zero false) then
        if p.target.compare .kLessThan (rt.pow base exponent) .maxFinite then
          .ok (.float (rt.pow base exponent))
        else .error .deopt
      else .error .deopt := by
    change (guard _ >>= fun _ => guard _ >>= fun _ => _) = _
    rw [guard_bind, guard_bind]
    rfl
  rw [hpower, keeps_guard_iff, keeps_guard_iff, keeps_float_iff, Runtime.floatPow_float_iff]
  intro hgreater hless hleaves
  obtain ⟨hsign, hzero⟩ := Target.positive_of_compare hgreater hless
  have hinfinite := hleaves.isInfinite hzero (.inl hsign)
  have hpositive := rt.pow_positive base.abs exponent (by simpa using hleaves.1)
    (by simp) hleaves.2.1
  rw [Double.abs_eq_self hsign] at hinfinite hpositive
  rw [Target.compare_infinity hinfinite hpositive] at hless
  exact Bool.false_ne_true hless

variable {spec : Option Double} {b : Double}

theorem isNonzero_iff (hspec : ∀ d ∈ spec, b = d) (hzero : b.isZero = true) :
    isNonzero p spec b = true ↔ p.progress = .comparison ∧ spec = some (.zero true) := by
  have hfolded : (∃ d ∈ spec, d ≠ Double.zero false) ↔ spec = some (.zero true) := by
    constructor
    · rintro ⟨d, hd, hne⟩
      obtain rfl := hspec d hd
      cases Double.eq_zero_of_isZero hzero with
      | inl heq => exact absurd heq hne
      | inr heq => exact heq ▸ hd
    · intro heq
      exact ⟨_, heq, by decide⟩
  unfold isNonzero
  simp only [hfolded, Target.compare_of_isZero hzero, ite_eq_left_iff, Bool.false_eq_true,
    imp_false,
    not_not]

variable {a : Double}

theorem keeps_divide_iff (hspec : ∀ d ∈ spec, b = d) :
    KeepsExceptions (rt.floatSlot .kTrueDivide a b)
        (if isNonzero p spec b then .ok (.float (a.div b)) else .error .deopt) ↔
      ¬(p.progress = .comparison ∧ spec = some (.zero true)) := by
  rw [keeps_guard_iff, keeps_float_iff]
  unfold Runtime.floatSlot
  cases hzero : b.isZero with
  | true =>
    rw [isNonzero_iff hspec hzero]
    simp
  | false =>
    refine iff_of_true (fun _ => ⟨_, rfl⟩) ?_
    rintro ⟨-, heq⟩
    have hb : b = .zero true := hspec _ heq
    rw [hb] at hzero
    exact absurd hzero (by decide)

variable {i : Int}

theorem PyLong_AsDouble_of_fits (hfits : i.natAbs ≤ 2 ^ 63) :
    PyLong_AsDouble i = .ok (.ofInt i) := if_pos (Double.isFinite_ofInt hfits)

theorem fits_of_fitsLong (h : fitsLong i = true) : i.natAbs ≤ 2 ^ 63 := by
  simp only [fitsLong, Bool.and_eq_true, decide_eq_true_eq] at h
  omega

theorem fits_of_isCompact (h : isCompact i = true) : i.natAbs ≤ 2 ^ 63 := by
  simp only [isCompact, decide_eq_true_eq] at h
  omega

variable {op : BinaryOpKind}

theorem isFloatSlot_of_isUnboxed (h : op.isUnboxed = true) :
    op.isFloatSlot = true := by
  cases op <;> first | rfl | simp [BinaryOpKind.isUnboxed] at h

variable {x : Double}

theorem binaryOp_float_long (hop : op.isUnboxed = true) (hfits : i.natAbs ≤ 2 ^ 63) :
    rt.binaryOp op (.float x) (.long i) = rt.floatSlot op x (.ofInt i) := by
  simp only [Runtime.binaryOp, isFloatSlot_of_isUnboxed hop, if_true, PyLong_AsDouble_of_fits hfits]
  rfl

theorem binaryOp_long_float (hop : op.isUnboxed = true) (hfits : i.natAbs ≤ 2 ^ 63) :
    rt.binaryOp op (.long i) (.float x) = rt.floatSlot op (.ofInt i) x := by
  simp only [Runtime.binaryOp, isFloatSlot_of_isUnboxed hop, if_true, PyLong_AsDouble_of_fits hfits]
  rfl

def finish (rt : Runtime) (p : Platform) (op : BinaryOpKind) (spec : Option Double) (a b : Double) :
    Except CodeExit PyResult := do
  if op = .kTrueDivide then guard (isNonzero p spec b)
  let result ← doubleBinaryOp rt op a b
  primitiveBox result

theorem keeps_finish (hop : op.isUnboxed = true) (hspec : ∀ d ∈ spec, b = d) :
    KeepsExceptions (rt.floatSlot op a b) (finish rt p op spec a b) ↔
      ¬(op = .kPower ∧ rt.PowerLeaves a b) ∧
        ¬(op = .kTrueDivide ∧ p.progress = .comparison ∧ spec = some (.zero true)) := by
  cases op with
  | kAdd | kSubtract | kMultiply =>
    have hfloat : ∀ d e : Double, KeepsExceptions (.ok (.float d)) (.ok (.float e)) := fun _ _ =>
      rfl
    simp only [reduceCtorEq, false_and, not_false_eq_true, and_self, iff_true]
    exact hfloat _ _
  | kTrueDivide =>
    have hdivide : finish rt p .kTrueDivide spec a b =
        if isNonzero p spec b then .ok (.float (a.div b)) else .error .deopt := guard_bind _ _
    rw [hdivide, keeps_divide_iff hspec]
    simp
  | kPower =>
    have hpower : finish rt p .kPower spec a b = .ok (.float (rt.pow a b)) := rfl
    rw [hpower, keeps_float_iff]
    simp [Runtime.floatSlot, Runtime.floatPow_float_iff]
  | _ => simp [BinaryOpKind.isUnboxed] at hop

theorem keeps_mixedConstant_right (hop : op.isUnboxed = true) (hfits : fitsLong i = true)
    {right : Number} :
    KeepsExceptions (rt.binaryOp op (.float x) (.long i))
        (mixedConstant rt p op i spec true (.float x) right) ↔
      ¬(op = .kPower ∧ i ≠ 2 ∧ rt.PowerLeaves x (.ofInt i)) := by
  rw [binaryOp_float_long hop (fits_of_fitsLong hfits)]
  have hcode : mixedConstant rt p op i spec true (.float x) right =
      if op = .kPower ∧ i = 2 then square rt p x
      else finish rt p op (some (.ofInt i)) x (.ofInt i) := rfl
  rw [hcode]
  by_cases hsquare : op = .kPower ∧ i = 2
  · obtain ⟨rfl, rfl⟩ := hsquare
    rw [if_pos ⟨rfl, rfl⟩, Double.ofInt_two]
    exact iff_of_true (keeps_square x) fun h => h.2.1 rfl
  · rw [if_neg hsquare, keeps_finish hop (by simp)]
    have hne := Double.ofInt_ne_zero i
    simp only [Option.some.injEq, hne, and_false, not_false_eq_true, and_true]
    apply not_congr
    exact ⟨fun h => ⟨h.1, fun hi => hsquare ⟨h.1, hi⟩, h.2⟩, fun h => ⟨h.1, h.2.2⟩⟩

theorem keeps_mixedConstant_left (hop : op.isUnboxed = true) (hfits : fitsLong i = true)
    {left : Number} (hspec : ∀ d ∈ spec, x = d) :
    KeepsExceptions (rt.binaryOp op (.long i) (.float x))
        (mixedConstant rt p op i spec false left (.float x)) ↔
      ¬(op = .kPower ∧ (i = 2 → p.target.compare .kLessThan (x.mul x) .maxFinite = true) ∧
        rt.PowerLeaves (.ofInt i) x) ∧
      ¬(op = .kTrueDivide ∧ p.progress = .comparison ∧ spec = some (.zero true)) := by
  rw [binaryOp_long_float hop (fits_of_fitsLong hfits)]
  have hcode : mixedConstant rt p op i spec false left (.float x) =
      if op = .kPower ∧ i = 2 then square rt p x
      else finish rt p op spec (.ofInt i) x := rfl
  rw [hcode]
  by_cases hsquare : op = .kPower ∧ i = 2
  · obtain ⟨rfl, rfl⟩ := hsquare
    have hcode : square rt p x =
        if p.target.compare .kLessThan (x.mul x) .maxFinite then .ok (.float (x.mul x))
        else .error .deopt := guard_bind _ _
    rw [if_pos ⟨rfl, rfl⟩, hcode, keeps_guard_iff, keeps_float_iff]
    simp [Runtime.floatSlot, Runtime.floatPow_float_iff]
  · rw [if_neg hsquare, keeps_finish hop hspec]
    tauto

theorem keeps_mixedCompact_right (hop : op.isUnboxed = true) :
    KeepsExceptions (rt.binaryOp op (.float x) (.long i))
        (mixedCompact rt p op true (.float x) (.long i)) ↔
      ¬(op = .kPower ∧ isCompact i = true ∧ rt.PowerLeaves x (.ofInt i)) := by
  have hcode : mixedCompact rt p op true (.float x) (.long i) =
      if isCompact i then finish rt p op none x (.ofInt i) else .error .deopt := guard_bind _ _
  rw [hcode, keeps_guard_iff]
  by_cases hcompact : isCompact i = true
  · rw [binaryOp_float_long hop (fits_of_isCompact hcompact), keeps_finish hop (by simp)]
    simp [hcompact]
  · simp [hcompact]

theorem keeps_mixedCompact_left (hop : op.isUnboxed = true) :
    KeepsExceptions (rt.binaryOp op (.long i) (.float x))
        (mixedCompact rt p op false (.long i) (.float x)) ↔
      ¬(op = .kPower ∧ isCompact i = true ∧ rt.PowerLeaves (.ofInt i) x) := by
  have hcode : mixedCompact rt p op false (.long i) (.float x) =
      if isCompact i then finish rt p op none (.ofInt i) x else .error .deopt := guard_bind _ _
  rw [hcode, keeps_guard_iff]
  by_cases hcompact : isCompact i = true
  · rw [binaryOp_long_float hop (fits_of_isCompact hcompact), keeps_finish hop (by simp)]
    simp [hcompact]
  · simp [hcompact]

theorem keeps_longFloatTrueDivide (i : Int) (x : Double) :
    KeepsExceptions (rt.binaryOp .kTrueDivide (.long i) (.float x))
      (longFloatTrueDivide (.long i) (.float x)) := by
  have hcode : longFloatTrueDivide (.long i) (.float x) =
      call (rt.binaryOp .kTrueDivide (.long i) (.float x)) := rfl
  rw [hcode]
  exact keeps_call

variable {code : Code}

theorem keeps_foldSlot {result : Except Exc PyResult} {left right : Number}
    (h : foldSlot p result = some code) : KeepsExceptions result (code left right) := by
  unfold foldSlot at h
  split at h
  next =>
    split at h
    next => simp at h
    next =>
      cases h
      exact rfl
  next => simp at h

variable {left right : StaticType}

theorem keeps_simplifyFloatBinaryOp (hop : op = .kPower ∨ op.isUnboxed = false)
    (hleft : left.Has (.float a)) (hright : right.Has (.float b))
    (h : simplifyFloatBinaryOp rt p op left right = some code) :
    KeepsExceptions (rt.floatSlot op a b) (code (.float a) (.float b)) := by
  unfold simplifyFloatBinaryOp at h
  split at h
  next => simp [BinaryOpKind.isUnboxed] at hop
  next => simp [BinaryOpKind.isUnboxed] at hop
  next => simp [BinaryOpKind.isUnboxed] at hop
  next => simp [BinaryOpKind.isUnboxed] at hop
  next =>
    split at h
    next a' b' =>
      obtain rfl : a = a' := hleft a' rfl
      obtain rfl : b = b' := hright b' rfl
      exact keeps_foldSlot h
    next exponent =>
      obtain rfl : b = exponent := hright exponent rfl
      split at h
      next hfast =>
        cases h
        obtain ⟨rfl, -, -⟩ := hfast
        exact keeps_fastPower a b
      next => simp at h
    next => simp at h

theorem keeps_floatCode (hleft : left.Has (.float a)) (hright : right.Has (.float b)) :
    KeepsExceptions (rt.floatSlot op a b)
        (Operation.floatCode rt p op left right (.float a) (.float b)) ↔
      ¬(op = .kTrueDivide ∧ p.progress = .comparison ∧ right =
        .floatExact (some (.zero true))) := by
  unfold Operation.floatCode Operation.slotCode
  by_cases hprogress : p.progress = .operation
  · rw [if_pos hprogress]
    exact iff_of_true keeps_call (by simp [hprogress])
  rw [if_neg hprogress]
  have hrest : (op = .kPower ∨ op.isUnboxed = false) →
      KeepsExceptions (rt.floatSlot op a b)
        ((simplifyFloatBinaryOp rt p op left right).getD (floatSlot rt op) (.float a)
          (.float b)) := by
    intro hop
    cases hsimplified : simplifyFloatBinaryOp rt p op left right with
    | none => exact keeps_call
    | some code => exact keeps_simplifyFloatBinaryOp hop hleft hright hsimplified
  cases op with
  | kAdd | kSubtract | kMultiply => exact iff_of_true rfl (by simp)
  | kTrueDivide =>
    cases right with
    | longExact spec => exact hright.elim
    | floatExact spec =>
      have hcode : (simplifyFloatBinaryOp rt p .kTrueDivide left (.floatExact spec)).getD
          (floatSlot rt .kTrueDivide) (.float a) (.float b) =
          if isNonzero p spec b then .ok (.float (a.div b)) else .error .deopt := guard_bind _ _
      rw [hcode, keeps_divide_iff hright]
      simp
    | other couldBeFloat =>
      have hcode : (simplifyFloatBinaryOp rt p .kTrueDivide left (.other couldBeFloat)).getD
          (floatSlot rt .kTrueDivide) (.float a) (.float b) =
          if isNonzero p none b then .ok (.float (a.div b)) else .error .deopt := guard_bind _ _
      rw [hcode, keeps_divide_iff (by simp)]
      simp
  | _ => exact iff_of_true (hrest (by simp [BinaryOpKind.isUnboxed])) (by simp)

theorem keeps_longCode {a b : Int} (hleft : left.Has (.long a)) (hright : right.Has (.long b)) :
    KeepsExceptions (rt.longBinary op a b)
      (Operation.longCode rt p op left right (.long a) (.long b)) := by
  unfold Operation.longCode Operation.slotCode
  split
  next => exact keeps_call
  next =>
    cases hsimplified : simplifyLongBinaryOp rt p op left right with
    | none => exact keeps_call
    | some code =>
      unfold simplifyLongBinaryOp at hsimplified
      split at hsimplified
      next a' b' =>
        obtain rfl : a = a' := hleft a' rfl
        obtain rfl : b = b' := hright b' rfl
        exact keeps_foldSlot hsimplified
      next => simp at hsimplified

/-! ## Operations -/

theorem loses_float_float {spec' : Option Double} {left right : Number} :
    LosesException rt p op (.floatExact spec) (.floatExact spec') left right ↔
      op = .kTrueDivide ∧ p.progress = .comparison ∧ spec' = some (.zero true) := by
  cases op <;> cases spec' <;> simp [LosesException]

theorem loses_float_const {right : Number} :
    LosesException rt p op (.floatExact spec) (.longExact (some i)) (.float x) right ↔
      op = .kPower ∧ i ≠ 2 ∧ rt.PowerLeaves x (.ofInt i) := by
  cases op <;> simp [LosesException]

theorem loses_const_float {left : Number} :
    LosesException rt p op (.longExact (some i)) (.floatExact spec) left (.float x) ↔
      (op = .kPower ∧ (i = 2 → p.target.compare .kLessThan (x.mul x) .maxFinite = true) ∧
        rt.PowerLeaves (.ofInt i) x) ∨
      op = .kTrueDivide ∧ p.progress = .comparison ∧ spec = some (.zero true) := by
  cases op <;> cases spec <;> simp [LosesException]

theorem loses_float_compact :
    LosesException rt p op (.floatExact spec) (.longExact none) (.float x) (.long i) ↔
      op = .kPower ∧ isCompact i = true ∧ rt.PowerLeaves x (.ofInt i) := by
  cases op <;> simp [LosesException]

theorem loses_compact_float :
    LosesException rt p op (.longExact none) (.floatExact spec) (.long i) (.float x) ↔
      op = .kPower ∧ isCompact i = true ∧ rt.PowerLeaves (.ofInt i) x := by
  cases op <;> cases spec <;> simp [LosesException]

variable {leftValue rightValue : Number}

theorem keeps_binaryOp (hleft : left.Has leftValue) (hright : right.Has rightValue)
    (h : Operation.lower rt p (.binaryOp op) left right = some code) :
    KeepsExceptions (rt.binaryOp op leftValue rightValue) (code leftValue rightValue) ↔
      ¬LosesException rt p op left right leftValue rightValue := by
  obtain ⟨lowering, hsimplify, hcode⟩ := Option.map_eq_some_iff.mp h
  change simplifyBinaryOp rt p op left right = some lowering at hsimplify
  unfold simplifyBinaryOp at hsimplify
  split at hsimplify
  next => simp at hsimplify
  split at hsimplify
  next spec spec' =>
    obtain ⟨i, rfl, hi⟩ := StaticType.has_longExact hleft
    obtain ⟨j, rfl, hj⟩ := StaticType.has_longExact hright
    split at hsimplify
    next => simp at hsimplify
    next =>
      cases hsimplify
      subst hcode
      refine iff_of_true (keeps_longCode hleft hright) ?_
      cases op <;> cases spec <;> exact id
  next =>
    obtain ⟨a, rfl, ha⟩ := StaticType.has_floatExact hleft
    obtain ⟨b, rfl, hb⟩ := StaticType.has_floatExact hright
    split at hsimplify
    next =>
      cases hsimplify
      subst hcode
      change KeepsExceptions (rt.floatSlot op a b) _ ↔ _
      rw [keeps_floatCode hleft hright, loses_float_float, StaticType.floatExact.injEq]
    next => simp at hsimplify
  next spec i =>
    obtain ⟨x, rfl, hx⟩ := StaticType.has_floatExact hleft
    obtain ⟨i, rfl, hi⟩ := StaticType.has_longExact hright
    obtain rfl := hi _ rfl
    split at hsimplify
    next hop =>
      obtain ⟨hop, hfits⟩ := Bool.and_eq_true_iff.mp hop
      cases hsimplify
      subst hcode
      simp only [keeps_mixedConstant_right hop hfits, loses_float_const]
    next => simp at hsimplify
  next i spec =>
    obtain ⟨i, rfl, hi⟩ := StaticType.has_longExact hleft
    obtain ⟨x, rfl, hx⟩ := StaticType.has_floatExact hright
    obtain rfl := hi _ rfl
    split at hsimplify
    next hop =>
      obtain ⟨hop, hfits⟩ := Bool.and_eq_true_iff.mp hop
      cases hsimplify
      subst hcode
      simp only [keeps_mixedConstant_left hop hfits hx, loses_const_float, not_or]
    next => simp at hsimplify
  next =>
    obtain ⟨x, rfl, hx⟩ := StaticType.has_floatExact hleft
    obtain ⟨i, rfl, hi⟩ := StaticType.has_longExact hright
    split at hsimplify
    next hop =>
      cases hsimplify
      subst hcode
      simp only [keeps_mixedCompact_right hop, loses_float_compact]
    next => simp at hsimplify
  next =>
    obtain ⟨i, rfl, hi⟩ := StaticType.has_longExact hleft
    obtain ⟨x, rfl, hx⟩ := StaticType.has_floatExact hright
    split at hsimplify
    next hdivide =>
      cases hsimplify
      subst hcode hdivide
      exact iff_of_true (keeps_longFloatTrueDivide i x) id
    next hdivide =>
      split at hsimplify
      next hop =>
        cases hsimplify
        subst hcode
        simp only [keeps_mixedCompact_left hop, loses_compact_float]
      next => simp at hsimplify
  next =>
    obtain ⟨i, rfl, hi⟩ := StaticType.has_longExact hright
    obtain rfl := hi _ rfl
    split at hsimplify
    next hsquare =>
      obtain ⟨rfl, rfl⟩ := hsquare
      cases hsimplify
      subst hcode
      refine iff_of_true ?_ id
      cases leftValue with
      | float x =>
        have hslot : rt.binaryOp .kPower (.float x) (.long 2) = rt.floatPow x .two := by
          rw [binaryOp_float_long rfl (by decide), Double.ofInt_two]
          rfl
        rw [hslot]
        exact keeps_square x
      | long i => exact keeps_deopt
    next => simp at hsimplify
  next => simp at hsimplify

theorem keeps_compactInPlace (hop : op = .kAdd ∨ op = .kSubtract) (i j : Int) :
    KeepsExceptions (rt.longBinary op i j) (compactInPlace op (.long i) (.long j)) := by
  have hcode : compactInPlace op (.long i) (.long j) =
      if isCompact i && isCompact j then .ok (.long (if op = .kAdd then i + j else i - j))
      else .error .deopt := guard_bind _ _
  rw [hcode, keeps_guard_iff]
  intro _
  cases hop with
  | inl hadd => subst hadd; rfl
  | inr hsub => subst hsub; rfl

theorem not_loses_of_sum (hop : op = .kAdd ∨ op = .kSubtract) :
    ¬LosesException rt p op left right leftValue rightValue := by
  cases hop with
  | inl hadd => subst hadd; exact id
  | inr hsub => subst hsub; exact id

theorem keeps_inPlaceOp {instr : InPlaceOp} (hleft : left.Has leftValue)
    (hright : right.Has rightValue)
    (h : Operation.lower rt p (.inPlaceOp instr) left right = some code) :
    KeepsExceptions (rt.binaryOp instr.op leftValue rightValue) (code leftValue rightValue) ↔
      ¬LosesException rt p instr.op left right leftValue rightValue := by
  obtain ⟨lowering, hsimplify, hcode⟩ := Option.map_eq_some_iff.mp h
  change simplifyInPlaceOp p instr left right = some lowering at hsimplify
  unfold simplifyInPlaceOp at hsimplify
  split at hsimplify
  next spec spec' =>
    obtain ⟨i, rfl, hi⟩ := StaticType.has_longExact hleft
    obtain ⟨j, rfl, hj⟩ := StaticType.has_longExact hright
    have hnot : ¬LosesException rt p instr.op (.longExact spec) (.longExact spec') (.long i)
        (.long j) := by
      cases instr.op <;> cases spec <;> exact id
    split at hsimplify
    next hcompact =>
      cases hsimplify
      subst hcode
      exact iff_of_true (keeps_compactInPlace hcompact.2.1 i j) hnot
    next =>
      split at hsimplify
      next => simp at hsimplify
      next =>
        cases hsimplify
        subst hcode
        exact iff_of_true (keeps_longCode hleft hright) hnot
  next =>
    obtain ⟨a, rfl, ha⟩ := StaticType.has_floatExact hleft
    obtain ⟨b, rfl, hb⟩ := StaticType.has_floatExact hright
    split at hsimplify
    next =>
      cases hsimplify
      subst hcode
      change KeepsExceptions (rt.floatSlot instr.op a b) _ ↔ _
      rw [keeps_floatCode hleft hright, loses_float_float, StaticType.floatExact.injEq]
    next => simp at hsimplify
  next =>
    unfold trySimplifyFloatInPlace at hsimplify
    split at hsimplify
    next hfast =>
      obtain ⟨-, -, -, hop, -, -⟩ := hfast
      cases hsimplify
      subst hcode
      refine iff_of_true ?_ (not_loses_of_sum hop)
      cases leftValue with
      | long i => exact keeps_call
      | float a =>
        cases rightValue with
        | long j => exact keeps_call
        | float b =>
          apply (keeps_floatCode (StaticType.has_refineFloat hleft)
            (StaticType.has_refineFloat hright)).mpr
          cases hop with
          | inl hadd => simp [hadd]
          | inr hsub => simp [hsub]
    next => simp at hsimplify

end

def fewPowers : Runtime where
  pow base exponent :=
    if base.isZero && exponent.sign then .infinity false
    else if base = ⟨0x4008000000000000⟩ ∧ exponent = .two then ⟨0x4022000000000000⟩ else .one
  errno base exponent := if base.isZero && exponent.sign then some .ERANGE else none
  floorDivide _ _ := .zero false
  remainder _ _ := .zero false
  complexPow _ _ := .error .ValueError
  longSlot _ _ _ := .error .TypeError
  pow_positive base exponent _ _ _ := by
    split
    · decide
    · split <;> decide
  errno_pow base exponent _ _ hzero _ := by simp [hzero]
  overflow_square base _ _ hinfinite := by
    have htwo : Double.two.sign = false := by decide
    simp only [htwo, Bool.and_false, Bool.false_eq_true, if_false] at hinfinite
    split at hinfinite <;> exact absurd hinfinite (by decide)

def armPlatform : Platform where
  target := .aarch64
  version := 0x030B0000
  multithreadedCompile := false
  specializedOpcodes := true
  progress := .comparison

def shortAdd : InPlaceOp := ⟨.kAdd, by decide, false, 3⟩

end CinderX.Jit.Hir
