import CinderX.Foundation.Basic

/-!
# Comparing doubles

A double is a 64-bit pattern.  All finite values are multiples of `2 ^ -1074`,
and with the exponent of the infinities read like any other these stay beyond
them, so that the order of the values is one of integers.  The AArch64
instruction `fcmp` writes the outcome of a comparison to four flags, which
conditions read.
-/

namespace CinderX.Foundation

structure Double where
  bits : BitVec 64
  deriving DecidableEq

namespace Double

def sign (d : Double) : Bool := d.bits.msb

def exponent (d : Double) : Nat := d.bits.toNat / 2 ^ 52 % 2 ^ 11

def fraction (d : Double) : Nat := d.bits.toNat % 2 ^ 52

def isNaN (d : Double) : Bool := d.exponent = 2047 && d.fraction ≠ 0

/-- The absolute value, in units of `2 ^ -1074`. -/
def magnitude (d : Double) : Nat :=
  if d.exponent = 0 then d.fraction else (2 ^ 52 + d.fraction) * 2 ^ (d.exponent - 1)

def value (d : Double) : Int := if d.sign then -d.magnitude else d.magnitude

/-- `none` for operands without an order. -/
def compare (a b : Double) : Option Ordering :=
  if a.isNaN || b.isNaN then none else some (cmp a.value b.value)

end Double

/-- The zeros are equal. -/
example : Double.compare ⟨0⟩ ⟨0x8000000000000000⟩ = some .eq := by decide

inductive Comparison where
  | lt | le | eq | ne | gt | ge
  deriving DecidableEq

def Comparison.holds : Comparison → Option Ordering → Bool
  | lt, order => order = some .lt
  | le, order => order = some .lt || order = some .eq
  | eq, order => order = some .eq
  | ne, order => order ≠ some .eq
  | gt, order => order = some .gt
  | ge, order => order = some .gt || order = some .eq

structure Flags where
  n : Bool
  z : Bool
  c : Bool
  v : Bool

def fcmp (a b : Double) : Flags :=
  match a.compare b with
  | none => ⟨false, false, true, true⟩
  | some .eq => ⟨false, true, true, false⟩
  | some .lt => ⟨true, false, false, false⟩
  | some .gt => ⟨false, false, true, false⟩

inductive CondCode where
  | kEQ | kNE | kHS | kLO | kHI | kLS | kGE | kLT | kGT | kLE
  deriving DecidableEq

def CondCode.holds : CondCode → Flags → Bool
  | kEQ, flags => flags.z
  | kNE, flags => !flags.z
  | kHS, flags => flags.c
  | kLO, flags => !flags.c
  | kHI, flags => flags.c && !flags.z
  | kLS, flags => !flags.c || flags.z
  | kGE, flags => flags.n == flags.v
  | kLT, flags => flags.n != flags.v
  | kGT, flags => !flags.z && flags.n == flags.v
  | kLE, flags => flags.z || flags.n != flags.v

/-- The conditions that agree with the comparisons also without an order. -/
def Comparison.condCode : Comparison → CondCode
  | lt => .kLO
  | le => .kLS
  | eq => .kEQ
  | ne => .kNE
  | gt => .kGT
  | ge => .kGE

theorem Comparison.condCode_holds (op : Comparison) (a b : Double) :
    op.condCode.holds (fcmp a b) = op.holds (a.compare b) := by
  unfold fcmp
  cases a.compare b with
  | none => cases op <;> rfl
  | some order => cases order <;> cases op <;> rfl

end CinderX.Foundation

/-!
## Arithmetic with doubles

Results are rounded to the nearest double, and to the even one of two.  Without
its sign, the pattern of a double is a number, and the patterns are in the order of
the values: rounding computes a pattern, which is that of infinity if there is none.
NaNs have no payload here.
-/

namespace CinderX.Foundation

open BitVec Nat

namespace Double

def infinityPattern : Nat := 2047 * 2 ^ 52

def ofPattern (sign : Bool) (pattern : Nat) : Double :=
  ⟨BitVec.ofNat 64 (pattern + if sign then 2 ^ 63 else 0)⟩

def infinity (sign : Bool) : Double := ofPattern sign infinityPattern

def zero (sign : Bool) : Double := ofPattern sign 0

def nan : Double := ⟨0x7FF8000000000000⟩

def one : Double := ⟨0x3FF0000000000000⟩

def two : Double := ⟨0x4000000000000000⟩

def maxFinite : Double := ⟨0x7FEFFFFFFFFFFFFF⟩

def isInfinite (d : Double) : Bool := d.exponent = 2047 && d.fraction = 0

def isFinite (d : Double) : Bool := d.exponent ≠ 2047

def isZero (d : Double) : Bool := d.magnitude = 0

def neg (d : Double) : Double := ⟨d.bits ^^^ BitVec.ofNat 64 (2 ^ 63)⟩

def abs (d : Double) : Double := ⟨d.bits &&& BitVec.ofNat 64 (2 ^ 63 - 1)⟩

/-- The pattern of `num / den`, in units of `2 ^ -1074`. -/
def roundPattern (num den : Nat) : Nat :=
  let shift := log 2 (num / den) - 52
  let unit := den * 2 ^ shift
  let quotient := num / unit
  let rest := num % unit
  let up := if unit < 2 * rest ∨ 2 * rest = unit ∧ quotient % 2 = 1 then 1 else 0
  min (shift * 2 ^ 52 + quotient + up) infinityPattern

def round (sign : Bool) (num den : Nat) : Double := ofPattern sign (roundPattern num den)

def ofInt (i : Int) : Double := round (i < 0) (i.natAbs * 2 ^ 1074) 1

def add (a b : Double) : Double :=
  if a.isNaN || b.isNaN then nan
  else if a.isInfinite then if b.isInfinite && a.sign != b.sign then nan else a
  else if b.isInfinite then b
  else
    let sum := a.value + b.value
    if sum = 0 then zero (a.sign && b.sign) else round (sum < 0) sum.natAbs 1

def sub (a b : Double) : Double := a.add b.neg

def mul (a b : Double) : Double :=
  let sign := a.sign != b.sign
  if a.isNaN || b.isNaN then nan
  else if a.isInfinite || b.isInfinite then
    if a.isZero || b.isZero then nan else infinity sign
  else round sign (a.magnitude * b.magnitude) (2 ^ 1074)

def div (a b : Double) : Double :=
  let sign := a.sign != b.sign
  if a.isNaN || b.isNaN then nan
  else if a.isInfinite then if b.isInfinite then nan else infinity sign
  else if b.isInfinite then zero sign
  else if b.isZero then if a.isZero then nan else infinity sign
  else round sign (a.magnitude * 2 ^ 1074) b.magnitude

def isInteger (d : Double) : Bool := d.magnitude % 2 ^ 1074 = 0

def isOddInteger (d : Double) : Bool := d.isInteger && d.magnitude / 2 ^ 1074 % 2 = 1

variable {sign : Bool} {pattern num den : Nat} {a b d : Double}

theorem two_pow_pos (k : Nat) : 0 < 2 ^ k := Nat.two_pow_pos k

theorem two_pow_add (k l : Nat) : 2 ^ (k + l) = 2 ^ k * 2 ^ l := Nat.pow_add 2 k l

theorem two_pow_mod {k l : Nat} (h : k ≤ l) : 2 ^ l % 2 ^ k = 0 :=
  mod_eq_zero_of_dvd (Nat.pow_dvd_pow 2 h)

theorem mul_two_pow_lt {a k l m : Nat} (ha : a ≤ 2 ^ k) (h : k + l < m) : a * 2 ^ l < 2 ^ m :=
  calc a * 2 ^ l ≤ 2 ^ k * 2 ^ l := Nat.mul_le_mul_right _ ha
    _ = 2 ^ (k + l) := (two_pow_add k l).symm
    _ < 2 ^ m := Nat.pow_lt_pow_right (by decide) h

theorem le_log {k n : Nat} (h : 2 ^ k ≤ n) : k ≤ log 2 n := le_log_of_pow_le Nat.one_lt_two h

theorem bits_ofPattern (hpattern : pattern ≤ infinityPattern) :
    (ofPattern sign pattern).bits.toNat = pattern + if sign then 2 ^ 63 else 0 := by
  unfold infinityPattern at hpattern
  unfold ofPattern
  rw [toNat_ofNat]
  apply mod_eq_of_lt
  cases sign <;> simp <;> omega

theorem exponent_ofPattern (hpattern : pattern ≤ infinityPattern) :
    (ofPattern sign pattern).exponent = pattern / 2 ^ 52 := by
  unfold exponent
  rw [bits_ofPattern hpattern]
  unfold infinityPattern at hpattern
  cases sign <;> simp <;> omega

theorem isFinite_ofPattern (hpattern : pattern < infinityPattern) :
    (ofPattern sign pattern).isFinite = true := by
  have hexponent : pattern / 2 ^ 52 < 2047 := by
    unfold infinityPattern at hpattern
    exact Nat.div_lt_of_lt_mul (by omega)
  simp only [isFinite, exponent_ofPattern hpattern.le, ne_eq, decide_eq_true_eq]
  exact hexponent.ne

theorem isFinite_iff : d.isFinite = true ↔ d.isNaN = false ∧ d.isInfinite = false := by
  unfold isFinite isNaN isInfinite
  grind

theorem roundPattern_le (num den : Nat) : roundPattern num den ≤ infinityPattern :=
  Nat.min_le_right _ _

/-! ## The range of what is rounded -/

theorem magnitude_maxFinite : maxFinite.magnitude = (2 ^ 53 - 1) * 2 ^ 2045 := by
  have hexponent : maxFinite.exponent = 2045 + 1 := by decide
  have hfraction : maxFinite.fraction = 2 ^ 52 - 1 := by decide
  have hlead : 2 ^ 52 + (2 ^ 52 - 1) = 2 ^ 53 - 1 := by decide
  rw [magnitude, hfraction, hlead, hexponent, Nat.add_sub_cancel, if_neg (succ_ne_zero _)]

theorem magnitude_infinity : (infinity false).magnitude = 2 ^ 52 * 2 ^ (2045 + 1) := by
  have hexponent : (infinity false).exponent = 2045 + 1 + 1 := by decide
  have hfraction : (infinity false).fraction = 0 := by decide
  rw [magnitude, hfraction, hexponent, Nat.add_sub_cancel, if_neg (succ_ne_zero _), Nat.add_zero]

theorem le_roundPattern (hden : 0 < den) (hle : maxFinite.magnitude * den ≤ num) :
    infinityPattern - 1 ≤ roundPattern num den := by
  rw [magnitude_maxFinite] at hle
  have hwhole : (2 ^ 53 - 1) * 2 ^ 2045 ≤ num / den := (Nat.le_div_iff_mul_le hden).mpr hle
  have hlarge : 2 ^ 52 * 2 ^ 2045 ≤ num / den :=
    le_trans (Nat.mul_le_mul_right _ (by decide)) hwhole
  have hne : num / den ≠ 0 :=
    (lt_of_lt_of_le (Nat.mul_pos (two_pow_pos _) (two_pow_pos _)) hlarge).ne'
  have hlog : 52 + 2045 ≤ log 2 (num / den) := by
    rw [← two_pow_add] at hlarge
    exact le_log hlarge
  have hquotient : ∀ shift, num / (den * 2 ^ shift) = num / den / 2 ^ shift :=
    fun shift => (Nat.div_div_eq_div_mul num den _).symm
  unfold roundPattern
  simp only [hquotient]
  apply le_min _ (sub_le _ _)
  apply le_trans _ (Nat.le_add_right _ _)
  by_cases hshift : log 2 (num / den) - 52 = 2045
  · -- the quotient has all its bits
    rw [hshift]
    have hle : 2 ^ 53 - 1 ≤ num / den / 2 ^ 2045 :=
      (Nat.le_div_iff_mul_le (two_pow_pos _)).mpr hwhole
    unfold infinityPattern
    omega
  · -- the leading bit of the quotient is enough
    have hlead : 2 ^ 52 ≤ num / den / 2 ^ (log 2 (num / den) - 52) := by
      apply (Nat.le_div_iff_mul_le (two_pow_pos _)).mpr
      rw [← two_pow_add, add_sub_of_le (by omega)]
      exact pow_log_le_self 2 hne
    unfold infinityPattern
    omega

theorem roundPattern_lt {k : Nat} (hk : k < 2000) (hlt : num < 2 ^ k) :
    roundPattern num 1 < infinityPattern := by
  have hquotient : ∀ shift, log 2 num - 52 ≤ shift → num / 2 ^ shift < 2 ^ 53 := by
    intro shift hshift
    apply Nat.div_lt_of_lt_mul
    rw [← two_pow_add]
    apply lt_of_lt_of_le (lt_pow_succ_log_self Nat.one_lt_two num)
    exact Nat.pow_le_pow_right (by decide) (by omega)
  have hlog : log 2 num ≤ k := by
    rcases Nat.eq_zero_or_pos num with rfl | hpos
    · simp
    · exact (log_lt_of_lt_pow hpos.ne' hlt).le
  have hlt := hquotient _ le_rfl
  unfold roundPattern
  simp only [Nat.div_one, Nat.one_mul]
  apply lt_of_le_of_lt (Nat.min_le_left _ _)
  unfold infinityPattern
  split <;> omega

theorem roundPattern_pos (hpos : 0 < num) : 0 < roundPattern num 1 := by
  have hquotient : 0 < num / 2 ^ (log 2 num - 52) := by
    apply Nat.div_pos _ (two_pow_pos _)
    apply le_trans _ (pow_log_le_self 2 hpos.ne')
    exact Nat.pow_le_pow_right (by decide) (sub_le _ _)
  unfold roundPattern
  simp only [Nat.div_one, Nat.one_mul]
  apply lt_min _ (by decide)
  omega

theorem ofInt_ne_zero (i : Int) : ofInt i ≠ zero true := by
  intro heq
  have hbits := congrArg (fun d => d.bits.toNat) heq
  simp only [ofInt, round, zero, bits_ofPattern (roundPattern_le _ _),
    bits_ofPattern (Nat.zero_le _)]
    at hbits
  have hle := roundPattern_le (i.natAbs * 2 ^ 1074) 1
  unfold infinityPattern at hle
  cases hneg : decide (i < 0) with
  | false =>
    rw [hneg] at hbits
    simp only [Bool.false_eq_true, if_false, if_true] at hbits
    omega
  | true =>
    have hpos := roundPattern_pos (Nat.mul_pos (Int.natAbs_pos.mpr
      (of_decide_eq_true hneg).ne) (two_pow_pos 1074))
    rw [hneg] at hbits
    simp only [if_true] at hbits
    omega

theorem isFinite_ofInt {i : Int} (hi : i.natAbs ≤ 2 ^ 63) : (ofInt i).isFinite = true := by
  apply isFinite_ofPattern
  apply roundPattern_lt (k := 1138) (by decide)
  exact mul_two_pow_lt hi (by decide)

theorem roundPattern_two_pow {k : Nat} (hle : 52 ≤ k) (hlt : k < 2052) :
    roundPattern (2 ^ k) 1 = (k - 52 + 1) * 2 ^ 52 := by
  have hquotient : 2 ^ k / 2 ^ (k - 52) = 2 ^ 52 := by
    rw [Nat.pow_div (sub_le _ _) Nat.two_pos, Nat.sub_sub_self hle]
  have hrest : 2 ^ k % 2 ^ (k - 52) = 0 := two_pow_mod (sub_le _ _)
  unfold roundPattern infinityPattern
  simp only [Nat.div_one, Nat.one_mul, log_pow Nat.one_lt_two, hquotient, hrest]
  rw [if_neg (by simp)]
  omega

theorem ofInt_two : ofInt 2 = two := by
  have htwo : Int.natAbs 2 = 2 ^ 1 := rfl
  rw [ofInt, round, htwo, ← two_pow_add, roundPattern_two_pow (by decide) (by decide)]
  decide

theorem compare_maxFinite : maxFinite.compare maxFinite = some .eq := by
  have hnan : maxFinite.isNaN = false := by decide
  rw [compare, hnan, cmp_self_eq_eq]
  rfl

theorem compare_infinity : (infinity false).compare maxFinite = some .gt := by
  have hnan : maxFinite.isNaN = false := by decide
  have hinfinity : (infinity false).isNaN = false := by decide
  have hsign : maxFinite.sign = false := by decide
  have hsign' : (infinity false).sign = false := by decide
  have hlt : maxFinite.magnitude < (infinity false).magnitude := by
    rw [magnitude_maxFinite, magnitude_infinity, two_pow_add 2045 1, Nat.mul_comm (2 ^ 2045),
      ← Nat.mul_assoc]
    exact Nat.mul_lt_mul_of_pos_right (by decide) (two_pow_pos _)
  have hgt : cmp ((infinity false).magnitude : Int) (maxFinite.magnitude : Int) = .gt :=
    (cmp_eq_gt_iff _ _).mpr (Int.ofNat_lt.mpr hlt)
  rw [compare, hnan, hinfinity, value, value, hsign, hsign']
  exact congrArg some hgt

theorem compare_mul_self (hfinite : d.isFinite = true)
    (hle : maxFinite.magnitude * 2 ^ 1074 ≤ d.magnitude * d.magnitude) :
    (d.mul d).compare maxFinite = some .eq ∨ (d.mul d).compare maxFinite = some .gt := by
  have hfinite : d.exponent ≠ 2047 := by simpa [isFinite] using hfinite
  have hnan : d.isNaN = false := by simp [isNaN, hfinite]
  have hinfinite : d.isInfinite = false := by simp [isInfinite, hfinite]
  have hround : d.mul d = ofPattern false
    (roundPattern (d.magnitude * d.magnitude) (2 ^ 1074)) := by
    simp only [mul, hnan, hinfinite, Bool.or_self, Bool.false_eq_true, if_false, bne_self_eq_false]
    rfl
  have hmin := le_roundPattern (two_pow_pos 1074) hle
  have hmax := roundPattern_le (d.magnitude * d.magnitude) (2 ^ 1074)
  rw [hround]
  cases Nat.eq_or_lt_of_le hmin with
  | inl heq =>
    have hmaxFinite : ofPattern false (infinityPattern - 1) = maxFinite := by decide
    rw [← heq, hmaxFinite]
    exact .inl compare_maxFinite
  | inr hlt =>
    have heq : roundPattern (d.magnitude * d.magnitude) (2 ^ 1074) = infinityPattern :=
      Nat.le_antisymm hmax (by omega)
    rw [heq]
    exact .inr compare_infinity

theorem eq_infinity (hinfinite : d.isInfinite = true) (hsign : d.sign = false) :
    d = infinity false := by
  have hlt : d.bits.toNat < 2 ^ 63 := by
    rw [sign, msb_eq_decide, decide_eq_false_iff_not] at hsign
    omega
  obtain ⟨hexponent, hfraction⟩ : d.exponent = 2047 ∧ d.fraction = 0 := by
    simpa [isInfinite] using hinfinite
  unfold exponent at hexponent
  unfold fraction at hfraction
  obtain ⟨bits⟩ := d
  have hbits : bits = BitVec.ofNat 64 infinityPattern := by
    apply eq_of_toNat_eq
    change bits.toNat = infinityPattern
    unfold infinityPattern
    simp only at hexponent hfraction hlt
    omega
  rw [hbits]
  rfl

theorem exponent_of_isZero (hzero : d.isZero = true) : d.exponent = 0 := by
  by_contra hne
  have hpos : 0 < (2 ^ 52 + d.fraction) * 2 ^ (d.exponent - 1) :=
    Nat.mul_pos (Nat.add_pos_left (two_pow_pos 52) _) (two_pow_pos _)
  simp only [isZero, magnitude, hne, if_false, decide_eq_true_eq] at hzero
  exact hpos.ne' hzero

theorem eq_zero_of_isZero (hzero : d.isZero = true) : d = zero false ∨ d = zero true := by
  have hexponent := exponent_of_isZero hzero
  have hfraction : d.fraction = 0 := by simpa [isZero, magnitude, hexponent] using hzero
  unfold exponent at hexponent
  unfold fraction at hfraction
  obtain ⟨bits⟩ := d
  simp only at hexponent hfraction
  have hbits : bits.toNat = 0 ∨ bits.toNat = 2 ^ 63 := by omega
  cases hbits with
  | inl hbits => exact .inl (congrArg Double.mk (eq_of_toNat_eq hbits))
  | inr hbits => exact .inr (congrArg Double.mk (eq_of_toNat_eq hbits))

theorem compare_of_isZero (hzero : d.isZero = true) : d.compare (zero false) = some .eq := by
  have hnan : d.isNaN = false := by simp [isNaN, exponent_of_isZero hzero]
  have hvalue : d.value = 0 := by
    simp only [isZero, decide_eq_true_eq] at hzero
    simp [value, hzero]
  have hzero' : (zero false).isNaN = false ∧ (zero false).value = 0 := by decide
  simp [compare, hnan, hvalue, hzero'.1, hzero'.2]

theorem sign_of_compare (h : d.compare (zero false) = some .gt) :
    d.sign = false ∧ d.isZero = false := by
  constructor
  · have hzero' : (zero false).isNaN = false ∧ (zero false).value = 0 := by decide
    simp only [compare, hzero'.1, hzero'.2, Bool.or_false] at h
    split at h
    · simp at h
    · have hgt := (cmp_eq_gt_iff _ _).mp (Option.some.inj h)
      by_contra hsign
      have hneg : d.sign = true := by simpa using hsign
      simp only [value, hneg, if_true] at hgt
      omega
  · by_contra hzero
    rw [compare_of_isZero (by simpa using hzero)] at h
    simp at h

theorem bits_abs (d : Double) : d.abs.bits.toNat = d.bits.toNat % 2 ^ 63 := by
  unfold abs
  rw [toNat_and, toNat_ofNat, mod_eq_of_lt (by decide),
    and_two_pow_sub_one_eq_mod]

@[simp] theorem sign_abs (d : Double) : d.abs.sign = false := by
  rw [sign, msb_eq_decide, bits_abs, decide_eq_false_iff_not, not_le]
  exact mod_lt _ (two_pow_pos 63)

@[simp] theorem exponent_abs (d : Double) : d.abs.exponent = d.exponent := by
  unfold exponent
  rw [bits_abs]
  omega

@[simp] theorem fraction_abs (d : Double) : d.abs.fraction = d.fraction := by
  unfold fraction
  rw [bits_abs]
  omega

@[simp] theorem magnitude_abs (d : Double) : d.abs.magnitude = d.magnitude := by
  unfold magnitude
  rw [exponent_abs, fraction_abs]

@[simp] theorem isFinite_abs (d : Double) : d.abs.isFinite = d.isFinite := by
  unfold isFinite
  rw [exponent_abs]

@[simp] theorem isZero_abs (d : Double) : d.abs.isZero = d.isZero := by
  unfold isZero
  rw [magnitude_abs]

theorem abs_eq_self (hsign : d.sign = false) : d.abs = d := by
  obtain ⟨bits⟩ := d
  rw [sign, msb_eq_decide, decide_eq_false_iff_not, not_le] at hsign
  have hbits : (abs ⟨bits⟩).bits = bits := by
    apply eq_of_toNat_eq
    rw [bits_abs]
    exact mod_eq_of_lt hsign
  exact congrArg Double.mk hbits

end Double

end CinderX.Foundation
