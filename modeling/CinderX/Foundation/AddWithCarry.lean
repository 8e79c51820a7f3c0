import CinderX.Foundation.Basic

/-!
# Addition with carry

The sum of two words and a carry with the four condition flags.  A comparison subtracts by
adding the complement with the carry set; adding the negated word sets the same flags,
unless the word is zero or its own negation.
-/

namespace CinderX.Foundation

open BitVec

variable {w : Nat}

structure ConditionFlags where
  n : Bool
  z : Bool
  c : Bool
  v : Bool
  deriving DecidableEq, Repr, Inhabited

def addWithCarry (x y : BitVec w) (carry : Bool) : BitVec w × ConditionFlags :=
  let sum := BitVec.ofNat w (x.toNat + y.toNat + carry.toNat)
  (sum, ⟨sum.msb, decide (sum = 0), decide (2 ^ w ≤ x.toNat + y.toNat + carry.toNat),
    decide (sum.toInt ≠ x.toInt + y.toInt + carry.toNat)⟩)

def adds (x y : BitVec w) : BitVec w × ConditionFlags := addWithCarry x y false

def subs (x y : BitVec w) : BitVec w × ConditionFlags := addWithCarry x (~~~y) true

theorem fst_adds (x y : BitVec w) : (adds x y).1 = x + y := by
  apply eq_of_toNat_eq
  simp [adds, addWithCarry]

theorem fst_subs (x y : BitVec w) : (subs x y).1 = x - y := by
  apply eq_of_toNat_eq
  have hy := y.isLt
  simp only [subs, addWithCarry, toNat_not, toNat_ofNat, toNat_sub,
    Bool.toNat_true]
  congr 1
  omega

theorem z_adds (x y : BitVec w) : (adds x y).2.z = true ↔ x + y = 0 := by
  rw [← fst_adds]
  exact decide_eq_true_iff

theorem z_subs (x y : BitVec w) : (subs x y).2.z = true ↔ x - y = 0 := by
  rw [← fst_subs]
  exact decide_eq_true_iff

theorem toNat_not_neg {y : BitVec w} (hy : y ≠ 0) : (~~~(-y)).toNat = y.toNat - 1 := by
  have hlt := y.isLt
  have hpos : y.toNat ≠ 0 := fun h => hy (eq_of_toNat_eq (by simpa using h))
  rw [toNat_not, toNat_neg, Nat.mod_eq_of_lt (by omega)]
  omega

theorem toInt_not_neg {y : BitVec w} (hy : y ≠ 0) (hhalf : 2 * y.toNat ≠ 2 ^ w) :
    (~~~(-y)).toInt + 1 = y.toInt := by
  have hpos : y.toNat ≠ 0 := fun h => hy (eq_of_toNat_eq (by simpa using h))
  obtain ⟨m, hm⟩ : ∃ m, 2 ^ w = 2 * m := by
    cases w with
    | zero =>
      have := y.isLt
      omega
    | succ k => exact ⟨2 ^ k, by rw [Nat.pow_succ, Nat.mul_comm]⟩
  rw [toInt_eq_toNat_cond, toInt_eq_toNat_cond, toNat_not_neg hy]
  split <;> split <;> omega

theorem adds_eq_subs_neg (x : BitVec w) {y : BitVec w} (hy : y ≠ 0)
    (hhalf : 2 * y.toNat ≠ 2 ^ w) : adds x y = subs x (-y) := by
  have hpos : y.toNat ≠ 0 := fun h => hy (eq_of_toNat_eq (by simpa using h))
  have hnat : x.toNat + (~~~(-y)).toNat + true.toNat = x.toNat + y.toNat + false.toNat := by
    rw [toNat_not_neg hy]
    simp only [Bool.toNat_true, Bool.toNat_false]
    omega
  have hint : x.toInt + (~~~(-y)).toInt + (true.toNat : Int) =
      x.toInt + y.toInt + (false.toNat : Int) := by
    have := toInt_not_neg hy hhalf
    simp only [Bool.toNat_true, Bool.toNat_false]
    omega
  unfold adds subs addWithCarry
  rw [hnat, hint]

end CinderX.Foundation
