import CinderX.Foundation.Basic

/-!
# Little-endian byte memories

Words of any width in a memory of bytes, and the replacement of the low bits of
a word, which is what a store narrower than the word does to it.
-/

namespace CinderX.Foundation

open BitVec

def replaceLow {wide narrow : Nat} (old : BitVec wide) (low : BitVec narrow) :
    BitVec wide :=
  (old >>> narrow) <<< narrow ||| low.setWidth wide

variable {wide narrow : Nat}

theorem getLsbD_replaceLow (old : BitVec wide) (low : BitVec narrow) (i : Nat) :
    (replaceLow old low).getLsbD i =
      (decide (i < wide) &&
        if i < narrow then low.getLsbD i else old.getLsbD i) := by
  unfold replaceLow
  rw [getLsbD_or, getLsbD_shiftLeft, getLsbD_setWidth,
    getLsbD_ushiftRight]
  by_cases hi : i < narrow
  · simp [hi]
  · have hlow : low.getLsbD i = false := getLsbD_of_ge _ _ (by omega)
    have hindex : narrow + (i - narrow) = i := by omega
    simp [hi, hlow, hindex]

theorem setWidth_replaceLow (old : BitVec wide) (low : BitVec narrow) {width : Nat}
    (hnarrow : width ≤ narrow) (hwide : width ≤ wide) :
    (replaceLow old low).setWidth width = low.setWidth width := by
  apply eq_of_getLsbD_eq
  intro i hi
  rw [getLsbD_setWidth, getLsbD_setWidth, getLsbD_replaceLow,
    if_pos (by omega)]
  have hin : i < wide := by omega
  simp [hi, hin]

theorem replaceLow_self {width : Nat} (old low : BitVec width) :
    replaceLow old low = low := by
  simpa using setWidth_replaceLow old low (Nat.le_refl width) (Nat.le_refl width)

theorem replaceLow_setWidth (word : BitVec wide) :
    replaceLow word (word.setWidth narrow) = word := by
  apply eq_of_getLsbD_eq
  intro i hi
  rw [getLsbD_replaceLow, getLsbD_setWidth]
  by_cases hlow : i < narrow <;> simp [hi, hlow]

theorem replaceLow_eq_setWidth_iff (old : BitVec wide) (low : BitVec narrow) :
    replaceLow old low = low.setWidth wide ↔
      ∀ i, narrow ≤ i → i < wide → old.getLsbD i = false := by
  constructor
  · intro h i hnarrow hwide
    have hbit := congrArg (fun word => word.getLsbD i) h
    have hlow : low.getLsbD i = false := getLsbD_of_ge _ _ hnarrow
    rw [getLsbD_replaceLow, getLsbD_setWidth, hlow] at hbit
    simpa only [hwide, decide_true, Bool.true_and, Nat.not_lt.mpr hnarrow, if_false,
      Bool.and_false] using hbit
  · intro h
    apply eq_of_getLsbD_eq
    intro i hwide
    rw [getLsbD_replaceLow, getLsbD_setWidth]
    by_cases hi : i < narrow
    · simp [hi, hwide]
    · have hlow : low.getLsbD i = false := getLsbD_of_ge _ _ (by omega)
      rw [if_neg hi, hlow, h i (by omega) hwide, Bool.and_false]

def loadWord (bytes : Int → BitVec 8) (address : Int) (width : Nat) :
    BitVec width :=
  (iunfoldr
    (fun i _ => ((), (bytes (address + (i.val / 8 : Nat))).getLsbD (i.val % 8))) ()).2

def storeWord {width : Nat} (bytes : Int → BitVec 8) (address : Int)
    (word : BitVec width) : Int → BitVec 8 :=
  fun a =>
    if address ≤ a ∧ a < address + (width / 8 : Nat) then
      (word >>> (8 * (a - address).toNat)).setWidth 8
    else bytes a

theorem getLsbD_loadWord (bytes : Int → BitVec 8) (address : Int) (width i : Nat)
    (h : i < width) :
    (loadWord bytes address width).getLsbD i =
      (bytes (address + (i / 8 : Nat))).getLsbD (i % 8) :=
  iunfoldr_getLsbD (fun _ => ()) ⟨i, h⟩ fun _ => rfl

theorem setWidth_loadWord (bytes : Int → BitVec 8) (address : Int) (h : narrow ≤ wide) :
    (loadWord bytes address wide).setWidth narrow = loadWord bytes address narrow := by
  apply eq_of_getLsbD_eq
  intro i hi
  rw [getLsbD_setWidth, getLsbD_loadWord _ _ _ _ (by omega),
    getLsbD_loadWord _ _ _ _ hi]
  simp [hi]

theorem loadWord_storeWord {width : Nat} (bytes : Int → BitVec 8) (address : Int)
    (word : BitVec width) (hbytes : 8 ∣ width) (wide : Nat) :
    loadWord (storeWord bytes address word) address wide =
      replaceLow (loadWord bytes address wide) word := by
  apply eq_of_getLsbD_eq
  intro i hi
  rw [getLsbD_replaceLow, getLsbD_loadWord _ _ _ _ hi, getLsbD_loadWord _ _ _ _ hi]
  obtain ⟨count, rfl⟩ := hbytes
  have hcount : 8 * count / 8 = count := by omega
  have hoffset : (address + (i / 8 : Nat) - address).toNat = i / 8 := by omega
  have hsplit : 8 * (i / 8) + i % 8 = i := by omega
  have hmod : i % 8 < 8 := by omega
  simp only [storeWord, hcount, hoffset, hi]
  by_cases hin : i < 8 * count
  · rw [if_pos (by omega)]
    simp [hin, hmod, getLsbD_ushiftRight, hsplit]
  · rw [if_neg (by omega)]
    simp [hin]

end CinderX.Foundation
