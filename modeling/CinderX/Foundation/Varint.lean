import CinderX.Foundation.Basic

/-!
# Little-endian numbers of six-bit groups

A number as groups of six bits, the lowest first; bit 6 of a byte says that another
group follows.  A signed number keeps its sign in the lowest bit.
-/

namespace CinderX.Foundation

def writeVarint (value : Nat) : List Nat :=
  if value ≥ 64 then (64 ||| (value &&& 63)) :: writeVarint (value >>> 6) else [value]
termination_by value
decreasing_by
  rw [Nat.shiftRight_eq_div_pow]
  omega

def writeSignedVarint (value : Int) : List Nat :=
  writeVarint <|
    if value < 0 then (-value).toNat <<< 1 ||| 1 else value.toNat <<< 1

def readVarint : List Nat → Option (Nat × List Nat)
  | [] => none
  | byte :: rest =>
    if byte &&& 64 = 0 then some (byte &&& 63, rest)
    else (readVarint rest).map fun r => (r.1 * 64 + (byte &&& 63), r.2)

def readSignedVarint (bytes : List Nat) : Option (Int × List Nat) :=
  (readVarint bytes).map fun r =>
    (if r.1 &&& 1 = 0 then (r.1 >>> 1 : Int) else -(r.1 >>> 1 : Nat), r.2)

theorem length_readVarint {bytes : List Nat} : ∀ {r : Nat × List Nat},
    readVarint bytes = some r → r.2.length < bytes.length := by
  induction bytes with
  | nil => exact nofun
  | cons byte rest ih =>
    intro r h
    rw [readVarint] at h
    split at h
    · cases h
      exact Nat.lt_succ_self _
    · obtain ⟨r', h', rfl⟩ := Option.map_eq_some_iff.mp h
      have hlt := ih h'
      exact Nat.lt_succ_of_lt hlt

theorem length_readSignedVarint {bytes : List Nat} {r : Int × List Nat}
    (h : readSignedVarint bytes = some r) : r.2.length < bytes.length := by
  obtain ⟨r', h', rfl⟩ := Option.map_eq_some_iff.mp h
  exact length_readVarint h'

theorem continued_group : ∀ g < 64, (64 ||| g) &&& 64 ≠ 0 ∧ (64 ||| g) &&& 63 = g ∧
    64 ||| g < 128 ∧ g &&& 64 = 0 ∧ g &&& 63 = g := by
  decide

theorem readVarint_writeVarint (value : Nat) (rest : List Nat) :
    readVarint (writeVarint value ++ rest) = some (value, rest) := by
  induction value using Nat.strongRecOn with
  | ind value ih =>
    rw [writeVarint]
    split
    next hmore =>
      have hmod : value &&& 63 = value % 64 := Nat.and_two_pow_sub_one_eq_mod value 6
      have hdiv : value >>> 6 = value / 64 := Nat.shiftRight_eq_div_pow value 6
      have hgroup := continued_group (value &&& 63) (by omega)
      rw [List.cons_append, readVarint, if_neg hgroup.1, hgroup.2.1, hdiv,
        ih (value / 64) (by omega), hmod]
      simp only [Option.map_some, Option.some.injEq, Prod.mk.injEq, and_true]
      omega
    next hlast =>
      have hgroup := continued_group value (by omega)
      rw [List.cons_append, List.nil_append, readVarint, if_pos hgroup.2.2.2.1,
        hgroup.2.2.2.2]

theorem readSignedVarint_writeSignedVarint (value : Int) (rest : List Nat) :
    readSignedVarint (writeSignedVarint value ++ rest) = some (value, rest) := by
  unfold readSignedVarint writeSignedVarint
  rw [readVarint_writeVarint, Option.map_some]
  split
  next hneg =>
    have hodd : (-value).toNat <<< 1 ||| 1 = 2 * (-value).toNat + 1 := by
      rw [Nat.shiftLeft_eq, Nat.mul_comm]
      exact (Nat.two_pow_add_eq_or_of_lt (i := 1) (by decide) _).symm
    have hbit : (2 * (-value).toNat + 1) &&& 1 = 1 := by
      rw [Nat.and_one_is_mod]
      omega
    rw [hodd, hbit, if_neg (by decide), Nat.shiftRight_eq_div_pow]
    congr 2
    omega
  next hpos =>
    have hbit : (value.toNat <<< 1) &&& 1 = 0 := by
      rw [Nat.and_one_is_mod, Nat.shiftLeft_eq]
      omega
    rw [hbit, if_pos rfl]
    congr 2
    rw [Nat.shiftLeft_shiftRight]
    omega

end CinderX.Foundation
