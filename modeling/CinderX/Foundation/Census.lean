import CinderX.Foundation.Basic

/-!
# Counting threads by where they are

A weight says how much a thread in a given place counts.  When one thread goes
elsewhere, the sum changes by the difference of its weights.
-/

namespace CinderX.Foundation

open Finset

variable {Thread Place : Type*} [Fintype Thread]

def census (weight : Place → Nat) (places : Thread → Place) : Nat := ∑ t, weight (places t)

variable {weight : Place → Nat} {places : Thread → Place} {t t' : Thread}

theorem le_census (weight : Place → Nat) (places : Thread → Place) (t : Thread) :
    weight (places t) ≤ census weight places :=
  single_le_sum_of_canonicallyOrdered (f := fun t => weight (places t)) (mem_univ t)

theorem census_eq_zero : census weight places = 0 ↔ ∀ t, weight (places t) = 0 := by
  simp [census]

theorem census_const {k : Nat} (h : ∀ t, weight (places t) = k) :
    census weight places = Fintype.card Thread * k := by
  simp [census, h]

theorem census_add (weight weight' : Place → Nat) (places : Thread → Place) :
    census (fun place => weight place + weight' place) places =
      census weight places + census weight' places :=
  sum_add_distrib

variable [DecidableEq Thread]

theorem census_update (weight : Place → Nat) (places : Thread → Place) (t : Thread)
    (place : Place) : census weight (Function.update places t place) + weight (places t) =
      census weight places + weight place := by
  have hrest : ∀ places' : Thread → Place,
      census weight places' = weight (places' t) + ∑ t' ∈ univ.erase t, weight (places' t') :=
    fun places' => (add_sum_erase _ (fun t => weight (places' t)) (mem_univ t)).symm
  have hsame : ∑ t' ∈ univ.erase t, weight (Function.update places t place t') =
      ∑ t' ∈ univ.erase t, weight (places t') := by
    refine sum_congr rfl fun t' ht' => ?_
    rw [Function.update_of_ne (ne_of_mem_erase ht')]
  rw [hrest, hrest places, hsame, Function.update_self]
  omega

theorem census_update_of_eq {place : Place} (h : weight place = weight (places t)) :
    census weight (Function.update places t place) = census weight places :=
  Nat.add_right_cancel ((census_update weight places t place).trans (congrArg _ h))

theorem add_le_census (weight : Place → Nat) (places : Thread → Place) (hne : t' ≠ t) :
    weight (places t) + weight (places t') ≤ census weight places := by
  have hrest := add_sum_erase _ (fun t => weight (places t)) (mem_univ t)
  have hle := single_le_sum_of_canonicallyOrdered (f := fun t => weight (places t))
    (mem_erase.mpr ⟨hne, mem_univ t'⟩)
  rw [census, ← hrest]
  exact Nat.add_le_add_left hle _

end CinderX.Foundation
