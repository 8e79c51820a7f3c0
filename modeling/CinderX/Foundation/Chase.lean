import CinderX.Foundation.Basic

/-!
# Following links to their end

Every element has at most one link.  Where the links form no cycle, following
them ends after at most as many steps as there are elements.
-/

namespace CinderX.Foundation

variable {α : Type*}

/-- `none` if the fuel runs out. -/
def chase (next : α → Option α) : Nat → α → Option α
  | 0, a => if (next a).isNone then some a else none
  | fuel + 1, a =>
    match next a with
    | none => some a
    | some b => chase next fuel b

def Links (next : α → Option α) (a b : α) : Prop := next a = some b

variable {next : α → Option α}

theorem chase_spec {fuel : Nat} {a root : α} (h : chase next fuel a = some root) :
    Relation.ReflTransGen (Links next) a root ∧ next root = none := by
  induction fuel generalizing a with
  | zero =>
    simp only [chase] at h
    split at h
    case isTrue hnone =>
      obtain rfl : a = root := by simpa using h
      exact ⟨.refl, by simpa using hnone⟩
    case isFalse => simp at h
  | succ fuel ih =>
    simp only [chase] at h
    split at h
    case h_1 hnone =>
      obtain rfl : a = root := by simpa using h
      exact ⟨.refl, hnone⟩
    case h_2 b hb =>
      obtain ⟨hlinks, hroot⟩ := ih h
      exact ⟨.head hb hlinks, hroot⟩

section

variable [Fintype α]

open Classical in
noncomputable def rank (r : α → α → Prop) (a : α) : Nat :=
  (Finset.univ.filter fun b => Relation.TransGen r a b).card

variable {r : α → α → Prop} (hacyclic : ∀ a, ¬Relation.TransGen r a a)

include hacyclic

theorem rank_lt {a b : α} (h : r a b) : rank r b < rank r a := by
  classical
  refine Finset.card_lt_card ⟨?_, ?_⟩
  · intro c hc
    simp only [Finset.mem_filter, Finset.mem_univ, true_and] at hc ⊢
    exact .head h hc
  · intro hsub
    have hmem : b ∈ Finset.univ.filter fun b => Relation.TransGen r a b := by
      simp only [Finset.mem_filter, Finset.mem_univ, true_and]
      exact .single h
    exact hacyclic b (by simpa using hsub hmem)

theorem rank_lt_card (a : α) : rank r a < Fintype.card α := by
  classical
  exact Finset.card_lt_univ_of_notMem (x := a) (by simpa using hacyclic a)

end

section

variable [Fintype α] (hacyclic : ∀ a, ¬Relation.TransGen (Links next) a a)

include hacyclic

theorem chase_isSome_of_rank {fuel : Nat} {a : α} (hfuel : rank (Links next) a ≤ fuel) :
    ∃ root, chase next fuel a = some root := by
  induction fuel generalizing a with
  | zero =>
    have hnone : next a = none := by
      cases hb : next a with
      | none => rfl
      | some b =>
        have := rank_lt hacyclic hb
        omega
    exact ⟨a, by simp [chase, hnone]⟩
  | succ fuel ih =>
    cases hb : next a with
    | none => exact ⟨a, by simp [chase, hb]⟩
    | some b =>
      have hlt := rank_lt hacyclic hb
      obtain ⟨root, hroot⟩ := ih (a := b) (by omega)
      exact ⟨root, by simp [chase, hb, hroot]⟩

theorem chase_isSome (a : α) : ∃ root, chase next (Fintype.card α) a = some root :=
  chase_isSome_of_rank hacyclic (rank_lt_card hacyclic a).le

end

end CinderX.Foundation
