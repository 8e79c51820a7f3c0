import CinderX.Foundation.Basic

/-!
# Systems of equations solved with a worklist

Every node has a value, computed from the values of all nodes by a monotone equation.  A
worklist that does not start with every node leaves some of the equations open; what it ends
with is the least solution of the others for the values of the open ones.
-/

namespace CinderX.Foundation

open Function

structure Equations (ι β : Type*) [DecidableEq ι] [PartialOrder β] where
  nodes : List ι
  eval : ι → (ι → β) → β
  /-- The nodes that are computed again when a node changes. -/
  outputs : ι → List ι
  mono : ∀ i, Monotone (eval i)
  outputs_mem : ∀ {i j}, j ∈ outputs i → j ∈ nodes
  eval_update : ∀ {i j}, j ∉ outputs i → ∀ values b,
    eval j (Function.update values i b) = eval j values

namespace Equations

variable {ι β : Type*} [DecidableEq ι] [PartialOrder β]

structure State (ι β : Type*) where
  values : ι → β
  worklist : List ι

variable (p : Equations ι β)

section

variable [DecidableEq β]

def visit (s : State ι β) (i : ι) (rest : List ι) : State ι β where
  values := Function.update s.values i (p.eval i s.values)
  worklist := if p.eval i s.values = s.values i then rest else rest ++ p.outputs i

def run : Nat → State ι β → Option (State ι β)
  | 0, s => match s.worklist with
    | [] => some s
    | _ :: _ => none
  | fuel + 1, s => match s.worklist with
    | [] => some s
    | i :: rest => run fuel (p.visit s i rest)

end

def Growing (values : ι → β) : Prop := ∀ i, values i ≤ p.eval i values

/-- The equations of the required nodes hold, unless they wait in the worklist. -/
def Settled (required : ι → Prop) (s : State ι β) : Prop :=
  ∀ i, required i → i ∉ s.worklist → p.eval i s.values = s.values i

variable {p} {s s' : State ι β} {i : ι} {rest : List ι} {required : ι → Prop} {values : ι → β}
  {fuel : Nat}

theorem Growing.le_update (h : p.Growing values) (i : ι) :
    values ≤ Function.update values i (p.eval i values) := by
  intro j
  by_cases hj : j = i
  · subst hj
    rw [update_self]
    exact h j
  · rw [update_of_ne hj]

theorem Growing.update (h : p.Growing values) (i : ι) :
    p.Growing (Function.update values i (p.eval i values)) := by
  intro j
  have hmono := p.mono j (h.le_update i)
  by_cases hj : j = i
  · subst hj
    rw [update_self]
    exact hmono
  · rw [update_of_ne hj]
    exact (h j).trans hmono

variable [DecidableEq β]

theorem Growing.visit (h : p.Growing s.values) : p.Growing (p.visit s i rest).values :=
  h.update i

theorem Settled.visit (h : p.Settled required s) (hwork : s.worklist = i :: rest) :
    p.Settled required (p.visit s i rest) := by
  intro j hj hnot
  by_cases hsame : p.eval i s.values = s.values i
  · have hvalues : (p.visit s i rest).values = s.values := by
      simp only [Equations.visit, hsame, update_eq_self]
    simp only [Equations.visit, if_pos hsame] at hnot
    rw [hvalues]
    by_cases hji : j = i
    · exact hji ▸ hsame
    · exact h j hj (by simp [hwork, hji, hnot])
  · simp only [Equations.visit, if_neg hsame, List.mem_append, not_or] at hnot ⊢
    rw [p.eval_update hnot.2]
    by_cases hji : j = i
    · subst hji
      rw [update_self]
    · rw [update_of_ne hji]
      exact h j hj (by simp [hwork, hji, hnot.1])

theorem run_invariant {P : State ι β → Prop}
    (step : ∀ s i rest, P s → s.worklist = i :: rest → P (p.visit s i rest)) (hs : P s)
      (h : p.run fuel s = some s') : P s' ∧ s'.worklist = [] := by
  induction fuel generalizing s with
  | zero =>
    unfold run at h
    split at h
    next hwork =>
      cases h
      exact ⟨hs, hwork⟩
    next => cases h
  | succ fuel ih =>
    unfold run at h
    split at h
    next hwork =>
      cases h
      exact ⟨hs, hwork⟩
    next i rest hwork => exact ih (step s i rest hs hwork) h

theorem run_le (hgrowing : p.Growing s.values) (h : p.run fuel s = some s') :
    s.values ≤ s'.values := by
  have hinv : ∀ (u : State ι β) i rest, p.Growing u.values ∧ s.values ≤ u.values →
      u.worklist = i :: rest →
      p.Growing (p.visit u i rest).values ∧ s.values ≤ (p.visit u i rest).values :=
    fun u i rest hu _ => ⟨hu.1.visit, hu.2.trans (hu.1.le_update i)⟩
  exact (run_invariant hinv ⟨hgrowing, le_rfl⟩ h).1.2

variable (required) in
theorem run_settled (hrequired : ∀ i, required i → i ∈ s.worklist)
    (h : p.run fuel s = some s') : ∀ i, required i → p.eval i s'.values = s'.values i := by
  obtain ⟨hsettled, hwork⟩ := run_invariant (P := p.Settled required)
    (fun s i rest hs hwork => hs.visit hwork) (fun i hi hnot => absurd (hrequired i hi) hnot) h
  exact fun i hi => hsettled i hi (by simp [hwork])

variable (required) in
theorem run_least (hgrowing : p.Growing s.values) (h : p.run fuel s = some s')
    {bound : ι → β} (hstart : s.values ≤ bound)
    (hrequired : ∀ i, required i → p.eval i bound ≤ bound i)
    (hopen : ∀ i, ¬ required i → s'.values i ≤ bound i) : s'.values ≤ bound := by
  induction fuel generalizing s with
  | zero =>
    unfold run at h
    split at h
    next =>
      cases h
      exact hstart
    next => cases h
  | succ fuel ih =>
    unfold run at h
    split at h
    next =>
      cases h
      exact hstart
    next i rest _ =>
      refine ih hgrowing.visit h fun j => ?_
      by_cases hj : j = i
      · subst hj
        by_cases hreq : required j
        · have hle := (p.mono j hstart).trans (hrequired j hreq)
          simpa [Equations.visit] using hle
        · exact (run_le hgrowing.visit h j).trans (hopen j hreq)
      · simpa [Equations.visit, hj] using hstart j

section Termination

variable (p) in
/-- How far a value has grown, up to a height that the equations do not exceed. -/
structure Rank where
  rank : β → Nat
  height : Nat
  rank_lt : ∀ {a b}, a < b → rank a < rank b
  rank_le : ∀ i values, rank (p.eval i values) ≤ height

variable (r : p.Rank)

def potential (values : ι → β) : Nat :=
  (p.nodes.map fun i => r.height - r.rank (values i)).sum

def bound (s : State ι β) : Nat :=
  potential r s.values * ((p.nodes.map fun i => (p.outputs i).length).sum + 1) +
    s.worklist.length

omit [DecidableEq β] in
theorem Rank.rank_mono {a b : β} (h : a ≤ b) : r.rank a ≤ r.rank b := by
  rcases h.eq_or_lt with rfl | hlt
  · exact le_rfl
  · exact (r.rank_lt hlt).le

omit [DecidableEq β] in
theorem Growing.potential_lt {values : ι → β} (h : p.Growing values) (hi : i ∈ p.nodes)
    (hchanged : p.eval i values ≠ values i) :
    potential r (Function.update values i (p.eval i values)) < potential r values := by
  have hlt : values i < p.eval i values := (h i).lt_of_ne hchanged.symm
  refine List.sum_lt_sum _ _ (fun j _ => ?_) ⟨i, hi, ?_⟩
  · exact Nat.sub_le_sub_left (r.rank_mono (h.le_update i j)) _
  · have hrank := r.rank_lt hlt
    have hle := r.rank_le i values
    rw [update_self]
    omega

theorem Growing.bound_visit_lt (h : p.Growing s.values) (hi : i ∈ p.nodes)
    (hwork : s.worklist = i :: rest) : bound r (p.visit s i rest) < bound r s := by
  unfold bound
  rw [hwork, List.length_cons]
  by_cases hsame : p.eval i s.values = s.values i
  · simp only [Equations.visit, hsame, update_eq_self, if_true]
    omega
  · have hlt := h.potential_lt r hi hsame
    have hout : (p.outputs i).length ≤ (p.nodes.map fun i => (p.outputs i).length).sum :=
      List.single_le_sum (by simp) _ (List.mem_map_of_mem hi)
    have hmul := Nat.mul_le_mul_right ((p.nodes.map fun i => (p.outputs i).length).sum + 1)
      (Nat.succ_le_of_lt hlt)
    rw [Nat.succ_mul] at hmul
    simp only [Equations.visit, if_neg hsame, List.length_append]
    omega

theorem run_isSome (h : p.Growing s.values) (hwork : ∀ i ∈ s.worklist, i ∈ p.nodes) {fuel : Nat}
    (hfuel : bound r s ≤ fuel) : ∃ s', p.run fuel s = some s' := by
  induction fuel generalizing s with
  | zero =>
    have hnil : s.worklist = [] :=
      List.eq_nil_of_length_eq_zero (by unfold bound at hfuel; omega)
    exact ⟨s, by simp [run, hnil]⟩
  | succ fuel ih =>
    cases hlist : s.worklist with
    | nil => exact ⟨s, by simp [run, hlist]⟩
    | cons i rest =>
      have hlt := h.bound_visit_lt r (hwork i (by simp [hlist])) hlist
      have hwork' : ∀ j ∈ (p.visit s i rest).worklist, j ∈ p.nodes := by
        intro j hj
        simp only [Equations.visit] at hj
        split at hj
        · exact hwork j (by simp [hlist, hj])
        · rcases List.mem_append.mp hj with hj | hj
          · exact hwork j (by simp [hlist, hj])
          · exact p.outputs_mem hj
      obtain ⟨s', hs'⟩ := ih h.visit hwork' (by omega)
      exact ⟨s', by simp [run, hlist, hs']⟩

end Termination

end Equations

end CinderX.Foundation
