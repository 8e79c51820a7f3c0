import CinderX.Foundation.Basic

/-!
# Bit vector data flow problems

A worklist over a graph whose nodes generate and kill elements.  One solver
serves both directions, through the edges it is given, and both kinds of
confluence.  It always ends, and what it ends with is decided by paths.
-/

namespace CinderX.Foundation

open Finset

variable {ι α : Type*}

structure Dataflow (ι α : Type*) where
  nodes : List ι
  /-- The nodes whose results flow into a node. -/
  inputs : ι → List ι
  /-- The nodes that are computed again when a node changes. -/
  outputs : ι → List ι
  /-- Whether a further input, from which nothing comes, flows into a node. -/
  boundary : ι → Bool
  gen : ι → Finset α
  kill : ι → Finset α
  /-- Whether an element has to come from all inputs. -/
  must : Bool
  mem_outputs : ∀ {i j}, j ∈ nodes → i ∈ inputs j → j ∈ outputs i
  outputs_mem : ∀ {i j}, j ∈ outputs i → j ∈ nodes

namespace Dataflow

structure State (ι α : Type*) where
  before : ι → Finset α
  after : ι → Finset α
  worklist : List ι
  /-- The nodes that have not been computed yet; only the bound on the steps reads it. -/
  fresh : ι → Bool

variable (p : Dataflow ι α)

def Progress (a b : Finset α) : Prop := if p.must then b ⊆ a else a ⊆ b

section

variable {p}

theorem Progress.refl (a : Finset α) : p.Progress a a := by
  unfold Progress
  split <;> exact subset_rfl

theorem Progress.trans {a b c : Finset α} (hab : p.Progress a b) (hbc : p.Progress b c) :
    p.Progress a c := by
  unfold Progress at *
  split at hab <;> simp_all only [if_true, if_false, Bool.false_eq_true]
  · exact hbc.trans hab
  · exact hab.trans hbc

end

variable [DecidableEq α]

def confluence (a b : Finset α) : Finset α := if p.must then a ∩ b else a ∪ b

def join (values : List (Finset α)) : Finset α :=
  match values with
  | [] => ∅
  | value :: values => values.foldl p.confluence value

def flowing (after : ι → Finset α) (i : ι) : List (Finset α) :=
  (if p.boundary i then [∅] else []) ++ (p.inputs i).map after

def newBefore (after : ι → Finset α) (i : ι) : Finset α := p.join (p.flowing after i)

def transfer (i : ι) (before : Finset α) : Finset α := p.gen i ∪ (before \ p.kill i)

section

variable [DecidableEq ι] [Fintype α]

def start (order : List ι) : State ι α where
  before _ := ∅
  after _ := if p.must then univ else ∅
  worklist := order
  fresh _ := true

def visit (s : State ι α) (i : ι) (rest : List ι) : State ι α :=
  let before := p.newBefore s.after i
  let after := p.transfer i before
  { before := Function.update s.before i before
    after := Function.update s.after i after
    worklist :=
      if before = s.before i ∧ after = s.after i then rest else rest ++ p.outputs i
    fresh := Function.update s.fresh i false }

def run : Nat → State ι α → Option (State ι α)
  | 0, s => match s.worklist with
    | [] => some s
    | _ :: _ => none
  | fuel + 1, s => match s.worklist with
    | [] => some s
    | i :: rest => run fuel (p.visit s i rest)

end

variable {p}

theorem Progress.transfer {a b : Finset α} (h : p.Progress a b) (i : ι) :
    p.Progress (p.transfer i a) (p.transfer i b) := by
  unfold Progress at *
  unfold Dataflow.transfer
  split at h <;> simp_all only [if_true, if_false, Bool.false_eq_true]
  all_goals exact union_subset_union_right (sdiff_subset_sdiff h subset_rfl)

variable {x : α} {values : List (Finset α)} {fuel : Nat}

theorem mem_join_may (hmust : p.must = false) :
    x ∈ p.join values ↔ ∃ v ∈ values, x ∈ v := by
  have hfold : ∀ (values : List (Finset α)) (acc : Finset α),
      x ∈ values.foldl p.confluence acc ↔
        x ∈ acc ∨ ∃ v ∈ values, x ∈ v := by
    intro values
    induction values with
    | nil => simp
    | cons v values ih => simp [ih, confluence, hmust, or_assoc]
  cases values with
  | nil => simp [join]
  | cons v values => simp only [join, hfold, List.mem_cons, exists_eq_or_imp]

theorem mem_join_must (hmust : p.must = true) :
    x ∈ p.join values ↔ values ≠ [] ∧ ∀ v ∈ values, x ∈ v := by
  have hfold : ∀ (values : List (Finset α)) (acc : Finset α),
      x ∈ values.foldl p.confluence acc ↔
        x ∈ acc ∧ ∀ v ∈ values, x ∈ v := by
    intro values
    induction values with
    | nil => simp
    | cons v values ih => simp [ih, confluence, hmust, and_assoc]
  cases values with
  | nil => simp [join]
  | cons v values => simp [join, hfold]

variable {after : ι → Finset α} {i : ι}

omit [DecidableEq α] in
theorem mem_flowing {v : Finset α} :
    v ∈ p.flowing after i ↔ (p.boundary i = true ∧ v = ∅) ∨ ∃ j ∈ p.inputs i, after j = v := by
  unfold flowing
  split <;> simp_all

omit [DecidableEq α] in
theorem flowing_eq_nil :
    p.flowing after i = [] ↔ p.boundary i = false ∧ p.inputs i = [] := by
  unfold flowing
  split <;> simp_all

theorem mem_newBefore_may (hmust : p.must = false) :
    x ∈ p.newBefore after i ↔ ∃ j ∈ p.inputs i, x ∈ after j := by
  simp only [newBefore, mem_join_may hmust, mem_flowing]
  constructor
  · rintro ⟨v, ⟨-, rfl⟩ | ⟨j, hj, rfl⟩, hx⟩
    · simp at hx
    · exact ⟨j, hj, hx⟩
  · rintro ⟨j, hj, hx⟩
    exact ⟨after j, .inr ⟨j, hj, rfl⟩, hx⟩

theorem mem_newBefore_must (hmust : p.must = true) :
    x ∈ p.newBefore after i ↔
      p.boundary i = false ∧ p.inputs i ≠ [] ∧ ∀ j ∈ p.inputs i, x ∈ after j := by
  simp only [newBefore, mem_join_must hmust, mem_flowing, ne_eq, flowing_eq_nil]
  constructor
  · rintro ⟨hne, hall⟩
    have hboundary : p.boundary i = false := by
      by_contra hboundary
      have := hall ∅ (.inl ⟨by simpa using hboundary, rfl⟩)
      simp at this
    exact ⟨hboundary, fun hnil => hne ⟨hboundary, hnil⟩, fun j hj => hall _ (.inr ⟨j, hj, rfl⟩)⟩
  · rintro ⟨hboundary, hne, hall⟩
    refine ⟨fun h => hne h.2, ?_⟩
    rintro v (⟨hb, -⟩ | ⟨j, hj, rfl⟩)
    · simp [hboundary] at hb
    · exact hall j hj

theorem Progress.newBefore {after' : ι → Finset α}
    (h : ∀ j ∈ p.inputs i, p.Progress (after j) (after' j)) :
    p.Progress (p.newBefore after i) (p.newBefore after' i) := by
  unfold Progress at *
  cases hmust : p.must with
  | true =>
    simp only [hmust, if_true] at h ⊢
    intro x hx
    rw [mem_newBefore_must hmust] at hx ⊢
    exact ⟨hx.1, hx.2.1, fun j hj => h j hj (hx.2.2 j hj)⟩
  | false =>
    simp only [hmust, Bool.false_eq_true, if_false] at h ⊢
    intro x hx
    rw [mem_newBefore_may hmust] at hx ⊢
    obtain ⟨j, hj, hx⟩ := hx
    exact ⟨j, hj, h j hj hx⟩

variable [DecidableEq ι] [Fintype α] {s : State ι α} {i : ι} {rest : List ι}

variable (p) in
structure Inv (s : State ι α) : Prop where
  fresh : ∀ i, s.fresh i = true → s.before i = ∅ ∧ s.after i = if p.must then univ else ∅
  before : ∀ i, s.fresh i = false → p.Progress (s.before i) (p.newBefore s.after i)
  after : ∀ i, s.fresh i = false → s.after i = p.transfer i (s.before i)
  /-- Where nothing is left to do, the equations hold. -/
  done : ∀ i ∈ p.nodes, i ∉ s.worklist →
    s.fresh i = false ∧ s.before i = p.newBefore s.after i

variable {order : List ι}

omit [DecidableEq ι] in
theorem Inv.start (horder : ∀ i ∈ p.nodes, i ∈ order) :
    p.Inv (p.start order) := by
  refine ⟨fun i _ => ⟨rfl, rfl⟩, ?_, ?_, fun i hi hnot => absurd (horder i hi) hnot⟩
  all_goals simp [Dataflow.start]

omit [DecidableEq ι] in
theorem Inv.progress (h : p.Inv s) (i : ι) :
    p.Progress (s.after i) (p.transfer i (p.newBefore s.after i)) := by
  cases hfresh : s.fresh i with
  | true =>
    rw [(h.fresh i hfresh).2]
    unfold Progress
    split <;> simp
  | false =>
    rw [h.after i hfresh]
    exact (h.before i hfresh).transfer i

theorem Inv.progress_visit (h : p.Inv s) (rest : List ι) (j : ι) :
    p.Progress (s.after j) ((p.visit s i rest).after j) := by
  by_cases hj : j = i
  · subst hj
    simpa [visit] using h.progress j
  · simpa [visit, hj] using Progress.refl (p := p) (s.after j)

theorem Inv.visit (h : p.Inv s) (hwork : s.worklist = i :: rest) : p.Inv (p.visit s i rest) := by
  have hprogress : ∀ j, p.Progress (p.newBefore s.after j)
      (p.newBefore (p.visit s i rest).after j) :=
    fun j => Progress.newBefore fun k _ => h.progress_visit rest k
  refine ⟨fun j hj => ?_, fun j hj => ?_, fun j hj => ?_, fun j hnode hnot => ?_⟩
  · have hne : j ≠ i := by
      rintro rfl
      simp [Dataflow.visit] at hj
    simpa [Dataflow.visit, hne] using h.fresh j (by simpa [Dataflow.visit, hne] using hj)
  · by_cases hne : j = i
    · subst hne
      simpa [Dataflow.visit] using hprogress j
    · have hold := h.before j (by simpa [Dataflow.visit, hne] using hj)
      have : p.Progress (s.before j) _ := hold.trans (hprogress j)
      simpa [Dataflow.visit, hne] using this
  · by_cases hne : j = i
    · subst hne
      simp [Dataflow.visit]
    · simpa [Dataflow.visit, hne] using h.after j (by simpa [Dataflow.visit, hne] using hj)
  · -- A node is left out of the worklist only if none of its inputs has changed.
    have hsame : p.newBefore (p.visit s i rest).after j = p.newBefore s.after j := by
      by_cases hinput : i ∈ p.inputs j
      · have hchanged : p.newBefore s.after i = s.before i ∧
            p.transfer i (p.newBefore s.after i) = s.after i := by
          by_contra hchanged
          simp only [Dataflow.visit, if_neg hchanged, List.mem_append, not_or] at hnot
          exact hnot.2 (p.mem_outputs hnode hinput)
        have : (p.visit s i rest).after = s.after := by
          simp [Dataflow.visit, hchanged.2]
        rw [this]
      · unfold newBefore flowing
        congr 2
        refine List.map_congr_left fun k hk => ?_
        have hki : k ≠ i := fun hki => hinput (hki ▸ hk)
        simp [Dataflow.visit, hki]
    rw [hsame]
    by_cases hne : j = i
    · subst hne
      simp [Dataflow.visit]
    · have hold : j ∉ s.worklist := by
        rw [hwork]
        simp only [Dataflow.visit] at hnot
        split at hnot
        · simp [hne, hnot]
        · simp only [List.mem_append, not_or] at hnot
          simp [hne, hnot.1]
      simpa [Dataflow.visit, hne] using h.done j hnode hold

omit [Fintype α] in
theorem run_invariant {P : State ι α → Prop}
    (step : ∀ s i rest, P s → s.worklist = i :: rest → P (p.visit s i rest)) {s' : State ι α}
    (hs : P s) (h : p.run fuel s = some s') :
    P s' ∧ s'.worklist = [] := by
  induction fuel generalizing s with
  | zero =>
    unfold run at h
    split at h
    case h_1 hwork => exact ⟨Option.some.inj h ▸ hs, Option.some.inj h ▸ hwork⟩
    case h_2 => simp at h
  | succ fuel ih =>
    unfold run at h
    split at h
    case h_1 hwork => exact ⟨Option.some.inj h ▸ hs, Option.some.inj h ▸ hwork⟩
    case h_2 i rest hwork => exact ih (step s i rest hs hwork) h

variable (p) in
def weight (s : State ι α) (i : ι) : Nat :=
  if p.must then
    (if s.fresh i then Fintype.card α + 1 else (s.before i).card) + (s.after i).card
  else (Fintype.card α - (s.before i).card) + (Fintype.card α - (s.after i).card)

variable (p) in
def potential (s : State ι α) : Nat := (p.nodes.map (p.weight s)).sum

variable (p) in
def bound (s : State ι α) : Nat :=
  p.potential s * ((p.nodes.map fun i => (p.outputs i).length).sum + 1) + s.worklist.length

theorem weight_visit_of_ne {j : ι} (hne : j ≠ i) :
    p.weight (p.visit s i rest) j = p.weight s j := by
  simp [weight, Dataflow.visit, hne]

theorem Inv.weight_visit_lt (h : p.Inv s) (rest : List ι)
    (hchanged : ¬(p.newBefore s.after i = s.before i ∧
      p.transfer i (p.newBefore s.after i) = s.after i)) :
    p.weight (p.visit s i rest) i < p.weight s i := by
  have hafter := h.progress i
  cases hmust : p.must with
  | true =>
    simp only [Progress, hmust, if_true] at hafter
    have hcard := card_le_card hafter
    simp only [weight, hmust, if_true, Dataflow.visit, Function.update_self, Bool.false_eq_true,
      if_false]
    cases hfresh : s.fresh i with
    | true =>
      have := card_le_univ (p.newBefore s.after i)
      simp only [if_true]
      omega
    | false =>
      have hbefore := h.before i hfresh
      simp only [Progress, hmust, if_true] at hbefore
      have hcard' := card_le_card hbefore
      simp only [Bool.false_eq_true, if_false]
      by_contra hnot
      refine hchanged ⟨eq_of_subset_of_card_le hbefore (by omega),
        eq_of_subset_of_card_le hafter (by omega)⟩
  | false =>
    have hbefore : s.before i ⊆ p.newBefore s.after i := by
      cases hfresh : s.fresh i with
      | true => simp [(h.fresh i hfresh).1]
      | false => simpa [Progress, hmust] using h.before i hfresh
    simp only [Progress, hmust, Bool.false_eq_true, if_false] at hafter
    have hcard := card_le_card hafter
    have hcard' := card_le_card hbefore
    have huniv := card_le_univ (p.newBefore s.after i)
    have huniv' := card_le_univ (p.transfer i (p.newBefore s.after i))
    simp only [weight, hmust, Bool.false_eq_true, if_false, Dataflow.visit, Function.update_self]
    by_contra hnot
    refine hchanged ⟨(eq_of_subset_of_card_le hbefore (by omega)).symm,
      (eq_of_subset_of_card_le hafter (by omega)).symm⟩

theorem Inv.potential_visit_lt (h : p.Inv s) (rest : List ι) (hnode : i ∈ p.nodes)
    (hchanged : ¬(p.newBefore s.after i = s.before i ∧
      p.transfer i (p.newBefore s.after i) = s.after i)) :
    p.potential (p.visit s i rest) < p.potential s := by
  have hweight := h.weight_visit_lt rest hchanged
  refine List.sum_lt_sum _ _ (fun j _ => ?_) ⟨i, hnode, hweight⟩
  by_cases hne : j = i
  · exact hne ▸ hweight.le
  · exact (weight_visit_of_ne hne).le

theorem Inv.potential_visit_le (h : p.Inv s) (rest : List ι) (hnode : i ∈ p.nodes) :
    p.potential (p.visit s i rest) ≤ p.potential s := by
  by_cases hchanged : p.newBefore s.after i = s.before i ∧
      p.transfer i (p.newBefore s.after i) = s.after i
  · refine List.sum_le_sum fun j _ => ?_
    by_cases hne : j = i
    · subst hne
      obtain ⟨hbefore, hafter⟩ := hchanged
      rw [hbefore] at hafter
      simp only [weight, Dataflow.visit, Function.update_self, hbefore, hafter, Bool.false_eq_true,
        if_false]
      have := card_le_univ (s.before j)
      split
      · split <;> omega
      · exact le_rfl
    · exact (weight_visit_of_ne hne).le
  · exact (h.potential_visit_lt rest hnode hchanged).le

theorem Inv.bound_visit_lt (h : p.Inv s) (hnode : i ∈ p.nodes) (hwork : s.worklist = i :: rest) :
    p.bound (p.visit s i rest) < p.bound s := by
  unfold bound
  rw [hwork]
  by_cases hchanged : p.newBefore s.after i = s.before i ∧
      p.transfer i (p.newBefore s.after i) = s.after i
  · have hle := h.potential_visit_le rest hnode
    have : (p.visit s i rest).worklist = rest := if_pos hchanged
    rw [this, List.length_cons]
    have := Nat.mul_le_mul_right ((p.nodes.map fun i => (p.outputs i).length).sum + 1) hle
    omega
  · have hlt := h.potential_visit_lt rest hnode hchanged
    have hlength : (p.visit s i rest).worklist.length = rest.length + (p.outputs i).length := by
      simp only [Dataflow.visit, if_neg hchanged, List.length_append]
    have hout : (p.outputs i).length ≤ (p.nodes.map fun i => (p.outputs i).length).sum :=
      List.single_le_sum (by simp) _ (List.mem_map_of_mem hnode)
    have := Nat.mul_le_mul_right ((p.nodes.map fun i => (p.outputs i).length).sum + 1)
      (Nat.succ_le_of_lt hlt)
    rw [hlength, List.length_cons]
    rw [Nat.succ_mul] at this
    omega

theorem Inv.run_isSome (h : p.Inv s) (hwork : ∀ i ∈ s.worklist, i ∈ p.nodes)
    (hfuel : p.bound s ≤ fuel) : ∃ s', p.run fuel s = some s' := by
  induction fuel generalizing s with
  | zero =>
    have : s.worklist = [] := List.eq_nil_of_length_eq_zero (by unfold bound at hfuel; omega)
    exact ⟨s, by simp [run, this]⟩
  | succ fuel ih =>
    cases hlist : s.worklist with
    | nil => exact ⟨s, by simp [run, hlist]⟩
    | cons i rest =>
      have hnode : i ∈ p.nodes := hwork i (by simp [hlist])
      have hlt := h.bound_visit_lt hnode hlist
      have hwork' : ∀ j ∈ (p.visit s i rest).worklist, j ∈ p.nodes := by
        intro j hj
        simp only [Dataflow.visit] at hj
        split at hj
        · exact hwork j (by simp [hlist, hj])
        · rw [List.mem_append] at hj
          obtain hj | hj := hj
          · exact hwork j (by simp [hlist, hj])
          · exact p.outputs_mem hj
      obtain ⟨s', hs'⟩ := ih (h.visit hlist) hwork' (by omega)
      exact ⟨s', by simp [run, hlist, hs']⟩

variable (p) in
def solve (order : List ι) : Option (State ι α) := p.run (p.bound (p.start order)) (p.start order)

theorem solve_isSome (horder : ∀ i, i ∈ order ↔ i ∈ p.nodes) :
    ∃ s, p.solve order = some s :=
  (Inv.start fun i hi => (horder i).mpr hi).run_isSome (fun i hi => (horder i).mp hi) le_rfl

/-! ## What the solver finds -/

variable (p) in
inductive Comes (x : α) : ι → Prop
  | gen {i j : ι} (hinput : j ∈ p.inputs i) (hgen : x ∈ p.gen j) : Comes x i
  | through {i j : ι} (hinput : j ∈ p.inputs i) (hkill : x ∉ p.kill j) (h : Comes x j) : Comes x i

variable (p) in
inductive Misses (x : α) : ι → Prop
  | boundary {i : ι} (hboundary : p.boundary i = true) : Misses x i
  | isolated {i : ι} (hinputs : p.inputs i = []) : Misses x i
  | killed {i j : ι} (hinput : j ∈ p.inputs i) (hgen : x ∉ p.gen j) (hkill : x ∈ p.kill j) :
      Misses x i
  | through {i j : ι} (hinput : j ∈ p.inputs i) (hgen : x ∉ p.gen j) (h : Misses x j) : Misses x i

variable (p) in
def Holds (x : α) (i : ι) : Prop := if p.must then ¬p.Misses x i else p.Comes x i

variable (p) in
def Justified (s : State ι α) : Prop :=
  if p.must then
    ∀ i x, x ∉ s.after i → x ∉ p.gen i ∧ (x ∈ p.kill i ∨ p.Misses x i)
  else ∀ i x, x ∈ s.after i → x ∈ p.gen i ∨ (x ∉ p.kill i ∧ p.Comes x i)

omit [Fintype α] [DecidableEq ι] in
theorem Justified.newBefore (h : p.Justified s) (x : α) (i : ι) :
    if p.must then x ∉ p.newBefore s.after i → p.Misses x i
    else x ∈ p.newBefore s.after i → p.Comes x i := by
  cases hmust : p.must with
  | true =>
    simp only [Justified, hmust, if_true] at h ⊢
    intro hx
    rw [mem_newBefore_must hmust] at hx
    by_cases hboundary : p.boundary i = true
    · exact .boundary hboundary
    by_cases hinputs : p.inputs i = []
    · exact .isolated hinputs
    obtain ⟨j, hj, hxj⟩ : ∃ j ∈ p.inputs i, x ∉ s.after j := by
      by_contra hall
      push Not at hall
      exact hx ⟨by simpa using hboundary, hinputs, hall⟩
    obtain ⟨hgen, hkill | hmisses⟩ := h j x hxj
    · exact .killed hj hgen hkill
    · exact .through hj hgen hmisses
  | false =>
    simp only [Justified, hmust, Bool.false_eq_true, if_false] at h ⊢
    intro hx
    rw [mem_newBefore_may hmust] at hx
    obtain ⟨j, hj, hxj⟩ := hx
    obtain hgen | ⟨hkill, hcomes⟩ := h j x hxj
    · exact .gen hj hgen
    · exact .through hj hkill hcomes

omit [DecidableEq α] [DecidableEq ι] in
theorem Justified.start (order : List ι) : p.Justified (p.start order) := by
  unfold Justified Dataflow.start
  cases p.must <;> simp

omit [Fintype α] in
theorem Justified.visit (h : p.Justified s) : p.Justified (p.visit s i rest) := by
  have hbefore := h.newBefore
  cases hmust : p.must with
  | true =>
    simp only [Justified, hmust, if_true] at h hbefore ⊢
    intro j x hx
    by_cases hne : j = i
    · subst hne
      have hx : x ∉ p.gen j ∧ (x ∈ p.newBefore s.after j → x ∈ p.kill j) := by
        simpa [Dataflow.visit, transfer] using hx
      refine ⟨hx.1, ?_⟩
      by_cases hmem : x ∈ p.newBefore s.after j
      · exact .inl (hx.2 hmem)
      · exact .inr (hbefore x j hmem)
    · exact h j x (by simpa [Dataflow.visit, hne] using hx)
  | false =>
    simp only [Justified, hmust, Bool.false_eq_true, if_false] at h hbefore ⊢
    intro j x hx
    by_cases hne : j = i
    · subst hne
      have hx : x ∈ p.gen j ∨ (x ∈ p.newBefore s.after j ∧ x ∉ p.kill j) := by
        simpa [Dataflow.visit, transfer] using hx
      exact hx.imp_right fun hx => ⟨hx.2, hbefore x j hx.1⟩
    · exact h j x (by simpa [Dataflow.visit, hne] using hx)

omit [DecidableEq ι] in
theorem Inv.mem_of_holds (h : p.Inv s) (hwork : s.worklist = [])
    (hinputs : ∀ i ∈ p.nodes, ∀ j ∈ p.inputs i, j ∈ p.nodes) (hi : i ∈ p.nodes) :
    if p.must then p.Misses x i → x ∉ s.before i else p.Comes x i → x ∈ s.before i := by
  have hdone : ∀ i ∈ p.nodes, s.before i = p.newBefore s.after i ∧
      s.after i = p.transfer i (s.before i) := by
    intro i hi
    obtain ⟨hfresh, hbefore⟩ := h.done i hi (by simp [hwork])
    exact ⟨hbefore, h.after i hfresh⟩
  cases hmust : p.must with
  | true =>
    simp only [if_true]
    intro hmisses
    induction hmisses with
    | boundary hboundary =>
      rw [(hdone _ hi).1, mem_newBefore_must hmust]
      simp [hboundary]
    | isolated hnil =>
      rw [(hdone _ hi).1, mem_newBefore_must hmust]
      simp [hnil]
    | @killed i j hinput hgen hkill =>
      rw [(hdone _ hi).1, mem_newBefore_must hmust]
      rintro ⟨-, -, hall⟩
      have hx := hall j hinput
      rw [(hdone j (hinputs i hi j hinput)).2, transfer] at hx
      simp [hgen, hkill] at hx
    | @through i j hinput hgen _ ih =>
      rw [(hdone _ hi).1, mem_newBefore_must hmust]
      rintro ⟨-, -, hall⟩
      have hx := hall j hinput
      have hnode := hinputs i hi j hinput
      rw [(hdone j hnode).2, transfer] at hx
      simp [hgen, ih hnode] at hx
  | false =>
    simp only [Bool.false_eq_true, if_false]
    intro hcomes
    induction hcomes with
    | @gen i j hinput hgen =>
      rw [(hdone _ hi).1, mem_newBefore_may hmust]
      refine ⟨j, hinput, ?_⟩
      rw [(hdone j (hinputs i hi j hinput)).2, transfer]
      simp [hgen]
    | @through i j hinput hkill _ ih =>
      rw [(hdone _ hi).1, mem_newBefore_may hmust]
      have hnode := hinputs i hi j hinput
      refine ⟨j, hinput, ?_⟩
      rw [(hdone j hnode).2, transfer]
      simp [hkill, ih hnode]

theorem mem_before_solve (horder : ∀ i ∈ p.nodes, i ∈ order)
    (hinputs : ∀ i ∈ p.nodes, ∀ j ∈ p.inputs i, j ∈ p.nodes) (h : p.solve order = some s)
    (hi : i ∈ p.nodes) : x ∈ s.before i ↔ p.Holds x i := by
  obtain ⟨⟨hinv, hjust⟩, hwork⟩ := run_invariant (P := fun s => p.Inv s ∧ p.Justified s)
    (fun s i rest hs hwork => ⟨hs.1.visit hwork, hs.2.visit⟩)
    ⟨Inv.start horder, Justified.start order⟩ h
  have hbefore := hjust.newBefore x i
  rw [← (hinv.done i hi (by simp [hwork])).2] at hbefore
  have hmem := hinv.mem_of_holds hwork hinputs (x := x) hi
  unfold Holds
  cases hmust : p.must with
  | true =>
    simp only [hmust, if_true] at hbefore hmem ⊢
    exact ⟨fun hx hmisses => hmem hmisses hx, fun hx => by_contra fun hnot => hx (hbefore hnot)⟩
  | false =>
    simp only [hmust, Bool.false_eq_true, if_false] at hbefore hmem ⊢
    exact ⟨hbefore, hmem⟩

theorem after_solve (horder : ∀ i ∈ p.nodes, i ∈ order) (h : p.solve order = some s)
    (hi : i ∈ p.nodes) :
    s.after i = p.transfer i (s.before i) ∧ s.before i = p.newBefore s.after i := by
  obtain ⟨hinv, hwork⟩ := run_invariant (P := p.Inv) (fun s i rest hs => hs.visit)
    (Inv.start horder) h
  obtain ⟨hfresh, hbefore⟩ := hinv.done i hi (by simp [hwork])
  exact ⟨hinv.after i hfresh, hbefore⟩

end Dataflow

end CinderX.Foundation
