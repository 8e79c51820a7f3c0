import CinderX.Foundation.Basic

/-!
# Closing a set under successors

A worklist that marks everything that can be reached from its first elements.
The worklist holds no element twice, and an element is expanded only once.
-/

namespace CinderX.Foundation

open List

variable {α : Type*} [DecidableEq α]

/-- Adds elements to the end of a worklist, unless they wait there already. -/
def pushAll (work : List α) (found : List α) : List α :=
  found.foldl (fun work a => if a ∈ work then work else work ++ [a]) work

/-- `none` if an element without successors is met or the fuel runs out. -/
def closure (next : α → Option (List α)) : Nat → List α → List α → Option (List α)
  | _, [], seen => some seen
  | 0, _ :: _, _ => none
  | fuel + 1, a :: work, seen =>
    if a ∈ seen then closure next fuel work seen
    else
      match next a with
      | none => none
      | some found =>
        closure next fuel (pushAll work (found.filter fun b => b ∉ a :: seen)) (a :: seen)

variable {work found seen : List α} {a : α} {fuel : Nat}

theorem mem_pushAll :
    a ∈ pushAll work found ↔ a ∈ work ∨ a ∈ found := by
  induction found generalizing work with
  | nil => simp [pushAll]
  | cons b found ih =>
    have hcons : pushAll work (b :: found) =
        pushAll (if b ∈ work then work else work ++ [b]) found := rfl
    rw [hcons, ih]
    by_cases hb : b ∈ work
    · rw [if_pos hb, mem_cons]
      constructor
      · rintro (h | h)
        · exact .inl h
        · exact .inr (.inr h)
      · rintro (h | rfl | h)
        · exact .inl h
        · exact .inl hb
        · exact .inr h
    · rw [if_neg hb, mem_append, mem_singleton, mem_cons]
      tauto

theorem length_pushAll_le (work found : List α) :
    (pushAll work found).length ≤ work.length + found.length := by
  induction found generalizing work with
  | nil => simp [pushAll]
  | cons b found ih =>
    have hcons : pushAll work (b :: found) =
        pushAll (if b ∈ work then work else work ++ [b]) found := rfl
    rw [hcons, length_cons]
    split
    case isTrue =>
      have := ih work
      omega
    case isFalse =>
      have := ih (work ++ [b])
      rw [length_append, length_singleton] at this
      omega

def Expanded (next : α → Option (List α)) (work seen : List α) : Prop :=
  ∀ a ∈ seen, ∃ found, next a = some found ∧ ∀ b ∈ found, b ∈ work ∨ b ∈ seen

variable {next : α → Option (List α)}

omit [DecidableEq α] in
theorem Expanded.skip (h : Expanded next (a :: work) seen)
    (ha : a ∈ seen) : Expanded next work seen := by
  intro b hb
  obtain ⟨found, hfound, hfoundAll⟩ := h b hb
  refine ⟨found, hfound, fun c hc => ?_⟩
  obtain hc | hc := hfoundAll c hc
  · obtain rfl | hc := mem_cons.mp hc
    · exact .inr ha
    · exact .inl hc
  · exact .inr hc

theorem Expanded.expand (h : Expanded next (a :: work) seen) (hfound : next a = some found) :
    Expanded next (pushAll work (found.filter fun b => b ∉ a :: seen)) (a :: seen) := by
  intro b hb
  obtain rfl | hb := mem_cons.mp hb
  · refine ⟨found, hfound, fun c hc => ?_⟩
    by_cases hseen : c ∈ b :: seen
    · exact .inr hseen
    · exact .inl (mem_pushAll.mpr (.inr (mem_filter.mpr ⟨hc, by simpa using hseen⟩)))
  · obtain ⟨others, hothers, hfoundAll⟩ := h b hb
    refine ⟨others, hothers, fun c hc => ?_⟩
    obtain hc | hc := hfoundAll c hc
    · obtain rfl | hc := mem_cons.mp hc
      · exact .inr (by simp)
      · exact .inl (mem_pushAll.mpr (.inl hc))
    · exact .inr (by simp [hc])

theorem closure_closed {work seen result : List α}
    (h : closure next fuel work seen = some result) (hexpanded : Expanded next work seen) :
    (∀ a, a ∈ work ∨ a ∈ seen → a ∈ result) ∧ Expanded next [] result := by
  induction fuel generalizing work seen with
  | zero =>
    cases work with
    | nil =>
      obtain rfl : seen = result := by simpa [closure] using h
      exact ⟨by simp, hexpanded⟩
    | cons a work => simp [closure] at h
  | succ fuel ih =>
    cases work with
    | nil =>
      obtain rfl : seen = result := by simpa [closure] using h
      exact ⟨by simp, hexpanded⟩
    | cons a work =>
      simp only [closure] at h
      split at h
      case isTrue ha =>
        obtain ⟨hmem, hclosed⟩ := ih h (hexpanded.skip ha)
        refine ⟨fun b hb => ?_, hclosed⟩
        obtain hb | hb := hb
        · obtain rfl | hb := mem_cons.mp hb
          · exact hmem b (.inr ha)
          · exact hmem b (.inl hb)
        · exact hmem b (.inr hb)
      case isFalse ha =>
        split at h
        case h_1 => simp at h
        case h_2 found hfound =>
          obtain ⟨hmem, hclosed⟩ := ih h (hexpanded.expand hfound)
          refine ⟨fun b hb => ?_, hclosed⟩
          obtain hb | hb := hb
          · obtain rfl | hb := mem_cons.mp hb
            · exact hmem b (.inr (by simp))
            · exact hmem b (.inl (mem_pushAll.mpr (.inl hb)))
          · exact hmem b (.inr (by simp [hb]))

theorem closure_subset {P : α → Prop}
    (hnext : ∀ a found, P a → next a = some found → ∀ b ∈ found, P b)
    {work seen result : List α} (h : closure next fuel work seen = some result)
    (hwork : ∀ a ∈ work, P a) (hseen : ∀ a ∈ seen, P a) : ∀ a ∈ result, P a := by
  induction fuel generalizing work seen with
  | zero =>
    cases work with
    | nil => cases h; exact hseen
    | cons a work => cases h
  | succ fuel ih =>
    cases work with
    | nil => cases h; exact hseen
    | cons a work =>
      obtain ⟨ha, hwork⟩ := forall_mem_cons.mp hwork
      simp only [closure] at h
      split at h
      case isTrue => exact ih h hwork hseen
      case isFalse =>
        split at h
        case h_1 => cases h
        case h_2 found hfound =>
          refine ih h (fun b hb => ?_) (forall_mem_cons.mpr ⟨ha, hseen⟩)
          obtain hb | hb := mem_pushAll.mp hb
          · exact hwork b hb
          · exact hnext a found ha hfound b (mem_filter.mp hb).1

/-- How often the worklist can still be popped: its elements and what the unseen ones can add. -/
def pending (next : α → Option (List α)) (all : Finset α) (work seen : List α) : Nat :=
  work.length + ∑ a ∈ all.filter (fun a => a ∉ seen), ((next a).getD []).length

theorem pending_le (next : α → Option (List α)) (as work seen : List α) :
    pending next as.toFinset work seen ≤
      work.length + (as.map fun a => ((next a).getD []).length).sum := by
  refine Nat.add_le_add_left ?_ _
  induction as with
  | nil => simp
  | cons a as ih =>
    rw [toFinset_cons, Finset.filter_insert, map_cons, sum_cons]
    split
    case isTrue =>
      by_cases hmem : a ∈ as.toFinset.filter fun b => b ∉ seen
      · rw [Finset.insert_eq_of_mem hmem]
        exact ih.trans (Nat.le_add_left _ _)
      · rw [Finset.sum_insert hmem]
        exact Nat.add_le_add_left ih _
    case isFalse => exact ih.trans (Nat.le_add_left _ _)

/-- If all elements have their successors in a finite set, enough fuel is enough. -/
theorem closure_isSome {all : Finset α}
    (hnext : ∀ a ∈ all, ∃ found, next a = some found ∧ ∀ b ∈ found, b ∈ all)
    (hwork : ∀ a ∈ work, a ∈ all)
    (hfuel : pending next all work seen ≤ fuel) :
    ∃ result, closure next fuel work seen = some result := by
  induction fuel generalizing work seen with
  | zero =>
    have : work = [] := length_eq_zero_iff.mp (by unfold pending at hfuel; omega)
    exact ⟨seen, by simp [this, closure]⟩
  | succ fuel ih =>
    cases work with
    | nil => exact ⟨seen, by simp [closure]⟩
    | cons a work =>
      simp only [closure]
      split
      case isTrue ha =>
        refine ih (fun b hb => hwork b (by simp [hb])) ?_
        simp only [pending, length_cons] at hfuel ⊢
        omega
      case isFalse ha =>
        have hmem := hwork a (by simp)
        obtain ⟨found, hfound, hfoundAll⟩ := hnext a hmem
        simp only [hfound]
        refine ih ?_ ?_
        · intro b hb
          obtain hb | hb := mem_pushAll.mp hb
          · exact hwork b (by simp [hb])
          · exact hfoundAll b (mem_filter.mp hb).1
        · have hsplit : all.filter (fun b => b ∉ seen) =
              insert a (all.filter fun b => b ∉ a :: seen) := by
            ext b
            by_cases hb : b = a
            · simp [hb, hmem, ha]
            · simp [hb]
          have hlength := length_pushAll_le work (found.filter fun b => b ∉ a :: seen)
          have hfilter := length_filter_le (fun b => decide (b ∉ a :: seen)) found
          simp only [pending] at hfuel ⊢
          rw [hsplit, Finset.sum_insert (by simp), hfound] at hfuel
          simp only [length_cons, Option.getD_some] at hfuel
          omega

end CinderX.Foundation
