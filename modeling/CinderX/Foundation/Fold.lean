import CinderX.Foundation.Basic

/-!
# Lists of results

What `mapM` and `filterMap` say of the single results of a function that can fail.
-/

namespace CinderX.Foundation

variable {α β : Type*} {f : α → Option β} {as : List α} {bs : List β}

theorem mapM_eq_some_iff : as.mapM f = some bs ↔ List.Forall₂ (fun a b => f a = some b) as bs := by
  induction as generalizing bs with
  | nil => simp [eq_comm]
  | cons a as ih =>
    simp only [List.mapM_cons, Option.pure_def, Option.bind_eq_bind, Option.bind_eq_some_iff,
      Option.some.injEq, List.forall₂_cons_left_iff, ih]
    constructor
    · rintro ⟨b, hb, bs, hbs, rfl⟩
      exact ⟨b, bs, hb, hbs, rfl⟩
    · rintro ⟨b, bs, hb, hbs, rfl⟩
      exact ⟨b, hb, bs, hbs, rfl⟩

theorem mapM_isSome (h : ∀ a ∈ as, ∃ b, f a = some b) : ∃ bs, as.mapM f = some bs := by
  induction as with
  | nil => exact ⟨[], by simp⟩
  | cons a as ih =>
    obtain ⟨b, hb⟩ := h a (by simp)
    obtain ⟨bs, hbs⟩ := ih fun a' ha' => h a' (by simp [ha'])
    exact ⟨b :: bs, by simp [hb, hbs]⟩

theorem exists_mem_of_mapM (h : as.mapM f = some bs) {a : α} (ha : a ∈ as) :
    ∃ b ∈ bs, f a = some b := by
  induction mapM_eq_some_iff.mp h with
  | nil => simp at ha
  | @cons a' b' as bs hb hrest ih =>
    obtain rfl | ha := List.mem_cons.mp ha
    · exact ⟨b', by simp, hb⟩
    · obtain ⟨b, hmem, heq⟩ := ih (mapM_eq_some_iff.mpr hrest) ha
      exact ⟨b, by simp [hmem], heq⟩

theorem exists_of_mem_mapM (h : as.mapM f = some bs) {b : β} (hb : b ∈ bs) :
    ∃ a ∈ as, f a = some b := by
  induction mapM_eq_some_iff.mp h with
  | nil => simp at hb
  | @cons a' b' as bs hb' hrest ih =>
    obtain rfl | hb := List.mem_cons.mp hb
    · exact ⟨a', by simp, hb'⟩
    · obtain ⟨a, hmem, heq⟩ := ih (mapM_eq_some_iff.mpr hrest) hb
      exact ⟨a, by simp [hmem], heq⟩

theorem mapM_eq_some_map {g : α → β} :
    as.mapM f = some (as.map g) ↔ ∀ a ∈ as, f a = some (g a) := by
  rw [mapM_eq_some_iff, List.forall₂_map_right_iff, List.forall₂_same]

theorem map_eq_of_mapM {γ : Type*} {g : α → γ} {g' : β → γ} (hg : ∀ a b, f a = some b → g' b = g a)
    (h : as.mapM f = some bs) : bs.map g' = as.map g := by
  induction mapM_eq_some_iff.mp h with
  | nil => rfl
  | @cons a b as bs hb hrest ih =>
    rw [List.map_cons, List.map_cons, hg a b hb, ih (mapM_eq_some_iff.mpr hrest)]

theorem eq_of_nodup_filterMap (h : (as.filterMap f).Nodup) {a a' : α} {b : β} (ha : a ∈ as)
    (ha' : a' ∈ as) (hb : f a = some b) (hb' : f a' = some b) : a = a' := by
  by_contra hne
  have hsymm : Std.Symm fun a a' => ∀ c, f a = some c → ∀ c', f a' = some c' → c ≠ c' :=
    ⟨fun _ _ hdiff c hc c' hc' heq => hdiff c' hc' c hc heq.symm⟩
  exact (List.pairwise_filterMap.mp h).forall ha ha' hne b hb b hb' rfl

end CinderX.Foundation
