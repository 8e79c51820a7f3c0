import CinderX.Foundation.Basic

/-!
# Dominance

A node dominates another one if every walk from the entry to that node goes through it.
-/

namespace CinderX.Foundation.Dominance

variable {α : Type*} (edge : α → α → Prop) (entry : α)

/-- The nodes on the way from the entry to a node, the last one first. -/
inductive Walk : List α → α → Prop
  | entry : Walk [] entry
  | step {walked : List α} {a b : α} (h : Walk walked a) (hedge : edge a b) :
      Walk (a :: walked) b

def Reachable (a : α) : Prop := ∃ walked, Walk edge entry walked a

def Dominates (a b : α) : Prop := ∀ walked, Walk edge entry walked b → a ∈ b :: walked

def StrictlyDominates (a b : α) : Prop := a ≠ b ∧ Dominates edge entry a b

structure ImmediatelyDominates (d b : α) : Prop where
  strict : StrictlyDominates edge entry d b
  closest : ∀ a, StrictlyDominates edge entry a b → Dominates edge entry a d

variable {edge entry} {a b c d d' : α} {walked : List α}

theorem Dominates.refl (a : α) : Dominates edge entry a a := fun _ _ => List.mem_cons_self

theorem Dominates.of_edge (h : Dominates edge entry a b) (hne : a ≠ b) (hedge : edge c b) :
    Dominates edge entry a c := fun walked hwalk =>
  (List.mem_cons.mp (h (c :: walked) (.step hwalk hedge))).resolve_left hne

theorem dominates_entry_iff : Dominates edge entry a entry ↔ a = entry := by
  constructor
  · intro h
    simpa using h [] .entry
  · rintro rfl
    exact .refl a

theorem Walk.upTo (h : Walk edge entry walked b) (ha : a ∈ walked) :
    ∃ before, (a :: before).IsSuffix walked ∧ Walk edge entry before a := by
  induction h with
  | entry => cases ha
  | @step walked c d h hedge ih =>
    rcases List.mem_cons.mp ha with rfl | ha
    · exact ⟨walked, List.suffix_rfl, h⟩
    · obtain ⟨before, hsuffix, hwalk⟩ := ih ha
      exact ⟨before, hsuffix.trans (List.suffix_cons _ _), hwalk⟩

theorem Dominates.antisymm (h : Dominates edge entry a b) (h' : Dominates edge entry b a)
    (hreach : Reachable edge entry b) : a = b := by
  obtain ⟨walked, hwalk⟩ := hreach
  induction hlength : walked.length using Nat.strongRecOn generalizing walked with
  | ind length ih =>
    rcases List.mem_cons.mp (h walked hwalk) with hab | ha
    · exact hab
    · obtain ⟨before, hbefore, hwalk'⟩ := hwalk.upTo ha
      rcases List.mem_cons.mp (h' before hwalk') with hba | hb
      · exact hba.symm
      · obtain ⟨before', hbefore', hwalk''⟩ := hwalk'.upTo hb
        have hle := hbefore.length_le
        have hle' := hbefore'.length_le
        simp only [List.length_cons] at hle hle'
        exact ih before'.length (by omega) before' hwalk'' rfl

theorem ImmediatelyDominates.unique (h : ImmediatelyDominates edge entry d b)
    (h' : ImmediatelyDominates edge entry d' b) (hreach : Reachable edge entry d') : d = d' :=
  (h'.closest d h.strict).antisymm (h.closest d' h'.strict) hreach

theorem Dominates.reachable (h : Dominates edge entry a b) (hreach : Reachable edge entry b) :
    Reachable edge entry a := by
  obtain ⟨walked, hwalk⟩ := hreach
  rcases List.mem_cons.mp (h walked hwalk) with rfl | ha
  · exact ⟨walked, hwalk⟩
  · obtain ⟨before, -, hbefore⟩ := hwalk.upTo ha
    exact ⟨before, hbefore⟩

end CinderX.Foundation.Dominance
