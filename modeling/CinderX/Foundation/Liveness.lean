import CinderX.Foundation.Basic

/-!
# Liveness along paths

A variable is live at a point of a graph when some path from there reaches a
use of the variable before a definition of it.  A path is forward when every
step goes to a larger point.
-/

namespace CinderX.Foundation

variable {Var Point : Type*}

/-- `Live next use define v p`: a path from `p` reaches a use of `v` first. -/
inductive Live (next : Point → Point → Prop) (use define : Var → Point → Prop)
    (v : Var) : Point → Prop where
  | use {p : Point} (h : use v p) : Live next use define v p
  | step {p q : Point} (hnext : next p q) (hdefine : ¬ define v q)
      (hlive : Live next use define v q) : Live next use define v p

def LiveIn (next : Point → Point → Prop) (use define : Var → Point → Prop)
    (v : Var) (p : Point) : Prop :=
  ¬ define v p ∧ Live next use define v p

def Forward [LT Point] (next : Point → Point → Prop) (p q : Point) : Prop :=
  next p q ∧ p < q

variable {next next' : Point → Point → Prop} {use define : Var → Point → Prop}
variable {v : Var} {p : Point}

theorem live_iff :
    Live next use define v p ↔
      use v p ∨ ∃ q, next p q ∧ LiveIn next use define v q := by
  constructor
  · intro h
    cases h with
    | use h => exact Or.inl h
    | step hnext hdefine hlive => exact Or.inr ⟨_, hnext, hdefine, hlive⟩
  · rintro (h | ⟨q, hnext, hdefine, hlive⟩)
    · exact .use h
    · exact .step hnext hdefine hlive

end CinderX.Foundation
