import Mathlib

/-!
# Instances with names

Definitions that use these refer to them and need no auxiliary lemmas of their own.
-/

namespace CinderX.Foundation

instance neZeroOne : NeZero (1 : Nat) := ⟨by decide⟩

instance neZeroTwo : NeZero (2 : Nat) := ⟨by decide⟩

instance neZeroThree : NeZero (3 : Nat) := ⟨by decide⟩

instance neZeroFour : NeZero (4 : Nat) := ⟨by decide⟩

instance neZeroSeven : NeZero (7 : Nat) := ⟨by decide⟩

instance neZeroThirtyTwo : NeZero (32 : Nat) := ⟨by decide⟩

instance lawfulBEqFin (n : Nat) : LawfulBEq (Fin n) := instLawfulBEq

end CinderX.Foundation
