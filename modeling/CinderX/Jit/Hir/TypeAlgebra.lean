import CinderX.Jit.Hir.TypeFactory

/-!
# The laws that the optimiser relies on

All laws of the operators and the factory functions over one class hierarchy.
-/

namespace CinderX.Jit.Hir

variable {PyType PyObject : Type} [DecidableEq PyType] [DecidableEq PyObject]

/-- What holds of well-formed types and of the types of classes and objects. -/
structure TypeLaws (H : Hierarchy PyType PyObject) : Prop where
  refl : ∀ a, HirType.le H.toWorld a a = true
  trans : ∀ a b c, HirType.le H.toWorld a b = true → HirType.le H.toWorld b c = true →
    HirType.le H.toWorld a c = true
  antisymm : ∀ a b, H.WellFormed a → H.WellFormed b → HirType.le H.toWorld a b = true →
    HirType.le H.toWorld b a = true → a = b
  comm : ∀ a b, H.WellFormed a → H.WellFormed b →
    HirType.union H.toWorld a b = HirType.union H.toWorld b a ∧
      HirType.inter H.toWorld a b = HirType.inter H.toWorld b a
  idem : ∀ a, H.WellFormed a →
    HirType.union H.toWorld a a = a ∧ HirType.inter H.toWorld a a = a
  union_bottom : ∀ a, H.WellFormed a → HirType.union H.toWorld a HirType.bottom = a ∧
    HirType.union H.toWorld HirType.bottom a = a
  inter_top : ∀ a, H.WellFormed a → HirType.inter H.toWorld a World.top = a ∧
    HirType.inter H.toWorld World.top a = a
  inter_of_le : ∀ a b, H.WellFormed a → HirType.le H.toWorld a b = true →
    HirType.inter H.toWorld a b = a ∧
      (a ≠ HirType.bottom → HirType.couldBe H.toWorld a b = true)
  /-- Unrelated classes are the exception: the intersection is the one that is picked. -/
  le_of_inter : ∀ a b, HirType.inter H.toWorld a b = a → HirType.le H.toWorld a b = true ∨
    ∃ c d, a.spec = .type c ∧ b.spec = .type d ∧ H.isSubtype c d = false ∧
      H.isSubtype d c = false ∧ HirType.picksFirst H.toWorld c d = true
  fromType : ∀ c d, H.isSubtype c d = true → ∃ s t, H.fromType c = some s ∧
    H.fromType d = some t ∧ HirType.le H.toWorld s t = true
  fromObject : ∀ obj, ∃ s t u, H.fromObject obj = some s ∧
    H.fromTypeExact (H.pyType obj) = some t ∧ H.fromType (H.pyType obj) = some u ∧
    HirType.le H.toWorld s t = true ∧ HirType.le H.toWorld t u = true
  checks : ∀ a b, H.WellFormed a → H.WellFormed b → HirType.leChecks a b = true ∧
    HirType.unionChecks H.toWorld a b = true ∧ HirType.interChecks H.toWorld a b = true ∧
    (¬(b = HirType.bottom ∧ a.hasTypeSpec = true) → HirType.subChecks H.toWorld a b = true)

omit [DecidableEq PyType] [DecidableEq PyObject] in
theorem top_wellFormed (W : World PyType PyObject) : W.WellFormed World.top := by
  refine ⟨?_, by simp [World.top, kBottom], trivial⟩
  show kLifetimeTop = kLifetimeBottom ↔ 0xfffffffffff#44 &&& kObject = 0#_
  decide

theorem type_laws (H : Hierarchy PyType PyObject) : TypeLaws H where
  refl := World.le_refl H.toWorld
  trans _ _ _ := World.le_trans
  antisymm _ _ := World.le_antisymm H.isSubtype_antisymm
  comm _ _ ha hb := ⟨World.union_comm H.isSubtype_antisymm ha hb,
    World.inter_comm H.isSubtype_antisymm H.address_injective ha hb⟩
  idem a ha := ⟨World.union_self H.toWorld a, World.inter_self ha⟩
  union_bottom a ha := by
    have hbottom := World.bottom_union H.toWorld a
    exact ⟨(World.union_comm H.isSubtype_antisymm ha World.bottom_wellFormed).trans hbottom,
      hbottom⟩
  inter_top a ha := by
    have htop := World.inter_top ha
    exact ⟨htop, (World.inter_comm H.isSubtype_antisymm H.address_injective
      (top_wellFormed H.toWorld) ha).trans htop⟩
  inter_of_le _ _ ha h := ⟨World.inter_eq_left ha h, World.couldBe_of_le ha h⟩
  le_of_inter _ _ := World.le_of_inter_eq_left
  fromType _ _ := Hierarchy.fromType_mono
  fromObject := Hierarchy.fromObject_le H
  checks _ _ ha hb := ⟨World.leChecks_of_wellFormed ha hb, World.unionChecks_of_wellFormed ha hb,
    World.interChecks_of_wellFormed ha hb, World.subChecks_of_wellFormed ha hb⟩

/-- `object`, `NoneType` and two classes derived from `object`, with one instance of each. -/
def siblings : Hierarchy (Fin 4) (Fin 4) where
  isSubtype c d := c = d ∨ d = 0
  isSubtype_refl := by decide
  isSubtype_trans := by decide
  pyType c := c
  basicBit _ := 22
  immortal _ := false
  tpName c := if c = 2 then "A" else "B"
  address c := c.val
  builtin c := c = 0 ∨ c = 1
  isSubtype_antisymm := by decide
  address_injective := Fin.eq_of_val_eq
  mro c := if c = 0 then [0] else [c, 0]
  mem_mro := by decide
  mro_order := by decide
  predefined c := if c = 0 then some .object else if c = 1 then some .noneType else none
  predefined_injective := by
    intro c d builtin
    revert c d
    cases builtin <;> decide
  builtin_eq := by decide
  object := 0
  predefined_object := rfl
  isSubtype_object := by decide
  predefined_of_isSubtype := by
    intro c d x hx h
    obtain rfl | rfl : c = d ∨ d = 0 := by simpa using h
    · exact ⟨x, hx, .inl rfl⟩
    · exact ⟨.object, rfl, .inr (.inl rfl)⟩
  layout := by
    intro c d e x y hd he hx hy hxObject hyObject
    obtain rfl | rfl : c = d ∨ d = 0 := by simpa using hd
    · obtain rfl | rfl : c = e ∨ e = 0 := by simpa using he
      · simp
      · simp_all
    · simp_all
  staticArray := none
  staticArray_final := by simp
  staticArray_bases := by simp
  predefined_staticArray := by simp
  pyNone := 1
  predefined_pyNone := rfl

def userType (c : Fin 4) : HirType (Fin 4) (Fin 4) := ⟨0x00000400000#44, kLifetimeTop, .type c⟩

theorem userType_wellFormed (c : Fin 4) : siblings.WellFormed (userType c) := by
  refine ⟨?_, by simp [userType, kBottom], ?_⟩
  · show kLifetimeTop = kLifetimeBottom ↔ 0x00000400000#44 &&& kObject = 0#_
    decide
  · show 0x00000400000#44 &&& kPrimitive = 0#_
    decide

theorem type_laws_siblings : siblings.WellFormed (userType 2) ∧
    HirType.inter siblings.toWorld (userType 2) World.top = userType 2 :=
  ⟨userType_wellFormed 2, ((type_laws siblings).inter_top _ (userType_wellFormed 2)).1⟩

/-- The intersection with an unrelated class can be the type itself. -/
theorem inter_of_unrelated_classes :
    ¬∀ (PyType PyObject : Type) [DecidableEq PyType] [DecidableEq PyObject]
      (H : Hierarchy PyType PyObject) (a b : HirType PyType PyObject),
      H.WellFormed a → H.WellFormed b →
        (HirType.le H.toWorld a b = true ↔ HirType.inter H.toWorld a b = a) := by
  intro hmeet
  have hiff := hmeet (Fin 4) (Fin 4) siblings (userType 2) (userType 3) (userType_wellFormed 2)
    (userType_wellFormed 3)
  exact absurd (hiff.mpr (by decide)) (by decide)

end CinderX.Jit.Hir
