import CinderX.Jit.Hir.TypeLaws

/-!
# The assertions in the type operators

For each operator, whether all debug assertions hold that it meets on its way:
those of the constructor, of `typeSpec` and `objectSpec`, and its own.
-/

namespace CinderX.Jit.Hir

open HirType

variable {PyType PyObject : Type} [DecidableEq PyType] [DecidableEq PyObject]

namespace HirType

/-- The constructor asserts that nothing below `TBottom` is built and that lifetimes go with
objects. -/
def constructorChecks (t : HirType PyType PyObject) : Bool :=
  (t.bits ≠ kBottom || t.spec = .bottom) &&
    decide (t.lifetime = kLifetimeBottom ↔ t.bits &&& kObject = 0#_)

def specSubtypeChecks (a b : HirType PyType PyObject) : Bool :=
  if b.spec = .top ∨ a.spec = .bottom then true
  else if !a.hasSpec then true
  else if (a.hasIntSpec || b.hasIntSpec) || (a.hasDoubleSpec || b.hasDoubleSpec) then true
  else if b.hasObjectSpec then !a.hasObjectSpec || (a.hasObjectSpec && b.hasObjectSpec)
  else if b.hasTypeExactSpec then !a.hasTypeExactSpec || (a.hasTypeSpec && b.hasTypeSpec)
  else a.hasTypeSpec && b.hasTypeSpec

def leChecks (a b : HirType PyType PyObject) : Bool :=
  a.bits &&& b.bits ≠ a.bits || a.lifetime &&& b.lifetime ≠ a.lifetime || specSubtypeChecks a b

def unionChecks (W : World PyType PyObject) (a b : HirType PyType PyObject) : Bool :=
  leChecks a b && (le W a b ||
    (leChecks b a && (le W b a ||
      (constructorChecks
          (ofBits (a.bits ||| b.bits) (a.lifetime ||| b.lifetime) : HirType PyType PyObject) &&
        (!(a.hasTypeSpec && b.hasTypeSpec) ||
          if a.hasObjectSpec && b.hasObjectSpec && (a.objectSpec = b.objectSpec) then a = b
          else constructorChecks (union W a b))))))

def interChecks (W : World PyType PyObject) (a b : HirType PyType PyObject) : Bool :=
  (canonical (a.bits &&& b.bits) (a.lifetime &&& b.lifetime)).1 = kBottom ||
    (specSubtypeChecks a b && (specSubtype W a b || specSubtypeChecks b a) &&
      constructorChecks (inter W a b))

def subChecks (W : World PyType PyObject) (a b : HirType PyType PyObject) : Bool :=
  leChecks a b && (le W a b ||
    (specSubtypeChecks a b && (!specSubtype W a b || constructorChecks (sub W a b))))

end HirType

namespace World

variable {W : World PyType PyObject} {a b : HirType PyType PyObject}

theorem specSubtypeChecks_iff :
    HirType.specSubtypeChecks a b = true ↔ ¬(b.spec = .bottom ∧ a.hasTypeSpec = true) := by
  obtain ⟨aBits, aLifetime, aSpec⟩ := a
  obtain ⟨bBits, bLifetime, bSpec⟩ := b
  cases aSpec <;> cases bSpec <;>
    simp [specSubtypeChecks, hasSpec, hasIntSpec, hasDoubleSpec,
      hasObjectSpec, hasTypeExactSpec, hasTypeSpec]

omit [DecidableEq PyType] [DecidableEq PyObject] in
theorem not_hasTypeSpec_of_bottom (h : a.spec = .bottom) : a.hasTypeSpec = false := by
  simp [hasTypeSpec, h]

theorem WellFormed.constructorChecks (ha : W.WellFormed a) :
    HirType.constructorChecks a = true := by
  simp only [HirType.constructorChecks, Bool.and_eq_true, Bool.or_eq_true, decide_eq_true_eq]
  refine ⟨?_, ha.lifetime_bottom⟩
  by_cases hbits : a.bits = kBottom
  · exact .inr (ha.spec_bottom.mpr hbits)
  · exact .inl hbits

theorem leChecks_of_wellFormed (ha : W.WellFormed a) (hb : W.WellFormed b) :
    HirType.leChecks a b = true := by
  simp only [leChecks, Bool.or_eq_true, decide_eq_true_eq, specSubtypeChecks_iff]
  by_cases hbits : a.bits &&& b.bits = a.bits
  · refine .inr ?_
    rintro ⟨hspec, htype⟩
    have hzero : a.bits = kBottom := by
      rw [← hbits, hb.spec_bottom.mp hspec]
      exact BitVec.and_zero
    rw [not_hasTypeSpec_of_bottom (ha.spec_bottom.mpr hzero)] at htype
    simp at htype
  · exact .inl (.inl hbits)

theorem unionChecks_of_wellFormed (ha : W.WellFormed a) (hb : W.WellFormed b) :
    HirType.unionChecks W a b = true := by
  have hplain : W.WellFormed (ofBits (a.bits ||| b.bits) (a.lifetime ||| b.lifetime)) := by
    refine ⟨?_, ?_, ?_⟩
    · show a.lifetime ||| b.lifetime = kLifetimeBottom ↔ (a.bits ||| b.bits) &&& kObject = 0#_
      rw [or_and_eq_zero_iff, ← ha.lifetime_bottom, ← hb.lifetime_bottom]
      exact BitVec.or_eq_zero_iff
    · simp only [ofBits]
      split <;> simp_all
    · unfold ofBits
      split <;> exact trivial
  have hresult := (ha.union hb).constructorChecks
  have hsame : (a.hasObjectSpec && b.hasObjectSpec && decide (a.objectSpec = b.objectSpec)) = true →
      a = b := by
    intro h
    obtain ⟨o, hsa, hsb⟩ := objectSpec_eq_iff.mp h
    exact eq_of_objectSpec ha hb hsa hsb
  simp only [unionChecks, leChecks_of_wellFormed ha hb, leChecks_of_wellFormed hb ha,
    hplain.constructorChecks, Bool.true_and, Bool.or_eq_true]
  refine .inr (.inr (.inr ?_))
  split
  case isTrue h => simpa using hsame h
  case isFalse => exact hresult

theorem interChecks_of_wellFormed (ha : W.WellFormed a) (hb : W.WellFormed b) :
    HirType.interChecks W a b = true := by
  simp only [interChecks, Bool.or_eq_true, Bool.and_eq_true, decide_eq_true_eq]
  cases hcanonical : canonical (a.bits &&& b.bits) (a.lifetime &&& b.lifetime) with
  | mk bits lifetime =>
    by_cases hbits : bits = kBottom
    · exact .inl hbits
    · have hsa := spec_ne_bottom ha hcanonical hbits
      have hsb := spec_ne_bottom hb
        (by rwa [BitVec.and_comm b.bits, BitVec.and_comm b.lifetime]) hbits
      refine .inr ⟨⟨specSubtypeChecks_iff.mpr fun h => hsb h.1,
        .inr (specSubtypeChecks_iff.mpr fun h => hsa h.1)⟩, (ha.inter hb).constructorChecks⟩

theorem subChecks_of_wellFormed (ha : W.WellFormed a) (hb : W.WellFormed b)
    (h : ¬(b = HirType.bottom ∧ a.hasTypeSpec = true)) : HirType.subChecks W a b = true := by
  simp only [subChecks, leChecks_of_wellFormed ha hb, Bool.true_and, Bool.or_eq_true,
    Bool.and_eq_true]
  refine .inr ⟨specSubtypeChecks_iff.mpr ?_, .inr ha.sub.constructorChecks⟩
  rintro ⟨hspec, htype⟩
  exact h ⟨eq_bottom_of_bits hb (hb.spec_bottom.mp hspec), htype⟩

end World

end CinderX.Jit.Hir
