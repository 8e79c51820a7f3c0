import CinderX.Jit.Hir.TypeChecks

/-!
# Types of classes and objects

`Type::fromType`, `Type::fromTypeExact` and `Type::fromObject` over what they
ask about classes: the method resolution order and the predefined types.
-/

namespace CinderX.Jit.Hir

open HirType BitVec

/-- The classes with a predefined type, the values of `typeToPyType()`. -/
inductive Builtin where
  | object | bool | bytes | cell | code | dict | baseException | float | frame | func | gen
  | list | long | set | slice | tuple | type | unicode | noneType
  deriving DecidableEq

namespace Builtin

def bits : Builtin → Bits
  | object => 0x000ffffffff#44
  | bool => 0x00000000002#44
  | bytes => 0x00001002000#44
  | cell => 0x00000000004#44
  | code => 0x00000000008#44
  | dict => 0x00002004000#44
  | baseException => 0x00000801000#44
  | float => 0x00004008000#44
  | frame => 0x00000000010#44
  | func => 0x00000000020#44
  | gen => 0x00000000040#44
  | list => 0x00008010000#44
  | long => 0x00000200402#44
  | set => 0x00010020000#44
  | slice => 0x00000000100#44
  | tuple => 0x00020040000#44
  | type => 0x00040080000#44
  | unicode => 0x00080100000#44
  | noneType => 0x00000000080#44

/-- `pyTypeToTypeForExact()`: `TObject` and `TLong` without the predefined types below them. -/
def bitsForExact : Builtin → Bits
  | object => 0x00000400800#44
  | long => 0x00000200400#44
  | builtin => builtin.bits

end Builtin

def kBuiltinExact : Bits := 0x000001fffff#44
def kUser : Bits := 0x000ffe00000#44
def kArray : Bits := 0x00000000001#44

variable {PyType PyObject : Type}

structure Hierarchy (PyType PyObject : Type) extends World PyType PyObject where
  isSubtype_antisymm : ∀ {c d}, isSubtype c d = true → isSubtype d c = true → c = d
  address_injective : ∀ {c d}, address c = address d → c = d
  /-- `tp_mro`, which `PyType_IsSubtype` searches. -/
  mro : PyType → List PyType
  mem_mro : ∀ {c d}, d ∈ mro c ↔ isSubtype c d = true
  /-- A class stands before its superclasses. -/
  mro_order : ∀ c, (mro c).Pairwise fun d e => isSubtype e d = true → e = d
  predefined : PyType → Option Builtin
  predefined_injective : ∀ {c d builtin},
    predefined c = some builtin → predefined d = some builtin → c = d
  builtin_eq : ∀ c, builtin c = (predefined c).isSome
  object : PyType
  predefined_object : predefined object = some .object
  isSubtype_object : ∀ c, isSubtype c object = true
  /-- The superclasses of a predefined class. -/
  predefined_of_isSubtype : ∀ {c d x}, predefined c = some x → isSubtype c d = true →
    ∃ y, predefined d = some y ∧ (x = y ∨ y = .object ∨ x = .bool ∧ y = .long)
  /-- No class has two predefined classes above it whose instances are laid out differently. -/
  layout : ∀ {c d e x y}, isSubtype c d = true → isSubtype c e = true → predefined d = some x →
    predefined e = some y → x ≠ .object → y ≠ .object →
      isSubtype d e = true ∨ isSubtype e d = true
  /-- `PyStaticArray_Type`, a null pointer where it is not built.  It cannot be subclassed. -/
  staticArray : Option PyType
  staticArray_final : ∀ {c s}, staticArray = some s → isSubtype c s = true → c = s
  staticArray_bases : ∀ {s d}, staticArray = some s → isSubtype s d = true → d = s ∨ d = object
  predefined_staticArray : ∀ {s}, staticArray = some s → predefined s = none
  /-- `Py_None`. -/
  pyNone : PyObject
  predefined_pyNone : predefined (pyType pyNone) = some .noneType

namespace Hierarchy

variable [DecidableEq PyType] [DecidableEq PyObject]

section

variable (H : Hierarchy PyType PyObject)

def mapBits (exact : Bool) (builtin : Builtin) : Bits :=
  if exact then builtin.bitsForExact else builtin.bits

/-- `none` if no class of the method resolution order is predefined. -/
def fromTypeImpl (type : PyType) (exact : Bool) : Option (HirType PyType PyObject) :=
  match H.predefined type with
  | some builtin =>
    let known := HirType.ofBits (mapBits exact builtin) kLifetimeTop
    some (if exact
      then HirType.inter H.toWorld known (HirType.ofBits kBuiltinExact kLifetimeTop) else known)
  | none =>
    if HirType.pyTypeIsSubtype H.toWorld (some type) H.staticArray then
      some (HirType.ofBits kArray kLifetimeTop)
    else
      match (H.mro type).findSome? H.predefined with
      | some builtin =>
        some ⟨mapBits exact builtin &&& kUser, kLifetimeTop,
          if exact then .typeExact type else .type type⟩
      | none => none

def fromType (type : PyType) : Option (HirType PyType PyObject) := H.fromTypeImpl type false

def fromTypeExact (type : PyType) : Option (HirType PyType PyObject) := H.fromTypeImpl type true

/-- `Py_True` and `Py_False` have a branch of their own that does the same. -/
def fromObject (obj : PyObject) : Option (HirType PyType PyObject) :=
  if obj = H.pyNone then
    some (HirType.ofBits Builtin.noneType.bits
      (if H.immortal obj then kLifetimeImmortal else kLifetimeMortal))
  else
    (H.fromTypeExact (H.pyType obj)).map fun type =>
      ⟨type.bits, if H.immortal obj then kLifetimeImmortal else kLifetimeMortal, .object obj⟩

end

variable {H : Hierarchy PyType PyObject} {c d : PyType} {x y : Builtin} {W : World PyType PyObject}
  {p q : Bits}

omit [DecidableEq PyType] [DecidableEq PyObject] in
theorem first_predefined (hfirst : (H.mro c).findSome? H.predefined = some x)
    (hsub : H.isSubtype c d = true) (hd : H.predefined d = some y) :
    x = y ∨ y = .object ∨ x = .bool ∧ y = .long := by
  obtain ⟨before, first, after, hsplit, hx, hbefore⟩ := List.findSome?_eq_some_iff.mp hfirst
  have hc : H.isSubtype c first = true := H.mem_mro.mp (by simp [hsplit])
  have hmem : d ∈ before ++ first :: after := hsplit ▸ H.mem_mro.mpr hsub
  obtain hmem | hmem := List.mem_append.mp hmem
  · exact absurd (hbefore d hmem) (by simp [hd])
  obtain rfl | hmem := List.mem_cons.mp hmem
  · exact .inl (by simpa [hx] using hd)
  -- `d` stands behind the first predefined class, so it is not below it
  have horder : H.isSubtype d first = true → d = first := by
    have hpairwise := H.mro_order c
    rw [hsplit] at hpairwise
    exact List.rel_of_pairwise_cons (List.pairwise_append.mp hpairwise).2.1 hmem
  have hsame : d = first → x = y := by
    rintro rfl
    simpa [hx] using hd
  by_cases hy : y = .object
  · exact .inr (.inl hy)
  by_cases hxObject : x = .object
  · subst hxObject
    have hobject := H.predefined_injective hx H.predefined_object
    exact .inl (hsame (horder (hobject ▸ H.isSubtype_object d)))
  · obtain habove | hbelow := H.layout hc hsub hx hd hxObject hy
    · obtain ⟨z, hz, horder⟩ := H.predefined_of_isSubtype hx habove
      obtain rfl : y = z := by simpa [hd] using hz
      exact horder
    · exact .inl (hsame (horder hbelow))

omit [DecidableEq PyType] [DecidableEq PyObject] in
theorem exists_first_predefined (H : Hierarchy PyType PyObject) (c : PyType) :
    ∃ x, (H.mro c).findSome? H.predefined = some x := by
  cases h : (H.mro c).findSome? H.predefined with
  | some x => exact ⟨x, rfl⟩
  | none =>
    have := List.findSome?_eq_none_iff.mp h H.object (H.mem_mro.mpr (H.isSubtype_object c))
    simp [H.predefined_object] at this

/-! ## Comparing the types of classes -/

theorem ofBits_le_ofBits {k l : Lifetime} (hbits : p &&& q = p) (hlifetime : k &&& l = k) :
    HirType.le W (HirType.ofBits p k) (HirType.ofBits q l) = true := by
  refine World.le_iff.mpr ⟨hbits, hlifetime, World.specSubtype_iff.mpr ?_⟩
  by_cases hq : q = kBottom
  · have hp : p = kBottom := by
      rw [← hbits, hq]
      exact BitVec.and_zero
    exact .inr (.inl (by simp [HirType.ofBits, hp]))
  · exact .inl (by simp [HirType.ofBits, hq])

theorem and_right_comm (p q r : Bits) : p &&& q &&& r = p &&& r &&& q := by
  rw [BitVec.and_assoc, BitVec.and_comm q, ← BitVec.and_assoc]

omit [DecidableEq PyType] [DecidableEq PyObject] in
theorem spec_ofBits {k : Lifetime} (h : p &&& kObject ≠ 0#_) :
    (HirType.ofBits p k : HirType PyType PyObject).spec = .top := by
  have hp : p ≠ kBottom := by
    rintro rfl
    exact h (by decide)
  simp [ofBits, hp]

theorem inter_ofBits (h : p &&& q &&& kObject ≠ 0#_) :
    HirType.inter W (HirType.ofBits p kLifetimeTop) (HirType.ofBits q kLifetimeTop) =
      HirType.ofBits (p &&& q) kLifetimeTop := by
  have hp : p &&& kObject ≠ 0#_ := by
    intro hzero
    rw [and_right_comm, hzero, zero_and] at h
    exact h rfl
  have hq : q &&& kObject ≠ 0#_ := by
    intro hzero
    rw [BitVec.and_assoc, hzero, BitVec.and_zero] at h
    exact h rfl
  have hne : p &&& q ≠ kBottom := by
    intro hzero
    rw [hzero] at h
    exact h (by decide)
  have hcanonical : canonical (p &&& q) (kLifetimeTop &&& kLifetimeTop) =
      (p &&& q, kLifetimeTop) := by
    rw [canonical, if_neg h, if_neg (by decide)]
    rfl
  have hspec : specSubtype W (ofBits p kLifetimeTop) (ofBits q kLifetimeTop) = true :=
    World.specSubtype_iff.mpr (.inl (spec_ofBits hq))
  unfold inter
  rw [show (ofBits p kLifetimeTop : HirType PyType PyObject).bits = p from rfl,
    show (ofBits q kLifetimeTop : HirType PyType PyObject).bits = q from rfl,
    show (ofBits p kLifetimeTop : HirType PyType PyObject).lifetime = kLifetimeTop from rfl,
    show (ofBits q kLifetimeTop : HirType PyType PyObject).lifetime = kLifetimeTop from rfl,
    hcanonical]
  simp only
  rw [if_neg hne, if_pos hspec, spec_ofBits hp]
  simp [ofBits, hne]

omit [DecidableEq PyType] [DecidableEq PyObject] in
theorem bits_subset (h : x = y ∨ y = .object ∨ x = .bool ∧ y = .long) :
    x.bits &&& y.bits = x.bits := by
  obtain rfl | rfl | ⟨rfl, rfl⟩ := h
  · exact and_self
  · cases x <;> decide
  · decide

theorem fromType_predefined (h : H.predefined c = some x) :
    H.fromType c = some (HirType.ofBits x.bits kLifetimeTop) := by
  simp [fromType, fromTypeImpl, h, mapBits]

theorem fromType_staticArray (h : H.predefined c = none)
    (hstatic : HirType.pyTypeIsSubtype H.toWorld (some c) H.staticArray = true) :
    H.fromType c = some (HirType.ofBits kArray kLifetimeTop) := by
  simp [fromType, fromTypeImpl, h, hstatic]

theorem fromType_user (h : H.predefined c = none)
    (hstatic : HirType.pyTypeIsSubtype H.toWorld (some c) H.staticArray = false)
    (hfirst : (H.mro c).findSome? H.predefined = some x) :
    H.fromType c = some ⟨x.bits &&& kUser, kLifetimeTop, .type c⟩ := by
  simp [fromType, fromTypeImpl, h, hstatic, hfirst, mapBits]

omit [DecidableEq PyType] [DecidableEq PyObject] in
theorem eq_staticArray (h : HirType.pyTypeIsSubtype H.toWorld (some c) H.staticArray = true) :
    H.staticArray = some c := by
  cases hs : H.staticArray with
  | none => simp [pyTypeIsSubtype, hs] at h
  | some s =>
    rw [hs] at h
    rw [H.staticArray_final hs h]

theorem fromType_mono (h : H.isSubtype c d = true) :
    ∃ s t, H.fromType c = some s ∧ H.fromType d = some t ∧ HirType.le H.toWorld s t = true := by
  obtain ⟨first, hfirst⟩ := H.exists_first_predefined c
  obtain ⟨first', hfirst'⟩ := H.exists_first_predefined d
  cases hc : H.predefined c with
  | some x =>
    obtain ⟨y, hd, horder⟩ := H.predefined_of_isSubtype hc h
    exact ⟨_, _, fromType_predefined hc, fromType_predefined hd,
      ofBits_le_ofBits (bits_subset horder) and_self⟩
  | none =>
    cases hstatic : pyTypeIsSubtype H.toWorld (some c) H.staticArray with
    | true =>
      obtain rfl | rfl := H.staticArray_bases (eq_staticArray hstatic) h
      · exact ⟨_, _, fromType_staticArray hc hstatic, fromType_staticArray hc hstatic,
          World.le_refl _ _⟩
      · exact ⟨_, _, fromType_staticArray hc hstatic,
          fromType_predefined H.predefined_object,
          ofBits_le_ofBits (by decide) and_self⟩
    | false =>
      cases hd : H.predefined d with
      | some y =>
        refine ⟨_, _, fromType_user hc hstatic hfirst, fromType_predefined hd, ?_⟩
        have hsubset := bits_subset (first_predefined hfirst h hd)
        refine World.le_iff.mpr ⟨?_, and_self, World.specSubtype_iff.mpr (.inl ?_)⟩
        · show first.bits &&& kUser &&& y.bits = first.bits &&& kUser
          rw [and_right_comm, hsubset]
        · cases y <;> rfl
      | none =>
        have hstatic' : pyTypeIsSubtype H.toWorld (some d) H.staticArray = false := by
          by_contra hnot
          have hs := eq_staticArray (by simpa using hnot)
          simp [pyTypeIsSubtype, hs, h] at hstatic
        refine ⟨_, _, fromType_user hc hstatic hfirst, fromType_user hd hstatic' hfirst', ?_⟩
        obtain ⟨before, above, after, hsplit, habove, -⟩ :=
          List.findSome?_eq_some_iff.mp hfirst'
        have hsub : H.isSubtype d above = true := H.mem_mro.mp (by simp [hsplit])
        have hsubset := bits_subset
          (first_predefined hfirst (H.isSubtype_trans h hsub) habove)
        refine World.le_iff.mpr ⟨?_, and_self, World.specSubtype_iff.mpr (.inr (.inr h))⟩
        show first.bits &&& kUser &&& (first'.bits &&& kUser) = first.bits &&& kUser
        rw [← BitVec.and_assoc, and_right_comm first.bits kUser first'.bits, hsubset,
          BitVec.and_assoc, BitVec.and_self]

theorem fromTypeExact_cases (H : Hierarchy PyType PyObject) (c : PyType) :
    ∃ s t, H.fromTypeExact c = some s ∧ H.fromType c = some t ∧
      HirType.le H.toWorld s t = true ∧ s.lifetime = kLifetimeTop ∧
      (s.spec = .top ∨ s.spec = .typeExact c) := by
  obtain ⟨first, hfirst⟩ := H.exists_first_predefined c
  cases hc : H.predefined c with
  | some x =>
    have hobject : x.bitsForExact &&& kBuiltinExact &&& kObject ≠ 0#_ := by cases x <;> decide
    have hexact : H.fromTypeExact c =
        some (ofBits (x.bitsForExact &&& kBuiltinExact) kLifetimeTop) := by
      simp [fromTypeExact, fromTypeImpl, hc, mapBits, inter_ofBits hobject]
    refine ⟨_, _, hexact, fromType_predefined hc, ofBits_le_ofBits ?_ and_self, rfl,
      .inl (spec_ofBits hobject)⟩
    cases x <;> decide
  | none =>
    cases hstatic : pyTypeIsSubtype H.toWorld (some c) H.staticArray with
    | true =>
      have hexact : H.fromTypeExact c = some (ofBits kArray kLifetimeTop) := by
        simp [fromTypeExact, fromTypeImpl, hc, hstatic]
      exact ⟨_, _, hexact, fromType_staticArray hc hstatic, World.le_refl _ _, rfl, .inl rfl⟩
    | false =>
      have hexact : H.fromTypeExact c =
          some ⟨first.bitsForExact &&& kUser, kLifetimeTop, .typeExact c⟩ := by
        simp [fromTypeExact, fromTypeImpl, hc, hstatic, hfirst, mapBits]
      refine ⟨_, _, hexact, fromType_user hc hstatic hfirst, ?_, rfl, .inr rfl⟩
      refine World.le_iff.mpr ⟨?_, and_self, World.specSubtype_iff.mpr
        (.inr (.inr (H.isSubtype_refl c)))⟩
      show first.bitsForExact &&& kUser &&& (first.bits &&& kUser) =
        first.bitsForExact &&& kUser
      cases first <;> decide

theorem fromObject_le (H : Hierarchy PyType PyObject) (obj : PyObject) :
    ∃ s t u, H.fromObject obj = some s ∧ H.fromTypeExact (H.pyType obj) = some t ∧
      H.fromType (H.pyType obj) = some u ∧ HirType.le H.toWorld s t = true ∧
      HirType.le H.toWorld t u = true := by
  obtain ⟨t, u, hexact, htype, hle, hlifetime, hspec⟩ := fromTypeExact_cases H (H.pyType obj)
  have hsubset : (if H.immortal obj then kLifetimeImmortal else kLifetimeMortal) &&&
      kLifetimeTop = if H.immortal obj then kLifetimeImmortal else kLifetimeMortal := by
    cases H.immortal obj <;> decide
  by_cases hnone : obj = H.pyNone
  · refine ⟨_, t, u, by rw [fromObject, if_pos hnone], hexact, htype, ?_, hle⟩
    have hpredefined : H.predefined (H.pyType obj) = some .noneType := by
      rw [hnone, H.predefined_pyNone]
    have ht : t = ofBits (Builtin.noneType.bits &&& kBuiltinExact) kLifetimeTop := by
      have hinter : inter H.toWorld (ofBits Builtin.noneType.bits kLifetimeTop)
          (ofBits kBuiltinExact kLifetimeTop) =
            ofBits (Builtin.noneType.bits &&& kBuiltinExact) kLifetimeTop :=
        inter_ofBits (by decide)
      simpa [fromTypeExact, fromTypeImpl, hpredefined, mapBits, Builtin.bitsForExact, hinter,
        eq_comm] using hexact
    rw [ht]
    exact ofBits_le_ofBits (by decide) hsubset
  · refine ⟨_, t, u, by rw [fromObject, if_neg hnone, hexact, Option.map_some], hexact, htype, ?_,
      hle⟩
    refine World.le_iff.mpr ⟨and_self, by rw [hlifetime]; exact hsubset,
      World.specSubtype_iff.mpr ?_⟩
    obtain htop | hexactSpec := hspec
    · exact .inl htop
    · exact .inr (.inr (by simp [World.SpecLe, hexactSpec]))

end Hierarchy

end CinderX.Jit.Hir
