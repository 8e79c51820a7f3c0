import CinderX.Jit.Hir.Type

/-!
# Types as sets of values

A type denotes the values whose basic type is among its bits, whose lifetime,
for an object, is among its lifetimes, and which satisfy its specialization.
The operators over-approximate the operations on these sets, and keep types
well formed.
-/

namespace CinderX.Jit.Hir

open BitVec HirType

variable {PyType PyObject : Type}

inductive Value (PyObject : Type) where
  | object (o : PyObject)
  | primitive (kind : Fin 12) (payload : BitVec 64)

namespace World

variable (W : World PyType PyObject)

def bitOf : Value PyObject → Nat
  | .object o => (W.basicBit o).val
  | .primitive kind _ => 32 + kind.val

def lifetimeBit (o : PyObject) : Nat := if W.immortal o then 1 else 0

def lifetimeOf (o : PyObject) : Lifetime :=
  if W.immortal o then kLifetimeImmortal else kLifetimeMortal

def objectBits (o : PyObject) : Bits := twoPow 44 (W.basicBit o).val

def Satisfies : Spec PyType PyObject → Value PyObject → Prop
  | .top, _ => True
  | .type c, .object o => W.isSubtype (W.pyType o) c = true
  | .typeExact c, .object o => W.pyType o = c
  | .object o', .object o => o = o'
  | .int i, .primitive _ v => v = i
  | .double d, .primitive _ v => v = d
  | _, _ => False

structure Mem (v : Value PyObject) (t : HirType PyType PyObject) : Prop where
  bit : t.bits.getLsbD (W.bitOf v) = true
  lifetime : ∀ o, v = .object o → t.lifetime.getLsbD (W.lifetimeBit o) = true
  spec : W.Satisfies t.spec v

/-- What a specialization demands of the bits and the lifetime under it. -/
def SpecFits (t : HirType PyType PyObject) : Prop :=
  match t.spec with
  | .top | .bottom => True
  | .type _ | .typeExact _ => t.bits &&& kPrimitive = 0#_
  | .object o => t.bits = W.objectBits o ∧ t.lifetime = W.lifetimeOf o
  | .int _ => t.bits ∈ integralBits
  | .double _ => t.bits = kCDouble

/-- The checks of the constructor, and the shapes the factory functions build. -/
structure WellFormed (t : HirType PyType PyObject) : Prop where
  lifetime_bottom : t.lifetime = kLifetimeBottom ↔ t.bits &&& kObject = 0#_
  spec_bottom : t.spec = .bottom ↔ t.bits = kBottom
  fits : W.SpecFits t

end World

theorem kObject_getLsbD {i : Nat} (hi : i < 44) :
    kObject.getLsbD i = decide (i < 32) := by
  have hall : ∀ i < 44, kObject.getLsbD i = decide (i < 32) := by decide
  exact hall i hi

theorem kPrimitive_getLsbD {i : Nat} (hi : i < 44) :
    kPrimitive.getLsbD i = decide (32 ≤ i) := by
  have hall : ∀ i < 44, kPrimitive.getLsbD i = decide (32 ≤ i) := by decide
  exact hall i hi

theorem and_eq_left_iff {n : Nat} {a b : BitVec n} :
    a &&& b = a ↔ ∀ i, a.getLsbD i = true → b.getLsbD i = true := by
  constructor
  · intro h i hi
    rw [← h, getLsbD_and] at hi
    simp_all
  · intro h
    apply eq_of_getLsbD_eq
    intro i _
    rw [getLsbD_and]
    cases hi : a.getLsbD i with
    | false => rfl
    | true => simp [h i hi]

theorem eq_zero_iff {n : Nat} {a : BitVec n} :
    a = 0#n ↔ ∀ i, a.getLsbD i = false := by
  constructor
  · rintro rfl i
    simp
  · intro h
    apply eq_of_getLsbD_eq
    simp [h]

theorem and_kObject_eq_zero_iff {a : Bits} :
    a &&& kObject = 0#_ ↔ ∀ i < 32, a.getLsbD i = false := by
  rw [eq_zero_iff]
  constructor
  · intro h i hi
    have := h i
    rw [getLsbD_and, kObject_getLsbD (by omega)] at this
    simpa [hi] using this
  · intro h i
    rw [getLsbD_and]
    by_cases hi : i < 44
    · rw [kObject_getLsbD hi]
      by_cases hlow : i < 32
      · simp [h i hlow]
      · simp [hlow]
    · simp [getLsbD_of_ge kObject i (by simpa [kNumTypeBits] using hi)]

theorem and_kPrimitive_eq_zero_iff {a : Bits} :
    a &&& kPrimitive = 0#_ ↔ ∀ i, 32 ≤ i → a.getLsbD i = false := by
  rw [eq_zero_iff]
  constructor
  · intro h i hi
    by_cases hlt : i < 44
    · have := h i
      rw [getLsbD_and, kPrimitive_getLsbD hlt] at this
      simpa [hi] using this
    · exact getLsbD_of_ge a i (by simpa [kNumTypeBits] using hlt)
  · intro h i
    rw [getLsbD_and]
    by_cases hi : 32 ≤ i
    · simp [h i hi]
    · rw [kPrimitive_getLsbD (by omega)]
      simp [hi]

namespace World

variable {W : World PyType PyObject}

theorem bitOf_lt (v : Value PyObject) : W.bitOf v < 44 := by
  cases v with
  | object o =>
    have := (W.basicBit o).isLt
    simp only [bitOf]
    omega
  | primitive kind payload =>
    have := kind.isLt
    simp only [bitOf]
    omega

theorem bitOf_object_lt (o : PyObject) : W.bitOf (.object o) < 32 := (W.basicBit o).isLt

theorem le_bitOf_primitive (kind : Fin 12) (payload : BitVec 64) :
    32 ≤ W.bitOf (.primitive kind payload) := by
  simp [bitOf]

theorem lifetimeBit_lt (o : PyObject) : W.lifetimeBit o < 2 := by
  unfold lifetimeBit
  split <;> omega

variable {v : Value PyObject}

theorem satisfies_top : W.Satisfies (.top : Spec PyType PyObject) v := by
  cases v <;> exact trivial

/-! ## Single-bit sets -/

variable {bits : Bits}

theorem integralBits_eq_twoPow (h : bits ∈ integralBits) :
    ∃ k, 32 ≤ k ∧ k < 42 ∧ bits = twoPow 44 k := by
  simp only [integralBits, List.mem_cons, List.not_mem_nil, or_false] at h
  rcases h with rfl | rfl | rfl | rfl | rfl | rfl | rfl | rfl | rfl | rfl
  · exact ⟨32, by decide⟩
  · exact ⟨33, by decide⟩
  · exact ⟨34, by decide⟩
  · exact ⟨35, by decide⟩
  · exact ⟨36, by decide⟩
  · exact ⟨37, by decide⟩
  · exact ⟨38, by decide⟩
  · exact ⟨39, by decide⟩
  · exact ⟨40, by decide⟩
  · exact ⟨41, by decide⟩

theorem kCDouble_eq_twoPow : kCDouble = twoPow 44 42 := by decide

variable {k i : Nat}

theorem eq_of_getLsbD_twoPow (h : (twoPow 44 k).getLsbD i = true) :
    i = k := by
  rw [getLsbD_twoPow] at h
  simp_all

theorem twoPow_and_kObject (hk : 32 ≤ k) :
    twoPow 44 k &&& kObject = 0#_ := by
  rw [and_kObject_eq_zero_iff]
  intro i hi
  cases hbit : (twoPow 44 k).getLsbD i with
  | false => rfl
  | true =>
    have := eq_of_getLsbD_twoPow hbit
    omega

variable {a : Bits}

theorem integralBits_eq {b : Bits} (ha : a ∈ integralBits) (hb : b ∈ integralBits)
    (hai : a.getLsbD i = true) (hbi : b.getLsbD i = true) : a = b := by
  obtain ⟨j, _, _, rfl⟩ := integralBits_eq_twoPow ha
  obtain ⟨k, _, _, rfl⟩ := integralBits_eq_twoPow hb
  rw [← eq_of_getLsbD_twoPow hai, eq_of_getLsbD_twoPow hbi]

theorem integralBits_disjoint_kCDouble (ha : a ∈ integralBits) (hai : a.getLsbD i = true) :
    kCDouble.getLsbD i = false := by
  obtain ⟨k, _, hk, rfl⟩ := integralBits_eq_twoPow ha
  cases hi : kCDouble.getLsbD i with
  | false => rfl
  | true =>
    rw [kCDouble_eq_twoPow] at hi
    have := eq_of_getLsbD_twoPow hai
    have := eq_of_getLsbD_twoPow hi
    omega

variable {t : HirType PyType PyObject}

theorem lifetime_eq_bottom_of_int (ht : W.WellFormed t) (h : t.bits ∈ integralBits) :
    t.lifetime = kLifetimeBottom := by
  obtain ⟨k, hk, _, hbits⟩ := integralBits_eq_twoPow h
  rw [ht.lifetime_bottom, hbits]
  exact twoPow_and_kObject hk

theorem lifetime_eq_bottom_of_double (ht : W.WellFormed t) (h : t.bits = kCDouble) :
    t.lifetime = kLifetimeBottom := by
  rw [ht.lifetime_bottom, h, kCDouble_eq_twoPow]
  exact twoPow_and_kObject (by omega)

variable {lifetime : Lifetime}

theorem Mem.ofBits (hbit : bits.getLsbD (W.bitOf v) = true)
    (hlifetime : ∀ o, v = .object o → lifetime.getLsbD (W.lifetimeBit o) = true) :
    W.Mem v (HirType.ofBits bits lifetime) := by
  refine ⟨hbit, hlifetime, ?_⟩
  have hne : bits ≠ kBottom := by
    rintro rfl
    simp [kBottom] at hbit
  simpa [HirType.ofBits, hne] using satisfies_top

theorem bottom_not_mem : ¬ W.Mem v HirType.bottom := by
  intro h
  have := h.bit
  simp [bottom, kBottom] at this

variable {c : PyType}

theorem satisfies_type_of_typeSpec {d : PyType} (hv : W.Satisfies t.spec v)
    (hc : t.typeSpec W = some c) (hcd : W.isSubtype c d = true) : W.Satisfies (.type d) v := by
  have trans := @W.isSubtype_trans
  cases hs : t.spec <;> cases v <;> simp_all [typeSpec, Satisfies]
  exact trans hv hcd

theorem satisfies_typeExact_of_typeSpec (hv : W.Satisfies t.spec v)
    (hexact : t.hasTypeExactSpec = true) (hc : t.typeSpec W = some c) :
    W.Satisfies (.typeExact c) v := by
  cases hs : t.spec <;> cases v <;> simp_all [typeSpec, hasTypeExactSpec, Satisfies]

theorem bits_and_kPrimitive_of_typeSpec (ht : W.WellFormed t) (hc : t.typeSpec W = some c) :
    t.bits &&& kPrimitive = 0#_ := by
  have hfits := ht.fits
  unfold SpecFits at hfits
  cases hs : t.spec with
  | type d => simpa [hs] using hfits
  | typeExact d => simpa [hs] using hfits
  | object o =>
    rw [hs] at hfits
    rw [hfits.1, and_kPrimitive_eq_zero_iff]
    intro i hi
    have := (W.basicBit o).isLt
    simp only [objectBits, getLsbD_twoPow]
    simp
    omega
  | top => simp [typeSpec, hs] at hc
  | bottom => simp [typeSpec, hs] at hc
  | int i => simp [typeSpec, hs] at hc
  | double d => simp [typeSpec, hs] at hc

theorem canonical_getLsbD (hbit : bits.getLsbD (W.bitOf v) = true)
    (hlifetime : ∀ o, v = .object o → lifetime.getLsbD (W.lifetimeBit o) = true) :
    (HirType.canonical bits lifetime).1.getLsbD (W.bitOf v) = true ∧
      ∀ o, v = .object o →
        (HirType.canonical bits lifetime).2.getLsbD (W.lifetimeBit o) = true := by
  unfold canonical
  cases v with
  | object o =>
    have hobject : bits &&& kObject ≠ 0#_ := by
      intro h
      have := and_kObject_eq_zero_iff.mp h _ (W.bitOf_object_lt o)
      simp_all
    have hne : lifetime ≠ kLifetimeBottom := by
      rintro rfl
      have := hlifetime o rfl
      simp [kLifetimeBottom] at this
    rw [if_neg hobject, if_neg hne]
    exact ⟨hbit, hlifetime⟩
  | primitive kind payload =>
    have hge := W.le_bitOf_primitive kind payload
    have hlt := W.bitOf_lt (.primitive kind payload)
    split
    · simp [hbit]
    split
    · have := kObject_getLsbD hlt
      simp_all
    · simp [hbit]

theorem canonical_spec (bits : Bits) (lifetime : Lifetime) {bits' : Bits}
    {lifetime' : Lifetime} (h : HirType.canonical bits lifetime = (bits', lifetime')) :
    (∀ i, bits'.getLsbD i = true → bits.getLsbD i = true) ∧
      (∀ i, lifetime'.getLsbD i = true → lifetime.getLsbD i = true) ∧
      (lifetime' = kLifetimeBottom ↔ bits' &&& kObject = 0#_) := by
  unfold canonical at h
  split at h
  case isTrue hobject =>
      cases h
      refine ⟨fun _ h => h, ?_, by simp [hobject]⟩
      intro i hi
      simp [kLifetimeBottom] at hi
  case isFalse hobject =>
      split at h
      case isTrue hlifetime =>
          cases h
          refine ⟨?_, fun _ h => h, ?_⟩
          · intro i hi
            simp_all
          · simp only [hlifetime, true_iff]
            rw [BitVec.and_assoc]
            simp
      case isFalse hlifetime =>
          cases h
          exact ⟨fun _ h => h, fun _ h => h, by simp [hobject, hlifetime]⟩

variable {n : Nat} {b : BitVec n}

theorem eq_twoPow_of_subset {a : BitVec n} (hb : b = twoPow n k)
    (hsubset : ∀ i, a.getLsbD i = true → b.getLsbD i = true) (hne : a ≠ 0#n) : a = b := by
  have hexists : ∃ i, a.getLsbD i = true := by
    by_contra hnone
    exact hne (eq_zero_iff.mpr (by simpa using hnone))
  obtain ⟨i, hi⟩ := hexists
  have hmem : ∀ j, b.getLsbD j = true → j = k := by
    intro j hj
    rw [hb, getLsbD_twoPow] at hj
    simp_all
  apply eq_of_getLsbD_eq
  intro j _
  cases hj : b.getLsbD j with
  | true => rw [hmem j hj, ← hmem i (hsubset i hi), hi]
  | false =>
    cases haj : a.getLsbD j with
    | false => rfl
    | true => simp [hsubset j haj] at hj

theorem or_and_eq_zero_iff {a c : BitVec n} :
    (a ||| b) &&& c = 0#n ↔ a &&& c = 0#n ∧ b &&& c = 0#n := by
  simp only [eq_zero_iff, getLsbD_and, getLsbD_or]
  constructor
  · intro h
    constructor <;>
      · intro i
        have := h i
        simp_all
  · rintro ⟨ha, hb⟩ i
    rw [Bool.and_or_distrib_right, ha i, hb i]
    rfl

theorem lifetimeOf_eq_twoPow (o : PyObject) :
    W.lifetimeOf o = twoPow 2 (W.lifetimeBit o) := by
  unfold lifetimeOf lifetimeBit
  split <;> decide

theorem bottom_wellFormed : W.WellFormed HirType.bottom := by
  constructor <;> simp [bottom, kBottom, kLifetimeBottom, SpecFits]

theorem WellFormed.restrict (ht : W.WellFormed t)
    (hbits : ∀ i, bits.getLsbD i = true → t.bits.getLsbD i = true)
    (hlifetime : ∀ i, lifetime.getLsbD i = true → t.lifetime.getLsbD i = true)
    (hne : bits ≠ kBottom) (hcanonical : lifetime = kLifetimeBottom ↔ bits &&& kObject = 0#_) :
    W.WellFormed ⟨bits, lifetime, t.spec⟩ := by
  have htne : t.bits ≠ kBottom := by
    intro h
    apply hne
    rw [kBottom, eq_zero_iff]
    intro i
    cases hi : bits.getLsbD i with
    | false => rfl
    | true =>
      have := hbits i hi
      simp [h, kBottom] at this
  have hspec : t.spec ≠ .bottom := fun h => htne (ht.spec_bottom.mp h)
  refine ⟨hcanonical, by simp [hspec, hne], ?_⟩
  have hfits := ht.fits
  unfold SpecFits at hfits ⊢
  dsimp only
  have hprimitive : t.bits &&& kPrimitive = 0#_ → bits &&& kPrimitive = 0#_ := by
    rw [and_kPrimitive_eq_zero_iff, and_kPrimitive_eq_zero_iff]
    intro h i hi
    cases hbit : bits.getLsbD i with
    | false => rfl
    | true =>
      rw [← h i hi]
      exact (hbits i hbit).symm
  cases hs : t.spec with
  | top => trivial
  | bottom => trivial
  | type c =>
    rw [hs] at hfits
    exact hprimitive hfits
  | typeExact c =>
    rw [hs] at hfits
    exact hprimitive hfits
  | object o =>
    rw [hs] at hfits
    have hbitsEq := eq_twoPow_of_subset hfits.1 hbits hne
    refine ⟨hbitsEq.trans hfits.1, ?_⟩
    have hlifetimeNe : lifetime ≠ kLifetimeBottom := by
      intro h
      have hzero := hcanonical.mp h
      rw [hbitsEq, ← ht.lifetime_bottom, hfits.2, lifetimeOf_eq_twoPow] at hzero
      have := eq_zero_iff.mp hzero (W.lifetimeBit o)
      simp [W.lifetimeBit_lt o] at this
    have hlifetimeTwoPow := hfits.2.trans (W.lifetimeOf_eq_twoPow o)
    exact (eq_twoPow_of_subset hlifetimeTwoPow hlifetime hlifetimeNe).trans hfits.2
  | int i =>
    rw [hs] at hfits
    obtain ⟨k, _, _, hk⟩ := integralBits_eq_twoPow hfits
    exact eq_twoPow_of_subset hk hbits hne ▸ hfits
  | double d =>
    rw [hs] at hfits
    have hk : t.bits = twoPow 44 42 := hfits.trans kCDouble_eq_twoPow
    exact (eq_twoPow_of_subset hk hbits hne).trans hfits

theorem bitsSubset_iff {a : BitVec n} :
    HirType.bitsSubset a b = true ↔
      ∀ i, a.getLsbD i = true → b.getLsbD i = true := by
  simp only [bitsSubset, decide_eq_true_eq]
  exact and_eq_left_iff

theorem bitsSubset_kObject_iff {b : Bits} :
    HirType.bitsSubset (a &&& kObject) (b &&& kObject) = true ↔
      ∀ i < 32, a.getLsbD i = true → b.getLsbD i = true := by
  rw [bitsSubset_iff]
  constructor
  · intro h i hi ha
    have hobject := kObject_getLsbD (show i < 44 by omega)
    have := h i
    simp_all
  · intro h i hai
    have hobject := kObject_getLsbD (lt_of_getLsbD hai)
    rw [getLsbD_and, Bool.and_eq_true] at hai
    rw [hobject, decide_eq_true_eq] at hai
    rw [getLsbD_and, h i hai.2 hai.1, hobject]
    simp [hai.2]

theorem subBits_primitive (a b : HirType PyType PyObject) (hi : 32 ≤ i) (hlt : i < 44) :
    (a.subBits b).getLsbD i = (a.bits.getLsbD i && !b.bits.getLsbD i) := by
  have hobject : kObject.getLsbD i = false := by
    rw [kObject_getLsbD hlt]
    simp
    omega
  have hprimitive : kPrimitive.getLsbD i = true := by
    rw [kPrimitive_getLsbD hlt]
    simp [hi]
  unfold subBits
  split <;>
    simp only [getLsbD_and, getLsbD_not, hobject, hprimitive, hlt,
      decide_true, Bool.true_and, Bool.and_true, Bool.and_false, Bool.not_false]

theorem subBits_object (a b : HirType PyType PyObject) (hi : i < 32) :
    (a.subBits b).getLsbD i =
      (a.bits.getLsbD i &&
        !(b.bits.getLsbD i && HirType.bitsSubset a.lifetime b.lifetime)) := by
  have hlt : i < 44 := by omega
  have hobject : kObject.getLsbD i = true := by
    rw [kObject_getLsbD hlt]
    simp [hi]
  have hprimitive : kPrimitive.getLsbD i = false := by
    rw [kPrimitive_getLsbD hlt]
    simp [hi]
  unfold subBits
  split
  case isTrue h =>
      simp only [getLsbD_and, getLsbD_not, hobject, hprimitive, hlt, h,
        decide_true, Bool.true_and, Bool.and_true, Bool.and_false, Bool.not_false]
  case isFalse h =>
      simp only [getLsbD_and, getLsbD_not, hprimitive, hlt, h,
        decide_true, Bool.and_true, Bool.and_false, Bool.not_false]

theorem subBits_subset (a b : HirType PyType PyObject) (h : (a.subBits b).getLsbD i = true) :
    a.bits.getLsbD i = true := by
  have hlt := lt_of_getLsbD h
  by_cases hi : i < 32
  · rw [subBits_object a b hi] at h
    simp_all
  · rw [subBits_primitive a b (by omega) hlt] at h
    simp_all

theorem subLifetime_subset (a b : HirType PyType PyObject)
    (h : (a.subLifetime b).getLsbD i = true) : a.lifetime.getLsbD i = true := by
  unfold subLifetime at h
  split at h
  · rw [getLsbD_and, Bool.and_eq_true] at h
    exact h.1
  · exact h

theorem subBits_and_kObject_iff {a b : HirType PyType PyObject} (ha : W.WellFormed a) :
    a.subBits b &&& kObject = 0#_ ↔
      HirType.bitsSubset (a.bits &&& kObject) (b.bits &&& kObject) = true ∧
        HirType.bitsSubset a.lifetime b.lifetime = true := by
  rw [and_kObject_eq_zero_iff]
  constructor
  · intro h
    have hcovered : ∀ i < 32, a.bits.getLsbD i = true →
        b.bits.getLsbD i = true ∧ bitsSubset a.lifetime b.lifetime = true := by
      intro i hi hai
      have := h i hi
      rw [subBits_object a b hi, hai] at this
      simpa using this
    refine ⟨bitsSubset_kObject_iff.mpr fun i hi hai => (hcovered i hi hai).1, ?_⟩
    by_cases hobject : a.bits &&& kObject = 0#_
    · rw [ha.lifetime_bottom.mpr hobject, bitsSubset_iff]
      simp [kLifetimeBottom]
    · rw [and_kObject_eq_zero_iff] at hobject
      push Not at hobject
      obtain ⟨i, hi, hai⟩ := hobject
      exact (hcovered i hi (by simpa using hai)).2
  · rintro ⟨hkinds, hlifetimes⟩ i hi
    rw [subBits_object a b hi, hlifetimes]
    cases hai : a.bits.getLsbD i with
    | false => rfl
    | true => simp [bitsSubset_kObject_iff.mp hkinds i hi hai]

theorem subLifetime_eq_bottom_iff {a b : HirType PyType PyObject} (ha : W.WellFormed a) :
    a.subLifetime b = kLifetimeBottom ↔
      HirType.bitsSubset (a.bits &&& kObject) (b.bits &&& kObject) = true ∧
        HirType.bitsSubset a.lifetime b.lifetime = true := by
  unfold subLifetime
  split
  case isTrue hkinds =>
      simp only [hkinds, true_and]
      rw [kLifetimeBottom, eq_zero_iff, bitsSubset_iff]
      simp only [getLsbD_and, getLsbD_not]
      constructor
      · intro h i hi
        have := h i
        have := lt_of_getLsbD hi
        simp_all
      · intro h i
        cases hi : a.lifetime.getLsbD i with
        | false => rfl
        | true => simp [h i hi]
  case isFalse hkinds =>
      simp only [hkinds, false_and, iff_false, Bool.false_eq_true]
      intro h
      apply hkinds
      rw [ha.lifetime_bottom.mp h, bitsSubset_iff]
      simp

end World

end CinderX.Jit.Hir
