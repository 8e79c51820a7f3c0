import CinderX.Jit.Hir.TypeSet

/-!
# Soundness of the type operators

Each operator over-approximates the set operation it stands for and maps
well-formed types to well-formed types.
-/

namespace CinderX.Jit.Hir.World

open HirType

variable {PyType PyObject : Type} [DecidableEq PyType] [DecidableEq PyObject]
variable {W : World PyType PyObject}

variable {a b : HirType PyType PyObject} {v : Value PyObject}

theorem satisfies_of_specSubtype (h : HirType.specSubtype W a b = true)
    (hv : W.Satisfies a.spec v) :
    W.Satisfies b.spec v := by
  obtain ⟨aBits, aLifetime, aSpec⟩ := a
  obtain ⟨bBits, bLifetime, bSpec⟩ := b
  have trans := @W.isSubtype_trans
  cases aSpec <;> cases bSpec <;> cases v <;>
    simp_all [specSubtype, hasSpec, hasIntSpec, hasDoubleSpec, hasObjectSpec, hasTypeExactSpec,
      objectSpec, typeSpec, pyTypeIsSubtype, Satisfies]
  all_goals exact trans hv h

theorem specSubtype_of_mem (ha : W.WellFormed a) (hb : W.WellFormed b) (hva : W.Mem v a)
    (hvb : W.Mem v b) :
    HirType.specSubtype W a b = true ∨ HirType.specSubtype W b a = true ∨
      ∃ c d, a.spec = .type c ∧ b.spec = .type d := by
  obtain ⟨aBits, aLifetime, aSpec⟩ := a
  obtain ⟨bBits, bLifetime, bSpec⟩ := b
  have haFits := ha.fits
  have hbFits := hb.fits
  have haBit := hva.bit
  have hbBit := hvb.bit
  have haSpec := hva.spec
  have hbSpec := hvb.spec
  have haInt := lifetime_eq_bottom_of_int ha
  have hbInt := lifetime_eq_bottom_of_int hb
  have haDouble := lifetime_eq_bottom_of_double ha
  have hbDouble := lifetime_eq_bottom_of_double hb
  clear ha hb hva hvb
  cases aSpec <;> cases bSpec <;> cases v <;>
    simp_all [specSubtype, hasSpec, hasIntSpec, hasDoubleSpec, hasObjectSpec, hasTypeExactSpec,
      objectSpec, typeSpec, pyTypeIsSubtype, Satisfies,
      SpecFits]
  case int.int.primitive =>
      exact Or.inl (integralBits_eq haFits hbFits haBit hbBit)
  case int.double.primitive =>
      have := integralBits_disjoint_kCDouble haFits haBit
      simp_all
  case double.int.primitive =>
      have := integralBits_disjoint_kCDouble hbFits hbBit
      simp_all

/-! ## The operators -/

theorem le_iff :
    HirType.le W a b = true ↔
      a.bits &&& b.bits = a.bits ∧ a.lifetime &&& b.lifetime = a.lifetime ∧
        HirType.specSubtype W a b = true := by
  simp [le, and_assoc]

theorem Mem.of_le (h : HirType.le W a b = true) (hv : W.Mem v a) : W.Mem v b := by
  obtain ⟨hbits, hlifetime, hspec⟩ := le_iff.mp h
  constructor
  · exact and_eq_left_iff.mp hbits _ hv.bit
  · intro o ho
    exact and_eq_left_iff.mp hlifetime _ (hv.lifetime o ho)
  · exact satisfies_of_specSubtype hspec hv.spec

theorem union_cases (a b : HirType PyType PyObject) :
    (HirType.union W a b = b ∧ HirType.le W a b = true) ∨
    (HirType.union W a b = a ∧ HirType.le W b a = true) ∨
    (HirType.union W a b = a ∧ ∃ o, a.spec = .object o ∧ b.spec = .object o) ∨
    HirType.union W a b = HirType.ofBits (a.bits ||| b.bits) (a.lifetime ||| b.lifetime) ∨
    ∃ spec c typeA typeB, HirType.union W a b =
        ⟨a.bits ||| b.bits, a.lifetime ||| b.lifetime, spec⟩ ∧
      a.typeSpec W = some typeA ∧ b.typeSpec W = some typeB ∧
      (spec = .typeExact c ∧ typeA = c ∧ typeB = c ∧
          a.hasTypeExactSpec = true ∧ b.hasTypeExactSpec = true ∨
        spec = .type c ∧ W.isSubtype typeA c = true ∧ W.isSubtype typeB c = true) := by
  unfold union
  split
  · simp_all
  split
  · simp_all
  right
  right
  dsimp only
  split
  case h_1 typeA typeB hA hB =>
      split
      case isTrue hobject =>
          left
          cases hsa : a.spec <;> cases hsb : b.spec <;> simp_all [hasObjectSpec, objectSpec]
      case isFalse =>
          right
          split
          · simp
          split
          · simp
          right
          have hrefl := W.isSubtype_refl
          split
          · simp_all
          · simp_all
            grind
  case h_2 => simp

theorem Mem.union (ha : W.WellFormed a) (hb : W.WellFormed b) (hv : W.Mem v a ∨ W.Mem v b) :
    W.Mem v (HirType.union W a b) := by
  have hbit : (a.bits ||| b.bits).getLsbD (W.bitOf v) = true := by
    rw [BitVec.getLsbD_or]
    cases hv with
    | inl hv => simp [hv.bit]
    | inr hv => simp [hv.bit]
  have hlifetime : ∀ o, v = .object o →
      (a.lifetime ||| b.lifetime).getLsbD (W.lifetimeBit o) = true := by
    intro o ho
    rw [BitVec.getLsbD_or]
    cases hv with
    | inl hv => simp [hv.lifetime o ho]
    | inr hv => simp [hv.lifetime o ho]
  rcases union_cases (W := W) a b with ⟨h, hle⟩ | ⟨h, hle⟩ | ⟨h, o, hoa, hob⟩ | h |
      ⟨spec, c, typeA, typeB, h, hA, hB, hspec⟩ <;> rw [h]
  · cases hv with
    | inl hv => exact hv.of_le hle
    | inr hv => exact hv
  · cases hv with
    | inl hv => exact hv
    | inr hv => exact hv.of_le hle
  · cases hv with
    | inl hv => exact hv
    | inr hv =>
      have haFits := ha.fits
      have hbFits := hb.fits
      simp only [SpecFits, hoa, hob] at haFits hbFits
      have hab : b = a := by
        cases a
        cases b
        simp_all
      exact hab ▸ hv
  · exact Mem.ofBits hbit hlifetime
  · refine ⟨hbit, hlifetime, ?_⟩
    rcases hspec with ⟨rfl, rfl, rfl, hexactA, hexactB⟩ | ⟨rfl, hsubA, hsubB⟩
    · cases hv with
      | inl hv => exact satisfies_typeExact_of_typeSpec hv.spec hexactA hA
      | inr hv => exact satisfies_typeExact_of_typeSpec hv.spec hexactB hB
    · cases hv with
      | inl hv => exact satisfies_type_of_typeSpec hv.spec hA hsubA
      | inr hv => exact satisfies_type_of_typeSpec hv.spec hB hsubB

theorem inter_cases (a b : HirType PyType PyObject) {bits : Bits} {lifetime : Lifetime}
    (hcanonical : HirType.canonical (a.bits &&& b.bits) (a.lifetime &&& b.lifetime) =
      (bits, lifetime)) :
    (HirType.inter W a b = HirType.bottom ∧ bits = kBottom) ∨
    (bits ≠ kBottom ∧
      ((∃ spec, HirType.inter W a b = ⟨bits, lifetime, spec⟩ ∧
          (spec = a.spec ∧ HirType.specSubtype W a b = true ∨
            spec = b.spec ∧ HirType.specSubtype W b a = true ∨
            ∃ c d, a.spec = .type c ∧ b.spec = .type d ∧
              (spec = .type c ∨ spec = .type d))) ∨
        (HirType.inter W a b = HirType.bottom ∧
          HirType.specSubtype W a b = false ∧ HirType.specSubtype W b a = false ∧
          ¬ ∃ c d, a.spec = .type c ∧ b.spec = .type d))) := by
  unfold inter
  rw [hcanonical]
  dsimp only
  split
  · simp_all
  right
  refine ⟨‹_›, ?_⟩
  split
  · simp_all
  split
  · simp_all
  split
  case h_1 typeA typeB hA hB =>
      left
      split
      · exact ⟨_, rfl, Or.inr (Or.inr ⟨typeA, typeB, hA, hB, Or.inl rfl⟩)⟩
      · exact ⟨_, rfl, Or.inr (Or.inr ⟨typeA, typeB, hA, hB, Or.inr rfl⟩)⟩
  case h_2 hnot =>
      right
      refine ⟨rfl, by simp_all, by simp_all, ?_⟩
      rintro ⟨c, d, hc, hd⟩
      exact hnot c d hc hd

theorem Mem.inter (ha : W.WellFormed a) (hb : W.WellFormed b) (hva : W.Mem v a) (hvb : W.Mem v b) :
    W.Mem v (HirType.inter W a b) := by
  have hbits : (a.bits &&& b.bits).getLsbD (W.bitOf v) = true := by
    simp [hva.bit, hvb.bit]
  have hlifetimes : ∀ o, v = .object o →
      (a.lifetime &&& b.lifetime).getLsbD (W.lifetimeBit o) = true := by
    intro o ho
    simp [hva.lifetime o ho, hvb.lifetime o ho]
  obtain ⟨hbit, hlifetime⟩ := canonical_getLsbD hbits hlifetimes
  cases hc : canonical (a.bits &&& b.bits) (a.lifetime &&& b.lifetime) with
  | mk bits lifetime =>
    rw [hc] at hbit hlifetime
    rcases inter_cases (W := W) a b hc with
      ⟨_, rfl⟩ | ⟨_, ⟨spec, h, hspec⟩ | ⟨_, hab, hba, hnot⟩⟩
    · simp [kBottom] at hbit
    · rw [h]
      refine ⟨hbit, hlifetime, ?_⟩
      rcases hspec with ⟨rfl, _⟩ | ⟨rfl, _⟩ | ⟨c, d, hcA, hdB, rfl | rfl⟩
      · exact hva.spec
      · exact hvb.spec
      · exact hcA ▸ hva.spec
      · exact hdB ▸ hvb.spec
    · rcases specSubtype_of_mem ha hb hva hvb with h | h | h
      · simp [h] at hab
      · simp [h] at hba
      · exact absurd h hnot

theorem sub_cases (a b : HirType PyType PyObject) :
    (HirType.sub W a b = HirType.bottom ∧ HirType.le W a b = true) ∨
    HirType.sub W a b = a ∨
    (HirType.sub W a b = ⟨a.subBits b, a.subLifetime b, a.spec⟩ ∧
      HirType.le W a b = false ∧ HirType.specSubtype W a b = true) := by
  unfold sub
  split
  · simp_all
  split
  · simp
  · simp_all

theorem mem_of_mem_sub (hv : W.Mem v (HirType.sub W a b)) : W.Mem v a := by
  rcases sub_cases (W := W) a b with ⟨h, _⟩ | h | ⟨h, _, _⟩
  · exact absurd (h ▸ hv) bottom_not_mem
  · exact h ▸ hv
  · rw [h] at hv
    obtain ⟨hbit, hlifetime, hspec⟩ := hv
    refine ⟨?_, ?_, hspec⟩
    · cases v with
      | object o =>
        rw [subBits_object a b (W.bitOf_object_lt o)] at hbit
        simp_all
      | primitive kind payload =>
        rw [subBits_primitive a b (W.le_bitOf_primitive kind payload) (W.bitOf_lt _)] at hbit
        simp_all
    · intro o ho
      have := hlifetime o ho
      unfold subLifetime at this
      split at this
      · simp_all
      · exact this

theorem Mem.sub (hva : W.Mem v a) (hvb : ¬ W.Mem v b) : W.Mem v (HirType.sub W a b) := by
  rcases sub_cases (W := W) a b with ⟨_, hle⟩ | h | ⟨h, _, hsubtype⟩
  · exact absurd (hva.of_le hle) hvb
  · rw [h]
    exact hva
  · rw [h]
    have hspecB := satisfies_of_specSubtype hsubtype hva.spec
    have hbitA := hva.bit
    cases v with
    | object o =>
      have hlifetimeA := hva.lifetime o rfl
      have hout : b.bits.getLsbD (W.bitOf (.object o)) = true →
          b.lifetime.getLsbD (W.lifetimeBit o) = false := by
        intro hbitB
        cases hlifetimeB : b.lifetime.getLsbD (W.lifetimeBit o) with
        | false => rfl
        | true =>
          refine absurd ⟨hbitB, ?_, hspecB⟩ hvb
          rintro _ ⟨rfl⟩
          exact hlifetimeB
      refine ⟨?_, ?_, hva.spec⟩
      · rw [subBits_object a b (W.bitOf_object_lt o), hbitA]
        cases hsubset : bitsSubset a.lifetime b.lifetime with
        | false => simp
        | true =>
          have hlifetimeB := bitsSubset_iff.mp hsubset _ hlifetimeA
          cases hbitB : b.bits.getLsbD (W.bitOf (.object o)) with
          | false => simp
          | true => simp [hout hbitB] at hlifetimeB
      · rintro _ ⟨rfl⟩
        unfold subLifetime
        split
        case isTrue hsubset =>
            have hbitB := bitsSubset_kObject_iff.mp hsubset _ (W.bitOf_object_lt o) hbitA
            rw [BitVec.getLsbD_and, BitVec.getLsbD_not, hlifetimeA, hout hbitB]
            simp [W.lifetimeBit_lt o]
        case isFalse => exact hlifetimeA
    | primitive kind payload =>
      refine ⟨?_, by simp, hva.spec⟩
      rw [subBits_primitive a b (W.le_bitOf_primitive kind payload) (W.bitOf_lt _), hbitA]
      cases hbitB : b.bits.getLsbD (W.bitOf (.primitive kind payload)) with
      | false => rfl
      | true => exact absurd ⟨hbitB, by simp, hspecB⟩ hvb

theorem WellFormed.union (ha : W.WellFormed a) (hb : W.WellFormed b) :
    W.WellFormed (HirType.union W a b) := by
  have hlifetime : a.lifetime ||| b.lifetime = kLifetimeBottom ↔
      (a.bits ||| b.bits) &&& kObject = 0#_ := by
    rw [or_and_eq_zero_iff, ← ha.lifetime_bottom, ← hb.lifetime_bottom]
    exact BitVec.or_eq_zero_iff
  rcases union_cases (W := W) a b with ⟨h, _⟩ | ⟨h, _⟩ | ⟨h, _⟩ | h |
      ⟨spec, c, typeA, typeB, h, hA, hB, hspec⟩ <;> rw [h]
  · exact hb
  · exact ha
  · exact ha
  · refine ⟨hlifetime, ?_, ?_⟩
    · simp only [ofBits]
      split <;> simp_all
    · unfold ofBits
      split <;> exact trivial
  · have hfits : (a.bits ||| b.bits) &&& kPrimitive = 0#_ :=
      or_and_eq_zero_iff.mpr
        ⟨bits_and_kPrimitive_of_typeSpec ha hA, bits_and_kPrimitive_of_typeSpec hb hB⟩
    have hne : a.bits ||| b.bits ≠ kBottom := by
      intro hzero
      have := ha.spec_bottom.mpr (BitVec.or_eq_zero_iff.mp hzero).1
      simp [typeSpec, this] at hA
    refine ⟨hlifetime, ?_, ?_⟩
    · rcases hspec with ⟨rfl, _⟩ | ⟨rfl, _⟩ <;> simp [hne]
    · rcases hspec with ⟨rfl, _⟩ | ⟨rfl, _⟩ <;> exact hfits

theorem WellFormed.inter (ha : W.WellFormed a) (hb : W.WellFormed b) :
    W.WellFormed (HirType.inter W a b) := by
  cases hc : canonical (a.bits &&& b.bits) (a.lifetime &&& b.lifetime) with
  | mk bits lifetime =>
    obtain ⟨hbits, hlifetime, hcanonical⟩ := canonical_spec _ _ hc
    simp only [BitVec.getLsbD_and, Bool.and_eq_true] at hbits hlifetime
    have restrictA := fun hne => ha.restrict (fun i hi => (hbits i hi).1)
      (fun i hi => (hlifetime i hi).1) hne hcanonical
    have restrictB := fun hne => hb.restrict (fun i hi => (hbits i hi).2)
      (fun i hi => (hlifetime i hi).2) hne hcanonical
    rcases inter_cases (W := W) a b hc with
      ⟨h, _⟩ | ⟨hne, ⟨spec, h, hspec⟩ | ⟨h, _⟩⟩ <;> rw [h]
    · exact bottom_wellFormed
    · rcases hspec with ⟨rfl, _⟩ | ⟨rfl, _⟩ | ⟨c, d, hcA, hdB, rfl | rfl⟩
      · exact restrictA hne
      · exact restrictB hne
      · exact hcA ▸ restrictA hne
      · exact hdB ▸ restrictB hne
    · exact bottom_wellFormed

theorem WellFormed.sub (ha : W.WellFormed a) :
    W.WellFormed (HirType.sub W a b) := by
  rcases sub_cases (W := W) a b with ⟨h, _⟩ | h | ⟨h, hle, hsubtype⟩
  · rw [h]
    exact bottom_wellFormed
  · rw [h]
    exact ha
  · rw [h]
    have hcanonical : a.subLifetime b = kLifetimeBottom ↔ a.subBits b &&& kObject = 0#_ := by
      rw [subLifetime_eq_bottom_iff ha, subBits_and_kObject_iff ha]
    have hne : a.subBits b ≠ kBottom := by
      intro hzero
      have hgone : a.subBits b &&& kObject = 0#_ := by simp [hzero, kBottom]
      obtain ⟨hkinds, hlifetimes⟩ := (subBits_and_kObject_iff ha).mp hgone
      have hbits : ∀ i, a.bits.getLsbD i = true → b.bits.getLsbD i = true := by
        intro i hai
        have hlt := BitVec.lt_of_getLsbD hai
        by_cases hi : i < 32
        · exact bitsSubset_kObject_iff.mp hkinds i hi hai
        · have hsub := subBits_primitive a b (show 32 ≤ i by omega) hlt
          rw [hzero, hai] at hsub
          simpa [kBottom] using hsub
      have : le W a b = true :=
        le_iff.mpr ⟨and_eq_left_iff.mpr hbits,
          and_eq_left_iff.mpr (bitsSubset_iff.mp hlifetimes), hsubtype⟩
      simp [this] at hle
    exact ha.restrict (fun _ => subBits_subset a b) (fun _ => subLifetime_subset a b)
      hne hcanonical

/--
The operators on well-formed types, read as sets of values: `<=` is inclusion,
`|`, `&` and `-` contain union, intersection and difference, the last inside
its first operand, and `couldBe` is false on disjoint sets only.
-/
theorem operators_over_approximate {PyType PyObject : Type} [DecidableEq PyType]
    [DecidableEq PyObject] (W : World PyType PyObject) (a b : HirType PyType PyObject)
    (ha : W.WellFormed a) (hb : W.WellFormed b) :
    (HirType.le W a b = true → ∀ v, W.Mem v a → W.Mem v b) ∧
      (∀ v, W.Mem v a ∨ W.Mem v b → W.Mem v (HirType.union W a b)) ∧
      (∀ v, W.Mem v a ∧ W.Mem v b → W.Mem v (HirType.inter W a b)) ∧
      (∀ v, W.Mem v a ∧ ¬ W.Mem v b → W.Mem v (HirType.sub W a b)) ∧
      (∀ v, W.Mem v (HirType.sub W a b) → W.Mem v a) ∧
      (HirType.couldBe W a b = false → ∀ v, ¬ (W.Mem v a ∧ W.Mem v b)) ∧
      W.WellFormed (HirType.union W a b) ∧ W.WellFormed (HirType.inter W a b) ∧
      W.WellFormed (HirType.sub W a b) := by
  refine ⟨fun h v hv => hv.of_le h, fun v hv => Mem.union ha hb hv,
    fun v hv => Mem.inter ha hb hv.1 hv.2, fun v hv => Mem.sub hv.1 hv.2,
    fun v hv => mem_of_mem_sub hv, ?_, ha.union hb, ha.inter hb, ha.sub⟩
  intro hcouldBe v hv
  have hbottom : inter W a b = bottom := by
    simpa [couldBe] using hcouldBe
  exact bottom_not_mem (hbottom ▸ Mem.inter ha hb hv.1 hv.2)

/-- Three classes, the last one a subclass of the other two, and an instance of it. -/
def diamond : World (Fin 3) Unit where
  isSubtype c d := c = d ∨ c = 2
  isSubtype_refl := by decide
  isSubtype_trans := by decide
  pyType _ := 2
  basicBit _ := 31
  immortal _ := false
  tpName c := if c = 0 then "A" else if c = 1 then "B" else "C"
  address c := c.val
  builtin _ := false

theorem operators_over_approximate_diamond :
    diamond.WellFormed ⟨0x80000000#44, kLifetimeMortal, .type 0⟩ ∧
      diamond.WellFormed ⟨0x80000000#44, kLifetimeTop, .type 1⟩ ∧
      diamond.Mem (.object ()) (HirType.inter diamond
        ⟨0x80000000#44, kLifetimeMortal, .type 0⟩ ⟨0x80000000#44, kLifetimeTop, .type 1⟩) := by
  have ha : diamond.WellFormed ⟨0x80000000#44, kLifetimeMortal, .type 0⟩ :=
    ⟨by decide, by decide, show 0x80000000#44 &&& kPrimitive = 0#_ by decide⟩
  have hb : diamond.WellFormed ⟨0x80000000#44, kLifetimeTop, .type 1⟩ :=
    ⟨by decide, by decide, show 0x80000000#44 &&& kPrimitive = 0#_ by decide⟩
  have hva : diamond.Mem (.object ()) ⟨0x80000000#44, kLifetimeMortal, .type 0⟩ :=
    ⟨by decide, fun o _ => by cases o; decide, rfl⟩
  have hvb : diamond.Mem (.object ()) ⟨0x80000000#44, kLifetimeTop, .type 1⟩ :=
    ⟨by decide, fun o _ => by cases o; decide, rfl⟩
  exact ⟨ha, hb, (operators_over_approximate diamond _ _ ha hb).2.2.1 _ ⟨hva, hvb⟩⟩

end CinderX.Jit.Hir.World
