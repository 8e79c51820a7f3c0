import CinderX.Jit.Hir.TypeSound

/-!
# Laws of the type operators

The order on types and the laws of `|` and `&`.  They rest on the order of the
classes being antisymmetric and on different classes having different addresses.
-/

namespace CinderX.Jit.Hir.World

open HirType BitVec

variable {PyType PyObject : Type} [DecidableEq PyType] [DecidableEq PyObject]
variable {W : World PyType PyObject} {a b c : HirType PyType PyObject}

/-- What one specialization has to do with a larger one, apart from the two extreme ones. -/
def SpecLe (W : World PyType PyObject) (a b : HirType PyType PyObject) : Prop :=
  match a.spec, b.spec with
  | .type c, .type d | .typeExact c, .type d => W.isSubtype c d = true
  | .object o, .type d => W.isSubtype (W.pyType o) d = true
  | .typeExact c, .typeExact d => c = d
  | .object o, .typeExact d => W.pyType o = d
  | .object o, .object o' => o = o'
  | .int _, .int _ | .double _, .double _ => a = b
  | _, _ => False

theorem specSubtype_iff :
    HirType.specSubtype W a b = true ↔
      b.spec = .top ∨ a.spec = .bottom ∨ SpecLe W a b := by
  obtain ⟨aBits, aLifetime, aSpec⟩ := a
  obtain ⟨bBits, bLifetime, bSpec⟩ := b
  cases aSpec <;> cases bSpec <;>
    simp [specSubtype, hasSpec, hasIntSpec, hasDoubleSpec,
      hasObjectSpec, hasTypeExactSpec, objectSpec, typeSpec,
      pyTypeIsSubtype, SpecLe]

theorem specSubtype_refl (W : World PyType PyObject) (a : HirType PyType PyObject) :
    HirType.specSubtype W a a = true := by
  rw [specSubtype_iff]
  obtain ⟨bits, lifetime, spec⟩ := a
  cases spec <;> simp [SpecLe, W.isSubtype_refl]

omit [DecidableEq PyType] [DecidableEq PyObject] in
theorem SpecLe.trans (hab : SpecLe W a b) (hbc : SpecLe W b c) : SpecLe W a c := by
  have htrans := @W.isSubtype_trans
  obtain ⟨aBits, aLifetime, aSpec⟩ := a
  obtain ⟨bBits, bLifetime, bSpec⟩ := b
  obtain ⟨cBits, cLifetime, cSpec⟩ := c
  cases bSpec <;> cases aSpec <;> try simp [SpecLe] at hab
  all_goals cases cSpec <;> try simp [SpecLe] at hbc
  all_goals simp_all [SpecLe]
  all_goals exact htrans hab hbc

theorem specSubtype_trans (hab : HirType.specSubtype W a b = true)
    (hbc : HirType.specSubtype W b c = true) : HirType.specSubtype W a c = true := by
  rw [specSubtype_iff] at hab hbc ⊢
  obtain htop | hbottom | hbc := hbc
  · exact .inl htop
  · obtain htop | habottom | hab := hab
    · simp [htop] at hbottom
    · exact .inr (.inl habottom)
    · unfold SpecLe at hab
      split at hab <;> simp_all
  · obtain htop | habottom | hab := hab
    · unfold SpecLe at hbc
      split at hbc <;> simp_all
    · exact .inr (.inl habottom)
    · exact .inr (.inr (hab.trans hbc))

theorem le_refl (W : World PyType PyObject) (a : HirType PyType PyObject) :
    HirType.le W a a = true :=
  le_iff.mpr ⟨and_self, and_self, specSubtype_refl W a⟩

theorem subset_trans {n : Nat} {x y z : BitVec n} (hxy : x &&& y = x) (hyz : y &&& z = y) :
    x &&& z = x := by
  rw [← hxy, BitVec.and_assoc, hyz]

theorem le_trans (hab : HirType.le W a b = true) (hbc : HirType.le W b c = true) :
    HirType.le W a c = true := by
  obtain ⟨hbits, hlifetime, hspec⟩ := le_iff.mp hab
  obtain ⟨hbits', hlifetime', hspec'⟩ := le_iff.mp hbc
  exact le_iff.mpr ⟨subset_trans hbits hbits', subset_trans hlifetime hlifetime',
    specSubtype_trans hspec hspec'⟩

section

variable (hanti : ∀ {c d}, W.isSubtype c d = true → W.isSubtype d c = true → c = d)

include hanti

theorem spec_eq_of_specSubtype (ha : a.spec ≠ .bottom) (hb : b.spec ≠ .bottom)
    (hab : HirType.specSubtype W a b = true) (hba : HirType.specSubtype W b a = true) :
    a.spec = b.spec := by
  rw [specSubtype_iff] at hab hba
  obtain ⟨aBits, aLifetime, aSpec⟩ := a
  obtain ⟨bBits, bLifetime, bSpec⟩ := b
  cases aSpec <;> cases bSpec <;> simp_all [SpecLe]
  exact hanti hab hba

theorem le_antisymm (ha : W.WellFormed a) (hb : W.WellFormed b)
    (hab : HirType.le W a b = true) (hba : HirType.le W b a = true) : a = b := by
  obtain ⟨hbits, hlifetime, hspec⟩ := le_iff.mp hab
  obtain ⟨hbits', hlifetime', hspec'⟩ := le_iff.mp hba
  have hbitsEq : a.bits = b.bits := by rw [← hbits, BitVec.and_comm, hbits']
  have hlifetimeEq : a.lifetime = b.lifetime := by rw [← hlifetime, BitVec.and_comm, hlifetime']
  have hspecEq : a.spec = b.spec := by
    by_cases hbottom : a.bits = kBottom
    · rw [ha.spec_bottom.mpr hbottom, hb.spec_bottom.mpr (hbitsEq ▸ hbottom)]
    · exact spec_eq_of_specSubtype hanti (fun h => hbottom (ha.spec_bottom.mp h))
        (fun h => hbottom (hbitsEq ▸ hb.spec_bottom.mp h)) hspec hspec'
  obtain ⟨aBits, aLifetime, aSpec⟩ := a
  obtain ⟨bBits, bLifetime, bSpec⟩ := b
  simp_all

end

/-! ## Union and intersection -/

omit [DecidableEq PyType] [DecidableEq PyObject] in
theorem eq_of_objectSpec (ha : W.WellFormed a) (hb : W.WellFormed b) {o : PyObject}
    (hsa : a.spec = .object o) (hsb : b.spec = .object o) : a = b := by
  obtain ⟨aBits, aLifetime, aSpec⟩ := a
  obtain ⟨bBits, bLifetime, bSpec⟩ := b
  have haFits := ha.fits
  have hbFits := hb.fits
  simp_all [SpecFits]

omit [DecidableEq PyType] in
theorem objectSpec_eq_iff : (a.hasObjectSpec && b.hasObjectSpec &&
    (a.objectSpec = b.objectSpec)) = true ↔ ∃ o, a.spec = .object o ∧ b.spec = .object o := by
  obtain ⟨aBits, aLifetime, aSpec⟩ := a
  obtain ⟨bBits, bLifetime, bSpec⟩ := b
  cases aSpec <;> cases bSpec <;> simp [hasObjectSpec, objectSpec, eq_comm]

theorem union_self (W : World PyType PyObject) (a : HirType PyType PyObject) :
    HirType.union W a a = a := by
  simp [union, le_refl]

theorem bottom_le (W : World PyType PyObject) (a : HirType PyType PyObject) :
    HirType.le W HirType.bottom a = true :=
  le_iff.mpr ⟨by simp [bottom, kBottom], by simp [bottom, kLifetimeBottom],
    specSubtype_iff.mpr (.inr (.inl rfl))⟩

theorem bottom_union (W : World PyType PyObject) (a : HirType PyType PyObject) :
    HirType.union W HirType.bottom a = a := by
  simp [union, bottom_le]

def top : HirType PyType PyObject := ⟨0xfffffffffff#44, kLifetimeTop, .top⟩

omit [DecidableEq PyType] [DecidableEq PyObject] in
theorem canonical_self (ha : W.WellFormed a) : HirType.canonical a.bits a.lifetime =
    (a.bits, a.lifetime) := by
  unfold canonical
  split
  case isTrue h => rw [ha.lifetime_bottom.mpr h]
  case isFalse h =>
    rw [if_neg fun hbottom => h (ha.lifetime_bottom.mp hbottom)]

omit [DecidableEq PyType] [DecidableEq PyObject] in
theorem eq_bottom_of_bits (ha : W.WellFormed a) (h : a.bits = kBottom) : a = HirType.bottom := by
  have hlifetime := ha.lifetime_bottom.mpr (by simp [h, kBottom])
  have hspec := ha.spec_bottom.mpr h
  obtain ⟨bits, lifetime, spec⟩ := a
  simp_all [bottom]

theorem inter_eq_left (ha : W.WellFormed a) (h : HirType.le W a b = true) :
    HirType.inter W a b = a := by
  obtain ⟨hbits, hlifetime, hspec⟩ := le_iff.mp h
  unfold inter
  rw [hbits, hlifetime, canonical_self ha]
  simp only
  by_cases hbottom : a.bits = kBottom
  · rw [if_pos hbottom, eq_bottom_of_bits ha hbottom]
  · rw [if_neg hbottom, if_pos hspec]

theorem inter_self (ha : W.WellFormed a) : HirType.inter W a a = a :=
  inter_eq_left ha (le_refl W a)

theorem le_top (W : World PyType PyObject) (a : HirType PyType PyObject) :
    HirType.le W a top = true := by
  refine le_iff.mpr ⟨?_, ?_, specSubtype_iff.mpr (.inl rfl)⟩
  · exact and_allOnes
  · exact and_allOnes

theorem inter_top (ha : W.WellFormed a) : HirType.inter W a top = a :=
  inter_eq_left ha (le_top W a)

omit [DecidableEq PyType] [DecidableEq PyObject] in
theorem spec_ne_bottom (ha : W.WellFormed a) {bits : Bits} {lifetime : Lifetime}
    (hcanonical : HirType.canonical (a.bits &&& b.bits) (a.lifetime &&& b.lifetime) =
      (bits, lifetime)) (hbits : bits ≠ kBottom) : a.spec ≠ .bottom := by
  intro hspec
  refine hbits ?_
  have hzero := ha.spec_bottom.mp hspec
  have : a.bits &&& b.bits = 0#_ := by simp [hzero, kBottom]
  rw [this, canonical, if_pos (by simp)] at hcanonical
  exact (Prod.mk.inj hcanonical).1.symm

omit [DecidableEq PyType] [DecidableEq PyObject] in
theorem picksFirst_comm (haddress : ∀ {c d}, W.address c = W.address d → c = d)
    {typeA typeB : PyType} (hne : typeA ≠ typeB) :
    HirType.picksFirst W typeA typeB = !HirType.picksFirst W typeB typeA := by
  have haddr : W.address typeA ≠ W.address typeB := fun h => hne (haddress h)
  unfold picksFirst
  obtain hlt | heq | hgt := lt_trichotomy (W.tpName typeA) (W.tpName typeB)
  · simp [hlt, hlt.not_gt, hlt.ne']
  · obtain hlt | hgt := Nat.lt_or_gt_of_ne haddr
    · simp [heq, hlt, Nat.le_of_lt hlt]
    · simp [heq, hgt, Nat.not_lt_of_gt hgt]
  · simp [hgt, hgt.not_gt, hgt.ne']

section

variable (hanti : ∀ {c d}, W.isSubtype c d = true → W.isSubtype d c = true → c = d)

include hanti

theorem union_comm (ha : W.WellFormed a) (hb : W.WellFormed b) :
    HirType.union W a b = HirType.union W b a := by
  unfold union
  by_cases hab : le W a b = true
  · by_cases hba : le W b a = true
    · rw [le_antisymm hanti ha hb hab hba]
    · simp [hab, hba]
  · by_cases hba : le W b a = true
    · simp [hab, hba]
    · simp only [hab, hba, if_false, Bool.false_eq_true]
      rw [or_comm a.bits, or_comm a.lifetime]
      cases hA : a.typeSpec W with
      | none => cases hB : b.typeSpec W <;> rfl
      | some typeA =>
        cases hB : b.typeSpec W with
        | none => rfl
        | some typeB =>
          have hdiffer : ∀ o, ¬(a.spec = .object o ∧ b.spec = .object o) := by
            rintro o ⟨hsa, hsb⟩
            exact hab (eq_of_objectSpec ha hb hsa hsb ▸ le_refl W a)
          have hobject : (a.hasObjectSpec && b.hasObjectSpec &&
              decide (a.objectSpec = b.objectSpec)) = false := by
            rw [Bool.eq_false_iff, ne_eq, objectSpec_eq_iff]
            rintro ⟨o, ho⟩
            exact hdiffer o ho
          have hobject' : (b.hasObjectSpec && a.hasObjectSpec &&
              decide (b.objectSpec = a.objectSpec)) = false := by
            rw [Bool.eq_false_iff, ne_eq, objectSpec_eq_iff]
            rintro ⟨o, ho⟩
            exact hdiffer o ho.symm
          simp only [hobject, hobject', if_false, Bool.false_eq_true]
          rw [show (b.hasTypeExactSpec && a.hasTypeExactSpec && decide (typeB = typeA)) =
            (a.hasTypeExactSpec && b.hasTypeExactSpec && decide (typeA = typeB)) by
              rw [Bool.and_comm b.hasTypeExactSpec]; simp [eq_comm]]
          by_cases hAB : W.isSubtype typeA typeB = true
          · by_cases hBA : W.isSubtype typeB typeA = true
            · rw [hanti hAB hBA]
            · simp [hAB, hBA]
          · by_cases hBA : W.isSubtype typeB typeA = true
            · simp [hAB, hBA]
            · simp [hAB, hBA]

theorem inter_comm (haddress : ∀ {c d}, W.address c = W.address d → c = d)
    (ha : W.WellFormed a) (hb : W.WellFormed b) :
    HirType.inter W a b = HirType.inter W b a := by
  unfold inter
  rw [and_comm b.bits, and_comm b.lifetime]
  cases hcanonical : canonical (a.bits &&& b.bits) (a.lifetime &&& b.lifetime) with
  | mk bits lifetime =>
    simp only
    by_cases hbits : bits = kBottom
    · simp [hbits]
    have hsa := spec_ne_bottom ha hcanonical hbits
    have hsb := spec_ne_bottom hb (by rwa [and_comm b.bits, and_comm b.lifetime]) hbits
    simp only [hbits, if_false]
    by_cases hab : specSubtype W a b = true
    · by_cases hba : specSubtype W b a = true
      · rw [if_pos hab, if_pos hba, spec_eq_of_specSubtype hanti hsa hsb hab hba]
      · simp [hab, hba]
    · by_cases hba : specSubtype W b a = true
      · simp [hab, hba]
      · simp only [hab, hba, if_false, Bool.false_eq_true]
        cases hspecA : a.spec with
        | type typeA =>
          cases hspecB : b.spec with
          | type typeB =>
            have hne : typeA ≠ typeB := by
              rintro rfl
              exact hab (specSubtype_iff.mpr (.inr (.inr (by
                simp [SpecLe, hspecA, hspecB, W.isSubtype_refl]))))
            simp only [picksFirst_comm haddress hne]
            cases picksFirst W typeB typeA <;> rfl
          | _ => rfl
        | _ => cases b.spec <;> rfl

end

theorem specSubtype_of_spec_eq (hspec : a.spec = b.spec)
    (h : HirType.specSubtype W b a = true) : HirType.specSubtype W a b = true := by
  rw [specSubtype_iff] at h ⊢
  obtain htop | hbottom | h := h
  · exact .inl (hspec ▸ htop)
  · exact .inr (.inl (hspec ▸ hbottom))
  · obtain ⟨aBits, aLifetime, aSpec⟩ := a
    obtain ⟨bBits, bLifetime, bSpec⟩ := b
    obtain rfl : aSpec = bSpec := hspec
    cases aSpec <;> simp_all [SpecLe]

theorem le_of_inter_eq_left (h : HirType.inter W a b = a) :
    HirType.le W a b = true ∨
      ∃ typeA typeB, a.spec = .type typeA ∧ b.spec = .type typeB ∧
        W.isSubtype typeA typeB = false ∧ W.isSubtype typeB typeA = false ∧
        HirType.picksFirst W typeA typeB = true := by
  unfold inter at h
  cases hcanonical : canonical (a.bits &&& b.bits) (a.lifetime &&& b.lifetime) with
  | mk bits lifetime =>
    obtain ⟨hbits, hlifetime, -⟩ := canonical_spec _ _ hcanonical
    rw [hcanonical] at h
    simp only at h
    split at h
    case isTrue hbottom =>
      rw [← h]
      exact .inl (bottom_le W b)
    case isFalse hne =>
      have hle : a.bits = bits → a.lifetime = lifetime → specSubtype W a b = true →
          le W a b = true := by
        rintro rfl rfl hspec
        refine le_iff.mpr ⟨and_eq_left_iff.mpr fun i hi => ?_,
          and_eq_left_iff.mpr fun i hi => ?_, hspec⟩
        · have := hbits i hi
          simp only [getLsbD_and, Bool.and_eq_true] at this
          exact this.2
        · have := hlifetime i hi
          simp only [getLsbD_and, Bool.and_eq_true] at this
          exact this.2
      split at h
      case isTrue hab =>
        exact .inl (hle (by rw [← h]) (by rw [← h]) hab)
      case isFalse hab =>
        split at h
        case isTrue hba =>
          exact absurd (specSubtype_of_spec_eq (by rw [← h]) hba) hab
        case isFalse hba =>
          split at h
          case h_1 typeA typeB hA hB =>
            split at h
            case isTrue hpick =>
              rw [specSubtype_iff] at hab hba
              refine .inr ⟨typeA, typeB, hA, hB, ?_, ?_, hpick⟩
              · by_contra hsub
                exact hab (.inr (.inr (by simpa [SpecLe, hA, hB] using hsub)))
              · by_contra hsub
                exact hba (.inr (.inr (by simpa [SpecLe, hA, hB] using hsub)))
            case isFalse hpick =>
              have : a.spec = .type typeB := by rw [← h]
              obtain rfl : typeA = typeB := by simpa [hA] using this
              exact absurd (specSubtype_of_spec_eq (by rw [hA, hB])
                (specSubtype_iff.mpr (.inr (.inr (by
                  simp [SpecLe, hA, hB, W.isSubtype_refl]))))) hab
          case h_2 =>
            rw [← h]
            exact .inl (bottom_le W b)

theorem couldBe_of_le (ha : W.WellFormed a) (h : HirType.le W a b = true)
    (hne : a ≠ HirType.bottom) : HirType.couldBe W a b = true := by
  simp [couldBe, inter_eq_left ha h, hne]

end CinderX.Jit.Hir.World
