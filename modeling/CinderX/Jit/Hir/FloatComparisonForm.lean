import CinderX.Jit.Hir.FloatComparison

/-!
# The result of float comparison simplification

Every instruction is kept, dropped or, if it is a truth test, replaced by three.
The verifier accepts the result, unless the output of a `FloatCompare` that is
removed is copied by an `Assign` or kept by a frame state: neither counts as a
use.
-/

namespace CinderX.Jit.Hir

open Foundation List Instr Hir.Function

variable {n : Nat} {f : Function n} {allocated : Nat → Register n}

structure Function.Fresh (f : Function n) (allocated : Nat → Register n) : Prop where
  injective : ∀ i < 2 * f.fusions.length, ∀ j < 2 * f.fusions.length,
    allocated i = allocated j → i = j
  unused : ∀ i < 2 * f.fusions.length, ∀ instr ∈ f.instrs,
    instr.output ≠ some (allocated i) ∧ allocated i ∉ instr.visitUses

/-- Whatever uses the output of the `FloatCompare` has it as an operand and is no `Assign`. -/
def Function.UsedAsOperand (f : Function n) (fusion : Fusion n) : Prop :=
  ∀ instr ∈ f.instrs, fusion.removed ∈ instr.visitUses →
    fusion.removed ∈ instr.operands ∧ instr.opcode ≠ .kAssign

instance (fusion : Fusion n) : Decidable (f.UsedAsOperand fusion) :=
  inferInstanceAs (Decidable (∀ instr ∈ f.instrs, _))

/-! ## What becomes of an instruction -/

inductive Function.Fused (f : Function n) (allocated : Nat → Register n) (instr : Instr n) :
    List (Instr n) → Prop
  | kept (htest : ∀ fusion ∈ f.fusions, instr ≠ fusion.test)
      (hcompare : ∀ fusion ∈ f.fusions, instr ≠ fusion.compare)
      (hdecref : ∀ fusion ∈ f.fusions, instr.isDecref = true → fusion.removed ∉ instr.operands) :
      Fused f allocated instr [instr]
  | compare (fusion : Fusion n) (hmem : fusion ∈ f.fusions) (heq : instr = fusion.compare) :
      Fused f allocated instr []
  | decref (fusion : Fusion n) (hmem : fusion ∈ f.fusions) (hdecref : instr.isDecref = true)
      (huse : fusion.removed ∈ instr.operands) : Fused f allocated instr []
  | test (fusion : Fusion n) (hmem : fusion ∈ f.fusions) (heq : instr = fusion.test) (index : Nat)
      (hindex : f.fusions[index]? = some fusion) :
      Fused f allocated instr
        [.primitiveUnbox (allocated (2 * index)) fusion.left TCDouble,
          .primitiveUnbox (allocated (2 * index + 1)) fusion.right TCDouble,
          .primitiveCompare fusion.output fusion.newOp (allocated (2 * index))
            (allocated (2 * index + 1))]

section

variable (hcreated : ∀ instr ∈ f.instrs, instr.Created)

include hcreated

theorem Function.fused_fuse {instr : Instr n} (hinstr : instr ∈ f.instrs) :
    f.Fused allocated instr (f.fuse allocated instr) := by
  unfold fuse
  cases hfusion : f.fusion? instr with
  | some fusion =>
    have hmem : fusion ∈ f.fusions := mem_filterMap.mpr ⟨instr, hinstr, hfusion⟩
    obtain ⟨htest, -⟩ := fuses_of_fusion? hcreated hinstr hfusion
    exact .test fusion hmem htest.symm _ (getElem?_idxOf hmem)
  | none =>
    simp only
    split
    case isTrue hany =>
      obtain ⟨fusion, hmem, heq | ⟨hdecref, huse⟩⟩ := hany
      · exact .compare fusion hmem heq
      · exact .decref fusion hmem hdecref huse
    case isFalse hnone =>
      simp only [not_exists, not_and, not_or] at hnone
      refine .kept (fun fusion hmem heq => ?_) (fun fusion hmem => (hnone fusion hmem).1)
        fun fusion hmem => (hnone fusion hmem).2
      have := (fuses_of_mem hcreated hmem).2.1
      simp [← heq, hfusion] at this

end

namespace Function.Fused

variable {instr : Instr n} {out : List (Instr n)} (hfused : f.Fused allocated instr out)

include hfused

theorem opcode_cases (hcreated : ∀ instr ∈ f.instrs, instr.Created) : out = [instr] ∨
    instr.opcode = .kFloatCompare ∨ instr.opcode = .kPrimitiveCompare ∨ instr.isDecref = true := by
  cases hfused with
  | kept => exact .inl rfl
  | compare fusion hmem heq =>
    obtain ⟨op, hcompare, -⟩ := (fuses_of_mem hcreated hmem).2.2.compare_eq
    exact .inr (.inl (by rw [heq, hcompare]; rfl))
  | decref fusion hmem hdecref => exact .inr (.inr (.inr hdecref))
  | test fusion hmem heq =>
    obtain ⟨output, op, left, right, htest, -⟩ := (fuses_of_mem hcreated hmem).2.2.tests.test_eq
    exact .inr (.inr (.inl (by rw [heq, htest]; rfl)))

theorem mem_cases {instr' : Instr n} (hmem : instr' ∈ out) : instr' = instr ∧ out = [instr] ∨
    instr'.opcode = .kPrimitiveUnbox ∨ instr'.opcode = .kPrimitiveCompare := by
  cases hfused with
  | kept => exact .inl ⟨by simpa using hmem, rfl⟩
  | compare | decref => simp at hmem
  | test fusion =>
    simp only [mem_cons, not_mem_nil, or_false] at hmem
    obtain rfl | rfl | rfl := hmem
    · exact .inr (.inl rfl)
    · exact .inr (.inl rfl)
    · exact .inr (.inr rfl)

theorem successors_eq_nil (hnil : instr.successors = []) : out.flatMap Instr.successors = [] := by
  cases hfused with
  | kept => simpa using hnil
  | compare | decref => rfl
  | test => rfl

end Function.Fused

theorem fuseIn_append (instrs rest : List (Instr n)) :
    fuseIn f allocated (instrs ++ rest) = fuseIn f allocated instrs ++ fuseIn f allocated rest := by
  simp [fuseIn]

structure Function.Fusable (f : Function n) (allocated : Nat → Register n) : Prop where
  wellFormed : WellFormed f
  wellShaped : ∀ instr ∈ f.instrs, instr.WellShaped
  created : ∀ instr ∈ f.instrs, instr.Created
  fresh : f.Fresh allocated

namespace Function.Fusable

variable {index : Nat} {fusion : Fusion n}

theorem lt_of_getElem? (hindex : f.fusions[index]? = some fusion) :
    2 * index < 2 * f.fusions.length ∧ 2 * index + 1 < 2 * f.fusions.length := by
  have := (List.getElem?_eq_some_iff.mp hindex).1
  omega

variable (h : f.Fusable allocated)

include h

variable {instr : Instr n}

theorem fused (hinstr : instr ∈ f.instrs) :
    f.Fused allocated instr (f.fuse allocated instr) := fused_fuse h.created hinstr

theorem fuse_eq_self (hinstr : instr ∈ f.instrs) (hcompare : instr.opcode ≠ .kFloatCompare)
    (htest : instr.opcode ≠ .kPrimitiveCompare) (hdecref : instr.isDecref = false) :
    f.fuse allocated instr = [instr] := by
  obtain heq | hop | hop | hop := (h.fused hinstr).opcode_cases h.created
  · exact heq
  · exact absurd hop hcompare
  · exact absurd hop htest
  · simp [hdecref] at hop

theorem fuse_of_isTerminator (hinstr : instr ∈ f.instrs)
    (hterm : instr.opcode.isTerminator = true) : f.fuse allocated instr = [instr] := by
  refine h.fuse_eq_self hinstr ?_ ?_ ?_
  · rintro hop; simp [hop, Opcode.isTerminator] at hterm
  · rintro hop; simp [hop, Opcode.isTerminator] at hterm
  · cases hop : instr.opcode <;> simp_all [isDecref, Opcode.isTerminator]

theorem fuse_of_isPhi (hinstr : instr ∈ f.instrs) (hphi : instr.isPhi = true) :
    f.fuse allocated instr = [instr] := by
  have hopcode : instr.opcode = .kPhi := by simpa [isPhi] using hphi
  exact h.fuse_eq_self hinstr (by simp [hopcode]) (by simp [hopcode]) (by simp [isDecref, hopcode])

theorem successors_fuse (hinstr : instr ∈ f.instrs) :
    (f.fuse allocated instr).flatMap Instr.successors = instr.successors := by
  obtain hnil | hne := eq_or_ne instr.successors []
  · rw [hnil, (h.fused hinstr).successors_eq_nil hnil]
  · have hterm := (h.wellShaped instr hinstr).successors hne
    simp [h.fuse_of_isTerminator hinstr hterm]

theorem keepsEdges : f.KeepsEdges fun block => fuseIn f allocated block.instrs := by
  intro block hblock
  have hall : ∀ instr ∈ block.instrs, instr ∈ f.instrs :=
    fun instr hinstr => mem_instrs.mpr ⟨block, hblock, hinstr⟩
  simp only [fuseIn, BasicBlock.outEdges, flatMap_assoc]
  exact flatMap_congr fun instr hinstr => h.successors_fuse (hall instr hinstr)

theorem fuseIn_phis {phis : List (Instr n)} (hall : ∀ phi ∈ phis, phi ∈ f.instrs)
    (hphis : ∀ phi ∈ phis, phi.isPhi = true) : fuseIn f allocated phis = phis := by
  have heq : ∀ phi ∈ phis, f.fuse allocated phi = [phi] :=
    fun phi hphi => h.fuse_of_isPhi (hall phi hphi) (hphis phi hphi)
  rw [fuseIn, flatMap_congr heq, flatMap_singleton']

theorem shaped_fuseIn {instrs : List (Instr n)} (hall : ∀ instr ∈ instrs, instr ∈ f.instrs)
    (hshaped : Shaped instrs) : Shaped (fuseIn f allocated instrs) := by
  cases hshaped with
  | mk phis middle last hphis hmiddle hlast =>
    have hself : fuseIn f allocated phis = phis :=
      h.fuseIn_phis (fun phi hphi => hall phi (by simp [hphi])) hphis
    have hend : fuseIn f allocated [last] = [last] := by
      simp [fuseIn, h.fuse_of_isTerminator (hall last (by simp)) hlast]
    rw [fuseIn_append, fuseIn_append, hself, hend]
    refine .mk _ _ _ hphis (fun instr hinstr => ?_) hlast
    obtain ⟨old, hold, hmem⟩ := mem_flatMap.mp hinstr
    obtain ⟨rfl, -⟩ | hop | hop := (h.fused (hall old (by simp [hold]))).mem_cases hmem
    · exact hmiddle instr hold
    · simp [isPhi, hop, Opcode.isTerminator]
    · simp [isPhi, hop, Opcode.isTerminator]

variable {reg : Register n}

theorem mem_definedBy_fuseIn {instrs : List (Instr n)} (hall : ∀ instr ∈ instrs, instr ∈ f.instrs)
    (hkept : ∀ fusion ∈ f.fusions, fusion.removed ≠ reg) (hreg : reg ∈ definedBy instrs) :
    reg ∈ definedBy (fuseIn f allocated instrs) := by
  obtain ⟨d, hd, houtput⟩ := mem_filterMap.mp hreg
  suffices hdefines : ∃ other ∈ f.fuse allocated d, other.output = some reg by
    obtain ⟨other, hother, hout⟩ := hdefines
    exact mem_filterMap.mpr ⟨other, mem_flatMap.mpr ⟨d, hd, hother⟩, hout⟩
  have hfused := h.fused (hall d hd)
  generalize f.fuse allocated d = out at hfused
  cases hfused with
  | kept => exact ⟨d, by simp, houtput⟩
  | compare fusion hmem heq =>
    obtain ⟨op, hcompare, -⟩ := (fuses_of_mem h.created hmem).2.2.compare_eq
    refine absurd ?_ (hkept fusion hmem)
    simpa [heq, hcompare, floatCompare] using houtput
  | decref fusion hmem hdecref =>
    simp [((h.created d (hall d hd)).decref hdecref).1] at houtput
  | test fusion hmem heq index hindex =>
    have hout := (fuses_of_mem h.created hmem).2.2.output
    refine ⟨_, mem_cons_of_mem _ (mem_cons_of_mem _ mem_cons_self), ?_⟩
    rw [← heq, houtput] at hout
    exact hout.symm

theorem definedAt_fuseIn {id : BlockId} {pre : List (Instr n)}
    (hall : ∀ instr ∈ pre, instr ∈ f.instrs) (hkept : ∀ fusion ∈ f.fusions, fusion.removed ≠ reg)
    (hreg : f.DefinedAt id pre reg) :
    (f.mapBlocks fun block => fuseIn f allocated block.instrs).DefinedAt id
      (fuseIn f allocated pre) reg := by
  refine definedAt_mapBlocks h.keepsEdges (fun block hblock hout => ?_) ?_ hreg
  · exact h.mem_definedBy_fuseIn
      (fun instr hinstr => mem_instrs.mpr ⟨block, hblock, hinstr⟩) hkept hout
  · exact h.mem_definedBy_fuseIn hall hkept

theorem mem_definedBy_fuse (hinstr : instr ∈ f.instrs)
    (hreg : reg ∈ definedBy (f.fuse allocated instr)) : instr.output = some reg ∨
      ∃ fusion ∈ f.fusions, instr = fusion.test ∧ ∃ index, f.fusions[index]? = some fusion ∧
        (reg = allocated (2 * index) ∨ reg = allocated (2 * index + 1)) := by
  have hfused := h.fused hinstr
  generalize f.fuse allocated instr = out at hfused hreg
  cases hfused with
  | kept => exact .inl (by simpa [definedBy] using hreg)
  | compare | decref => simp [definedBy] at hreg
  | test fusion hmem heq index hindex =>
    have hout := (fuses_of_mem h.created hmem).2.2.output
    simp only [definedBy, primitiveUnbox, primitiveCompare, filterMap_cons,
      filterMap_nil, mem_cons, not_mem_nil, or_false] at hreg
    obtain hreg | hreg | rfl := hreg
    · exact .inr ⟨fusion, hmem, heq, index, hindex, .inl hreg⟩
    · exact .inr ⟨fusion, hmem, heq, index, hindex, .inr hreg⟩
    · exact .inl (heq ▸ hout)

theorem nodup_definedBy_fuse (hinstr : instr ∈ f.instrs) :
    (definedBy (f.fuse allocated instr)).Nodup := by
  have hfused := h.fused hinstr
  generalize f.fuse allocated instr = out at hfused
  cases hfused with
  | kept => cases hout : instr.output <;> simp [definedBy, hout]
  | compare | decref => exact nodup_nil
  | test fusion hmem heq index hindex =>
    obtain ⟨hleft, hright⟩ := lt_of_getElem? hindex
    have hout := (fuses_of_mem h.created hmem).2.2.output
    have hne : allocated (2 * index) ≠ allocated (2 * index + 1) := fun hsame => by
      have := h.fresh.injective _ hleft _ hright hsame
      omega
    have hneLeft : allocated (2 * index) ≠ fusion.output := fun hsame =>
      (h.fresh.unused _ hleft instr hinstr).1 (heq ▸ hsame ▸ hout)
    have hneRight : allocated (2 * index + 1) ≠ fusion.output := fun hsame =>
      (h.fresh.unused _ hright instr hinstr).1 (heq ▸ hsame ▸ hout)
    simp [definedBy, primitiveUnbox, primitiveCompare, hne, hneLeft, hneRight]

theorem index_unique {index' : Nat} {fusion' : Fusion n}
    (hindex : f.fusions[index]? = some fusion) (hindex' : f.fusions[index']? = some fusion')
    (hreg : reg = allocated (2 * index) ∨ reg = allocated (2 * index + 1))
    (hreg' : reg = allocated (2 * index') ∨ reg = allocated (2 * index' + 1)) :
    fusion = fusion' := by
  obtain ⟨hleft, hright⟩ := lt_of_getElem? hindex
  obtain ⟨hleft', hright'⟩ := lt_of_getElem? hindex'
  suffices hsame : index = index' by
    rw [hsame, hindex'] at hindex
    exact (Option.some.inj hindex).symm
  obtain hreg | hreg := hreg <;> obtain hreg' | hreg' := hreg'
  · have := h.fresh.injective _ hleft _ hleft' (hreg.symm.trans hreg')
    omega
  · have := h.fresh.injective _ hleft _ hright' (hreg.symm.trans hreg')
    omega
  · have := h.fresh.injective _ hright _ hleft' (hreg.symm.trans hreg')
    omega
  · have := h.fresh.injective _ hright _ hright' (hreg.symm.trans hreg')
    omega

theorem unused (hindex : f.fusions[index]? = some fusion)
    (hreg : reg = allocated (2 * index) ∨ reg = allocated (2 * index + 1))
    (hinstr : instr ∈ f.instrs) : instr.output ≠ some reg ∧ reg ∉ instr.visitUses := by
  obtain ⟨hleft, hright⟩ := lt_of_getElem? hindex
  obtain rfl | rfl := hreg
  · exact h.fresh.unused _ hleft instr hinstr
  · exact h.fresh.unused _ hright instr hinstr

theorem nodup_outputs : ((f.mapBlocks fun block => fuseIn f allocated block.instrs).blocks.flatMap
    BasicBlock.outputs).Nodup := by
  have heq : (f.mapBlocks fun block => fuseIn f allocated block.instrs).blocks.flatMap
      BasicBlock.outputs = f.instrs.flatMap fun instr => definedBy (f.fuse allocated instr) := by
    simp only [mapBlocks, instrs, flatMap_map, flatMap_assoc,
      BasicBlock.outputs, fuseIn, definedBy, filterMap_flatMap]
  have hnodup : (f.instrs.filterMap output).Nodup := by
    rw [instrs, filterMap_flatMap]
    exact h.wellFormed.nodup_outputs
  rw [heq]
  refine nodup_flatMap.mpr ⟨fun instr hinstr => h.nodup_definedBy_fuse hinstr, ?_⟩
  refine (pairwise_filterMap.mp hnodup).imp_of_mem fun {a b} ha hb hdistinct reg hrega hregb => ?_
  obtain hout | ⟨fusion, hmem, rfl, index, hindex, hnew⟩ := h.mem_definedBy_fuse ha hrega
  · obtain hout' | ⟨fusion, hmem, rfl, index, hindex, hnew⟩ := h.mem_definedBy_fuse hb hregb
    · exact hdistinct reg hout reg hout' rfl
    · exact (h.unused hindex hnew ha).1 hout
  · obtain hout' | ⟨fusion', hmem', rfl, index', hindex', hnew'⟩ := h.mem_definedBy_fuse hb hregb
    · exact (h.unused hindex hnew hb).1 hout'
    · obtain rfl := h.index_unique hindex hindex' hnew hnew'
      have hout := (fuses_of_mem h.created hmem).2.2.output
      exact hdistinct _ hout _ hout rfl

section

variable (hcond : ∀ fusion ∈ f.fusions, f.UsedAsOperand fusion)

variable {fusion : Fusion n}

include hcond in
theorem uses_removed (hmem : fusion ∈ f.fusions) {instr : Instr n} (hinstr : instr ∈ f.instrs)
    (huse : fusion.removed ∈ instr.visitUses) :
    instr.isDecref = true ∧ fusion.removed ∈ instr.operands ∨ instr = fusion.test := by
  obtain ⟨hoperand, hassign⟩ := hcond fusion hmem instr hinstr huse
  obtain hdecref | htest | hassign' := (fuses_of_mem h.created hmem).2.2.users instr hinstr hoperand
  · exact .inl ⟨hdecref, hoperand⟩
  · exact .inr htest
  · exact absurd hassign' hassign

variable {reg : Register n}

include hcond in
theorem ne_of_mem_operands (hmem : fusion ∈ f.fusions)
    (hreg : reg = fusion.left ∨ reg = fusion.right) :
    ∀ fusion' ∈ f.fusions, fusion'.removed ≠ reg := by
  rintro fusion' hmem' rfl
  have hfuses := (fuses_of_mem h.created hmem).2.2
  obtain ⟨op, hcompare, -⟩ := hfuses.compare_eq
  obtain ⟨block, hblock, hin, -⟩ := hfuses.tests.sameBlock
  have huse : fusion'.removed ∈ fusion.compare.visitUses := by
    simp only [hcompare, floatCompare, visitUses, mem_append, mem_cons]
    tauto
  obtain ⟨hdecref, -⟩ | htest := h.uses_removed hcond hmem'
    (mem_instrs.mpr ⟨block, hblock, hin⟩) huse
  · simp [hcompare, isDecref, floatCompare] at hdecref
  · obtain ⟨output, op', left, right, heq, -⟩ :=
      (fuses_of_mem h.created hmem').2.2.tests.test_eq
    have hopcode := congrArg opcode (hcompare.symm.trans (htest.trans heq))
    simp [floatCompare, primitiveCompare] at hopcode

include hcond in
theorem uses_kept {instr : Instr n} (hinstr : instr ∈ f.instrs)
    (htest : ∀ fusion ∈ f.fusions, instr ≠ fusion.test)
    (hdecref : ∀ fusion ∈ f.fusions, instr.isDecref = true → fusion.removed ∉ instr.operands)
    (hreg : reg ∈ instr.visitUses) :
    ∀ fusion ∈ f.fusions, fusion.removed ≠ reg := by
  rintro fusion hmem rfl
  obtain ⟨hisDecref, hoperand⟩ | heq := h.uses_removed hcond hmem hinstr hreg
  · exact hdecref fusion hmem hisDecref hoperand
  · exact htest fusion hmem heq

include hcond in
theorem uses_phi {phi : Instr n} (hphi : phi ∈ f.instrs) (hisPhi : phi.isPhi = true)
    (hreg : reg ∈ phi.operands) : ∀ fusion ∈ f.fusions, fusion.removed ≠ reg := by
  rintro fusion hmem rfl
  have hopcode : phi.opcode = .kPhi := by simpa [isPhi] using hisPhi
  obtain ⟨hdecref, -⟩ | heq := h.uses_removed hcond hmem hphi (operands_subset_visitUses hreg)
  · simp [isDecref, hopcode] at hdecref
  · obtain ⟨output, op, left, right, htest, -⟩ := (fuses_of_mem h.created hmem).2.2.tests.test_eq
    simp [heq, htest, primitiveCompare] at hopcode

theorem definedAt_operands (hmem : fusion ∈ f.fusions) {block : BasicBlock n}
    {pre : List (Instr n)} (hpos : f.Position block pre fusion.test)
    (hreg : reg = fusion.left ∨ reg = fusion.right) :
    f.DefinedAt block.id pre reg := by
  have hfuses := (fuses_of_mem h.created hmem).2.2
  obtain ⟨output, op, left, right, htest, hleft, -⟩ := hfuses.tests.test_eq
  obtain ⟨cmp, hcompare, -⟩ := hfuses.compare_eq
  obtain ⟨home, hhome, hin, -⟩ := hfuses.tests.sameBlock
  obtain ⟨post, heq⟩ := hpos.split
  have hpre := (instrsOf_of_mem hpos.mem).trans heq
  have hdefined : f.DefinedAt block.id pre left := by
    refine h.wellFormed.operands block hpos.mem pre _ post heq ?_ left ?_
    · simp [htest, isPhi, primitiveCompare]
    · simp [htest, primitiveCompare]
  have hchain : Relation.ReflTransGen f.DependsOn left reg := by
    refine .tail (h.wellFormed.propagatedTo_chain left) ⟨fusion.compare,
      mem_instrs.mpr ⟨home, hhome, hin⟩, ?_, hleft, ?_⟩
    · simp [hcompare, isPhi, floatCompare]
    · simpa [hcompare, floatCompare] using hreg
  exact h.wellFormed.definedAt_of_dependsOn_chain hchain hpre hdefined

include hcond in
theorem wellFormed_fuseIn : WellFormed
    (f.mapBlocks fun block => fuseIn f allocated block.instrs) := by
  have hf := h.wellFormed
  have hall : ∀ {block : BasicBlock n}, block ∈ f.blocks → ∀ instr ∈ block.instrs,
      instr ∈ f.instrs :=
    fun hblock instr hinstr => mem_instrs.mpr ⟨_, hblock, hinstr⟩
  refine .of_shaped (wellFormedCFG_mapBlocks h.keepsEdges hf.cfg) h.nodup_outputs ?_ ?_ ?_ ?_
  · intro block hblock
    obtain ⟨old, hold, rfl⟩ := mem_mapBlocks.mp hblock
    exact h.shaped_fuseIn (hall hold) (hf.shaped hold)
  · intro block hblock pre instr post heq hload
    obtain ⟨old, hold, rfl⟩ := mem_mapBlocks.mp hblock
    obtain ⟨pre', source, post', front, back, heq', hfuse, rfl⟩ := flatMap_eq_append_cons heq
    have hsource : source ∈ f.instrs := hall hold source (by simp [heq'])
    have hmem : instr ∈ f.fuse allocated source := by simp [hfuse]
    obtain ⟨rfl, hself⟩ | hop | hop := (h.fused hsource).mem_cases hmem
    · obtain rfl : front = [] := by
        rw [hself] at hfuse
        cases front with
        | nil => rfl
        | cons a front => simp at hfuse
      obtain ⟨hentry, hprologue⟩ := hf.prologue old hold pre' instr post' heq' hload
      refine ⟨hentry, fun other hother => ?_⟩
      rw [append_nil] at hother
      obtain ⟨first, hfirst, hin⟩ := mem_flatMap.mp hother
      have hload := hprologue first hfirst
      have heq := h.fuse_eq_self (hall hold first (by simp [heq', hfirst]))
        (by rintro hop; simp [isPrologueLoad, hop] at hload)
        (by rintro hop; simp [isPrologueLoad, hop] at hload)
        (by simp only [isPrologueLoad, Bool.or_eq_true, decide_eq_true_eq] at hload
            obtain (hop | hop) | hop := hload <;> simp [isDecref, hop])
      rw [heq, mem_singleton] at hin
      exact hin ▸ hload
    · simp [isPrologueLoad, hop] at hload
    · simp [isPrologueLoad, hop] at hload
  · intro block hblock pre instr post heq hphi reg hreg
    obtain ⟨old, hold, rfl⟩ := mem_mapBlocks.mp hblock
    obtain ⟨pre', source, post', front, back, heq', hfuse, rfl⟩ := flatMap_eq_append_cons heq
    have hsource : source ∈ f.instrs := hall hold source (by simp [heq'])
    have hpre : ∀ other ∈ pre', other ∈ f.instrs :=
      fun other hother => hall hold other (by simp [heq', hother])
    have hfused := h.fused hsource
    rw [hfuse] at hfused
    generalize hout : front ++ instr :: back = out at hfused
    cases hfused with
    | kept htest hcompare hdecref =>
      obtain ⟨rfl, rfl, rfl⟩ : front = [] ∧ instr = source ∧ back = [] := by
        simpa [append_eq_singleton_iff] using hout
      rw [append_nil]
      exact h.definedAt_fuseIn hpre
        (h.uses_kept hcond hsource htest hdecref (operands_subset_visitUses hreg))
        (hf.operands old hold pre' instr post' heq' hphi reg hreg)
    | compare | decref => simp at hout
    | test fusion hmem htest index hindex =>
      subst htest
      have hoperand : ∀ reg, reg = fusion.left ∨ reg = fusion.right →
          (f.mapBlocks fun block => fuseIn f allocated block.instrs).DefinedAt old.id
            (fuseIn f allocated pre' ++ front) reg := fun reg hreg =>
        (h.definedAt_fuseIn hpre (h.ne_of_mem_operands hcond hmem hreg)
          (h.definedAt_operands hmem ⟨hold, post', heq'⟩ hreg)).mono
            (subset_append_left _ _)
      -- one case for each of the three instructions
      rcases front with _ | ⟨first, _ | ⟨second, _ | ⟨third, front⟩⟩⟩
      · obtain ⟨rfl, -⟩ := List.cons.inj hout
        exact hoperand reg (.inl (by simpa [primitiveUnbox] using hreg))
      · obtain ⟨-, htail⟩ := List.cons.inj hout
        obtain ⟨rfl, -⟩ := List.cons.inj htail
        exact hoperand reg (.inr (by simpa [primitiveUnbox] using hreg))
      · obtain ⟨rfl, htail⟩ := List.cons.inj hout
        obtain ⟨rfl, hlast⟩ := List.cons.inj htail
        obtain ⟨rfl, -⟩ := List.cons.inj hlast
        refine fun walked _ => .inr ?_
        have hnew : reg = allocated (2 * index) ∨ reg = allocated (2 * index + 1) := by
          simpa [primitiveCompare] using hreg
        simpa [definedBy, primitiveUnbox] using .inr hnew
      · simp at hout
  · intro block hblock phi hphi hisPhi
    obtain ⟨old, hold, rfl⟩ := mem_mapBlocks.mp hblock
    obtain ⟨source, hin, hmem⟩ := mem_flatMap.mp hphi
    obtain ⟨rfl, -⟩ | hop | hop := (h.fused (hall hold source hin)).mem_cases hmem
    · obtain ⟨hne, hpreds⟩ := hf.phi old hold phi hin hisPhi
      refine ⟨hne, fun pred hpred => ?_, fun pair hpair => ?_⟩
      · rw [inEdges_mapBlocks h.keepsEdges]
        exact hpreds pred hpred
      · obtain ⟨pred, hpredMem, hid, hdefined⟩ := hf.exists_phi_source hold hin hisPhi hpair
        rw [← hid, instrsOf_mapBlocks hpredMem]
        refine h.definedAt_fuseIn (hall hpredMem) ?_ hdefined
        exact h.uses_phi hcond (hall hold phi hin) hisPhi (of_mem_zip hpair).2
    · simp [isPhi, hop] at hisPhi
    · simp [isPhi, hop] at hisPhi

end

end Function.Fusable

end CinderX.Jit.Hir
