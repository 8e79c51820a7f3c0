import CinderX.Jit.Hir.SsaSound

/-!
# Functions in SSA form

What passes may rely on: the verifier accepts the function, and what it does
not look at is in order too, namely the registers of frame states and that phis
have an operand for every predecessor.
-/

namespace CinderX.Jit.Hir

open Foundation List Hir.Function

variable {n : Nat} {f : Function n}

structure Instr.WellShaped (instr : Instr n) : Prop where
  output : instr.opcode.isTerminator = true → instr.output = none
  edges : instr.successors.length = instr.opcode.numEdges
  phi : instr.isPhi = true → instr.visitUses = instr.operands
  phi_output : instr.isPhi = true → instr.output.isSome = true
  assign : instr.opcode = .kAssign → instr.output.isSome = true ∧ instr.operands.length = 1
  snapshot : instr.opcode = .kSnapshot → instr.output = none

theorem Instr.WellShaped.successors {instr : Instr n} (h : instr.WellShaped)
    (hne : instr.successors ≠ []) : instr.opcode.isTerminator = true := by
  have hlength := h.edges
  have hpos := length_pos_iff.mpr hne
  cases hopcode : instr.opcode <;> simp_all [Opcode.numEdges, Opcode.isTerminator]

structure InSsaForm (f : Function n) : Prop where
  wellFormed : WellFormed f
  wellShaped : ∀ block ∈ f.blocks, ∀ instr ∈ block.instrs, instr.WellShaped
  /-- Operands and registers of frame states are defined before they are used. -/
  uses : ∀ block ∈ f.blocks, ∀ pre instr post, block.instrs = pre ++ instr :: post →
    instr.isPhi = false → ∀ reg ∈ instr.visitUses, f.DefinedAt block.id pre reg
  phis : ∀ block ∈ f.blocks, ∀ phi ∈ block.instrs, phi.isPhi = true →
    phi.basicBlocks.length = phi.operands.length ∧ phi.basicBlocks.Perm (f.inEdges block.id)
  /-- A phi would have no operand for the way into the function. -/
  entry : ∀ block ∈ f.blocks, block.id = f.entryBlock → ∀ instr ∈ block.instrs,
    instr.isPhi = false

namespace Function

variable {walked : List BlockId}

theorem Walk.of_mem {id other : BlockId} (h : f.Walk walked id)
    (hmem : other ∈ walked) : ∃ shorter, f.Walk shorter other ∧ shorter.length < walked.length := by
  induction h with
  | entry => simp at hmem
  | @step walked id succ h hedge ih =>
    obtain rfl | hmem := mem_cons.mp hmem
    · exact ⟨walked, h, by simp⟩
    · obtain ⟨shorter, hshorter, hlt⟩ := ih hmem
      exact ⟨shorter, hshorter, by simp; omega⟩

theorem Walk.first {id : BlockId} (h : f.Walk walked id) :
    ∃ first, f.Walk first id ∧ id ∉ first := by
  induction hlength : walked.length using Nat.strong_induction_on generalizing walked with
  | _ length ih =>
    by_cases hmem : id ∈ walked
    · obtain ⟨shorter, hshorter, hlt⟩ := h.of_mem hmem
      exact ih shorter.length (hlength ▸ hlt) hshorter rfl
    · exact ⟨walked, h, hmem⟩

theorem block_unique (h : (f.blocks.flatMap BasicBlock.outputs).Nodup) {block other : BasicBlock n}
    (hblock : block ∈ f.blocks) (hother : other ∈ f.blocks) {reg : Register n}
    (hreg : reg ∈ block.outputs) (hreg' : reg ∈ other.outputs) : block = other := by
  by_contra hne
  have hpairwise := (nodup_flatMap.mp h).2
  have hsymm : Std.Symm (Function.onFun List.Disjoint (BasicBlock.outputs (n := n))) :=
    ⟨fun _ _ h => h.symm⟩
  exact hpairwise.forall hblock hother hne hreg hreg'

end Function

namespace WellFormed

variable {reg : Register n}

theorem block_unique (h : WellFormed f) {block other : BasicBlock n} (hblock : block ∈ f.blocks)
    (hother : other ∈ f.blocks) (hreg : reg ∈ block.outputs) (hreg' : reg ∈ other.outputs) :
    block = other :=
  Function.block_unique h.nodup_outputs hblock hother hreg hreg'

variable {block : BasicBlock n}

theorem nodup_blockOutputs (h : WellFormed f) (hblock : block ∈ f.blocks) : block.outputs.Nodup :=
  (nodup_flatMap.mp h.nodup_outputs).1 block hblock

variable {pre post : List (Instr n)} {instr : Instr n}

theorem not_definedBy (h : WellFormed f) (hblock : block ∈ f.blocks)
    (heq : block.instrs = pre ++ instr :: post) (hreg : instr.output = some reg) :
    reg ∉ definedBy pre ∧ reg ∉ definedBy post := by
  have hnodup := h.nodup_blockOutputs hblock
  rw [BasicBlock.outputs, heq, filterMap_append, filterMap_cons_some hreg] at hnodup
  have hdisjoint := nodup_append'.mp hnodup
  refine ⟨fun hmem => ?_, ?_⟩
  · exact hdisjoint.2.2 hmem (by simp)
  · exact (nodup_cons.mp hdisjoint.2.1).1

theorem not_definedAt (h : WellFormed f) (hblock : block ∈ f.blocks)
    (heq : block.instrs = pre ++ instr :: post) (hreg : instr.output = some reg) :
    ¬f.DefinedAt block.id pre reg := by
  intro hdefined
  obtain ⟨walked, hwalk⟩ := h.cfg.reachable block.id (mem_blockIds.mpr ⟨block, hblock, rfl⟩)
  obtain ⟨first, hfirst, hnot⟩ := hwalk.first
  obtain ⟨id, hid, hout⟩ | hpre := hdefined first hfirst
  · obtain ⟨other, hother⟩ : ∃ other, f.block? id = some other := by
      cases hfind : f.block? id with
      | none => simp [outputsOf, hfind] at hout
      | some other => exact ⟨other, rfl⟩
    have hthis : reg ∈ block.outputs := mem_filterMap.mpr ⟨instr, by simp [heq], hreg⟩
    have hsame := h.block_unique hblock (mem_blocks_of_block? hother) hthis
      (by simpa [outputsOf, hother] using hout)
    rw [hsame, id_of_block? hother] at hnot
    exact hnot hid
  · exact (h.not_definedBy hblock heq hreg).1 hpre

end WellFormed

namespace InSsaForm

theorem output_ne (h : InSsaForm f) {block : BasicBlock n} (hblock : block ∈ f.blocks)
    {pre post : List (Instr n)} {instr : Instr n} (heq : block.instrs = pre ++ instr :: post)
    {reg : Register n} (huse : reg ∈ f.instrUses block.id instr) : instr.output ≠ some reg := by
  intro houtput
  unfold instrUses at huse
  split at huse
  case isTrue => simp at huse
  case isFalse hphi =>
    simp only [toFinset_append, Finset.mem_union, List.mem_toFinset] at huse
    obtain huse | huse := huse
    · exact h.wellFormed.not_definedAt hblock heq houtput
        (h.uses block hblock pre instr post heq (by simpa using hphi) reg huse)
    · have hshape := h.wellShaped block hblock instr (by simp [heq])
      have hsuccessors : instr.successors ≠ [] := by
        rintro hnil
        simp [edgeUses, hnil] at huse
      simp [hshape.output (hshape.successors hsuccessors)] at houtput

end InSsaForm

instance (instr : Instr n) : Decidable instr.WellShaped :=
  decidable_of_iff ((instr.opcode.isTerminator = true → instr.output = none) ∧
      instr.successors.length = instr.opcode.numEdges ∧
      (instr.isPhi = true → instr.visitUses = instr.operands) ∧
      (instr.isPhi = true → instr.output.isSome = true) ∧
      (instr.opcode = .kAssign → instr.output.isSome = true ∧ instr.operands.length = 1) ∧
      (instr.opcode = .kSnapshot → instr.output = none))
    ⟨fun h => ⟨h.1, h.2.1, h.2.2.1, h.2.2.2.1, h.2.2.2.2.1, h.2.2.2.2.2⟩,
      fun h => ⟨h.output, h.edges, h.phi, h.phi_output, h.assign, h.snapshot⟩⟩

def usesDefined (defined : Finset (Register n)) : List (Instr n) → Bool
  | [] => true
  | instr :: rest =>
    (instr.isPhi || instr.visitUses.all fun reg => reg ∈ defined) &&
      usesDefined (defined ∪ instr.output.toFinset) rest

theorem usesDefined_iff {defined : Finset (Register n)} {instrs : List (Instr n)} :
    usesDefined defined instrs = true ↔ ∀ pre instr post, instrs = pre ++ instr :: post →
      instr.isPhi = false → ∀ reg ∈ instr.visitUses, reg ∈ defined ∪ (definedBy pre).toFinset := by
  induction instrs generalizing defined with
  | nil => simp [usesDefined]
  | cons first rest ih =>
    simp only [usesDefined, Bool.and_eq_true, Bool.or_eq_true, List.all_eq_true,
      decide_eq_true_eq, ih]
    constructor
    · rintro ⟨hfirst, hrest⟩ pre instr post heq hphi reg hreg
      cases pre with
      | nil =>
        obtain ⟨rfl, rfl⟩ : first = instr ∧ rest = post := by simpa using heq
        have := hfirst.resolve_left (by simp [hphi]) reg hreg
        simp [this]
      | cons other pre =>
        obtain ⟨rfl, htail⟩ : first = other ∧ rest = pre ++ instr :: post := by
          simpa using heq
        have := hrest pre instr post htail hphi reg hreg
        simp only [Finset.mem_union, Option.mem_toFinset, List.mem_toFinset] at this ⊢
        simp only [definedBy, mem_filterMap, mem_cons, exists_eq_or_imp] at this ⊢
        tauto
    · intro h
      refine ⟨?_, fun pre instr post heq hphi reg hreg => ?_⟩
      · cases hphi : first.isPhi with
        | true => exact .inl rfl
        | false =>
          refine .inr fun reg hreg => ?_
          simpa [definedBy] using h [] first rest rfl hphi reg hreg
      · have := h (first :: pre) instr post (by simp [heq]) hphi reg hreg
        simp only [Finset.mem_union, Option.mem_toFinset, List.mem_toFinset] at this ⊢
        simp only [definedBy, mem_filterMap, mem_cons, exists_eq_or_imp] at this ⊢
        tauto

def phisComplete (f : Function n) (block : BasicBlock n) : Bool :=
  block.instrs.all fun phi => !phi.isPhi ||
    (decide (phi.basicBlocks.length = phi.operands.length) &&
      phi.basicBlocks.isPerm (f.inEdges block.id))

def checkSsaBlock (f : Function n) (assign : Dataflow.State BlockId (Register n))
    (block : BasicBlock n) : Bool :=
  (block.instrs.all fun instr => decide instr.WellShaped) &&
    usesDefined (assign.before block.id) block.instrs && phisComplete f block &&
    (block.id ≠ f.entryBlock || block.instrs.all fun instr => !instr.isPhi)

def checkSsaForm (f : Function n) : Bool :=
  checkFunc f &&
    match f.assignmentAnalysis (.ofFunction f) true with
    | none => false
    | some assign => f.blocks.all (checkSsaBlock f assign)

theorem phisComplete_iff {block : BasicBlock n} : phisComplete f block = true ↔
    ∀ phi ∈ block.instrs, phi.isPhi = true → phi.basicBlocks.length = phi.operands.length ∧
      phi.basicBlocks.Perm (f.inEdges block.id) := by
  simp only [phisComplete, List.all_eq_true, Bool.or_eq_true, Bool.not_eq_true',
    Bool.and_eq_true, decide_eq_true_eq, isPerm_iff]
  refine forall_congr' fun phi => imp_congr_right fun _ => ?_
  cases phi.isPhi <;> simp

theorem checkSsaBlock_iff {assign : Dataflow.State BlockId (Register n)} {block : BasicBlock n} :
    checkSsaBlock f assign block = true ↔
      (∀ instr ∈ block.instrs, instr.WellShaped) ∧
      usesDefined (assign.before block.id) block.instrs = true ∧
      (∀ phi ∈ block.instrs, phi.isPhi = true → phi.basicBlocks.length = phi.operands.length ∧
        phi.basicBlocks.Perm (f.inEdges block.id)) ∧
      (block.id = f.entryBlock → ∀ instr ∈ block.instrs, instr.isPhi = false) := by
  have hentry : (decide (block.id ≠ f.entryBlock) ||
      block.instrs.all fun instr => !instr.isPhi) = true ↔
        (block.id = f.entryBlock → ∀ instr ∈ block.instrs, instr.isPhi = false) := by
    by_cases hid : block.id = f.entryBlock <;> simp [hid]
  simp only [checkSsaBlock, Bool.and_eq_true, phisComplete_iff, hentry, and_assoc]
  simp only [List.all_eq_true, decide_eq_true_eq]

theorem checkSsaForm_iff : checkSsaForm f = true ↔ InSsaForm f := by
  have hmem : ∀ block ∈ f.blocks, block.id ∈ f.blockIds :=
    fun block hblock => mem_blockIds.mpr ⟨block, hblock, rfl⟩
  unfold checkSsaForm
  rw [Bool.and_eq_true, checkFunc_iff]
  constructor
  · rintro ⟨hwf, hrest⟩
    split at hrest
    case h_1 => simp at hrest
    case h_2 assign hassign =>
      simp only [List.all_eq_true, checkSsaBlock_iff] at hrest
      refine ⟨hwf, fun block hblock => (hrest block hblock).1, ?_,
        fun block hblock => (hrest block hblock).2.2.1,
        fun block hblock => (hrest block hblock).2.2.2⟩
      intro block hblock pre instr post heq hphi reg hreg
      rw [definedAt_iff hwf.cfg hassign (hmem block hblock)]
      exact usesDefined_iff.mp (hrest block hblock).2.1 pre instr post heq hphi reg hreg
  · intro h
    obtain ⟨assign, hassign⟩ : ∃ assign, f.assignmentAnalysis (.ofFunction f) true = some assign :=
      assignmentAnalysis_isSome h.wellFormed.cfg.linked
    refine ⟨h.wellFormed, ?_⟩
    simp only [hassign, List.all_eq_true, checkSsaBlock_iff]
    refine fun block hblock => ⟨h.wellShaped block hblock, usesDefined_iff.mpr ?_,
      h.phis block hblock, h.entry block hblock⟩
    intro pre instr post heq hphi reg hreg
    rw [← definedAt_iff h.wellFormed.cfg hassign (hmem block hblock)]
    exact h.uses block hblock pre instr post heq hphi reg hreg

end CinderX.Jit.Hir
