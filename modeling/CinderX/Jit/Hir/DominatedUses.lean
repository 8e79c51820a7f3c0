import CinderX.Jit.Hir.DominatorsCorrect
import CinderX.Jit.Hir.PhiEliminationSound

/-!
# Dominators and definitions

What the verifier finds with a data-flow analysis, the dominator analysis says too: the block of a
definition dominates the blocks of its uses.
-/

namespace CinderX.Jit.Hir

open List Foundation.Dominance Hir.Function

variable {n : Nat} {f : Function n} {id : BlockId} {pre : List (Instr n)} {reg : Register n}

theorem Function.walk_of_dominance {walked : List BlockId}
    (h : Foundation.Dominance.Walk f.Edge f.entryBlock walked id) : f.Walk walked id := by
  induction h with
  | entry => exact .entry
  | step _ hedge ih => exact .step ih hedge

theorem Function.reachable_of_walk {walked : List BlockId} (h : f.Walk walked id) :
    Reachable f.Edge f.entryBlock id := by
  induction h with
  | entry => exact ⟨[], .entry⟩
  | step _ hedge ih =>
    obtain ⟨walked, hwalk⟩ := ih
    exact ⟨_, .step hwalk hedge⟩

theorem InSsaForm.terminated (h : InSsaForm f) : f.Terminated := by
  rintro id ⟨walked, hwalk⟩
  obtain ⟨block, hblock, rfl⟩ := mem_blockIds.mp
    (h.wellFormed.cfg.mem_blockIds (walk_of_dominance hwalk))
  obtain ⟨front, last, hends⟩ := h.ends hblock
  exact ⟨block, block?_of_mem hblock, front, last, hends.split,
    fun instr hinstr => (hends.plain instr hinstr).2, hends.terminator, hends.shape.edges⟩

/-- Where a register is defined on every way, one block defines it on all of them. -/
theorem WellFormed.dominates_of_definedAt (h : WellFormed f) {block : BasicBlock n}
    (hblock : block ∈ f.blocks) (hpre : pre <+: block.instrs)
    (hdefined : f.DefinedAt block.id pre reg) :
    ∃ d ∈ f.blocks, reg ∈ d.outputs ∧ Dominates f.Edge f.entryBlock d.id block.id ∧
      (d = block → reg ∈ definedBy pre) := by
  have hid := mem_blockIds.mpr ⟨block, hblock, rfl⟩
  obtain ⟨instr, hfind⟩ := hdefined.exists_def h.cfg hid fun instr hinstr =>
    mem_instrs.mpr ⟨block, hblock, hpre.subset hinstr⟩
  obtain ⟨hinstr, houtput⟩ := mem_instrs_of_instr? hfind
  obtain ⟨d, hd, hin⟩ := mem_instrs.mp hinstr
  have hreg : reg ∈ d.outputs := mem_filterMap.mpr ⟨instr, hin, houtput⟩
  have hother : ∀ walked, f.definesOn walked reg → d.id ∈ walked := by
    rintro walked ⟨other, hother, hdef⟩
    cases hfound : f.block? other with
    | none => simp [outputsOf, hfound] at hdef
    | some block' =>
      rw [outputsOf, hfound] at hdef
      obtain rfl := h.block_unique hd (mem_blocks_of_block? hfound) hreg hdef
      rwa [id_of_block? hfound]
  refine ⟨d, hd, hreg, fun walked hwalk => ?_, ?_⟩
  · obtain hdef | hdef := hdefined walked (walk_of_dominance hwalk)
    · exact mem_cons_of_mem _ (hother walked hdef)
    · have hmem : reg ∈ block.outputs := (hpre.filterMap Instr.output).subset hdef
      rw [h.block_unique hd hblock hreg hmem]
      exact mem_cons_self
  · rintro rfl
    obtain ⟨walked, hwalk⟩ := h.cfg.reachable d.id hid
    obtain ⟨first, hfirst, hnot⟩ := hwalk.first
    exact (hdefined first hfirst).resolve_left fun hdef => hnot (hother first hdef)

/-- The sets of the analysis hold every use of a register under the block that defines it, and
within that block the definition comes first. -/
theorem dominators_hold_uses (h : InSsaForm f) (order : f.EdgeOrder) :
    ∃ fuel a, DominatorAnalysis.create f order fuel = some a ∧
      ∀ block ∈ f.blocks,
        (∀ pre instr post, block.instrs = pre ++ instr :: post → instr.isPhi = false →
          ∀ reg ∈ instr.visitUses, ∃ d ∈ f.blocks, reg ∈ d.outputs ∧
            block.id ∈ a.getBlocksDominatedBy d.id ∧ (d = block → reg ∈ definedBy pre)) ∧
        ∀ phi ∈ block.instrs, phi.isPhi = true →
          ∀ pair ∈ phi.basicBlocks.zip phi.operands, ∃ d ∈ f.blocks, pair.2 ∈ d.outputs ∧
            pair.1 ∈ a.getBlocksDominatedBy d.id := by
  obtain ⟨fuel, a, hcreate⟩ := DominatorAnalysis.create_isSome h.terminated order
  have hcorrect := DominatorAnalysis.correct_of_create h.terminated order hcreate
  have hreach : ∀ block ∈ f.blocks, Reachable f.Edge f.entryBlock block.id := by
    intro block hblock
    obtain ⟨walked, hwalk⟩ := h.wellFormed.cfg.reachable block.id
      (mem_blockIds.mpr ⟨block, hblock, rfl⟩)
    exact reachable_of_walk hwalk
  refine ⟨fuel, a, hcreate, fun block hblock => ⟨?_, ?_⟩⟩
  · intro pre instr post heq hphi reg hreg
    obtain ⟨d, hd, hout, hdom, hfirst⟩ := h.wellFormed.dominates_of_definedAt hblock
      ⟨_, heq.symm⟩ (h.uses block hblock pre instr post heq hphi reg hreg)
    exact ⟨d, hd, hout, (hcorrect.dominated d.id block.id).mpr ⟨hreach block hblock, hdom⟩, hfirst⟩
  · intro phi hphi hisPhi pair hpair
    have hpred := h.wellFormed.phi block hblock phi hphi hisPhi
    obtain ⟨pred, hpredBlock, hid⟩ := mem_blockIds.mp
      (mem_blockIds_of_mem_inEdges (hpred.2 pair.1 (of_mem_zip hpair).1))
    have hdefined := h.wellFormed.phi_operands block hblock phi hphi hisPhi pair hpair
    rw [← hid, instrsOf, block?_of_mem hpredBlock] at hdefined
    obtain ⟨d, hd, hout, hdom, -⟩ :=
      h.wellFormed.dominates_of_definedAt hpredBlock prefix_rfl hdefined
    refine ⟨d, hd, hout, (hcorrect.dominated d.id pair.1).mpr ?_⟩
    rw [← hid]
    exact ⟨hreach pred hpredBlock, hdom⟩

theorem dominators_hold_uses_nestedPhis :
    ∃ fuel a, DominatorAnalysis.create nestedPhis ⟨nestedPhis.inEdges, fun _ => .refl _⟩ fuel =
        some a ∧
      ∀ block ∈ nestedPhis.blocks, ∀ phi ∈ block.instrs, phi.isPhi = true →
        ∀ pair ∈ phi.basicBlocks.zip phi.operands, ∃ d ∈ nestedPhis.blocks, pair.2 ∈ d.outputs ∧
          pair.1 ∈ a.getBlocksDominatedBy d.id := by
  obtain ⟨fuel, a, hcreate, huses⟩ :=
    dominators_hold_uses nestedPhis_inSsaForm ⟨nestedPhis.inEdges, fun _ => .refl _⟩
  exact ⟨fuel, a, hcreate, fun block hblock => (huses block hblock).2⟩

end CinderX.Jit.Hir
