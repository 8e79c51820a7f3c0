import CinderX.Jit.Hir.Copies
import CinderX.Jit.Hir.RefcountInsertion

/-!
# The copies are the live registers

The states of `RefcountInsertion` name registers, and liveness analysis does.  In SSA form both name
the same ones at every instruction, and no copy stands in two states or twice in one.
-/

namespace CinderX.Jit.Hir

open Foundation List Hir.Function BasicBlock
open Option (bind_eq_some_iff map_eq_some_iff bind_eq_bind)

variable {n : Nat} {f : Function n}

/-! ## Live registers are defined -/

def LivenessAnalysis.IsRun (liveness : LivenessAnalysis f) : Prop :=
  ∃ (t : Traversal f) (s : Dataflow.State BlockId (Register n)), f.livenessAnalysis t = some s ∧
    ∀ block ∈ f.blocks, liveness.getIn block.id = s.after block.id

theorem BasicBlock.mem_liveOut {block : BasicBlock n} {live : BlockId → Finset (Register n)}
    {reg : Register n} : reg ∈ block.liveOut live ↔ ∃ succ ∈ block.outEdges, reg ∈ live succ := by
  have hfold : ∀ (succs : List BlockId) (acc : Finset (Register n)),
      reg ∈ succs.foldl (fun acc succ => acc ∪ live succ) acc ↔
        reg ∈ acc ∨ ∃ succ ∈ succs, reg ∈ live succ := by
    intro succs
    induction succs with
    | nil => simp
    | cons succ succs ih =>
      intro acc
      rw [foldl_cons, ih]
      simp [or_assoc]
  rw [liveOut, hfold]
  simp

section Defined

variable {block : BasicBlock n} {pre rest : List (Instr n)} {instr : Instr n}
  {reg output : Register n} {liveness : LivenessAnalysis f}
  (h : InSsaForm f) (hblock : block ∈ f.blocks)

include h hblock in
theorem InSsaForm.defined_of_instrUses (heq : block.instrs = pre ++ instr :: rest)
    (huse : reg ∈ f.instrUses block.id instr) : f.DefinedAt block.id pre reg := by
  unfold instrUses at huse
  split at huse
  case isTrue => simp at huse
  case isFalse hphi =>
    simp only [toFinset_append, Finset.mem_union, List.mem_toFinset] at huse
    obtain huse | huse := huse
    · exact h.uses block hblock pre instr rest heq (by simpa using hphi) reg huse
    · obtain ⟨succ, hsucc, hoperand⟩ := mem_flatMap.mp huse
      cases hfind : f.block? succ with
      | none => simp [hfind] at hoperand
      | some succBlock =>
        simp only [hfind] at hoperand
        obtain ⟨phi, hphi, hoperand⟩ := mem_filterMap.mp hoperand
        have hsuccBlock := mem_blocks_of_block? hfind
        have hshape := h.wellShaped block hblock instr (by simp [heq])
        obtain ⟨edge, hedge⟩ := getElem?_of_mem hsucc
        obtain ⟨hend, hsuccs⟩ :=
          h.wellFormed.definedAt_of_jump ⟨hblock, rest, heq⟩ hshape hedge
        rw [← id_of_block? hfind] at hsuccs
        obtain ⟨operand, hoperand', -, hdefined⟩ := h.exists_phiOperand hsuccBlock
          (succBlock.instrs_eq ▸ mem_append_left _ hphi) (isPhi_of_mem_phis hphi)
          hsuccs
        obtain rfl := Option.some.inj (hoperand.symm.trans hoperand')
        exact hend reg hdefined

variable {id : BlockId}

include h in
theorem InSsaForm.defined_of_usedLater (hid : id ∈ f.blockIds)
    (hused : f.UsedLater reg id rest) (heq : f.instrsOf id = pre ++ rest) :
    f.DefinedAt id pre reg := by
  induction hused generalizing pre with
  | @use id instr rest huse =>
    obtain ⟨block, hblock, rfl⟩ := mem_blockIds.mp hid
    rw [instrsOf_of_mem hblock] at heq
    exact h.defined_of_instrUses hblock heq huse
  | @skip id instr rest hdef _ ih =>
    exact definedAt_of_append (ih hid (by simp [heq])) hdef
  | @edge id succ hedge _ ih =>
    have hsucc := mem_blockIds_of_linked h.wellFormed.cfg.linked hedge
    have hdefined := (ih hsucc rfl).pred hedge
    rwa [heq, append_nil] at hdefined

include hblock in
theorem LivenessAnalysis.mem_getIn (hrun : liveness.IsRun) :
    reg ∈ liveness.getIn block.id ↔ f.UsedLater reg block.id block.instrs := by
  obtain ⟨t, s, hs, hin⟩ := hrun
  rw [hin block hblock, mem_liveIn hs (mem_blockIds.mpr ⟨block, hblock, rfl⟩),
    instrsOf_of_mem hblock]

include h hblock in
theorem LivenessAnalysis.mem_getOut (hrun : liveness.IsRun) :
    reg ∈ liveness.getOut block ↔ f.UsedLater reg block.id [] := by
  rw [getOut, BasicBlock.mem_liveOut]
  constructor
  · rintro ⟨succ, hsucc, hmem⟩
    have hedge : succ ∈ f.succs block.id := by rwa [succs_of_mem hblock]
    obtain ⟨succBlock, hsuccBlock, rfl⟩ := mem_blockIds.mp
      (mem_blockIds_of_linked h.wellFormed.cfg.linked hedge)
    refine .edge hedge ?_
    rw [instrsOf_of_mem hsuccBlock]
    exact (mem_getIn hsuccBlock hrun).mp hmem
  · intro hused
    cases hused with
    | @edge _ succ hedge hused =>
      obtain ⟨succBlock, hsuccBlock, rfl⟩ := mem_blockIds.mp
        (mem_blockIds_of_linked h.wellFormed.cfg.linked hedge)
      rw [instrsOf_of_mem hsuccBlock] at hused
      rw [succs_of_mem hblock] at hedge
      exact ⟨succBlock.id, hedge, (mem_getIn hsuccBlock hrun).mpr hused⟩

include h hblock in
theorem LivenessAnalysis.defined_of_liveBeforeAll (hrun : liveness.IsRun)
    (heq : block.instrs = pre ++ rest)
    (hreg : reg ∈ f.liveBeforeAll block.id (liveness.getOut block) rest) :
    f.DefinedAt block.id pre reg := by
  rw [mem_liveBeforeAll fun reg => mem_getOut h hblock hrun] at hreg
  exact h.defined_of_usedLater (mem_blockIds.mpr ⟨block, hblock, rfl⟩) hreg
    ((instrsOf_of_mem hblock).trans heq)

theorem Function.modelReg_eq_self (hcopied : f.copiedFrom? reg = none) : f.modelReg reg = reg := by
  have hin : ∀ fuel, f.modelRegIn fuel reg = reg := by
    intro fuel
    cases fuel with
    | zero => rfl
    | succ fuel => simp [modelRegIn, hcopied]
  exact hin n

include h in
theorem InSsaForm.defined_modelReg (heq : f.instrsOf id = pre ++ rest)
    (hreg : f.DefinedAt id pre reg) : f.DefinedAt id pre (f.modelReg reg) := by
  have hin : ∀ fuel reg, f.DefinedAt id pre reg → f.DefinedAt id pre (f.modelRegIn fuel reg) := by
    intro fuel
    induction fuel with
    | zero => exact fun reg hreg => hreg
    | succ fuel ih =>
      intro reg hreg
      rw [modelRegIn]
      split
      next source hsource =>
        refine ih source ?_
        unfold copiedFrom? at hsource
        split at hsource
        next instr hinstr =>
          split at hsource
          next hcopies =>
            have hmem : instr ∈ f.instrs := mem_of_find?_eq_some hinstr
            have houtput : instr.output = some reg := by simpa using find?_some hinstr
            obtain ⟨block, front, hpos⟩ := exists_position hmem
            obtain ⟨back, hback⟩ := hpos.split
            have hphi : instr.isPhi = false := by
              cases hopcode : instr.opcode <;>
                simp_all [Instr.copies, Instr.isPassthrough, Instr.isPhi]
            exact h.wellFormed.definedAt_of_position hpos houtput
              (h.uses_of_split hpos.mem hback hphi (mem_of_mem_head? hsource)) heq hreg
          next => cases hsource
        next => cases hsource
      next => exact hreg
  exact hin n reg hreg

end Defined

/-! ## States that list registers -/

/-- Every register of a set stands in the state of its model, once, and nothing else does. -/
structure StateMap.Lists (live : StateMap n) (f : Function n)
  (regs : Finset (Register n)) : Prop where
  nodup : ∀ model rstate, live model = some rstate → rstate.copies.Nodup
  nonempty : ∀ model rstate, live model = some rstate → rstate.copies ≠ []
  model : ∀ model rstate, live model = some rstate →
    ∀ reg ∈ rstate.copies, f.modelReg reg = model
  mem : ∀ reg, reg ∈ regs ↔ ∃ rstate, live (f.modelReg reg) = some rstate ∧ reg ∈ rstate.copies

def StateMap.SameCopies (live live' : StateMap n) : Prop :=
  ∀ model, (live' model).map RegState.copies = (live model).map RegState.copies

namespace StateMap

variable {live live' : StateMap n} {regs : Finset (Register n)}

theorem SameCopies.refl (live : StateMap n) : SameCopies live live := fun _ => rfl

theorem SameCopies.trans {live'' : StateMap n} (h : SameCopies live live')
    (h' : SameCopies live' live'') : SameCopies live live'' := fun model =>
      (h' model).trans (h model)

variable {model : Register n} {rstate : RegState n}

theorem SameCopies.exists_some (h : SameCopies live live') (hlive : live' model = some rstate) :
    ∃ rstate', live model = some rstate' ∧ rstate'.copies = rstate.copies := by
  have hcopies := h model
  rw [hlive, Option.map_some, eq_comm, map_eq_some_iff] at hcopies
  exact hcopies

theorem SameCopies.symm (h : SameCopies live live') : SameCopies live' live :=
  fun model => (h model).symm

theorem Lists.of_sameCopies (hlists : live.Lists f regs) (h : SameCopies live live') :
    live'.Lists f regs where
  nodup model rstate hlive := by
    obtain ⟨rstate', hlive', hcopies⟩ := h.exists_some hlive
    exact hcopies ▸ hlists.nodup model rstate' hlive'
  nonempty model rstate hlive := by
    obtain ⟨rstate', hlive', hcopies⟩ := h.exists_some hlive
    exact hcopies ▸ hlists.nonempty model rstate' hlive'
  model model rstate hlive := by
    obtain ⟨rstate', hlive', hcopies⟩ := h.exists_some hlive
    exact hcopies ▸ hlists.model model rstate' hlive'
  mem reg := by
    rw [hlists.mem]
    constructor
    · rintro ⟨rstate, hlive, hmem⟩
      obtain ⟨rstate', hlive', hcopies⟩ := h.symm.exists_some hlive
      exact ⟨rstate', hlive', hcopies ▸ hmem⟩
    · rintro ⟨rstate, hlive, hmem⟩
      obtain ⟨rstate', hlive', hcopies⟩ := h.exists_some hlive
      exact ⟨rstate', hlive', hcopies ▸ hmem⟩

theorem sameCopies_setRef (hlive : live model = some rstate) (ref : Ref n) :
    SameCopies live (Function.update live model (some (rstate.setRef ref))) := by
  intro other
  by_cases hother : other = model
  · subst hother
    simp [hlive, RegState.setRef]
  · rw [Function.update_of_ne hother]

theorem Lists.mem_of_copies (h : live.Lists f regs) {model reg : Register n}
    (hlive : live model = some rstate) (hreg : reg ∈ rstate.copies) : reg ∈ regs := by
  refine (h.mem reg).mpr ⟨rstate, ?_, hreg⟩
  rwa [h.model model rstate hlive reg hreg]

theorem Lists.update (h : live.Lists f regs) {rstate : Option (RegState n)}
    {regs' : Finset (Register n)}
    (hstate : ∀ r ∈ rstate, r.copies.Nodup ∧ r.copies ≠ [] ∧ ∀ reg ∈ r.copies, f.modelReg reg =
      model)
    (hother : ∀ reg, f.modelReg reg ≠ model → (reg ∈ regs' ↔ reg ∈ regs))
    (hself : ∀ reg, f.modelReg reg = model → (reg ∈ regs' ↔ ∃ r ∈ rstate, reg ∈ r.copies)) :
    StateMap.Lists (Function.update live model rstate) f regs' where
  nodup other r hlive := by
    by_cases hmodel : other = model
    · subst hmodel
      rw [Function.update_self] at hlive
      exact (hstate r hlive).1
    · rw [Function.update_of_ne hmodel] at hlive
      exact h.nodup other r hlive
  nonempty other r hlive := by
    by_cases hmodel : other = model
    · subst hmodel
      rw [Function.update_self] at hlive
      exact (hstate r hlive).2.1
    · rw [Function.update_of_ne hmodel] at hlive
      exact h.nonempty other r hlive
  model other r hlive := by
    by_cases hmodel : other = model
    · subst hmodel
      rw [Function.update_self] at hlive
      exact (hstate r hlive).2.2
    · rw [Function.update_of_ne hmodel] at hlive
      exact h.model other r hlive
  mem reg := by
    by_cases hmodel : f.modelReg reg = model
    · rw [hself reg hmodel, hmodel, Function.update_self]
      rfl
    · rw [hother reg hmodel, h.mem, Function.update_of_ne hmodel]

theorem lists_empty : (StateMap.empty : StateMap n).Lists f ∅ where
  nodup _ _ hlive := by cases hlive
  nonempty _ _ hlive := by cases hlive
  model _ _ hlive := by cases hlive
  mem reg := by simp [StateMap.empty]

end StateMap

namespace State

open StateMap

variable {env : Env n} {mutate : Bool} {st st' : State n} {regs : Finset (Register n)}

@[simp]
theorem liveRegs_emitIf (ops : List (Op n)) : (st.emitIf mutate ops).liveRegs = st.liveRegs := by
  cases mutate <;> rfl

theorem sameCopies_invalidate {support : Support n}
    (h : st.invalidateBorrowSupport env mutate support = some st') :
    SameCopies st.liveRegs st'.liveRegs := by
  unfold invalidateBorrowSupport at h
  split at h
  · cases h
    exact .refl _
  · split at h
    · cases h
    · cases h
      intro model
      rw [liveRegs_emitIf]
      simp only
      split
      · rw [Option.map_map]
        rfl
      · rfl

theorem sameCopies_dropOwned {model copy : Register n}
    (h : st.dropOwned env mutate model copy = some st') : SameCopies st.liveRegs st'.liveRegs := by
  unfold dropOwned at h
  cases hbit : env.hasBit model with
  | true =>
    simp only [hbit, if_true, bind_eq_bind, bind_eq_some_iff, Option.pure_def,
      Option.some.injEq] at h
    obtain ⟨st₁, h₁, st₂, h₂, rfl⟩ := h
    rw [liveRegs_emitIf]
    exact (sameCopies_invalidate h₁).trans (sameCopies_invalidate h₂)
  | false =>
    simp only [hbit, Bool.false_eq_true, if_false, bind_eq_bind, Option.bind_some,
      bind_eq_some_iff, Option.pure_def, Option.some.injEq] at h
    obtain ⟨st₂, h₂, rfl⟩ := h
    rw [liveRegs_emitIf]
    exact sameCopies_invalidate h₂

theorem lists_killRegister {copy : Register n} (hlists : st.liveRegs.Lists env.func regs)
    (h : st.killRegister env mutate copy = some st') :
    copy ∈ regs ∧ st'.liveRegs.Lists env.func (regs.erase copy) := by
  simp only [killRegister, bind_eq_bind, bind_eq_some_iff] at h
  obtain ⟨rstate, hlive, h⟩ := h
  have hother : ∀ reg, env.func.modelReg reg ≠ env.func.modelReg copy →
      (reg ∈ regs.erase copy ↔ reg ∈ regs) := by
    intro reg hne
    rw [Finset.mem_erase, and_iff_right]
    rintro rfl
    exact hne rfl
  have hself : ∀ reg, env.func.modelReg reg = env.func.modelReg copy →
      (reg ∈ regs.erase copy ↔ reg ∈ rstate.copies.erase copy) := by
    intro reg hmodel
    rw [(hlists.nodup _ rstate hlive).mem_erase_iff, Finset.mem_erase, hlists.mem, hmodel]
    simp [hlive]
  split at h
  · cases h
  next hmem =>
    have hcopy : copy ∈ rstate.copies := by simpa using hmem
    refine ⟨hlists.mem_of_copies hlive hcopy, ?_⟩
    split at h
    next hleft =>
      cases h
      refine hlists.update ?_ hother fun reg hmodel => (hself reg hmodel).trans (by simp)
      rintro r ⟨⟩
      exact ⟨(hlists.nodup _ rstate hlive).erase _, hleft, fun reg hreg =>
        hlists.model _ rstate hlive reg (mem_of_mem_erase hreg)⟩
    next hlast =>
      have hlast : rstate.copies.erase copy = [] := not_not.mp hlast
      obtain ⟨st₁, hsame, hst'⟩ : ∃ st₁ : State n, SameCopies st.liveRegs st₁.liveRegs ∧
          st'.liveRegs = Function.update st₁.liveRegs (env.func.modelReg copy) none := by
        by_cases howned : rstate.ref = .owned
        · simp only [howned, if_true, bind_eq_some_iff, Option.pure_def,
            Option.some.injEq] at h
          obtain ⟨st₁, h₁, rfl⟩ := h
          exact ⟨st₁, sameCopies_dropOwned h₁, rfl⟩
        · simp only [howned, if_false, Option.bind_some, Option.pure_def, Option.some.injEq] at h
          exact ⟨st, .refl _, h ▸ rfl⟩
      rw [hst']
      refine (hlists.of_sameCopies hsame).update (by simp) hother fun reg hmodel => ?_
      rw [hself reg hmodel, hlast]
      simp

variable {copies : List (Register n)}

theorem lists_foldlM_killRegister (hlists : st.liveRegs.Lists env.func regs)
    (h : copies.foldlM (killRegister env mutate) st = some st') :
    st'.liveRegs.Lists env.func (regs \ copies.toFinset) := by
  induction copies generalizing st regs with
  | nil =>
    cases h
    simpa using hlists
  | cons copy copies ih =>
    simp only [foldlM_cons, bind_eq_bind, bind_eq_some_iff] at h
    obtain ⟨st₁, h₁, h⟩ := h
    have hrest := ih (lists_killRegister hlists h₁).2 h
    have hsame : regs.erase copy \ copies.toFinset = regs \ (copy :: copies).toFinset := by
      ext reg
      simp only [Finset.mem_sdiff, Finset.mem_erase, toFinset_cons, Finset.mem_insert, not_or]
      tauto
    rwa [hsame] at hrest

theorem lists_killRegisters (hlists : st.liveRegs.Lists env.func regs)
    (h : st.killRegisters env mutate copies = some st') :
    st'.liveRegs.Lists env.func (regs \ copies.toFinset) := by
  unfold killRegisters at h
  split at h
  · have hrest := lists_foldlM_killRegister hlists h
    rwa [toFinset_eq_of_perm _ _ (perm_insertionSort _ _)] at hrest
  · cases h

theorem sameCopies_stealInputs {instr : Instr n} {stolen : List Nat} {dying : Finset (Register n)}
    (h : st.stealInputs env mutate instr stolen dying = some st') :
    SameCopies st.liveRegs st'.liveRegs := by
  unfold stealInputs at h
  generalize stolen.filterMap (fun i => instr.operands[i]?) = operands at h
  induction operands generalizing st with
  | nil =>
    cases h
    exact .refl _
  | cons reg operands ih =>
    simp only [foldlM_cons, bind_eq_bind, bind_eq_some_iff] at h
    obtain ⟨st₁, h₁, h⟩ := h
    refine SameCopies.trans ?_ (ih h)
    simp only [stealInput, bind_eq_bind, bind_eq_some_iff] at h₁
    obtain ⟨rstate, hlive, h₁⟩ := h₁
    split at h₁
    · split at h₁
      · cases h₁
        exact .refl _
      · cases h₁
        exact sameCopies_setRef hlive _
    · split at h₁
      · cases h₁
        rw [liveRegs_emitIf]
        exact .refl _
      · cases h₁
        exact .refl _

theorem lists_processOutput {instr : Instr n} {effects : MemoryEffects}
    (hlists : st.liveRegs.Lists env.func regs)
    (houtput : ∀ output ∈ instr.output, output ∉ regs ∧
      (instr.copies = false → env.func.modelReg output = output ∧
        ∀ reg ∈ regs, env.func.modelReg reg ≠ output))
    (h : st.processOutput env instr effects = some st') :
    st'.liveRegs.Lists env.func (regs ∪ instr.output.toFinset) := by
  unfold processOutput at h
  cases hout : instr.output with
  | none =>
    simp only [hout, Option.some.injEq] at h
    subst h
    simpa using hlists
  | some output =>
    obtain ⟨hnot, hmodel⟩ := houtput output hout
    simp only [hout] at h
    have hother : ∀ model, env.func.modelReg output = model → ∀ reg,
        env.func.modelReg reg ≠ model →
          (reg ∈ regs ∪ (some output).toFinset ↔ reg ∈ regs) := by
      rintro model rfl reg hne
      rw [Finset.mem_union, or_iff_left]
      intro hmem
      rw [Option.toFinset_some, Finset.mem_singleton] at hmem
      exact hne (by rw [hmem])
    cases hcopies : instr.copies with
    | true =>
      simp only [hcopies, if_true, bind_eq_bind, bind_eq_some_iff,
        Option.pure_def, Option.some.injEq] at h
      obtain ⟨rstate, hlive, rfl⟩ := h
      have hadded : (if env.func.isUncounted output then
          (rstate.addCopy output).setRef .uncounted else rstate.addCopy output).copies =
            rstate.copies ++ [output] := by
        split <;> rfl
      refine hlists.update ?_ (hother _ rfl) fun reg hreg => ?_
      · rintro r ⟨⟩
        rw [hadded]
        refine ⟨nodup_append'.mpr ⟨hlists.nodup _ rstate hlive, nodup_singleton _, ?_⟩,
          by simp, fun reg hreg => ?_⟩
        · intro reg hreg hsame
          rw [mem_singleton.mp hsame] at hreg
          exact hnot (hlists.mem_of_copies hlive hreg)
        · rcases mem_append.mp hreg with hreg | hreg
          · exact hlists.model _ rstate hlive reg hreg
          · rw [mem_singleton.mp hreg]
      · rw [Finset.mem_union, hlists.mem, hreg]
        simp [hlive, hadded]
    | false =>
      obtain ⟨hself, hnone⟩ := hmodel hcopies
      have hlive : st.liveRegs output = none := by
        cases hlive : st.liveRegs output with
        | none => rfl
        | some rstate =>
          obtain ⟨reg, hreg⟩ := exists_mem_of_ne_nil _ (hlists.nonempty _ rstate hlive)
          exact absurd (hlists.model _ rstate hlive reg hreg)
            (hnone reg (hlists.mem_of_copies hlive hreg))
      obtain ⟨rstate, hrstate, hst'⟩ : ∃ rstate : RegState n, rstate.copies = [output] ∧
          st'.liveRegs = Function.update st.liveRegs output (some rstate) := by
        simp only [hcopies, Bool.false_eq_true, if_false, hlive, Option.getD_none] at h
        split at h
        · exact ⟨.ofModel output, rfl, by rw [← Option.some.inj h]; rfl⟩
        · split at h
          · split at h
            · exact ⟨_, rfl, by rw [← Option.some.inj h]; rfl⟩
            · exact ⟨_, rfl, by rw [← Option.some.inj h]; rfl⟩
          · exact ⟨_, rfl, by rw [← Option.some.inj h]; rfl⟩
      rw [hst']
      refine hlists.update ?_ (hother _ hself) fun reg hreg => ?_
      · rintro r ⟨⟩
        rw [hrstate]
        exact ⟨nodup_singleton _, by simp, fun reg hreg => by
          rw [mem_singleton.mp hreg, hself]⟩
      · have hnotMem : reg ∉ regs := fun hmem => hnone reg hmem hreg
        simp [hnotMem, hrstate]

end State

/-! ## Through a block -/

section Block

open State

variable {env : Env n} {mutate : Bool} {st st' : State n} {block : BasicBlock n}
  {pre rest : List (Instr n)} {instr : Instr n} {regs : Finset (Register n)}

def Env.liveAt (env : Env n) (block : BasicBlock n) (rest : List (Instr n)) : Finset (Register n) :=
  env.func.liveBeforeAll block.id (env.liveness.getOut block) rest

def Env.stepAt (env : Env n) (block : BasicBlock n) (instr : Instr n) (rest : List (Instr n)) :
    InstrStep n :=
  ⟨instr, env.func.dyingRegs block.id instr (env.liveAt block rest), rest.head?⟩

def Env.stepsAt (env : Env n) (block : BasicBlock n) (instrs : List (Instr n)) :
    List (InstrStep n) :=
  env.func.stepsOf block.id (env.liveness.getOut block) instrs

theorem Env.stepsAt_cons : env.stepsAt block (instr :: rest) =
    env.stepAt block instr rest :: env.stepsAt block rest := rfl

theorem Env.liveAt_cons : env.liveAt block (instr :: rest) =
    (env.liveAt block rest \ instr.output.toFinset) ∪ env.func.instrUses block.id instr := rfl

theorem Env.mem_dying_stepAt {reg : Register n} : reg ∈ (env.stepAt block instr rest).dying ↔
    (instr.output = some reg ∧ reg ∉ env.liveAt block rest) ∨
      (reg ∈ env.func.instrUses block.id instr ∧
        ¬(reg ∈ env.liveAt block rest ∧ instr.output ≠ some reg)) := by
  simp [stepAt, dyingRegs]

variable (h : InSsaForm env.func) (hrun : env.liveness.IsRun) (hblock : block ∈ env.func.blocks)

include h hrun hblock in
theorem InSsaForm.output_of_liveAt (heq : block.instrs = pre ++ instr :: rest) :
    ∀ output ∈ instr.output, output ∉ env.liveAt block (instr :: rest) ∧
      (instr.copies = false → env.func.modelReg output = output ∧
        ∀ reg ∈ env.liveAt block (instr :: rest), env.func.modelReg reg ≠ output) := by
  intro output houtput
  have hinstrs := (instrsOf_of_mem hblock).trans heq
  have hnot := h.wellFormed.not_definedAt hblock heq houtput
  refine ⟨fun hmem => hnot (LivenessAnalysis.defined_of_liveBeforeAll h hblock hrun heq hmem),
    fun hcopies => ⟨modelReg_eq_self ?_, fun reg hreg hmodel => hnot ?_⟩⟩
  · have hmem : instr ∈ env.func.instrs := mem_instrs.mpr ⟨block, hblock, by simp [heq]⟩
    have hinstr : env.func.instr? output = some instr := by
      unfold instr?
      cases hfind : (env.func.blocks.flatMap BasicBlock.instrs).find? fun instr =>
          instr.output = some output with
      | none => exact absurd houtput (by simpa using find?_eq_none.mp hfind instr hmem)
      | some other =>
        exact congrArg some (h.wellFormed.def_unique (mem_of_find?_eq_some hfind) hmem
          (by simpa using find?_some hfind) houtput)
    simp [copiedFrom?, hinstr, hcopies]
  · exact hmodel ▸ h.defined_modelReg hinstrs
      (LivenessAnalysis.defined_of_liveBeforeAll h hblock hrun heq hreg)

theorem liveRegs_emitInstr : (emitInstr env mutate st instr).liveRegs = st.liveRegs :=
  liveRegs_emitIf _

include h hrun hblock in
theorem State.lists_processInstr (heq : block.instrs = pre ++ instr :: rest)
    (hphi : instr.isPhi = false) (hlists : st.liveRegs.Lists env.func
      (env.liveAt block (instr :: rest)))
    (hstep : st.processInstr env mutate (env.stepAt block instr rest) = some st') :
    st'.liveRegs.Lists env.func
      (if rest = [] then env.liveAt block (instr :: rest) else env.liveAt block rest) := by
  have hterminator := h.wellFormed.terminator block hblock pre instr rest heq
  have hshape := h.wellShaped block hblock instr (by simp [heq])
  unfold State.processInstr at hstep
  by_cases hedges : instr.numEdges > 0
  · have hrest := hterminator.mp (hshape.successors (length_pos_iff.mp hedges))
    simp only [Env.stepAt, hedges, if_true, Option.pure_def, Option.some.injEq] at hstep
    rw [if_pos hrest, ← hstep]
    exact hlists
  · simp only [Env.stepAt, hedges, if_false, hphi, Bool.false_eq_true, bind_eq_bind,
      bind_eq_some_iff, Option.pure_def] at hstep
    obtain ⟨effects, heffects, st₁, h₁, st₂, h₂, hstep⟩ := hstep
    have hlists₂ : (emitInstr env mutate st₂ instr).liveRegs.Lists env.func
        (env.liveAt block (instr :: rest)) := by
      rw [liveRegs_emitInstr]
      exact (hlists.of_sameCopies (sameCopies_invalidate h₁)).of_sameCopies
        (sameCopies_stealInputs h₂)
    by_cases hterm : instr.opcode.isTerminator = true
    · simp only [hterm, if_true, Option.some.injEq] at hstep
      rw [if_pos (hterminator.mp hterm), ← hstep]
      exact hlists₂
    · simp only [hterm, Bool.false_eq_true, if_false, bind_eq_some_iff] at hstep
      obtain ⟨st₃, h₃, h₄⟩ := hstep
      rw [if_neg fun hnil => hterm (hterminator.mpr hnil)]
      have hkilled := lists_killRegisters
        (lists_processOutput hlists₂ (h.output_of_liveAt hrun hblock heq) h₃) h₄
      have hsame : (env.liveAt block (instr :: rest) ∪ instr.output.toFinset) \
          ((finRange n).filter fun reg =>
            reg ∈ (env.stepAt block instr rest).dying).toFinset = env.liveAt block rest := by
        ext reg
        have huse := fun hmem : reg ∈ env.func.instrUses block.id instr =>
          h.output_ne hblock heq hmem
        simp only [Env.liveAt_cons, Finset.mem_sdiff, Finset.mem_union, Option.mem_toFinset,
          Option.mem_def, List.mem_toFinset, mem_filter, mem_finRange, true_and,
          decide_eq_true_eq, Env.mem_dying_stepAt]
        by_cases houtput : instr.output = some reg
        · have hnotUse : reg ∉ env.func.instrUses block.id instr := fun hmem => huse hmem houtput
          by_cases hlater : reg ∈ env.liveAt block rest <;> simp [houtput, hnotUse, hlater]
        · by_cases hmem : reg ∈ env.func.instrUses block.id instr <;>
            by_cases hlater : reg ∈ env.liveAt block rest <;> simp [houtput, hmem, hlater]
      rw [← hsame]
      exact hkilled

variable {mid phis : List (Instr n)}

include h hrun hblock in
theorem State.lists_processInstrs (hrest : rest ≠ [])
    (heq : block.instrs = pre ++ (mid ++ rest)) (hphi : ∀ instr ∈ mid, instr.isPhi = false)
    (hlists : st.liveRegs.Lists env.func (env.liveAt block (mid ++ rest)))
    (hsteps : st.processInstrs env mutate ((env.stepsAt block (mid ++ rest)).take mid.length) =
      some st') : st'.liveRegs.Lists env.func (env.liveAt block rest) := by
  induction mid generalizing pre st with
  | nil =>
    cases hsteps
    exact hlists
  | cons instr mid ih =>
    obtain ⟨hinstr, hmid⟩ := forall_mem_cons.mp hphi
    rw [cons_append, Env.stepsAt_cons, length_cons, take_succ_cons] at hsteps
    simp only [State.processInstrs, foldlM_cons, bind_eq_bind, bind_eq_some_iff] at hsteps
    obtain ⟨st₁, h₁, hsteps⟩ := hsteps
    have hlists₁ := lists_processInstr h hrun hblock heq hinstr hlists h₁
    rw [if_neg (by simp [hrest])] at hlists₁
    have heq' : block.instrs = (pre ++ [instr]) ++ (mid ++ rest) := heq.trans (by simp)
    exact ih heq' hmid hlists₁ hsteps

theorem Env.liveAt_phis (hphis : ∀ phi ∈ phis, phi.isPhi = true) :
    env.liveAt block (phis ++ rest) =
      env.liveAt block rest \ (phis.filterMap Instr.output).toFinset := by
  induction phis with
  | nil => simp
  | cons phi phis ih =>
    obtain ⟨hphi, hrest⟩ := forall_mem_cons.mp hphis
    rw [cons_append, Env.liveAt_cons, ih hrest, instrUses, if_pos hphi, Finset.union_empty]
    ext reg
    cases houtput : phi.output with
    | none => simp [houtput]
    | some output => simp [houtput]; tauto

theorem State.lists_processPhis (hphis : ∀ phi ∈ phis, phi.isPhi = true)
    (hshape : ∀ phi ∈ phis, phi.WellShaped) (hnodup : (phis.filterMap Instr.output).Nodup)
    (hrest : ∃ instr rest', rest = instr :: rest' ∧ instr.isPhi = false)
    (hlists : st.liveRegs.Lists env.func regs) (hsome : phis ≠ [] ∨ st.deferredDeaths = [])
    (hsteps : st.processInstrs env mutate ((env.stepsAt block (phis ++ rest)).take phis.length) =
      some st') :
    st'.liveRegs.Lists env.func (regs \ (st.deferredDeaths ++
      (phis.filterMap Instr.output).filter fun reg => reg ∉ env.liveAt block rest).toFinset) := by
  induction phis generalizing st regs with
  | nil =>
    cases hsteps
    simpa [hsome.resolve_left (by simp)] using hlists
  | cons phi phis ih =>
    obtain ⟨hphi, hphisRest⟩ := forall_mem_cons.mp hphis
    obtain ⟨hphiShape, hshapeRest⟩ := forall_mem_cons.mp hshape
    obtain ⟨output, houtput⟩ := Option.isSome_iff_exists.mp (hphiShape.phi_output hphi)
    rw [filterMap_cons_some houtput] at hnodup ⊢
    rw [cons_append, Env.stepsAt_cons, length_cons, take_succ_cons] at hsteps
    simp only [State.processInstrs, foldlM_cons, bind_eq_bind, bind_eq_some_iff] at hsteps
    obtain ⟨st₁, h₁, hsteps⟩ := hsteps
    obtain ⟨hnot, hnodupRest⟩ := nodup_cons.mp hnodup
    have hdying : (env.stepAt block phi (phis ++ rest)).dying.Nonempty ↔
        output ∉ env.liveAt block rest := by
      have huses : env.func.instrUses block.id phi = ∅ := by rw [instrUses, if_pos hphi]
      simp only [Finset.Nonempty, Env.mem_dying_stepAt, huses, houtput, Env.liveAt_phis hphisRest]
      constructor
      · rintro ⟨reg, ⟨hreg, hlive⟩ | ⟨hmem, -⟩⟩
        · cases hreg
          exact fun hmem => hlive (Finset.mem_sdiff.mpr ⟨hmem, by simpa using hnot⟩)
        · cases hmem
      · exact fun hlive =>
          ⟨output, Or.inl ⟨rfl, fun hmem => hlive (Finset.mem_sdiff.mp hmem).1⟩⟩
    obtain ⟨deaths, hdeaths⟩ : ∃ deaths, deaths = st.deferredDeaths ++
        [output].filter fun reg => reg ∉ env.liveAt block rest := ⟨_, rfl⟩
    have hdeaths' : (if (env.stepAt block phi (phis ++ rest)).dying.Nonempty then
        (emitInstr env mutate st phi).deferredDeaths ++
          (env.stepAt block phi (phis ++ rest)).instr.output.toList
        else (emitInstr env mutate st phi).deferredDeaths) = deaths := by
      have hsame : (emitInstr env mutate st phi).deferredDeaths = st.deferredDeaths := by
        cases mutate <;> rfl
      rw [hsame, hdeaths]
      by_cases hlive : output ∈ env.liveAt block rest
      · rw [if_neg (by simp [hdying, hlive])]
        simp [hlive]
      · rw [if_pos (hdying.mpr hlive)]
        simp [hlive, houtput, Env.stepAt]
    have hedges : phi.numEdges = 0 := by
      simp only [Instr.isPhi, decide_eq_true_eq] at hphi
      rw [Instr.numEdges, hphiShape.edges, hphi]
      rfl
    have hfilter : st.deferredDeaths ++ (output :: phis.filterMap Instr.output).filter
        (fun reg => reg ∉ env.liveAt block rest) = deaths ++ (phis.filterMap Instr.output).filter
        fun reg => reg ∉ env.liveAt block rest := by
      rw [hdeaths, ← singleton_append, filter_append, append_assoc]
    have hdeath : (emitInstr env mutate st phi).processPhiDeath env mutate
        (env.stepAt block phi (phis ++ rest)) = some st₁ := by
      rw [State.processInstr] at h₁
      simpa [Env.stepAt, hedges, hphi] using h₁
    unfold State.processPhiDeath at hdeath
    simp only [bind_eq_bind, bind_eq_some_iff] at hdeath
    obtain ⟨next, hnext, hdeath⟩ := hdeath
    rw [hdeaths'] at hdeath
    have hemitted : (emitInstr env mutate st phi).liveRegs.Lists env.func regs := by
      rw [liveRegs_emitInstr]
      exact hlists
    rw [hfilter]
    cases phis with
    | nil =>
      cases hsteps
      simp only [filterMap_nil, filter_nil, append_nil]
      split at hdeath
      · simp only [bind_eq_some_iff, Option.pure_def, Option.some.injEq] at hdeath
        obtain ⟨st₂, h₂, rfl⟩ := hdeath
        have hkilled := lists_killRegisters hemitted h₂
        exact hkilled
      next hlast =>
        obtain ⟨instr, rest', rfl, hinstr⟩ := hrest
        obtain rfl : instr = next := by simpa [Env.stepAt] using hnext
        have hnil : deaths = [] := by simpa [hinstr] using hlast
        cases hdeath
        simpa [hnil] using hemitted
    | cons phi' phis =>
      obtain rfl : phi' = next := by simpa [Env.stepAt] using hnext
      rw [if_neg (by simp [hphisRest phi' (by simp)])] at hdeath
      cases hdeath
      exact ih hphisRest hshapeRest hnodupRest (by exact hemitted) (Or.inl (by simp)) hsteps

def BasicBlock.phiOutputs (block : BasicBlock n) : Finset (Register n) :=
  (block.phis.filterMap Instr.output).toFinset

theorem Env.drop_stepsAt (front : List (Instr n)) :
    (env.stepsAt block (front ++ rest)).drop front.length = env.stepsAt block rest := by
  induction front with
  | nil => rfl
  | cons instr front ih => exact ih

theorem Env.liveIn_eq (hblock : block ∈ env.func.blocks) :
    env.liveIn block.id = env.liveAt block block.instrs := env.liveness.getIn_eq block hblock

include h hrun hblock in
theorem State.lists_block (hrest : rest ≠ []) (heq : block.body = mid ++ rest)
    (hlists : st.liveRegs.Lists env.func (env.liveIn block.id ∪ block.phiOutputs))
    (hdeaths : block.phis ≠ [] → st.deferredDeaths = []) (hsteps : st.processInstrs env mutate
      ((env.steps block).take (block.phis.length + mid.length)) = some st') :
    st'.liveRegs.Lists env.func (env.liveAt block rest) := by
  have hphis : ∀ phi ∈ block.phis, phi.isPhi = true := fun _ hphi =>
    isPhi_of_mem_phis hphi
  have hmem : ∀ phi ∈ block.phis, phi ∈ block.instrs := fun _ hphi =>
    block.instrs_eq ▸ mem_append_left _ hphi
  have hbody : ∀ instr ∈ mid ++ rest, instr.isPhi = false := fun instr hinstr =>
    h.wellFormed.not_isPhi_of_mem_body hblock (heq ▸ hinstr)
  have hinstrs : block.instrs = block.phis ++ (mid ++ rest) := heq ▸ block.instrs_eq
  have hstepsAt : env.steps block = env.stepsAt block (block.phis ++ (mid ++ rest)) := by
    rw [← hinstrs]
    rfl
  rw [hstepsAt, take_add, Env.drop_stepsAt, State.processInstrs, foldlM_append,
    bind_eq_bind, bind_eq_some_iff] at hsteps
  obtain ⟨st₁, h₁, hsteps⟩ := hsteps
  have hnodup : (block.phis.filterMap Instr.output).Nodup := by
    have hall := h.wellFormed.nodup_blockOutputs hblock
    rw [outputs, block.instrs_eq, filterMap_append] at hall
    exact (nodup_append'.mp hall).1
  have hlive : env.liveIn block.id ∪ block.phiOutputs =
      env.liveAt block (mid ++ rest) ∪ block.phiOutputs := by
    rw [Env.liveIn_eq hblock, hinstrs, Env.liveAt_phis hphis, phiOutputs,
      Finset.sdiff_union_self_eq_union]
  rw [hlive] at hlists
  have hlists₁ : st₁.liveRegs.Lists env.func (env.liveAt block (mid ++ rest)) := by
    by_cases hnone : block.phis = []
    · rw [hnone] at h₁
      cases h₁
      simpa [phiOutputs, hnone] using hlists
    · have hlists₁ := lists_processPhis hphis
        (fun phi hphi => h.wellShaped block hblock phi (hmem phi hphi)) hnodup
        (by
          cases hmid : mid ++ rest with
          | nil => simp [hrest] at hmid
          | cons instr rest' => exact ⟨instr, rest', rfl, hbody instr (by simp [hmid])⟩)
        hlists (Or.inl hnone) h₁
      rw [hdeaths hnone, nil_append] at hlists₁
      convert hlists₁ using 1
      ext reg
      simp only [phiOutputs, Finset.mem_sdiff, Finset.mem_union, List.mem_toFinset,
        mem_filter, decide_eq_true_eq]
      tauto
  exact lists_processInstrs h hrun hblock hrest hinstrs
    (fun instr hinstr => hbody instr (mem_append_left _ hinstr)) hlists₁ hsteps

def Env.liveAtEnd (env : Env n) (block : BasicBlock n) : Finset (Register n) :=
  env.liveAt block block.instrs.getLast?.toList

include h hblock in
theorem InSsaForm.body_eq : ∃ mid last, block.body = mid ++ [last] ∧
    block.instrs.getLast? = some last ∧ last.isPhi = false ∧ last.output = none := by
  obtain hnil | ⟨front, last, heq⟩ := eq_nil_or_concat block.instrs
  · exact absurd hnil (h.wellFormed.nonempty block hblock)
  · rw [concat_eq_append] at heq
    have hterm := (h.wellFormed.terminator block hblock front last [] heq).mpr rfl
    have hphi : last.isPhi = false := by
      cases hopcode : last.opcode <;> simp_all [Instr.isPhi, Opcode.isTerminator]
    have hlast : block.instrs.getLast? = some last := by simp [heq]
    obtain hnil | ⟨mid, instr, hbody⟩ := eq_nil_or_concat block.body
    · rw [block.instrs_eq, hnil, append_nil] at hlast
      rw [isPhi_of_mem_phis (mem_of_getLast? hlast)] at hphi
      cases hphi
    · rw [concat_eq_append] at hbody
      obtain rfl : instr = last := by
        rw [block.instrs_eq, hbody] at hlast
        simpa using hlast
      exact ⟨mid, instr, hbody, hlast, hphi,
        (h.wellShaped block hblock instr (by simp [heq])).output hterm⟩

include h hrun hblock in
theorem State.lists_wholeBlock
    (hlists : st.liveRegs.Lists env.func (env.liveIn block.id ∪ block.phiOutputs))
    (hdeaths : block.phis ≠ [] → st.deferredDeaths = [])
    (hsteps : st.processInstrs env mutate (env.steps block) = some st') :
    st'.liveRegs.Lists env.func (env.liveAtEnd block) := by
  obtain ⟨mid, last, hbody, hlast, hphi, -⟩ := h.body_eq hblock
  have hinstrs : block.instrs = (block.phis ++ mid) ++ [last] := by
    rw [append_assoc, ← hbody]
    exact block.instrs_eq
  have hdrop : (env.steps block).drop (block.phis.length + mid.length) =
      [env.stepAt block last []] := by
    have hstepsAt : env.steps block = env.stepsAt block ((block.phis ++ mid) ++ [last]) := by
      rw [← hinstrs]
      rfl
    rw [hstepsAt, ← length_append, Env.drop_stepsAt]
    rfl
  rw [← take_append_drop (block.phis.length + mid.length) (env.steps block), hdrop,
    State.processInstrs, foldlM_append, bind_eq_bind, bind_eq_some_iff] at hsteps
  obtain ⟨st₁, h₁, hsteps⟩ := hsteps
  simp only [foldlM_cons, foldlM_nil, bind_eq_bind, bind_eq_some_iff,
    Option.pure_def, Option.some.injEq, exists_eq_right] at hsteps
  have hlists₁ := lists_block h hrun hblock (by simp) hbody hlists hdeaths h₁
  have hlists' := lists_processInstr h hrun hblock hinstrs hphi hlists₁ hsteps
  rw [if_pos rfl] at hlists'
  rw [Env.liveAtEnd, hlast]
  exact hlists'

end Block

/-! ## Between blocks -/

section Blocks

open State StateMap

variable {env : Env n} {mutate : Bool} {st st' : State n} {block pred : BasicBlock n}
  {blocks : Blocks n} {order : List (Register n)} {inState : StateMap n}
  (h : InSsaForm env.func) (hrun : env.liveness.IsRun) (hblock : block ∈ env.func.blocks)

include h in
theorem Env.liveIn_subset (hpred : pred ∈ env.func.blocks) (hedge : block.id ∈ pred.outEdges) :
    env.liveIn block.id ⊆ env.liveAtEnd pred := by
  obtain ⟨-, last, -, hlast, -, houtput⟩ := h.body_eq hpred
  rw [Env.liveAtEnd, hlast]
  intro reg hreg
  refine Finset.mem_union_left _ (Finset.mem_sdiff.mpr ⟨?_, by simp [houtput]⟩)
  exact mem_liveOut.mpr ⟨block.id, hedge, hreg⟩

def Blocks.Tidy (blocks : Blocks n) (env : Env n) : Prop :=
  ∀ block ∈ env.func.blocks, ∀ blockState, blocks block.id = some blockState →
    blockState.out.Lists env.func (env.liveAtEnd block) ∧
    ((env.func.inEdges block.id).length > 1 →
      blockState.inState.Lists env.func (env.liveIn block.id ∪ block.phiOutputs))

include h hrun hblock in
theorem Env.liveIn_eq_empty (hnil : env.func.inEdges block.id = []) : env.liveIn block.id = ∅ := by
  refine Finset.eq_empty_of_forall_notMem fun reg hreg => ?_
  have hdefined : env.func.DefinedAt block.id [] reg := by
    rw [Env.liveIn_eq hblock] at hreg
    exact LivenessAnalysis.defined_of_liveBeforeAll h hblock hrun rfl hreg
  obtain ⟨walked, hwalk⟩ := h.wellFormed.cfg.reachable block.id
    (mem_blockIds.mpr ⟨block, hblock, rfl⟩)
  generalize block.id = id at hdefined hwalk hnil
  cases hwalk with
  | entry =>
    obtain ⟨_, hmem, -⟩ | hmem := hdefined [] .entry
    · cases hmem
    · cases hmem
  | step _ hedge =>
    have hmem := mem_inEdges.mpr hedge
    rw [hnil] at hmem
    cases hmem

theorem sameCopies_setUncountedOnEdge {term : Instr n} {id : BlockId}
    (hset : setUncountedOnEdge env term id st = some st') : SameCopies st.liveRegs
      st'.liveRegs := by
  unfold setUncountedOnEdge at hset
  split at hset
  · simp only at hset
    split at hset
    next hlive =>
      cases hset
      exact sameCopies_setRef hlive _
    · cases hset
  · cases hset
    exact .refl _

theorem mem_dyingOnEdge {state : StateMap n} {regs liveIn : Finset (Register n)} {reg : Register n}
    (hlists : state.Lists env.func regs) :
    reg ∈ dyingOnEdge state liveIn ↔ reg ∈ regs ∧ reg ∉ liveIn := by
  rw [dyingOnEdge, mem_flatMap, hlists.mem]
  constructor
  · rintro ⟨model, -, hmem⟩
    split at hmem
    next rstate hlive =>
      rw [mem_filter, mem_reverse, decide_eq_true_eq] at hmem
      obtain rfl := hlists.model model rstate hlive reg hmem.1
      exact ⟨⟨rstate, hlive, hmem.1⟩, hmem.2⟩
    · cases hmem
  · rintro ⟨⟨rstate, hlive, hmem⟩, hnot⟩
    refine ⟨env.func.modelReg reg, mem_finRange _, ?_⟩
    rw [hlive]
    simpa using ⟨hmem, hnot⟩

include h hrun hblock in
theorem lists_useSimpleInState (hblocks : blocks.Tidy env)
    (huse : useSimpleInState env mutate blocks block.id = some st) :
    st.liveRegs.Lists env.func (env.liveIn block.id) := by
  unfold useSimpleInState at huse
  split at huse
  next hnil =>
    cases huse
    rw [Env.liveIn_eq_empty h hrun hblock hnil]
    exact lists_empty
  next predId _ hedges =>
    simp only [bind_eq_bind, bind_eq_some_iff] at huse
    obtain ⟨predState, hstate, pred, hpred, term, -, st₁, h₁, h₂⟩ := huse
    obtain rfl := id_of_block? hpred
    have hpredMem := mem_blocks_of_block? hpred
    have hedge : block.id ∈ pred.outEdges := by
      rw [← succs_of_mem hpredMem, ← mem_inEdges, hedges]
      exact mem_cons_self ..
    have hlists₁ : st₁.liveRegs.Lists env.func (env.liveAtEnd pred) :=
      (hblocks pred hpredMem predState hstate).1.of_sameCopies (sameCopies_setUncountedOnEdge h₁)
    have hlists := lists_killRegisters hlists₁ h₂
    have hlive : env.liveAtEnd pred \
        (dyingOnEdge st₁.liveRegs (env.liveIn block.id)).toFinset = env.liveIn block.id := by
      ext reg
      have hsub := fun hmem : reg ∈ env.liveIn block.id =>
        Env.liveIn_subset h hpredMem hedge hmem
      rw [Finset.mem_sdiff, List.mem_toFinset, mem_dyingOnEdge hlists₁]
      tauto
    rwa [hlive] at hlists

theorem mem_phiOutputs {reg : Register n} : reg ∈ block.phiOutputs ↔ block.definesPhi reg =
    true := by
  simp [phiOutputs, definesPhi]

include h hrun hblock in
theorem lists_initializeInState (hpred : pred ∈ env.func.blocks) (hedge : block.id ∈ pred.outEdges)
    {predState : StateMap n} (hlists : predState.Lists env.func (env.liveAtEnd pred))
    (hinit : initializeInState env block predState = some inState) :
    inState.Lists env.func (env.liveIn block.id ∪ block.phiOutputs) := by
  unfold initializeInState at hinit
  simp only at hinit
  split at hinit
  case isFalse => cases hinit
  case isTrue hmodels =>
    -- A phi output is not live in, and nothing that is live in is a copy of one.
    have hphi : ∀ reg ∈ block.phiOutputs, env.func.modelReg reg = reg ∧
        reg ∉ (env.liveIn block.id).image env.func.modelReg := by
      intro reg hreg
      obtain ⟨phi, hphi, houtput⟩ := mem_filterMap.mp (List.mem_toFinset.mp hreg)
      obtain ⟨pre, rest, heq⟩ := append_of_mem
        (block.instrs_eq ▸ mem_append_left _ hphi : phi ∈ block.instrs)
      have hcopies : phi.copies = false := by
        have hisPhi := isPhi_of_mem_phis hphi
        simp only [Instr.isPhi, decide_eq_true_eq] at hisPhi
        simp [Instr.copies, Instr.isPassthrough, hisPhi]
      refine ⟨((h.output_of_liveAt hrun hblock heq reg houtput).2 hcopies).1, fun himage => ?_⟩
      obtain ⟨other, hother, hmodel⟩ := Finset.mem_image.mp himage
      rw [Env.liveIn_eq hblock] at hother
      have hdefined : env.func.DefinedAt block.id [] (env.func.modelReg other) :=
        h.defined_modelReg (instrsOf_of_mem hblock)
          (LivenessAnalysis.defined_of_liveBeforeAll h hblock hrun rfl hother)
      rw [hmodel] at hdefined
      exact h.wellFormed.not_mem_phis hblock hdefined (List.mem_toFinset.mp hreg)
    have hinState : ∀ model, inState model =
        if model ∈ (env.liveIn block.id).image env.func.modelReg then
          (predState model).map fun rstate =>
            ⟨rstate.copies.filter fun copy => copy ∈ env.liveIn block.id, .uncounted⟩
        else if block.definesPhi model then some (.ofModel model) else none := fun model => by
      rw [← Option.some.inj hinit]
    -- What is live in stands in the state of the predecessor.
    have hfrom : ∀ model rstate, model ∈ (env.liveIn block.id).image env.func.modelReg →
        inState model = some rstate → ∃ r, predState model = some r ∧
          rstate.copies = r.copies.filter fun copy => copy ∈ env.liveIn block.id := by
      intro model rstate himage hlive
      rw [hinState, if_pos himage, map_eq_some_iff] at hlive
      obtain ⟨r, hr, rfl⟩ := hlive
      exact ⟨r, hr, rfl⟩
    have hfromPhi : ∀ model rstate, model ∉ (env.liveIn block.id).image env.func.modelReg →
        inState model = some rstate → model ∈ block.phiOutputs ∧ rstate.copies = [model] := by
      intro model rstate himage hlive
      rw [hinState, if_neg himage] at hlive
      split at hlive
      next hdefines => exact ⟨mem_phiOutputs.mpr hdefines, by rw [← Option.some.inj hlive]; rfl⟩
      · cases hlive
    have hstands : ∀ reg ∈ env.liveIn block.id, ∃ r, predState (env.func.modelReg reg) = some r ∧
        reg ∈ r.copies := fun reg hreg =>
      (hlists.mem reg).mp (Env.liveIn_subset h hpred hedge hreg)
    refine ⟨fun model rstate hlive => ?_, fun model rstate hlive => ?_,
      fun model rstate hlive reg hreg => ?_, fun reg => ?_⟩
    · by_cases himage : model ∈ (env.liveIn block.id).image env.func.modelReg
      · obtain ⟨r, hr, hcopies⟩ := hfrom model rstate himage hlive
        rw [hcopies]
        exact (hlists.nodup model r hr).filter _
      · rw [(hfromPhi model rstate himage hlive).2]
        exact nodup_singleton _
    · by_cases himage : model ∈ (env.liveIn block.id).image env.func.modelReg
      · obtain ⟨r, hr, hcopies⟩ := hfrom model rstate himage hlive
        obtain ⟨reg, hreg, rfl⟩ := Finset.mem_image.mp himage
        obtain ⟨r', hr', hmem⟩ := hstands reg hreg
        obtain rfl := Option.some.inj (hr.symm.trans hr')
        rw [hcopies]
        exact ne_nil_of_mem (mem_filter.mpr ⟨hmem, by simpa using hreg⟩)
      · rw [(hfromPhi model rstate himage hlive).2]
        simp
    · by_cases himage : model ∈ (env.liveIn block.id).image env.func.modelReg
      · obtain ⟨r, hr, hcopies⟩ := hfrom model rstate himage hlive
        rw [hcopies] at hreg
        exact hlists.model model r hr reg (mem_filter.mp hreg).1
      · obtain ⟨hmodel, hcopies⟩ := hfromPhi model rstate himage hlive
        rw [hcopies, mem_singleton] at hreg
        rw [hreg]
        exact (hphi model hmodel).1
    · rw [Finset.mem_union]
      constructor
      · rintro (hreg | hreg)
        · obtain ⟨r, hr, hmem⟩ := hstands reg hreg
          refine ⟨_, by rw [hinState, if_pos (Finset.mem_image_of_mem _ hreg), hr]; rfl, ?_⟩
          exact mem_filter.mpr ⟨hmem, by simpa using hreg⟩
        · obtain ⟨hself, hnot⟩ := hphi reg hreg
          refine ⟨.ofModel reg, ?_, mem_singleton_self reg⟩
          rw [hself, hinState, if_neg hnot, if_pos (mem_phiOutputs.mp hreg)]
      · rintro ⟨rstate, hlive, hmem⟩
        by_cases himage : env.func.modelReg reg ∈ (env.liveIn block.id).image env.func.modelReg
        · obtain ⟨r, hr, hcopies⟩ := hfrom _ rstate himage hlive
          rw [hcopies] at hmem
          exact Or.inl (by simpa using (mem_filter.mp hmem).2)
        · obtain ⟨hmodel, hcopies⟩ := hfromPhi _ rstate himage hlive
          rw [hcopies, mem_singleton] at hmem
          exact Or.inr (hmem ▸ hmodel)

variable {preds : List (PredState n)} {inState' : StateMap n} {info : PhiSupport n}

theorem sameCopies_processPhis
    (hphis : processPhis env block preds inState = some (inState', info)) :
    SameCopies inState inState' := by
  have hfold : ∀ (phis : List (Instr n)) (acc acc' : StateMap n × PhiSupport n),
      phis.foldlM (processPhi env block preds) acc = some acc' → SameCopies acc.1 acc'.1 := by
    intro phis
    induction phis with
    | nil =>
      intro acc acc' hfold
      cases hfold
      exact .refl _
    | cons phi phis ih =>
      intro acc acc' hfold
      rw [foldlM_cons, bind_eq_bind, bind_eq_some_iff] at hfold
      obtain ⟨acc₁, h₁, hfold⟩ := hfold
      refine SameCopies.trans ?_ (ih acc₁ acc' hfold)
      obtain ⟨inState, info⟩ := acc
      simp only [processPhi, bind_eq_bind, bind_eq_some_iff] at h₁
      obtain ⟨output, -, rstate, hlive, h₁⟩ := h₁
      split at h₁
      · cases h₁
        exact .refl _
      · simp only [bind_eq_some_iff] at h₁
        obtain ⟨inputs, -, h₁⟩ := h₁
        split at h₁
        · cases h₁
          exact sameCopies_setRef hlive _
        · cases h₁
          exact sameCopies_setRef hlive _
  exact hfold _ _ _ hphis

theorem sameCopies_updateRefs (hrefs : updateRefs env block preds info order inState =
      some inState') :
    SameCopies inState inState' := by
  unfold updateRefs at hrefs
  split at hrefs
  case isFalse => cases hrefs
  case isTrue hall =>
    cases hrefs
    intro model
    cases hlive : inState model with
    | none => simp [hlive]
    | some rstate =>
      obtain ⟨ref, href⟩ := Option.isSome_iff_exists.mp (hall model rstate hlive)
      simp only [hlive, Option.bind_some, href]
      rfl

include h hrun hblock in
theorem lists_joinInState (hblocks : blocks.Tidy env)
    (hlength : (env.func.inEdges block.id).length > 1)
    (hjoin : joinInState env order blocks block = some inState) :
    inState.Lists env.func (env.liveIn block.id ∪ block.phiOutputs) := by
  unfold joinInState at hjoin
  cases hvisited : blocks block.id with
  | some blockState =>
    simp only [hvisited, bind_eq_bind, Option.bind_some, bind_eq_some_iff] at hjoin
    obtain ⟨⟨inState₁, info⟩, hphis, hrefs⟩ := hjoin
    exact (((hblocks block hblock blockState hvisited).2 hlength).of_sameCopies
      (sameCopies_processPhis hphis)).of_sameCopies (sameCopies_updateRefs hrefs)
  | none =>
    simp only [hvisited, bind_eq_bind, bind_eq_some_iff] at hjoin
    obtain ⟨first, hfirst, inState₀, hinit, ⟨inState₁, info⟩, hphis, hrefs⟩ := hjoin
    have hmem := mem_of_mem_head? hfirst
    simp only [collectPredStates, mem_filterMap, mem_insertionSort, map_eq_some_iff] at hmem
    obtain ⟨predId, hpredId, predState, hpredState, rfl⟩ := hmem
    obtain ⟨pred, hpred, rfl⟩ := mem_blockIds.mp (mem_blockIds_of_mem_inEdges hpredId)
    have hedge : block.id ∈ pred.outEdges := by
      rwa [← succs_of_mem hpred, ← mem_inEdges]
    exact ((lists_initializeInState h hrun hblock hpred hedge
      (hblocks pred hpred predState hpredState).1 hinit).of_sameCopies
      (sameCopies_processPhis hphis)).of_sameCopies (sameCopies_updateRefs hrefs)

include h hrun hblock in
theorem Analysis.lists_updateInState
    (hphis : (env.func.inEdges block.id).length ≤ 1 → block.phis = [])
    (hblocks : blocks.Tidy env)
    (hupdate : Analysis.updateInState env order blocks block = some (st, inState)) :
    st.liveRegs.Lists env.func (env.liveIn block.id ∪ block.phiOutputs) ∧
      (block.phis ≠ [] → st.deferredDeaths = []) ∧
      ((env.func.inEdges block.id).length > 1 →
        inState.Lists env.func (env.liveIn block.id ∪ block.phiOutputs)) := by
  unfold Analysis.updateInState at hupdate
  split at hupdate
  next hlength =>
    simp only [bind_eq_bind, bind_eq_some_iff, Option.pure_def, Option.some.injEq,
      Prod.mk.injEq] at hupdate
    obtain ⟨st₁, h₁, rfl, -⟩ := hupdate
    have hnone : block.phiOutputs = ∅ := by simp [phiOutputs, hphis hlength]
    rw [hnone, Finset.union_empty]
    exact ⟨lists_useSimpleInState h hrun hblock hblocks h₁, fun hne => absurd (hphis hlength) hne,
      fun hmore => absurd hlength (by omega)⟩
  next hlength =>
    simp only [bind_eq_bind, bind_eq_some_iff, Option.pure_def, Option.some.injEq,
      Prod.mk.injEq] at hupdate
    obtain ⟨inState₁, hjoin, rfl, rfl⟩ := hupdate
    have hlists := lists_joinInState h hrun hblock hblocks (by omega) hjoin
    exact ⟨hlists, fun _ => rfl, fun _ => hlists⟩

include h hrun in
theorem Analysis.tidy_visit {analysis analysis' : Analysis n}
    (hphis : ∀ block ∈ env.func.blocks, (env.func.inEdges block.id).length ≤ 1 → block.phis = [])
    (hblocks : analysis.blocks.Tidy env) (hvisit : analysis.visit env order = some analysis') :
    analysis'.blocks.Tidy env := by
  unfold Analysis.visit at hvisit
  split at hvisit
  · cases hvisit
  next id worklist _ =>
    simp only [bind_eq_bind, bind_eq_some_iff, Option.pure_def, Option.some.injEq] at hvisit
    obtain ⟨block, hblock, ⟨entry, inState⟩, hupdate, st, hst, rfl⟩ := hvisit
    obtain rfl := Function.id_of_block? hblock
    have hmem := Function.mem_blocks_of_block? hblock
    obtain ⟨hentry, hdeaths, hin⟩ :=
      Analysis.lists_updateInState h hrun hmem (hphis block hmem) hblocks hupdate
    have hout := State.lists_wholeBlock h hrun hmem hentry hdeaths hst
    intro other hother blockState hblockState
    by_cases hsame : other.id = block.id
    · obtain rfl : other = block :=
        inj_on_of_nodup_map env.func.nodupIds hother hmem hsame
      simp only [Function.update_self] at hblockState
      cases hblockState
      exact ⟨hout, hin⟩
    · have hkept : analysis.blocks other.id = some blockState :=
        (Function.update_of_ne hsame _ _).symm.trans hblockState
      exact hblocks other hother blockState hkept

include h hrun in
theorem Analysis.tidy_of_steps {rpoBlocks : List BlockId} {analysis : Analysis n}
    (hphis : ∀ block ∈ env.func.blocks, (env.func.inEdges block.id).length ≤ 1 → block.phis = [])
    (hsteps : Relation.ReflTransGen (Analysis.Step env) (Analysis.start rpoBlocks) analysis) :
    analysis.blocks.Tidy env := by
  induction hsteps with
  | refl => exact fun _ _ _ hnone => by cases hnone
  | tail _ hstep ih =>
    obtain ⟨order, -, hvisit⟩ := hstep
    exact Analysis.tidy_visit h hrun hphis ih hvisit

include h hrun hblock in
theorem lists_enterBlock (hphis : (env.func.inEdges block.id).length ≤ 1 → block.phis = [])
    (hblocks : blocks.Tidy env) (henter : enterBlock env blocks block = some st) :
    st.liveRegs.Lists env.func (env.liveIn block.id ∪ block.phiOutputs) ∧
      (block.phis ≠ [] → st.deferredDeaths = []) := by
  unfold enterBlock at henter
  split at henter
  next hlength =>
    have hnone : block.phiOutputs = ∅ := by simp [phiOutputs, hphis hlength]
    rw [hnone, Finset.union_empty]
    exact ⟨lists_useSimpleInState h hrun hblock hblocks henter,
      fun hne => absurd (hphis hlength) hne⟩
  next hlength =>
    obtain ⟨blockState, hblockState, rfl⟩ := map_eq_some_iff.mp henter
    exact ⟨(hblocks block hblock blockState hblockState).2 (by omega), fun _ => rfl⟩

end Blocks

end CinderX.Jit.Hir
