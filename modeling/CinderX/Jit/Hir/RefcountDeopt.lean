import CinderX.Jit.Hir.RefcountLive

/-!
# Live registers of deopting instructions

`fillDeoptLiveRegs` lists the copies of every live value with the kind of the
reference to each.  In the second phase the state lists exactly the registers
that are used later, so that the list names every one of them once; an owned
value has one owned copy in it, and a value whose reference has gone to the
instruction has none.
-/

namespace CinderX.Jit.Hir

open State List Option

variable {n : Nat} {env : Env n} {live : StateMap n} {regs : Finset (Register n)}

def RegState.deoptCopies (env : Env n) (rstate : RegState n) : List (Register n) :=
  rstate.copies.filter fun copy => !env.func.couldBeCPtr copy

/-- What the loop of `fillDeoptLiveRegs` appends for one value. -/
def RegState.deoptEntries (env : Env n) (rstate : RegState n) : List (Register n × RefKind) :=
  match rstate.ref.kind, rstate.deoptCopies env with
  | .kOwned, first :: rest => (first, .kOwned) :: rest.map fun copy => (copy, .kBorrowed)
  | kind, copies => copies.map fun copy => (copy, kind)

namespace RegState

variable {rstate : RegState n} {reg : Register n} {kind : RefKind}

theorem deoptEntries_of_ne (hkind : rstate.ref.kind ≠ .kOwned) :
    rstate.deoptEntries env =
      (rstate.deoptCopies env).map fun copy => (copy, rstate.ref.kind) := by
  unfold deoptEntries
  split
  next howned _ => exact absurd howned hkind
  next => rfl

theorem deoptEntries_of_owned (hkind : rstate.ref.kind = .kOwned) :
    rstate.deoptEntries env = ((rstate.deoptCopies env).take 1).map (fun copy => (copy, .kOwned)) ++
      ((rstate.deoptCopies env).drop 1).map fun copy => (copy, .kBorrowed) := by
  unfold deoptEntries
  cases hcopies : rstate.deoptCopies env with
  | nil => simp [hkind]
  | cons first rest => simp [hkind]

theorem map_fst_deoptEntries :
    (rstate.deoptEntries env).map Prod.fst = rstate.deoptCopies env := by
  by_cases hkind : rstate.ref.kind = .kOwned
  · rw [deoptEntries_of_owned hkind, map_append, List.map_map, List.map_map]
    exact (congrArg₂ _ (List.map_id _) (List.map_id _)).trans (take_append_drop 1 _)
  · rw [deoptEntries_of_ne hkind, List.map_map]
    exact List.map_id _

theorem kind_of_mem_deoptEntries (hmem : (reg, kind) ∈ rstate.deoptEntries env) :
    kind = rstate.ref.kind ∨ (rstate.ref.kind = .kOwned ∧ kind = .kBorrowed) := by
  by_cases hkind : rstate.ref.kind = .kOwned
  · rw [deoptEntries_of_owned hkind, mem_append] at hmem
    obtain hmem | hmem := hmem
    · obtain ⟨_, _, hcopy⟩ := List.mem_map.mp hmem
      exact Or.inl ((Prod.ext_iff.mp hcopy).2.symm.trans hkind.symm)
    · obtain ⟨_, _, hcopy⟩ := List.mem_map.mp hmem
      exact Or.inr ⟨hkind, (Prod.ext_iff.mp hcopy).2.symm⟩
  · rw [deoptEntries_of_ne hkind] at hmem
    obtain ⟨_, _, hcopy⟩ := List.mem_map.mp hmem
    exact Or.inl (Prod.ext_iff.mp hcopy).2.symm

theorem mem_deoptEntries_owned : (reg, .kOwned) ∈ rstate.deoptEntries env ↔
    rstate.ref.kind = .kOwned ∧ (rstate.deoptCopies env).head? = some reg := by
  by_cases hkind : rstate.ref.kind = .kOwned
  · rw [deoptEntries_of_owned hkind]
    cases rstate.deoptCopies env <;> simp [hkind, eq_comm]
  · constructor
    · intro hmem
      obtain hsame | ⟨hsame, -⟩ := kind_of_mem_deoptEntries hmem
      · exact absurd hsame.symm hkind
      · exact absurd hsame hkind
    · rintro ⟨howned, -⟩
      exact absurd howned hkind

end RegState

def deoptEntries (env : Env n) (live : StateMap n) : List (Register n × RefKind) :=
  (finRange n).flatMap fun model => (live model).elim [] (RegState.deoptEntries env)

theorem deoptLiveRegs_eq : deoptLiveRegs env live =
    (deoptEntries env live).insertionSort fun a b => a.1 ≤ b.1 := by
  unfold deoptLiveRegs deoptEntries
  refine congrArg (insertionSort _) (flatMap_congr fun model _ => ?_)
  cases live model with
  | none => rfl
  | some rstate => rfl

theorem mem_deoptLiveRegs {entry : Register n × RefKind} : entry ∈ deoptLiveRegs env live ↔
    ∃ model rstate, live model = some rstate ∧ entry ∈ rstate.deoptEntries env := by
  rw [deoptLiveRegs_eq, mem_insertionSort, deoptEntries, mem_flatMap]
  constructor
  · rintro ⟨model, -, hmem⟩
    cases hlive : live model with
    | none => simp [hlive] at hmem
    | some rstate => exact ⟨model, rstate, hlive, by simpa [hlive] using hmem⟩
  · rintro ⟨model, rstate, hlive, hmem⟩
    exact ⟨model, mem_finRange _, by simpa [hlive] using hmem⟩

structure DescribesLive (env : Env n) (live : StateMap n) (regs : Finset (Register n))
    (entries : List (Register n × RefKind)) : Prop where
  /-- The list is sorted, and no register stands in it twice. -/
  sorted : (entries.map Prod.fst).Pairwise (· < ·)
  /-- It names the live registers, those aside that are never deopted. -/
  mem : ∀ reg, (∃ kind, (reg, kind) ∈ entries) ↔ reg ∈ regs ∧ env.func.couldBeCPtr reg = false
  /-- Each has the kind of its value, or is a further copy of an owned value. -/
  kind : ∀ reg kind, (reg, kind) ∈ entries →
    ∃ rstate, live (env.func.modelReg reg) = some rstate ∧
      (kind = rstate.ref.kind ∨ (rstate.ref.kind = .kOwned ∧ kind = .kBorrowed))
  /-- One copy of an owned value is owned. -/
  owned : ∀ model rstate, live model = some rstate → rstate.ref.kind = .kOwned →
    (∃ copy ∈ rstate.copies, env.func.couldBeCPtr copy = false) →
      ∃! reg, (reg, .kOwned) ∈ entries ∧ env.func.modelReg reg = model

theorem StateMap.Lists.nodup_deoptEntries (h : live.Lists env.func regs) :
    ((deoptEntries env live).map Prod.fst).Nodup := by
  rw [deoptEntries, map_flatMap, nodup_flatMap]
  have hcopies : ∀ model reg, reg ∈
      ((live model).elim [] (RegState.deoptEntries env)).map Prod.fst →
      env.func.modelReg reg = model := by
    intro model reg hreg
    cases hlive : live model with
    | none => simp [hlive] at hreg
    | some rstate =>
      rw [hlive, elim_some, RegState.map_fst_deoptEntries] at hreg
      exact h.model model rstate hlive reg (mem_of_mem_filter hreg)
  constructor
  · intro model _
    cases hlive : live model with
    | none => exact nodup_nil
    | some rstate =>
      rw [elim_some, RegState.map_fst_deoptEntries]
      exact (h.nodup model rstate hlive).filter _
  · refine (nodup_finRange n).imp fun hne => ?_
    intro reg hreg hreg'
    exact hne ((hcopies _ _ hreg).symm.trans (hcopies _ _ hreg'))

theorem StateMap.Lists.describesLive (h : live.Lists env.func regs) :
    DescribesLive env live regs (deoptLiveRegs env live) where
  sorted := by
    have hperm : ((deoptLiveRegs env live).map Prod.fst).Perm
        ((deoptEntries env live).map Prod.fst) := by
      rw [deoptLiveRegs_eq]
      exact (perm_insertionSort _ _).map _
    have hle : ((deoptLiveRegs env live).map Prod.fst).Pairwise (· ≤ ·) := by
      rw [deoptLiveRegs_eq]
      exact pairwise_map.mpr (pairwise_insertionSort _ _)
    have hne : ((deoptLiveRegs env live).map Prod.fst).Pairwise (· ≠ ·) :=
      hperm.nodup_iff.mpr h.nodup_deoptEntries
    exact (hle.and hne).imp fun h => lt_of_le_of_ne h.1 h.2
  mem reg := by
    have hentries : ∀ rstate : RegState n,
        (∃ kind, (reg, kind) ∈ rstate.deoptEntries env) ↔
          reg ∈ rstate.copies ∧ env.func.couldBeCPtr reg = false := by
      intro rstate
      have hfst : (∃ kind, (reg, kind) ∈ rstate.deoptEntries env) ↔
          reg ∈ (rstate.deoptEntries env).map Prod.fst := by simp
      rw [hfst, RegState.map_fst_deoptEntries, RegState.deoptCopies, mem_filter,
        Bool.not_eq_true']
    simp only [mem_deoptLiveRegs]
    constructor
    · rintro ⟨kind, model, rstate, hlive, hmem⟩
      obtain ⟨hreg, hptr⟩ := (hentries rstate).mp ⟨kind, hmem⟩
      exact ⟨h.mem_of_copies hlive hreg, hptr⟩
    · rintro ⟨hreg, hptr⟩
      obtain ⟨rstate, hlive, hcopy⟩ := (h.mem reg).mp hreg
      obtain ⟨kind, hmem⟩ := (hentries rstate).mpr ⟨hcopy, hptr⟩
      exact ⟨kind, _, rstate, hlive, hmem⟩
  kind reg kind hmem := by
    obtain ⟨model, rstate, hlive, hentry⟩ := mem_deoptLiveRegs.mp hmem
    have hcopy : reg ∈ rstate.deoptCopies env := by
      rw [← RegState.map_fst_deoptEntries]
      exact List.mem_map_of_mem hentry
    obtain rfl := h.model model rstate hlive reg (mem_of_mem_filter hcopy)
    exact ⟨rstate, hlive, RegState.kind_of_mem_deoptEntries hentry⟩
  owned model rstate hlive hkind hsome := by
    obtain ⟨copy, hcopy, hptr⟩ := hsome
    have hne : rstate.deoptCopies env ≠ [] :=
      ne_nil_of_mem (mem_filter.mpr ⟨hcopy, by simp [hptr]⟩)
    obtain ⟨first, hfirst⟩ := isSome_iff_exists.mp
      (isSome_head?.mpr hne)
    have hmodel : env.func.modelReg first = model :=
      h.model model rstate hlive first
        (mem_of_mem_filter (mem_of_mem_head? hfirst))
    refine ⟨first, ⟨mem_deoptLiveRegs.mpr ⟨model, rstate, hlive,
      RegState.mem_deoptEntries_owned.mpr ⟨hkind, hfirst⟩⟩, hmodel⟩, ?_⟩
    rintro reg ⟨hmem, hreg⟩
    obtain ⟨model', rstate', hlive', hentry⟩ := mem_deoptLiveRegs.mp hmem
    obtain ⟨-, hhead⟩ := RegState.mem_deoptEntries_owned.mp hentry
    have hmodel' : env.func.modelReg reg = model' :=
      h.model model' rstate' hlive' reg
        (mem_of_mem_filter (mem_of_mem_head? hhead))
    obtain rfl : model = model' := hreg.symm.trans hmodel'
    obtain rfl := Option.some.inj (hlive.symm.trans hlive')
    exact Option.some.inj (hhead.symm.trans hfirst)

namespace State

variable {st st' : State n} {instr : Instr n} {dying : Finset (Register n)} {reg other : Register n}

def NotOwned (st : State n) (model : Register n) : Prop :=
  ∀ rstate, st.liveRegs model = some rstate → rstate.ref.kind ≠ .kOwned

variable {model copy : Register n}

theorem liveRegs_setLive {rstate : Option (RegState n)} :
    (st.setLive model rstate).liveRegs = Function.update st.liveRegs model rstate := rfl

theorem notOwned_stealInput (h : stealInput env true instr dying st reg = some st')
    (hnot : st.NotOwned model) : st'.NotOwned model := by
  unfold stealInput at h
  simp only [bind_eq_bind, bind_eq_some_iff, Option.pure_def] at h
  obtain ⟨rstate, hlive, h⟩ := h
  split at h
  · split at h
    · cases h
      exact hnot
    · cases h
      intro rstate' hlive'
      by_cases hmodel : model = env.func.modelReg reg
      · subst hmodel
        rw [liveRegs_setLive, Function.update_self] at hlive'
        cases hlive'
        simp [RegState.setRef, Ref.kind]
      · rw [liveRegs_setLive, Function.update_of_ne hmodel] at hlive'
        exact hnot rstate' hlive'
  · split at h
    · cases h
      intro rstate' hlive'
      rw [liveRegs_emitIf] at hlive'
      exact hnot rstate' hlive'
    · cases h
      exact hnot

theorem notOwned_of_stolen (h : stealInput env true instr dying st reg = some st')
    (hdying : reg ∈ dying) (hkeeps : keepsYielded true instr reg = false) :
    st'.NotOwned (env.func.modelReg reg) := by
  by_cases hnot : st.NotOwned (env.func.modelReg reg)
  · exact notOwned_stealInput h hnot
  · unfold NotOwned at hnot
    push Not at hnot
    obtain ⟨rstate, hlive, hkind⟩ := hnot
    have howned : rstate.ref = .owned := by
      cases href : rstate.ref <;> simp_all [Ref.kind]
    unfold stealInput at h
    simp only [hlive, bind_eq_bind, bind_some, howned, hdying, and_self, if_true,
      hkeeps, Bool.false_eq_true, if_false, Option.pure_def, Option.some.injEq] at h
    subst h
    intro rstate' hlive'
    rw [liveRegs_setLive, Function.update_self] at hlive'
    cases hlive'
    simp [RegState.setRef, Ref.kind]

theorem notOwned_stealInputs {stolen : List Nat} {i : Nat}
    (h : st.stealInputs env true instr stolen dying = some st') (hi : i ∈ stolen)
    (hreg : instr.operands[i]? = some reg) (hdying : reg ∈ dying)
    (hkeeps : keepsYielded true instr reg = false) : st'.NotOwned (env.func.modelReg reg) := by
  unfold stealInputs at h
  have hmem : reg ∈ stolen.filterMap fun i => instr.operands[i]? :=
    mem_filterMap.mpr ⟨i, hi, hreg⟩
  generalize (stolen.filterMap fun i => instr.operands[i]?) = regs at h hmem
  have hkept : ∀ (regs : List (Register n)) (st : State n), st.NotOwned (env.func.modelReg reg) →
      regs.foldlM (stealInput env true instr dying) st = some st' →
      st'.NotOwned (env.func.modelReg reg) := by
    intro regs
    induction regs with
    | nil =>
      intro st hnot h
      cases h
      exact hnot
    | cons other regs ih =>
      intro st hnot h
      rw [foldlM_cons, bind_eq_bind, bind_eq_some_iff] at h
      obtain ⟨st₁, h₁, h⟩ := h
      exact ih st₁ (notOwned_stealInput h₁ hnot) h
  induction regs generalizing st with
  | nil => cases hmem
  | cons other regs ih =>
    rw [foldlM_cons, bind_eq_bind, bind_eq_some_iff] at h
    obtain ⟨st₁, h₁, h⟩ := h
    obtain rfl | hmem := mem_cons.mp hmem
    · exact hkept regs st₁ (notOwned_of_stolen h₁ hdying hkeeps) h
    · exact ih h hmem

/-! ## The emitted instruction -/

def beforeInstr (env : Env n) (st : State n) (step : InstrStep n) : Option (State n) := do
  let effects ← memoryEffects env.freeThreaded step.instr
  let st ← st.invalidateBorrowSupport env true (.acls effects.mayStore)
  st.stealInputs env true step.instr effects.stolenInputs step.dying

theorem prefix_emitIf (ops : List (Op n)) : st.code <+: (st.emitIf true ops).code :=
  prefix_append _ _

theorem prefix_invalidate {support : Support n}
    (h : st.invalidateBorrowSupport env true support = some st') : st.code <+: st'.code := by
  unfold invalidateBorrowSupport at h
  split at h
  · cases h
    exact prefix_rfl
  · split at h
    · cases h
    · cases h
      exact prefix_append _ _

theorem prefix_dropOwned
    (h : st.dropOwned env true model copy = some st') : st.code <+: st'.code := by
  unfold dropOwned at h
  cases hbit : env.hasBit model with
  | true =>
    simp only [hbit, if_true, bind_eq_bind, bind_eq_some_iff, Option.pure_def,
      Option.some.injEq] at h
    obtain ⟨st₁, h₁, st₂, h₂, rfl⟩ := h
    exact ((prefix_invalidate h₁).trans (prefix_invalidate h₂)).trans (prefix_emitIf _)
  | false =>
    simp only [hbit, Bool.false_eq_true, if_false, bind_eq_bind, bind_some,
      bind_eq_some_iff, Option.pure_def, Option.some.injEq] at h
    obtain ⟨st₂, h₂, rfl⟩ := h
    exact (prefix_invalidate h₂).trans (prefix_emitIf _)

theorem prefix_killRegister
    (h : st.killRegister env true copy = some st') : st.code <+: st'.code := by
  unfold killRegister at h
  simp only [bind_eq_bind, bind_eq_some_iff, Option.pure_def] at h
  obtain ⟨rstate, -, h⟩ := h
  split at h
  · cases h
  · split at h
    · cases h
      exact prefix_rfl
    · by_cases howned : rstate.ref = .owned
      · simp only [howned, if_true, bind_eq_some_iff, Option.some.injEq] at h
        obtain ⟨st₁, h₁, rfl⟩ := h
        have hdropped : st.code <+: st₁.code := prefix_dropOwned h₁
        exact hdropped
      · simp only [howned, if_false, bind_some, Option.some.injEq] at h
        exact h ▸ prefix_rfl

theorem prefix_killRegisters {regs : List (Register n)}
    (h : st.killRegisters env true regs = some st') : st.code <+: st'.code := by
  unfold killRegisters at h
  split at h
  case isTrue hall =>
    clear hall
    generalize (regs.insertionSort fun a b => st.killKey env a ≤ st.killKey env b) = regs at h
    induction regs generalizing st with
    | nil =>
      cases h
      exact prefix_rfl
    | cons copy regs ih =>
      rw [foldlM_cons, bind_eq_bind, bind_eq_some_iff] at h
      obtain ⟨st₁, h₁, h⟩ := h
      exact (prefix_killRegister h₁).trans (ih h)
  case isFalse => cases h

theorem code_processOutput {effects : MemoryEffects}
    (h : st.processOutput env instr effects = some st') : st'.code = st.code := by
  unfold processOutput at h
  cases houtput : instr.output with
  | none =>
    rw [houtput] at h
    cases h
    rfl
  | some output =>
    simp only [houtput] at h
    split at h
    · simp only [bind_eq_bind, bind_eq_some_iff, Option.pure_def,
        Option.some.injEq] at h
      obtain ⟨rstate, -, rfl⟩ := h
      rfl
    · split at h
      · cases h
        rfl
      · split at h
        · split at h <;> · cases h
                           rfl
        · cases h
          rfl

theorem exists_beforeInstr {step : InstrStep n} (h : st.processInstr env true step = some st')
    (hphi : step.instr.isPhi = false) (hedges : step.instr.numEdges = 0)
    (hdeopt : step.instr.deopt.isSome) :
    ∃ st₁ more, st.beforeInstr env step = some st₁ ∧
      st'.code = st₁.code ++ .instr step.instr (deoptLiveRegs env st₁.liveRegs) :: more := by
  unfold processInstr at h
  simp only [hedges, lt_irrefl, if_false, hphi, Bool.false_eq_true, bind_eq_bind,
    bind_eq_some_iff, Option.pure_def] at h
  obtain ⟨effects, heffects, st₁, h₁, st₂, h₂, h⟩ := h
  have hbefore : st.beforeInstr env step = some st₂ := by
    simp [beforeInstr, heffects, h₁, h₂]
  have hcode : (emitInstr env true st₂ step.instr).code =
      st₂.code ++ [.instr step.instr (deoptLiveRegs env st₂.liveRegs)] := by
    simp [emitInstr, emitIf, emit, hdeopt]
  have hextended : (emitInstr env true st₂ step.instr).code <+: st'.code := by
    split at h
    · cases h
      exact prefix_rfl
    · obtain ⟨st₃, h₃, h⟩ := bind_eq_some_iff.mp h
      exact code_processOutput h₃ ▸ prefix_killRegisters h
  obtain ⟨more, hmore⟩ := hextended
  exact ⟨st₂, more, hbefore, by rw [← hmore, hcode, append_assoc]; rfl⟩

end State

section Block

variable {block : BasicBlock n} {done left : List (InstrStep n)} {step : InstrStep n}

theorem Function.stepsOf_eq_append {f : Function n} {id : BlockId} {after : Finset (Register n)}
    {instrs : List (Instr n)} (h : f.stepsOf id after instrs = done ++ step :: left) :
    ∃ pre rest, instrs = pre ++ step.instr :: rest ∧ pre.length = done.length ∧
      rest = left.map InstrStep.instr ∧
      step = ⟨step.instr, f.dyingRegs id step.instr (f.liveBeforeAll id after rest),
        rest.head?⟩ := by
  induction instrs generalizing done with
  | nil => simp [stepsOf] at h
  | cons instr instrs ih =>
    cases done with
    | nil =>
      cases h
      refine ⟨[], instrs, rfl, rfl, ?_, rfl⟩
      have hmap : ∀ rest, (f.stepsOf id after rest).map InstrStep.instr = rest := by
        intro rest
        induction rest with
        | nil => rfl
        | cons _ rest ih => exact congrArg _ ih
      exact (hmap instrs).symm
    | cons first done =>
      obtain ⟨-, h⟩ := List.cons.inj h
      obtain ⟨pre, rest, heq, hlength, hrest, hstep⟩ := ih h
      exact ⟨instr :: pre, rest, by rw [heq]; rfl, by simp [hlength], hrest, hstep⟩

theorem sameCopies_beforeInstr {st st₁ : State n} (h : st.beforeInstr env step = some st₁) :
    StateMap.SameCopies st.liveRegs st₁.liveRegs := by
  unfold beforeInstr at h
  simp only [bind_eq_bind, bind_eq_some_iff] at h
  obtain ⟨effects, -, st₂, h₂, h₁⟩ := h
  exact (sameCopies_invalidate h₂).trans (sameCopies_stealInputs h₁)

/-- Every deopting instruction that the second phase processes lists the registers that are used
by it or later, each once; an operand whose reference it takes is not listed as owned. -/
theorem deoptLiveRegs_listed {rpoBlocks : List BlockId} {analysis : Analysis n}
    (h : InSsaForm env.func) (hrun : env.liveness.IsRun)
    (hphis : ∀ block ∈ env.func.blocks, (env.func.inEdges block.id).length ≤ 1 → block.phis = [])
    (hconverged : Analysis.Converged env rpoBlocks analysis) (hblock : block ∈ env.func.blocks)
    {entry st st' : State n} (henter : enterBlock env analysis.blocks block = some entry)
    (hsplit : env.steps block = done ++ step :: left)
    (hdone : entry.processInstrs env true done = some st)
    (hstep : st.processInstr env true step = some st') (hphi : step.instr.isPhi = false)
    (hedges : step.instr.numEdges = 0) (hdeopt : step.instr.deopt.isSome) :
    ∃ st₁ more entries, st.beforeInstr env step = some st₁ ∧
      st'.code = st₁.code ++ .instr step.instr entries :: more ∧
      (∃ regs, (∀ reg, reg ∈ regs ↔ env.func.UsedLater reg block.id
          (step.instr :: left.map InstrStep.instr)) ∧
        DescribesLive env st₁.liveRegs regs entries) ∧
      ∀ effects, memoryEffects env.freeThreaded step.instr = some effects →
        ∀ i ∈ effects.stolenInputs, ∀ reg, step.instr.operands[i]? = some reg →
          reg ∈ step.dying → keepsYielded true step.instr reg = false →
            ∀ copy, env.func.modelReg copy = env.func.modelReg reg →
              (copy, RefKind.kOwned) ∉ entries := by
  obtain ⟨pre, rest, heq, hlength, hrest, hstepEq⟩ := Function.stepsOf_eq_append hsplit
  obtain ⟨mid, hmid, hbody⟩ : ∃ mid, pre = block.phis ++ mid ∧
      block.body = mid ++ step.instr :: rest := by
    obtain ⟨mid, hmid, hbody⟩ | ⟨phis, hblockPhis, hbody⟩ :=
      append_eq_append_iff.mp (block.instrs_eq ▸ heq)
    · exact ⟨mid, hmid, hbody⟩
    · cases phis with
      | nil => exact ⟨[], by simpa using hblockPhis.symm, hbody.symm⟩
      | cons phi phis =>
        obtain ⟨rfl, -⟩ := List.cons.inj hbody
        have hmem : step.instr ∈ block.phis := by rw [hblockPhis]; simp
        rw [BasicBlock.isPhi_of_mem_phis hmem] at hphi
        cases hphi
  obtain ⟨hentry, hdeaths⟩ := lists_enterBlock h hrun hblock (hphis block hblock)
    (Analysis.tidy_of_steps h hrun hphis hconverged.1) henter
  have htake : (env.steps block).take (block.phis.length + mid.length) = done := by
    rw [hsplit, ← length_append, ← hmid, hlength, take_left]
  have hlists := State.lists_block h hrun hblock (cons_ne_nil _ _) hbody hentry hdeaths
    (htake ▸ hdone)
  obtain ⟨st₁, more, hbefore, hcode⟩ := State.exists_beforeInstr hstep hphi hedges hdeopt
  have hdescribes := (hlists.of_sameCopies (sameCopies_beforeInstr hbefore)).describesLive
  refine ⟨st₁, more, _, hbefore, hcode, ⟨_, fun reg => ?_, hdescribes⟩, ?_⟩
  · rw [Env.liveAt, hrest,
      Function.mem_liveBeforeAll fun reg => LivenessAnalysis.mem_getOut h hblock hrun]
  · intro effects heffects i hi reg hreg hdying hkeeps copy hcopy hmem
    obtain ⟨rstate, hlive, hkind⟩ := hdescribes.kind copy _ hmem
    have hnot : st₁.NotOwned (env.func.modelReg reg) := by
      simp only [beforeInstr, heffects, bind_eq_bind, bind_some,
        bind_eq_some_iff] at hbefore
      obtain ⟨st₂, -, hstolen⟩ := hbefore
      exact notOwned_stealInputs hstolen hi hreg hdying hkeeps
    rw [hcopy] at hlive
    obtain hkind | ⟨-, hkind⟩ := hkind
    · exact hnot rstate hlive hkind.symm
    · cases hkind

end Block

def yieldBlock : BasicBlock 2 :=
  ⟨0, [{ opcode := .kMakeDict, output := some 0, deopt := some ⟨[], none⟩ },
    { opcode := .kYieldValue, output := some 1, operands := [0], deopt := some ⟨[], none⟩ },
    { opcode := .kReturn, operands := [1] }]⟩

def yieldDict : Function 2 := .ofObjects [yieldBlock] (by decide)

def yieldDictEnv : Env 2 := ⟨yieldDict, false, ⟨fun _ => ∅, by decide⟩⟩

def yieldStep : InstrStep 2 :=
  ⟨{ opcode := .kYieldValue, output := some 1, operands := [0], deopt := some ⟨[], none⟩ }, {0},
    some { opcode := .kReturn, operands := [1] }⟩

theorem yieldDict_steps : yieldDictEnv.steps yieldBlock =
    (yieldDictEnv.steps yieldBlock).take 1 ++
      yieldStep :: [⟨{ opcode := .kReturn, operands := [1] }, {1}, none⟩] := rfl

theorem yieldDict_inSsaForm : InSsaForm yieldDict := checkSsaForm_iff.mp (by decide)

theorem yieldDict_isRun : yieldDictEnv.liveness.IsRun := by
  obtain ⟨live, hlive⟩ : ∃ live, yieldDict.livenessAnalysis (.ofFunction _) = some live :=
    Function.livenessAnalysis_isSome (by decide)
  refine ⟨.ofFunction _, live, hlive, ?_⟩
  have hcompute : (yieldDict.livenessAnalysis (.ofFunction _)).map (fun live => live.after 0) =
      some ∅ := by
    decide
  rw [hlive] at hcompute
  simpa [yieldDictEnv, yieldDict, Function.ofObjects, yieldBlock]
    using (Option.some.inj hcompute).symm

def Op.entries? : Op n → Option (Instr n × List (Register n × RefKind))
  | .instr emitted entries => some (emitted, entries)
  | _ => none

theorem exists_yieldDict_run : ∃ (analysis : Analysis 2) (entry st st' : State 2),
    Analysis.Converged yieldDictEnv [0] analysis ∧
      enterBlock yieldDictEnv analysis.blocks yieldBlock = some entry ∧
      entry.processInstrs yieldDictEnv true ((yieldDictEnv.steps yieldBlock).take 1) = some st ∧
      st.processInstr yieldDictEnv true yieldStep = some st' ∧
      .instr yieldStep.instr [(0, .kBorrowed)] ∈ st'.code := by
  have hcompute : ((Analysis.start [0]).visit yieldDictEnv (finRange 2)).bind (fun analysis =>
      (enterBlock yieldDictEnv analysis.blocks yieldBlock).bind fun entry =>
      (entry.processInstrs yieldDictEnv true ((yieldDictEnv.steps yieldBlock).take 1)).bind
        fun st =>
      (st.processInstr yieldDictEnv true yieldStep).map fun st' =>
        (analysis.worklist, (st'.code.filterMap Op.entries?).drop 1)) =
      some ([], [(yieldStep.instr, [(0, .kBorrowed)])]) := by
    decide
  simp only [bind_eq_some_iff, map_eq_some_iff, Prod.mk.injEq] at hcompute
  obtain ⟨analysis, hvisit, entry, hentry, st, hst, st', hst', hempty, hcode⟩ := hcompute
  refine ⟨analysis, entry, st, st', ⟨.single ⟨_, .refl _, hvisit⟩, hempty⟩, hentry, hst, hst', ?_⟩
  have hmem : (yieldStep.instr, [(0, .kBorrowed)]) ∈ st'.code.filterMap Op.entries? :=
    mem_of_mem_drop (hcode ▸ mem_singleton_self _)
  obtain ⟨op, hop, hentries⟩ := mem_filterMap.mp hmem
  cases op with
  | instr emitted entries =>
    cases hentries
    exact hop
  | incref => cases hentries
  | xincref => cases hentries
  | decref => cases hentries
  | xdecref => cases hentries

/-- The list of a concrete `YieldValue`. -/
theorem deoptLiveRegs_listed_yieldDict : ∃ (st st' st₁ : State 2) (more : List (Op 2))
    (entries : List (Register 2 × RefKind)),
    st.processInstr yieldDictEnv true yieldStep = some st' ∧
      st.beforeInstr yieldDictEnv yieldStep = some st₁ ∧
      st'.code = st₁.code ++ .instr yieldStep.instr entries :: more ∧
      ∃ regs, (∀ reg, reg ∈ regs ↔ yieldDict.UsedLater reg 0
          (yieldStep.instr :: [{ opcode := .kReturn, operands := [1] }])) ∧
        DescribesLive yieldDictEnv st₁.liveRegs regs entries := by
  obtain ⟨analysis, entry, st, st', hconverged, hentry, hst, hst', -⟩ := exists_yieldDict_run
  obtain ⟨st₁, more, entries, hbefore, hcode, hregs, -⟩ := deoptLiveRegs_listed
    yieldDict_inSsaForm yieldDict_isRun (by decide) hconverged (mem_singleton_self yieldBlock)
    hentry yieldDict_steps hst hst' rfl rfl rfl
  exact ⟨st, st', st₁, more, entries, hst', hbefore, hcode, hregs⟩

/-- The yielded dictionary is dead behind the `YieldValue`, which has taken its reference; it is
listed nevertheless, as borrowed. -/
theorem deoptLiveRegs_stolenListed :
    ¬∀ (n : Nat) (env : Env n) (rpoBlocks : List BlockId) (analysis : Analysis n)
      (block : BasicBlock n) (done left : List (InstrStep n)) (step : InstrStep n)
      (entry st st' : State n), InSsaForm env.func → env.liveness.IsRun →
      (∀ block ∈ env.func.blocks, (env.func.inEdges block.id).length ≤ 1 → block.phis = []) →
      Analysis.Converged env rpoBlocks analysis → block ∈ env.func.blocks →
      enterBlock env analysis.blocks block = some entry →
      env.steps block = done ++ step :: left → entry.processInstrs env true done = some st →
      st.processInstr env true step = some st' → step.instr.isPhi = false →
      step.instr.numEdges = 0 → step.instr.deopt.isSome → ∀ entries,
      .instr step.instr entries ∈ st'.code → ∀ effects,
      memoryEffects env.freeThreaded step.instr = some effects → ∀ i ∈ effects.stolenInputs,
      ∀ reg, step.instr.operands[i]? = some reg → reg ∈ step.dying →
        keepsYielded true step.instr reg = false → ∀ kind, (reg, kind) ∉ entries := by
  intro hunlisted
  obtain ⟨analysis, entry, st, st', hconverged, hentry, hst, hst', hcode⟩ := exists_yieldDict_run
  exact hunlisted 2 yieldDictEnv [0] analysis yieldBlock _ _ _ entry st st'
    yieldDict_inSsaForm yieldDict_isRun (by decide) hconverged (mem_singleton_self yieldBlock)
    hentry yieldDict_steps hst hst' rfl rfl rfl _ hcode _ rfl 0 (by decide) 0 rfl (by decide) rfl
    .kBorrowed (by decide)

end CinderX.Jit.Hir
