import CinderX.Jit.Hir.DeadCodeMinimal
import CinderX.Jit.Hir.PhiEliminationSound

/-!
# Passes one after another

`runPass` checks the function behind each pass.  A pass may drop copies, snapshots, branches and
instructions that are not useful; the other requests of a run stay, in their order.
-/

namespace CinderX.Jit.Hir

open List

variable {n : Nat} {V W : Type}

inductive Pass where
  | copyPropagation | phiElimination | deadCodeElimination | removeTrampolineBlocks
  deriving DecidableEq, Repr

def Pass.run (freeThreaded : Bool) (f : Function n) : Pass → Option (Function n)
  | .copyPropagation => Hir.copyPropagation f
  | .phiElimination => Hir.phiElimination f
  | .deadCodeElimination => Hir.deadCodeElimination freeThreaded f
  | .removeTrampolineBlocks => Hir.removeTrampolineBlocks f

/-- `none` if the check behind the pass fails. -/
def runPass (freeThreaded : Bool) (f : Function n) (pass : Pass) : Option (Function n) :=
  (pass.run freeThreaded f).filter fun g => checkFunc g

def runPasses (freeThreaded : Bool) (f : Function n) (passes : List Pass) : Option (Function n) :=
  passes.foldlM (runPass freeThreaded) f

/-! ## What stays -/

/-- An instruction with the opcode and the flags of the request. -/
def Request.instr (request : Request V) : Instr 1 where
  opcode := request.opcode
  operands := request.operands.map fun _ => 0
  deopt := request.deopt.map fun _ => ⟨[], none⟩
  borrowed := request.borrowed
  destructorKnown := request.destructorKnown

def Request.isEssential (freeThreaded : Bool) (request : Request V) : Bool :=
  !request.opcode.isCfgOnly && request.opcode ≠ .kAssign && isUseful freeThreaded request.instr

def essential (freeThreaded : Bool) (run : List (Event n V) × Result W) :
    List (Request V) × Result W :=
  ((requests run).filter (Request.isEssential freeThreaded), run.2)

structure Faithful (n : Nat) (freeThreaded : Bool) (exec : Request V → W → Outcome V W) : Prop
    extends RunsAssigns exec, RunsBranches exec, RespectsEffects n freeThreaded exec

/-- Each run of one function is like a run of the other. -/
def SameEssential (freeThreaded : Bool) (exec : Request V → W → Outcome V W) (f g : Function n) :
    Prop :=
  ∀ regs world,
    (∀ fuel, ∃ fuel', essential freeThreaded (f.execute exec fuel regs world) =
      essential freeThreaded (g.execute exec fuel' regs world)) ∧
    ∀ fuel', ∃ fuel, essential freeThreaded (f.execute exec fuel regs world) =
      essential freeThreaded (g.execute exec fuel' regs world)

variable {f g : Function n} {freeThreaded : Bool} {exec : Request V → W → Outcome V W}

theorem SameEssential.of_eq (h : ∀ fuel regs world,
    essential freeThreaded (f.execute exec fuel regs world) =
      essential freeThreaded (g.execute exec fuel regs world)) :
    SameEssential freeThreaded exec f g :=
  fun regs world => ⟨fun fuel => ⟨fuel, h fuel regs world⟩, fun fuel => ⟨fuel, h fuel regs world⟩⟩

theorem SameEssential.trans {g' : Function n} (h : SameEssential freeThreaded exec f g)
    (h' : SameEssential freeThreaded exec g g') : SameEssential freeThreaded exec f g' := by
  intro regs world
  constructor
  · intro fuel
    obtain ⟨fuel₁, h₁⟩ := (h regs world).1 fuel
    obtain ⟨fuel₂, h₂⟩ := (h' regs world).1 fuel₁
    exact ⟨fuel₂, h₁.trans h₂⟩
  · intro fuel
    obtain ⟨fuel₁, h₁⟩ := (h' regs world).2 fuel
    obtain ⟨fuel₂, h₂⟩ := (h regs world).2 fuel₁
    exact ⟨fuel₂, h₂.trans h₁⟩

theorem filter_essential_requestOf (events : List (Event n V)) :
    (events.filterMap requestOf).filter (Request.isEssential freeThreaded) =
      (events.map Event.request).filter (Request.isEssential freeThreaded) := by
  induction events with
  | nil => rfl
  | cons event events ih =>
    rw [map_cons, filter_cons, ← ih]
    by_cases hassign : event.request.opcode = .kAssign
    · simp [requestOf, hassign, Request.isEssential]
    · simp [requestOf, hassign, filter_cons]

theorem SameRequests.sameEssential (hsame : SameRequests f g) (hexec : RunsAssigns exec) :
    SameEssential freeThreaded exec f g := by
  refine .of_eq fun fuel regs world => ?_
  have hobserve := hsame V W exec hexec fuel regs world
  simp only [observe, Prod.mk.injEq] at hobserve
  simp only [essential, requests, ← filter_essential_requestOf, hobserve]

theorem Trims.filter_isEssential {old new : List (Request V)} (h : Trims old new) :
    old.filter (Request.isEssential freeThreaded) =
      new.filter (Request.isEssential freeThreaded) := by
  induction h with
  | nil => rfl
  | keep h ih => rw [filter_cons, filter_cons, ih]
  | drop hopcode h ih => simp [Request.isEssential, hopcode, ih]
  | branch hopcode hopcode' h ih =>
    simp [Request.isEssential, Opcode.isCfgOnly, hopcode, hopcode', ih]

theorem isUseful_request (instr : Instr n) (regs : Register n → V) :
    isUseful freeThreaded (instr.request regs).instr = isUseful freeThreaded instr := by
  have hlength : (instr.request regs).instr.operands.length = instr.operands.length := by
    simp [Request.instr, Instr.request]
  have heffects : memoryEffects freeThreaded (instr.request regs).instr =
      memoryEffects freeThreaded instr := by
    unfold memoryEffects
    rw [hlength]
    rfl
  rw [isUseful, isUseful, heffects]
  simp [Request.instr, Instr.request, Instr.isPhi]

theorem InSsaForm.sameEssential_filterInstrs {live : List (Instr n)} (h : InSsaForm f)
    (hlive : f.Marked freeThreaded live) (hexec : RespectsEffects n freeThreaded exec) :
    SameEssential freeThreaded exec f (f.filterInstrs fun instr => instr ∈ live) := by
  refine .of_eq fun fuel regs world => ?_
  have hrun := h.run_filterInstrs hlive hexec fuel regs world
  simp only [observe, Prod.mk.injEq, filterMap_some] at hrun
  have hevents := Function.forall_mem_run exec (f := f)
    (P := fun event => event.instr ∈ f.instrs ∧ ∃ regs, event.request = event.instr.request regs)
    (fun instr hinstr regs => ⟨hinstr, regs, rfl⟩) fuel f.entryBlock regs world
  refine Prod.ext ?_ hrun.2
  simp only [essential, requests, ← hrun.1, ← filterMap_eq_map, ← filterMap_eq_filter,
    filterMap_filterMap]
  refine filterMap_congr fun event hevent => ?_
  obtain ⟨hinstr, regs', hrequest⟩ := hevents event hevent
  by_cases hmem : event.instr ∈ live
  · simp [hmem, Option.guard]
  · have huseful : isUseful freeThreaded event.instr = false := by
      by_contra huseful
      exact hmem (hlive.useful event.instr hinstr (by simpa using huseful))
    simp [hmem, Option.guard, Request.isEssential, hrequest, isUseful_request, huseful]

/-! ## One pass and several -/

/-- What a pass keeps. -/
structure PassKeeps (freeThreaded : Bool) (f g : Function n) : Prop where
  form : InSsaForm g
  same : ∀ {V W : Type} {exec : Request V → W → Outcome V W}, Faithful n freeThreaded exec →
    SameEssential freeThreaded exec f g

theorem InSsaForm.removeTrampolineBlocks_keeps (h : InSsaForm f) (freeThreaded : Bool) :
    ∃ g, removeTrampolineBlocks f = some g ∧ PassKeeps freeThreaded f g := by
  obtain ⟨removed, rename, hremove, hredirected⟩ := h.removeTrampolineBlocks_eq
  refine ⟨_, hremove, h.trimmed hredirected, fun hexec regs world => ?_⟩
  obtain ⟨hforth, hback⟩ := h.sameRuns_trimmed hredirected hexec.toRunsBranches
    h.wellFormed.cfg.entry regs world
  constructor
  · intro fuel
    obtain ⟨fuel', htrims, hend⟩ := hforth fuel
    exact ⟨fuel', Prod.ext htrims.filter_isEssential hend⟩
  · intro fuel'
    obtain ⟨fuel, htrims, hend⟩ := hback fuel'
    exact ⟨fuel, Prod.ext htrims.filter_isEssential hend⟩

theorem InSsaForm.pass_keeps (h : InSsaForm f) (freeThreaded : Bool) (pass : Pass) :
    ∃ g, pass.run freeThreaded f = some g ∧ PassKeeps freeThreaded f g := by
  cases pass with
  | copyPropagation =>
    refine ⟨_, h.copyPropagation_eq, h.propagated, fun hexec => ?_⟩
    exact SameRequests.sameEssential (fun _ _ _ hassigns => h.run_propagated hassigns)
      hexec.toRunsAssigns
  | phiElimination =>
    obtain ⟨g, hloop, hform, hsame, -⟩ :=
      phiEliminationLoop_spec h (Nat.lt_succ_self f.phis.length)
    obtain ⟨g', hremove, hkeeps⟩ := hform.removeTrampolineBlocks_keeps freeThreaded
    refine ⟨g', by simp [Pass.run, Hir.phiElimination, hloop, hremove], hkeeps.form, fun hexec =>
      ?_⟩
    exact (hsame.sameEssential hexec.toRunsAssigns).trans (hkeeps.same hexec)
  | deadCodeElimination =>
    obtain ⟨live, hset⟩ := h.liveSet_isSome freeThreaded
    have hlive := Function.marked_of_liveSet hset
    exact ⟨_, by simp [Pass.run, Hir.deadCodeElimination, hset], h.filterInstrs hlive,
      fun hexec => h.sameEssential_filterInstrs hlive hexec.toRespectsEffects⟩
  | removeTrampolineBlocks => exact h.removeTrampolineBlocks_keeps freeThreaded

/-- No check behind a pass fails, and what the runs request stays, but for what passes drop. -/
theorem runPasses_keep (h : InSsaForm f) (freeThreaded : Bool) (passes : List Pass) :
    ∃ g, runPasses freeThreaded f passes = some g ∧ PassKeeps freeThreaded f g := by
  induction passes generalizing f with
  | nil => exact ⟨f, rfl, h, fun _ => .of_eq fun _ _ _ => rfl⟩
  | cons pass passes ih =>
    obtain ⟨g, hpass, hkeeps⟩ := h.pass_keeps freeThreaded pass
    obtain ⟨g', hpasses, hkeeps'⟩ := ih hkeeps.form
    refine ⟨g', ?_, hkeeps'.form, fun hexec => (hkeeps.same hexec).trans (hkeeps'.same hexec)⟩
    have hcheck := checkFunc_iff.mpr hkeeps.form.wellFormed
    rw [runPasses, foldlM_cons, runPass, hpass, Option.filter_some, if_pos hcheck]
    exact hpasses

theorem execNumbers_faithful (freeThreaded : Bool) : Faithful n freeThreaded execNumbers where
  toRunsAssigns := execNumbers_runsAssigns
  toRunsBranches := execNumbers_runsBranches
  goesOn instr regs world hterm _ := by
    have hcond : instr.opcode.isCondBranch = false := by
      cases hopcode : instr.opcode <;> rw [hopcode] at hterm <;> first | rfl | cases hterm
    have hbranch : instr.opcode ≠ .kBranch := by
      intro hbranch
      simp [hbranch, Opcode.isTerminator] at hterm
    simp [execNumbers, Instr.request, hterm, hcond, hbranch]
  stores _ _ _ _ _ _ _ _ _ _ := rfl

theorem runPasses_keep_nestedPhis :
    ∃ g, runPasses false nestedPhis [.phiElimination, .deadCodeElimination, .copyPropagation] =
        some g ∧
      SameEssential false execNumbers nestedPhis g := by
  obtain ⟨g, hg, hkeeps⟩ := runPasses_keep nestedPhis_inSsaForm false
    [.phiElimination, .deadCodeElimination, .copyPropagation]
  exact ⟨g, hg, hkeeps.same (execNumbers_faithful false)⟩

end CinderX.Jit.Hir
