import CinderX.Foundation.Dataflow
import CinderX.Jit.Hir.Cfg
import CinderX.Jit.Hir.Liveness

/-!
# Data flow analyses of HIR functions

`AssignmentAnalysis` and `LivenessAnalysis` as problems of the same solver, one
along the edges and one against them, and what their results say about paths.
The results do not depend on the order in which hash tables are traversed.
-/

namespace CinderX.Jit.Hir

open Foundation

variable {n : Nat}

structure Traversal (f : Function n) where
  order : List BlockId
  mem_order : ∀ {id}, id ∈ order ↔ id ∈ f.blockIds
  succs : BlockId → List BlockId
  mem_succs : ∀ {id succ}, succ ∈ succs id ↔ succ ∈ f.succs id
  preds : BlockId → List BlockId
  mem_preds : ∀ {id pred}, pred ∈ preds id ↔ pred ∈ f.inEdges id

def Traversal.ofFunction (f : Function n) : Traversal f :=
  ⟨f.blockIds, Iff.rfl, f.succs, Iff.rfl, f.inEdges, Iff.rfl⟩

namespace Function

/-! ## Assigned registers -/

def args (f : Function n) : Finset (Register n) :=
  match f.block? f.entryBlock with
  | some block => ((block.instrs.filter fun instr => instr.opcode = .kLoadArg).filterMap
      Instr.output).toFinset
  | none => ∅

def assignmentProblem (f : Function n) (t : Traversal f) (isDefinite : Bool) :
    Dataflow BlockId (Register n) where
  nodes := f.blockIds
  inputs := f.inEdges
  outputs id := (t.succs id).filter fun succ => succ ∈ f.blockIds
  boundary id := id = f.entryBlock
  gen id := f.args ∪ (f.outputsOf id).toFinset
  kill _ := ∅
  must := isDefinite
  mem_outputs hnode hinput := by
    rw [mem_inEdges, ← t.mem_succs] at hinput
    simp [hinput, hnode]
  outputs_mem h := by simpa using (List.mem_filter.mp h).2

/-- `AssignmentAnalysis::Run`; a function with edges to other blocks fails a check. -/
def assignmentAnalysis (f : Function n) (t : Traversal f) (isDefinite : Bool) :
    Option (Dataflow.State BlockId (Register n)) :=
  if f.linked then (f.assignmentProblem t isDefinite).solve t.order else none

variable {f : Function n} {t : Traversal f} {reg : Register n} {id : BlockId}

theorem mem_outputsOf_of_mem_args (h : reg ∈ f.args) : reg ∈ f.outputsOf f.entryBlock := by
  cases hblock : f.block? f.entryBlock with
  | none => simp [args, hblock] at h
  | some block =>
    simp only [args, outputsOf, hblock, BasicBlock.outputs, List.mem_filterMap, List.mem_toFinset,
      List.mem_filter] at h ⊢
    obtain ⟨instr, ⟨hinstr, -⟩, hreg⟩ := h
    exact ⟨instr, hinstr, hreg⟩

theorem definesOn_of_mem_args {walked : List BlockId} (hwalk : f.Walk walked id)
    (hne : walked ≠ []) (h : reg ∈ f.args) : f.definesOn walked reg :=
  ⟨f.entryBlock, hwalk.entry_mem hne, mem_outputsOf_of_mem_args h⟩

def AllReachable (f : Function n) : Prop := ∀ id ∈ f.blockIds, ∃ walked, f.Walk walked id

theorem misses_iff (hreach : f.AllReachable) (hid : id ∈ f.blockIds) :
    (f.assignmentProblem t true).Misses reg id ↔
      ∃ walked, f.Walk walked id ∧ ¬f.definesOn walked reg := by
  constructor
  · intro h
    induction h with
    | @boundary id hboundary =>
      have : id = f.entryBlock := by simpa [assignmentProblem] using hboundary
      exact ⟨[], this ▸ .entry, by simp [definesOn]⟩
    | @isolated id hinputs =>
      obtain ⟨walked, hwalk⟩ := hreach id hid
      cases hwalk with
      | entry => exact ⟨[], .entry, by simp [definesOn]⟩
      | step _ hedge =>
        rw [← mem_inEdges] at hedge
        simp [show f.inEdges id = [] from hinputs] at hedge
    | killed _ _ hkill => simp [assignmentProblem] at hkill
    | @through id pred hinput hgen _ ih =>
      have hpred : pred ∈ f.inEdges id := hinput
      obtain ⟨walked, hwalk, hnot⟩ := ih (mem_blockIds_of_mem_inEdges hpred)
      refine ⟨pred :: walked, .step hwalk (mem_inEdges.mp hpred), ?_⟩
      have hout : reg ∉ f.outputsOf pred := by
        simp only [assignmentProblem, Finset.mem_union, List.mem_toFinset, not_or] at hgen
        exact hgen.2
      simpa [definesOn, hout] using hnot
  · rintro ⟨walked, hwalk, hnot⟩
    induction hwalk with
    | entry => exact .boundary (by simp [assignmentProblem])
    | @step walked id succ hwalk hedge ih =>
      have hargs : reg ∉ f.args := fun hmem =>
        hnot (definesOn_of_mem_args (.step hwalk hedge) (by simp) hmem)
      obtain ⟨hout, hnot⟩ : reg ∉ f.outputsOf id ∧ ¬f.definesOn walked reg := by
        simpa [definesOn] using hnot
      have hpred : id ∈ f.inEdges succ := mem_inEdges.mpr hedge
      refine .through (j := id) hpred ?_ (ih (mem_blockIds_of_mem_inEdges hpred) hnot)
      simp [assignmentProblem, hargs, hout]

theorem comes_iff (hreach : f.AllReachable) :
    (f.assignmentProblem t false).Comes reg id ↔
      ∃ walked, f.Walk walked id ∧ f.definesOn walked reg := by
  constructor
  · intro h
    induction h with
    | @gen id pred hinput hgen =>
      have hpred : pred ∈ f.inEdges id := hinput
      obtain ⟨walked, hwalk⟩ := hreach pred (mem_blockIds_of_mem_inEdges hpred)
      have hstep := Walk.step hwalk (mem_inEdges.mp hpred)
      refine ⟨_, hstep, ?_⟩
      simp only [assignmentProblem, Finset.mem_union, List.mem_toFinset] at hgen
      obtain hargs | hout := hgen
      · exact definesOn_of_mem_args hstep (by simp) hargs
      · exact ⟨pred, by simp, hout⟩
    | @through id pred hinput _ _ ih =>
      obtain ⟨walked, hwalk, block, hblock, hout⟩ := ih
      exact ⟨_, .step hwalk (mem_inEdges.mp hinput), block, by simp [hblock], hout⟩
  · rintro ⟨walked, hwalk, hdefines⟩
    induction hwalk with
    | entry => simp [definesOn] at hdefines
    | @step walked id succ hwalk hedge ih =>
      have hpred : id ∈ f.inEdges succ := mem_inEdges.mpr hedge
      obtain hout | hdefines : reg ∈ f.outputsOf id ∨ f.definesOn walked reg := by
        simpa [definesOn] using hdefines
      · exact .gen (j := id) hpred (by simp [assignmentProblem, hout])
      · exact .through (j := id) hpred (by simp [assignmentProblem]) (ih hdefines)

def AssignedOn (f : Function n) (isDefinite : Bool) (id : BlockId) (rest : List BlockId)
    (reg : Register n) : Prop :=
  if isDefinite then ∀ walked, f.Walk walked id → f.definesOn (rest ++ walked) reg
  else ∃ walked, f.Walk walked id ∧ f.definesOn (rest ++ walked) reg

variable {isDefinite : Bool} {s : Dataflow.State BlockId (Register n)}

theorem linked_of_assignmentAnalysis (h : f.assignmentAnalysis t isDefinite = some s) :
    f.linked = true ∧ (f.assignmentProblem t isDefinite).solve t.order = some s := by
  unfold assignmentAnalysis at h
  split at h
  case isTrue hlinked => exact ⟨hlinked, h⟩
  case isFalse => simp at h

theorem assignmentAnalysis_isSome (hlinked : f.linked = true) :
    ∃ s, f.assignmentAnalysis t isDefinite = some s := by
  simpa [assignmentAnalysis, hlinked] using
    Dataflow.solve_isSome (p := f.assignmentProblem t isDefinite) fun _ => t.mem_order

theorem mem_assignedIn (hreach : f.AllReachable)
    (h : f.assignmentAnalysis t isDefinite = some s) (hid : id ∈ f.blockIds) :
    reg ∈ s.before id ↔ f.AssignedOn isDefinite id [] reg := by
  rw [Dataflow.mem_before_solve (fun _ => t.mem_order.mpr)
    (fun _ _ _ => mem_blockIds_of_mem_inEdges) (linked_of_assignmentAnalysis h).2 hid]
  cases isDefinite with
  | true =>
    simp only [Dataflow.Holds, AssignedOn, if_true, misses_iff hreach hid,
      show (f.assignmentProblem t true).must = true from rfl, List.nil_append]
    push Not
    rfl
  | false =>
    simp only [Dataflow.Holds, AssignedOn, Bool.false_eq_true, if_false, comes_iff hreach,
      show (f.assignmentProblem t false).must = false from rfl, List.nil_append]

theorem mem_assignedOut (hreach : f.AllReachable)
    (h : f.assignmentAnalysis t isDefinite = some s) (hid : id ∈ f.blockIds) :
    reg ∈ s.after id ↔ f.AssignedOn isDefinite id [id] reg := by
  have hafter := (Dataflow.after_solve (fun _ => t.mem_order.mpr)
    (linked_of_assignmentAnalysis h).2 hid).1
  have hmem : reg ∈ s.after id ↔
      (reg ∈ f.args ∨ reg ∈ f.outputsOf id) ∨ f.AssignedOn isDefinite id [] reg := by
    rw [hafter, ← mem_assignedIn hreach h hid]
    simp [Dataflow.transfer, assignmentProblem, or_assoc]
  have hcons : ∀ walked, f.definesOn (id :: walked) reg ↔
      reg ∈ f.outputsOf id ∨ f.definesOn walked reg := by
    intro walked
    simp [definesOn]
  have hargs : reg ∈ f.args → ∀ walked, f.Walk walked id → f.definesOn (id :: walked) reg := by
    intro hreg walked hwalk
    by_cases hne : walked = []
    · subst hne
      cases hwalk
      exact ⟨f.entryBlock, by simp, mem_outputsOf_of_mem_args hreg⟩
    · exact (hcons walked).mpr (.inr (definesOn_of_mem_args hwalk hne hreg))
  rw [hmem]
  obtain ⟨some, hsome⟩ := hreach id hid
  cases isDefinite with
  | true =>
    simp only [AssignedOn, if_true, List.nil_append, List.singleton_append]
    constructor
    · rintro ((hreg | hout) | hall) walked hwalk
      · exact hargs hreg walked hwalk
      · exact (hcons walked).mpr (.inl hout)
      · exact (hcons walked).mpr (.inr (hall walked hwalk))
    · intro hall
      by_cases hout : reg ∈ f.outputsOf id
      · exact .inl (.inr hout)
      · exact .inr fun walked hwalk => ((hcons walked).mp (hall walked hwalk)).resolve_left hout
  | false =>
    simp only [AssignedOn, Bool.false_eq_true, if_false, List.nil_append, List.singleton_append]
    constructor
    · rintro ((hreg | hout) | ⟨walked, hwalk, hdefines⟩)
      · exact ⟨some, hsome, hargs hreg some hsome⟩
      · exact ⟨some, hsome, (hcons some).mpr (.inl hout)⟩
      · exact ⟨walked, hwalk, (hcons walked).mpr (.inr hdefines)⟩
    · rintro ⟨walked, hwalk, hdefines⟩
      obtain hout | hdefines := (hcons walked).mp hdefines
      · exact .inl (.inr hout)
      · exact .inr ⟨walked, hwalk, hdefines⟩

end Function

namespace Function

def genKill (f : Function n) (block : BlockId) :
    List (Instr n) → Finset (Register n) × Finset (Register n)
  | [] => (∅, ∅)
  | instr :: rest =>
    (((f.genKill block rest).1 \ instr.output.toFinset) ∪ f.instrUses block instr,
      (f.genKill block rest).2 ∪ instr.output.toFinset)

def instrsOf (f : Function n) (id : BlockId) : List (Instr n) :=
  match f.block? id with
  | some block => block.instrs
  | none => []

def livenessProblem (f : Function n) (t : Traversal f) : Dataflow BlockId (Register n) where
  nodes := f.blockIds
  inputs := f.succs
  outputs := t.preds
  boundary _ := false
  gen id := (f.genKill id (f.instrsOf id)).1
  kill id := (f.genKill id (f.instrsOf id)).2
  must := false
  mem_outputs _ hinput := t.mem_preds.mpr (mem_inEdges.mpr hinput)
  outputs_mem h := mem_blockIds_of_mem_inEdges (t.mem_preds.mp h)

def livenessAnalysis (f : Function n) (t : Traversal f) :
    Option (Dataflow.State BlockId (Register n)) :=
  if f.linked then (f.livenessProblem t).solve t.order else none

/-- Some path from a point of a block uses a register before it defines it.  The point is given
by the instructions that are left, and a phi uses its operand at the end of the predecessor. -/
inductive UsedLater (f : Function n) (reg : Register n) : BlockId → List (Instr n) → Prop
  | use {id : BlockId} {instr : Instr n} {rest : List (Instr n)}
      (huse : reg ∈ f.instrUses id instr) : UsedLater f reg id (instr :: rest)
  | skip {id : BlockId} {instr : Instr n} {rest : List (Instr n)}
      (hdef : instr.output ≠ some reg) (h : UsedLater f reg id rest) :
      UsedLater f reg id (instr :: rest)
  | edge {id succ : BlockId} (hedge : succ ∈ f.succs id)
      (h : UsedLater f reg succ (f.instrsOf succ)) : UsedLater f reg id []

variable {f : Function n} {t : Traversal f} {reg : Register n} {id : BlockId}
  {s : Dataflow.State BlockId (Register n)}

theorem usedLater_iff (instrs : List (Instr n)) : f.UsedLater reg id instrs ↔
    reg ∈ (f.genKill id instrs).1 ∨
      (reg ∉ (f.genKill id instrs).2 ∧ f.UsedLater reg id []) := by
  induction instrs with
  | nil => simp [genKill]
  | cons instr rest ih =>
    have hcases : f.UsedLater reg id (instr :: rest) ↔ reg ∈ f.instrUses id instr ∨
        (instr.output ≠ some reg ∧ f.UsedLater reg id rest) := by
      constructor
      · intro h
        cases h with
        | use huse => exact .inl huse
        | skip hdef h => exact .inr ⟨hdef, h⟩
      · rintro (huse | ⟨hdef, h⟩)
        · exact .use huse
        · exact .skip hdef h
    rw [hcases, ih]
    simp only [genKill, Finset.mem_union, Finset.mem_sdiff, Option.mem_toFinset,
      Option.mem_def, not_or]
    by_cases huse : reg ∈ f.instrUses id instr
    · simp [huse]
    · by_cases hdef : instr.output = some reg
      · simp [huse, hdef]
      · simp [huse, hdef]

theorem comes_liveness_iff : (f.livenessProblem t).Comes reg id ↔ f.UsedLater reg id [] := by
  constructor
  · intro h
    induction h with
    | @gen id succ hinput hgen => exact .edge hinput ((usedLater_iff _).mpr (.inl hgen))
    | @through id succ hinput hkill _ ih =>
      exact .edge hinput ((usedLater_iff _).mpr (.inr ⟨hkill, ih⟩))
  · intro h
    -- A point inside a block is reduced to the end of the block.
    have hgen : ∀ {id instrs}, f.UsedLater reg id instrs → reg ∈ (f.genKill id instrs).1 ∨
        (reg ∉ (f.genKill id instrs).2 ∧ (f.livenessProblem t).Comes reg id) := by
      intro id instrs h
      induction h with
      | use huse => exact .inl (by simp [genKill, huse])
      | @skip id instr rest hdef _ ih =>
        refine ih.imp (fun hmem => ?_) (fun hmem => ?_)
        · simp [genKill, hmem, hdef]
        · simpa [genKill, hdef] using hmem
      | edge hedge _ ih =>
        refine .inr ⟨by simp [genKill], ?_⟩
        obtain hmem | ⟨hkill, hcomes⟩ := ih
        · exact .gen hedge hmem
        · exact .through hedge hkill hcomes
    simpa [genKill] using hgen h

theorem linked_of_livenessAnalysis (h : f.livenessAnalysis t = some s) :
    f.linked = true ∧ (f.livenessProblem t).solve t.order = some s := by
  unfold livenessAnalysis at h
  split at h
  case isTrue hlinked => exact ⟨hlinked, h⟩
  case isFalse => simp at h

theorem livenessAnalysis_isSome (hlinked : f.linked = true) :
    ∃ s, f.livenessAnalysis t = some s := by
  simpa [livenessAnalysis, hlinked] using
    Dataflow.solve_isSome (p := f.livenessProblem t) fun _ => t.mem_order

theorem mem_liveOut (h : f.livenessAnalysis t = some s) (hid : id ∈ f.blockIds) :
    reg ∈ s.before id ↔ f.UsedLater reg id [] := by
  obtain ⟨hlinked, hsolve⟩ := linked_of_livenessAnalysis h
  rw [Dataflow.mem_before_solve (fun _ => t.mem_order.mpr)
    (fun _ _ _ => mem_blockIds_of_linked hlinked) hsolve hid]
  simpa [Dataflow.Holds, show (f.livenessProblem t).must = false from rfl]
    using comes_liveness_iff

theorem mem_liveIn (h : f.livenessAnalysis t = some s) (hid : id ∈ f.blockIds) :
    reg ∈ s.after id ↔ f.UsedLater reg id (f.instrsOf id) := by
  have hafter := (Dataflow.after_solve (fun _ => t.mem_order.mpr)
    (linked_of_livenessAnalysis h).2 hid).1
  rw [usedLater_iff, ← mem_liveOut h hid, hafter]
  simp [Dataflow.transfer, livenessProblem, and_comm]

theorem mem_liveBeforeAll {live : Finset (Register n)}
    (hlive : ∀ reg, reg ∈ live ↔ f.UsedLater reg id []) (instrs : List (Instr n)) :
    reg ∈ f.liveBeforeAll id live instrs ↔ f.UsedLater reg id instrs := by
  rw [usedLater_iff, ← hlive]
  induction instrs with
  | nil => simp [liveBeforeAll, genKill]
  | cons instr rest ih =>
    simp only [liveBeforeAll, liveBefore, genKill, Finset.mem_union, Finset.mem_sdiff, ih,
      not_or]
    by_cases huse : reg ∈ f.instrUses id instr
    · simp [huse]
    · by_cases hdef : reg ∈ instr.output.toFinset
      · simp [huse, hdef]
      · simp [huse, hdef]

end Function

end CinderX.Jit.Hir
