import CinderX.Compiler.BorrowedLoadsStep

/-!
# Borrowed loads over whole runs

Along a run of a block the simulation stays in step, so what the optimization has not
flagged is gone in time; and the worklist optimizes every block at most once.
-/

namespace CinderX.Compiler.LoadFast

open List Option

open List (Forall₂)

variable {i : Nat} {a a' : Analysis}

/-! ## What the simulation does to its stack -/

/-- The simulation takes and moves as many entries as the opcode needs. -/
def Shaped (inst : Instr) (a a' : Analysis) : Prop :=
  inst.needs ≤ a.refs.length ∧
    ∃ top, top.length = inst.leaves ∧ a'.refs = top ++ a.refs.drop inst.needs

theorem swapTop_eq {α : Type} {n : Nat} {stack stack' : List α} (hpos : 2 ≤ n)
    (h : swapTop n stack = some stack') :
    n ≤ stack.length ∧ ∃ top, top.length = n ∧ stack' = top ++ stack.drop n := by
  obtain ⟨top, -, h⟩ := bind_eq_some_iff.mp h
  obtain ⟨low, hlow, h⟩ := bind_eq_some_iff.mp h
  cases h
  obtain ⟨hlt, -⟩ := List.getElem?_eq_some_iff.mp hlow
  refine ⟨by omega, ((stack.set (n - 1) top).set 0 low).take n, ?_, ?_⟩
  · simp
    omega
  · conv_lhs => rw [← take_append_drop n ((stack.set (n - 1) top).set 0 low)]
    rw [drop_set_of_lt (by omega), drop_set_of_lt (by omega)]

variable {inst : Instr}

theorem analyzePlain_shaped (hneeds : inst.needs = inst.popped)
    (hleaves : inst.leaves = inst.pushed) (h : analyzePlain i inst a = some a') :
    a.flagged ⊆ a'.flagged ∧ Shaped inst a a' := by
  obtain ⟨hle, hrefs, hflagged⟩ := analyzePlain_eq h
  rw [hflagged]
  refine ⟨List.Subset.refl _, hneeds ▸ hle, _, ?_, hneeds ▸ hrefs⟩
  rw [length_replicate, hleaves]

theorem Analysis.pop_drop {r : Ref} (h : a.pop = some (r, a')) :
    1 ≤ a.refs.length ∧ a'.refs = a.refs.drop 1 ∧ a'.flagged = a.flagged := by
  obtain ⟨hrefs, hflagged⟩ := Analysis.pop_eq h
  rw [hrefs]
  exact ⟨Nat.succ_le_succ (Nat.zero_le _), rfl, hflagged⟩

theorem Analysis.flagged_subset_storeLocal (a : Analysis) (loc : Nat) (r : Ref) :
    a.flagged ⊆ (a.storeLocal loc r).flagged :=
  List.Subset.trans (flagged_subset_killLocal a loc) (a.killLocal_subset_storeLocal loc r)

theorem analyzeInst_shaped (h : analyzeInst i inst a = some a') :
    a.flagged ⊆ a'.flagged ∧ Shaped inst a a' := by
  cases inst with
  | DELETE_FAST loc =>
    cases h
    exact ⟨flagged_subset_killLocal a loc, Nat.zero_le _, [], rfl, rfl⟩
  | LOAD_FAST loc =>
    cases h
    exact ⟨List.Subset.refl _, Nat.zero_le _, [_], rfl, rfl⟩
  | LOAD_FAST_AND_CLEAR loc =>
    cases h
    exact ⟨flagged_subset_killLocal a loc, Nat.zero_le _, [_], rfl, rfl⟩
  | LOAD_FAST_LOAD_FAST ioparg =>
    cases h
    exact ⟨List.Subset.refl _, Nat.zero_le _, [_, _], rfl, rfl⟩
  | STORE_FAST loc =>
    obtain ⟨⟨r, a₁⟩, hpop, h⟩ := bind_eq_some_iff.mp h
    cases h
    obtain ⟨hle, hrefs, hflagged⟩ := Analysis.pop_drop hpop
    rw [← hflagged]
    exact ⟨a₁.flagged_subset_storeLocal loc r, hle, [], rfl, hrefs⟩
  | STORE_FAST_LOAD_FAST ioparg =>
    obtain ⟨⟨r, a₁⟩, hpop, h⟩ := bind_eq_some_iff.mp h
    cases h
    obtain ⟨hle, hrefs, hflagged⟩ := Analysis.pop_drop hpop
    rw [← hflagged]
    exact ⟨a₁.flagged_subset_storeLocal _ r, hle, [_], rfl, congrArg _ hrefs⟩
  | STORE_FAST_STORE_FAST ioparg =>
    obtain ⟨⟨r, a₁⟩, hpop, h⟩ := bind_eq_some_iff.mp h
    obtain ⟨⟨r', a₂⟩, hpop', h⟩ := bind_eq_some_iff.mp h
    cases h
    obtain ⟨hle, hrefs, hflagged⟩ := Analysis.pop_drop hpop
    obtain ⟨hle', hrefs', hflagged'⟩ := Analysis.pop_drop hpop'
    rw [Analysis.storeLocal_refs, hrefs, length_drop] at hle'
    rw [Analysis.storeLocal_refs, hrefs, drop_drop] at hrefs'
    refine ⟨?_, by simp only [Instr.needs]; omega, [], rfl, hrefs'⟩
    apply List.Subset.trans _ (a₂.flagged_subset_storeLocal _ r')
    rw [hflagged', ← hflagged]
    exact a₁.flagged_subset_storeLocal _ r
  | COPY ioparg =>
    simp only [analyzeInst] at h
    split at h
    next =>
      obtain ⟨r, -, h⟩ := bind_eq_some_iff.mp h
      cases h
      exact ⟨List.Subset.refl _, Nat.zero_le _, [_], rfl, rfl⟩
    next => cases h
  | SWAP ioparg =>
    simp only [analyzeInst] at h
    split at h
    next hpos =>
      obtain ⟨refs, hrefs, h⟩ := bind_eq_some_iff.mp h
      cases h
      exact ⟨List.Subset.refl _, swapTop_eq hpos hrefs⟩
    next => cases h
  | noInput op =>
    cases h
    exact ⟨List.Subset.refl _, Nat.zero_le _, _, length_replicate .., rfl⟩
  | partly op oparg =>
    obtain ⟨hle, hrefs, hflagged⟩ := Analysis.popMany_eq h
    rw [hflagged]
    exact ⟨List.Subset.refl _, hle, [], rfl, hrefs⟩
  | END_SEND | SET_FUNCTION_ATTRIBUTE =>
    obtain ⟨⟨tos, a₁⟩, hpop, h⟩ := bind_eq_some_iff.mp h
    obtain ⟨⟨_, a₂⟩, hpop', h⟩ := bind_eq_some_iff.mp h
    cases h
    obtain ⟨hle, hrefs, hflagged⟩ := Analysis.pop_drop hpop
    obtain ⟨hle', hrefs', hflagged'⟩ := Analysis.pop_drop hpop'
    rw [hrefs, length_drop] at hle'
    rw [hrefs, drop_drop] at hrefs'
    rw [Analysis.push_flagged, hflagged', hflagged]
    exact ⟨List.Subset.refl _, by simp only [Instr.needs]; omega, [_], rfl, congrArg _ hrefs'⟩
  | CHECK_EXC_MATCH =>
    obtain ⟨⟨_, a₁⟩, hpop, h⟩ := bind_eq_some_iff.mp h
    cases h
    obtain ⟨hle, hrefs, hflagged⟩ := Analysis.pop_drop hpop
    rw [Analysis.pushNew_flagged, hflagged]
    exact ⟨List.Subset.refl _, hle, [_], rfl, congrArg _ hrefs⟩
  | FOR_ITER target =>
    cases h
    exact ⟨List.Subset.refl _, Nat.zero_le _, [_], rfl, rfl⟩
  | LOAD_ATTR ioparg =>
    obtain ⟨⟨self, a₁⟩, hpop, h⟩ := bind_eq_some_iff.mp h
    cases h
    obtain ⟨hle, hrefs, hflagged⟩ := Analysis.pop_drop hpop
    by_cases hmethod : ioparg &&& 1 = 1
    · rw [if_pos hmethod, Analysis.push_flagged, Analysis.pushNew_flagged, hflagged]
      exact ⟨List.Subset.refl _, hle, [_, _], (if_pos hmethod).symm,
        congrArg (fun refs => self :: ⟨some i, none⟩ :: refs) hrefs⟩
    · rw [if_neg hmethod, Analysis.pushNew_flagged, hflagged]
      exact ⟨List.Subset.refl _, hle, [_], (if_neg hmethod).symm, congrArg _ hrefs⟩
  | LOAD_SUPER_ATTR ioparg =>
    obtain ⟨⟨self, a₁⟩, hpop, h⟩ := bind_eq_some_iff.mp h
    obtain ⟨a₂, hpopMany, h⟩ := bind_eq_some_iff.mp h
    cases h
    obtain ⟨hle, hrefs, hflagged⟩ := Analysis.pop_drop hpop
    obtain ⟨hle', hrefs', hflagged'⟩ := Analysis.popMany_eq hpopMany
    rw [hrefs, length_drop] at hle'
    rw [hrefs, drop_drop] at hrefs'
    have hneeds : Instr.needs (.LOAD_SUPER_ATTR ioparg) ≤ a.refs.length := by
      simp only [Instr.needs]
      omega
    by_cases hmethod : ioparg &&& 1 = 1
    · rw [if_pos hmethod, Analysis.push_flagged, Analysis.pushNew_flagged, hflagged', hflagged]
      exact ⟨List.Subset.refl _, hneeds, [_, _], (if_pos hmethod).symm,
        congrArg (fun refs => self :: ⟨some i, none⟩ :: refs) hrefs'⟩
    · rw [if_neg hmethod, Analysis.pushNew_flagged, hflagged', hflagged]
      exact ⟨List.Subset.refl _, hneeds, [_], (if_neg hmethod).symm, congrArg _ hrefs'⟩
  | LOAD_SPECIAL | PUSH_EXC_INFO =>
    obtain ⟨⟨tos, a₁⟩, hpop, h⟩ := bind_eq_some_iff.mp h
    cases h
    obtain ⟨hle, hrefs, hflagged⟩ := Analysis.pop_drop hpop
    rw [Analysis.push_flagged, Analysis.pushNew_flagged, hflagged]
    exact ⟨List.Subset.refl _, hle, [_, _], rfl,
      congrArg (fun refs => tos :: ⟨some i, none⟩ :: refs) hrefs⟩
  | SEND target =>
    obtain ⟨⟨_, a₁⟩, hpop, h⟩ := bind_eq_some_iff.mp h
    cases h
    obtain ⟨hle, hrefs, hflagged⟩ := Analysis.pop_drop hpop
    rw [Analysis.pushNew_flagged, hflagged]
    exact ⟨List.Subset.refl _, hle, [_], rfl, congrArg _ hrefs⟩
  | LOAD_FAST_BORROW | LOAD_FAST_CHECK | LOAD_FAST_BORROW_LOAD_FAST_BORROW | plain | MAKE_CELL
  | COPY_FREE_VARS | LOAD_LOCAL | STORE_LOCAL | REFINE_TYPE | PRIMITIVE_BOX | PRIMITIVE_UNBOX
  | LOAD_METHOD_STATIC => exact analyzePlain_shaped rfl rfl h

theorem analyzeInsts_step {insts : List Inst} {inst : Inst} {last : Analysis}
    (h : analyzeInsts i (insts.drop i) a = some last) (hinst : insts[i]? = some inst) :
    ∃ a', analyzeInst i inst.op a = some a' ∧
      analyzeInsts (i + 1) (insts.drop (i + 1)) a' = some last := by
  obtain ⟨hlt, heq⟩ := List.getElem?_eq_some_iff.mp hinst
  rw [drop_eq_getElem_cons hlt, heq] at h
  exact bind_eq_some_iff.mp h

theorem analyzeInsts_flagged (insts : List Inst) :
    ∀ {i : Nat} {a last : Analysis}, analyzeInsts i insts a = some last →
      a.flagged ⊆ last.flagged := by
  induction insts with
  | nil =>
    intro i a last h
    cases h
    exact List.Subset.refl _
  | cons inst insts ih =>
    intro i a last h
    obtain ⟨a', hinst, hrest⟩ := bind_eq_some_iff.mp h
    exact List.Subset.trans (analyzeInst_shaped hinst).1 (ih hrest)

def SameMoves (inst inst' : Inst) : Prop :=
  inst.op.needs = inst'.op.needs ∧ inst.op.leaves = inst'.op.leaves

theorem kept_refs {insts' insts : List Inst} (hsame : Forall₂ SameMoves insts' insts) :
    ∀ {i depth : Nat} {a last : Analysis}, analyzeInsts i insts a = some last →
      Keeps depth a.refs.length insts' →
      a.refs.drop (a.refs.length - depth) ⊆ last.refs := by
  induction hsame with
  | nil =>
    intro i depth a last h _
    cases h
    exact drop_subset _ _
  | @cons inst' inst insts' insts hmoves _ ih =>
    intro i depth a last h hkeeps
    obtain ⟨a', hinst, hrest⟩ := bind_eq_some_iff.mp h
    obtain ⟨-, hneeds, top, htop, hrefs⟩ := analyzeInst_shaped hinst
    obtain ⟨hdepth, hkeepsRest⟩ := hkeeps
    rw [hmoves.1] at hdepth
    rw [hmoves.1, hmoves.2] at hkeepsRest
    have hlength : a'.refs.length = a.refs.length - inst.op.needs + inst.op.leaves := by
      rw [hrefs, length_append, length_drop, htop, Nat.add_comm]
    have hsub := ih hrest (hlength ▸ hkeepsRest)
    have hsplit : a'.refs.length - depth =
        top.length + (a.refs.length - inst.op.needs - depth) := by
      rw [hlength, htop]
      omega
    rw [hsplit, hrefs, drop_length_add_append, drop_drop] at hsub
    have hsame : inst.op.needs + (a.refs.length - inst.op.needs - depth) =
        a.refs.length - depth := by omega
    rw [hsame] at hsub
    exact hsub

end CinderX.Compiler.LoadFast

/-!
## Borrowed loads are safe

Every block of the optimized graph borrows safely, in the runs whose steps the
simulation follows.
-/

namespace CinderX.Compiler.LoadFast

open List

open List (Forall₂)

def Block.NoBorrow (b : Block) : Prop := ∀ inst ∈ b.insts, inst.op.isBorrow = false

def kept (insts : List Inst) (height depth : Nat) : Prop := Keeps depth height insts

section Optimized

variable {b : Block} {flagged : List Nat}

theorem optimized_getElem? (i : Nat) :
    (b.optimized flagged).insts[i]? = (b.insts[i]?).map (optimizeInst flagged i) :=
  getElem?_mapIdx

theorem optimized_inst {i : Nat} {inst' : Inst}
    (h : (b.optimized flagged).insts[i]? = some inst') :
    ∃ inst, b.insts[i]? = some inst ∧ optimizeInst flagged i inst = inst' := by
  rw [optimized_getElem?] at h
  exact Option.map_eq_some_iff.mp h

theorem optimizeInst_op (i : Nat) (inst : Inst) :
    (optimizeInst flagged i inst).op = if i ∈ flagged then inst.op else inst.op.borrow := by
  unfold optimizeInst
  split <;> rfl

theorem borrow_same (inst : Instr) : inst.borrow.needs = inst.needs ∧
    inst.borrow.leaves = inst.leaves ∧ inst.borrow.passes = inst.passes ∧
    inst.borrow.overwrites = inst.overwrites ∧ inst.borrow.loads = inst.loads := by
  cases inst <;> exact ⟨rfl, rfl, rfl, rfl, rfl⟩

theorem optimizeInst_same (i : Nat) (inst : Inst) :
    SameMoves (optimizeInst flagged i inst) inst ∧
      (optimizeInst flagged i inst).op.passes = inst.op.passes ∧
      (optimizeInst flagged i inst).op.overwrites = inst.op.overwrites ∧
      (optimizeInst flagged i inst).op.loads = inst.op.loads := by
  obtain ⟨hneeds, hleaves, hpasses, hoverwrites, hloads⟩ := borrow_same inst.op
  unfold SameMoves
  rw [optimizeInst_op]
  split
  · exact ⟨⟨rfl, rfl⟩, rfl, rfl, rfl⟩
  · exact ⟨⟨hneeds, hleaves⟩, hpasses, hoverwrites, hloads⟩

theorem optimized_sameMoves (i : Nat) :
    Forall₂ SameMoves ((b.optimized flagged).insts.drop i) (b.insts.drop i) := by
  apply forall₂_drop
  apply forall₂_of_length_eq_of_get
  · exact length_mapIdx
  · intro j h₁ h₂
    simp only [Block.optimized, get_eq_getElem, getElem_mapIdx]
    exact (optimizeInst_same j _).1

theorem JumpsWith.of_optimized {i : Nat} {inst : Inst} {stack stack' : List Value}
    (h : JumpsWith (optimizeInst flagged i inst).op stack stack') :
    JumpsWith inst.op stack stack' := by
  rw [optimizeInst_op] at h
  split at h
  · exact h
  · cases hop : inst.op <;> rw [hop] at h <;> first | exact h | cases h

end Optimized

/-! ## Runs of the optimized block -/

/-- The references that can be on the stack before instruction `i`: what an unflagged
load before it has borrowed. -/
def Borrowed (b : Block) (flagged : List Nat) (i k loc : Nat) : Prop :=
  k ∉ flagged ∧ k < i ∧ ∃ inst, b.insts[k]? = some inst ∧ loc ∈ inst.op.loads

section Runs

variable {b : Block} {a last : Analysis} {s : State} {inst : Inst} {base : Nat → Nat → Prop}
  {stack : List Value}

theorem Related.mono {base base' : Nat → Nat → Prop} (h : Related base s a)
    (himp : ∀ k loc, base k loc → base' k loc) : Related base' s a := by
  refine ⟨h.stack.imp ?_, h.locals⟩
  intro v r hmatch k loc heq
  obtain ⟨href, hbase, hnull⟩ := hmatch k loc heq
  exact ⟨href, himp k loc hbase, hnull⟩

theorem optimized_step {i : Nat} {s s' : State} {writes : List Write}
    {flagged : List Nat} (hnone : b.NoBorrow) (hflagged : last.flagged ⊆ flagged)
    (hsim : analyzeInsts i (b.insts.drop i) a = some last)
    (hrel : Related (Borrowed b flagged i) s a)
    (htracked : Tracked (b.optimized flagged) i s) (hinst : b.insts[i]? = some inst)
    (hstep : Completes i (optimizeInst flagged i inst).op s writes s') :
    (∃ a', analyzeInst i inst.op a = some a' ∧
      analyzeInsts (i + 1) (b.insts.drop (i + 1)) a' = some last ∧
      Related (Borrowed b flagged (i + 1)) s' a') ∧ ∀ w ∈ writes, w.Clean := by
  obtain ⟨a', hsimInst, hsimRest⟩ := analyzeInsts_step hsim hinst
  have hinst' : (b.optimized flagged).insts[i]? = some (optimizeInst flagged i inst) := by
    rw [optimized_getElem?, hinst]
    rfl
  obtain ⟨-, hpasses, hoverwrites, -⟩ := @optimizeInst_same flagged i inst
  have hmono : ∀ k loc, Borrowed b flagged i k loc → Borrowed b flagged (i + 1) k loc :=
    fun k loc h => ⟨h.1, Nat.lt_succ_of_lt h.2.1, h.2.2⟩
  rw [optimizeInst_op] at hstep
  obtain ⟨hrel', hclean⟩ := step_related (fun k loc h => h.1)
    (fun hunflagged loc hloc => ⟨hunflagged, Nat.lt_succ_self i, inst, hinst, hloc⟩)
    (hnone inst (mem_of_getElem? hinst)) (hrel.mono hmono)
    (List.Subset.trans (analyzeInsts_flagged _ hsimRest) hflagged) hsimInst hstep
    (fun h => htracked.passes _ hinst' (hpasses ▸ h))
    (fun loc hloc k hmem => by
      -- a local that is overwritten unnoticed is null, or not loaded before
      obtain ⟨-, ⟨-, hlt, inst', hinst', hloads⟩, hnull⟩ := exists_ref_of_borrowed hrel.stack hmem
      cases htracked.overwrites _ (by assumption) loc (hoverwrites ▸ hloc) with
      | inl h => exact hnull h
      | inr h =>
        have hload : (b.optimized flagged).insts[k]? = some (optimizeInst flagged k inst') := by
          rw [optimized_getElem?, hinst']
          rfl
        exact h k hlt _ hload ((optimizeInst_same k inst').2.2.2 ▸ hloads))
  exact ⟨⟨a', hsimInst, hsimRest, hrel'⟩, hclean⟩

theorem run_related {i : Nat} {flagged : List Nat} (hnone : b.NoBorrow)
    (hflagged : last.flagged ⊆ flagged)
    (hsim : analyzeInsts 0 b.insts ⟨replicate b.startdepth.toNat dummyRef, [], []⟩ = some last)
    (hrun : Run (Tracked (b.optimized flagged)) (b.optimized flagged) i s) :
    ∃ a, analyzeInsts i (b.insts.drop i) a = some last ∧ Related (Borrowed b flagged i) s a := by
  induction hrun with
  | start hdepth hstack hlocals =>
    refine ⟨_, hsim, ?_, hlocals⟩
    have hdepth : _ = b.startdepth.toNat := hdepth
    rw [← hdepth]
    exact matches_new hstack dummyRef
  | step _ hinst hcond hstep ih =>
    obtain ⟨a, hsimRest, hrel⟩ := ih
    obtain ⟨inst₀, hinst₀, rfl⟩ := optimized_inst hinst
    obtain ⟨⟨a', -, hsim', hrel'⟩, -⟩ :=
      optimized_step hnone hflagged hsimRest hrel hcond hinst₀ hstep
    exact ⟨a', hsim', hrel'⟩

theorem isNew_of_kept {locals : Nat → Value}
    {refs : List Ref} (hbase : ∀ k loc, base k loc → k ∉ last.refs.filterMap (·.instr))
    (h : Forall₂ (MatchesRef base locals) stack refs) (hsub : refs ⊆ last.refs) :
    ∀ v ∈ stack, v.isNew := by
  intro v hv
  cases v with
  | null => rfl
  | owned => rfl
  | borrowed k loc =>
    obtain ⟨href, hk, -⟩ := exists_ref_of_borrowed h hv
    have hmem : k ∈ last.refs.filterMap (·.instr) :=
      mem_filterMap.mpr ⟨_, hsub href, rfl⟩
    exact absurd hmem (hbase k loc hk)

theorem jump_related {i : Nat} {a' : Analysis} (hrel : Related base s a)
    (hsim : analyzeInst i inst.op a = some a') (hjump : JumpsWith inst.op s.stack stack) :
    Forall₂ (MatchesRef base s.locals) stack
      (a'.refs.drop (a'.refs.length - stack.length)) := by
  obtain ⟨frame, locals⟩ := s
  have hsame : ∀ {refs : List Ref}, Forall₂ (MatchesRef base locals) stack refs →
      Forall₂ (MatchesRef base locals) stack (refs.drop (refs.length - stack.length)) := by
    intro refs h
    rw [h.length_eq, Nat.sub_self]
    exact h
  cases hop : inst.op <;> rw [hop] at hsim hjump
  case FOR_ITER target =>
    cases hjump with
    | FOR_ITER =>
      cases hsim
      have hlength : frame.length = a.refs.length := hrel.stack.length_eq
      have hrefs : ((a.pushBlock target (a.refs.length + 1)).pushNew i 1).refs =
          ⟨some i, none⟩ :: a.refs := rfl
      rw [hrefs, length_cons, hlength, Nat.add_sub_cancel_left]
      exact hrel.stack
  case SEND target =>
    cases hjump with
    | SEND hnew => exact hsame (step_move hrel hsim (.SEND hnew) (by simp)).1.stack
  case plain op oparg target =>
    cases hjump with
    | plain hargs hlength hnew =>
      exact hsame (step_plain hrel hsim (.plain hargs hlength hnew) nofun nofun (by simp)).1.stack
  all_goals cases hjump

theorem optimized_safe {a : Analysis} (hnone : b.NoBorrow) (h : analyzeBlock b = some a) :
    BorrowsSafely (Tracked (b.optimized a.flagged)) kept (b.optimized a.flagged) := by
  obtain ⟨last, hsim, h⟩ := Option.bind_eq_some_iff.mp h
  have hmarked : a.flagged = last.refs.filterMap (·.instr) ++ last.flagged := by
    cases h
    dsimp only
    split
    · split <;> rfl
    · rfl
  have hflagged : last.flagged ⊆ a.flagged := hmarked ▸ subset_append_right _ _
  have hunconsumed : ∀ {i k loc}, Borrowed b a.flagged i k loc →
      k ∉ last.refs.filterMap (·.instr) := by
    intro i k loc hk hmem
    apply hk.1
    rw [hmarked]
    exact mem_append_left _ hmem
  constructor
  · intro i s hrun hcond inst' hinst' writes s' hstep
    obtain ⟨inst, hinst, rfl⟩ := optimized_inst hinst'
    obtain ⟨a', hsimRest, hrel⟩ := run_related hnone hflagged hsim hrun
    exact (optimized_step hnone hflagged hsimRest hrel hcond hinst hstep).2
  · intro i s hrun stack hleaves
    obtain ⟨a', hsimRest, hrel⟩ := run_related hnone hflagged hsim hrun
    refine ⟨?_, hrel.locals⟩
    cases hleaves with
    | falls =>
      rw [drop_eq_nil_of_le (by simp [Block.optimized])] at hsimRest
      cases hsimRest
      exact isNew_of_kept (fun k loc => hunconsumed) hrel.stack (List.Subset.refl _)
    | jumps hinst' hjump hkept =>
      obtain ⟨inst, hinst, rfl⟩ := optimized_inst hinst'
      obtain ⟨a'', hsimInst, hsimNext⟩ := analyzeInsts_step hsimRest hinst
      have hstack := jump_related hrel hsimInst hjump.of_optimized
      obtain ⟨-, -, top, htop, hrefs⟩ := analyzeInst_shaped hsimInst
      obtain ⟨⟨hneeds, hleaves⟩, -⟩ := @optimizeInst_same a.flagged i inst
      have hlength : a''.refs.length = s.stack.length -
          (optimizeInst a.flagged i inst).op.needs + (optimizeInst a.flagged i inst).op.leaves := by
        rw [hneeds, hleaves, hrefs, length_append, length_drop, htop,
          hrel.stack.length_eq, Nat.add_comm]
      exact isNew_of_kept (fun k loc => hunconsumed) hstack
        (kept_refs (optimized_sameMoves _) hsimNext (hlength ▸ hkept))
    | @raises _ _ _ depth hinst' hhandler hdepth hkept =>
      have hlength := hrel.stack.length_eq
      have hstack := matches_drop hrel.stack (s.stack.length - depth)
      exact isNew_of_kept (fun k loc => hunconsumed) hstack
        (hlength ▸ kept_refs (optimized_sameMoves _) hsimRest (hlength ▸ hkept))

theorem isNew_of_mem_swapTop {n : Nat} {stack stack' : List Value}
    (h : swapTop n stack = some stack')
    (hnew : ∀ v ∈ stack, v.isNew) : ∀ v ∈ stack', v.isNew := by
  obtain ⟨top, htop, h⟩ := Option.bind_eq_some_iff.mp h
  obtain ⟨low, hlow, h⟩ := Option.bind_eq_some_iff.mp h
  cases h
  intro v hv
  rcases mem_or_eq_of_mem_set hv with hv | rfl
  · rcases mem_or_eq_of_mem_set hv with hv | rfl
    · exact hnew v hv
    · exact hnew v (mem_of_getElem? htop)
  · exact hnew v (mem_of_getElem? hlow)

end Runs

end CinderX.Compiler.LoadFast
