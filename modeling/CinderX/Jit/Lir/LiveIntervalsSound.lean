import CinderX.Jit.Lir.LiveIntervalsPass

/-!
# Soundness of live intervals

What the reverse pass computes: the registers live into each block are those
live along forward paths, and an interval covers these locations together with
the loops whose header the register is live into, as far as a later block
jumps back to the header.
-/

namespace CinderX.Jit.Lir

open List BasicBlock Lir.Function

def span (blocks : List BasicBlock) : Nat := (blocks.map BasicBlock.size).sum

@[simp] theorem span_nil : span [] = 0 := rfl

@[simp] theorem span_cons (bb : BasicBlock) (rest : List BasicBlock) :
    span (bb :: rest) = bb.size + span rest := by
  simp [span]

@[simp] theorem span_append (before after : List BasicBlock) :
    span (before ++ after) = span before + span after := by
  simp [span]

theorem totalIds_eq_span (blocks : List BasicBlock) : totalIds blocks = span blocks := by
  induction blocks with
  | nil => rfl
  | cons bb rest ih =>
    simp only [totalIds, kIdsPerInstr, map_cons, sum_cons, length_cons] at ih ⊢
    rw [span_cons, ← ih]
    simp only [getNumInstrs, size]
    omega

theorem layout_append_span (start : Int) (before after : List BasicBlock) :
    layout start (before ++ after) =
      layout start before ++ layout (start + span before) after := by
  induction before generalizing start with
  | nil => simp [layout]
  | cons bb rest ih =>
    simp only [cons_append, layout, ih, span_cons]
    rw [show start + (bb.size : Int) + (span rest : Int) =
      start + ((bb.size + span rest : Nat) : Int)
      by omega]

variable {blocks : List BasicBlock}

theorem exists_mem_layout (start : Int) {bb : BasicBlock}
    (h : bb ∈ blocks) : ∃ s, (s, bb) ∈ layout start blocks := by
  induction blocks generalizing start with
  | nil => simp at h
  | cons first rest ih =>
    simp only [mem_cons] at h
    rcases h with rfl | h
    · exact ⟨start, by simp [layout]⟩
    · obtain ⟨s, hs⟩ := ih (start + first.size) h
      exact ⟨s, by simp [layout, hs]⟩

theorem end_le_of_mem_layout {start s : Int} {bb : BasicBlock}
    (h : (s, bb) ∈ layout start blocks) : s + bb.size ≤ start + span blocks := by
  induction blocks generalizing start with
  | nil => simp [layout] at h
  | cons first rest ih =>
    simp only [layout, mem_cons, Prod.mk.injEq] at h
    rw [span_cons]
    rcases h with ⟨rfl, rfl⟩ | h
    · omega
    · have := ih h
      omega

namespace Function

variable {f : Function}

theorem placed_iff_of_append {before after : List BasicBlock}
    (hblocks : f.blocks = before ++ after) {s : Int} {bb : BasicBlock} :
    (f.Placed s bb ∧ (span before : Int) ≤ s) ↔ (s, bb) ∈ layout (span before) after := by
  unfold Placed
  rw [hblocks, layout_append_span, Int.zero_add]
  constructor
  · rintro ⟨h, hle⟩
    rcases mem_append.mp h with h | h
    · have := end_le_of_mem_layout h
      have : 0 < bb.size := by simp [size]
      omega
    · exact h
  · intro h
    exact ⟨mem_append.mpr (Or.inr h), le_of_mem_layout h⟩

def Needed (f : Function) (v : VReg) (loc : Int) : Prop :=
  ∃ start bb, f.Placed start bb ∧ f.NeededIn start bb v loc

def LoopCarriesFrom (f : Function) (from' : Int) (v : VReg) (loc : Int) : Prop :=
  ∃ header headerBlock, f.Placed header headerBlock ∧ from' ≤ header ∧
    ∃ last lastBlock, f.Placed last lastBlock ∧ headerBlock.id ∈ lastBlock.successors ∧
      header < last ∧ header ≤ loc ∧ loc < last + lastBlock.size ∧ f.ForwardLiveIn v header

def DefinedBy (f : Function) (v : VReg) (loc : Int) : Prop :=
  ∀ start bb, f.Placed start bb → start ≤ loc → loc < start + bb.size →
    ∀ define : Nat, bb.DefinesAt v define → start + define ≤ loc

end Function

structure ProcessedFrom (f : Function) (start : Int) (suffix : List BasicBlock)
    (st : LiveState) : Prop where
  totalIds : st.totalIds = start
  livein : ∀ s bb, (s, bb) ∈ layout start suffix →
    ∃ live, st.regallocBlocks bb.id = some ⟨s, live⟩ ∧ ∀ v, v ∈ live ↔ f.ForwardLiveIn v s
  unprocessed : ∀ id, id ∉ suffix.map BasicBlock.id → st.regallocBlocks id = none
  loopEnds : ∀ id loopEnd, loopEnd ∈ st.loopEnds id ↔
    ∃ s bb, (s, bb) ∈ layout start suffix ∧ id ∈ bb.successors ∧ loopEnd = s + bb.size
  visited : ∀ id, id ∈ st.visitedBlocks ↔ id ∈ suffix.map BasicBlock.id
  of_covered : ∀ v loc, st.Covered v loc →
    start ≤ loc ∧ (f.Needed v loc ∨ f.LoopCarriesFrom start v loc)
  covered : ∀ v loc, start ≤ loc → f.Needed v loc ∨ f.LoopCarriesFrom start v loc →
    f.DefinedBy v loc → st.Covered v loc

theorem initialLiveState_processed (f : Function) :
    ProcessedFrom f (span f.blocks) [] (initialLiveState f) := by
  refine ⟨?_, by simp [layout], by simp [initialLiveState], by simp [initialLiveState, layout],
    by simp [initialLiveState], ?_, ?_⟩
  · simp [initialLiveState, totalIds_eq_span]
  · intro v loc h
    simp [LiveState.Covered, initialLiveState, LiveInterval.empty, LiveInterval.Mem] at h
  · have hend : ∀ s bb, f.Placed s bb → s + bb.size ≤ span f.blocks := by
      intro s bb h
      have := end_le_of_mem_layout h
      omega
    rintro v loc hle (⟨s, bb, hbb, -, hlt, -⟩ | ⟨-, -, -, -, s, bb, hbb, -, -, -, hlt, -⟩) -
    · have := hend s bb hbb
      omega
    · have := hend s bb hbb
      omega

namespace LiveState

/-- What `processBlock` does with a block that it meets for the first time. -/
structure BlockResult (f : Function) (start : Int) (bb : BasicBlock) (st st' : LiveState)
    (live : Finset VReg) : Prop where
  totalIds : st'.totalIds = start
  regallocBlocks : st'.regallocBlocks =
    Function.update st.regallocBlocks bb.id (some ⟨start, live⟩)
  mem_live : ∀ v, v ∈ live ↔
    Function.LiveBefore (v ∈ (st.enterBlock bb start).liveOut f bb) v bb.instrs ∧
      v ∉ phiOutputs bb
  loopEnds : ∀ id loopEnd, loopEnd ∈ st'.loopEnds id ↔
    loopEnd ∈ st.loopEnds id ∨ (id ∈ bb.successors ∧ loopEnd = start + bb.size)
  visited : st'.visitedBlocks = insert bb.id st.visitedBlocks
  of_covered : ∀ v loc, st'.Covered v loc →
    st.Covered v loc ∨
      (v ∈ (st.enterBlock bb start).liveOut f bb ∧ start ≤ loc ∧ loc < start + bb.size) ∨
      BlockPass.ReadsFrom start 0 bb.instrs v loc ∨
      (v ∈ live ∧ start ≤ loc ∧ ∃ loopEnd ∈ st.loopEnds bb.id, loc < loopEnd)
  covered : ∀ v loc,
    st.Covered v loc ∨
      (v ∈ (st.enterBlock bb start).liveOut f bb ∧ start ≤ loc ∧ loc < start + bb.size) ∨
      BlockPass.ReadsFrom start 0 bb.instrs v loc →
    BlockPass.DefinesUpTo start 0 bb.instrs v loc → st'.Covered v loc
  covered_loop : ∀ v loc, v ∈ live → start ≤ loc →
    (∃ loopEnd ∈ st.loopEnds bb.id, loc < loopEnd) → st'.Covered v loc

theorem processBlockAt_result (target : Target) (f : Function) (bb : BasicBlock)
    (st : LiveState) (range : LiveRange) (hstop : range.stop = range.start + bb.size)
    (hnew : bb.id ∉ st.visitedBlocks) :
    ∃ live, BlockResult f range.start bb st
      (st.processBlockAt target f bb range (range.start + bb.size)) live := by
  let st₀ := st.enterBlock bb range.start
  let out := st₀.liveOut f bb
  let st₁ := st₀.addRangeToAll out range
  let pass := BlockPass.processInstrs target range.start ⟨st₁, out⟩ 0 bb.instrs
  let live := pass.live \ phiOutputs bb
  let st₂ := (pass.st.loopRangesAt range.start bb.id).foldl (extendOverLoop live) pass.st
  have hpass : BlockPass.TransfersAll range.start 0 bb.instrs ⟨st₁, out⟩ pass :=
    BlockPass.processInstrs_transfersAll target range.start ⟨st₁, out⟩ 0 bb.instrs
  obtain ⟨htables, hcovered⟩ :=
    extendOverLoop_fold live (pass.st.loopRangesAt range.start bb.id) pass.st
  have htables₂ : st₂.tables = st₀.tables := htables.trans (hpass.tables.trans rfl)
  have hpassEnds : pass.st.loopEnds = st.loopEnds :=
    congrArg BlockTables.loopEnds (hpass.tables.trans rfl)
  simp only [tables, BlockTables.mk.injEq] at htables₂
  obtain ⟨hblocks, hends, hvisited, htotal⟩ := htables₂
  have hnew₂ : bb.id ∉ st₂.visitedBlocks := hvisited ▸ hnew
  obtain ⟨hblocks', hvisited', htotal', hcovered', hends'⟩ :=
    recordLoopEnds_spec bb (range.start + bb.size)
      { st₂ with
        regallocBlocks := Function.update st₂.regallocBlocks bb.id (some ⟨range.start, live⟩) }
      hnew₂
  have hresult : (st.processBlockAt target f bb range (range.start + bb.size)).Covered =
      st₂.Covered := hcovered'
  have hbefore : ∀ v loc, st₁.Covered v loc ↔ st.Covered v loc ∨
      (v ∈ out ∧ range.start ≤ loc ∧ loc < range.start + bb.size) := by
    intro v loc
    rw [covered_addRangeToAll, LiveRange.isInRange_iff, hstop]
    rfl
  refine ⟨live, ?_, ?_, ?_, ?_, ?_, ?_, ?_, ?_⟩
  · exact htotal'.trans htotal
  · refine hblocks'.trans ?_
    simp only [hblocks, st₀, enterBlock]
    exact Function.update_idem _ _ _
  · intro v
    rw [Finset.mem_sdiff, hpass.live]
  · intro id loopEnd
    refine (hends' id loopEnd).trans ?_
    simp only [hends]
    rfl
  · refine congrArg (insert bb.id) (hvisited'.trans hvisited)
  · intro v loc h
    rw [hresult, hcovered, mem_loopRangesAt, hpassEnds] at h
    rcases h with h | h
    · rcases hpass.of_covered v loc h with h | h
      · rcases (hbefore v loc).mp h with h | h
        · exact Or.inl h
        · exact Or.inr (Or.inl h)
      · exact Or.inr (Or.inr (Or.inl h))
    · exact Or.inr (Or.inr (Or.inr h))
  · intro v loc h hdefines
    rw [hresult, hcovered]
    left
    apply hpass.covered v loc _ hdefines
    rcases h with h | h | h
    · exact Or.inl ((hbefore v loc).mpr (Or.inl h))
    · exact Or.inl ((hbefore v loc).mpr (Or.inr h))
    · exact Or.inr h
  · intro v loc hlive hle hloop
    rw [hresult, hcovered, mem_loopRangesAt, hpassEnds]
    exact Or.inr ⟨hlive, hle, hloop⟩

theorem processBlock_result (target : Target) (f : Function) (bb : BasicBlock)
    (st : LiveState) {start : Int} (htotal : st.totalIds = start + bb.size)
    (hnew : bb.id ∉ st.visitedBlocks) :
    ∃ live, BlockResult f start bb st (st.processBlock target f bb) live := by
  have hstart : st.totalIds - ((bb.getNumInstrs * kIdsPerInstr : Nat) : Int) - 1 = start := by
    simp only [htotal, getNumInstrs, kIdsPerInstr, size]
    omega
  have hend : start + ((bb.getNumInstrs * kIdsPerInstr : Nat) : Int) + 1 = start + bb.size := by
    simp only [getNumInstrs, kIdsPerInstr, size]
    omega
  have hlt : start < st.totalIds := by
    simp only [htotal, size]
    omega
  have h := processBlockAt_result target f bb st ⟨start, st.totalIds, hlt⟩ htotal hnew
  unfold processBlock
  simp only [hstart, hend]
  exact h

end LiveState

/-! ## The run over all blocks -/

section Step

variable {f : Function} {before rest : List BasicBlock} {bb : BasicBlock}
variable (hblocks : f.blocks = before ++ bb :: rest)

include hblocks

theorem placed_of_append : f.Placed (span before) bb := by
  have h := @placed_iff_of_append f before (bb :: rest) hblocks (span before) bb
  exact (h.mpr (by simp [layout])).1

theorem placed_after_iff {s : Int} {other : BasicBlock} :
    (f.Placed s other ∧ (span before : Int) < s) ↔
      (s, other) ∈ layout (span before + bb.size) rest := by
  have hbb := placed_of_append hblocks
  have hiff := @placed_iff_of_append f before (bb :: rest) hblocks s other
  simp only [layout, mem_cons, Prod.mk.injEq] at hiff
  constructor
  · rintro ⟨hother, hlt⟩
    rcases hiff.mp ⟨hother, by omega⟩ with ⟨rfl, -⟩ | h
    · omega
    · exact h
  · intro h
    have hle := le_of_mem_layout h
    have : 0 < bb.size := by simp [size]
    exact ⟨(hiff.mpr (Or.inr h)).1, by omega⟩

variable {st : LiveState}

theorem mem_liveOut_iff (hf : f.WellFormed)
    (hst : ProcessedFrom f (span before + bb.size) rest st) (v : VReg) :
    v ∈ (st.enterBlock bb (span before)).liveOut f bb ↔
      f.ForwardLiveOut (span before) bb v := by
  have hbb := placed_of_append hblocks
  rw [LiveState.mem_liveOut]
  unfold LiveState.liveFromSuccessor Function.ForwardLiveOut Function.PhiReads
  simp only [Finset.mem_union]
  constructor
  · rintro ⟨succ, hsucc, hlive | hphi⟩
    · right
      by_cases hself : succ = bb.id
      · simp [LiveState.enterBlock, hself] at hlive
      · have hsame : (st.enterBlock bb (span before)).regallocBlocks succ =
            st.regallocBlocks succ := by
          simp [LiveState.enterBlock, hself]
        rw [hsame] at hlive
        by_cases hmem : succ ∈ rest.map BasicBlock.id
        · obtain ⟨other, hother, rfl⟩ := List.mem_map.mp hmem
          obtain ⟨s, hplaced⟩ := exists_mem_layout (span before + bb.size) hother
          obtain ⟨live, hblock, hmemLive⟩ := hst.livein s other hplaced
          rw [hblock] at hlive
          have hafter := (placed_after_iff hblocks).mpr hplaced
          exact ⟨s, other, hafter.1, hsucc, hafter.2, (hmemLive v).mp hlive⟩
        · rw [hst.unprocessed succ hmem] at hlive
          simp at hlive
    · left
      cases hblock : f.block? succ with
      | none => simp [hblock] at hphi
      | some succBlock =>
        rw [hblock] at hphi
        exact ⟨succ, hsucc, succBlock, hblock, hphi⟩
  · rintro (⟨succ, hsucc, succBlock, hblock, hphi⟩ | ⟨s, other, hother, hsucc, hlt, hlive⟩)
    · exact ⟨succ, hsucc, Or.inr (by simpa [hblock] using hphi)⟩
    · refine ⟨other.id, hsucc, Or.inl ?_⟩
      have hplaced := (placed_after_iff hblocks).mp ⟨hother, hlt⟩
      obtain ⟨live, hblock, hmemLive⟩ := hst.livein s other hplaced
      have hself : other.id ≠ bb.id := by
        intro heq
        have := (hother.eq_of_id hf hbb heq).1
        omega
      have hsame : (st.enterBlock bb (span before)).regallocBlocks other.id =
          st.regallocBlocks other.id := by
        simp [LiveState.enterBlock, hself]
      rw [hsame, hblock]
      exact (hmemLive v).mpr hlive

theorem definesUpTo_of_definedBy {v : VReg} {loc : Int} (hle : (span before : Int) ≤ loc)
    (hdefined : f.DefinedBy v loc) :
    BlockPass.DefinesUpTo (span before) 0 bb.instrs v loc := by
  apply BlockPass.definesUpTo_of
  intro define hdefine
  by_cases hlt : loc < span before + bb.size
  · exact hdefined _ _ (placed_of_append hblocks) hle hlt define hdefine
  · have := hdefine.lt_size
    omega

theorem processBlock_processed (target : Target) (hf : f.WellFormed)
    (hst : ProcessedFrom f (span before + bb.size) rest st) :
    ProcessedFrom f (span before) (bb :: rest) (st.processBlock target f bb) := by
  have hbb := placed_of_append hblocks
  have hnotin : bb.id ∉ rest.map BasicBlock.id := by
    have hnodup := hf.ids_nodup
    rw [hblocks, map_append, map_cons] at hnodup
    exact (nodup_cons.mp (nodup_append.mp hnodup).2.1).1
  have hnew : bb.id ∉ st.visitedBlocks := fun h => hnotin ((hst.visited _).mp h)
  obtain ⟨live, hresult⟩ := LiveState.processBlock_result target f bb st hst.totalIds hnew
  have hlive : ∀ v, v ∈ live ↔ f.ForwardLiveIn v (span before) := by
    intro v
    rw [hresult.mem_live, forwardLiveIn_iff hbb,
      propext (mem_liveOut_iff hblocks hf hst v)]
  have hafter := @placed_after_iff f before rest bb hblocks
  refine ⟨hresult.totalIds, ?_, ?_, ?_, ?_, ?_, ?_⟩
  · intro s other hmem
    rw [hresult.regallocBlocks]
    simp only [layout, mem_cons, Prod.mk.injEq] at hmem
    rcases hmem with ⟨rfl, rfl⟩ | hmem
    · exact ⟨live, by simp, hlive⟩
    · have hne : other.id ≠ bb.id := by
        intro heq
        exact hnotin (heq ▸ List.mem_map_of_mem (mem_of_mem_layout hmem))
      rw [Function.update_of_ne hne]
      exact hst.livein s other hmem
  · intro id hid
    simp only [map_cons, mem_cons, not_or] at hid
    rw [hresult.regallocBlocks, Function.update_of_ne hid.1]
    exact hst.unprocessed id hid.2
  · intro id loopEnd
    rw [hresult.loopEnds, hst.loopEnds]
    simp only [layout, mem_cons, Prod.mk.injEq]
    constructor
    · rintro (⟨s, other, hmem, hsucc, hend⟩ | ⟨hsucc, hend⟩)
      · exact ⟨s, other, Or.inr hmem, hsucc, hend⟩
      · exact ⟨_, bb, Or.inl ⟨rfl, rfl⟩, hsucc, hend⟩
    · rintro ⟨s, other, ⟨rfl, rfl⟩ | hmem, hsucc, hend⟩
      · exact Or.inr ⟨hsucc, hend⟩
      · exact Or.inl ⟨s, other, hmem, hsucc, hend⟩
  · intro id
    rw [hresult.visited, Finset.mem_insert, hst.visited]
    simp
  · intro v loc h
    rcases hresult.of_covered v loc h with h | ⟨hout, hle, hlt⟩ | hreads | ⟨hmem, hle, hloop⟩
    · obtain ⟨hle, h⟩ := hst.of_covered v loc h
      refine ⟨by omega, h.imp_right ?_⟩
      rintro ⟨header, headerBlock, hheader, hfrom, h⟩
      exact ⟨header, headerBlock, hheader, by omega, h⟩
    · rw [mem_liveOut_iff hblocks hf hst] at hout
      exact ⟨hle, Or.inl ⟨_, bb, hbb, hle, hlt, Or.inl hout⟩⟩
    · obtain ⟨hle, offset, hread, hloc⟩ := BlockPass.readsFrom_iff.mp hreads
      have := hread.lt_size
      exact ⟨hle, Or.inl ⟨_, bb, hbb, hle, by omega, Or.inr ⟨offset, hread, hloc⟩⟩⟩
    · obtain ⟨loopEnd, hends, hlt⟩ := hloop
      obtain ⟨last, lastBlock, hlast, hsucc, rfl⟩ := (hst.loopEnds _ _).mp hends
      have hlast := hafter.mpr hlast
      exact ⟨hle, Or.inr ⟨_, bb, hbb, le_refl _, last, lastBlock, hlast.1, hsucc, hlast.2, hle,
        hlt, (hlive v).mp hmem⟩⟩
  · intro v loc hle h hdefined
    have hdefines := definesUpTo_of_definedBy hblocks hle hdefined
    have hlater : (span before + bb.size : Int) ≤ loc →
        f.Needed v loc ∨ f.LoopCarriesFrom (span before + bb.size) v loc →
        (st.processBlock target f bb).Covered v loc := by
      intro hle' h
      exact hresult.covered v loc (Or.inl (hst.covered v loc hle' h hdefined)) hdefines
    rcases h with ⟨s, other, hother, hle', hlt, hneeded⟩ |
        ⟨header, headerBlock, hheader, hfrom, last, lastBlock, hlast, hsucc, hback, hle', hlt, hin⟩
    · rcases layout_ordered hother hbb with ⟨rfl, rfl⟩ | hbefore | hlater'
      · apply hresult.covered v loc _ hdefines
        rcases hneeded with hout | ⟨offset, hread, hloc⟩
        · exact Or.inr (Or.inl ⟨(mem_liveOut_iff hblocks hf hst v).mpr hout, hle', hlt⟩)
        · exact Or.inr (Or.inr (BlockPass.readsFrom_iff.mpr ⟨hle', offset, hread, hloc⟩))
      · omega
      · exact hlater (by omega) (Or.inl ⟨s, other, hother, hle', hlt, hneeded⟩)
    · rcases layout_ordered hheader hbb with ⟨rfl, rfl⟩ | hbefore | hlater'
      · have hlast' := hafter.mp ⟨hlast, hback⟩
        exact hresult.covered_loop v loc ((hlive v).mpr hin) hle
          ⟨_, (hst.loopEnds _ _).mpr ⟨last, lastBlock, hlast', hsucc, rfl⟩, hlt⟩
      · have : 0 < headerBlock.size := by simp [size]
        omega
      · exact hlater (by omega) (Or.inr ⟨header, headerBlock, hheader, by omega, last, lastBlock,
          hlast, hsucc, hback, hle', hlt, hin⟩)

end Step

theorem foldr_processBlock_processed (target : Target) {f : Function} (hf : f.WellFormed)
    (before suffix : List BasicBlock) (hblocks : f.blocks = before ++ suffix) :
    ProcessedFrom f (span before) suffix
      (suffix.foldr (fun bb st => st.processBlock target f bb) (initialLiveState f)) := by
  induction suffix generalizing before with
  | nil =>
    rw [append_nil] at hblocks
    rw [← hblocks]
    exact initialLiveState_processed f
  | cons bb rest ih =>
    have hrest := ih (before ++ [bb]) (by simp [hblocks])
    have hspan : (span (before ++ [bb]) : Int) = span before + bb.size := by simp
    rw [hspan] at hrest
    exact processBlock_processed hblocks target hf hrest

theorem calculateLiveIntervals_processed (target : Target) {f : Function}
    (hf : f.WellFormed) :
    ProcessedFrom f 0 f.blocks (calculateLiveIntervals target f) := by
  unfold calculateLiveIntervals
  rw [foldl_reverse]
  exact foldr_processBlock_processed target hf [] f.blocks rfl

namespace Function

variable {f : Function} {v : VReg} {loc : Int}

theorem loopCarriesFrom_zero_iff :
    f.LoopCarriesFrom 0 v loc ↔ f.LoopCarries v loc := by
  constructor
  · rintro ⟨header, headerBlock, hheader, -, h⟩
    exact ⟨header, headerBlock, hheader, h⟩
  · rintro ⟨header, headerBlock, hheader, h⟩
    exact ⟨header, headerBlock, hheader, le_of_mem_layout hheader, h⟩

theorem LiveAt.definedBy (hf : f.WellFormed) (h : f.LiveAt v loc) :
    f.DefinedBy v loc := by
  intro start bb hbb hle hlt define hdefine
  have hloc : loc = start + ((loc - start).toNat : Int) := by omega
  rw [hloc] at h
  have := h.define_le hf hbb hdefine
  omega

theorem Needed.forwardLiveAt (hneeded : f.Needed v loc)
    (hdefined : f.DefinedBy v loc) : f.ForwardLiveAt v loc := by
  obtain ⟨start, bb, hbb, hneeded⟩ := hneeded
  have hloc : loc = start + ((loc - start).toNat : Int) := by
    have := hneeded.1
    omega
  have hdefine : ∀ define, bb.DefinesAt v define → define ≤ (loc - start).toNat := by
    intro define hdefine
    have := hdefined start bb hbb hneeded.1 hneeded.2.1 define hdefine
    omega
  rw [hloc] at hneeded ⊢
  exact hneeded.forwardLiveAt hbb hdefine

end Function

/--
The intervals cover every live location exactly when each register that is only
live around a loop is carried by a loop that the pass sees: some header before
the location, into which the register is live, is jumped back to from another
block that ends after the location.
-/
theorem calculateLiveIntervals_covers_iff (target : Target) (f : Function)
    (hf : f.WellFormed) :
    (∀ v loc, f.LiveAt v loc →
        ((calculateLiveIntervals target f).intervals (.vreg v)).covers loc = true) ↔
      ∀ v loc, f.LiveAt v loc → ¬ f.ForwardLiveAt v loc → f.LoopCarries v loc := by
  have hprocessed := calculateLiveIntervals_processed target hf
  constructor
  · intro hcovers v loc hlive hforward
    have hcovered := (LiveInterval.covers_iff_mem _ _).mp (hcovers v loc hlive)
    obtain ⟨-, hneeded | hloop⟩ := hprocessed.of_covered v loc hcovered
    · exact absurd (hneeded.forwardLiveAt (hlive.definedBy hf)) hforward
    · exact loopCarriesFrom_zero_iff.mp hloop
  · intro hloops v loc hlive
    rw [LiveInterval.covers_iff_mem]
    have hdefined := hlive.definedBy hf
    by_cases hforward : f.ForwardLiveAt v loc
    · have hneeded := hforward.needed
      have hle : 0 ≤ loc := by
        obtain ⟨start, bb, hbb, hin, -⟩ := hneeded
        have := le_of_mem_layout hbb
        omega
      exact hprocessed.covered v loc hle (Or.inl hneeded) hdefined
    · have hloop := hloops v loc hlive hforward
      have hle : 0 ≤ loc := by
        obtain ⟨header, headerBlock, hheader, -, -, -, -, -, hin, -⟩ := hloop
        have := le_of_mem_layout hheader
        omega
      exact hprocessed.covered v loc hle
        (Or.inr (loopCarriesFrom_zero_iff.mpr hloop)) hdefined

def selfLoopBlock : BasicBlock :=
  ⟨1, [⟨.kPush, .none, [⟨.vreg ⟨0, 0⟩, .k64bit⟩]⟩,
    ⟨.kCondBranch, .none, [⟨.vreg ⟨1, 1⟩, .k64bit⟩]⟩], [1, 2]⟩

def selfLoop : Function where
  blocks := [
    ⟨0, [⟨.kMove, .vreg 0, [⟨.imm, .k64bit⟩]⟩, ⟨.kMove, .vreg 1, [⟨.imm, .k64bit⟩]⟩], [1]⟩,
    selfLoopBlock,
    ⟨2, [⟨.kReturn, .none, []⟩], []⟩]
  dataType _ := .k64bit

theorem selfLoop_placed : selfLoop.Placed 5 selfLoopBlock := by
  simp [Function.Placed, selfLoop, layout, size]

theorem selfLoopBlock_not_definesAt (v : VReg) (offset : Nat) :
    ¬ selfLoopBlock.DefinesAt v offset := by
  rintro (⟨-, h⟩ | ⟨index, instr, ⟨hget, -⟩, houtput, -⟩)
  · simp [phiOutputs, phis, Instruction.isPhi, selfLoopBlock] at h
  · match index with
    | 0 =>
      cases hget
      cases houtput
    | 1 =>
      cases hget
      cases houtput
    | n + 2 => cases hget

theorem selfLoop_wellFormed : selfLoop.WellFormed := by
  refine ⟨by decide, ?_⟩
  intro bb hbb v define read hdefine hread
  simp only [selfLoop, mem_cons, not_mem_nil, or_false] at hbb
  rcases hbb with rfl | rfl | rfl
  · obtain ⟨index, instr, ⟨hget, -⟩, hmem, -⟩ := hread
    match index with
    | 0 =>
      cases hget
      cases hmem
    | 1 =>
      cases hget
      cases hmem
    | n + 2 => cases hget
  · exact absurd hdefine (selfLoopBlock_not_definesAt v define)
  · obtain ⟨index, instr, ⟨hget, -⟩, hmem, -⟩ := hread
    match index with
    | 0 =>
      cases hget
      cases hmem
    | n + 1 => cases hget

theorem selfLoop_liveAt : selfLoop.LiveAt 0 7 := by
  have hdefine : ∀ offset : Nat, offset < 5 → ¬ selfLoop.Define 0 (5 + offset) := by
    intro offset hlt
    rw [define_iff selfLoop_placed hlt]
    exact selfLoopBlock_not_definesAt 0 offset
  have hnext : ∀ loc : Int, 5 ≤ loc → loc < 9 → selfLoop.Next loc (loc + 1) := by
    intro loc hle hlt
    exact ⟨5, selfLoopBlock, selfLoop_placed, Or.inl ⟨hle, hlt, rfl⟩⟩
  have hback : selfLoop.Next 9 5 :=
    ⟨5, selfLoopBlock, selfLoop_placed,
      Or.inr ⟨rfl, selfLoopBlock, selfLoop_placed, by decide⟩⟩
  have huse : selfLoop.Use 0 6 :=
    ⟨5, selfLoopBlock, selfLoop_placed,
      Or.inl ⟨1, ⟨0, _, ⟨rfl, rfl⟩, by decide, Or.inl rfl⟩, rfl⟩⟩
  have h6 : selfLoop.LiveAt 0 6 := .use huse
  have h5 : selfLoop.LiveAt 0 5 := h6.step (hnext 5 (by omega) (by omega)) (hdefine 1 (by omega))
  have h9 : selfLoop.LiveAt 0 9 := h5.step hback (hdefine 0 (by omega))
  have h8 : selfLoop.LiveAt 0 8 := h9.step (hnext 8 (by omega) (by omega)) (hdefine 4 (by omega))
  exact h8.step (hnext 7 (by omega) (by omega)) (hdefine 3 (by omega))

theorem calculateLiveIntervals_misses_selfLoop :
    ¬ ∀ v loc, selfLoop.LiveAt v loc →
      ((calculateLiveIntervals x86Target selfLoop).intervals (.vreg v)).covers loc = true := by
  intro h
  have hcovers := h 0 7 selfLoop_liveAt
  revert hcovers
  decide

theorem calculateLiveIntervals_covers_iff_selfLoop :
    selfLoop.WellFormed ∧
      ¬ ∀ v loc, selfLoop.LiveAt v loc → ¬ selfLoop.ForwardLiveAt v loc →
        selfLoop.LoopCarries v loc := by
  refine ⟨selfLoop_wellFormed, ?_⟩
  rw [← calculateLiveIntervals_covers_iff x86Target selfLoop selfLoop_wellFormed]
  intro h
  have hcovers := h 0 7 selfLoop_liveAt
  revert hcovers
  decide

end CinderX.Jit.Lir
