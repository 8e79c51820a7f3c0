import CinderX.Jit.Lir.LinearScanValid
import CinderX.Jit.Lir.LiveIntervalsSound

/-!
# Homes of live registers

The live intervals and the linear scan together: where a virtual register is while it is live.
-/

namespace CinderX.Jit.Lir

open List

/-- The location that the scan gives an operand at a place of the code. -/
def Scan.homeAt (s : Scan) (operand : OperandId) (loc : Int) : Option Int :=
  ((range s.count).find? fun i =>
    (s.intervals i).operand = operand && (s.intervals i).covers loc).map fun i =>
      (s.intervals i).allocatedLoc.loc

variable {s : Scan} {operand : OperandId} {loc : Int}

theorem Scan.homeAt_of_mem (h : ∃ i < s.count, (s.intervals i).operand = operand ∧
    (s.intervals i).Mem loc) : ∃ i < s.count, (s.intervals i).operand = operand ∧
      (s.intervals i).Mem loc ∧ s.homeAt operand loc = some (s.intervals i).allocatedLoc.loc := by
  obtain ⟨i, hi, hoperand, hmem⟩ := h
  have hsome : ((range s.count).find? fun i =>
      (s.intervals i).operand = operand && (s.intervals i).covers loc).isSome := by
    rw [find?_isSome]
    exact ⟨i, mem_range.mpr hi, by simp [hoperand, (LiveInterval.covers_iff_mem _ _).mpr hmem]⟩
  obtain ⟨j, hj⟩ := Option.isSome_iff_exists.mp hsome
  have hfound := find?_some hj
  simp only [Bool.and_eq_true, decide_eq_true_eq, LiveInterval.covers_iff_mem] at hfound
  exact ⟨j, mem_range.mp (mem_of_find?_eq_some hj), hfound.1, hfound.2, by rw [homeAt, hj]; rfl⟩

theorem Scan.mem_of_homeAt {home : Int} (h : s.homeAt operand loc = some home) :
    ∃ i < s.count, (s.intervals i).operand = operand ∧ (s.intervals i).Mem loc ∧
      (s.intervals i).allocatedLoc.loc = home := by
  obtain ⟨i, hi, rfl⟩ := Option.map_eq_some_iff.mp h
  have hfound := find?_some hi
  simp only [Bool.and_eq_true, decide_eq_true_eq, LiveInterval.covers_iff_mem] at hfound
  exact ⟨i, mem_range.mp (mem_of_find?_eq_some hi), hfound.1, hfound.2, rfl⟩

/-- A live virtual register has a home of its class, which no other operand has at the same
place, unless it is live around a loop that the intervals miss. -/
theorem live_home_apart (regs : RegisterFile) (target : Target) {f : Function}
    {reservedStackSpace : Nat} {v : VReg} (hf : f.WellFormed)
    (hloops : ∀ v loc, f.LiveAt v loc → ¬ f.ForwardLiveAt v loc → f.LoopCarries v loc)
    (hscan : LinearScanResult regs f (calculateLiveIntervals target f) reservedStackSpace s)
    (hlive : f.LiveAt v loc) :
    ∃ home, s.homeAt (.vreg v) loc = some home ∧ (0 ≤ home ∨ home ≤ -8) ∧
      (0 ≤ home → (regs.vecdRegBase ≤ home ↔ OperandId.isFp regs f (.vreg v) = true)) ∧
      (loc ∈ (calculateLiveIntervals target f).vregPhyUses (.vreg v) → 0 ≤ home) ∧
      ∀ operand ≠ .vreg v, s.homeAt operand loc ≠ some home := by
  obtain ⟨address, operands, henum, hrun, hempty⟩ := hscan
  obtain ⟨pos, hinv⟩ := (initialScan_between regs f (calculateLiveIntervals_ok target f) address
    reservedStackSpace henum).run hrun
  have hhandled : ∀ i < s.count, s.Handled (fun i => i ∈ s.unhandled) i :=
    fun i hi => ⟨hi, by simp [hempty]⟩
  have hcovered : ((calculateLiveIntervals target f).intervals (.vreg v)).Mem loc := by
    have hprocessed := calculateLiveIntervals_processed target hf
    have hdefined := hlive.definedBy hf
    by_cases hforward : f.ForwardLiveAt v loc
    · obtain ⟨start, bb, hbb, hin, -⟩ := hforward.needed
      have hle := Int.le_trans (le_of_mem_layout hbb) hin
      exact hprocessed.covered v loc hle (.inl hforward.needed) hdefined
    · have hloop := Function.loopCarriesFrom_zero_iff.mpr (hloops v loc hlive hforward)
      have hle : 0 ≤ loc := by
        obtain ⟨header, headerBlock, -, hheader, -, -, -, -, -, hin, -⟩ := hloop
        exact Int.le_trans hheader hin
      exact hprocessed.covered v loc hle (.inr hloop) hdefined
  obtain ⟨i, hi, hoperand, hmem, hhome⟩ :=
    Scan.homeAt_of_mem ((hinv.partitions.mem_iff (.vreg v) loc).mp hcovered)
  have hplaced := hhandled i hi
  refine ⟨_, hhome, hinv.placed.allocated i hplaced, fun hreg => ?_, fun huse => ?_, ?_⟩
  · have hclass := hinv.placed.fp i hplaced hreg
    rw [hoperand] at hclass
    rw [← show _ = OperandId.isFp regs f (.vreg v) from hclass]
    exact decide_eq_true_iff.symm
  · by_contra hstack
    exact hinv.placed.stack_use i hplaced (not_le.mp hstack) loc (hoperand ▸ huse) hmem
  · intro operand hne hsame
    obtain ⟨j, hj, hother, hmemj, hloc⟩ := Scan.mem_of_homeAt hsame
    have hneoperand : (s.intervals i).operand ≠ (s.intervals j).operand := by
      rw [hoperand, hother]
      exact Ne.symm hne
    have hapart : s.Apart i j := by
      by_cases hreg : 0 ≤ (s.intervals i).allocatedLoc.loc
      · exact hinv.placed.apart_reg i j hplaced (hhandled j hj) (fun hij => hneoperand (hij ▸ rfl))
          hreg hloc.symm
      · exact hinv.placed.apart_slot i j hplaced (hhandled j hj) hneoperand (not_le.mp hreg)
          hloc.symm
    exact hapart loc hmem hmemj

theorem acrossCall_next_lt {loc' : Int} (h : acrossCall.Next loc loc') : loc < loc' := by
  obtain ⟨start, bb, hbb, ⟨-, -, rfl⟩ | ⟨-, bb', -, hsucc⟩⟩ := h
  · exact Int.lt_succ loc
  · simp only [Function.Placed, acrossCall, layout, mem_singleton, Prod.mk.injEq] at hbb
    rw [hbb.2] at hsucc
    cases hsucc

theorem acrossCall_wellFormed : acrossCall.WellFormed := by
  refine ⟨by decide, ?_⟩
  intro bb hbb v define read hdefine hread
  obtain rfl := mem_singleton.mp hbb
  have hlater : ∀ i j : Fin 5, ∀ v ∈ (acrossCall.blocks[0].instrs.get j).reads,
      (acrossCall.blocks[0].instrs.get i).output = .vreg v → i.val < j.val := by
    decide
  obtain ⟨-, hphi⟩ | ⟨i, instr, ⟨hget, -⟩, houtput, rfl⟩ := hdefine
  · cases hphi
  · obtain ⟨j, other, ⟨hget', -⟩, hmem, hread⟩ := hread
    obtain ⟨hi, rfl⟩ := List.getElem?_eq_some_iff.mp hget
    obtain ⟨hj, rfl⟩ := List.getElem?_eq_some_iff.mp hget'
    have hlt := hlater ⟨i, hi⟩ ⟨j, hj⟩ v hmem houtput
    dsimp only at hlt
    omega

theorem live_home_apart_acrossCall :
    ∃ s, LinearScanResult unknownRegisterFile acrossCall
        (calculateLiveIntervals unknownTarget acrossCall) 0 s ∧
      ∃ home, s.homeAt (.vreg 0) 7 = some home ∧ s.homeAt (.vreg 1) 7 ≠ some home := by
  obtain ⟨s, hs⟩ := Option.isSome_iff_exists.mp acrossCall_drains
  obtain ⟨hrun, hempty⟩ := Scan.drain_run hs
  have hscan : LinearScanResult unknownRegisterFile acrossCall
      (calculateLiveIntervals unknownTarget acrossCall) 0 s :=
    ⟨_, _, acrossCall_enumerates, hrun, hempty⟩
  have hlive : acrossCall.LiveAt 0 7 :=
    .use ⟨0, _, mem_singleton_self _, .inl ⟨7, ⟨3, _, ⟨rfl, rfl⟩, by decide, .inl rfl⟩, rfl⟩⟩
  have hforward : ∀ v loc, acrossCall.LiveAt v loc → acrossCall.ForwardLiveAt v loc := by
    intro v loc hlive
    induction hlive with
    | use huse => exact .use huse
    | step hnext hdefine _ ih => exact .step ⟨hnext, acrossCall_next_lt hnext⟩ hdefine ih
  obtain ⟨home, hhome, -, -, -, hapart⟩ := live_home_apart unknownRegisterFile unknownTarget
    acrossCall_wellFormed (fun v loc hlive hnot => absurd (hforward v loc hlive) hnot) hscan hlive
  exact ⟨s, hscan, home, hhome, hapart (.vreg 1) (by decide)⟩

end CinderX.Jit.Lir
