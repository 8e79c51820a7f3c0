import CinderX.ParallelGC.MarkingSteps

/-!
# The marking phase ends safely

No worker leaves it while there is work, not all workers sleep before it is over,
and nothing of it is left for the next collection but the epochs of the barriers.
-/

namespace CinderX.ParallelGC

open Foundation

variable {α : Type} {n : Nat}

namespace MarkState

variable {s s' : MarkState α n} {w : Fin n} {markEpoch doneEpoch : Nat}

namespace Inv

theorem workerStep {choice : Nat} (h : s.Inv markEpoch doneEpoch)
    (hstep : s.workerStep w choice = some s') : s'.Inv markEpoch doneEpoch := by
  cases hworker : s.workers w with
  | markBarrier => exact h.arriveMark hworker hstep
  | markWait epoch =>
    simp only [MarkState.workerStep, hworker] at hstep
    split at hstep
    next => simp at hstep
    next =>
      have hfinished : s.finished = false := h.worker_of hworker
      cases hstep
      exact h.quiet hworker ⟨rfl, rfl, rfl, rfl, rfl, rfl, rfl⟩ hfinished
        (h.empty_update (by simp [Worker.marks]))
  | markSlice =>
    have hfinished : s.finished = false := h.worker_of hworker
    obtain rfl : _ = s' := by simpa [MarkState.workerStep, hworker] using hstep
    exact h.quiet hworker ⟨rfl, rfl, rfl, rfl, rfl, rfl, rfl⟩ hfinished
      (h.empty_update (by simp [Worker.marks]))
  | take => exact h.take hworker hstep
  | traverse obj =>
    have hfinished : s.finished = false := h.worker_of hworker
    obtain rfl : _ = s' := by simpa [MarkState.workerStep, hworker] using hstep
    exact h.quiet hworker ⟨rfl, rfl, rfl, rfl, rfl, rfl, rfl⟩ hfinished
      (h.empty_update (by simp [Worker.marks]))
  | steal start i =>
    obtain rfl : _ = s' := by simpa [MarkState.workerStep, hworker] using hstep
    exact h.maybeSteal hworker
  | takeCoordinator =>
    simp only [MarkState.workerStep, hworker] at hstep
    split at hstep
    next hnone =>
      cases hstep
      exact h.takeCoordinator hworker hnone
    next hsome =>
      cases hstep
      exact h.leave hworker hsome
  | loadNumMarking =>
    have hfinished : s.finished = false := h.worker_of hworker
    have hempty : s.deques w = [] := h.empty w (by rw [hworker]; rfl)
    simp only [MarkState.workerStep, hworker] at hstep
    split at hstep
    next hone =>
      cases hstep
      exact h.quiet hworker ⟨rfl, rfl, rfl, rfl, rfl, rfl, rfl⟩
        ⟨hfinished, hone⟩ (h.empty_update fun _ => hempty)
    next =>
      cases hstep
      exact h.quiet hworker ⟨rfl, rfl, rfl, rfl, rfl, rfl, rfl⟩
        ⟨hfinished, le_refl _⟩ (h.empty_update fun _ => hempty)
  | sizes seen i workAvailable =>
    obtain rfl : _ = s' := by simpa [MarkState.workerStep, hworker] using hstep
    exact h.coordinate hworker
  | subLast =>
    obtain rfl : _ = s' := by simpa [MarkState.workerStep, hworker] using hstep
    exact h.subLast hworker
  | postLast tokens =>
    obtain rfl : _ = s' := by simpa [MarkState.workerStep, hworker] using hstep
    exact h.postLast hworker
  | addNumMarking wakeUps =>
    obtain rfl : _ = s' := by simpa [MarkState.workerStep, hworker] using hstep
    exact h.addNumMarking hworker
  | postSema wakeUps =>
    obtain rfl : _ = s' := by simpa [MarkState.workerStep, hworker] using hstep
    exact h.postSema hworker
  | dropCoordinator =>
    obtain rfl : _ = s' := by simpa [MarkState.workerStep, hworker] using hstep
    exact h.dropCoordinator hworker
  | subNumMarking =>
    obtain rfl : _ = s' := by simpa [MarkState.workerStep, hworker] using hstep
    exact h.subNumMarking hworker
  | waitSema =>
    simp only [MarkState.workerStep, hworker] at hstep
    split at hstep
    next => simp at hstep
    next htokens =>
      cases hstep
      exact h.waitSema hworker htokens
  | loopCheck =>
    have hempty : s.deques w = [] := h.empty w (by rw [hworker]; rfl)
    simp only [MarkState.workerStep, hworker] at hstep
    cases hfinished : s.finished with
    | false =>
      have hne : s.numMarking ≠ 0 := by
        obtain ⟨-, hleaving, -⟩ := h.marking hfinished
        omega
      rw [if_neg hne] at hstep
      cases hstep
      exact h.quiet hworker ⟨rfl, rfl, rfl, rfl, rfl, rfl, rfl⟩ hfinished
        (h.empty_update (by simp [Worker.marks]))
    | true =>
      rw [if_pos (h.counts.finished hfinished).1] at hstep
      cases hstep
      exact h.quiet hworker ⟨rfl, rfl, rfl, rfl, rfl, rfl, rfl⟩ hfinished
        (h.empty_update fun _ => hempty)
  | doneBarrier => exact h.arriveDone hworker hstep
  | doneWait epoch =>
    simp only [MarkState.workerStep, hworker] at hstep
    split at hstep
    next => simp at hstep
    next =>
      have hfinished : s.finished = true := h.worker_of hworker
      cases hstep
      exact h.quiet hworker ⟨rfl, rfl, rfl, rfl, rfl, rfl, rfl⟩ hfinished
        (h.empty_update fun _ => h.empty w (by rw [hworker]; rfl))
  | exited => simp [MarkState.workerStep, hworker] at hstep

theorem step {move : MarkMove α n} (h : s.Inv markEpoch doneEpoch) (hstep : s.step move = some s') :
    s'.Inv markEpoch doneEpoch := by
  cases move with
  | work w choice => exact h.workerStep hstep
  | push w obj => exact h.push hstep
  | main => exact h.mainStep hstep

theorem of_reachable (hn : 0 < n)
    (h : Reachable MarkState.step (MarkState.init markEpoch doneEpoch) s) :
    s.Inv markEpoch doneEpoch := by
  apply h.invariant
  · exact inv_init hn markEpoch doneEpoch
  · exact fun _ _ _ hinv hstep => hinv.step hstep

end Inv

/-! ## The theorem -/

structure Safe (s : MarkState α n) (markEpoch doneEpoch : Nat) : Prop where
  /-- A worker leaves when there is no work: nothing is in a deque, and nobody has an object. -/
  leaves : ∀ w, (s.workers w).hasLeft = true →
    (∀ v, s.deques v = []) ∧ ∀ v, (s.workers v).marks = false
  /-- Wake-ups count before the workers wake up. -/
  counts : s.finished = false → s.numMarking = s.awake + s.tokens + s.announced
  counts_finished : s.finished = true → s.numMarking = 0
  wakes : s.finished = false → ¬((∀ w, s.workers w = .waitSema) ∧ s.tokens = 0)
  /-- The epochs go on. -/
  ends : s.main = .returned → s.tokens = 0 ∧ s.coordinator = none ∧ s.numMarking = 0 ∧
    s.markBarrier = { Barrier.init n with epoch := nextEpoch markEpoch } ∧
      s.doneBarrier = { Barrier.init (n + 1) with epoch := nextEpoch doneEpoch }

namespace Inv

variable (h : s.Inv markEpoch doneEpoch)

include h

theorem marks_of_finished (hfinished : s.finished = true) (v : Fin n) :
    (s.workers v).marks = false := by
  have hok := h.worker v
  rw [hfinished] at hok
  cases hv : s.workers v <;> rw [hv] at hok <;> first | rfl | simp [Worker.Ok] at hok

theorem finished_of_hasLeft (hleft : (s.workers w).hasLeft = true) : s.finished = true := by
  have hok := h.worker w
  cases hw : s.workers w <;> rw [hw] at hok hleft <;>
    first | exact hok | simp [Worker.hasLeft] at hleft

theorem hasLeft_of_returned (hreturned : s.main = .returned) :
    s.doneBarrier.epoch = nextEpoch doneEpoch ∧ s.doneBarrier.numLeft = n + 1 ∧
      ∀ w, (s.workers w).unarrived = 0 := by
  cases h.doneBarrier.lifted with
  | inl hbefore => exact absurd hbefore.1 (h.main.2 hreturned)
  | inr hafter =>
    obtain ⟨hepoch, hnum, hleft⟩ := hafter
    refine ⟨hepoch, hnum, census_eq_zero.mp ?_⟩
    unfold MarkState.unarrived at hleft
    omega

theorem ends (hn : 0 < n) (hreturned : s.main = .returned) :
    s.tokens = 0 ∧ s.coordinator = none ∧ s.numMarking = 0 ∧
      s.markBarrier = { Barrier.init n with epoch := nextEpoch markEpoch } ∧
        s.doneBarrier = { Barrier.init (n + 1) with epoch := nextEpoch doneEpoch } := by
  obtain ⟨hepoch, hnum, harrived⟩ := h.hasLeft_of_returned hreturned
  -- all workers are behind the loop: awake, started, and without a role
  have hplace : ∀ w, (s.workers w).hasLeft = true ∧ (s.workers w).awake = 1 ∧
      (s.workers w).unstarted = 0 ∧ (s.workers w).coordinates = false := by
    intro w
    have hw := harrived w
    cases hworker : s.workers w <;> rw [hworker] at hw <;>
      first | exact ⟨rfl, rfl, rfl, rfl⟩ | simp [Worker.unarrived] at hw
  have hfinished := h.finished_of_hasLeft (hplace ⟨0, hn⟩).1
  obtain ⟨hzero, hsum⟩ := h.counts.finished hfinished
  have hawake : s.awake = n := by
    unfold MarkState.awake
    rw [census_const fun w => (hplace w).2.1, Fintype.card_fin, Nat.mul_one]
  have hunstarted : s.unstarted = 0 := census_eq_zero.mpr fun w => (hplace w).2.2.1
  have hmark : s.markBarrier.epoch = nextEpoch markEpoch ∧ s.markBarrier.numLeft = n := by
    cases h.markBarrier.lifted with
    | inl hbefore =>
      have := hbefore.2.2
      omega
    | inr hafter => exact ⟨hafter.1, hafter.2.1⟩
  refine ⟨by omega, ?_, hzero, ?_, ?_⟩
  · cases hcoordinator : s.coordinator with
    | none => rfl
    | some w =>
      have hcoordinates := (h.coordinator w).mpr hcoordinator
      simp [(hplace w).2.2.2] at hcoordinates
  · rw [← hmark.1]
    exact congrArg₂ (Barrier.mk · · s.markBarrier.epoch) hmark.2 h.markBarrier.capacity_eq
  · rw [← hepoch]
    exact congrArg₂ (Barrier.mk · · s.doneBarrier.epoch) hnum h.doneBarrier.capacity_eq

theorem safe (hn : 0 < n) : s.Safe markEpoch doneEpoch where
  leaves w hleft := by
    have hmarks := h.marks_of_finished (h.finished_of_hasLeft hleft)
    exact ⟨fun v => h.empty v (hmarks v), hmarks⟩
  counts hfinished := (h.marking hfinished).1
  counts_finished hfinished := (h.counts.finished hfinished).1
  wakes hfinished := by
    rintro ⟨hasleep, htokens⟩
    obtain ⟨hnum, hleaving, -⟩ := h.marking hfinished
    have hawake : s.awake = 0 := census_eq_zero.mpr fun w => by rw [hasleep w]; rfl
    have hannounced : s.announced = 0 := census_eq_zero.mpr fun w => by rw [hasleep w]; rfl
    omega
  ends := h.ends hn

end Inv

end MarkState

/-- For every number of workers, which is never 0, and every interleaving of their steps. -/
theorem marking_terminates_safely {s : MarkState α n} {markEpoch doneEpoch : Nat} (hn : 0 < n)
    (h : Reachable MarkState.step (MarkState.init markEpoch doneEpoch) s) :
    s.Safe markEpoch doneEpoch :=
  (MarkState.Inv.of_reachable hn h).safe hn

/-- The second worker steals one of two objects; later it goes to sleep, and the first one, which is
then the last, wakes it up. -/
def finishedRun : List (MarkMove Nat 2) :=
  [MarkMove.work 0 0, .work 1 0, .work 0 0, .push 0 7, .push 0 8] ++
    List.replicate 4 (MarkMove.work 1 0) ++ List.replicate 4 (MarkMove.work 0 0) ++
      [MarkMove.work 1 0, .work 1 0] ++ List.replicate 4 (MarkMove.work 0 0) ++
        List.replicate 4 (MarkMove.work 1 0) ++ List.replicate 6 (MarkMove.work 0 0) ++
          List.replicate 3 (MarkMove.work 1 0) ++ [MarkMove.main, .work 0 0, .work 1 0]

theorem marking_finishedRun : 0 < 2 ∧ ∃ s : MarkState Nat 2,
    runMoves MarkState.step (MarkState.init 5 9) finishedRun = some s ∧ s.main = .returned ∧
      s.Safe 5 9 := by
  refine ⟨Nat.two_pos, ?_⟩
  have hrun : (runMoves MarkState.step (MarkState.init 5 9) finishedRun).map MarkState.main =
      some .returned := by decide
  obtain ⟨s, hs, hreturned⟩ := Option.map_eq_some_iff.mp hrun
  exact ⟨s, hs, hreturned, marking_terminates_safely Nat.two_pos (Reachable.init.run hs)⟩

/-- The first worker, as the coordinator, has seen that the third one has something to steal.  The
second one sleeps. -/
def announcedRun : List (MarkMove Nat 3) :=
  [MarkMove.work 0 0, .work 1 0, .work 2 0] ++ List.replicate 7 (MarkMove.work 0 0) ++
    List.replicate 7 (MarkMove.work 1 0) ++
      [MarkMove.work 0 0, .work 1 0, .work 1 0, .push 2 7, .work 0 0, .work 0 0, .work 0 0,
        .work 0 1,
        .work 0 0, .work 0 0]

/-- `num_workers_marking` counts a worker that sleeps; and the epoch of a barrier is not what it was
at the beginning. -/
theorem marking_announcedRun :
    (∃ s : MarkState Nat 3, runMoves MarkState.step (MarkState.init 0 0) announcedRun = some s ∧
      s.numMarking = 3 ∧ s.awake = 2) ∧
    (∃ s : MarkState Nat 2, runMoves MarkState.step (MarkState.init 0 0) finishedRun = some s ∧
      s.main = .returned ∧ s.doneBarrier ≠ (MarkState.init 0 0 : MarkState Nat 2).doneBarrier) := by
  have hannounced : (runMoves MarkState.step (MarkState.init 0 0) announcedRun).map
      (fun s => (s.numMarking, s.awake)) = some (3, 2) := by decide
  have hfinished : (runMoves MarkState.step (MarkState.init 0 0) finishedRun).map
      (fun s => (s.main, s.doneBarrier)) = some (.returned, ⟨3, 3, 1⟩) := by decide
  constructor
  · obtain ⟨s, hs, heq⟩ := Option.map_eq_some_iff.mp hannounced
    exact ⟨s, hs, Prod.mk.inj heq⟩
  · obtain ⟨s, hs, heq⟩ := Option.map_eq_some_iff.mp hfinished
    obtain ⟨hreturned, hbarrier⟩ := Prod.mk.inj heq
    refine ⟨s, hs, hreturned, ?_⟩
    rw [hbarrier]
    decide

end CinderX.ParallelGC
