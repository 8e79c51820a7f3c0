import CinderX.ParallelGC.Marking

/-!
# The steps of the marking phase
-/

namespace CinderX.ParallelGC

open Foundation Function

variable {α : Type} {n : Nat}

theorem Barrier.Ok.arrive {b : Barrier} {capacity epoch left : Nat} (h : b.Ok capacity epoch left)
    (hleft : 0 < left) : b.arrive.1.Ok capacity epoch (left - 1) ∧
      (b.arrive.2 = none → b.arrive.1.epoch ≠ epoch) ∧
        ∀ waited, b.arrive.2 = some waited → waited = epoch := by
  obtain ⟨hepoch, hnum, -⟩ : b.epoch = epoch ∧ b.numLeft = left ∧ 0 < left := by
    cases h.lifted with
    | inl hbefore => exact hbefore
    | inr hafter =>
      have := hafter.2.2
      omega
  unfold Barrier.arrive
  split
  next hlast =>
    refine ⟨⟨h.capacity_eq, .inr ⟨by rw [hepoch], h.capacity_eq, by omega⟩⟩, fun _ => ?_, by simp⟩
    simp only [hepoch]
    exact nextEpoch_ne epoch
  next hmore =>
    refine ⟨⟨h.capacity_eq, .inl ⟨hepoch, by simp only [hnum], by omega⟩⟩, by
      simp, fun waited hwaited => ?_⟩
    exact (Option.some.inj hwaited).symm.trans hepoch

/-! ## Weights -/

namespace Worker

variable {worker : Worker α}

def settled (worker : Worker α) : Nat := worker.awake - worker.leaving

theorem settled_add_leaving (worker : Worker α) : worker.settled + worker.leaving =
    worker.awake := by
  cases worker <;> rfl

theorem settled_of_coordinates (h : worker.coordinates = true) : worker.settled = 1 := by
  cases worker <;> first | rfl | simp [coordinates] at h

theorem eq_waitSema_of_awake (h : worker.awake = 0) : worker = .waitSema := by
  cases worker <;> first | rfl | simp [awake] at h

variable {numMarking numMarking' : Int} {finished : Bool}

theorem Ok.of_not_coordinates
    (hnot : worker.coordinates = false) (h : worker.Ok n numMarking finished) :
    worker.Ok n numMarking' finished := by
  cases worker <;> first | exact h | simp [coordinates] at hnot

theorem Ok.mono (hle : numMarking' ≤ numMarking)
    (hlast : worker ≠ .subLast) (h : worker.Ok n numMarking finished) :
    worker.Ok n numMarking' finished := by
  cases worker with
  | sizes seen i workAvailable => exact ⟨h.1, hle.trans h.2⟩
  | addNumMarking wakeUps => exact ⟨h.1, le_trans (Int.add_le_add_right hle _) h.2⟩
  | subLast => exact absurd rfl hlast
  | _ => exact h

/-- In the two states a worker counts for the same, so that a step between them is quiet. -/
structure LooksLike (worker old : Worker α) : Prop where
  coordinates : worker.coordinates = old.coordinates
  awake : worker.awake = old.awake
  leaving : worker.leaving = old.leaving
  announced : worker.announced = old.announced
  owed : worker.owed = old.owed
  unstarted : worker.unstarted = old.unstarted
  unarrived : worker.unarrived = old.unarrived

end Worker

namespace MarkState

variable {s s' : MarkState α n} {w : Fin n} {markEpoch doneEpoch : Nat}

theorem leaving_add_settled (s : MarkState α n) :
    census Worker.settled s.workers + s.leaving = s.awake := by
  rw [leaving, ← census_add, awake]
  exact congrArg (census · s.workers) (funext Worker.settled_add_leaving)

theorem Counts.of_marking {numMarking : Int} {tokens awake leaving announced owed : Nat}
    (h : numMarking = awake + tokens + announced ∧ leaving < numMarking ∧ numMarking ≤ n) :
    Counts numMarking tokens n awake leaving announced owed false := ⟨fun _ => h, by simp⟩

namespace Inv

variable (h : s.Inv markEpoch doneEpoch)

include h

variable {worker : Worker α}

theorem worker_of (hworker : s.workers w = worker) :
    worker.Ok n s.numMarking s.finished := hworker ▸ h.worker w

theorem coordinator_of (hworker : s.workers w = worker) (hcoordinates : worker.coordinates = true) :
    s.coordinator = some w :=
  (h.coordinator w).mp (hworker ▸ hcoordinates)

theorem not_coordinates (hworker : s.workers w = worker)
    (hcoordinates : worker.coordinates = true) {other : Fin n} (hne : other ≠ w) :
    (s.workers other).coordinates = false := by
  cases hother : (s.workers other).coordinates with
  | false => rfl
  | true =>
    have hthis := h.coordinator_of hworker hcoordinates
    have hthat := (h.coordinator other).mp hother
    exact absurd (Option.some.inj (hthat.symm.trans hthis)) hne

theorem markBarrier_update (hunstarted : worker.unstarted = (s.workers w).unstarted) :
    s.markBarrier.Ok n markEpoch (census Worker.unstarted (Function.update s.workers w worker)) :=
  census_update_of_eq hunstarted ▸ h.markBarrier

theorem doneBarrier_update (hunarrived : worker.unarrived = (s.workers w).unarrived) :
    s.doneBarrier.Ok (n + 1) doneEpoch
      (census Worker.unarrived (Function.update s.workers w worker) +
        if s.main = .doneBarrier then 1 else 0) :=
  census_update_of_eq hunarrived ▸ h.doneBarrier

variable {numMarking : Int} {tokens wakeUps : Nat} {deques : Fin n → List α} {finished : Bool}
  {old : Worker α}

theorem shift {coordinator : Option (Fin n)}
    (hcoordinator : ∀ v, (Function.update s.workers w worker v).coordinates = true ↔
      coordinator = some v)
    (hempty : ∀ v, (Function.update s.workers w worker v).marks = false → deques v = [])
    (hworker : ∀ v, (Function.update s.workers w worker v).Ok n numMarking finished)
    (hcounts : ∀ awake leaving announced owed,
      awake + (s.workers w).awake = s.awake + worker.awake →
      leaving + (s.workers w).leaving = s.leaving + worker.leaving →
      announced + (s.workers w).announced = s.announced + worker.announced →
      owed + (s.workers w).owed = s.owed + worker.owed →
        Counts numMarking tokens n awake leaving announced owed finished)
    (hunstarted : worker.unstarted = (s.workers w).unstarted)
    (hunarrived : worker.unarrived = (s.workers w).unarrived) :
    ({ s with numMarking, coordinator, tokens, deques, finished }.goto w worker).Inv
      markEpoch doneEpoch where
  coordinator := hcoordinator
  empty := hempty
  worker := hworker
  counts := hcounts _ _ _ _ (census_update ..) (census_update ..) (census_update ..)
    (census_update ..)
  markBarrier := h.markBarrier_update hunstarted
  doneBarrier := h.doneBarrier_update hunarrived
  main := h.main

theorem empty_update (hw : worker.marks = false → s.deques w = []) (v : Fin n)
    (hv : (Function.update s.workers w worker v).marks = false) : s.deques v = [] := by
  by_cases hvw : v = w
  · rw [hvw, update_self] at hv
    exact hvw ▸ hw hv
  · rw [update_of_ne hvw] at hv
    exact h.empty v hv

theorem coordinator_update (hcoordinates : worker.coordinates = (s.workers w).coordinates)
    (v : Fin n) :
    (Function.update s.workers w worker v).coordinates = true ↔ s.coordinator = some v := by
  by_cases hv : v = w
  · rw [hv, update_self, hcoordinates, h.coordinator]
  · rw [update_of_ne hv, h.coordinator]

theorem worker_update (hworker : worker.Ok n s.numMarking s.finished) (v : Fin n) :
    (Function.update s.workers w worker v).Ok n s.numMarking s.finished :=
  (forall_update_iff s.workers fun _ worker => worker.Ok n s.numMarking s.finished).mpr
    ⟨hworker, fun v _ => h.worker v⟩ v

theorem counts_update (hworker : s.workers w = old)
    (hawake : worker.awake = old.awake) (hleaving : worker.leaving = old.leaving)
    (hannounced : worker.announced = old.announced) (howed : worker.owed = old.owed)
    (awake leaving announced owed : Nat) (ha : awake + (s.workers w).awake = s.awake + worker.awake)
    (hl : leaving + (s.workers w).leaving = s.leaving + worker.leaving)
    (han : announced + (s.workers w).announced = s.announced + worker.announced)
    (ho : owed + (s.workers w).owed = s.owed + worker.owed) :
    Counts s.numMarking s.tokens n awake leaving announced owed s.finished := by
  subst hworker
  obtain rfl : awake = s.awake := by omega
  obtain rfl : leaving = s.leaving := by omega
  obtain rfl : announced = s.announced := by omega
  obtain rfl : owed = s.owed := by omega
  exact h.counts

theorem quiet (hworker : s.workers w = old)
    (hlike : worker.LooksLike old) (hok : worker.Ok n s.numMarking s.finished)
    (hempty : ∀ v, (Function.update s.workers w worker v).marks = false → deques v = []) :
    ({ s with deques }.goto w worker).Inv markEpoch doneEpoch := by
  subst hworker
  exact h.shift (h.coordinator_update hlike.coordinates) hempty (h.worker_update hok)
    (h.counts_update rfl hlike.awake hlike.leaving hlike.announced hlike.owed) hlike.unstarted
    hlike.unarrived

theorem marking (hfinished : s.finished = false) :
    s.numMarking = s.awake + s.tokens + s.announced ∧ s.leaving < s.numMarking ∧
      s.numMarking ≤ n := h.counts.marking hfinished

/-! ## Steps that change how many workers are marking -/

theorem count (hworker : s.workers w = old) (hcoordinates : worker.coordinates = old.coordinates)
    (hmarks : old.marks = false) (hunstarted : worker.unstarted = old.unstarted)
    (hunarrived : worker.unarrived = old.unarrived) (hok : worker.Ok n numMarking finished)
    (hothers : ∀ v, v ≠ w → (s.workers v).Ok n numMarking finished)
    (hcounts : ∀ awake leaving announced owed, awake + old.awake = s.awake + worker.awake →
      leaving + old.leaving = s.leaving + worker.leaving →
      announced + old.announced = s.announced + worker.announced →
      owed + old.owed = s.owed + worker.owed →
        Counts numMarking tokens n awake leaving announced owed finished) :
    ({ s with numMarking, tokens, finished }.goto w worker).Inv markEpoch doneEpoch := by
  subst hworker
  exact h.shift (h.coordinator_update hcoordinates) (h.empty_update fun _ => h.empty w hmarks)
    ((forall_update_iff s.workers fun _ worker => worker.Ok n numMarking finished).mpr
      ⟨hok, hothers⟩) hcounts hunstarted hunarrived

theorem takeCoordinator (hworker : s.workers w = .takeCoordinator) (hnone : s.coordinator = none) :
    ({ s with coordinator := some w }.goto w .loadNumMarking).Inv markEpoch doneEpoch := by
  have hfinished : s.finished = false := h.worker_of hworker
  refine h.shift (fun v => ?_) (h.empty_update fun _ => h.empty w (by rw [hworker]; rfl))
    (h.worker_update hfinished) (h.counts_update hworker rfl rfl rfl rfl) (by rw [hworker]; rfl)
      (by rw [hworker]; rfl)
  by_cases hv : v = w
  · rw [hv, update_self]
    simp [Worker.coordinates]
  · rw [update_of_ne hv, h.coordinator, hnone]
    simp [Ne.symm hv]

theorem leave (hworker : s.workers w = .takeCoordinator) (hsome : s.coordinator ≠ none) :
    (s.goto w .subNumMarking).Inv markEpoch doneEpoch := by
  have hfinished : s.finished = false := h.worker_of hworker
  obtain ⟨other, hother⟩ := Option.ne_none_iff_exists'.mp hsome
  have hcoordinates := (h.coordinator other).mpr hother
  have hne : other ≠ w := by
    rintro rfl
    simp [hworker, Worker.coordinates] at hcoordinates
  have hsettled := add_le_census Worker.settled s.workers hne
  rw [Worker.settled_of_coordinates hcoordinates, hworker] at hsettled
  have hsplit := leaving_add_settled s
  refine h.count hworker rfl rfl rfl rfl hfinished (fun v _ => h.worker v)
    fun awake leaving announced owed ha hl han ho => ?_
  obtain ⟨hnum, hleaving, hle⟩ := h.marking hfinished
  simp only [Worker.awake, Worker.leaving, Worker.announced, Worker.settled] at ha hl han hsettled
  rw [hfinished]
  exact .of_marking ⟨by omega, by omega, hle⟩

theorem subNumMarking (hworker : s.workers w = .subNumMarking) :
    ({ s with numMarking := s.numMarking - 1 }.goto w .waitSema).Inv markEpoch doneEpoch := by
  have hfinished : s.finished = false := h.worker_of hworker
  obtain ⟨hnum, hleaving, hle⟩ := h.marking hfinished
  have hthis := le_census Worker.leaving s.workers w
  have hawake := le_census Worker.awake s.workers w
  rw [hworker] at hthis hawake
  simp only [Worker.leaving, Worker.awake] at hthis hawake
  refine h.count hworker rfl rfl rfl rfl trivial (fun v hv => ?_)
    fun awake leaving announced owed ha hl han ho => ?_
  · refine (h.worker v).mono (by omega) ?_
    -- a worker that has seen that it is the last one is the only one awake
    intro hlast
    have hone : s.numMarking = 1 := (h.worker_of hlast).2
    unfold MarkState.leaving at hleaving
    omega
  · simp only [Worker.awake, Worker.leaving, Worker.announced] at ha hl han
    unfold MarkState.leaving MarkState.awake at *
    rw [hfinished]
    exact .of_marking ⟨by omega, by omega, by omega⟩

theorem waitSema_of_last (hworker : s.workers w = .subLast) {v : Fin n} (hv : v ≠ w) :
    s.workers v = .waitSema := by
  obtain ⟨hfinished, hone⟩ := h.worker_of hworker
  obtain ⟨hnum, -, -⟩ := h.marking hfinished
  have hpair := add_le_census Worker.awake s.workers hv
  rw [hworker] at hpair
  unfold MarkState.awake at hnum
  change 1 + (s.workers v).awake ≤ _ at hpair
  exact Worker.eq_waitSema_of_awake (by omega)

theorem subLast (hworker : s.workers w = .subLast) :
    ({ s with numMarking := s.numMarking - 1, finished := true }.goto w (.postLast (n - 1))).Inv
      markEpoch doneEpoch := by
  obtain ⟨hfinished, hone⟩ := h.worker_of hworker
  obtain ⟨hnum, hleaving, hle⟩ := h.marking hfinished
  have howed : s.owed = 0 := by
    refine census_eq_zero.mpr fun v => ?_
    by_cases hv : v = w
    · rw [hv, hworker]
      rfl
    · rw [h.waitSema_of_last hworker hv]
      rfl
  have hawake := le_census Worker.awake s.workers w
  rw [hworker] at hawake
  simp only [Worker.awake] at hawake
  refine h.count hworker rfl rfl rfl rfl rfl (fun v hv => ?_)
    fun awake leaving announced owed ha hl han ho => ?_
  · rw [h.waitSema_of_last hworker hv]
    trivial
  · simp only [Worker.awake, Worker.owed] at ha ho
    unfold MarkState.awake at *
    have hpos := w.pos
    refine ⟨by simp, fun _ => ⟨by omega, by omega⟩⟩

theorem postLast (hworker : s.workers w = .postLast tokens) :
    ({ s with tokens := s.tokens + tokens }.goto w .dropCoordinator).Inv markEpoch doneEpoch := by
  have hfinished : s.finished = true := h.worker_of hworker
  refine h.count hworker rfl rfl rfl rfl trivial (fun v _ => h.worker v)
    fun awake leaving announced owed ha hl han ho => ?_
  obtain ⟨hzero, hsum⟩ := h.counts.finished hfinished
  simp only [Worker.awake, Worker.owed] at ha ho
  exact ⟨by simp [hfinished], fun _ => ⟨hzero, by omega⟩⟩

theorem addNumMarking (hworker : s.workers w = .addNumMarking wakeUps) :
    ({ s with numMarking := s.numMarking + wakeUps }.goto w (.postSema wakeUps)).Inv
      markEpoch doneEpoch := by
  obtain ⟨hfinished, hroom⟩ := h.worker_of hworker
  obtain ⟨hnum, hleaving, -⟩ := h.marking hfinished
  refine h.count hworker rfl rfl rfl rfl hfinished (fun v hv => ?_)
    fun awake leaving announced owed ha hl han ho => ?_
  · exact (h.worker v).of_not_coordinates (h.not_coordinates hworker rfl hv)
  · simp only [Worker.awake, Worker.leaving, Worker.announced] at ha hl han
    rw [hfinished]
    exact .of_marking ⟨by omega, by omega, hroom⟩

theorem postSema (hworker : s.workers w = .postSema wakeUps) :
    ({ s with tokens := s.tokens + wakeUps }.goto w .dropCoordinator).Inv markEpoch doneEpoch := by
  have hfinished : s.finished = false := h.worker_of hworker
  obtain ⟨hnum, hleaving, hle⟩ := h.marking hfinished
  refine h.count hworker rfl rfl rfl rfl trivial (fun v _ => h.worker v)
    fun awake leaving announced owed ha hl han ho => ?_
  simp only [Worker.awake, Worker.leaving, Worker.announced] at ha hl han
  rw [hfinished]
  exact .of_marking ⟨by omega, by omega, hle⟩

theorem waitSema (hworker : s.workers w = .waitSema) (htokens : s.tokens ≠ 0) :
    ({ s with tokens := s.tokens - 1 }.goto w .loopCheck).Inv markEpoch doneEpoch := by
  refine h.count hworker rfl rfl rfl rfl trivial (fun v _ => h.worker v)
    fun awake leaving announced owed ha hl han ho => ?_
  simp only [Worker.awake, Worker.leaving, Worker.announced, Worker.owed] at ha hl han ho
  refine ⟨fun hfinished => ?_, fun hfinished => ?_⟩
  · obtain ⟨hnum, hleaving, hle⟩ := h.marking hfinished
    exact ⟨by omega, by omega, hle⟩
  · obtain ⟨hzero, hsum⟩ := h.counts.finished hfinished
    exact ⟨hzero, by omega⟩

theorem dropCoordinator (hworker : s.workers w = .dropCoordinator) :
    ({ s with coordinator := none }.goto w .loopCheck).Inv markEpoch doneEpoch := by
  refine h.shift (fun v => ?_) (h.empty_update fun _ => h.empty w (by rw [hworker]; rfl))
    (h.worker_update trivial) (h.counts_update hworker rfl rfl rfl rfl) (by rw [hworker]; rfl)
      (by rw [hworker]; rfl)
  by_cases hv : v = w
  · rw [hv, update_self]
    simp [Worker.coordinates]
  · rw [update_of_ne hv, h.not_coordinates hworker rfl hv]
    simp

variable {choice : Nat}

theorem arriveMark (hworker : s.workers w = .markBarrier)
    (hstep : s.workerStep w choice = some s') : s'.Inv markEpoch doneEpoch := by
  have hfinished : s.finished = false := h.worker_of hworker
  have hthis := le_census Worker.unstarted s.workers w
  rw [hworker] at hthis
  obtain ⟨hok, -, -⟩ := h.markBarrier.arrive (lt_of_lt_of_le Nat.one_pos hthis)
  -- the worker goes on, or waits: in both cases it has started
  have hgoto : ∀ worker : Worker α, worker.coordinates = false →
      (worker.marks = false → s.deques w = []) → worker.Ok n s.numMarking s.finished →
      worker.awake = 1 → worker.leaving = 0 → worker.announced = 0 → worker.owed = 0 →
      worker.unstarted = 0 → worker.unarrived = 1 →
        ({ s with markBarrier := s.markBarrier.arrive.1 }.goto w worker).Inv markEpoch
          doneEpoch := by
    intro worker hcoordinates hempty hok' ha hl han ho hus hua
    have hcensus := census_update Worker.unstarted s.workers w worker
    rw [hworker, hus] at hcensus
    refine ⟨h.coordinator_update (by rw [hworker, hcoordinates]; rfl), h.empty_update hempty,
      h.worker_update hok', h.counts_update hworker ha hl han ho _ _ _ _ (census_update ..)
        (census_update ..) (census_update ..) (census_update ..), ?_,
      h.doneBarrier_update (by rw [hworker, hua]; rfl), h.main⟩
    change Barrier.Ok _ _ _ (census Worker.unstarted (Function.update s.workers w worker))
    rw [Nat.eq_sub_of_add_eq hcensus]
    exact hok
  simp only [workerStep, hworker] at hstep
  split at hstep
  next markBarrier heq =>
    cases hstep
    have hbarrier : s.markBarrier.arrive.1 = markBarrier := by rw [heq]
    exact hbarrier ▸ hgoto .markSlice rfl (by simp [Worker.marks]) hfinished rfl rfl rfl rfl rfl rfl
  next markBarrier epoch heq =>
    cases hstep
    have hbarrier : s.markBarrier.arrive.1 = markBarrier := by rw [heq]
    exact hbarrier ▸ hgoto (.markWait epoch) rfl
      (fun _ => h.empty w (by rw [hworker]; rfl)) hfinished
      rfl rfl rfl rfl rfl rfl

theorem not_returned (hleft : 0 < s.unarrived) : s.main ≠ .returned := by
  intro hreturned
  have hepoch := h.main.2 hreturned
  cases h.doneBarrier.lifted with
  | inl hbefore => exact hepoch hbefore.1
  | inr hafter =>
    have := hafter.2.2
    omega

theorem arriveDone (hworker : s.workers w = .doneBarrier)
    (hstep : s.workerStep w choice = some s') : s'.Inv markEpoch doneEpoch := by
  have hfinished : s.finished = true := h.worker_of hworker
  have hthis := le_census Worker.unarrived s.workers w
  rw [hworker] at hthis
  have hleft : 0 < s.unarrived :=
    Nat.lt_of_lt_of_le Nat.one_pos (hthis.trans (Nat.le_add_right _ _))
  obtain ⟨hok, -, -⟩ := h.doneBarrier.arrive hleft
  have hgoto : ∀ worker : Worker α, worker.coordinates = false →
      worker.Ok n s.numMarking s.finished → worker.awake = 1 → worker.leaving = 0 →
      worker.announced = 0 → worker.owed = 0 → worker.unstarted = 0 → worker.unarrived = 0 →
        ({ s with doneBarrier := s.doneBarrier.arrive.1 }.goto w worker).Inv markEpoch
          doneEpoch := by
    intro worker hcoordinates hok' ha hl han ho hus hua
    have hcensus := census_update Worker.unarrived s.workers w worker
    rw [hworker, hua] at hcensus
    refine ⟨h.coordinator_update (by rw [hworker, hcoordinates]; rfl),
      h.empty_update fun _ => h.empty w (by rw [hworker]; rfl), h.worker_update hok',
      h.counts_update hworker ha hl han ho _ _ _ _ (census_update ..) (census_update ..)
        (census_update ..) (census_update ..), h.markBarrier_update (by rw [hworker, hus]; rfl), ?_,
      h.main.1, fun hreturned => absurd hreturned (h.not_returned hleft)⟩
    change _ + 1 = census Worker.unarrived s.workers at hcensus
    change 1 ≤ _ at hthis
    change Barrier.Ok _ _ _ (census Worker.unarrived (Function.update s.workers w worker) +
      if s.main = .doneBarrier then 1 else 0)
    rw [Nat.eq_sub_of_add_eq hcensus, ← Nat.sub_add_comm hthis]
    exact hok
  simp only [workerStep, hworker] at hstep
  split at hstep
  next doneBarrier heq =>
    cases hstep
    have hbarrier : s.doneBarrier.arrive.1 = doneBarrier := by rw [heq]
    exact hbarrier ▸ hgoto .exited rfl hfinished rfl rfl rfl rfl rfl rfl
  next doneBarrier epoch heq =>
    cases hstep
    have hbarrier : s.doneBarrier.arrive.1 = doneBarrier := by rw [heq]
    exact hbarrier ▸ hgoto (.doneWait epoch) rfl hfinished rfl rfl rfl rfl rfl rfl

theorem mainStep (hstep : s.mainStep = some s') : s'.Inv markEpoch doneEpoch := by
  cases hmain : s.main with
  | doneBarrier =>
    have hleft : 0 < s.unarrived := by
      unfold MarkState.unarrived
      rw [if_pos hmain]
      exact Nat.succ_pos _
    obtain ⟨hok, hlifted, hwaited⟩ := h.doneBarrier.arrive hleft
    have hgoto : ∀ main : Main, main ≠ .doneBarrier →
        (∀ epoch, main = .doneWait epoch → epoch = doneEpoch) →
        (main = .returned → s.doneBarrier.arrive.1.epoch ≠ doneEpoch) →
          ({ s with doneBarrier := s.doneBarrier.arrive.1, main } : MarkState α n).Inv
            markEpoch doneEpoch := by
      intro main hne hwait hreturned
      refine ⟨h.coordinator, h.empty, h.worker, h.counts, h.markBarrier, ?_, hwait, hreturned⟩
      unfold MarkState.unarrived at hok ⊢
      simpa [hmain, hne] using hok
    simp only [MarkState.mainStep, hmain] at hstep
    split at hstep
    next doneBarrier heq =>
      cases hstep
      have hbarrier : s.doneBarrier.arrive.1 = doneBarrier := by rw [heq]
      have hnone : s.doneBarrier.arrive.2 = none := by rw [heq]
      exact hbarrier ▸ hgoto .returned (by simp) (by simp) fun _ => hlifted hnone
    next doneBarrier epoch heq =>
      cases hstep
      have hbarrier : s.doneBarrier.arrive.1 = doneBarrier := by rw [heq]
      have hepoch : epoch = doneEpoch := hwaited epoch (by rw [heq])
      refine hbarrier ▸ hgoto (.doneWait epoch) (by simp) (fun other hother => ?_) (by simp)
      exact (Main.doneWait.inj hother).symm.trans hepoch
  | doneWait epoch =>
    simp only [MarkState.mainStep, hmain] at hstep
    split at hstep
    next => simp at hstep
    next hne =>
      cases hstep
      have hepoch := h.main.1 epoch hmain
      refine ⟨h.coordinator, h.empty, h.worker, h.counts, h.markBarrier, ?_, by simp, fun _ => ?_⟩
      · have hdone := h.doneBarrier
        unfold MarkState.unarrived at hdone ⊢
        simpa [hmain] using hdone
      · exact hepoch ▸ hne
  | returned => simp [MarkState.mainStep, hmain] at hstep

theorem take (hworker : s.workers w = .take) (hstep : s.workerStep w choice = some s') :
    s'.Inv markEpoch doneEpoch := by
  have hfinished : s.finished = false := h.worker_of hworker
  simp only [workerStep, hworker] at hstep
  split at hstep
  next obj hlast =>
    cases hstep
    refine h.quiet hworker ⟨rfl, rfl, rfl, rfl, rfl, rfl, rfl⟩ hfinished fun v hv => ?_
    have hvw : v ≠ w := by
      rintro rfl
      simp [Worker.marks] at hv
    rw [update_of_ne hvw] at hv ⊢
    exact h.empty v hv
  next hnone =>
    cases hstep
    exact h.quiet hworker ⟨rfl, rfl, rfl, rfl, rfl, rfl, rfl⟩ hfinished
      (h.empty_update fun _ => List.getLast?_eq_none_iff.mp hnone)

theorem maybeSteal {start i : Nat} (hworker : s.workers w = .steal start i) :
    (s.maybeSteal w start i).Inv markEpoch doneEpoch := by
  have hfinished : s.finished = false := h.worker_of hworker
  have hempty : s.deques w = [] := h.empty w (by rw [hworker]; rfl)
  unfold MarkState.maybeSteal
  split
  next =>
    simp only
    split
    next =>
      exact h.quiet hworker ⟨rfl, rfl, rfl, rfl, rfl, rfl, rfl⟩ hfinished
        (h.empty_update fun _ => hempty)
    next hvictim =>
      split
      next =>
        exact h.quiet hworker ⟨rfl, rfl, rfl, rfl, rfl, rfl, rfl⟩ hfinished
          (h.empty_update fun _ => hempty)
      next obj rest hobjs =>
        refine h.quiet hworker ⟨rfl, rfl, rfl, rfl, rfl, rfl, rfl⟩ hfinished fun v hv => ?_
        have hvw : v ≠ w := by
          rintro rfl
          simp [Worker.marks] at hv
        rw [update_of_ne hvw] at hv
        have hnone := h.empty v hv
        have hv' : v ≠ ⟨(start + i) % n, Nat.mod_lt _ w.pos⟩ := by
          rintro rfl
          simp [hobjs] at hnone
        rw [update_of_ne hv']
        exact hnone
  next =>
    exact h.quiet hworker ⟨rfl, rfl, rfl, rfl, rfl, rfl, rfl⟩ hfinished
      (h.empty_update fun _ => hempty)

theorem coordinate {seen : Int} {i workAvailable size : Nat}
    (hworker : s.workers w = .sizes seen i workAvailable) :
    (s.coordinate w seen i workAvailable size).Inv markEpoch doneEpoch := by
  obtain ⟨hfinished, hseen⟩ := h.worker_of hworker
  have hempty : s.deques w = [] := h.empty w (by rw [hworker]; rfl)
  unfold MarkState.coordinate
  split
  next =>
    exact h.quiet hworker ⟨rfl, rfl, rfl, rfl, rfl, rfl, rfl⟩ ⟨hfinished, hseen⟩
      (h.empty_update fun _ => hempty)
  next =>
    split
    next =>
      exact h.quiet hworker ⟨rfl, rfl, rfl, rfl, rfl, rfl, rfl⟩ hfinished
        (h.empty_update fun _ => hempty)
    next =>
      simp only
      split
      next hwake =>
        refine h.quiet hworker ⟨rfl, rfl, rfl, rfl, rfl, rfl, rfl⟩ ⟨hfinished, ?_⟩
          (h.empty_update fun _ => hempty)
        have hmin := Nat.min_le_right workAvailable ((n : Int) - seen).toNat
        omega
      next =>
        exact h.quiet hworker ⟨rfl, rfl, rfl, rfl, rfl, rfl, rfl⟩ trivial
          (h.empty_update fun _ => hempty)

theorem push {obj : α} (hstep : s.push w obj = some s') : s'.Inv markEpoch doneEpoch := by
  have hgo : (s.workers w).marks = true →
      (s.setDeque w (s.deques w ++ [obj])).Inv markEpoch doneEpoch := by
    intro hmarks
    refine ⟨h.coordinator, fun v hv => ?_, h.worker, h.counts, h.markBarrier, h.doneBarrier, h.main⟩
    have hvw : v ≠ w := by
      rintro rfl
      exact absurd (hmarks.symm.trans hv) (by decide)
    change Function.update s.deques w (s.deques w ++ [obj]) v = []
    rw [update_of_ne hvw]
    exact h.empty v hv
  unfold MarkState.push at hstep
  split at hstep
  next hworker =>
    cases hstep
    exact hgo (by rw [hworker]; rfl)
  next hworker =>
    cases hstep
    exact hgo (by rw [hworker]; rfl)
  next => simp at hstep

end Inv

end MarkState

end CinderX.ParallelGC
