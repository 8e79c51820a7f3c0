import CinderX.Foundation.Basic

/-!
# Ageing of the back-off score

`advanceRoiAging` counts a deopt and halves the count once for every interval
that has passed.  The machine arithmetic never leaves its range, so that over a
run of calls the count is that of a timeline on which every boundary of an
interval and every deopt is an event of its own.
-/

namespace CinderX.Jit.RoiAging

open List Nat

structure RoiAgingUpdate where
  count : UInt32
  epochMs : UInt64
  countReduced : UInt32
  deriving DecidableEq, Repr

def digits : UInt64 := 32

def maxCount : UInt32 := 4294967295

def age (count : UInt32) (epochMs nowMs : UInt64) (intervalMs : UInt32) : UInt32 × UInt64 :=
  if intervalMs = 0 then (count, epochMs)
  else if count = 0 then (count, nowMs)
  else if nowMs ≥ epochMs then
    let periods := (nowMs - epochMs) / intervalMs.toUInt64
    (if periods ≥ digits then 0 else count >>> periods.toUInt32,
      epochMs + periods * intervalMs.toUInt64)
  else (count, epochMs)

def advanceRoiAging (count : UInt32) (epochMs nowMs : UInt64) (intervalMs : UInt32) :
    RoiAgingUpdate :=
  let aged := age count epochMs nowMs intervalMs
  { count := if aged.1 ≠ maxCount then aged.1 + 1 else aged.1
    epochMs := aged.2
    countReduced := count - aged.1 }

/-- Calls at the given times, each with what the one before has left. -/
def run (intervalMs : UInt32) (state : RoiAgingUpdate) (nows : List UInt64) : RoiAgingUpdate :=
  nows.foldl (fun state now => advanceRoiAging state.count state.epochMs now intervalMs) state

/-! ## Checked arithmetic -/

def checkedWord (width value : Nat) : Option Nat :=
  if value < 2 ^ width then some value else none

def checkedSub (a b : Nat) : Option Nat := if b ≤ a then some (a - b) else none

def checkedShift (value shift : Nat) : Option Nat :=
  if shift < 32 then some (value / 2 ^ shift) else none

def ageChecked (count epochMs nowMs intervalMs : Nat) : Option (Nat × Nat) :=
  if intervalMs = 0 then some (count, epochMs)
  else if count = 0 then some (count, nowMs)
  else if nowMs ≥ epochMs then do
    let gap ← checkedSub nowMs epochMs
    let periods := gap / intervalMs
    let aged ← if periods ≥ 32 then some 0 else checkedShift count periods
    let product ← checkedWord 64 (periods * intervalMs)
    let epochMs ← checkedWord 64 (epochMs + product)
    return (aged, epochMs)
  else some (count, epochMs)

/-- `advanceRoiAging` on numbers; an operation that leaves its range has no result. -/
def advanceChecked (count epochMs nowMs intervalMs : Nat) : Option (Nat × Nat × Nat) := do
  let aged ← ageChecked count epochMs nowMs intervalMs
  let countReduced ← checkedSub count aged.1
  let count ← if aged.1 ≠ 4294967295 then checkedWord 32 (aged.1 + 1) else some aged.1
  return (count, aged.2, countReduced)

section Age

variable (count : UInt32) (epochMs nowMs : UInt64) (intervalMs : UInt32)

variable {epochMs nowMs} in
theorem toNat_periods (hle : epochMs ≤ nowMs) :
    ((nowMs - epochMs) / intervalMs.toUInt64).toNat =
      (nowMs.toNat - epochMs.toNat) / intervalMs.toNat := by
  rw [UInt64.toNat_div, UInt64.toNat_sub_of_le _ _ hle, UInt32.toNat_toUInt64]

theorem mul_periods_le : (nowMs.toNat - epochMs.toNat) / intervalMs.toNat * intervalMs.toNat ≤
    nowMs.toNat - epochMs.toNat :=
  div_mul_le_self _ _

theorem toNat_halved (periods : UInt64) :
    (if periods ≥ digits then 0 else count >>> periods.toUInt32).toNat =
      count.toNat / 2 ^ periods.toNat := by
  split
  next hge =>
    have hdigits : 32 ≤ periods.toNat := UInt64.le_iff_toNat_le.mp hge
    have hsmall : count.toNat < 2 ^ periods.toNat :=
      Nat.lt_of_lt_of_le count.toNat_lt (Nat.pow_le_pow_right (succ_pos 1) hdigits)
    rw [div_eq_of_lt hsmall]
    rfl
  next hlt =>
    have hdigits : periods.toNat < 32 :=
      Nat.lt_of_not_le fun hge => hlt (UInt64.le_iff_toNat_le.mpr hge)
    have hshift : periods.toUInt32.toNat = periods.toNat := by
      rw [UInt64.toNat_toUInt32]
      exact mod_eq_of_lt (by omega)
    rw [UInt32.toNat_shiftRight, hshift, mod_eq_of_lt hdigits, shiftRight_eq_div_pow]

def firstEpoch (count : UInt32) (epochMs nowMs : UInt64) : Nat :=
  if count = 0 then nowMs.toNat else epochMs.toNat

variable {intervalMs} in
theorem toNat_age (hinterval : intervalMs ≠ 0) :
    (age count epochMs nowMs intervalMs).1.toNat = count.toNat /
        2 ^ ((nowMs.toNat - firstEpoch count epochMs nowMs) / intervalMs.toNat) ∧
      (age count epochMs nowMs intervalMs).2.toNat = firstEpoch count epochMs nowMs +
        (nowMs.toNat - firstEpoch count epochMs nowMs) / intervalMs.toNat * intervalMs.toNat := by
  unfold age firstEpoch
  rw [if_neg hinterval]
  by_cases hcount : count = 0
  · simp [hcount]
  · rw [if_neg hcount, if_neg hcount]
    by_cases hle : nowMs ≥ epochMs
    · have hnow := UInt64.le_iff_toNat_le.mp hle
      have hfits := nowMs.toNat_lt
      have hproduct : (nowMs.toNat - epochMs.toNat) / intervalMs.toNat * intervalMs.toNat ≤
          nowMs.toNat - epochMs.toNat := mul_periods_le _ _ _
      rw [if_pos hle]
      refine ⟨by rw [toNat_halved count, toNat_periods intervalMs hle], ?_⟩
      rw [UInt64.toNat_add, UInt64.toNat_mul, toNat_periods intervalMs hle, UInt32.toNat_toUInt64]
      rw [mod_eq_of_lt (a := _ * _) (by omega), mod_eq_of_lt (by omega)]
    · have hnow : nowMs.toNat ≤ epochMs.toNat :=
        Nat.le_of_not_le fun hge => hle (UInt64.le_iff_toNat_le.mpr hge)
      rw [if_neg hle, Nat.sub_eq_zero_of_le hnow]
      simp

theorem age_le : (age count epochMs nowMs intervalMs).1.toNat ≤ count.toNat := by
  by_cases hinterval : intervalMs = 0
  · exact Nat.le_of_eq (by rw [age, if_pos hinterval])
  · rw [(toNat_age count epochMs nowMs hinterval).1]
    exact Nat.div_le_self _ _

theorem toNat_advance :
    (advanceRoiAging count epochMs nowMs intervalMs).count.toNat =
      min ((age count epochMs nowMs intervalMs).1.toNat + 1) 4294967295 := by
  generalize haged : (age count epochMs nowMs intervalMs).1 = aged
  have hfits := aged.toNat_lt
  simp only [advanceRoiAging, haged]
  split
  next hne =>
    have hmax : aged.toNat ≠ 4294967295 := fun heq => hne (UInt32.toNat_inj.mp heq)
    rw [UInt32.toNat_add, UInt32.toNat_one, mod_eq_of_lt (by omega)]
    omega
  next heq =>
    obtain rfl := not_not.mp heq
    rfl

theorem advance_count_ne_zero :
    (advanceRoiAging count epochMs nowMs intervalMs).count ≠ 0 := by
  intro hzero
  have hcount := toNat_advance count epochMs nowMs intervalMs
  rw [hzero, UInt32.toNat_zero] at hcount
  omega

theorem ageChecked_eq : ageChecked count.toNat epochMs.toNat nowMs.toNat intervalMs.toNat =
    some ((age count epochMs nowMs intervalMs).1.toNat,
      (age count epochMs nowMs intervalMs).2.toNat) := by
  by_cases hinterval : intervalMs = 0
  · simp [ageChecked, age, hinterval]
  have hintervalNat : intervalMs.toNat ≠ 0 := fun heq => hinterval (UInt32.toNat_inj.mp heq)
  by_cases hcount : count = 0
  · simp [ageChecked, age, hinterval, hintervalNat, hcount]
  have hcountNat : count.toNat ≠ 0 := fun heq => hcount (UInt32.toNat_inj.mp heq)
  by_cases hle : nowMs ≥ epochMs
  · obtain ⟨haged, hepoch⟩ := toNat_age count epochMs nowMs hinterval
    rw [firstEpoch, if_neg hcount] at haged hepoch
    have hnow := UInt64.le_iff_toNat_le.mp hle
    have hfits := nowMs.toNat_lt
    have hproduct := mul_periods_le epochMs nowMs intervalMs
    rw [haged, hepoch]
    simp only [ageChecked, if_neg hintervalNat, if_neg hcountNat, checkedSub, hnow, if_true,
      ge_iff_le, Option.bind_eq_bind, Option.bind_some, Option.pure_def]
    generalize hperiods : (nowMs.toNat - epochMs.toNat) / intervalMs.toNat = periods at *
    have hword : checkedWord 64 (periods * intervalMs.toNat) = some (periods * intervalMs.toNat) :=
      if_pos (by omega)
    have hsum : checkedWord 64 (epochMs.toNat + periods * intervalMs.toNat) =
        some (epochMs.toNat + periods * intervalMs.toNat) :=
      if_pos (by omega)
    by_cases hdigits : 32 ≤ periods
    · have hsmall : count.toNat < 2 ^ periods :=
        Nat.lt_of_lt_of_le count.toNat_lt (Nat.pow_le_pow_right (succ_pos 1) hdigits)
      simp [hdigits, hword, hsum, div_eq_of_lt hsmall]
    · have hshift : checkedShift count.toNat periods = some (count.toNat / 2 ^ periods) :=
        if_pos (Nat.lt_of_not_le hdigits)
      simp [hdigits, hshift, hword, hsum]
  · have hnow : ¬nowMs.toNat ≥ epochMs.toNat := fun hge => hle (UInt64.le_iff_toNat_le.mpr hge)
    simp [ageChecked, age, hinterval, hcount, hle, hnow, hintervalNat, hcountNat]

theorem advanceChecked_eq :
    advanceChecked count.toNat epochMs.toNat nowMs.toNat intervalMs.toNat =
      some ((advanceRoiAging count epochMs nowMs intervalMs).count.toNat,
        (advanceRoiAging count epochMs nowMs intervalMs).epochMs.toNat,
        (advanceRoiAging count epochMs nowMs intervalMs).countReduced.toNat) := by
  have hle := age_le count epochMs nowMs intervalMs
  have hreduced : (advanceRoiAging count epochMs nowMs intervalMs).countReduced.toNat =
      count.toNat - (age count epochMs nowMs intervalMs).1.toNat :=
    UInt32.toNat_sub_of_le _ _ (UInt32.le_iff_toNat_le.mpr hle)
  have hfits := (age count epochMs nowMs intervalMs).1.toNat_lt
  rw [hreduced, toNat_advance]
  simp only [advanceChecked, ageChecked_eq, Option.bind_eq_bind, Option.bind_some, checkedSub,
    if_pos hle, Option.pure_def]
  generalize (age count epochMs nowMs intervalMs).1.toNat = aged at *
  by_cases hmax : aged = 4294967295
  · simp [hmax, advanceRoiAging]
  · have hword : checkedWord 32 (aged + 1) = some (aged + 1) := if_pos (by omega)
    have hmin : min (aged + 1) 4294967295 = aged + 1 := by omega
    simp [hmax, hword, hmin, advanceRoiAging]

end Age

/-! ## Runs -/

inductive Event where
  | boundary
  | deopt
  deriving DecidableEq, Repr

def Event.apply (score : Nat) : Event → Nat
  | .boundary => score / 2
  | .deopt => min (score + 1) 4294967295

def elapsed (first interval now : Nat) : Nat := (now - first) / interval

/-- What happens up to calls at the given times, after some intervals have ended. -/
def timeline (first interval : Nat) : Nat → List Nat → List Event
  | _, [] => []
  | done, now :: nows =>
    replicate (elapsed first interval now - done) .boundary ++
      .deopt :: timeline first interval (elapsed first interval now) nows

theorem foldl_boundaries (periods score : Nat) :
    (replicate periods Event.boundary).foldl Event.apply score = score / 2 ^ periods := by
  induction periods generalizing score with
  | zero => simp
  | succ periods ih =>
    rw [replicate_succ, foldl_cons, ih, Event.apply, Nat.div_div_eq_div_mul,
      Nat.pow_succ']

theorem elapsed_mono {first interval now later : Nat} (h : now ≤ later) :
    elapsed first interval now ≤ elapsed first interval later :=
  Nat.div_le_div_right (Nat.sub_le_sub_right h first)

theorem count_timeline {first interval done : Nat} {nows : List Nat}
    (hsorted : nows.Pairwise (· ≤ ·))
    (hdone : ∀ now ∈ nows, done ≤ elapsed first interval now) :
    (∀ now ∈ nows.getLast?, done + (timeline first interval done nows).count .boundary =
      elapsed first interval now) ∧
    (timeline first interval done nows).count .deopt = nows.length := by
  induction nows generalizing done with
  | nil => simp [timeline]
  | cons now nows ih =>
    obtain ⟨hnow, hrest⟩ := pairwise_cons.mp hsorted
    obtain ⟨hboundaries, hdeopts⟩ := ih hrest fun later hlater => elapsed_mono (hnow later hlater)
    have hfirst := hdone now (mem_cons_self ..)
    constructor
    · intro last hlast
      rw [timeline, count_append, count_replicate_self, count_cons_of_ne (by decide)]
      cases nows with
      | nil =>
        obtain rfl : now = last := by simpa using hlast
        simp only [timeline, count_nil]
        omega
      | cons later nows =>
        have hlast' := hboundaries last (by simpa using hlast)
        omega
    · rw [timeline, count_append, count_replicate, count_cons_self, hdeopts]
      simp

section Run

variable {intervalMs : UInt32} {state : RoiAgingUpdate} {now : UInt64} {nows : List UInt64}
  {first done : Nat}

theorem advance_settled (hinterval : intervalMs ≠ 0)
    (hfirst : firstEpoch state.count state.epochMs now = first + done * intervalMs.toNat)
    (hdone : done ≤ elapsed first intervalMs.toNat now.toNat) :
    (advanceRoiAging state.count state.epochMs now intervalMs).count.toNat =
        min (state.count.toNat / 2 ^ (elapsed first intervalMs.toNat now.toNat - done) + 1)
          4294967295 ∧
      (advanceRoiAging state.count state.epochMs now intervalMs).epochMs.toNat =
        first + elapsed first intervalMs.toNat now.toNat * intervalMs.toNat := by
  obtain ⟨haged, hepoch⟩ := toNat_age state.count state.epochMs now hinterval
  have hperiods : (now.toNat - (first + done * intervalMs.toNat)) / intervalMs.toNat =
      elapsed first intervalMs.toNat now.toNat - done := by
    rw [elapsed, ← Nat.sub_sub, Nat.mul_comm done, sub_mul_div]
  rw [hfirst, hperiods] at haged hepoch
  refine ⟨by rw [toNat_advance, haged], hepoch.trans ?_⟩
  rw [Nat.add_assoc, ← Nat.add_mul, Nat.add_sub_cancel' hdone]

theorem run_settled (hinterval : intervalMs ≠ 0) (hsorted : nows.Pairwise (· ≤ ·))
    (hfirst : ∀ now ∈ nows.head?,
      firstEpoch state.count state.epochMs now = first + done * intervalMs.toNat)
    (hdone : ∀ now ∈ nows, done ≤ elapsed first intervalMs.toNat now.toNat) :
    (run intervalMs state nows).count.toNat =
        (timeline first intervalMs.toNat done (nows.map UInt64.toNat)).foldl Event.apply
          state.count.toNat ∧
      ∀ now ∈ nows.getLast?, (run intervalMs state nows).epochMs.toNat =
        first + elapsed first intervalMs.toNat now.toNat * intervalMs.toNat := by
  induction nows generalizing state done with
  | nil => simp [run, timeline]
  | cons now nows ih =>
    obtain ⟨hnow, hrest⟩ := pairwise_cons.mp hsorted
    obtain ⟨hcount, hepoch⟩ := advance_settled hinterval (hfirst now rfl)
      (hdone now (mem_cons_self ..))
    generalize hnext : advanceRoiAging state.count state.epochMs now intervalMs =
      next at hcount hepoch
    have hne : next.count ≠ 0 := by
      rw [← hnext]
      exact advance_count_ne_zero _ _ _ _
    have hrun : run intervalMs state (now :: nows) = run intervalMs next nows := by
      rw [← hnext]
      rfl
    have hnextFirst : ∀ later ∈ nows.head?, firstEpoch next.count next.epochMs later =
        first + elapsed first intervalMs.toNat now.toNat * intervalMs.toNat := fun later _ => by
      rw [firstEpoch, if_neg hne, hepoch]
    obtain ⟨hcounts, hepochs⟩ := ih hrest hnextFirst
      (fun later hlater => elapsed_mono (UInt64.le_iff_toNat_le.mp (hnow later hlater)))
    rw [hrun]
    constructor
    · rw [hcounts, map_cons, timeline, foldl_append, foldl_cons, foldl_boundaries,
        Event.apply, hcount]
    · intro last hlast
      cases nows with
      | nil =>
        obtain rfl : now = last := by simpa using hlast
        exact hepoch
      | cons later nows => exact hepochs last (by simpa using hlast)

/-- The epoch of a run: that of the initial state, or the first time if nothing is counted yet. -/
def epochOfRun (state : RoiAgingUpdate) (nows : List UInt64) (now : UInt64) : Nat :=
  firstEpoch state.count state.epochMs (nows.headD now)

def eventsOfRun (intervalMs : UInt32) (state : RoiAgingUpdate) (nows : List UInt64)
    (now : UInt64) : List Event :=
  timeline (epochOfRun state nows now) intervalMs.toNat 0 ((nows ++ [now]).map UInt64.toNat)

/-- After every call of a run the epoch is at the last boundary that has passed, and the score is
that of the timeline, on which every interval that has ended stands once; no operation of the call
leaves its range. -/
theorem run_ages (hinterval : intervalMs ≠ 0) (hsorted : (nows ++ [now]).Pairwise (· ≤ ·)) :
    (run intervalMs state (nows ++ [now])).epochMs.toNat = epochOfRun state nows now +
        intervalMs.toNat * ((now.toNat - epochOfRun state nows now) / intervalMs.toNat) ∧
      (epochOfRun state nows now ≤ now.toNat →
        (run intervalMs state (nows ++ [now])).epochMs.toNat ≤ now.toNat ∧
          now.toNat - (run intervalMs state (nows ++ [now])).epochMs.toNat < intervalMs.toNat) ∧
      (run intervalMs state (nows ++ [now])).count.toNat =
        (eventsOfRun intervalMs state nows now).foldl Event.apply state.count.toNat ∧
      (eventsOfRun intervalMs state nows now).count .boundary =
        (now.toNat - epochOfRun state nows now) / intervalMs.toNat ∧
      (eventsOfRun intervalMs state nows now).count .deopt = nows.length + 1 ∧
      advanceChecked (run intervalMs state nows).count.toNat
          (run intervalMs state nows).epochMs.toNat now.toNat intervalMs.toNat =
        some ((run intervalMs state (nows ++ [now])).count.toNat,
          (run intervalMs state (nows ++ [now])).epochMs.toNat,
          (run intervalMs state (nows ++ [now])).countReduced.toNat) := by
  have hpositive : 0 < intervalMs.toNat :=
    Nat.pos_of_ne_zero fun heq => hinterval (UInt32.toNat_inj.mp heq)
  have hfirst : ∀ first ∈ (nows ++ [now]).head?, firstEpoch state.count state.epochMs first =
      epochOfRun state nows now + 0 * intervalMs.toNat := by
    intro first hhead
    have hsame : first = nows.headD now := by
      cases nows with
      | nil => exact (Option.some.inj hhead).symm
      | cons _ _ => exact (Option.some.inj hhead).symm
    rw [hsame, Nat.zero_mul, Nat.add_zero]
    rfl
  obtain ⟨hcount, hepochs⟩ := run_settled hinterval hsorted hfirst fun _ _ => Nat.zero_le _
  have hepoch : (run intervalMs state (nows ++ [now])).epochMs.toNat =
      epochOfRun state nows now +
        intervalMs.toNat * ((now.toNat - epochOfRun state nows now) / intervalMs.toNat) := by
    rw [Nat.mul_comm]
    exact hepochs now (by simp)
  have hsortedNat : ((nows ++ [now]).map UInt64.toNat).Pairwise (· ≤ ·) :=
    pairwise_map.mpr (hsorted.imp UInt64.le_iff_toNat_le.mp)
  obtain ⟨hboundaries, hdeopts⟩ : _ ∧ (eventsOfRun intervalMs state nows now).count .deopt = _ :=
    count_timeline hsortedNat fun _ _ => Nat.zero_le _
  have hboundary := hboundaries now.toNat (by simp)
  rw [Nat.zero_add] at hboundary
  have hlast : run intervalMs state (nows ++ [now]) =
      advanceRoiAging (run intervalMs state nows).count (run intervalMs state nows).epochMs now
        intervalMs := by
    simp only [run, foldl_append, foldl_cons, foldl_nil]
  refine ⟨hepoch, fun hle => ?_, hcount, hboundary, ?_, ?_⟩
  · have hdiv := div_add_mod (now.toNat - epochOfRun state nows now) intervalMs.toNat
    have hmod := mod_lt (now.toNat - epochOfRun state nows now) hpositive
    constructor <;> omega
  · rw [hdeopts, length_map, length_append, length_singleton]
  · rw [hlast]
    exact advanceChecked_eq ..

end Run

theorem run_ages_burst :
    (run 1000 ⟨24, 1000, 0⟩ ([2500, 2999] ++ [3000])).count.toNat =
      (timeline 1000 1000 0 [2500, 2999, 3000]).foldl Event.apply 24 :=
  have hages := @run_ages 1000 ⟨24, 1000, 0⟩ 3000 [2500, 2999] (by decide) (by decide)
  hages.2.2.1

/-- A call before the epoch does not move the epoch back. -/
theorem run_ages_backwards :
    ¬∀ (intervalMs : UInt32) (state : RoiAgingUpdate) (nows : List UInt64) (now : UInt64),
      intervalMs ≠ 0 → (nows ++ [now]).Pairwise (· ≤ ·) →
        0 ≤ (now.toNat : Int) - (run intervalMs state (nows ++ [now])).epochMs.toNat := by
  intro hepoch
  exact absurd (hepoch 1000 ⟨24, 2000, 0⟩ [] 1999 (by decide) (by decide)) (by decide)

end CinderX.Jit.RoiAging
