import CinderX.Jit.OsrCompileState

/-!
# Compile states do no work twice

The tables stay well formed in every run.  A compilation in progress holds the
slot of its key, and two of them have two keys, as long as no reset clears the
slots under them.  What stops a call is therefore still there when the call is
repeated.
-/

namespace CinderX.Jit.Osr

open List Option

section Cases

open BackedgeCounters

variable {targetOf : Nat → Nat} {s : State} {call : Call} {c : BackedgeCounters}

structure Open (c : BackedgeCounters) (call : Call) : Prop where
  live : c.isFailedPermanentPerCode call.source = false
  retried : c.stateOf call.key ≠ some .failedPermanent
  idle : c.stateOf call.key ≠ some .compiling

/-- The cache has no code that is aware of back edges, and is changed for the key only. -/
structure Cold (s : State) (call : Call) (cache : Key → Option CompiledFunction) : Prop where
  unaware : ∀ compiled, s.cache call.key = some compiled → compiled.osrAware = false
  kept : ∀ other ≠ call.key, cache other = s.cache other

variable (targetOf s call c) in
inductive Tried : State × List Effect → Prop
  | skipped : Tried ({ s with counters := some c }, [])
  | entered {compiled} : Open c call → s.cache call.key = some compiled →
      compiled.hasEntry targetOf call.source = true → Tried ({ s with counters := some c },
        [.lookup call.source call.key, .perform call.source call.key])
  | marked : Open c call →
      Tried ({ s with counters := some (c.markFailedPermanentPerCode call.source) },
        [.lookup call.source call.key])
  | full {cache} : Open c call → Cold s call cache →
      Tried (⟨some (c.markFailedPermanentPerCode call.source), cache, s.pending⟩,
        [.lookup call.source call.key])
  | overBudget {cache slot after} : Open c call → Cold s call cache → c.Takes call.key slot after →
      Tried (⟨some (after.markFailedPermanentPerCode call.source), cache, s.pending⟩,
        [.lookup call.source call.key])
  | started {cache slot after} : Open c call → Cold s call cache → c.Takes call.key slot after →
      Tried (⟨some (after.setState slot .compiling), cache,
          ⟨slot, call.source, call.key⟩ :: s.pending⟩,
        [.lookup call.source call.key, .compile call.source call.key])

theorem startCompile_cases {cache : Key → Option CompiledFunction} (hc : c.WellFormed)
    (hopen : Open c call) (hcold : Cold s call cache) :
    Tried targetOf s call c
      ((startCompile ⟨some c, cache, s.pending⟩ c call).1, .lookup call.source call.key ::
        (startCompile ⟨some c, cache, s.pending⟩ c call).2) := by
  unfold startCompile
  split
  next after hslot =>
    rw [getOrCreate_none hslot]
    exact .full hopen hcold
  next after slot hslot =>
    have htakes := getOrCreate_some hc hslot
    split
    · exact .started hopen hcold htakes
    · exact .overBudget hopen hcold htakes

theorem cacheLookup_cases (hc : c.WellFormed) (hopen : Open c call) :
    Tried targetOf s call c (cacheLookup targetOf { s with counters := some c } c call) := by
  unfold cacheLookup
  split
  · split
    next compiled hcompiled =>
      split
      next hentry => exact .entered hopen hcompiled hentry
      · split
        · exact .marked hopen
        next haware =>
          refine startCompile_cases hc hopen ⟨fun found hfound => ?_, fun other hne => ?_⟩
          · rw [hcompiled] at hfound
            cases hfound
            exact eq_false_of_ne_true haware
          · exact Function.update_of_ne hne _ _
    next hnone =>
      refine startCompile_cases hc hopen ⟨fun found hfound => ?_, fun _ _ => rfl⟩
      rw [hnone] at hfound
      cases hfound
  · exact .skipped

variable (targetOf) in
theorem tryOSR_cases (hc : ∀ c, getOrCreate s.counters call.allocates = some c → c.WellFormed) :
    tryOSR targetOf s call = (s, []) ∨
      ∃ c, getOrCreate s.counters call.allocates = some c ∧
        Tried targetOf s call c (tryOSR targetOf s call) := by
  unfold tryOSR
  split
  · split
    · exact .inl rfl
    next c hcounters =>
      refine .inr ⟨c, hcounters, ?_⟩
      simp only
      split
      · exact .skipped
      next hlive =>
        split
        · exact .skipped
        · exact .skipped
        next hfailed hcompiling =>
          exact cacheLookup_cases (hc c hcounters)
            ⟨eq_false_of_ne_true hlive, hfailed, hcompiling⟩
  · exact .inl rfl

end Cases

section Bounds

open BackedgeCounters

variable {targetOf : Nat → Nat} {s : State} {c : BackedgeCounters}

theorem wellFormed_zero : BackedgeCounters.zero.WellFormed :=
  ⟨rfl, Nat.zero_le _, nodup_nil⟩

theorem BackedgeCounters.WellFormed.mark (h : c.WellFormed) (source : Nat) :
    (c.markFailedPermanentPerCode source).WellFormed := ⟨h.slots, h.bounded, h.distinct⟩

theorem BackedgeCounters.WellFormed.register (h : c.WellFormed) (source target : Nat) :
    (c.findOrCreateBackedgeEntry source target).WellFormed := by
  obtain ⟨hstates, hnum⟩ := register_states c source target
  refine ⟨by rw [hstates, h.slots], by rw [hnum]; exact h.bounded, ?_⟩
  rw [keys, used, hstates, hnum]
  exact h.distinct

theorem BackedgeCounters.WellFormed.clear (c : BackedgeCounters) : c.clear.WellFormed :=
  ⟨rfl, Nat.zero_le _, nodup_nil⟩

variable (s) in
def State.WellFormed : Prop := ∀ c, s.counters = some c → c.WellFormed

theorem wellFormed_getOrCreate (h : s.WellFormed) {allocates : Bool}
    (hc : getOrCreate s.counters allocates = some c) : c.WellFormed := by
  unfold getOrCreate at hc
  split at hc
  next found hfound =>
    cases hc
    exact h c hfound
  · split at hc
    · cases hc
      exact wellFormed_zero
    · cases hc

theorem wellFormed_tried {call : Call} {result : State × List Effect} (hc : c.WellFormed)
    (h : Tried targetOf s call c result) : result.1.WellFormed := by
  intro after hafter
  cases h with
  | skipped => cases hafter; exact hc
  | entered => cases hafter; exact hc
  | marked => cases hafter; exact hc.mark call.source
  | full => cases hafter; exact hc.mark call.source
  | overBudget _ _ htakes => cases hafter; exact htakes.wellFormed.mark call.source
  | started _ _ htakes => cases hafter; exact htakes.wellFormed.setState _ _

theorem wellFormed_step (h : s.WellFormed) (event : Event) :
    (step targetOf s event).1.WellFormed := by
  cases event with
  | tryOSR call =>
    obtain heq | ⟨c, hcounters, htried⟩ := tryOSR_cases targetOf
      fun c hc => wellFormed_getOrCreate h hc
    · rw [step, heq]
      exact h
    · exact wellFormed_tried (wellFormed_getOrCreate h hcounters) htried
  | finish index ok =>
    simp only [step]
    split
    next p _ =>
      have hset (state : CompileState) : State.WellFormed
          { s with
            counters := s.counters.map (·.setState p.slot state)
            pending := s.pending.eraseIdx index } := by
        intro after hafter
        obtain ⟨c, hc, rfl⟩ := map_eq_some_iff.1 hafter
        exact (h c hc).setState p.slot state
      unfold finishCompile
      split
      · exact hset .compiled
      · exact hset .failedPermanent
    · exact h
  | register source allocates =>
    intro after hafter
    obtain ⟨c, hc, rfl⟩ := map_eq_some_iff.1 hafter
    exact (wellFormed_getOrCreate h hc).register source (targetOf source)
  | reset =>
    intro after hafter
    obtain ⟨c, -, rfl⟩ := map_eq_some_iff.1 hafter
    exact .clear c
  | cached key compiled => exact h

theorem wellFormed_run (h : s.WellFormed) (events : List Event) :
    (run targetOf s events).WellFormed := by
  induction events generalizing s with
  | nil => exact h
  | cons event events ih => exact ih (wellFormed_step h event)

theorem wellFormed_initial : initial.WellFormed := fun _ h => by cases h

end Bounds

/-! ## The compilations in progress -/

section Compilations

open BackedgeCounters

variable {targetOf : Nat → Nat} {s : State} {c : BackedgeCounters}

variable (s) in
/-- Every compilation in progress holds the slot of its key, and every key has one at most. -/
structure State.Sound : Prop where
  wellFormed : s.WellFormed
  pending : ∀ p ∈ s.pending, ∃ c, s.counters = some c ∧
    c.getOSRCompileState p.key = some p.slot ∧ c.stateOf p.key = some .compiling
  apart : (s.pending.map Pending.key).Nodup

theorem sound_initial : initial.Sound :=
  ⟨wellFormed_initial, fun _ hp => absurd hp not_mem_nil, nodup_nil⟩

def Holds (c : BackedgeCounters) (p : Pending) : Prop :=
  c.getOSRCompileState p.key = some p.slot ∧ c.stateOf p.key = some .compiling

variable {p : Pending}

theorem holds_of_states {c after : BackedgeCounters}
    (hstates : after.compileStates = c.compileStates)
    (hnum : after.numCompileStates = c.numCompileStates) (h : Holds c p) : Holds after p := by
  have hget : after.getOSRCompileState p.key = c.getOSRCompileState p.key := by
    rw [getOSRCompileState, getOSRCompileState, used, used, hstates, hnum]
  refine ⟨hget.trans h.1, ?_⟩
  rw [stateOf, hget, hstates]
  exact h.2

theorem holds_takes {after : BackedgeCounters} {key : Key} {slot : Nat}
    (htakes : c.Takes key slot after) (h : Holds c p) : Holds after p := by
  by_cases hkey : p.key = key
  · rw [htakes.same (by rw [← hkey, h.1]; exact some_ne_none _)]
    exact h
  · exact ⟨(htakes.others p.key hkey).trans h.1, (htakes.states p.key hkey).trans h.2⟩

theorem holds_setState {slot : Nat} (hne : slot ≠ p.slot) (state : CompileState) (h : Holds c p) :
    Holds (c.setState slot state) p := by
  refine ⟨by rw [getOSRCompileState_setState]; exact h.1, ?_⟩
  rw [stateOf_setState_of_ne state (by rw [h.1]; simpa using hne.symm)]
  exact h.2

theorem holds_getOrCreate (h : s.Sound) {allocates : Bool}
    (hc : getOrCreate s.counters allocates = some c) : ∀ p ∈ s.pending, Holds c p := by
  intro p hp
  obtain ⟨found, hfound, hholds⟩ := h.pending p hp
  rw [hfound] at hc
  cases hc
  exact hholds

theorem sound_tried {call : Call} {result : State × List Effect} (h : s.Sound)
    (hc : c.WellFormed) (hholds : ∀ p ∈ s.pending, Holds c p)
    (htried : Tried targetOf s call c result) :
    result.1.Sound := by
  have hwell := wellFormed_tried hc htried
  cases htried with
  | skipped => exact ⟨hwell, fun p hp => ⟨c, rfl, hholds p hp⟩, h.apart⟩
  | entered => exact ⟨hwell, fun p hp => ⟨c, rfl, hholds p hp⟩, h.apart⟩
  | marked => exact ⟨hwell, fun p hp => ⟨_, rfl, hholds p hp⟩, h.apart⟩
  | full => exact ⟨hwell, fun p hp => ⟨_, rfl, hholds p hp⟩, h.apart⟩
  | overBudget _ _ htakes =>
    refine ⟨hwell, fun p hp => ⟨_, rfl, ?_⟩, h.apart⟩
    have hheld := holds_takes htakes (hholds p hp)
    exact holds_of_states rfl rfl hheld
  | @started cache slot after hopen _ htakes =>
    have hkeys : ∀ p ∈ s.pending, p.key ≠ call.key := fun p hp hkey =>
      hopen.idle (hkey ▸ (hholds p hp).2)
    refine ⟨hwell, fun p hp => ⟨_, rfl, ?_⟩, ?_⟩
    · rcases mem_cons.1 hp with rfl | hp
      · exact ⟨by rw [getOSRCompileState_setState]; exact htakes.found,
          stateOf_setState .compiling htakes.found⟩
      · have hheld := holds_takes htakes (hholds p hp)
        refine holds_setState (fun hslot => hkeys p hp ?_) .compiling hheld
        exact eq_of_getOSRCompileState hheld.1 (hslot ▸ htakes.found)
    · refine nodup_cons.2 ⟨fun hmem => ?_, h.apart⟩
      obtain ⟨p, hp, hkey⟩ := List.mem_map.1 hmem
      exact hkeys p hp hkey

theorem holds_finish (h : s.Sound) {index : Nat} (hp : s.pending[index]? = some p)
    (hc : s.counters = some c) (state : CompileState) :
    ∀ q ∈ s.pending.eraseIdx index, Holds (c.setState p.slot state) q := by
  intro q hq
  have hheld : ∀ q ∈ s.pending, Holds c q := by
    intro q hq
    obtain ⟨found, hfound, hholds⟩ := h.pending q hq
    rw [hc] at hfound
    cases hfound
    exact hholds
  have hqin := mem_of_mem_eraseIdx hq
  refine holds_setState (fun hslot => ?_) state (hheld q hqin)
  have hkey : p.key = q.key :=
    eq_of_getOSRCompileState (hheld p (mem_of_getElem? hp)).1 (hslot ▸ (hheld q hqin).1)
  rw [mem_eraseIdx_iff_getElem?] at hq
  obtain ⟨other, hne, hother⟩ := hq
  have hlt : other < (s.pending.map Pending.key).length := by
    rw [length_map]
    exact (List.getElem?_eq_some_iff.1 hother).1
  refine hne ((getElem?_inj hlt h.apart).1 ?_)
  rw [getElem?_map, getElem?_map, hp, hother, map_some, map_some, hkey]

variable (targetOf) in
theorem sound_step (h : s.Sound) {event : Event} (hcalm : event = .reset → s.pending = []) :
    (step targetOf s event).1.Sound := by
  have hwell : (step targetOf s event).1.WellFormed := wellFormed_step h.wellFormed event
  cases event with
  | tryOSR call =>
    obtain heq | ⟨c, hcounters, htried⟩ := tryOSR_cases targetOf
      fun c hc => wellFormed_getOrCreate h.wellFormed hc
    · rw [step, heq]
      exact h
    · exact sound_tried h (wellFormed_getOrCreate h.wellFormed hcounters)
        (holds_getOrCreate h hcounters) htried
  | finish index ok =>
    simp only [step]
    split
    next p hp =>
      obtain ⟨c, hc, -⟩ := h.pending p (mem_of_getElem? hp)
      have hset (state : CompileState) : State.Sound
          { s with
            counters := s.counters.map (·.setState p.slot state)
            pending := s.pending.eraseIdx index } := by
        refine ⟨?_, fun q hq => ⟨c.setState p.slot state, by rw [hc]; rfl,
          holds_finish h hp hc state q hq⟩, ?_⟩
        · intro after hafter
          obtain ⟨found, hfound, rfl⟩ := map_eq_some_iff.1 hafter
          exact (h.wellFormed found hfound).setState p.slot state
        · exact h.apart.sublist ((eraseIdx_sublist _ _).map _)
      unfold finishCompile
      split
      · exact hset .compiled
      · exact hset .failedPermanent
    · exact h
  | register source allocates =>
    refine ⟨hwell, fun p hp => ?_, h.apart⟩
    obtain ⟨c, hc, hholds⟩ := h.pending p hp
    obtain ⟨hstates, hnum⟩ := register_states c source (targetOf source)
    exact ⟨_, by rw [step, hc]; rfl, holds_of_states hstates hnum hholds⟩
  | reset =>
    have hnone : (step targetOf s .reset).1.pending = [] := hcalm rfl
    refine ⟨hwell, fun p hp => ?_, by rw [hnone]; exact nodup_nil⟩
    rw [hnone] at hp
    cases hp
  | cached key compiled => exact ⟨hwell, h.pending, h.apart⟩

theorem sound_run (h : s.Sound) {events : List Event} (hcalm : Calm targetOf s events) :
    (run targetOf s events).Sound := by
  induction events generalizing s with
  | nil => exact h
  | cons event events ih => exact ih (sound_step targetOf h hcalm.1) hcalm.2

end Compilations

/-! ## What stops a call -/

section Stops

open BackedgeCounters

variable {targetOf : Nat → Nat} {s : State} {c : BackedgeCounters} {source : Nat} {key : Key}

theorem getOrCreate_of_some (hc : s.counters = some c) {allocates : Bool}
    {found : BackedgeCounters} (h : getOrCreate s.counters allocates = some found) : found = c := by
  rw [hc] at h
  cases h
  rfl

variable {event : Event}

theorem compile_mem_step (h : s.WellFormed) (hc : s.counters = some c)
    (hmem : .compile source key ∈ (step targetOf s event).2) :
    ∃ call cache, call.source = source ∧ call.key = key ∧ Open c call ∧ Cold s call cache := by
  cases event with
  | tryOSR call =>
    obtain heq | ⟨found, hcounters, htried⟩ := tryOSR_cases targetOf
      fun c hc => wellFormed_getOrCreate h hc
    · rw [step, heq] at hmem
      cases hmem
    · cases getOrCreate_of_some hc hcounters
      rw [step] at hmem
      generalize tryOSR targetOf s call = result at htried hmem
      cases htried with
      | skipped => simp at hmem
      | entered => simp at hmem
      | marked => simp at hmem
      | full => simp at hmem
      | overBudget => simp at hmem
      | started hopen hcold _ =>
        simp only [mem_cons, reduceCtorEq, false_or, Effect.compile.injEq,
          not_mem_nil, or_false] at hmem
        exact ⟨call, _, hmem.1.symm, hmem.2.symm, hopen, hcold⟩
  | finish index ok =>
    simp only [step, finishCompile] at hmem
    split at hmem
    · split at hmem
      · split at hmem <;> simp at hmem
      · simp at hmem
    · cases hmem
  | register other allocates => cases hmem
  | reset => cases hmem
  | cached other compiled => cases hmem

theorem stateOf_step (h : s.Sound) (hc : s.counters = some c) {state : CompileState}
    (hstate : c.stateOf key = some state) (hidle : state ≠ .compiling) (hreset : event ≠ .reset)
    (hnot : ∀ source, .compile source key ∉ (step targetOf s event).2) :
    ∃ after, (step targetOf s event).1.counters = some after ∧
      after.stateOf key = some state := by
  cases event with
  | tryOSR call =>
    obtain heq | ⟨found, hcounters, htried⟩ := tryOSR_cases targetOf
      fun c hc => wellFormed_getOrCreate h.wellFormed hc
    · rw [step, heq]
      exact ⟨c, hc, hstate⟩
    · cases getOrCreate_of_some hc hcounters
      rw [step] at hnot ⊢
      generalize tryOSR targetOf s call = result at htried hnot ⊢
      have htaken {slot : Nat} {after : BackedgeCounters} (htakes : c.Takes call.key slot after) :
          after.stateOf key = some state := by
        by_cases hkey : key = call.key
        · rw [htakes.same, hstate]
          intro hnone
          rw [stateOf, hkey, hnone] at hstate
          cases hstate
        · rw [htakes.states key hkey, hstate]
      cases htried with
      | skipped => exact ⟨c, rfl, hstate⟩
      | entered => exact ⟨c, rfl, hstate⟩
      | marked => exact ⟨_, rfl, hstate⟩
      | full => exact ⟨_, rfl, hstate⟩
      | overBudget _ _ htakes =>
        have hafter := htaken htakes
        exact ⟨_, rfl, hafter⟩
      | @started cache slot after _ _ htakes =>
        refine ⟨_, rfl, ?_⟩
        rw [stateOf_setState_of_ne, htaken htakes]
        intro hslot
        have hkey := eq_of_getOSRCompileState hslot htakes.found
        exact hnot call.source (by simp [hkey])
  | finish index ok =>
    simp only [step]
    split
    next p hp =>
      obtain ⟨found, hfound, hslot, hcompiling⟩ := h.pending p (mem_of_getElem? hp)
      rw [hc] at hfound
      cases hfound
      have hne : c.getOSRCompileState key ≠ some p.slot := by
        intro hkey
        rw [eq_of_getOSRCompileState hkey hslot, hcompiling] at hstate
        cases hstate
        exact hidle rfl
      have hset (set : CompileState) : (c.setState p.slot set).stateOf key = some state :=
        (stateOf_setState_of_ne set hne).trans hstate
      unfold finishCompile
      split
      · exact ⟨c.setState p.slot .compiled, by rw [hc]; rfl, hset .compiled⟩
      · exact ⟨c.setState p.slot .failedPermanent, by rw [hc]; rfl, hset .failedPermanent⟩
    · exact ⟨c, hc, hstate⟩
  | register other allocates =>
    obtain ⟨hstates, hnum⟩ := register_states c other (targetOf other)
    refine ⟨c.findOrCreateBackedgeEntry other (targetOf other), by rw [step, hc]; rfl, ?_⟩
    rw [← hstate, stateOf, stateOf, getOSRCompileState, getOSRCompileState, used, used, hstates,
      hnum]
  | reset => exact absurd rfl hreset
  | cached other compiled => exact ⟨c, hc, hstate⟩

variable (targetOf) in
theorem entryOf_step (h : s.WellFormed) (hc : s.counters = some c) (hreset : event ≠ .reset) :
    ∃ after, (step targetOf s event).1.counters = some after ∧
      ((c.entryOf source).isSome → (after.entryOf source).isSome) ∧
      (c.isFailedPermanentPerCode source = true → after.isFailedPermanentPerCode source =
        true) := by
  have hkept {after : BackedgeCounters} (hentries : after.entries = c.entries) :
      ((c.entryOf source).isSome → (after.entryOf source).isSome) ∧
        (c.isFailedPermanentPerCode source = true →
          after.isFailedPermanentPerCode source = true) := by
    have hentry : after.entryOf source = c.entryOf source := by rw [entryOf, entryOf, hentries]
    rw [isFailedPermanentPerCode, isFailedPermanentPerCode, hentry]
    exact ⟨id, id⟩
  have hmark {after : BackedgeCounters} (marked : Nat) (hentries : after.entries = c.entries) :
      ((c.entryOf source).isSome →
          ((after.markFailedPermanentPerCode marked).entryOf source).isSome) ∧
        (c.isFailedPermanentPerCode source = true →
          (after.markFailedPermanentPerCode marked).isFailedPermanentPerCode source = true) := by
    obtain ⟨hsome, hfailed⟩ := hkept hentries
    refine ⟨fun h => ?_, fun h => isFailed_mark (hfailed h) marked⟩
    rw [entryOf_mark, isSome_map]
    exact hsome h
  cases event with
  | tryOSR call =>
    obtain heq | ⟨found, hcounters, htried⟩ := tryOSR_cases targetOf
      fun c hc => wellFormed_getOrCreate h hc
    · rw [step, heq]
      exact ⟨c, hc, id, id⟩
    · cases getOrCreate_of_some hc hcounters
      rw [step]
      generalize tryOSR targetOf s call = result at htried ⊢
      cases htried with
      | skipped => exact ⟨c, rfl, id, id⟩
      | entered => exact ⟨c, rfl, id, id⟩
      | marked => exact ⟨_, rfl, hmark call.source rfl⟩
      | full => exact ⟨_, rfl, hmark call.source rfl⟩
      | overBudget _ _ htakes => exact ⟨_, rfl, hmark call.source htakes.entries⟩
      | started _ _ htakes => exact ⟨_, rfl, hkept htakes.entries⟩
  | finish index ok =>
    simp only [step]
    split
    next p _ =>
      unfold finishCompile
      split
      · exact ⟨c.setState p.slot .compiled, by rw [hc]; rfl, hkept rfl⟩
      · exact ⟨c.setState p.slot .failedPermanent, by rw [hc]; rfl, hkept rfl⟩
    · exact ⟨c, hc, id, id⟩
  | register other allocates =>
    refine ⟨c.findOrCreateBackedgeEntry other (targetOf other), by rw [step, hc]; rfl,
      fun hsome => ?_, fun hfailed => ?_⟩
    · obtain ⟨entry, hentry⟩ := isSome_iff_exists.1 hsome
      rw [entryOf_register hentry]
      rfl
    · obtain ⟨entry, hentry, hmarked⟩ := isFailed_iff.1 hfailed
      exact isFailed_iff.2 ⟨entry, entryOf_register hentry _ _, hmarked⟩
  | reset => exact absurd rfl hreset
  | cached other compiled => exact ⟨c, hc, id, id⟩

end Stops

section Runs

open BackedgeCounters

variable {targetOf : Nat → Nat} {s : State} {source : Nat} {key : Key}

def FailedKey (s : State) (key : Key) : Prop :=
  ∃ c, s.counters = some c ∧ c.stateOf key = some .failedPermanent

def FailedBackedge (s : State) (source : Nat) : Prop :=
  ∃ c, s.counters = some c ∧ c.isFailedPermanentPerCode source = true

def Registered (s : State) (source : Nat) : Prop :=
  ∃ c, s.counters = some c ∧ (c.entryOf source).isSome

def Skips (targetOf : Nat → Nat) (source : Nat) (compiled : CompiledFunction) : Prop :=
  compiled.osrAware = true ∧ compiled.hasEntry targetOf source = false

variable (targetOf source key) in
/-- The key has been compiled, and the code has no entry for a back edge of the table. -/
structure Settled (s : State) : Prop where
  sound : s.Sound
  compiled : ∃ c, s.counters = some c ∧ c.stateOf key = some .compiled
  cached : ∃ compiled, s.cache key = some compiled ∧ Skips targetOf source compiled
  registered : Registered s source

theorem not_compile_of_failedKey (h : s.WellFormed) (hkey : FailedKey s key) (event : Event) :
    .compile source key ∉ (step targetOf s event).2 := by
  obtain ⟨c, hc, hstate⟩ := hkey
  intro hmem
  obtain ⟨call, cache, rfl, rfl, hopen, -⟩ := compile_mem_step h hc hmem
  exact hopen.retried hstate

theorem not_compile_of_failedBackedge (h : s.WellFormed) (hsource : FailedBackedge s source)
    (event : Event) : .compile source key ∉ (step targetOf s event).2 := by
  obtain ⟨c, hc, hfailed⟩ := hsource
  intro hmem
  obtain ⟨call, cache, rfl, rfl, hopen, -⟩ := compile_mem_step h hc hmem
  rw [hopen.live] at hfailed
  cases hfailed

variable {p : Pending}

theorem not_compile_of_pending (h : s.Sound) (hp : p ∈ s.pending) (event : Event) :
    .compile source p.key ∉ (step targetOf s event).2 := by
  obtain ⟨c, hc, -, hcompiling⟩ := h.pending p hp
  intro hmem
  obtain ⟨call, cache, -, hkey, hopen, -⟩ := compile_mem_step h.wellFormed hc hmem
  exact hopen.idle (hkey ▸ hcompiling)

variable {event : Event}

theorem failedKey_step (h : s.Sound) (hkey : FailedKey s key) (hreset : event ≠ .reset) :
    FailedKey (step targetOf s event).1 key := by
  have hnot (source : Nat) : .compile source key ∉ (step targetOf s event).2 :=
    not_compile_of_failedKey h.wellFormed hkey event
  obtain ⟨c, hc, hstate⟩ := hkey
  exact stateOf_step h hc hstate (by decide) hreset hnot

theorem failedBackedge_step (h : s.WellFormed) (hsource : FailedBackedge s source)
    (hreset : event ≠ .reset) : FailedBackedge (step targetOf s event).1 source := by
  obtain ⟨c, hc, hfailed⟩ := hsource
  obtain ⟨after, hafter, -, hkept⟩ := entryOf_step targetOf h hc hreset
  exact ⟨after, hafter, hkept hfailed⟩

variable {later : List Event}

theorem failedBackedge_run (h : s.WellFormed) (hsource : FailedBackedge s source)
    (hreset : .reset ∉ later) :
    FailedBackedge (run targetOf s later) source := by
  induction later generalizing s with
  | nil => exact hsource
  | cons event later ih =>
    have hne : event ≠ .reset := fun heq => hreset (heq ▸ mem_cons_self)
    exact ih (wellFormed_step h event) (failedBackedge_step h hsource hne)
      fun hmem => hreset (mem_cons_of_mem _ hmem)

theorem not_compile_work_of_failedKey (h : s.Sound) (hkey : FailedKey s key)
    (hreset : .reset ∉ later) : .compile source key ∉ work targetOf s later := by
  induction later generalizing s with
  | nil => exact not_mem_nil
  | cons event later ih =>
    have hne : event ≠ .reset := fun heq => hreset (heq ▸ mem_cons_self)
    rw [work, mem_append, not_or]
    exact ⟨not_compile_of_failedKey h.wellFormed hkey event,
      ih (sound_step targetOf h fun heq => absurd heq hne) (failedKey_step h hkey hne)
        fun hmem => hreset (mem_cons_of_mem _ hmem)⟩

theorem not_compile_work_of_failedBackedge (h : s.WellFormed) (hsource : FailedBackedge s source)
    (hreset : .reset ∉ later) :
    .compile source key ∉ work targetOf s later := by
  induction later generalizing s with
  | nil => exact not_mem_nil
  | cons event later ih =>
    have hne : event ≠ .reset := fun heq => hreset (heq ▸ mem_cons_self)
    rw [work, mem_append, not_or]
    exact ⟨not_compile_of_failedBackedge h hsource event,
      ih (wellFormed_step h event) (failedBackedge_step h hsource hne)
        fun hmem => hreset (mem_cons_of_mem _ hmem)⟩

/-! ### Code without an entry -/

theorem Settled.pending_ne (h : Settled targetOf source key s) (hp : p ∈ s.pending) :
    p.key ≠ key := by
  rintro rfl
  obtain ⟨c, hc, hcompiled⟩ := h.compiled
  obtain ⟨found, hfound, -, hcompiling⟩ := h.sound.pending p hp
  rw [hc] at hfound
  cases hfound
  rw [hcompiled] at hcompiling
  cases hcompiling

theorem Settled.not_compile (h : Settled targetOf source key s) (other : Nat) (event : Event) :
    .compile other key ∉ (step targetOf s event).2 := by
  obtain ⟨c, hc, -⟩ := h.compiled
  obtain ⟨compiled, hcached, haware, -⟩ := h.cached
  intro hmem
  obtain ⟨call, cache, -, rfl, -, hcold⟩ := compile_mem_step h.sound.wellFormed hc hmem
  rw [hcold.unaware compiled hcached] at haware
  cases haware

theorem Settled.cached_step (h : Settled targetOf source key s)
    (hcache : ∀ found, event = .cached key found →
      ∃ compiled, found = some compiled ∧ Skips targetOf source compiled) :
    ∃ compiled, (step targetOf s event).1.cache key = some compiled ∧
      Skips targetOf source compiled := by
  obtain ⟨compiled, hcached, hskips⟩ := h.cached
  cases event with
  | tryOSR call =>
    obtain heq | ⟨c, -, htried⟩ := tryOSR_cases targetOf
      fun c hc => wellFormed_getOrCreate h.sound.wellFormed hc
    · rw [step, heq]
      exact ⟨compiled, hcached, hskips⟩
    · rw [step]
      generalize tryOSR targetOf s call = result at htried ⊢
      have hkept {cache} (hcold : Cold s call cache) : cache key = some compiled := by
        rw [hcold.kept, hcached]
        rintro rfl
        have := hcold.unaware compiled hcached
        rw [hskips.1] at this
        cases this
      cases htried with
      | skipped => exact ⟨compiled, hcached, hskips⟩
      | entered => exact ⟨compiled, hcached, hskips⟩
      | marked => exact ⟨compiled, hcached, hskips⟩
      | full _ hcold => exact ⟨compiled, hkept hcold, hskips⟩
      | overBudget _ hcold => exact ⟨compiled, hkept hcold, hskips⟩
      | started _ hcold => exact ⟨compiled, hkept hcold, hskips⟩
  | finish index ok =>
    simp only [step]
    split
    · unfold finishCompile
      split <;> exact ⟨compiled, hcached, hskips⟩
    · exact ⟨compiled, hcached, hskips⟩
  | register other allocates => exact ⟨compiled, hcached, hskips⟩
  | reset => exact ⟨compiled, hcached, hskips⟩
  | cached other found =>
    by_cases hkey : key = other
    · subst hkey
      obtain ⟨next, rfl, hnext⟩ := hcache found rfl
      exact ⟨next, Function.update_self _ _ _, hnext⟩
    · exact ⟨compiled, (Function.update_of_ne hkey _ _).trans hcached, hskips⟩

theorem settled_step (h : Settled targetOf source key s) (hreset : event ≠ .reset)
    (hcache : ∀ found, event = .cached key found →
      ∃ compiled, found = some compiled ∧ Skips targetOf source compiled) :
    Settled targetOf source key (step targetOf s event).1 := by
  obtain ⟨c, hc, hcompiled⟩ := h.compiled
  refine ⟨sound_step targetOf h.sound fun heq => absurd heq hreset,
    stateOf_step h.sound hc hcompiled (by decide) hreset fun other => h.not_compile other event,
    h.cached_step hcache, ?_⟩
  obtain ⟨found, hfound, hentry⟩ := h.registered
  obtain ⟨after, hafter, hkept, -⟩ := entryOf_step targetOf h.sound.wellFormed hfound hreset
  exact ⟨after, hafter, hkept hentry⟩

theorem Settled.lookup_step (h : Settled targetOf source key s) (event : Event) :
    (step targetOf s event).2.count (.lookup source key) = 0 ∨
      ¬ FailedBackedge s source ∧ (step targetOf s event).2.count (.lookup source key) = 1 ∧
        FailedBackedge (step targetOf s event).1 source := by
  cases event with
  | tryOSR call =>
    obtain heq | ⟨c, hcounters, htried⟩ := tryOSR_cases targetOf
      fun c hc => wellFormed_getOrCreate h.sound.wellFormed hc
    · rw [step, heq]
      exact .inl rfl
    · by_cases hcall : call.source = source ∧ call.key = key
      · obtain ⟨rfl, rfl⟩ := hcall
        obtain ⟨found, hfound, hentry⟩ := h.registered
        cases getOrCreate_of_some hfound hcounters
        obtain ⟨compiled, hcached, haware, hskipped⟩ := h.cached
        have hlive (hopen : Open c call) : ¬ FailedBackedge s call.source := by
          rintro ⟨other, hother, hfailed⟩
          rw [hfound] at hother
          cases hother
          rw [hopen.live] at hfailed
          cases hfailed
        have hmarked : (c.markFailedPermanentPerCode call.source).isFailedPermanentPerCode
            call.source = true := isFailed_mark_self hentry
        rw [step]
        generalize tryOSR targetOf s call = result at htried ⊢
        cases htried with
        | skipped => exact .inl rfl
        | entered _ hfound hentry =>
          rw [hcached] at hfound
          cases hfound
          rw [hskipped] at hentry
          cases hentry
        | marked hopen => exact .inr ⟨hlive hopen, by simp, _, rfl, hmarked⟩
        | full hopen => exact .inr ⟨hlive hopen, by simp, _, rfl, hmarked⟩
        | overBudget _ hcold | started _ hcold =>
          rw [hcold.unaware compiled hcached] at haware
          cases haware
      · refine .inl ?_
        rw [step]
        generalize tryOSR targetOf s call = result at htried ⊢
        have hne : ¬ Effect.lookup call.source call.key = .lookup source key := by
          simpa using hcall
        cases htried <;> simp [hcall]
  | finish index ok =>
    refine .inl ?_
    simp only [step]
    split
    next p hp =>
      have hne : p.key ≠ key := h.pending_ne (mem_of_getElem? hp)
      unfold finishCompile
      split
      · simp only
        split <;> simp [hne]
      · rfl
    · rfl
  | register other allocates => exact .inl rfl
  | reset => exact .inl rfl
  | cached other found => exact .inl rfl

theorem Settled.lookup_work (h : Settled targetOf source key s) (hreset : .reset ∉ later)
    (hcache : ∀ found, .cached key found ∈ later →
      ∃ compiled, found = some compiled ∧ Skips targetOf source compiled) :
    (work targetOf s later).count (.lookup source key) = 0 ∨
      ¬ FailedBackedge s source ∧ (work targetOf s later).count (.lookup source key) = 1 ∧
        FailedBackedge (run targetOf s later) source := by
  induction later generalizing s with
  | nil => exact .inl rfl
  | cons event later ih =>
    have hne : event ≠ .reset := fun heq => hreset (heq ▸ mem_cons_self)
    have hnext := settled_step h hne fun found hfound =>
      hcache found (hfound ▸ mem_cons_self)
    have hrest := ih hnext (fun hmem => hreset (mem_cons_of_mem _ hmem))
      fun found hfound => hcache found (mem_cons_of_mem _ hfound)
    have hstay : FailedBackedge s source → FailedBackedge (step targetOf s event).1 source :=
      fun hfailed => failedBackedge_step h.sound.wellFormed hfailed hne
    rw [work, count_append]
    obtain hnone | ⟨hlive, hone, hmarked⟩ := h.lookup_step event
    · rw [hnone, Nat.zero_add]
      obtain hrest | ⟨hlive, hone, hmarked⟩ := hrest
      · exact .inl hrest
      · exact .inr ⟨fun hfailed => hlive (hstay hfailed), hone, hmarked⟩
    · obtain hrest | ⟨hlive', -, -⟩ := hrest
      · refine .inr ⟨hlive, by rw [hone, hrest], ?_⟩
        have hrun : FailedBackedge (run targetOf (step targetOf s event).1 later) source :=
          failedBackedge_run hnext.sound.wellFormed hmarked
            fun hmem => hreset (mem_cons_of_mem _ hmem)
        exact hrun
      · exact absurd hmarked hlive'

theorem settled_finish (h : s.Sound) {index : Nat} {compiled : CompiledFunction}
    (hp : s.pending[index]? = some p) (hcached : s.cache p.key = some compiled)
    (hskips : Skips targetOf p.source compiled) (hregistered : Registered s p.source) :
    Settled targetOf p.source p.key (step targetOf s (.finish index true)).1 := by
  have hne : Event.finish index true ≠ .reset := by simp
  have hsound := sound_step targetOf h fun heq => absurd heq hne
  obtain ⟨c, hc, hslot, -⟩ := h.pending p (mem_of_getElem? hp)
  obtain ⟨found, hfound, hentry⟩ := hregistered
  obtain ⟨after, hafter, hkept, -⟩ := entryOf_step targetOf h.wellFormed hfound hne
  refine ⟨hsound, ⟨c.setState p.slot .compiled, ?_, stateOf_setState .compiled hslot⟩,
    ⟨compiled, ?_, hskips⟩, after, hafter, hkept hentry⟩
  · simp [step, hp, finishCompile, hc]
  · simpa [step, hp, finishCompile] using hcached

/-- The compile states do no work twice.  In every run there are four keys at most, which differ;
and in a run that resets only while nothing is compiled, a failed key or back edge is not compiled
until the next reset, a key in compilation is not compiled by another call, and code without an
entry for a back edge of the table is looked up once more at most, which marks the back edge, as
long as the cache keeps such code. -/
theorem no_repeated_work (targetOf : Nat → Nat) :
    (∀ events c, (run targetOf initial events).counters = some c →
      c.numCompileStates ≤ maxCompileKeys ∧ c.keys.Nodup) ∧
    ∀ events, Calm targetOf initial events →
      (∀ key, FailedKey (run targetOf initial events) key → ∀ later, .reset ∉ later →
        ∀ source, .compile source key ∉ work targetOf (run targetOf initial events) later) ∧
      (∀ source, FailedBackedge (run targetOf initial events) source → ∀ later, .reset ∉ later →
        ∀ key, .compile source key ∉ work targetOf (run targetOf initial events) later) ∧
      (∀ p ∈ (run targetOf initial events).pending, ∀ event source,
        .compile source p.key ∉ (step targetOf (run targetOf initial events) event).2) ∧
      ∀ index p compiled, (run targetOf initial events).pending[index]? = some p →
        (run targetOf initial events).cache p.key = some compiled →
        Skips targetOf p.source compiled → Registered (run targetOf initial events) p.source →
        ∀ later, .reset ∉ later →
          (∀ found, .cached p.key found ∈ later →
            ∃ compiled, found = some compiled ∧ Skips targetOf p.source compiled) →
          (work targetOf (run targetOf initial (events ++ [.finish index true])) later).count
              (.lookup p.source p.key) = 0 ∨
            (work targetOf (run targetOf initial (events ++ [.finish index true])) later).count
                (.lookup p.source p.key) = 1 ∧
              FailedBackedge
                (run targetOf initial (events ++ [.finish index true] ++ later)) p.source := by
  refine ⟨fun events c hc => ?_, fun events hcalm => ?_⟩
  · have h : c.WellFormed := wellFormed_run wellFormed_initial events c hc
    exact ⟨h.bounded, h.distinct⟩
  · have hsound := sound_run sound_initial hcalm
    refine ⟨fun key hkey later hreset source => not_compile_work_of_failedKey hsound hkey hreset,
      fun source hfailed later hreset key =>
        not_compile_work_of_failedBackedge hsound.wellFormed hfailed hreset,
      fun p hp event source => not_compile_of_pending hsound hp event, ?_⟩
    intro index p compiled hp hcached hskips hregistered later hreset hcache
    have hrun : run targetOf initial (events ++ [.finish index true]) =
        (step targetOf (run targetOf initial events) (.finish index true)).1 := by
      rw [run, foldl_append]
      rfl
    have hsettled := settled_finish hsound hp hcached hskips hregistered
    rw [← hrun] at hsettled
    obtain hnone | ⟨-, hone, hmarked⟩ := hsettled.lookup_work hreset hcache
    · exact .inl hnone
    · refine .inr ⟨hone, ?_⟩
      rw [run, foldl_append]
      exact hmarked

/-- A call for the back edge at five, by a function with one pair of globals and builtins. -/
def sampleCall : Call := ⟨5, ⟨1, 2⟩, true, true, true, none, true⟩

def sampleCompilation : List Event := [.tryOSR sampleCall, .cached ⟨1, 2⟩ (some ⟨[], true⟩)]

theorem no_repeated_work_registered :
    (work id (run id initial (.register 5 true :: sampleCompilation ++ [.finish 0 true]))
        [.tryOSR sampleCall, .tryOSR sampleCall]).count (.lookup 5 ⟨1, 2⟩) = 0 ∨
      (work id (run id initial (.register 5 true :: sampleCompilation ++ [.finish 0 true]))
          [.tryOSR sampleCall, .tryOSR sampleCall]).count (.lookup 5 ⟨1, 2⟩) = 1 ∧
        FailedBackedge (run id initial (.register 5 true :: sampleCompilation ++
          [.finish 0 true] ++ [.tryOSR sampleCall, .tryOSR sampleCall])) 5 :=
  ((no_repeated_work id).2 (.register 5 true :: sampleCompilation)
      (by simp [Calm, sampleCompilation])).2.2.2 0 ⟨0, 5, ⟨1, 2⟩⟩ ⟨[], true⟩ (by decide) rfl
    ⟨rfl, rfl⟩ ⟨_, rfl, rfl⟩ [.tryOSR sampleCall, .tryOSR sampleCall] (by simp)
    fun found hfound => by simp at hfound

/-- A back edge without an entry in the table is not marked, and is looked up at every call. -/
theorem unregistered_lookedUp_again :
    (work id (run id initial (sampleCompilation ++ [.finish 0 true]))
        [.tryOSR sampleCall, .tryOSR sampleCall]).count (.lookup 5 ⟨1, 2⟩) = 2 ∧
      ¬ FailedBackedge (run id initial (sampleCompilation ++ [.finish 0 true] ++
        [.tryOSR sampleCall, .tryOSR sampleCall])) 5 := by
  refine ⟨by decide, ?_⟩
  rintro ⟨c, hc, hfailed⟩
  cases hc
  exact absurd hfailed (by decide)

end Runs

end CinderX.Jit.Osr
