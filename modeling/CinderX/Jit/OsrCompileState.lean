import CinderX.Foundation.Basic

/-!
# Compile states of a code object

`Ci_OSR_TryOSR` is called for a back edge that has become hot.  It consults two
tables of the code object: one entry for each back edge, and one compile state
for each pair of globals and builtins.  A compilation runs arbitrary code, so a
call that compiles is split into its start and its finish, and other calls may
stand between these.
-/

namespace CinderX.Jit.Osr

open List

structure Key where
  builtinsId : Nat
  globalsId : Nat
  deriving DecidableEq

inductive BackedgeState where
  | counting
  | failedPermanent
  deriving DecidableEq

structure BackedgeEntry where
  sourceIndex : Nat
  targetIndex : Nat
  count : Nat
  state : BackedgeState
  deriving DecidableEq

inductive CompileState where
  | idle
  | compiling
  | compiled
  | failedPermanent
  deriving DecidableEq

structure OSRCompileState where
  state : CompileState
  key : Key
  deriving DecidableEq

/-- `entries` are the first `num_entries`; of `compileStates`, the first `numCompileStates` are
in use. -/
structure BackedgeCounters where
  entries : List BackedgeEntry
  numCompileStates : Nat
  compileStates : List OSRCompileState
  deriving DecidableEq

structure CompiledFunction where
  targets : List Nat
  osrAware : Bool
  deriving DecidableEq

section Tables

def maxBackedges : Nat := 16

def maxCompileKeys : Nat := 4

def OSRCompileState.zero : OSRCompileState := ⟨.idle, 0, 0⟩

def BackedgeCounters.zero : BackedgeCounters :=
  ⟨[], 0, replicate maxCompileKeys .zero⟩

namespace BackedgeCounters

variable (counters : BackedgeCounters)

def used : List OSRCompileState := counters.compileStates.take counters.numCompileStates

def getOSRCompileState (key : Key) : Option Nat :=
  counters.used.findIdx? fun state => state.key = key

def stateOf (key : Key) : Option CompileState :=
  (counters.getOSRCompileState key).bind fun slot =>
    counters.compileStates[slot]?.map OSRCompileState.state

def getOrCreateOSRCompileState (key : Key) : BackedgeCounters × Option Nat :=
  match counters.getOSRCompileState key with
  | some slot => (counters, some slot)
  | none =>
    if counters.numCompileStates ≥ maxCompileKeys then (counters, none)
    else
      ({ counters with
          compileStates := counters.compileStates.set counters.numCompileStates ⟨.idle, key⟩
          numCompileStates := counters.numCompileStates + 1 },
        some counters.numCompileStates)

def setState (slot : Nat) (state : CompileState) : BackedgeCounters :=
  { counters with
    compileStates := counters.compileStates.modify slot fun cs => { cs with state } }

def entryOf (source : Nat) : Option BackedgeEntry :=
  counters.entries.find? fun entry => entry.sourceIndex = source

def isFailedPermanentPerCode (source : Nat) : Bool :=
  match counters.entryOf source with
  | some entry => entry.state = .failedPermanent
  | none => false

def markEntry (source : Nat) : List BackedgeEntry → List BackedgeEntry
  | [] => []
  | entry :: entries =>
    if entry.sourceIndex = source then { entry with state := .failedPermanent } :: entries
    else entry :: markEntry source entries

def markFailedPermanentPerCode (source : Nat) : BackedgeCounters :=
  { counters with entries := markEntry source counters.entries }

/-- The interpreter calls it before every `Ci_OSR_TryOSR`, and goes on only with an entry. -/
def findOrCreateBackedgeEntry (source target : Nat) : BackedgeCounters :=
  if (counters.entryOf source).isSome then counters
  else if counters.entries.length ≥ maxBackedges then counters
  else { counters with entries := counters.entries ++ [⟨source, target, 0, .counting⟩] }

def clear : BackedgeCounters :=
  { entries := counters.entries.map fun entry => { entry with count := 0, state := .counting }
    numCompileStates := 0
    compileStates := replicate maxCompileKeys .zero }

end BackedgeCounters

end Tables

/-- A call, and what is answered in it: whether the frame has a function, whether the tables can be
allocated, whether there is a context, what the cache holds after `uncompile`, and the budget. -/
structure Call where
  source : Nat
  key : Key
  isFunction : Bool
  allocates : Bool
  hasContext : Bool
  uncompiled : Option CompiledFunction
  budget : Bool
  deriving DecidableEq

/-- A compilation in progress; `slot` is the pointer `cs`. -/
structure Pending where
  slot : Nat
  source : Nat
  key : Key
  deriving DecidableEq

structure State where
  counters : Option BackedgeCounters
  cache : Key → Option CompiledFunction
  pending : List Pending

/-- `finish` ends a compilation in progress, and `cached` is a change of the cache by others, the
publication of compiled code included. -/
inductive Event where
  | tryOSR (call : Call)
  | finish (index : Nat) (ok : Bool)
  | register (source : Nat) (allocates : Bool)
  | reset
  | cached (key : Key) (compiled : Option CompiledFunction)
  deriving DecidableEq

inductive Effect where
  | lookup (source : Nat) (key : Key)
  | compile (source : Nat) (key : Key)
  | perform (source : Nat) (key : Key)
  deriving DecidableEq

section Steps

-- The loop header of a back edge, as `Ci_OSR_ComputeJumpTargetIndex` finds it in the code.
variable (targetOf : Nat → Nat)

def initial : State := ⟨none, fun _ => none, []⟩

def getOrCreate (counters : Option BackedgeCounters) (allocates : Bool) :
    Option BackedgeCounters :=
  match counters with
  | some counters => some counters
  | none => if allocates then some .zero else none

def CompiledFunction.hasEntry (compiled : CompiledFunction) (source : Nat) : Bool :=
  targetOf source ∈ compiled.targets

def startCompile (s : State) (counters : BackedgeCounters) (call : Call) :
    State × List Effect :=
  match counters.getOrCreateOSRCompileState call.key with
  | (counters, none) =>
    ({ s with counters := some (counters.markFailedPermanentPerCode call.source) }, [])
  | (counters, some slot) =>
    if call.budget then
      ({ s with
          counters := some (counters.setState slot .compiling)
          pending := ⟨slot, call.source, call.key⟩ :: s.pending },
        [.compile call.source call.key])
    else ({ s with counters := some (counters.markFailedPermanentPerCode call.source) }, [])

def cacheLookup (s : State) (counters : BackedgeCounters) (call : Call) :
    State × List Effect :=
  if call.hasContext then
    let looked := Effect.lookup call.source call.key
    match s.cache call.key with
    | some compiled =>
      if compiled.hasEntry targetOf call.source then
        (s, [looked, .perform call.source call.key])
      else if compiled.osrAware then
        ({ s with counters := some (counters.markFailedPermanentPerCode call.source) }, [looked])
      else
        let s := { s with cache := Function.update s.cache call.key call.uncompiled }
        ((startCompile s counters call).1, looked :: (startCompile s counters call).2)
    | none => ((startCompile s counters call).1, looked :: (startCompile s counters call).2)
  else (s, [])

/-- `Ci_OSR_TryOSR`, up to the end or to the start of a compilation. -/
def tryOSR (s : State) (call : Call) : State × List Effect :=
  if call.isFunction then
    match getOrCreate s.counters call.allocates with
    | none => (s, [])
    | some counters =>
      let s := { s with counters := some counters }
      if counters.isFailedPermanentPerCode call.source then (s, [])
      else
        match counters.stateOf call.key with
        | some .failedPermanent => (s, [])
        | some .compiling => (s, [])
        | _ => cacheLookup targetOf s counters call
  else (s, [])

def finishCompile (s : State) (p : Pending) (ok : Bool) : State × List Effect :=
  let set := fun state => { s with counters := s.counters.map (·.setState p.slot state) }
  if ok then
    let entered := (s.cache p.key).any fun compiled => compiled.hasEntry targetOf p.source
    (set .compiled,
      .lookup p.source p.key :: if entered then [.perform p.source p.key] else [])
  else (set .failedPermanent, [])

def step (s : State) : Event → State × List Effect
  | .tryOSR call => tryOSR targetOf s call
  | .finish index ok =>
    match s.pending[index]? with
    | some p => finishCompile targetOf { s with pending := s.pending.eraseIdx index } p ok
    | none => (s, [])
  | .register source allocates =>
    ({ s with
        counters := (getOrCreate s.counters allocates).map
          (·.findOrCreateBackedgeEntry source (targetOf source)) }, [])
  | .reset => ({ s with counters := s.counters.map (·.clear) }, [])
  | .cached key compiled => ({ s with cache := Function.update s.cache key compiled }, [])

def run (s : State) (events : List Event) : State :=
  events.foldl (fun s event => (step targetOf s event).1) s

def work (s : State) : List Event → List Effect
  | [] => []
  | event :: events => (step targetOf s event).2 ++ work (step targetOf s event).1 events

def Calm (s : State) : List Event → Prop
  | [] => True
  | event :: events =>
    (event = .reset → s.pending = []) ∧ Calm (step targetOf s event).1 events

end Steps

section Maps

namespace BackedgeCounters

variable {counters : BackedgeCounters} {key other : Key} {slot source : Nat}

def keys (counters : BackedgeCounters) : List Key := counters.used.map OSRCompileState.key

structure WellFormed (counters : BackedgeCounters) : Prop where
  slots : counters.compileStates.length = maxCompileKeys
  bounded : counters.numCompileStates ≤ maxCompileKeys
  distinct : counters.keys.Nodup

theorem getOSRCompileState_eq (counters : BackedgeCounters) (key : Key) :
    counters.getOSRCompileState key = counters.keys.findIdx? (· = key) := by
  rw [keys, findIdx?_map]
  rfl

theorem length_used (h : counters.WellFormed) :
    counters.used.length = counters.numCompileStates := by
  rw [used, length_take, h.slots, Nat.min_eq_left h.bounded]

theorem eq_of_getOSRCompileState (h : counters.getOSRCompileState key = some slot)
    (h' : counters.getOSRCompileState other = some slot) : key = other := by
  rw [getOSRCompileState_eq, findIdx?_eq_some_iff_getElem] at h h'
  obtain ⟨_, hkey, -⟩ := h
  obtain ⟨_, hother, -⟩ := h'
  exact (of_decide_eq_true hkey).symm.trans (of_decide_eq_true hother)

theorem slot_lt (h : counters.getOSRCompileState key = some slot) :
    slot < counters.compileStates.length := by
  rw [getOSRCompileState, findIdx?_eq_some_iff_getElem] at h
  obtain ⟨hlt, -⟩ := h
  rw [used, length_take] at hlt
  omega

@[simp] theorem keys_setState (slot : Nat) (state : CompileState) :
    (counters.setState slot state).keys = counters.keys := by
  apply ext_getElem?
  intro i
  simp only [keys, used, setState, getElem?_map, getElem?_take, getElem?_modify]
  split
  · rw [Option.map_eq_map, Option.map_map]
    congr 1
    funext cs
    simp only [Function.comp_apply]
    split <;> rfl
  · rfl

@[simp] theorem getOSRCompileState_setState (slot : Nat) (state : CompileState) (key : Key) :
    (counters.setState slot state).getOSRCompileState key = counters.getOSRCompileState key := by
  rw [getOSRCompileState_eq, getOSRCompileState_eq, keys_setState]

theorem stateOf_setState (state : CompileState) (h : counters.getOSRCompileState key = some slot) :
    (counters.setState slot state).stateOf key = some state := by
  rw [stateOf, getOSRCompileState_setState, h, Option.bind_some, setState,
    getElem?_modify_eq, getElem?_eq_getElem (slot_lt h)]
  rfl

theorem stateOf_setState_of_ne (state : CompileState)
    (h : counters.getOSRCompileState key ≠ some slot) :
    (counters.setState slot state).stateOf key = counters.stateOf key := by
  rw [stateOf, stateOf, getOSRCompileState_setState]
  cases hkey : counters.getOSRCompileState key with
  | none => rfl
  | some slot' =>
    have hne : slot ≠ slot' := fun heq => h (by rw [hkey, heq])
    have hget : (counters.setState slot state).compileStates[slot']? =
        counters.compileStates[slot']? := by
      simp only [setState, getElem?_modify, if_neg hne]
      cases counters.compileStates[slot']? <;> rfl
    rw [Option.bind_some, Option.bind_some, hget]

theorem WellFormed.setState (h : counters.WellFormed) (slot : Nat) (state : CompileState) :
    (counters.setState slot state).WellFormed := by
  refine ⟨?_, h.bounded, ?_⟩
  · rw [BackedgeCounters.setState, length_modify]
    exact h.slots
  · rw [keys_setState]
    exact h.distinct

theorem keys_create (h : counters.WellFormed)
    (hfull : ¬ counters.numCompileStates ≥ maxCompileKeys) :
    BackedgeCounters.keys { counters with
        compileStates := counters.compileStates.set counters.numCompileStates ⟨.idle, key⟩
        numCompileStates := counters.numCompileStates + 1 } =
      counters.keys ++ [key] := by
  have hlt : counters.numCompileStates < counters.compileStates.length := by
    rw [h.slots]
    omega
  rw [keys, keys, used, used, take_add_one, take_set_of_le (Nat.le_refl _),
    getElem?_set_self hlt]
  simp

structure Takes (counters : BackedgeCounters) (key : Key) (slot : Nat)
    (after : BackedgeCounters) : Prop where
  wellFormed : after.WellFormed
  found : after.getOSRCompileState key = some slot
  same : counters.getOSRCompileState key ≠ none → after = counters
  entries : after.entries = counters.entries
  others : ∀ other ≠ key, after.getOSRCompileState other = counters.getOSRCompileState other
  states : ∀ other ≠ key, after.stateOf other = counters.stateOf other

theorem getOrCreate_some (h : counters.WellFormed) {after : BackedgeCounters}
    (hslot : counters.getOrCreateOSRCompileState key = (after, some slot)) :
    counters.Takes key slot after := by
  unfold getOrCreateOSRCompileState at hslot
  split at hslot
  next found hfound =>
    cases hslot
    exact ⟨h, hfound, fun _ => rfl, rfl, fun _ _ => rfl, fun _ _ => rfl⟩
  next hnone =>
    split at hslot
    · cases hslot
    next hfull =>
      cases hslot
      have hlength : counters.keys.length = counters.numCompileStates := by
        rw [keys, length_map, length_used h]
      have habsent : key ∉ counters.keys := by
        rw [getOSRCompileState_eq, findIdx?_eq_none_iff] at hnone
        exact fun hmem => by simpa using hnone key hmem
      have hothers : ∀ other ≠ key, BackedgeCounters.getOSRCompileState { counters with
          compileStates := counters.compileStates.set counters.numCompileStates ⟨.idle, key⟩
          numCompileStates := counters.numCompileStates + 1 } other =
            counters.getOSRCompileState other := by
        intro other hne
        rw [getOSRCompileState_eq, keys_create h hfull, findIdx?_append,
          getOSRCompileState_eq]
        simp [Ne.symm hne]
      constructor
      · refine ⟨by rw [length_set, h.slots], Nat.lt_of_not_le hfull, ?_⟩
        rw [keys_create h hfull]
        exact nodup_append.2 ⟨h.distinct, nodup_singleton key, fun a ha b hb hab => by
          rw [mem_singleton.1 hb] at hab
          exact habsent (hab ▸ ha)⟩
      · rw [getOSRCompileState_eq, keys_create h hfull, findIdx?_append,
          ← getOSRCompileState_eq, hnone, ← hlength]
        simp
      · exact fun hsome => absurd hnone hsome
      · rfl
      · exact hothers
      · intro other hne
        rw [stateOf, stateOf, hothers other hne]
        cases hother : counters.getOSRCompileState other with
        | none => rfl
        | some slot' =>
          have hlt : slot' < counters.numCompileStates := by
            rw [getOSRCompileState, findIdx?_eq_some_iff_getElem] at hother
            obtain ⟨hlt, -⟩ := hother
            rwa [length_used h] at hlt
          simp [getElem?_set_ne (Nat.ne_of_gt hlt)]

theorem getOrCreate_none {after : BackedgeCounters}
    (hslot : counters.getOrCreateOSRCompileState key = (after, none)) : after = counters := by
  unfold getOrCreateOSRCompileState at hslot
  split at hslot
  · cases hslot
  · split at hslot
    · cases hslot
      rfl
    · cases hslot

theorem find?_markEntry (source marked : Nat) (entries : List BackedgeEntry) :
    (markEntry marked entries).find? (fun entry => entry.sourceIndex = source) =
      (entries.find? fun entry => entry.sourceIndex = source).map fun entry =>
        if source = marked then { entry with state := .failedPermanent } else entry := by
  induction entries with
  | nil => rfl
  | cons entry entries ih =>
    by_cases hmarked : entry.sourceIndex = marked
    · by_cases hsource : entry.sourceIndex = source
      · simp [markEntry, hmarked, ← hsource]
      · have hne : ¬ source = marked := fun heq => hsource (hmarked.trans heq.symm)
        have hne' : ¬ marked = source := fun heq => hne heq.symm
        simp [markEntry, hmarked, hne, hne']
    · by_cases hsource : entry.sourceIndex = source
      · have hne : ¬ source = marked := fun heq => hmarked (hsource.trans heq)
        simp [markEntry, hsource, hne]
      · simp [markEntry, hmarked, hsource, ih]

theorem entryOf_mark (source marked : Nat) :
    (counters.markFailedPermanentPerCode marked).entryOf source =
      (counters.entryOf source).map fun entry =>
        if source = marked then { entry with state := .failedPermanent } else entry :=
  find?_markEntry source marked counters.entries

theorem isFailed_iff : counters.isFailedPermanentPerCode source = true ↔
    ∃ entry, counters.entryOf source = some entry ∧ entry.state = .failedPermanent := by
  unfold isFailedPermanentPerCode
  cases counters.entryOf source with
  | none => simp
  | some entry => simp

theorem isFailed_mark (h : counters.isFailedPermanentPerCode source = true) (marked : Nat) :
    (counters.markFailedPermanentPerCode marked).isFailedPermanentPerCode source = true := by
  obtain ⟨entry, hentry, hstate⟩ := isFailed_iff.1 h
  refine isFailed_iff.2 ⟨_, by rw [entryOf_mark, hentry]; rfl, ?_⟩
  split
  · rfl
  · exact hstate

theorem isFailed_mark_self (h : (counters.entryOf source).isSome = true) :
    (counters.markFailedPermanentPerCode source).isFailedPermanentPerCode source = true := by
  obtain ⟨entry, hentry⟩ := Option.isSome_iff_exists.1 h
  exact isFailed_iff.2 ⟨_, by rw [entryOf_mark, hentry]; rfl, by simp⟩

theorem entryOf_register {entry : BackedgeEntry} (h : counters.entryOf source = some entry)
    (other target : Nat) :
    (counters.findOrCreateBackedgeEntry other target).entryOf source = some entry := by
  unfold findOrCreateBackedgeEntry
  split
  · exact h
  · split
    · exact h
    · rw [entryOf, find?_append]
      exact congrArg (Option.or · _) h

variable (counters) in
theorem register_states (source target : Nat) :
    (counters.findOrCreateBackedgeEntry source target).compileStates = counters.compileStates ∧
      (counters.findOrCreateBackedgeEntry source target).numCompileStates =
        counters.numCompileStates := by
  unfold findOrCreateBackedgeEntry
  split
  · exact ⟨rfl, rfl⟩
  · split <;> exact ⟨rfl, rfl⟩

end BackedgeCounters

end Maps

end CinderX.Jit.Osr
