import CinderX.Foundation.Basic

/-!
# Entering compiled code in a loop

`performOSR` hands the frame of an interpreter over to compiled code.  The slots
that the code takes over are left to its entry stub; the others are taken out of
the frame before the stub is called, and released behind it.  A finalizer may do
anything, so what is released is a list of calls.
-/

namespace CinderX.Jit.Osr

open List

/-- A slot of a frame; a reference that is not counted is borrowed. -/
inductive StackRef (Object : Type) where
  | null
  | ref (object : Object) (counted : Bool)
  deriving DecidableEq

def StackRef.object? {Object : Type} : StackRef Object → Option Object
  | null => none
  | ref object _ => some object

def StackRef.borrowed? {Object : Type} : StackRef Object → Option Object
  | ref object false => some object
  | _ => none

/-- `instrPtr` counts code units from the start of the code, and `stackpointer` counts slots
from the start of `localsplus`.  The operand stack behind these is not read. -/
structure Frame (Object : Type) where
  instrPtr : Nat
  localsplus : List (StackRef Object)
  stackpointer : Nat

def Frame.nlocalsplus {Object : Type} (frame : Frame Object) : Nat := frame.localsplus.length

def Frame.stackbase {Object : Type} (frame : Frame Object) : Nat := frame.nlocalsplus

structure OSRMetadata where
  targetOffset : Nat
  /-- `localsplus_index` of every live-in. -/
  liveIns : List Int
  entryPointOffset : Int

/-- The reference counts, and the exception that the thread has raised. -/
structure World (Object Error : Type) where
  refs : Object → Int
  raised : Option Error

/-- What is called: the code at an offset, the finalizers, and the allocations of the two
vectors. -/
structure Runtime (Object Error : Type) where
  entryFn : Nat → Frame Object → World Object Error →
    Option Object × Frame Object × World Object Error
  finalize : Object → World Object Error → World Object Error
  resizesLiveInSet : Nat → Bool
  resizesDeferred : Nat → Bool

/-- `code` is the result; `outResult` is written for a result of one only. -/
structure Outcome (Object Error : Type) where
  code : Int
  frame : Frame Object
  world : World Object Error
  outResult : Option Object

section Model

variable {Object Error : Type} [DecidableEq Object] (rt : Runtime Object Error)

def sizeofCodeUnit : Nat := 2

def OSRMetadata.entryPoint (osrMeta : OSRMetadata) (codeSize : Nat) : Option Nat :=
  if osrMeta.entryPointOffset < 0 then none
  else if osrMeta.entryPointOffset.toNat ≥ codeSize then none
  else some osrMeta.entryPointOffset.toNat

def incref (world : World Object Error) (object : Object) : World Object Error :=
  { world with refs := Function.update world.refs object (world.refs object + 1) }

def decref (world : World Object Error) (object : Object) : World Object Error :=
  let world :=
    { world with refs := Function.update world.refs object (world.refs object - 1) }
  if world.refs object = 0 then rt.finalize object world else world

def xdecref (world : World Object Error) : Option Object → World Object Error
  | some object => decref rt world object
  | none => world

/-- Whether a live-in can be handed over; a negative index is in no slot. -/
def preflight (frame : Frame Object) (index : Int) : Bool :=
  if index ≥ 0 then
    index < frame.nlocalsplus && frame.localsplus[index.toNat]? ≠ some .null
  else true

def markLiveIn (marked : List Bool × Nat) (index : Int) : List Bool × Nat :=
  if index ≥ 0 ∧ index < marked.1.length then
    if marked.1[index.toNat]? = some true then marked
    else (marked.1.set index.toNat true, marked.2 + 1)
  else marked

/-- The state of the loop over the slots; `deferred` is the vector and `count` the number of
objects in it. -/
structure Collected (Object Error : Type) where
  localsplus : List (StackRef Object)
  deferred : List (Option Object)
  count : Nat
  world : World Object Error

/-- A read or a write behind the end of a vector has no result.  To steal a borrowed reference
makes a new one. -/
def collectSlot (isLiveIn : List Bool) (c : Collected Object Error) (i : Nat) :
    Option (Collected Object Error) := do
  if ← isLiveIn[i]? then return c
  match ← c.localsplus[i]? with
  | .null => return { c with localsplus := c.localsplus.set i .null }
  | .ref object counted =>
    if c.count < c.deferred.length then
      return { localsplus := c.localsplus.set i .null
               deferred := c.deferred.set c.count (some object)
               count := c.count + 1
               world := if counted then c.world else incref c.world object }
    else none

def enter (frame : Frame Object) (entry : Nat) (c : Collected Object Error) :
    Outcome Object Error :=
  let (result, frame, world) := rt.entryFn entry frame c.world
  let savedExc := if result.isNone then world.raised else none
  let world := if result.isNone then { world with raised := none } else world
  let world := (c.deferred.take c.count).foldl (xdecref rt) world
  let world := if savedExc.isSome then { world with raised := savedExc } else world
  ⟨if result.isSome then 1 else -1, frame, world, result⟩

def performOSR (world : World Object Error) (frame : Frame Object) (osrMeta : OSRMetadata)
    (codeSize : Nat) : Option (Outcome Object Error) :=
  let notAttempted := some ⟨0, frame, world, none⟩
  match osrMeta.entryPoint codeSize with
  | none => notAttempted
  | some entry =>
    if frame.stackpointer ≠ frame.stackbase then notAttempted
    else if !osrMeta.liveIns.all (preflight frame) then notAttempted
    else if !rt.resizesLiveInSet frame.nlocalsplus then notAttempted
    else
      let (isLiveIn, distinct) :=
        osrMeta.liveIns.foldl markLiveIn (replicate frame.nlocalsplus false, 0)
      let nonLiveIn := frame.nlocalsplus - distinct
      if nonLiveIn > 0 && !rt.resizesDeferred nonLiveIn then notAttempted
      else do
        let c ← (range frame.nlocalsplus).foldlM (collectSlot isLiveIn)
          ⟨frame.localsplus, replicate nonLiveIn none, 0, world⟩
        return enter rt
          { frame with
            instrPtr := osrMeta.targetOffset / sizeofCodeUnit
            localsplus := c.localsplus }
          entry c

end Model

/-! ## The slots -/

section Slots

variable {Object : Type} {liveIns : List Int} {n : Nat}

def transferred (liveIns : List Int) (i : Nat) : Bool := (i : Int) ∈ liveIns

/-- What the first `k` slots that are not taken over hold, of a kind. -/
def leftOf (hold : StackRef Object → Option Object) (localsplus : List (StackRef Object))
    (liveIns : List Int) (k : Nat) : List Object :=
  (range k).filterMap fun i =>
    if transferred liveIns i then none else localsplus[i]?.bind hold

def left (frame : Frame Object) (liveIns : List Int) : List Object :=
  leftOf StackRef.object? frame.localsplus liveIns frame.nlocalsplus

def borrowed (frame : Frame Object) (liveIns : List Int) : List Object :=
  leftOf StackRef.borrowed? frame.localsplus liveIns frame.nlocalsplus

def marks (n : Nat) (liveIns : List Int) : List Bool := (range n).map (transferred liveIns)

@[simp] theorem length_marks : (marks n liveIns).length = n := by
  rw [marks, length_map, length_range]

theorem getElem?_marks {i : Nat} (hi : i < n) :
    (marks n liveIns)[i]? = some (transferred liveIns i) := by
  rw [marks, getElem?_map, getElem?_range hi, Option.map_some]

theorem transferred_cons (index : Int) (i : Nat) :
    transferred (index :: liveIns) i = (decide ((i : Int) = index) || transferred liveIns i) := by
  simp [transferred]

theorem transferred_cons_self (k : Nat) : transferred ((k : Int) :: liveIns) k = true := by
  simp [transferred]

theorem transferred_cons_of_ne {index : Int} {i : Nat} (hne : (i : Int) ≠ index) :
    transferred (index :: liveIns) i = transferred liveIns i := by
  rw [transferred_cons, decide_eq_false hne, Bool.false_or]

theorem marks_cons_of_transferred {k : Nat} (hseen : transferred liveIns k = true) :
    marks n ((k : Int) :: liveIns) = marks n liveIns := by
  refine map_congr_left fun i _ => ?_
  by_cases hi : i = k
  · rw [hi, transferred_cons_self, hseen]
  · exact transferred_cons_of_ne (by omega)

theorem marks_cons (k : Nat) :
    marks n ((k : Int) :: liveIns) = (marks n liveIns).set k true := by
  apply ext_getElem?
  intro i
  by_cases hi : i < n
  · by_cases hik : i = k
    · have hk : k < (marks n liveIns).length := by rwa [length_marks, ← hik]
      rw [hik, getElem?_marks (hik ▸ hi), transferred_cons_self, getElem?_set_self hk]
    · rw [getElem?_marks hi, transferred_cons_of_ne (by omega),
        getElem?_set_ne (Ne.symm hik), getElem?_marks hi]
  · have hlength : ((marks n liveIns).set k true).length ≤ i := by
      rw [length_set, length_marks]
      exact Nat.le_of_not_lt hi
    rw [getElem?_eq_none hlength]
    exact getElem?_eq_none (by simpa using Nat.le_of_not_lt hi)

theorem markLiveIn_eq (seen : List Int) (index : Int) :
    markLiveIn (marks n seen, (marks n seen).count true) index =
      (marks n (index :: seen), (marks n (index :: seen)).count true) := by
  by_cases hin : index ≥ 0 ∧ index < n
  · obtain ⟨k, rfl⟩ := Int.eq_ofNat_of_zero_le hin.1
    have hk : k < (marks n seen).length := by
      rw [length_marks]
      omega
    have hget : (marks n seen)[k]? = some (transferred seen k) :=
      getElem?_marks (by simpa using hk)
    rw [markLiveIn, length_marks, if_pos hin, Int.toNat_natCast, hget]
    cases hseen : transferred seen k with
    | true => rw [if_pos rfl, marks_cons_of_transferred hseen]
    | false =>
      have hfalse : (marks n seen)[k] = false := by
        rw [getElem?_eq_getElem hk, hseen] at hget
        exact Option.some.inj hget
      rw [if_neg (by simp), marks_cons, count_set hk, hfalse]
      rfl
  · have hsame : marks n (index :: seen) = marks n seen := by
      refine map_congr_left fun i hi => transferred_cons_of_ne ?_
      have := mem_range.1 hi
      omega
    rw [markLiveIn, length_marks, if_neg hin, hsame]

theorem foldl_markLiveIn (liveIns : List Int) :
    liveIns.foldl markLiveIn (replicate n false, 0) =
      (marks n liveIns, (marks n liveIns).count true) := by
  have hfold : ∀ liveIns seen : List Int,
      liveIns.foldl markLiveIn (marks n seen, (marks n seen).count true) =
        (marks n (liveIns.reverse ++ seen), (marks n (liveIns.reverse ++ seen)).count true) := by
    intro liveIns
    induction liveIns with
    | nil => exact fun _ => rfl
    | cons index rest ih =>
      intro seen
      rw [foldl_cons, markLiveIn_eq, ih, reverse_cons, append_assoc]
      rfl
  have hnone : marks n [] = replicate n false := by
    rw [eq_replicate_iff]
    simp [marks, transferred]
  have hsame : marks n (liveIns.reverse ++ []) = marks n liveIns := by
    refine map_congr_left fun i _ => ?_
    simp [transferred]
  have hzero : (replicate n false).count true = 0 := by
    simp [count_replicate]
  have h := hfold liveIns []
  rwa [hnone, hzero, hsame] at h

theorem leftOf_succ (hold : StackRef Object → Option Object)
    (localsplus : List (StackRef Object)) (k : Nat) :
    leftOf hold localsplus liveIns (k + 1) =
      leftOf hold localsplus liveIns k ++
        (if transferred liveIns k then none else localsplus[k]?.bind hold).toList := by
  rw [leftOf, leftOf, range_succ, filterMap_append]
  rfl

theorem length_leftOf_le (hold : StackRef Object → Option Object)
    (localsplus : List (StackRef Object)) (k : Nat) :
    (leftOf hold localsplus liveIns k).length ≤
      (range k).countP fun i => !transferred liveIns i := by
  induction k with
  | zero => exact Nat.le_refl 0
  | succ k ih =>
    rw [leftOf_succ, length_append, range_succ, countP_append,
      countP_singleton]
    cases transferred liveIns k with
    | true => exact Nat.add_le_add ih (Nat.zero_le 0)
    | false => exact Nat.add_le_add ih (Option.length_toList_le)

theorem countP_not_transferred (n : Nat) :
    ((range n).countP fun i => !transferred liveIns i) =
      n - (marks n liveIns).count true := by
  have hsum : (range n).length = (range n).countP (transferred liveIns) +
      (range n).countP fun i => decide ¬transferred liveIns i = true :=
    length_eq_countP_add_countP (transferred liveIns)
  have hcount : (marks n liveIns).count true = (range n).countP (transferred liveIns) := by
    rw [marks, List.count, countP_map]
    congr 1
    funext i
    simp
  rw [length_range] at hsum
  rw [hcount]
  simp only [Bool.not_eq_true, Bool.decide_eq_false] at hsum
  omega

/-- The slots of a frame after the first `k` have been visited. -/
def handedOver (localsplus : List (StackRef Object)) (liveIns : List Int) (k : Nat) :
    List (StackRef Object) :=
  localsplus.mapIdx fun i slot => if i < k ∧ transferred liveIns i = false then .null else slot

theorem handedOver_succ (localsplus : List (StackRef Object)) (k : Nat) :
    handedOver localsplus liveIns (k + 1) =
      if transferred liveIns k then handedOver localsplus liveIns k
      else (handedOver localsplus liveIns k).set k .null := by
  apply ext_getElem?
  intro i
  cases hk : transferred liveIns k with
  | true =>
    rw [if_pos rfl, handedOver, handedOver, getElem?_mapIdx, getElem?_mapIdx]
    by_cases hi : i = k
    · simp [hi, hk]
    · have hlt : i < k + 1 ↔ i < k := by omega
      simp only [hlt]
  | false =>
    rw [if_neg (by simp), getElem?_set, handedOver, handedOver, getElem?_mapIdx,
      getElem?_mapIdx]
    by_cases hi : k = i
    · subst hi
      by_cases hin : k < localsplus.length
      · simp [hk, hin]
      · simp [hin]
    · have hlt : i < k + 1 ↔ i < k := by omega
      simp only [hlt, if_neg hi]

theorem getElem?_handedOver (localsplus : List (StackRef Object)) (k : Nat) :
    (handedOver localsplus liveIns k)[k]? = localsplus[k]? := by
  rw [handedOver, getElem?_mapIdx]
  cases localsplus[k]? <;> simp

end Slots

section Loop

variable {Object Error : Type} [DecidableEq Object] {frame : Frame Object} {liveIns : List Int}
  {world : World Object Error} {c : Collected Object Error} {k : Nat}

variable (frame liveIns world) in
/-- The loop has visited the first `k` slots, and has room for the others. -/
structure Collects (room k : Nat) (c : Collected Object Error) : Prop where
  slots : c.localsplus = handedOver frame.localsplus liveIns k
  stolen : c.deferred.take c.count =
    (leftOf StackRef.object? frame.localsplus liveIns k).map some
  count : c.count = (leftOf StackRef.object? frame.localsplus liveIns k).length
  deferred : c.deferred.length = room
  world : c.world = (leftOf StackRef.borrowed? frame.localsplus liveIns k).foldl incref world

theorem collectSlot_collects {n room : Nat} (hc : Collects frame liveIns world room k c)
    (hk : k < n) (hslot : k < frame.localsplus.length)
    (hroom : (leftOf StackRef.object? frame.localsplus liveIns (k + 1)).length ≤ room) :
    ∃ c', collectSlot (marks n liveIns) c k = some c' ∧
      Collects frame liveIns world room (k + 1) c' := by
  have hread : c.localsplus[k]? = some frame.localsplus[k] := by
    rw [hc.slots, getElem?_handedOver, getElem?_eq_getElem hslot]
  have hget : frame.localsplus[k]? = some frame.localsplus[k] := getElem?_eq_getElem hslot
  rw [leftOf_succ, hget] at hroom
  simp only [collectSlot, getElem?_marks hk, hread, Option.bind_eq_bind, Option.bind_some]
  cases hkept : transferred liveIns k with
  | true =>
    refine ⟨c, by simp, ?_⟩
    constructor
    · rw [handedOver_succ, if_pos hkept, hc.slots]
    · simpa [leftOf_succ, hkept] using hc.stolen
    · simpa [leftOf_succ, hkept] using hc.count
    · exact hc.deferred
    · simpa [leftOf_succ, hkept] using hc.world
  | false =>
    have hslots : c.localsplus.set k .null = handedOver frame.localsplus liveIns (k + 1) := by
      rw [handedOver_succ, hkept, if_neg (by simp), hc.slots]
    cases hheld : frame.localsplus[k] with
    | null =>
      refine ⟨{ c with localsplus := c.localsplus.set k .null }, by simp, ?_⟩
      constructor
      · exact hslots
      · simpa [leftOf_succ, hkept, hget, hheld, StackRef.object?] using hc.stolen
      · simpa [leftOf_succ, hkept, hget, hheld, StackRef.object?] using hc.count
      · exact hc.deferred
      · simpa [leftOf_succ, hkept, hget, hheld, StackRef.borrowed?] using hc.world
    | ref object counted =>
      have hfree : c.count < c.deferred.length := by
        rw [hc.count, hc.deferred]
        simp [hkept, hheld, StackRef.object?] at hroom
        omega
      simp only [Bool.false_eq_true, if_false, if_pos hfree]
      refine ⟨_, rfl, ?_⟩
      constructor
      · exact hslots
      · rw [leftOf_succ, hkept, hget, hheld, take_add_one, take_set_of_le (Nat.le_refl _),
          hc.stolen]
        simp [hfree, StackRef.object?]
      · simp [leftOf_succ, hkept, hget, hheld, StackRef.object?, hc.count]
      · rw [length_set, hc.deferred]
      · rw [leftOf_succ, hkept, hget, hheld]
        cases counted <;> simp [StackRef.borrowed?, hc.world]

variable (world) in
theorem foldlM_collectSlot {n room : Nat} (hn : n ≤ frame.nlocalsplus)
    (hroom : ((range n).countP fun i => !transferred liveIns i) ≤ room) :
    ∃ c, (range n).foldlM (collectSlot (marks n liveIns))
        ⟨frame.localsplus, replicate room none, 0, world⟩ = some c ∧
      Collects frame liveIns world room n c := by
  have hrun : ∀ k ≤ n, ∃ c, (range k).foldlM (collectSlot (marks n liveIns))
        ⟨frame.localsplus, replicate room none, 0, world⟩ = some c ∧
      Collects frame liveIns world room k c := by
    intro k
    induction k with
    | zero =>
      intro _
      refine ⟨_, rfl, ?_, ?_, ?_, ?_, ?_⟩
      · apply ext_getElem?
        simp [handedOver]
      · simp [leftOf]
      · simp [leftOf]
      · exact length_replicate
      · simp [leftOf]
    | succ k ih =>
      intro hk
      obtain ⟨c, hfold, hc⟩ := ih (Nat.le_of_succ_le hk)
      have hfits : (leftOf StackRef.object? frame.localsplus liveIns (k + 1)).length ≤ room :=
        calc _ ≤ (range (k + 1)).countP fun i => !transferred liveIns i :=
              length_leftOf_le StackRef.object? frame.localsplus (k + 1)
          _ ≤ (range n).countP fun i => !transferred liveIns i :=
              (range_sublist.2 hk).countP_le
          _ ≤ room := hroom
      obtain ⟨c', hstep, hc'⟩ := collectSlot_collects hc hk (Nat.lt_of_lt_of_le hk hn) hfits
      refine ⟨c', ?_, hc'⟩
      rw [range_succ, foldlM_append, hfold]
      simp [hstep]
  exact hrun n (Nat.le_refl n)

end Loop

/-! ## The call -/

section Call

variable {Object Error : Type} [DecidableEq Object] {rt : Runtime Object Error}

/-- The stub keeps to the calling convention: a result comes without an exception. -/
def Runtime.Returns (rt : Runtime Object Error) : Prop :=
  ∀ entry frame world, (rt.entryFn entry frame world).1.isSome →
    (rt.entryFn entry frame world).2.2.raised = none

def putAside (stub : Option Object × Frame Object × World Object Error) : World Object Error :=
  if stub.1.isNone then { stub.2.2 with raised := none } else stub.2.2

variable (rt) (world : World Object Error) (frame : Frame Object) (osrMeta : OSRMetadata) in
/-- A call that has committed itself: the stub has been called on the frame `handed` in the state
`before`, and what was left to the caller has been released behind it. -/
structure Entered (entry : Nat) (handed : Frame Object) (before : World Object Error)
    (outcome : Outcome Object Error) : Prop where
  code : outcome.code = if outcome.outResult.isSome then 1 else -1
  instrPtr : handed.instrPtr = osrMeta.targetOffset / sizeofCodeUnit
  stackpointer : handed.stackpointer = frame.stackpointer
  nlocalsplus : handed.nlocalsplus = frame.nlocalsplus
  /-- A slot is transferred as it was, or holds nothing any more. -/
  slots : ∀ i < frame.nlocalsplus, handed.localsplus[i]? =
    if transferred osrMeta.liveIns i then frame.localsplus[i]? else some .null
  held : ∀ i < frame.nlocalsplus, transferred osrMeta.liveIns i = true →
    frame.localsplus[i]? ≠ some .null
  /-- Nothing is released before the stub, and what is borrowed is made owned. -/
  refs : ∀ object, before.refs object =
    world.refs object + (borrowed frame osrMeta.liveIns).count object
  raised : before.raised = world.raised
  result : outcome.outResult = (rt.entryFn entry handed before).1
  returned : outcome.frame = (rt.entryFn entry handed before).2.1
  /-- Each object of a slot that is not transferred is released once, behind the stub. -/
  released : outcome.world.refs = ((left frame osrMeta.liveIns).foldl (decref rt)
    (putAside (rt.entryFn entry handed before))).refs
  error : ∀ error, (rt.entryFn entry handed before).2.2.raised = some error →
    outcome.world.raised = some error

theorem foldl_xdecref (objects : List Object) (world : World Object Error) :
    (objects.map some).foldl (xdecref rt) world = objects.foldl (decref rt) world := by
  rw [foldl_map]
  rfl

omit [DecidableEq Object] in
theorem refs_restore (world : World Object Error) (raised : Option Error) :
    (if raised.isSome then { world with raised } else world).refs = world.refs := by
  split <;> rfl

theorem incref_foldl (objects : List Object) (world : World Object Error) :
    (objects.foldl incref world).raised = world.raised ∧
      ∀ object, (objects.foldl incref world).refs object =
        world.refs object + objects.count object := by
  induction objects generalizing world with
  | nil => exact ⟨rfl, fun _ => (Int.add_zero _).symm⟩
  | cons first rest ih =>
    obtain ⟨hraised, hrefs⟩ := ih (incref world first)
    refine ⟨hraised, fun object => ?_⟩
    rw [foldl_cons, hrefs, count_cons]
    by_cases hobject : first = object
    · subst hobject
      simp [incref, Int.add_assoc, Int.add_comm]
    · simp [incref, hobject, Ne.symm hobject]

theorem transferred_preflight {frame : Frame Object} {liveIns : List Int}
    (hall : liveIns.all (preflight frame) = true) {i : Nat}
    (hi : transferred liveIns i = true) : frame.localsplus[i]? ≠ some .null := by
  have hmem : (i : Int) ∈ liveIns := of_decide_eq_true hi
  have hcheck := List.all_eq_true.1 hall _ hmem
  rw [preflight, if_pos (Int.natCast_nonneg i), Bool.and_eq_true] at hcheck
  simpa using hcheck.2

theorem entered_enter (hstub : rt.Returns) {world : World Object Error} {frame : Frame Object}
    {osrMeta : OSRMetadata} (entry : Nat) {room : Nat} {c : Collected Object Error}
    (hall : osrMeta.liveIns.all (preflight frame) = true)
    (hc : Collects frame osrMeta.liveIns world room frame.nlocalsplus c) :
    Entered rt world frame osrMeta entry
      { frame with
        instrPtr := osrMeta.targetOffset / sizeofCodeUnit
        localsplus := c.localsplus }
      c.world
      (enter rt { frame with
        instrPtr := osrMeta.targetOffset / sizeofCodeUnit
        localsplus := c.localsplus } entry c) := by
  obtain ⟨hraised, hrefs⟩ := incref_foldl (borrowed frame osrMeta.liveIns) world
  have hworld : c.world = (borrowed frame osrMeta.liveIns).foldl incref world := hc.world
  constructor
  · rfl
  · rfl
  · rfl
  · rw [Frame.nlocalsplus, hc.slots, handedOver, length_mapIdx]
    rfl
  · intro i hi
    rw [hc.slots, handedOver, getElem?_mapIdx, getElem?_eq_getElem hi]
    cases htransferred : transferred osrMeta.liveIns i <;> simp [hi]
  · exact fun i _ => transferred_preflight hall
  · rwa [hworld]
  · rwa [hworld]
  · rfl
  · rfl
  · simp only [enter, hc.stolen, foldl_xdecref, refs_restore]
    rfl
  · intro error herror
    have hnone : (rt.entryFn entry { frame with
        instrPtr := osrMeta.targetOffset / sizeofCodeUnit
        localsplus := c.localsplus } c.world).1.isNone = true := by
      by_contra hsome
      rw [← Option.not_isSome, Bool.not_eq_true', Bool.not_eq_false] at hsome
      have hunraised := hstub entry _ c.world hsome
      rw [herror] at hunraised
      cases hunraised
    simp [enter, hnone, herror]

/-- Entering compiled code is all or nothing: a call that returns zero has changed nothing, and
every other call has transferred the live-ins to the stub and released the other slots behind
it, each once. -/
theorem performOSR_all_or_nothing (hstub : rt.Returns) (world : World Object Error)
    (frame : Frame Object) (osrMeta : OSRMetadata) (codeSize : Nat) :
    ∃ outcome, performOSR rt world frame osrMeta codeSize = some outcome ∧
      (outcome.code = 0 → outcome.frame = frame ∧ outcome.world = world) ∧
      (outcome.code ≠ 0 → ∃ entry handed before,
        Entered rt world frame osrMeta entry handed before outcome) := by
  have hunchanged : ∃ outcome : Outcome Object Error,
      some ⟨0, frame, world, none⟩ = some outcome ∧
      (outcome.code = 0 → outcome.frame = frame ∧ outcome.world = world) ∧
      (outcome.code ≠ 0 → ∃ entry handed before,
        Entered rt world frame osrMeta entry handed before outcome) :=
    ⟨_, rfl, fun _ => ⟨rfl, rfl⟩, fun hcode => absurd rfl hcode⟩
  unfold performOSR
  split
  · exact hunchanged
  next entry hentry =>
    split
    · exact hunchanged
    split
    · exact hunchanged
    next hall =>
      split
      · exact hunchanged
      rw [foldl_markLiveIn]
      simp only
      split
      · exact hunchanged
      have hroom : ((range frame.nlocalsplus).countP fun i => !transferred osrMeta.liveIns i) ≤
          frame.nlocalsplus - (marks frame.nlocalsplus osrMeta.liveIns).count true :=
        Nat.le_of_eq (countP_not_transferred frame.nlocalsplus)
      obtain ⟨c, hloop, hc⟩ := foldlM_collectSlot world (Nat.le_refl frame.nlocalsplus) hroom
      have hentered := entered_enter hstub entry (by simpa using hall) hc
      refine ⟨_, ?_, fun hcode => ?_, fun _ => ⟨entry, _, _, hentered⟩⟩
      · rw [hloop]
        rfl
      · rw [hentered.code] at hcode
        split at hcode <;> cases hcode

/-- A stub that raises, on a frame of four slots: the second is taken over, the third is borrowed
and the last holds nothing. -/
theorem performOSR_all_or_nothing_raises :
    ∃ outcome : Outcome Nat Nat, performOSR
        ⟨fun _ frame world => (none, frame, { world with raised := some 7 }),
          fun _ world => { world with raised := none }, fun _ => true, fun _ => true⟩
        ⟨fun _ => 1, none⟩
        ⟨0, [.ref 10 true, .ref 11 true, .ref 12 false, .null], 4⟩ ⟨6, [1, -1, 1], 16⟩ 32 =
          some outcome ∧
      outcome.code = -1 ∧ outcome.world.raised = some 7 := by
  obtain ⟨outcome, hcall, hzero, hentered⟩ := @performOSR_all_or_nothing Nat Nat _
    ⟨fun _ frame world => (none, frame, { world with raised := some 7 }),
      fun _ world => { world with raised := none }, fun _ => true, fun _ => true⟩
    (fun _ _ _ h => by cases h)
    (⟨fun _ => 1, none⟩ : World Nat Nat)
    ⟨0, [.ref 10 true, .ref 11 true, .ref 12 false, .null], 4⟩ ⟨6, [1, -1, 1], 16⟩ 32
  refine ⟨outcome, hcall, ?_⟩
  have hcode : outcome.code = -1 := by
    cases hcall
    decide
  obtain ⟨entry, handed, before, h⟩ := hentered (by rw [hcode]; decide)
  exact ⟨hcode, h.error 7 rfl⟩

end Call

end CinderX.Jit.Osr
