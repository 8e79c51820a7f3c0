import CinderX.Foundation.Census
import CinderX.Foundation.Transitions

/-!
# The marking phase of the workers

From the barrier before marking up to the barrier at which the main thread waits.
Every atomic operation, and every critical section under a lock, is a step; a
worker that waits takes its step when what it waits for has come.  A deque
operation is one step here.  `Ci_WSDeque_Size` reads `bot` and `top` one after
the other, so that it may give any number while others are at work.  What
traversing an object pushes is left open.  The counters for statistics and
`num_workers_active` are left out.
-/

namespace CinderX.ParallelGC

open Foundation

variable {α : Type} {n : Nat}

structure Barrier where
  numLeft : Nat
  capacity : Nat
  epoch : Nat
  deriving DecidableEq

def nextEpoch (epoch : Nat) : Nat := (epoch + 1) % 2 ^ 32

namespace Barrier

def init (capacity : Nat) : Barrier := ⟨capacity, capacity, 0⟩

/-- `Ci_Barrier_Wait` up to the point where it waits, with the epoch whose end it waits for. -/
def arrive (b : Barrier) : Barrier × Option Nat :=
  if b.numLeft - 1 = 0 then ({ b with numLeft := b.capacity, epoch := nextEpoch b.epoch }, none)
  else ({ b with numLeft := b.numLeft - 1 }, some b.epoch)

end Barrier

/-! ## Workers -/

inductive Worker (α : Type) where
  | markBarrier
  | markWait (epoch : Nat)
  | markSlice
  | take
  | traverse (obj : α)
  | steal (start i : Nat)
  | takeCoordinator
  | loadNumMarking
  | sizes (numMarking : Int) (i workAvailable : Nat)
  | subLast
  | postLast (tokens : Nat)
  | addNumMarking (wakeUps : Nat)
  | postSema (wakeUps : Nat)
  | dropCoordinator
  | subNumMarking
  | waitSema
  | loopCheck
  | doneBarrier
  | doneWait (epoch : Nat)
  | exited

inductive Main where
  | doneBarrier
  | doneWait (epoch : Nat)
  | returned
  deriving DecidableEq

/-- `finished` is kept beside the state of the program: a worker has seen that it is the last
one. -/
structure MarkState (α : Type) (n : Nat) where
  numMarking : Int
  coordinator : Option (Fin n)
  tokens : Nat
  markBarrier : Barrier
  doneBarrier : Barrier
  deques : Fin n → List α
  workers : Fin n → Worker α
  main : Main
  finished : Bool

namespace MarkState

/-- Before the workers are started, after any number of collections. -/
def init (markEpoch doneEpoch : Nat) : MarkState α n where
  numMarking := n
  coordinator := none
  tokens := 0
  markBarrier := { Barrier.init n with epoch := markEpoch }
  doneBarrier := { Barrier.init (n + 1) with epoch := doneEpoch }
  deques := fun _ => []
  workers := fun _ => .markBarrier
  main := .doneBarrier
  finished := false

variable (s : MarkState α n) (w : Fin n)

def goto (worker : Worker α) : MarkState α n :=
  { s with workers := Function.update s.workers w worker }

def setDeque (objs : List α) : MarkState α n :=
  { s with deques := Function.update s.deques w objs }

def maybeSteal (start i : Nat) : MarkState α n :=
  if i < n then
    let victim : Fin n := ⟨(start + i) % n, Nat.mod_lt _ w.pos⟩
    if victim = w then s.goto w (.steal start (i + 1))
    else
      match s.deques victim with
      | [] => s.goto w (.steal start (i + 1))
      | obj :: rest => (s.setDeque victim rest).goto w (.traverse obj)
  else s.goto w .takeCoordinator

/-- One round of the loop over the deques in `Ci_ParGCWorker_CoordinateStealing`, and what
follows. -/
def coordinate (numMarking : Int) (i workAvailable size : Nat) : MarkState α n :=
  if i < n then s.goto w (.sizes numMarking (i + 1) (workAvailable + size))
  else if workAvailable = 0 then s.goto w .loadNumMarking
  else
    let wakeUps := min workAvailable ((n : Int) - numMarking).toNat
    if wakeUps > 0 then s.goto w (.addNumMarking wakeUps) else s.goto w .dropCoordinator

/-- The next operation of a worker; `choice` is what `rand_r` or `Ci_WSDeque_Size` gives. -/
def workerStep (choice : Nat) : Option (MarkState α n) :=
  match s.workers w with
  | .markBarrier =>
    match s.markBarrier.arrive with
    | (markBarrier, none) => some ({ s with markBarrier }.goto w .markSlice)
    | (markBarrier, some epoch) => some ({ s with markBarrier }.goto w (.markWait epoch))
  | .markWait epoch => if s.markBarrier.epoch = epoch then none else some (s.goto w .markSlice)
  | .markSlice => some (s.goto w .take)
  | .take =>
    match (s.deques w).getLast? with
    | some obj => some ((s.setDeque w (s.deques w).dropLast).goto w (.traverse obj))
    | none => some (s.goto w (.steal (choice % n) 0))
  | .traverse _ => some (s.goto w .take)
  | .steal start i => some (s.maybeSteal w start i)
  | .takeCoordinator =>
    if s.coordinator = none then some ({ s with coordinator := some w }.goto w .loadNumMarking)
    else some (s.goto w .subNumMarking)
  | .loadNumMarking =>
    if s.numMarking = 1 then some (s.goto w .subLast)
    else some (s.goto w (.sizes s.numMarking 0 0))
  | .subLast =>
    some ({ s with numMarking := s.numMarking - 1, finished := true }.goto w (.postLast (n - 1)))
  | .postLast tokens => some ({ s with tokens := s.tokens + tokens }.goto w .dropCoordinator)
  | .sizes numMarking i workAvailable => some (s.coordinate w numMarking i workAvailable choice)
  | .addNumMarking wakeUps =>
    some ({ s with numMarking := s.numMarking + wakeUps }.goto w (.postSema wakeUps))
  | .postSema wakeUps => some ({ s with tokens := s.tokens + wakeUps }.goto w .dropCoordinator)
  | .dropCoordinator => some ({ s with coordinator := none }.goto w .loopCheck)
  | .subNumMarking => some ({ s with numMarking := s.numMarking - 1 }.goto w .waitSema)
  | .waitSema =>
    if s.tokens = 0 then none else some ({ s with tokens := s.tokens - 1 }.goto w .loopCheck)
  | .loopCheck => if s.numMarking = 0 then some (s.goto w .doneBarrier) else some (s.goto w .take)
  | .doneBarrier =>
    match s.doneBarrier.arrive with
    | (doneBarrier, none) => some ({ s with doneBarrier }.goto w .exited)
    | (doneBarrier, some epoch) => some ({ s with doneBarrier }.goto w (.doneWait epoch))
  | .doneWait epoch => if s.doneBarrier.epoch = epoch then none else some (s.goto w .exited)
  | .exited => none

def push (obj : α) : Option (MarkState α n) :=
  match s.workers w with
  | .markSlice | .traverse _ => some (s.setDeque w (s.deques w ++ [obj]))
  | _ => none

def mainStep : Option (MarkState α n) :=
  match s.main with
  | .doneBarrier =>
    match s.doneBarrier.arrive with
    | (doneBarrier, none) => some { s with doneBarrier, main := .returned }
    | (doneBarrier, some epoch) => some { s with doneBarrier, main := .doneWait epoch }
  | .doneWait epoch =>
    if s.doneBarrier.epoch = epoch then none else some { s with main := .returned }
  | .returned => none

end MarkState

inductive MarkMove (α : Type) (n : Nat) where
  | work (w : Fin n) (choice : Nat)
  | push (w : Fin n) (obj : α)
  | main

def MarkState.step (s : MarkState α n) : MarkMove α n → Option (MarkState α n)
  | .work w choice => s.workerStep w choice
  | .push w obj => s.push w obj
  | .main => s.mainStep

end CinderX.ParallelGC

/-!
## The invariant of the marking phase

Workers are counted with weights.  Until a worker has seen that it is the last
one, `num_workers_marking` is the number of workers that are awake and of
wake-ups on their way, and not all of them are about to go to sleep; from then
on there is a token for every sleeping worker.
-/

namespace CinderX.ParallelGC

open Foundation

variable {α : Type} {n : Nat}

namespace Worker

def awake : Worker α → Nat
  | .waitSema => 0
  | _ => 1

/-- Whether it has found another worker in the role of the coordinator. -/
def leaving : Worker α → Nat
  | .subNumMarking => 1
  | _ => 0

def announced : Worker α → Nat
  | .postSema wakeUps => wakeUps
  | _ => 0

def owed : Worker α → Nat
  | .postLast tokens => tokens
  | _ => 0

def unstarted : Worker α → Nat
  | .markBarrier => 1
  | _ => 0

def unarrived : Worker α → Nat
  | .doneWait _ | .exited => 0
  | _ => 1

def coordinates : Worker α → Bool
  | .loadNumMarking | .sizes .. | .subLast | .postLast _ | .addNumMarking _ | .postSema _
  | .dropCoordinator => true
  | _ => false

def marks : Worker α → Bool
  | .markSlice | .take | .traverse _ => true
  | _ => false

def hasLeft : Worker α → Bool
  | .doneBarrier | .doneWait _ | .exited => true
  | _ => false

def Ok (n : Nat) (numMarking : Int) (finished : Bool) : Worker α → Prop
  | .sizes seen _ _ => finished = false ∧ numMarking ≤ seen
  | .addNumMarking wakeUps => finished = false ∧ numMarking + wakeUps ≤ n
  | .subLast => finished = false ∧ numMarking = 1
  | .postLast _ | .doneBarrier | .doneWait _ | .exited => finished = true
  | .dropCoordinator | .loopCheck | .waitSema => True
  | _ => finished = false

end Worker

/-- `left` threads have not arrived at a barrier that is used once. -/
structure Barrier.Ok (b : Barrier) (capacity epoch left : Nat) : Prop where
  capacity_eq : b.capacity = capacity
  lifted : (b.epoch = epoch ∧ b.numLeft = left ∧ 0 < left) ∨
    (b.epoch = nextEpoch epoch ∧ b.numLeft = capacity ∧ left = 0)

theorem nextEpoch_ne (epoch : Nat) : nextEpoch epoch ≠ epoch := by
  unfold nextEpoch
  omega

namespace MarkState

variable (s : MarkState α n)

def awake : Nat := census Worker.awake s.workers

def leaving : Nat := census Worker.leaving s.workers

def announced : Nat := census Worker.announced s.workers

def owed : Nat := census Worker.owed s.workers

def unstarted : Nat := census Worker.unstarted s.workers

def unarrived : Nat :=
  census Worker.unarrived s.workers + if s.main = .doneBarrier then 1 else 0

structure Counts (numMarking : Int) (tokens n awake leaving announced owed : Nat)
    (finished : Bool) : Prop where
  marking : finished = false → numMarking = awake + tokens + announced ∧ leaving < numMarking ∧
    numMarking ≤ n
  finished : finished = true → numMarking = 0 ∧ awake + tokens + owed = n

structure Inv (markEpoch doneEpoch : Nat) : Prop where
  coordinator : ∀ w, (s.workers w).coordinates = true ↔ s.coordinator = some w
  empty : ∀ w, (s.workers w).marks = false → s.deques w = []
  worker : ∀ w, (s.workers w).Ok n s.numMarking s.finished
  counts : Counts s.numMarking s.tokens n s.awake s.leaving s.announced s.owed s.finished
  markBarrier : s.markBarrier.Ok n markEpoch s.unstarted
  doneBarrier : s.doneBarrier.Ok (n + 1) doneEpoch s.unarrived
  main : (∀ epoch, s.main = .doneWait epoch → epoch = doneEpoch) ∧
    (s.main = .returned → s.doneBarrier.epoch ≠ doneEpoch)

theorem inv_init (hn : 0 < n) (markEpoch doneEpoch : Nat) :
    (init markEpoch doneEpoch : MarkState α n).Inv markEpoch doneEpoch := by
  have hone : ∀ {weight : Worker α → Nat}, weight .markBarrier = 1 →
      census weight (fun _ : Fin n => (Worker.markBarrier : Worker α)) = n := by
    intro weight hweight
    rw [census_const fun _ => hweight, Fintype.card_fin, Nat.mul_one]
  have hzero : ∀ {weight : Worker α → Nat}, weight .markBarrier = 0 →
      census weight (fun _ : Fin n => (Worker.markBarrier : Worker α)) = 0 :=
    fun hweight => census_eq_zero.mpr fun _ => hweight
  refine ⟨fun w => by simp [init, Worker.coordinates], fun _ _ => rfl, fun _ => rfl, ?_, ?_, ?_, ?_⟩
  · refine ⟨fun _ => ⟨?_, ?_, le_refl _⟩, fun hfinished => by simp [init] at hfinished⟩
    · simp only [awake, announced, init]
      rw [hone rfl, hzero rfl]
      simp
    · simp only [leaving, init]
      rw [hzero rfl]
      exact_mod_cast hn
  · refine ⟨rfl, .inl ⟨rfl, ?_, ?_⟩⟩
    · exact (hone rfl).symm
    · exact lt_of_lt_of_eq hn (hone rfl).symm
  · refine ⟨rfl, .inl ⟨rfl, ?_, ?_⟩⟩
    · simp only [unarrived, init]
      rw [hone rfl]
      rfl
    · simp [unarrived, init]
  · simp [init]

end MarkState

end CinderX.ParallelGC
