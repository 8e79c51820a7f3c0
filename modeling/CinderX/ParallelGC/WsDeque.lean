import CinderX.Foundation.Transitions

/-!
# The work-stealing deque

One thread owns the deque and pushes and takes at its bottom, any number of
others steal at its top.  Every atomic operation is a step of its own, and each
program counter names the operation that comes next, with the local variables
that are still needed.  Memory is sequentially consistent, so that fences are no
steps.  What an `assert` reads is left out.
-/

namespace CinderX.ParallelGC

open Foundation

/-- How many values a `size_t` has. -/
def sizeMax : Nat := 2 ^ 64

def incr (a : Nat) : Nat := (a + 1) % sizeMax

def minus (a b : Nat) : Nat := (a + (sizeMax - b)) % sizeMax

variable {α τ : Type}

structure WSArray (α : Type) where
  size : Nat
  buf : Nat → Option α

namespace WSArray

/-- `calloc`; there is no array whose bytes cannot be counted. -/
def new (size : Nat) : Option (WSArray α) :=
  if 16 + 8 * size < sizeMax then some ⟨size, fun _ => none⟩ else none

def get (arr : WSArray α) (idx : Nat) : Option α := arr.buf (idx &&& minus arr.size 1)

def put (arr : WSArray α) (idx : Nat) (obj : Option α) : WSArray α :=
  { arr with buf := Function.update arr.buf (idx &&& minus arr.size 1) obj }

end WSArray

def kCiParGCInitialArrSize : Nat := 4096

/-! ## The deque and its threads -/

/-- With the arrays that have been allocated; an array is known by its number. -/
structure WSDeque (α : Type) where
  top : Nat
  bot : Nat
  arr : Nat
  numResizes : Nat
  arrays : Nat → WSArray α
  allocated : Nat

namespace WSDeque

def init : WSDeque α where
  top := 1
  bot := 1
  arr := 0
  numResizes := 0
  arrays := fun _ => ⟨kCiParGCInitialArrSize, fun _ => none⟩
  allocated := 1

def array (d : WSDeque α) : WSArray α := d.arrays d.arr

def putIn (d : WSDeque α) (arr idx : Nat) (obj : Option α) : WSDeque α :=
  { d with arrays := Function.update d.arrays arr ((d.arrays arr).put idx obj) }

def objects (d : WSDeque α) : List (Option α) :=
  (List.range' d.top (d.bot - d.top)).map d.array.get

end WSDeque

inductive Owner (α : Type) where
  | idle
  | takeLoadBot
  | takeLoadArr (bot : Nat)
  | takeStoreBot (bot arr : Nat)
  | takeLoadTop (bot arr : Nat)
  | takeGet (bot arr top : Nat)
  | takeCas (bot top : Nat) (res : Option α)
  | takeRestoreBot (bot : Nat) (res : Option α)
  | pushLoadBot (obj : α)
  | pushLoadTop (obj : α) (bot : Nat)
  | pushLoadArr (obj : α) (bot top : Nat)
  | growGet (obj : α) (bot top arr newArr i : Nat)
  | growPut (obj : α) (bot top arr newArr i : Nat) (val : Option α)
  | pushStoreArr (obj : α) (bot top newArr : Nat)
  | pushReloadArr (obj : α) (bot top : Nat)
  | pushCountResize (obj : α) (bot top arr : Nat)
  | pushPut (obj : α) (bot top arr : Nat)
  | pushStoreBot (obj : α) (bot top : Nat)

inductive Thief (α : Type) where
  | idle
  | loadTop
  | loadBot (top : Nat)
  | loadArr (top : Nat)
  | get (top arr : Nat)
  | cas (top : Nat) (res : Option α)

/-- What has been pushed and returned so far is kept beside the deque. -/
structure State (α τ : Type) where
  deque : WSDeque α
  owner : Owner α
  thieves : τ → Thief α
  pushed : List α
  returned : List α

namespace State

def init : State α τ where
  deque := .init
  owner := .idle
  thieves := fun _ => .idle
  pushed := []
  returned := []

def ownerReturns (s : State α τ) (res : Option α) : State α τ :=
  { s with owner := .idle, returned := s.returned ++ res.toList }

def growLoop (s : State α τ) (obj : α) (bot top arr newArr i : Nat) : State α τ :=
  if i < bot then { s with owner := .growGet obj bot top arr newArr i }
  else { s with owner := .pushStoreArr obj bot top newArr }

def grow (s : State α τ) (obj : α) (bot top arr : Nat) : Option (State α τ) :=
  match WSArray.new ((s.deque.arrays arr).size * 2 % sizeMax) with
  | none => none
  | some newArr =>
    let deque := { s.deque with
      arrays := Function.update s.deque.arrays s.deque.allocated newArr
      allocated := s.deque.allocated + 1 }
    some ({ s with deque }.growLoop obj bot top arr s.deque.allocated top)

def ownerStep (s : State α τ) : Option (State α τ) :=
  match s.owner with
  | .idle => none
  | .takeLoadBot => some { s with owner := .takeLoadArr (minus s.deque.bot 1) }
  | .takeLoadArr bot => some { s with owner := .takeStoreBot bot s.deque.arr }
  | .takeStoreBot bot arr =>
    some { s with deque := { s.deque with bot }, owner := .takeLoadTop bot arr }
  | .takeLoadTop bot arr =>
    if s.deque.top ≤ bot then some { s with owner := .takeGet bot arr s.deque.top }
    else some { s with owner := .takeRestoreBot bot none }
  | .takeGet bot arr top =>
    let res := (s.deque.arrays arr).get bot
    if top = bot then some { s with owner := .takeCas bot top res }
    else some (s.ownerReturns res)
  | .takeCas bot top res =>
    if s.deque.top = top then
      some { s with
        deque := { s.deque with top := incr top }
        owner := .takeRestoreBot bot res }
    else some { s with owner := .takeRestoreBot bot none }
  | .takeRestoreBot bot res =>
    some ({ s with deque := { s.deque with bot := incr bot } }.ownerReturns res)
  | .pushLoadBot obj => some { s with owner := .pushLoadTop obj s.deque.bot }
  | .pushLoadTop obj bot => some { s with owner := .pushLoadArr obj bot s.deque.top }
  | .pushLoadArr obj bot top =>
    if minus bot top > minus s.deque.array.size 1 then s.grow obj bot top s.deque.arr
    else some { s with owner := .pushPut obj bot top s.deque.arr }
  | .growGet obj bot top arr newArr i =>
    some { s with owner := .growPut obj bot top arr newArr i ((s.deque.arrays arr).get i) }
  | .growPut obj bot top arr newArr i val =>
    some ({ s with deque := s.deque.putIn newArr i val }.growLoop obj bot top arr newArr (i + 1))
  | .pushStoreArr obj bot top newArr =>
    some { s with
      deque := { s.deque with arr := newArr }
      owner := .pushReloadArr obj bot top }
  | .pushReloadArr obj bot top =>
    some { s with owner := .pushCountResize obj bot top s.deque.arr }
  | .pushCountResize obj bot top arr =>
    some { s with
      deque := { s.deque with numResizes := s.deque.numResizes + 1 }
      owner := .pushPut obj bot top arr }
  | .pushPut obj bot top arr =>
    some { s with
      deque := s.deque.putIn arr bot (some obj)
      owner := .pushStoreBot obj bot top }
  | .pushStoreBot obj bot _ =>
    some { s with
      deque := { s.deque with bot := incr bot }
      owner := .idle
      pushed := s.pushed ++ [obj] }

variable [DecidableEq τ]

def setThief (s : State α τ) (t : τ) (thief : Thief α) : State α τ :=
  { s with thieves := Function.update s.thieves t thief }

def thiefStep (s : State α τ) (t : τ) : Option (State α τ) :=
  match s.thieves t with
  | .idle => none
  | .loadTop => some (s.setThief t (.loadBot s.deque.top))
  | .loadBot top =>
    if top < s.deque.bot then some (s.setThief t (.loadArr top))
    else some (s.setThief t .idle)
  | .loadArr top => some (s.setThief t (.get top s.deque.arr))
  | .get top arr => some (s.setThief t (.cas top ((s.deque.arrays arr).get top)))
  | .cas top res =>
    if s.deque.top = top then
      some ({ s with
        deque := { s.deque with top := incr top }
        returned := s.returned ++ res.toList }.setThief t .idle)
    else some (s.setThief t .loadTop)

end State

inductive Move (α τ : Type) where
  /-- The owner calls `Ci_WSDeque_Push`. -/
  | push (obj : α)
  /-- The owner calls `Ci_WSDeque_Take`. -/
  | take
  /-- A thief calls `Ci_WSDeque_Steal`. -/
  | steal (t : τ)
  | owner
  | thief (t : τ)

def State.step [DecidableEq τ] (s : State α τ) : Move α τ → Option (State α τ)
  | .push obj =>
    match s.owner with
    | .idle => some { s with owner := .pushLoadBot obj }
    | _ => none
  | .take =>
    match s.owner with
    | .idle => some { s with owner := .takeLoadBot }
    | _ => none
  | .steal t =>
    match s.thieves t with
    | .idle => some (s.setThief t .loadTop)
    | _ => none
  | .owner => s.ownerStep
  | .thief t => s.thiefStep t

def State.Quiescent (s : State α τ) : Prop := s.owner = .idle ∧ ∀ t, s.thieves t = .idle

end CinderX.ParallelGC

/-!
## The invariant of the work-stealing deque

`limit` is one past the last object that a thief may still steal: it is `bot`,
or one more while the owner has lowered `bot` and not yet decided.  A thief whose
compare-and-swap will succeed has read the object at `top`, from whatever array.
-/

namespace CinderX.ParallelGC

open Foundation

variable {α τ : Type}

theorem incr_eq {a : Nat} (h : a + 1 < sizeMax) : incr a = a + 1 := Nat.mod_eq_of_lt h

theorem minus_eq {a b : Nat} (hle : b ≤ a) (h : a < sizeMax) : minus a b = a - b := by
  rw [minus, show a + (sizeMax - b) = a - b + sizeMax by omega, Nat.add_mod_right]
  exact Nat.mod_eq_of_lt (by omega)

namespace WSArray

def SizeOk (arr : WSArray α) : Prop := ∃ k, k ≤ 60 ∧ arr.size = 2 ^ k

variable {arr newArr : WSArray α} {i j : Nat} {obj : Option α}

theorem SizeOk.pos (h : arr.SizeOk) : 0 < arr.size := by
  obtain ⟨k, -, hk⟩ := h
  rw [hk]
  exact Nat.two_pow_pos k

theorem SizeOk.le (h : arr.SizeOk) : arr.size ≤ 2 ^ 60 := by
  obtain ⟨k, hle, hk⟩ := h
  rw [hk]
  exact Nat.pow_le_pow_right (by decide) hle

theorem SizeOk.minus (h : arr.SizeOk) : minus arr.size 1 = arr.size - 1 :=
  minus_eq h.pos (lt_of_le_of_lt h.le (by decide))

theorem SizeOk.mask (h : arr.SizeOk) (idx : Nat) :
    idx &&& ParallelGC.minus arr.size 1 = idx % arr.size := by
  rw [h.minus]
  obtain ⟨k, -, hk⟩ := h
  rw [hk, Nat.and_two_pow_sub_one_eq_mod]

theorem SizeOk.put (h : arr.SizeOk) (idx : Nat) (obj : Option α) : (arr.put idx obj).SizeOk := h

theorem get_put_self (idx : Nat) (obj : Option α) : (arr.put idx obj).get idx = obj := by
  simp [get, WSArray.put]

theorem SizeOk.get_put (h : arr.SizeOk) (hlt : j < i) (hroom : i < j + arr.size) :
    (arr.put i obj).get j = arr.get j := by
  have hne : j &&& ParallelGC.minus arr.size 1 ≠ i &&& ParallelGC.minus arr.size 1 := by
    rw [h.mask, h.mask]
    intro hmod
    have hdvd := (Nat.modEq_iff_dvd' hlt.le).mp hmod
    have hle := Nat.le_of_dvd (by omega) hdvd
    omega
  simp only [get, WSArray.put, Function.update_of_ne hne]

theorem SizeOk.new (h : arr.SizeOk) (hnew : WSArray.new (arr.size * 2 % sizeMax) = some newArr) :
    newArr.SizeOk ∧ newArr.size = arr.size * 2 := by
  have hsmall : arr.size * 2 < sizeMax := by
    have := h.le
    simp only [sizeMax]
    omega
  rw [Nat.mod_eq_of_lt hsmall] at hnew
  obtain ⟨k, hk, hsize⟩ := h
  simp only [WSArray.new] at hnew
  split at hnew
  next hbytes =>
    cases hnew
    refine ⟨⟨k + 1, ?_, by rw [hsize, pow_succ]⟩, rfl⟩
    by_contra hlarge
    obtain rfl : k = 60 := by omega
    simp [hsize, sizeMax] at hbytes
  next => simp at hnew

end WSArray

namespace WSDeque

variable {d d' : WSDeque α} {lo hi : Nat}

def between (d : WSDeque α) (lo hi : Nat) : List (Option α) :=
  (List.range' lo (hi - lo)).map d.array.get

theorem objects_eq (d : WSDeque α) : d.objects = d.between d.top d.bot := rfl

theorem between_self (d : WSDeque α) (lo : Nat) : d.between lo lo = [] := by simp [between]

theorem between_cons (hlt : lo < hi) :
    d.between lo hi = d.array.get lo :: d.between (lo + 1) hi := by
  obtain ⟨n, rfl⟩ := Nat.exists_eq_add_of_lt hlt
  simp only [between]
  rw [show lo + n + 1 - lo = n + 1 by omega, show lo + n + 1 - (lo + 1) = n by omega,
    List.range'_succ, List.map_cons]

theorem between_concat (hle : lo ≤ hi) :
    d.between lo (hi + 1) = d.between lo hi ++ [d.array.get hi] := by
  obtain ⟨n, rfl⟩ := Nat.exists_eq_add_of_le hle
  simp only [between]
  rw [show lo + n + 1 - lo = n + 1 by omega, show lo + n - lo = n by omega, List.range'_1_concat,
    List.map_append, List.map_singleton]

theorem between_congr (h : ∀ i, lo ≤ i → i < hi → d'.array.get i = d.array.get i) :
    d'.between lo hi = d.between lo hi := by
  refine List.map_congr_left fun i hi => ?_
  obtain ⟨hle, hlt⟩ := List.mem_range'_1.mp hi
  exact h i hle (by omega)

end WSDeque

namespace Owner

def limit (owner : Owner α) (bot : Nat) : Nat :=
  match owner with
  | .takeLoadTop .. | .takeCas .. | .takeRestoreBot .. => bot + 1
  | .takeGet b _ top => if top < b then bot else bot + 1
  | _ => bot

def held (owner : Owner α) (d : WSDeque α) : List (Option α) :=
  match owner with
  | .takeGet bot arr top => if top < bot then [(d.arrays arr).get bot] else []
  | .takeRestoreBot _ res => res.toList.map some
  | _ => []

def arraysFromCurrent (owner : Owner α) : Nat :=
  match owner with
  | .growGet .. | .growPut .. | .pushStoreArr .. => 2
  | _ => 1

end Owner

namespace WSDeque

structure Pushing (d : WSDeque α) (bot top : Nat) : Prop where
  bot_eq : d.bot = bot
  read_le : top ≤ d.top
  le : top ≤ bot
  room : bot ≤ top + d.array.size

structure Growing (d : WSDeque α) (bot top newArr i : Nat) : Prop extends d.Pushing bot top where
  newArr_eq : newArr = d.arr + 1
  size : (d.arrays newArr).size = d.array.size * 2
  lower : top ≤ i
  copied : ∀ j, top ≤ j → j < i → (d.arrays newArr).get j = d.array.get j

structure Placing (d : WSDeque α) (bot top : Nat) : Prop extends d.Pushing bot top where
  free : bot < top + d.array.size

end WSDeque

def Owner.Ok (d : WSDeque α) : Owner α → Prop
  | .idle | .takeLoadBot | .pushLoadBot _ => True
  | .takeLoadArr bot => d.bot = bot + 1
  | .takeStoreBot bot arr => d.bot = bot + 1 ∧ arr = d.arr
  | .takeLoadTop bot arr => d.bot = bot ∧ arr = d.arr
  | .takeGet bot arr top => d.bot = bot ∧ arr = d.arr ∧ top ≤ bot ∧ top ≤ d.top
  | .takeCas bot top res =>
    d.bot = bot ∧ top = bot ∧ bot ≤ d.top ∧ (d.top = bot → res = d.array.get bot)
  | .takeRestoreBot bot _ => d.bot = bot ∧ d.top = bot + 1
  | .pushLoadTop _ bot => d.bot = bot
  | .pushLoadArr _ bot top => d.Pushing bot top
  | .growGet _ bot top arr newArr i => d.Growing bot top newArr i ∧ arr = d.arr ∧ i < bot
  | .growPut _ bot top arr newArr i val =>
    d.Growing bot top newArr i ∧ arr = d.arr ∧ i < bot ∧ val = d.array.get i
  | .pushStoreArr _ bot top newArr => d.Growing bot top newArr bot
  | .pushReloadArr _ bot top => d.Placing bot top
  | .pushCountResize _ bot top arr | .pushPut _ bot top arr => d.Placing bot top ∧ arr = d.arr
  | .pushStoreBot obj bot top => d.Placing bot top ∧ d.array.get bot = some obj

def Thief.Ok (d : WSDeque α) (limit : Nat) : Thief α → Prop
  | .idle | .loadTop => True
  | .loadBot top => top ≤ d.top
  | .loadArr top => top ≤ d.top ∧ (d.top = top → top < limit)
  | .get top arr => top ≤ d.top ∧ arr ≤ d.arr ∧
      (d.top = top → top < limit ∧ (d.arrays arr).get top = d.array.get top)
  | .cas top res => top ≤ d.top ∧ (d.top = top → top < limit ∧ res = d.array.get top)

namespace State

def limit (s : State α τ) : Nat := s.owner.limit s.deque.bot

def contents (s : State α τ) : List (Option α) := s.deque.between s.deque.top s.limit

structure Inv (s : State α τ) : Prop where
  allocated : s.deque.allocated = s.deque.arr + s.owner.arraysFromCurrent
  size : ∀ i < s.deque.allocated, (s.deque.arrays i).SizeOk
  top_pos : 1 ≤ s.deque.top
  top_le : s.deque.top ≤ s.limit
  room : s.limit ≤ s.deque.top + s.deque.array.size
  limit_le : s.limit ≤ s.pushed.length + 1
  owner : s.owner.Ok s.deque
  thief : ∀ t, (s.thieves t).Ok s.deque s.limit
  account : (s.pushed.map some).Perm
    (s.returned.map some ++ s.owner.held s.deque ++ s.contents)

def Within (s : State α τ) : Prop := s.pushed.length + 1 < sizeMax

theorem inv_init : (init : State α τ).Inv where
  allocated := rfl
  size i _ := ⟨12, by decide, rfl⟩
  top_pos := le_refl 1
  top_le := le_refl 1
  room := by
    simp only [init, limit, WSDeque.init, Owner.limit, WSDeque.array, kCiParGCInitialArrSize]
    omega
  limit_le := le_refl 1
  owner := trivial
  thief _ := trivial
  account := by simp [init, contents, limit, WSDeque.between, WSDeque.init, Owner.limit, Owner.held]

end State

end CinderX.ParallelGC
