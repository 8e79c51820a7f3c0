import CinderX.Foundation.Basic

/-!
# The slab arena

`SlabArena` hands out slots of slabs and takes slots back for later use.  The
memory of the model is the list of the objects that have been constructed and
not destroyed; constructing an object over another one is undefined behaviour.
A failing check, and an allocation that the system refuses, abort the process.
-/

namespace CinderX.Common.SlabArena

/-- The sizes with which the arena is instantiated, and the check of the slabs on them. -/
structure Layout where
  slabSize : Nat
  sizeOf : Nat
  increment : Nat
  sizeOf_pos : 0 < sizeOf
  sizeOf_le : sizeOf ≤ increment

/-- A slab; `fill` is the number of slots in front of `fill_`. -/
structure Slab where
  base : Nat
  fill : Nat
  locked : Bool
  deriving DecidableEq, Repr

/-- An object in a slot: `live` until the slot is given back. -/
structure Entry (Obj : Type) where
  addr : Nat
  obj : Obj
  live : Bool
  deriving DecidableEq, Repr

/-- `slabs_` is never empty: `back` is its last element.  The last slot of `freeList` is reused
first. -/
structure Arena (Obj : Type) where
  front : List Slab
  back : Slab
  freeList : List Nat
  mlocked : Bool
  memory : List (Entry Obj)
  deriving DecidableEq, Repr

inductive Outcome (Obj : Type) where
  | returned (arena : Arena Obj) (slot : Option Nat)
  | threw (arena : Arena Obj)
  | aborted
  | undefinedBehaviour
  deriving DecidableEq, Repr

/-- What the system answers when a slab is added: no memory for the vector, no memory for the slab,
or a base address and whether the pages can be locked. -/
inductive Growth where
  | vectorThrows
  | slabFails
  | slab (base : Nat) (locks : Bool)
  deriving DecidableEq, Repr

variable {Obj : Type} {layout : Layout}

namespace Slab

def slots (layout : Layout) (slab : Slab) : List Nat :=
  (List.range slab.fill).map fun i => slab.base + i * layout.increment

def allocate (layout : Layout) (slab : Slab) : Option (Slab × Nat) :=
  if (slab.fill + 1) * layout.increment > layout.slabSize then none
  else some ({ slab with fill := slab.fill + 1 }, slab.base + slab.fill * layout.increment)

/-- The check that there is an allocation to roll back has no result when it fails. -/
def rollbackLastAllocate (slab : Slab) : Option Slab :=
  if slab.fill > 0 then some { slab with fill := slab.fill - 1 } else none

def mlock (succeeds : Nat → Bool) (slab : Slab) : Slab :=
  if succeeds slab.base then { slab with locked := true } else slab

def munlock (succeeds : Nat → Bool) (slab : Slab) : Slab :=
  if succeeds slab.base then { slab with locked := false } else slab

end Slab

def Apart (layout : Layout) (a b : Nat) : Prop := a + layout.sizeOf ≤ b ∨ b + layout.sizeOf ≤ a

instance : DecidableRel (Apart layout) := fun _ _ => inferInstanceAs (Decidable (_ ∨ _))

def Vacant (layout : Layout) (memory : List (Entry Obj)) (addr : Nat) : Prop :=
  ∀ entry ∈ memory, Apart layout entry.addr addr

instance (memory : List (Entry Obj)) (addr : Nat) : Decidable (Vacant layout memory addr) :=
  inferInstanceAs (Decidable (∀ entry ∈ memory, _))

def destroy (memory : List (Entry Obj)) (addr : Nat) : List (Entry Obj) :=
  memory.filter fun entry => entry.addr ≠ addr

namespace Arena

def initial (base : Nat) : Arena Obj := ⟨[], ⟨base, 0, false⟩, [], false, []⟩

def slabs (arena : Arena Obj) : List Slab := arena.front ++ [arena.back]

def slots (layout : Layout) (arena : Arena Obj) : List Nat :=
  arena.slabs.flatMap (Slab.slots layout)

def construct (layout : Layout) (arena : Arena Obj) (slot : Nat) (obj : Obj) : Outcome Obj :=
  if Vacant layout arena.memory slot then
    .returned { arena with memory := ⟨slot, obj, true⟩ :: arena.memory } (some slot)
  else .undefinedBehaviour

/-- The branch that reuses a slot.  If the constructor throws, the slot holds no object, and the
process is aborted. -/
def allocateRecycled (layout : Layout) (arena : Arena Obj) (slot : Nat) (obj : Obj)
    (throws : Bool) : Outcome Obj :=
  let arena := { arena with
    freeList := arena.freeList.dropLast
    memory := destroy arena.memory slot }
  if throws then .aborted else arena.construct layout slot obj

/-- The handler of a throwing constructor in a new slot: `grew` tells whether the slab is new. -/
def rollback (arena : Arena Obj) (grew : Bool) : Outcome Obj :=
  match arena.back.rollbackLastAllocate with
  | none => .aborted
  | some back =>
    if grew then
      match arena.front.getLast? with
      | some last => .threw { arena with front := arena.front.dropLast, back := last }
      | none => .undefinedBehaviour
    else .threw { arena with back := back }

def allocateIn (layout : Layout) (arena : Arena Obj) (slot : Nat) (grew : Bool) (obj : Obj)
    (throws : Bool) : Outcome Obj :=
  if throws then arena.rollback grew else arena.construct layout slot obj

def allocate (layout : Layout) (arena : Arena Obj) (obj : Obj) (throws : Bool) (growth : Growth) :
    Outcome Obj :=
  match arena.freeList.getLast? with
  | some slot => arena.allocateRecycled layout slot obj throws
  | none =>
    match arena.back.allocate layout with
    | some (back, slot) =>
      { arena with back := back }.allocateIn layout slot false obj throws
    | none =>
      match growth with
      | .vectorThrows => .threw arena
      | .slabFails => .aborted
      | .slab base locks =>
        match (⟨base, 0, false⟩ : Slab).allocate layout with
        | none => .aborted
        | some (slab, slot) =>
          let slab := if arena.mlocked then slab.mlock fun _ => locks else slab
          { arena with front := arena.front ++ [arena.back], back := slab }.allocateIn layout
            slot true obj throws

/-- `free`: the caller has left a husk; whether it is banked depends on memory for the list. -/
def free (arena : Arena Obj) (addr : Nat) (banks : Bool) : Outcome Obj :=
  if addr ∈ arena.freeList then .aborted
  else
    let arena := { arena with
      memory := arena.memory.map fun entry =>
        if entry.addr = addr then { entry with live := false } else entry }
    .returned (if banks then { arena with freeList := arena.freeList ++ [addr] } else arena) none

def mlock (arena : Arena Obj) (succeeds : Nat → Bool) : Outcome Obj :=
  .returned { arena with
    front := arena.front.map (Slab.mlock succeeds)
    back := arena.back.mlock succeeds } none

def munlock (arena : Arena Obj) (succeeds : Nat → Bool) : Outcome Obj :=
  .returned { arena with
    front := arena.front.map (Slab.munlock succeeds)
    back := arena.back.munlock succeeds } none

end Arena

/-- `SlabArenaIterator`: the current slab, those after it, and the place in the current one. -/
inductive Iterator where
  | finish
  | inside (slab : Slab) (rest : List Slab) (place : Nat)

namespace Iterator

def start : List Slab → Option Iterator
  | [] => none
  | slab :: rest => if slab.fill = 0 then some .finish else some (.inside slab rest 0)

def next : Iterator → Option Iterator
  | .finish => none
  | .inside slab rest place =>
    if place + 1 = slab.fill then
      match rest with
      | [] => some .finish
      | slab :: rest => if slab.fill = 0 then none else some (.inside slab rest 0)
    else some (.inside slab rest (place + 1))

def visit (layout : Layout) : Nat → Iterator → Option (List Nat)
  | _, .finish => some []
  | 0, .inside .. => none
  | fuel + 1, .inside slab rest place => do
      let iterator ← (Iterator.inside slab rest place).next
      let slots ← iterator.visit layout fuel
      return (slab.base + place * layout.increment) :: slots

end Iterator

def Arena.iterate (layout : Layout) (arena : Arena Obj) : Option (List Nat) := do
  let iterator ← Iterator.start arena.slabs
  iterator.visit layout (arena.slots layout).length

inductive Op (Obj : Type) where
  | allocate (obj : Obj) (throws : Bool) (growth : Growth)
  | free (addr : Nat) (banks : Bool)
  | mlock (succeeds : Nat → Bool)
  | munlock (succeeds : Nat → Bool)

def Op.run (layout : Layout) (arena : Arena Obj) : Op Obj → Outcome Obj
  | .allocate obj throws growth => arena.allocate layout obj throws growth
  | .free addr banks => arena.free addr banks
  | .mlock succeeds => arena.mlock succeeds
  | .munlock succeeds => arena.munlock succeeds

/-- New memory does not overlap memory in use, and objects are given back to their arena. -/
def Op.Allowed (layout : Layout) (arena : Arena Obj) : Op Obj → Prop
  | .allocate _ _ (.slab base _) => ∀ slab ∈ arena.slabs,
      slab.base + layout.slabSize ≤ base ∨ base + layout.slabSize ≤ slab.base
  | .free addr _ => ∃ entry ∈ arena.memory, entry.addr = addr
  | _ => True

def Outcome.arena? : Outcome Obj → Option (Arena Obj)
  | .returned arena _ => some arena
  | .threw arena => some arena
  | .aborted => none
  | .undefinedBehaviour => none

inductive Reaches (layout : Layout) : Arena Obj → List (Op Obj) → Arena Obj → Prop
  | refl (arena : Arena Obj) : Reaches layout arena [] arena
  | step {arena arena' arena'' : Arena Obj} {ops : List (Op Obj)} {op : Op Obj}
      (h : Reaches layout arena ops arena') (allowed : op.Allowed layout arena')
      (run : (op.run layout arena').arena? = some arena'') : Reaches layout arena
      (ops ++ [op]) arena''

end CinderX.Common.SlabArena
