import CinderX.Common.SlabArena

/-!
# Slots of the slab arena

Every slot in front of the fill pointer of a slab holds one object, and nothing
else does; free slots hold husks.  A throwing constructor takes back what was
done for it.  Iteration visits the slots in order, and slabs stay locked.
-/

namespace CinderX.Common.SlabArena

open List

variable {Obj : Type} {layout : Layout} {arena arena' : Arena Obj} {addr : Nat}

instance : Std.Symm (Apart layout) := ⟨fun _ _ => Or.symm⟩

theorem Apart.ne {a b : Nat} (h : Apart layout a b) : a ≠ b := by
  have hpos := layout.sizeOf_pos
  unfold Apart at h
  omega

/-- Slabs whose slots fit in their memory, which no two of them share. -/
structure Separate (layout : Layout) (slabs : List Slab) : Prop where
  fits : ∀ slab ∈ slabs, slab.fill * layout.increment ≤ layout.slabSize
  apart : slabs.Pairwise fun slab other =>
    slab.base + layout.slabSize ≤ other.base ∨ other.base + layout.slabSize ≤ slab.base

namespace Slab

variable {slab : Slab}

theorem mem_slots : addr ∈ slab.slots layout ↔
    ∃ i < slab.fill, slab.base + i * layout.increment = addr := by
  simp [slots]

theorem pairwise_slots : (slab.slots layout).Pairwise (Apart layout) := by
  refine pairwise_map.mpr (pairwise_lt_range.imp fun {i j} hlt => Or.inl ?_)
  have hstep : (i + 1) * layout.increment ≤ j * layout.increment := Nat.mul_le_mul_right _ hlt
  have hsize := layout.sizeOf_le
  rw [Nat.succ_mul] at hstep
  omega

theorem slot_bounds (hfits : slab.fill * layout.increment ≤ layout.slabSize)
    (h : addr ∈ slab.slots layout) :
    slab.base ≤ addr ∧ addr + layout.sizeOf ≤ slab.base + layout.slabSize := by
  obtain ⟨i, hi, rfl⟩ := mem_slots.mp h
  have hstep : (i + 1) * layout.increment ≤ slab.fill * layout.increment :=
    Nat.mul_le_mul_right _ hi
  have hsize := layout.sizeOf_le
  rw [Nat.succ_mul] at hstep
  omega

theorem slots_succ : ({ slab with fill := slab.fill + 1 } : Slab).slots layout =
    slab.slots layout ++ [slab.base + slab.fill * layout.increment] := by
  simp [slots, range_succ]

end Slab

theorem Separate.pairwise_slots {slabs : List Slab} (h : Separate layout slabs) :
    (slabs.flatMap (Slab.slots layout)).Pairwise (Apart layout) := by
  rw [pairwise_flatMap]
  refine ⟨fun _ _ => Slab.pairwise_slots, h.apart.imp_of_mem ?_⟩
  intro slab other hslab hother hapart a ha b hb
  obtain ⟨hlow, hhigh⟩ := Slab.slot_bounds (h.fits slab hslab) ha
  obtain ⟨hlow', hhigh'⟩ := Slab.slot_bounds (h.fits other hother) hb
  unfold Apart
  omega

structure WellFormed (layout : Layout) (arena : Arena Obj) : Prop where
  separate : Separate layout arena.slabs
  /-- Only the first slab can be empty, and then it is the only one. -/
  filled : arena.front ≠ [] → ∀ slab ∈ arena.slabs, slab.fill ≠ 0
  /-- The objects are in the slots, one in each. -/
  slots : ∀ addr, addr ∈ arena.memory.map Entry.addr ↔ addr ∈ arena.slots layout
  nodup : (arena.memory.map Entry.addr).Nodup
  freeNodup : arena.freeList.Nodup
  husks : ∀ addr ∈ arena.freeList, ∃ entry ∈ arena.memory, entry.addr = addr ∧ entry.live = false
  /-- No operation sets the flag. -/
  mlocked : arena.mlocked = false

theorem wellFormed_initial (base : Nat) : WellFormed layout (Arena.initial base : Arena Obj) where
  separate := ⟨by simp [Arena.slabs, Arena.initial], by simp [Arena.slabs, Arena.initial]⟩
  filled h := absurd rfl h
  slots addr := by simp [Arena.slots, Arena.slabs, Arena.initial, Slab.slots]
  nodup := nodup_nil
  freeNodup := nodup_nil
  husks _ h := by cases h
  mlocked := rfl

theorem WellFormed.pairwise_slots (h : WellFormed layout arena) :
    (arena.slots layout).Pairwise (Apart layout) :=
  h.separate.pairwise_slots

theorem WellFormed.nodup_slots (h : WellFormed layout arena) : (arena.slots layout).Nodup :=
  h.pairwise_slots.imp Apart.ne

theorem WellFormed.slot_of_entry (h : WellFormed layout arena) {entry : Entry Obj}
    (hentry : entry ∈ arena.memory) : entry.addr ∈ arena.slots layout :=
  (h.slots _).mp (mem_map_of_mem hentry)

theorem WellFormed.apart (h : WellFormed layout arena) :
    arena.memory.Pairwise fun entry other => Apart layout entry.addr other.addr := by
  refine (pairwise_map.mp h.nodup).imp_of_mem fun hentry hother hne => ?_
  exact h.pairwise_slots.forall (h.slot_of_entry hentry) (h.slot_of_entry hother) hne

/-! ## Allocation -/

def Outcome.Good (layout : Layout) (arena : Arena Obj) : Outcome Obj → Prop
  | .returned arena' _ => WellFormed layout arena'
  | .threw arena' => arena' = arena
  | .aborted => True
  | .undefinedBehaviour => False

variable {back : Slab} {slot : Nat} {op : Op Obj} {ops : List (Op Obj)} {obj : Obj}
  {slot' : Option Nat} {throws : Bool}

theorem WellFormed.construct_fresh (h : WellFormed layout arena) {front : List Slab}
    (hseparate : Separate layout (front ++ [back]))
    (hfilled : ∀ slab ∈ front ++ [back], slab.fill ≠ 0)
    (hslots : (front ++ [back]).flatMap (Slab.slots layout) = arena.slots layout ++ [slot])
    (obj : Obj) :
    (Arena.construct layout { arena with front := front, back := back } slot obj).Good layout
      arena := by
  have hpairwise := hseparate.pairwise_slots
  rw [hslots] at hpairwise
  have hfresh : Vacant layout arena.memory slot := fun entry hentry =>
    (pairwise_append.mp hpairwise).2.2 _ (h.slot_of_entry hentry) _ (mem_singleton_self _)
  simp only [Arena.construct, if_pos hfresh]
  refine ⟨hseparate, fun _ => hfilled, fun addr => ?_, ?_, h.freeNodup, fun addr haddr => ?_,
    h.mlocked⟩
  · change addr ∈ slot :: arena.memory.map Entry.addr ↔
      addr ∈ (front ++ [back]).flatMap (Slab.slots layout)
    rw [hslots, mem_cons, h.slots, mem_append, mem_singleton, or_comm]
  · refine nodup_cons.mpr ⟨fun hmem => ?_, h.nodup⟩
    obtain ⟨entry, hentry, haddr⟩ := mem_map.mp hmem
    exact (hfresh entry hentry).ne haddr
  · obtain ⟨entry, hentry, hhusk⟩ := h.husks addr haddr
    exact ⟨entry, mem_cons_of_mem _ hentry, hhusk⟩

theorem WellFormed.allocateRecycled (h : WellFormed layout arena)
    (hslot : arena.freeList.getLast? = some slot) (obj : Obj) (throws : Bool) :
    (arena.allocateRecycled layout slot obj throws).Good layout arena := by
  unfold Arena.allocateRecycled
  cases throws with
  | true => trivial
  | false =>
    have hlist : arena.freeList.dropLast ++ [slot] = arena.freeList :=
      dropLast_append_getLast? slot hslot
    have hmem : slot ∈ arena.freeList := mem_of_getLast? hslot
    obtain ⟨husk, hhusk, haddr, -⟩ := h.husks slot hmem
    have hslots : slot ∈ arena.slots layout := haddr ▸ h.slot_of_entry hhusk
    have hvacant : Vacant layout (destroy arena.memory slot) slot := by
      intro entry hentry
      obtain ⟨hentry, hne⟩ := mem_filter.mp hentry
      exact h.pairwise_slots.forall (h.slot_of_entry hentry) hslots (by simpa using hne)
    have hnotMem : slot ∉ arena.freeList.dropLast := by
      have hnodup := h.freeNodup
      rw [← hlist, nodup_append'] at hnodup
      exact fun hdrop => hnodup.2.2 hdrop (mem_singleton_self _)
    simp only [Bool.false_eq_true, if_false, Arena.construct, if_pos hvacant]
    refine ⟨h.separate, h.filled, fun addr => ?_, ?_, ?_, fun addr hfree => ?_, h.mlocked⟩
    · change addr ∈ slot :: (destroy arena.memory slot).map Entry.addr ↔ addr ∈ arena.slots layout
      by_cases hsame : addr = slot
      · simp [hsame, hslots]
      · rw [mem_cons, or_iff_right hsame, ← h.slots]
        simp only [destroy, mem_map, mem_filter, decide_eq_true_eq]
        constructor
        · rintro ⟨entry, ⟨hentry, -⟩, rfl⟩
          exact ⟨entry, hentry, rfl⟩
        · rintro ⟨entry, hentry, rfl⟩
          exact ⟨entry, ⟨hentry, hsame⟩, rfl⟩
    · refine nodup_cons.mpr ⟨?_, (filter_sublist.map _).nodup h.nodup⟩
      simp [destroy]
    · exact (dropLast_sublist _).nodup h.freeNodup
    · obtain ⟨entry, hentry, rfl, hlive⟩ := h.husks addr (dropLast_subset _ hfree)
      have hne : entry.addr ≠ slot := fun heq => hnotMem (heq ▸ hfree)
      exact ⟨entry, mem_cons_of_mem _ (mem_filter.mpr ⟨hentry, by simpa using hne⟩), rfl,
        hlive⟩

theorem Slab.allocate_eq_some {slab slab' : Slab} (h : slab.allocate layout = some (slab', slot)) :
    (slab.fill + 1) * layout.increment ≤ layout.slabSize ∧
      slab' = { slab with fill := slab.fill + 1 } ∧
      slot = slab.base + slab.fill * layout.increment := by
  unfold Slab.allocate at h
  split at h
  · cases h
  next hfits =>
    cases h
    exact ⟨by omega, rfl, rfl⟩

theorem WellFormed.allocateBack (h : WellFormed layout arena)
    (hback : arena.back.allocate layout = some (back, slot)) (obj : Obj) (throws : Bool) :
    (Arena.allocateIn layout { arena with back := back } slot false obj throws).Good layout
      arena := by
  obtain ⟨hfits, rfl, rfl⟩ := Slab.allocate_eq_some hback
  cases throws with
  | true => simp [Arena.allocateIn, Arena.rollback, Slab.rollbackLastAllocate, Outcome.Good]
  | false =>
    refine h.construct_fresh ⟨fun slab hslab => ?_, ?_⟩ (fun slab hslab => ?_) ?_ obj
    · obtain hfront | hlast := mem_append.mp hslab
      · exact h.separate.fits slab (mem_append_left _ hfront)
      · rw [mem_singleton.mp hlast]
        exact hfits
    · obtain ⟨hfront, -, hcross⟩ := pairwise_append.mp h.separate.apart
      refine pairwise_append.mpr ⟨hfront, pairwise_singleton _ _, ?_⟩
      intro slab hslab other hother
      rw [mem_singleton.mp hother]
      exact hcross slab hslab arena.back (mem_singleton_self _)
    · obtain hfront | hlast := mem_append.mp hslab
      · exact h.filled (ne_nil_of_mem hfront) slab (mem_append_left _ hfront)
      · rw [mem_singleton.mp hlast]
        exact Nat.succ_ne_zero _
    · rw [Arena.slots, Arena.slabs, flatMap_append, flatMap_append,
        flatMap_singleton, flatMap_singleton, Slab.slots_succ, append_assoc]

theorem WellFormed.allocateNew (h : WellFormed layout arena) {base slot : Nat} {slab : Slab}
    (hback : arena.back.allocate layout = none)
    (hnew : (⟨base, 0, false⟩ : Slab).allocate layout = some (slab, slot))
    (hbase : ∀ slab ∈ arena.slabs,
      slab.base + layout.slabSize ≤ base ∨ base + layout.slabSize ≤ slab.base)
    (obj : Obj) (throws : Bool) :
    (Arena.allocateIn layout { arena with front := arena.front ++ [arena.back], back := slab } slot
      true obj throws).Good layout arena := by
  obtain ⟨hfits, rfl, rfl⟩ := Slab.allocate_eq_some hnew
  cases throws with
  | true => simp [Arena.allocateIn, Arena.rollback, Slab.rollbackLastAllocate, Outcome.Good]
  | false =>
    have hfull : arena.back.fill ≠ 0 := by
      intro hempty
      have hroom : ¬(0 + 1) * layout.increment > layout.slabSize := Nat.not_lt.mpr hfits
      rw [Slab.allocate, hempty, if_neg hroom] at hback
      cases hback
    refine h.construct_fresh ⟨fun slab hslab => ?_, ?_⟩ (fun slab hslab => ?_) ?_ obj
    · obtain hold | hlast := mem_append.mp hslab
      · exact h.separate.fits slab hold
      · rw [mem_singleton.mp hlast]
        exact hfits
    · refine pairwise_append.mpr ⟨h.separate.apart, pairwise_singleton _ _, ?_⟩
      intro slab hslab other hother
      rw [mem_singleton.mp hother]
      exact hbase slab hslab
    · obtain hold | hlast := mem_append.mp hslab
      · obtain hfront | hlast := mem_append.mp hold
        · exact h.filled (ne_nil_of_mem hfront) slab (mem_append_left _ hfront)
        · rw [mem_singleton.mp hlast]
          exact hfull
      · rw [mem_singleton.mp hlast]
        exact Nat.succ_ne_zero _
    · rw [flatMap_append, flatMap_singleton]
      simp [Slab.slots, Arena.slots, Arena.slabs]

theorem WellFormed.allocate (h : WellFormed layout arena) (obj : Obj) (throws : Bool)
    (growth : Growth) (hallowed : (Op.allocate obj throws growth).Allowed layout arena) :
    (arena.allocate layout obj throws growth).Good layout arena := by
  unfold Arena.allocate
  cases hfree : arena.freeList.getLast? with
  | some slot => exact h.allocateRecycled hfree obj throws
  | none =>
    cases hback : arena.back.allocate layout with
    | some result =>
      obtain ⟨back, slot⟩ := result
      exact h.allocateBack hback obj throws
    | none =>
      cases growth with
      | vectorThrows => rfl
      | slabFails => trivial
      | slab base locks =>
        cases hnew : (⟨base, 0, false⟩ : Slab).allocate layout with
        | none => simp [hnew, Outcome.Good]
        | some result =>
          obtain ⟨slab, slot⟩ := result
          have hunset : ¬arena.mlocked = true := by simp [h.mlocked]
          simp only [hnew, if_neg hunset]
          exact h.allocateNew hback hnew hallowed obj throws

theorem WellFormed.free (h : WellFormed layout arena) (banks : Bool)
    (hallowed : ∃ entry ∈ arena.memory, entry.addr = addr) :
    (arena.free addr banks).Good layout arena := by
  unfold Arena.free
  split
  · trivial
  next hnew =>
    have haddrs : (arena.memory.map fun entry => if entry.addr = addr then
        { entry with live := false } else entry).map Entry.addr = arena.memory.map Entry.addr := by
      rw [map_map]
      refine map_congr_left fun entry _ => ?_
      by_cases hentry : entry.addr = addr <;> simp [hentry]
    have hkept : ∀ entry ∈ arena.memory, entry.live = false →
        ∃ entry' ∈ arena.memory.map fun entry =>
        if entry.addr = addr then { entry with live := false } else entry,
        entry'.addr = entry.addr ∧ entry'.live = false := by
      intro entry hentry hlive
      refine ⟨_, mem_map_of_mem hentry, ?_⟩
      by_cases hsame : entry.addr = addr <;> simp [hsame, hlive]
    have hhusks : ∀ other ∈ arena.freeList, ∃ entry ∈ arena.memory.map fun entry =>
        if entry.addr = addr then { entry with live := false } else entry,
        entry.addr = other ∧ entry.live = false := by
      intro other hother
      obtain ⟨entry, hentry, rfl, hlive⟩ := h.husks other hother
      exact hkept entry hentry hlive
    cases banks with
    | false =>
      exact ⟨h.separate, h.filled, fun other => haddrs ▸ h.slots other, haddrs.symm ▸ h.nodup,
        h.freeNodup, hhusks, h.mlocked⟩
    | true =>
      refine ⟨h.separate, h.filled, fun other => haddrs ▸ h.slots other, haddrs.symm ▸ h.nodup,
        nodup_append'.mpr ⟨h.freeNodup, nodup_singleton _, by simpa using hnew⟩, ?_,
        h.mlocked⟩
      intro other hother
      obtain hold | hlast := mem_append.mp hother
      · exact hhusks other hold
      · obtain ⟨entry, hentry, haddr⟩ := hallowed
        refine ⟨_, mem_map_of_mem hentry, ?_⟩
        simp [haddr, mem_singleton.mp hlast]

theorem WellFormed.mapSlabs (h : WellFormed layout arena) {change : Slab → Slab}
    (hchange : ∀ slab, (change slab).base = slab.base ∧ (change slab).fill = slab.fill) :
    WellFormed layout { arena with
      front := arena.front.map change, back := change arena.back } := by
  have hslabs : Arena.slabs { arena with
      front := arena.front.map change, back := change arena.back } = arena.slabs.map change := by
    simp [Arena.slabs]
  have hslots : Arena.slots layout { arena with
      front := arena.front.map change, back := change arena.back } = arena.slots layout := by
    rw [Arena.slots, hslabs, flatMap_map, Arena.slots]
    simp only [Slab.slots, hchange]
    rfl
  refine ⟨⟨fun slab hslab => ?_, ?_⟩, fun hfront slab hslab => ?_, fun addr => ?_, h.nodup,
    h.freeNodup, h.husks, h.mlocked⟩
  · rw [hslabs] at hslab
    obtain ⟨old, hold, rfl⟩ := mem_map.mp hslab
    rw [(hchange old).2]
    exact h.separate.fits old hold
  · rw [hslabs]
    refine pairwise_map.mpr (h.separate.apart.imp fun {slab other} hapart => ?_)
    rwa [(hchange slab).1, (hchange other).1]
  · rw [hslabs] at hslab
    obtain ⟨old, hold, rfl⟩ := mem_map.mp hslab
    rw [(hchange old).2]
    exact h.filled (fun hnil => hfront (by simp [hnil])) old hold
  · rw [hslots, ← h.slots]

theorem WellFormed.run (h : WellFormed layout arena) (hallowed : op.Allowed layout arena) :
    (op.run layout arena).Good layout arena := by
  cases op with
  | allocate obj throws growth => exact h.allocate obj throws growth hallowed
  | free addr banks => exact h.free banks hallowed
  | mlock succeeds =>
    refine h.mapSlabs fun slab => ?_
    unfold Slab.mlock
    split <;> exact ⟨rfl, rfl⟩
  | munlock succeeds =>
    refine h.mapSlabs fun slab => ?_
    unfold Slab.munlock
    split <;> exact ⟨rfl, rfl⟩

theorem WellFormed.of_reaches (h : WellFormed layout arena)
    (hreaches : Reaches layout arena ops arena') : WellFormed layout arena' := by
  induction hreaches with
  | refl => exact h
  | @step arena₂ arena₃ ops op _ hallowed hrun ih =>
    have hgood := ih.run hallowed
    cases houtcome : op.run layout arena₂ with
    | returned arena₄ slot =>
      rw [houtcome] at hgood hrun
      cases hrun
      exact hgood
    | threw arena₄ =>
      rw [houtcome] at hgood hrun
      obtain rfl := Option.some.inj hrun
      exact (show arena₄ = arena₂ from hgood) ▸ ih
    | aborted => simp [houtcome, Outcome.arena?] at hrun
    | undefinedBehaviour => simp [houtcome, Outcome.arena?] at hrun

namespace Iterator

def slotsFrom (layout : Layout) (slab : Slab) (place : Nat) : List Nat :=
  (range' place (slab.fill - place)).map fun i => slab.base + i * layout.increment

theorem slotsFrom_zero (slab : Slab) : slotsFrom layout slab 0 = slab.slots layout := by
  simp [slotsFrom, Slab.slots, range_eq_range']

theorem slotsFrom_of_lt {slab : Slab} {place : Nat} (h : place < slab.fill) :
    slotsFrom layout slab place =
      (slab.base + place * layout.increment) :: slotsFrom layout slab (place + 1) := by
  have hlength : slab.fill - place = slab.fill - (place + 1) + 1 := by omega
  rw [slotsFrom, hlength, range'_succ, map_cons]
  rfl

theorem slotsFrom_fill (slab : Slab) : slotsFrom layout slab slab.fill = [] := by
  simp [slotsFrom]

theorem visit_inside {fuel place : Nat} {slab : Slab} {rest : List Slab}
    (hplace : place < slab.fill)
    (hrest : ∀ slab ∈ rest, slab.fill ≠ 0)
    (hfuel : (slotsFrom layout slab place ++ rest.flatMap (Slab.slots layout)).length ≤ fuel) :
    (Iterator.inside slab rest place).visit layout fuel =
      some (slotsFrom layout slab place ++ rest.flatMap (Slab.slots layout)) := by
  induction fuel generalizing place slab rest with
  | zero =>
    rw [slotsFrom_of_lt hplace] at hfuel
    cases hfuel
  | succ fuel ih =>
    rw [slotsFrom_of_lt hplace] at hfuel ⊢
    rw [cons_append, length_cons] at hfuel
    have hfuel' := Nat.le_of_succ_le_succ hfuel
    by_cases hlast : place + 1 = slab.fill
    · rw [hlast, slotsFrom_fill, nil_append] at hfuel'
      cases rest with
      | nil => simp [visit, next, hlast, slotsFrom_fill]
      | cons slab' rest =>
        have hfill := hrest slab' (mem_cons_self ..)
        have hvisit := ih (Nat.pos_of_ne_zero hfill)
          (fun slab hslab => hrest slab (mem_cons_of_mem _ hslab))
          (by rwa [slotsFrom_zero])
        simp [visit, next, hlast, hfill, hvisit, slotsFrom_fill, slotsFrom_zero]
    · simp [visit, next, hlast, ih (by omega) hrest hfuel']

end Iterator

theorem WellFormed.iterate (h : WellFormed layout arena) :
    arena.iterate layout = some (arena.slots layout) := by
  unfold Arena.iterate Arena.slots
  cases hslabs : arena.slabs with
  | nil => simp [Arena.slabs] at hslabs
  | cons slab rest =>
    by_cases hempty : slab.fill = 0
    · have hone : rest = [] := by
        by_contra hrest
        refine h.filled (fun hfront => hrest ?_) slab (by simp [hslabs]) hempty
        rw [Arena.slabs, hfront] at hslabs
        exact (cons.inj hslabs).2.symm
      simp [Iterator.start, Iterator.visit, hempty, hone, Slab.slots]
    · have hrest : ∀ slab ∈ rest, slab.fill ≠ 0 := by
        intro other hother
        refine h.filled (fun hfront => ?_) other (by simp [hslabs, hother])
        rw [Arena.slabs, hfront] at hslabs
        rw [← (cons.inj hslabs).2] at hother
        cases hother
      have hlength : (Iterator.slotsFrom layout slab 0 ++ rest.flatMap (Slab.slots layout)).length ≤
          ((slab :: rest).flatMap (Slab.slots layout)).length := by
        exact Nat.le_of_eq (by rw [Iterator.slotsFrom_zero, flatMap_cons])
      have hvisit := Iterator.visit_inside (Nat.pos_of_ne_zero hempty) hrest hlength
      rw [Iterator.slotsFrom_zero, ← flatMap_cons] at hvisit
      simpa only [Iterator.start, if_neg hempty, Option.bind_eq_bind, Option.bind_some] using hvisit

/-! ## Locks -/

/-- The locked slabs of an arena are locked in another one, at the same places. -/
def KeepsLocks (arena arena' : Arena Obj) : Prop :=
  ∀ slab ∈ arena.slabs, slab.locked = true →
    ∃ slab' ∈ arena'.slabs, slab'.base = slab.base ∧ slab'.locked = true

theorem KeepsLocks.refl (arena : Arena Obj) : KeepsLocks arena arena :=
  fun slab hslab hlocked => ⟨slab, hslab, rfl, hlocked⟩

theorem KeepsLocks.trans {arena'' : Arena Obj} (h : KeepsLocks arena arena')
    (h' : KeepsLocks arena' arena'') : KeepsLocks arena arena'' := by
  intro slab hslab hlocked
  obtain ⟨slab', hslab', hbase, hlocked'⟩ := h slab hslab hlocked
  obtain ⟨slab'', hslab'', hbase', hlocked''⟩ := h' slab' hslab' hlocked'
  exact ⟨slab'', hslab'', hbase'.trans hbase, hlocked''⟩

theorem KeepsLocks.of_append {front more : List Slab} (hfront : arena.front = front)
    (hslabs : arena'.slabs = front ++ back :: more) (hbase : back.base = arena.back.base)
    (hlocked : arena.back.locked = true → back.locked = true) : KeepsLocks arena arena' := by
  intro slab hslab hslabLocked
  rw [hslabs]
  rw [Arena.slabs, hfront, mem_append, mem_singleton] at hslab
  obtain hold | rfl := hslab
  · exact ⟨slab, mem_append_left _ hold, rfl, hslabLocked⟩
  · exact ⟨back, by simp, hbase, hlocked hslabLocked⟩

theorem slabs_of_construct
    (h : arena.construct layout slot obj = .returned arena' slot') : arena'.slabs =
      arena.slabs := by
  unfold Arena.construct at h
  split at h
  · obtain ⟨rfl, -⟩ := Outcome.returned.inj h
    rfl
  · cases h

theorem slabs_of_allocateIn {grew : Bool}
    (h : arena.allocateIn layout slot grew obj throws = .returned arena' slot') :
    arena'.slabs = arena.slabs := by
  cases throws with
  | false => exact slabs_of_construct h
  | true =>
    simp only [Arena.allocateIn, if_true, Arena.rollback] at h
    split at h
    · cases h
    · split at h
      · split at h <;> cases h
      · cases h

theorem keepsLocks_allocate {growth : Growth} {slot : Option Nat}
    (h : arena.allocate layout obj throws growth = .returned arena' slot) :
    KeepsLocks arena arena' := by
  unfold Arena.allocate at h
  split at h
  · unfold Arena.allocateRecycled at h
    cases throws with
    | true => cases h
    | false =>
      simp only [Bool.false_eq_true, if_false] at h
      have hslabs := slabs_of_construct h
      exact .of_append rfl hslabs rfl id
  · split at h
    next back slot' hback =>
      obtain ⟨-, rfl, -⟩ := Slab.allocate_eq_some hback
      have hslabs := slabs_of_allocateIn h
      exact .of_append rfl hslabs rfl id
    next =>
      split at h
      · cases h
      · cases h
      next base locks =>
        split at h
        · cases h
        next slab slot' hnew =>
          have hslabs := slabs_of_allocateIn h
          rw [Arena.slabs, Arena.slabs, append_assoc] at hslabs
          exact .of_append rfl hslabs rfl id

theorem WellFormed.keepsLocks (h : WellFormed layout arena)
    (hallowed : op.Allowed layout arena) (hop : ∀ succeeds, op ≠ .munlock succeeds)
    (hrun : (op.run layout arena).arena? = some arena') : KeepsLocks arena arena' := by
  have hgood := h.run hallowed
  cases houtcome : op.run layout arena with
  | aborted => simp [houtcome, Outcome.arena?] at hrun
  | undefinedBehaviour => simp [houtcome, Outcome.arena?] at hrun
  | threw arena₁ =>
    rw [houtcome] at hgood hrun
    obtain rfl := Option.some.inj hrun
    exact (show arena₁ = arena from hgood) ▸ .refl arena
  | returned arena₁ slot =>
    rw [houtcome] at hrun
    cases hrun
    cases op with
    | allocate obj throws growth => exact keepsLocks_allocate houtcome
    | free addr banks =>
      simp only [Op.run, Arena.free] at houtcome
      split at houtcome
      · cases houtcome
      · obtain ⟨rfl, -⟩ := Outcome.returned.inj houtcome
        cases banks <;> exact .refl arena
    | mlock succeeds =>
      obtain ⟨rfl, -⟩ := Outcome.returned.inj houtcome
      intro slab hslab hlocked
      refine ⟨slab.mlock succeeds, ?_, ?_, ?_⟩
      · obtain hold | hlast := mem_append.mp hslab
        · exact mem_append_left _ (mem_map_of_mem hold)
        · rw [mem_singleton.mp hlast]
          exact mem_append_right _ (mem_singleton_self _)
      · unfold Slab.mlock
        split <;> rfl
      · unfold Slab.mlock
        split
        · rfl
        · exact hlocked
    | munlock succeeds => exact absurd rfl (hop succeeds)

theorem WellFormed.keepsLocks_of_reaches (h : WellFormed layout arena)
    (hreaches : Reaches layout arena ops arena')
    (hops : ∀ op ∈ ops, ∀ succeeds, op ≠ .munlock succeeds) :
    KeepsLocks arena arena' := by
  induction hreaches with
  | refl => exact .refl arena
  | @step arena₂ arena₃ ops op hreaches hallowed hrun ih =>
    have hfirst := ih fun op hop => hops op (mem_append_left _ hop)
    refine hfirst.trans ((h.of_reaches hreaches).keepsLocks hallowed ?_ hrun)
    exact hops op (mem_append_right _ (mem_singleton_self _))

theorem locked_of_mlock {succeeds : Nat → Bool}
    (hall : ∀ slab ∈ arena.slabs, succeeds slab.base = true)
    {slot : Option Nat} (h : arena.mlock succeeds = .returned arena' slot) :
    ∀ slab ∈ arena'.slabs, slab.locked = true := by
  obtain ⟨rfl, -⟩ := Outcome.returned.inj h
  have hlocks : ∀ slab ∈ arena.slabs, (slab.mlock succeeds).locked = true := fun slab hslab => by
    rw [Slab.mlock, if_pos (hall slab hslab)]
  intro slab hslab
  obtain hfront | hlast := mem_append.mp hslab
  · obtain ⟨old, hold, rfl⟩ := mem_map.mp hfront
    exact hlocks old (mem_append_left _ hold)
  · rw [mem_singleton.mp hlast]
    exact hlocks _ (mem_append_right _ (mem_singleton_self _))

theorem allocate_throws_recycled (hfree : arena.freeList ≠ []) (obj : Obj) (growth : Growth) :
    arena.allocate layout obj true growth = .aborted := by
  simp [Arena.allocate, getLast?_eq_some_getLast hfree, Arena.allocateRecycled]

/-- In every arena that a run reaches, objects are apart and stand one in each slot, free slots
hold husks, a loop visits every slot once, a constructor that throws changes nothing or aborts the
process, and slabs that `mlock` has locked stay locked until `munlock`. -/
theorem slots_disciplined {base : Nat} {ops : List (Op Obj)}
    (h : Reaches layout (Arena.initial base) ops arena) :
    (arena.memory.Pairwise fun entry other => Apart layout entry.addr other.addr) ∧
    (∀ addr, addr ∈ arena.slots layout ↔ ∃ entry ∈ arena.memory, entry.addr = addr) ∧
    (arena.slots layout).Nodup ∧ arena.iterate layout = some (arena.slots layout) ∧
    arena.freeList.Nodup ∧
    (∀ addr ∈ arena.freeList, ∃ entry ∈ arena.memory, entry.addr = addr ∧ entry.live = false) ∧
    (∀ op : Op Obj, op.Allowed layout arena → op.run layout arena ≠ .undefinedBehaviour ∧
      ∀ arena', op.run layout arena = .threw arena' → arena' = arena) ∧
    (∀ obj growth, arena.freeList ≠ [] → arena.allocate layout obj true growth = .aborted) ∧
    (∀ succeeds arena' slot, (∀ slab ∈ arena.slabs, succeeds slab.base = true) →
      arena.mlock succeeds = .returned arena' slot →
      ∀ ops arena'', Reaches layout arena' ops arena'' →
        (∀ op ∈ ops, ∀ succeeds, op ≠ .munlock succeeds) → ∀ slab ∈ arena'.slabs,
          ∃ slab' ∈ arena''.slabs, slab'.base = slab.base ∧ slab'.locked = true) := by
  have hwf := (wellFormed_initial base).of_reaches h
  refine ⟨hwf.apart, fun addr => ?_, hwf.nodup_slots, hwf.iterate, hwf.freeNodup, hwf.husks,
    fun op hallowed => ?_, fun obj growth hfree => allocate_throws_recycled hfree obj growth, ?_⟩
  · rw [← hwf.slots, mem_map]
  · have hgood := hwf.run hallowed
    refine ⟨fun hundefined => ?_, fun arena' hthrew => ?_⟩
    · rw [hundefined] at hgood
      exact hgood
    · rw [hthrew] at hgood
      exact hgood
  · intro succeeds arena' slot hall hmlock ops arena'' hreaches hops slab hslab
    have hwf' : WellFormed layout arena' := by
      have hallowed : (Op.mlock succeeds : Op Obj).Allowed layout arena := trivial
      have hgood := hwf.run hallowed
      rwa [Op.run, hmlock] at hgood
    exact hwf'.keepsLocks_of_reaches hreaches hops slab hslab
      (locked_of_mlock hall hmlock slab hslab)

def twoSlots : Layout := ⟨8, 4, 4, by decide, by decide⟩

def twoSlabs : Arena Nat :=
  ⟨[⟨0, 2, false⟩], ⟨100, 1, false⟩, [100], false, [⟨100, 3, false⟩, ⟨4, 2, true⟩, ⟨0, 1, true⟩]⟩

theorem reaches_twoSlabs : Reaches twoSlots (Arena.initial 0) [.allocate 1 false .slabFails,
    .allocate 2 false .slabFails, .allocate 3 false (.slab 100 true), .free 100 true] twoSlabs := by
  have h₁ : Reaches twoSlots (Arena.initial 0) [.allocate 1 false .slabFails]
      (⟨[], ⟨0, 1, false⟩, [], false, [⟨0, 1, true⟩]⟩ : Arena Nat) :=
    .step (.refl _) trivial (by decide)
  have h₂ : Reaches twoSlots (Arena.initial 0)
      [.allocate 1 false .slabFails, .allocate 2 false .slabFails]
      (⟨[], ⟨0, 2, false⟩, [], false, [⟨4, 2, true⟩, ⟨0, 1, true⟩]⟩ : Arena Nat) :=
    .step h₁ trivial (by decide)
  have h₃ : Reaches twoSlots (Arena.initial 0) [.allocate 1 false .slabFails,
      .allocate 2 false .slabFails, .allocate 3 false (.slab 100 true)]
      (⟨[⟨0, 2, false⟩], ⟨100, 1, false⟩, [], false,
        [⟨100, 3, true⟩, ⟨4, 2, true⟩, ⟨0, 1, true⟩]⟩ : Arena Nat) :=
    .step h₂ (by simp [Op.Allowed, Arena.slabs, twoSlots]) (by decide)
  exact .step h₃ (by simp [Op.Allowed]) (by decide)

theorem slots_disciplined_twoSlabs : twoSlabs.iterate twoSlots = some [0, 4, 100] :=
  (slots_disciplined reaches_twoSlabs).2.2.2.1

/-- A constructor that throws in a reused slot does not leave the arena as it was. -/
theorem throwing_aborts :
    ¬∀ (layout : Layout) (base : Nat) (ops : List (Op Nat)) (arena : Arena Nat),
      Reaches layout (Arena.initial base) ops arena → ∀ obj growth,
        (Op.allocate obj true growth).Allowed layout arena →
          arena.allocate layout obj true growth = .threw arena := by
  intro hrestored
  have hthrew := hrestored twoSlots 0 _ twoSlabs reaches_twoSlabs 4 .vectorThrows trivial
  exact absurd hthrew (by decide)

end CinderX.Common.SlabArena
