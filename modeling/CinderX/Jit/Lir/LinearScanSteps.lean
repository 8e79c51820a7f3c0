import CinderX.Jit.Lir.LinearScanInvariant

/-!
# The stages of linear scan

Each stage of a turn keeps the invariant, with the current interval pending
until it has its location.
-/

namespace CinderX.Jit.Lir.Scan

open List LiveInterval

variable {ctx : ScanContext} {orig : OperandId → LiveInterval} {pos loc : Int}
  {pending : Nat → Prop} {s s' : Scan} {i : Nat}

theorem Partitions.congr (h : s.Partitions orig) (hintervals : s'.intervals = s.intervals)
    (hcount : s'.count = s.count) : s'.Partitions orig := by
  constructor <;> simp only [Apart, hintervals, hcount]
  · exact h.nonempty
  · exact h.mem_iff
  · exact h.apart

theorem FixedOk.congr (h : s.FixedOk ctx) (hintervals : s'.intervals = s.intervals)
    (hcount : s'.count = s.count) : s'.FixedOk ctx := by
  constructor <;> simp only [hintervals, hcount]
  · exact h.start
  · exact h.register
  · exact h.distinct
  · exact h.start_nonneg

theorem Invariant.update (h : s.Invariant ctx orig pos pending)
    (hintervals : s'.intervals = s.intervals) (hcount : s'.count = s.count)
    (hslots : s'.SlotsOk)
    (htable : ∀ o slot, s.operandToSlot o = some slot →
      s'.operandToSlot o = some slot ∨ ctx.vregGlobalLastUse o < pos)
    (hsets : ∀ i, i ∈ s'.active ∨ i ∈ s'.inactive → i ∈ s.active ∨ i ∈ s.inactive)
    (hin : ∀ i, i ∈ s.active ∨ i ∈ s.inactive → pos < (s.intervals i).endLocation →
      i ∈ s'.active ∨ i ∈ s'.inactive) :
    s'.Invariant ctx orig pos pending := by
  have hhandled : ∀ i, s'.Handled pending i ↔ s.Handled pending i := by
    intro i
    simp only [Handled, hcount]
  constructor
  · exact h.partitions.congr hintervals hcount
  · exact h.lastUse
  · exact h.fixed.congr hintervals hcount
  · exact hslots
  · apply h.placed.mono (le_refl pos) (fun i hi => (hhandled i).mp hi) _ htable
    intro i _
    rw [hintervals]
    exact Shrinks.refl _
  · rw [hcount]
    exact h.pending_lt
  · rw [hintervals]
    exact h.pending_start
  · simp only [hhandled, hintervals]
    exact h.handled_start
  · intro i hi
    rw [hhandled, hintervals]
    exact h.sets_handled i (hsets i hi)
  · intro i hi hreg hlt
    rw [hhandled] at hi
    rw [hintervals] at hreg hlt
    exact hin i (h.in_sets i hi hreg hlt) hlt

theorem Invariant.advance {pos' : Int} (h : s.Invariant ctx orig pos pending)
    (hpos : pos ≤ pos') (hpending : ∀ i, pending i → pos' ≤ (s.intervals i).startLocation) :
    s.Invariant ctx orig pos' pending := by
  constructor
  · exact h.partitions
  · exact h.lastUse
  · exact h.fixed
  · exact h.slots
  · exact h.placed.mono hpos (fun _ hi => hi) (fun _ _ => Shrinks.refl _)
      fun _ _ hslot => Or.inl hslot
  · exact h.pending_lt
  · exact hpending
  · intro i hi
    exact le_trans (h.handled_start i hi) hpos
  · exact h.sets_handled
  · intro i hi hreg hlt
    exact h.in_sets i hi hreg (lt_of_le_of_lt hpos hlt)

theorem Invariant.congr_pending {pending' : Nat → Prop}
    (h : s.Invariant ctx orig pos pending) (hiff : ∀ i, pending i ↔ pending' i) :
    s.Invariant ctx orig pos pending' := by
  have heq : pending = pending' := funext fun i => propext (hiff i)
  exact heq ▸ h

/-! ## Releasing stack slots -/

variable {o : OperandId} {k : Nat} {handled : Nat → Prop}

theorem freeStackSlot_spec (h : s.freeStackSlot o = some s') :
    ∃ slot, s.operandToSlot o = some slot ∧
      s' = { s with
        operandToSlot := Function.update s.operandToSlot o none
        freeStackSlots := slot :: s.freeStackSlots } := by
  unfold freeStackSlot at h
  split at h
  case h_2 => simp at h
  case h_1 slot hslot =>
      split at h
      · exact ⟨slot, hslot, by simpa using h.symm⟩
      · simp at h

theorem SlotsOk.freeStackSlot (h : s.SlotsOk)
    (hfree : s.freeStackSlot o = some s') : s'.SlotsOk := by
  obtain ⟨slot, hslot, rfl⟩ := freeStackSlot_spec hfree
  have hold : ∀ o' slot', Function.update s.operandToSlot o none o' = some slot' →
      o' ≠ o ∧ s.operandToSlot o' = some slot' := by
    intro o' slot' h'
    by_cases heq : o' = o
    · simp [heq] at h'
    · exact ⟨heq, by simpa [heq] using h'⟩
  constructor
  · intro o₁ o₂ slot' h₁ h₂
    exact h.injective o₁ o₂ slot' (hold o₁ slot' h₁).2 (hold o₂ slot' h₂).2
  · intro o' slot' h'
    obtain ⟨hne, hslot'⟩ := hold o' slot' h'
    simp only [mem_cons, not_or]
    refine ⟨?_, h.not_free o' slot' hslot'⟩
    rintro rfl
    exact hne (h.injective o' o slot' hslot' hslot)
  · exact nodup_cons.mpr ⟨h.not_free o slot hslot, h.free_nodup⟩
  · intro o' slot' h'
    exact h.bound o' slot' (hold o' slot' h').2
  · intro slot' hmem
    simp only [mem_cons] at hmem
    cases hmem with
    | inl heq => exact heq ▸ h.bound o slot hslot
    | inr hmem => exact h.free_bound slot' hmem
  · exact h.max_le

theorem Invariant.freeStackSlot (h : s.Invariant ctx orig pos pending)
    (hdead : ctx.vregGlobalLastUse o < pos) (hfree : s.freeStackSlot o = some s') :
    s'.Invariant ctx orig pos pending := by
  have hslots := h.slots.freeStackSlot hfree
  obtain ⟨slot, hslot, rfl⟩ := freeStackSlot_spec hfree
  refine h.update rfl rfl hslots ?_ ?_ ?_
  · intro o' slot' h'
    by_cases heq : o' = o
    · exact Or.inr (heq ▸ hdead)
    · exact Or.inl (by simpa [heq] using h')
  · exact fun _ hi => hi
  · exact fun _ hi _ => hi

theorem Invariant.releaseStackSlot (h : s.Invariant ctx orig pos pending)
    (hrelease : releaseStackSlot ctx pos s i = some s') :
    s'.Invariant ctx orig pos pending := by
  unfold Scan.releaseStackSlot at hrelease
  dsimp only at hrelease
  split at hrelease
  case isTrue hdead => exact h.freeStackSlot hdead hrelease
  case isFalse => simpa [← Option.some.inj hrelease] using h

structure SameQueue (s s' : Scan) : Prop where
  intervals : s'.intervals = s.intervals
  count : s'.count = s.count
  unhandled : s'.unhandled = s.unhandled

theorem SameQueue.trans {s'' : Scan} (h : s.SameQueue s') (h' : s'.SameQueue s'') :
    s.SameQueue s'' :=
  ⟨h'.intervals.trans h.intervals, h'.count.trans h.count, h'.unhandled.trans h.unhandled⟩

theorem releaseStackSlot_sameQueue (hrelease : releaseStackSlot ctx pos s i = some s') :
    s.SameQueue s' := by
  unfold Scan.releaseStackSlot at hrelease
  dsimp only at hrelease
  split at hrelease
  · obtain ⟨slot, -, rfl⟩ := freeStackSlot_spec hrelease
    exact ⟨rfl, rfl, rfl⟩
  · rw [← Option.some.inj hrelease]
    exact ⟨rfl, rfl, rfl⟩

theorem Invariant.releaseAll (slots : List Nat) (h : s.Invariant ctx orig pos pending)
    (hrelease : slots.foldlM (Scan.releaseStackSlot ctx pos) s = some s') :
    s'.Invariant ctx orig pos pending ∧ s.SameQueue s' := by
  induction slots generalizing s with
  | nil =>
    simp only [foldlM_nil, Option.pure_def, Option.some.injEq] at hrelease
    exact ⟨hrelease ▸ h, hrelease ▸ ⟨rfl, rfl, rfl⟩⟩
  | cons slot rest ih =>
    simp only [foldlM_cons, Option.bind_eq_bind, Option.bind_eq_some_iff] at hrelease
    obtain ⟨s₁, hfirst, hrest⟩ := hrelease
    obtain ⟨hinv, hsame⟩ := ih (h.releaseStackSlot hfirst) hrest
    exact ⟨hinv, (releaseStackSlot_sameQueue hfirst).trans hsame⟩

theorem Invariant.releaseStackSlots (h : s.Invariant ctx orig pos pending)
    (hrelease : s.releaseStackSlots ctx pos = some s') :
    s'.Invariant ctx orig pos pending ∧ s.SameQueue s' := by
  simp only [Scan.releaseStackSlots, Option.bind_eq_bind, Option.bind_eq_some_iff,
    Option.pure_def, Option.some.injEq] at hrelease
  obtain ⟨s₁, hfold, rfl⟩ := hrelease
  obtain ⟨hinv, hsame⟩ := h.releaseAll _ hfold
  refine ⟨?_, hsame.intervals, hsame.count, hsame.unhandled⟩
  refine hinv.update rfl rfl ?_ ?_ ?_ ?_
  · exact hinv.slots.congr rfl rfl rfl
  · exact fun _ _ hslot => Or.inl hslot
  · exact fun _ hi => hi
  · exact fun _ hi _ => hi

structure SetsAt (s : Scan) (pos : Int) : Prop where
  active : ∀ i ∈ s.active, (s.intervals i).Mem pos
  inactive : ∀ i ∈ s.inactive, ¬ (s.intervals i).Mem pos

theorem updateSets_setsAt (s : Scan) (pos : Int) : (s.updateSets pos).SetsAt pos := by
  constructor
  · intro i hi
    simp only [updateSets, mem_append, mem_filter, Bool.and_eq_true] at hi
    rw [← covers_iff_mem]
    rcases hi with hi | hi
    · exact hi.2.2
    · exact hi.2.2
  · intro i hi hmem
    simp only [updateSets, mem_append, mem_filter, Bool.and_eq_true,
      Bool.not_eq_true'] at hi
    have hcovers := (covers_iff_mem _ _).mpr hmem
    have := hi.2.2
    simp only [updateSets] at hcovers
    simp [hcovers] at this

theorem Invariant.updateSets (h : s.Invariant ctx orig pos pending) :
    (s.updateSets pos).Invariant ctx orig pos pending := by
  refine h.update rfl rfl ?_ ?_ ?_ ?_
  · exact h.slots.congr rfl rfl rfl
  · exact fun _ _ hslot => Or.inl hslot
  · intro i hi
    simp only [Scan.updateSets, mem_append, mem_filter] at hi
    rcases hi with (hi | hi) | hi
    · exact Or.inl hi.1
    · exact hi.1.symm.imp And.left id
    · exact hi.1.symm.imp And.left id
  · intro i hi hend
    simp only [Scan.updateSets, mem_append, mem_filter, Bool.and_eq_true,
      Bool.not_eq_true', decide_eq_true_eq, hend, true_and]
    cases hcovers : (s.intervals i).covers pos with
    | true => simp [hi]
    | false => simp [hi, or_comm]

/-! ## Giving a location to the current interval -/

theorem allocateTo_of_ne (h : k ≠ i) :
    (s.allocateTo i loc).intervals k = s.intervals k := by
  simp [allocateTo, h]

@[simp] theorem allocateTo_loc (s : Scan) (i : Nat) (loc : Int) :
    ((s.allocateTo i loc).intervals i).allocatedLoc.loc = loc := by
  simp [allocateTo, LiveInterval.allocateTo]

@[simp] theorem allocateTo_ranges (s : Scan) (i : Nat) (loc : Int) (k : Nat) :
    ((s.allocateTo i loc).intervals k).ranges = (s.intervals k).ranges := by
  by_cases h : k = i
  · subst h
    simp [allocateTo, LiveInterval.allocateTo]
  · rw [allocateTo_of_ne h]

@[simp] theorem allocateTo_operand (s : Scan) (i : Nat) (loc : Int) (k : Nat) :
    ((s.allocateTo i loc).intervals k).operand = (s.intervals k).operand := by
  by_cases h : k = i
  · subst h
    simp [allocateTo, LiveInterval.allocateTo]
  · rw [allocateTo_of_ne h]

@[simp] theorem allocateTo_fixed (s : Scan) (i : Nat) (loc : Int) (k : Nat) :
    ((s.allocateTo i loc).intervals k).fixed = (s.intervals k).fixed := by
  by_cases h : k = i
  · subst h
    simp [allocateTo, LiveInterval.allocateTo]
  · rw [allocateTo_of_ne h]

@[simp] theorem allocateTo_mem (s : Scan) (i : Nat) (loc : Int) (k : Nat) (l : Int) :
    ((s.allocateTo i loc).intervals k).Mem l ↔ (s.intervals k).Mem l := by
  simp [LiveInterval.Mem]

@[simp] theorem allocateTo_startLocation (s : Scan) (i : Nat) (loc : Int) (k : Nat) :
    ((s.allocateTo i loc).intervals k).startLocation = (s.intervals k).startLocation := by
  simp [LiveInterval.startLocation]

@[simp] theorem allocateTo_endLocation (s : Scan) (i : Nat) (loc : Int) (k : Nat) :
    ((s.allocateTo i loc).intervals k).endLocation = (s.intervals k).endLocation := by
  simp [LiveInterval.endLocation]

@[simp] theorem allocateTo_count (s : Scan) (i : Nat) (loc : Int) :
    (s.allocateTo i loc).count = s.count := rfl

theorem FixedOk.allocateTo (h : s.FixedOk ctx) (hfixed : (s.intervals i).fixed = false) :
    (s.allocateTo i loc).FixedOk ctx := by
  have hold : ∀ k, (s.intervals k).fixed = true →
      (s.allocateTo i loc).intervals k = s.intervals k := by
    intro k hk
    apply allocateTo_of_ne
    rintro rfl
    simp [hfixed] at hk
  constructor <;> simp only [allocateTo_fixed, allocateTo_count, allocateTo_startLocation]
  · exact h.start
  · intro k hk hkfixed
    rw [hold k hkfixed]
    exact h.register k hk hkfixed
  · intro k hk j hj hkfixed hjfixed
    rw [hold k hkfixed, hold j hjfixed]
    exact h.distinct k hk j hj hkfixed hjfixed
  · exact h.start_nonneg

theorem Invariant.allocateTo (h : s.Invariant ctx orig pos pending) (hi : pending i)
    (hfixed : (s.intervals i).fixed = false) :
    (s.allocateTo i loc).Invariant ctx orig pos pending := by
  have hold : ∀ k, s.Handled pending k → (s.allocateTo i loc).intervals k = s.intervals k := by
    intro k hk
    apply allocateTo_of_ne
    rintro rfl
    exact hk.2 hi
  constructor
  · constructor <;> simp only [Apart, allocateTo_ranges, allocateTo_operand, allocateTo_mem,
      allocateTo_count]
    · exact h.partitions.nonempty
    · exact h.partitions.mem_iff
    · exact h.partitions.apart
  · exact h.lastUse
  · exact h.fixed.allocateTo hfixed
  · exact h.slots.congr rfl rfl rfl
  · apply h.placed.mono (le_refl pos) (fun _ hk => hk)
    · intro k hk
      rw [hold k hk]
      exact Shrinks.refl _
    · exact fun _ _ hslot => Or.inl hslot
  · exact h.pending_lt
  · simpa using h.pending_start
  · simp only [allocateTo_startLocation]
    exact h.handled_start
  · intro k hk
    have hhandled := h.sets_handled k hk
    rw [hold k hhandled.1]
    exact hhandled
  · intro k hk
    rw [hold k hk]
    exact h.in_sets k hk

structure Ready (ctx : ScanContext) (handled : Nat → Prop) (i : Nat) (s : Scan) : Prop where
  allocated : 0 ≤ (s.intervals i).allocatedLoc.loc ∨ (s.intervals i).allocatedLoc.loc ≤ -8
  fp : 0 ≤ (s.intervals i).allocatedLoc.loc →
    isFpRegister ctx (s.intervals i).allocatedLoc.loc = ctx.isFp (s.intervals i).operand
  apart : ∀ j, handled j → 0 ≤ (s.intervals i).allocatedLoc.loc →
    (s.intervals i).allocatedLoc.loc = (s.intervals j).allocatedLoc.loc → s.Apart i j
  stack_use : (s.intervals i).allocatedLoc.loc < 0 →
    ∀ use ∈ ctx.vregPhyUses (s.intervals i).operand, ¬ (s.intervals i).Mem use
  stack_slot : (s.intervals i).allocatedLoc.loc < 0 →
    s.operandToSlot (s.intervals i).operand = some (s.intervals i).allocatedLoc.loc

theorem Ready.apart_slot (h : s.Ready ctx handled i)
    (hplaced : s.Placed ctx pos handled) (hslots : s.SlotsOk)
    (hstart : pos ≤ (s.intervals i).startLocation)
    (hlast : ∀ j, handled j → ∀ loc, (s.intervals j).Mem loc →
      loc < ctx.vregGlobalLastUse (s.intervals j).operand)
    {j : Nat} (hj : handled j) (hne : (s.intervals i).operand ≠ (s.intervals j).operand)
    (hstack : (s.intervals i).allocatedLoc.loc < 0)
    (heq : (s.intervals i).allocatedLoc.loc = (s.intervals j).allocatedLoc.loc) :
    s.Apart i j := by
  intro loc hmemi hmemj
  have hslot := h.stack_slot hstack
  cases hplaced.stack_slot j hj (heq ▸ hstack) with
  | inl hslotj => exact hne (hslots.injective _ _ _ hslot (heq ▸ hslotj))
  | inr hdead =>
    have := hlast j hj loc hmemj
    have := startLocation_le hmemi
    omega

theorem Placed.insert (h : s.Placed ctx pos handled) (hready : s.Ready ctx handled i)
    (hslot : ∀ j, handled j → (s.intervals i).operand ≠ (s.intervals j).operand →
      (s.intervals i).allocatedLoc.loc < 0 →
      (s.intervals i).allocatedLoc.loc = (s.intervals j).allocatedLoc.loc → s.Apart i j) :
    s.Placed ctx pos (fun k => handled k ∨ k = i) := by
  constructor
  · rintro k (hk | rfl)
    · exact h.allocated k hk
    · exact hready.allocated
  · rintro k (hk | rfl)
    · exact h.fp k hk
    · exact hready.fp
  · rintro k j (hk | rfl) (hj | rfl) hne hreg heq
    · exact h.apart_reg k j hk hj hne hreg heq
    · exact (hready.apart k hk (heq ▸ hreg) heq.symm).symm
    · exact hready.apart j hj hreg heq
    · exact absurd rfl hne
  · rintro k (hk | rfl)
    · exact h.stack_use k hk
    · exact hready.stack_use
  · rintro k (hk | rfl) hstack
    · exact h.stack_slot k hk hstack
    · exact Or.inl (hready.stack_slot hstack)
  · rintro k j (hk | rfl) (hj | rfl) hne hstack heq
    · exact h.apart_slot k j hk hj hne hstack heq
    · exact (hslot k hk (Ne.symm hne) (heq ▸ hstack) heq.symm).symm
    · exact hslot j hj hne hstack heq
    · exact absurd rfl hne

theorem Invariant.lt_lastUse (h : s.Invariant ctx orig pos pending)
    (hk : k < s.count) {loc : Int} (hmem : (s.intervals k).Mem loc) :
    loc < ctx.vregGlobalLastUse (s.intervals k).operand :=
  h.lastUse _ _ ((h.partitions.mem_iff _ _).mpr ⟨k, hk, rfl, hmem⟩)

structure SameData (s s' : Scan) : Prop where
  intervals : s'.intervals = s.intervals
  count : s'.count = s.count
  operandToSlot : s'.operandToSlot = s.operandToSlot
  freeStackSlots : s'.freeStackSlots = s.freeStackSlots
  maxStackSlot : s'.maxStackSlot = s.maxStackSlot

theorem Invariant.place (h : s.Invariant ctx orig pos pending) (hi : pending i)
    (hstart : (s.intervals i).startLocation = pos) (hready : s.Ready ctx (s.Handled pending) i)
    (hsame : s.SameData s')
    (hsets : ∀ k, k ∈ s'.active ∨ k ∈ s'.inactive ↔
      (k ∈ s.active ∨ k ∈ s.inactive) ∨ k = i ∧ 0 ≤ (s.intervals i).allocatedLoc.loc) :
    s'.Invariant ctx orig pos (fun k => pending k ∧ k ≠ i) := by
  have hlt := h.pending_lt i hi
  have hhandled : ∀ k, s'.Handled (fun k => pending k ∧ k ≠ i) k ↔
      s.Handled pending k ∨ k = i := by
    intro k
    by_cases heq : k = i
    · simp [Handled, hsame.count, heq, hlt]
    · simp [Handled, hsame.count, heq]
  constructor
  · exact h.partitions.congr hsame.intervals hsame.count
  · exact h.lastUse
  · exact h.fixed.congr hsame.intervals hsame.count
  · exact h.slots.congr hsame.operandToSlot hsame.freeStackSlots hsame.maxStackSlot
  · have hplaced := h.placed.insert hready fun j hj hne hstack heq =>
      hready.apart_slot h.placed h.slots (le_of_eq hstart.symm)
        (fun k hk loc hmem => h.lt_lastUse hk.1 hmem) hj hne hstack heq
    apply hplaced.mono (le_refl pos) (fun k hk => (hhandled k).mp hk)
    · intro k _
      rw [hsame.intervals]
      exact Shrinks.refl _
    · rw [hsame.operandToSlot]
      exact fun _ _ hslot => Or.inl hslot
  · intro k hk
    rw [hsame.count]
    exact h.pending_lt k hk.1
  · intro k hk
    rw [hsame.intervals]
    exact h.pending_start k hk.1
  · intro k hk
    rw [hsame.intervals]
    cases (hhandled k).mp hk with
    | inl hold => exact h.handled_start k hold
    | inr heq => rw [heq, hstart]
  · intro k hk
    rw [hhandled, hsame.intervals]
    rcases (hsets k).mp hk with hold | ⟨rfl, hreg⟩
    · have := h.sets_handled k hold
      exact ⟨Or.inl this.1, this.2⟩
    · exact ⟨Or.inr rfl, hreg⟩
  · intro k hk hreg hend
    rw [hsame.intervals] at hreg hend
    rw [hsets]
    rcases (hhandled k).mp hk with hold | rfl
    · exact Or.inl (h.in_sets k hold hreg hend)
    · exact Or.inr ⟨rfl, hreg⟩

theorem Invariant.requeue (h : s.Invariant ctx orig pos pending) (hi : s.Handled pending i)
    (hstart : (s.intervals i).startLocation = pos)
    (hsame : s.SameData s')
    (hsets : ∀ k, k ∈ s'.active ∨ k ∈ s'.inactive ↔
      (k ∈ s.active ∨ k ∈ s.inactive) ∧ k ≠ i) :
    s'.Invariant ctx orig pos (fun k => pending k ∨ k = i) := by
  have hhandled : ∀ k, s'.Handled (fun k => pending k ∨ k = i) k ↔
      s.Handled pending k ∧ k ≠ i := by
    intro k
    simp only [Handled, hsame.count, not_or, and_assoc]
  constructor
  · exact h.partitions.congr hsame.intervals hsame.count
  · exact h.lastUse
  · exact h.fixed.congr hsame.intervals hsame.count
  · exact h.slots.congr hsame.operandToSlot hsame.freeStackSlots hsame.maxStackSlot
  · apply h.placed.mono (le_refl pos) (fun k hk => ((hhandled k).mp hk).1)
    · intro k _
      rw [hsame.intervals]
      exact Shrinks.refl _
    · rw [hsame.operandToSlot]
      exact fun _ _ hslot => Or.inl hslot
  · rintro k (hk | rfl)
    · rw [hsame.count]
      exact h.pending_lt k hk
    · rw [hsame.count]
      exact hi.1
  · rintro k (hk | rfl)
    · rw [hsame.intervals]
      exact h.pending_start k hk
    · rw [hsame.intervals, hstart]
  · intro k hk
    rw [hsame.intervals]
    exact h.handled_start k ((hhandled k).mp hk).1
  · intro k hk
    rw [hsets] at hk
    have := h.sets_handled k hk.1
    rw [hhandled, hsame.intervals]
    exact ⟨⟨this.1, hk.2⟩, this.2⟩
  · intro k hk hreg hend
    rw [hhandled] at hk
    rw [hsame.intervals] at hreg hend
    rw [hsets]
    exact ⟨h.in_sets k hk.1 hreg hend, hk.2⟩

end CinderX.Jit.Lir.Scan
