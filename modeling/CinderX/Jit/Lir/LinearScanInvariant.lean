import CinderX.Jit.Lir.LinearScan

/-!
# The invariant of linear scan

At any point of the scan an interval is either handled, and then has its final
location unless it is split or queued again, or pending.  The invariant says
that the intervals of an operand partition its original interval, that handled
intervals do not collide, and that those which still matter are in one of the
two sets.
-/

namespace CinderX.Jit.Lir.Scan

open LiveInterval

def Apart (s : Scan) (i j : Nat) : Prop :=
  ∀ loc, (s.intervals i).Mem loc → ¬ (s.intervals j).Mem loc

theorem Apart.symm {s : Scan} {i j : Nat} (h : s.Apart i j) : s.Apart j i :=
  fun loc hj hi => h loc hi hj

structure SlotsOk (s : Scan) : Prop where
  injective : ∀ o o' slot, s.operandToSlot o = some slot →
    s.operandToSlot o' = some slot → o = o'
  not_free : ∀ o slot, s.operandToSlot o = some slot → slot ∉ s.freeStackSlots
  free_nodup : s.freeStackSlots.Nodup
  bound : ∀ o slot, s.operandToSlot o = some slot → s.maxStackSlot ≤ slot ∧ slot ≤ -8
  free_bound : ∀ slot ∈ s.freeStackSlots, s.maxStackSlot ≤ slot ∧ slot ≤ -8
  max_le : s.maxStackSlot ≤ 0

structure Partitions (orig : OperandId → LiveInterval) (s : Scan) : Prop where
  nonempty : ∀ i < s.count, (s.intervals i).ranges ≠ []
  mem_iff : ∀ operand loc, (orig operand).Mem loc ↔
    ∃ i < s.count, (s.intervals i).operand = operand ∧ (s.intervals i).Mem loc
  apart : ∀ i < s.count, ∀ j < s.count, i ≠ j →
    (s.intervals i).operand = (s.intervals j).operand → s.Apart i j

/-- Reserved registers: one interval each, from before the first location. -/
structure FixedOk (ctx : ScanContext) (s : Scan) : Prop where
  start : ∀ i < s.count, (s.intervals i).fixed = true →
    (s.intervals i).startLocation = -1
  register : ∀ i < s.count, (s.intervals i).fixed = true →
    0 ≤ (s.intervals i).allocatedLoc.loc ∧
      isFpRegister ctx (s.intervals i).allocatedLoc.loc = ctx.isFp (s.intervals i).operand
  distinct : ∀ i < s.count, ∀ j < s.count, (s.intervals i).fixed = true →
    (s.intervals j).fixed = true →
    (s.intervals i).allocatedLoc.loc = (s.intervals j).allocatedLoc.loc → i = j
  start_nonneg : ∀ i < s.count, (s.intervals i).fixed = false →
    0 ≤ (s.intervals i).startLocation

structure Placed (ctx : ScanContext) (pos : Int) (handled : Nat → Prop) (s : Scan) :
    Prop where
  allocated : ∀ i, handled i →
    0 ≤ (s.intervals i).allocatedLoc.loc ∨ (s.intervals i).allocatedLoc.loc ≤ -8
  fp : ∀ i, handled i → 0 ≤ (s.intervals i).allocatedLoc.loc →
    isFpRegister ctx (s.intervals i).allocatedLoc.loc = ctx.isFp (s.intervals i).operand
  apart_reg : ∀ i j, handled i → handled j → i ≠ j →
    0 ≤ (s.intervals i).allocatedLoc.loc →
    (s.intervals i).allocatedLoc.loc = (s.intervals j).allocatedLoc.loc → s.Apart i j
  stack_use : ∀ i, handled i → (s.intervals i).allocatedLoc.loc < 0 →
    ∀ use ∈ ctx.vregPhyUses (s.intervals i).operand, ¬ (s.intervals i).Mem use
  stack_slot : ∀ i, handled i → (s.intervals i).allocatedLoc.loc < 0 →
    s.operandToSlot (s.intervals i).operand = some (s.intervals i).allocatedLoc.loc ∨
      ctx.vregGlobalLastUse (s.intervals i).operand < pos
  apart_slot : ∀ i j, handled i → handled j →
    (s.intervals i).operand ≠ (s.intervals j).operand →
    (s.intervals i).allocatedLoc.loc < 0 →
    (s.intervals i).allocatedLoc.loc = (s.intervals j).allocatedLoc.loc → s.Apart i j

def Handled (s : Scan) (pending : Nat → Prop) (i : Nat) : Prop := i < s.count ∧ ¬ pending i

structure Invariant (ctx : ScanContext) (orig : OperandId → LiveInterval) (pos : Int)
    (pending : Nat → Prop) (s : Scan) : Prop where
  partitions : s.Partitions orig
  lastUse : ∀ operand loc, (orig operand).Mem loc → loc < ctx.vregGlobalLastUse operand
  fixed : s.FixedOk ctx
  slots : s.SlotsOk
  placed : s.Placed ctx pos (s.Handled pending)
  pending_lt : ∀ i, pending i → i < s.count
  pending_start : ∀ i, pending i → pos ≤ (s.intervals i).startLocation
  handled_start : ∀ i, s.Handled pending i → (s.intervals i).startLocation ≤ pos
  sets_handled : ∀ i, i ∈ s.active ∨ i ∈ s.inactive →
    s.Handled pending i ∧ 0 ≤ (s.intervals i).allocatedLoc.loc
  in_sets : ∀ i, s.Handled pending i → 0 ≤ (s.intervals i).allocatedLoc.loc →
    pos < (s.intervals i).endLocation → i ∈ s.active ∨ i ∈ s.inactive

structure Shrinks (a b : LiveInterval) : Prop where
  operand : b.operand = a.operand
  allocatedLoc : b.allocatedLoc = a.allocatedLoc
  mem : ∀ loc, b.Mem loc → a.Mem loc

theorem Shrinks.refl (a : LiveInterval) : Shrinks a a := ⟨rfl, rfl, fun _ h => h⟩

theorem Placed.mono {ctx : ScanContext} {pos pos' : Int} {handled handled' : Nat → Prop}
    {s s' : Scan} (h : s.Placed ctx pos handled) (hpos : pos ≤ pos')
    (hhandled : ∀ i, handled' i → handled i)
    (hshrinks : ∀ i, handled' i → Shrinks (s.intervals i) (s'.intervals i))
    (hslots : ∀ o slot, s.operandToSlot o = some slot →
      s'.operandToSlot o = some slot ∨ ctx.vregGlobalLastUse o < pos') :
    s'.Placed ctx pos' handled' := by
  constructor
  · intro i hi
    rw [(hshrinks i hi).allocatedLoc]
    exact h.allocated i (hhandled i hi)
  · intro i hi
    rw [(hshrinks i hi).allocatedLoc, (hshrinks i hi).operand]
    exact h.fp i (hhandled i hi)
  · intro i j hi hj hne hreg heq loc hmemi hmemj
    rw [(hshrinks i hi).allocatedLoc] at hreg heq
    rw [(hshrinks j hj).allocatedLoc] at heq
    exact h.apart_reg i j (hhandled i hi) (hhandled j hj) hne hreg heq loc
      ((hshrinks i hi).mem loc hmemi) ((hshrinks j hj).mem loc hmemj)
  · intro i hi hstack use huse hmem
    rw [(hshrinks i hi).allocatedLoc] at hstack
    rw [(hshrinks i hi).operand] at huse
    exact h.stack_use i (hhandled i hi) hstack use huse ((hshrinks i hi).mem use hmem)
  · intro i hi hstack
    rw [(hshrinks i hi).allocatedLoc] at hstack
    rw [(hshrinks i hi).allocatedLoc, (hshrinks i hi).operand]
    cases h.stack_slot i (hhandled i hi) hstack with
    | inl hslot => exact hslots _ _ hslot
    | inr hdead => exact Or.inr (lt_of_lt_of_le hdead hpos)
  · intro i j hi hj hne hstack heq loc hmemi hmemj
    rw [(hshrinks i hi).allocatedLoc] at hstack heq
    rw [(hshrinks j hj).allocatedLoc] at heq
    rw [(hshrinks i hi).operand, (hshrinks j hj).operand] at hne
    exact h.apart_slot i j (hhandled i hi) (hhandled j hj) hne hstack heq loc
      ((hshrinks i hi).mem loc hmemi) ((hshrinks j hj).mem loc hmemj)

/-! ## Splitting an interval -/

structure Split (s : Scan) (i : Nat) (loc : Int) (s' : Scan) : Prop where
  not_fixed : (s.intervals i).fixed = false
  start_lt : (s.intervals i).startLocation < loc
  nonempty : (s'.intervals i).ranges ≠ [] ∧ (s'.intervals s.count).ranges ≠ []
  other : ∀ k, k ≠ i → k ≠ s.count → s'.intervals k = s.intervals k
  operand : (s'.intervals i).operand = (s.intervals i).operand ∧
    (s'.intervals s.count).operand = (s.intervals i).operand
  allocatedLoc : (s'.intervals i).allocatedLoc = (s.intervals i).allocatedLoc
  fixed : (s'.intervals i).fixed = false ∧ (s'.intervals s.count).fixed = false
  mem_first : ∀ l, (s'.intervals i).Mem l ↔ (s.intervals i).Mem l ∧ l < loc
  mem_second : ∀ l, (s'.intervals s.count).Mem l ↔ (s.intervals i).Mem l ∧ loc ≤ l
  count : s'.count = s.count + 1
  unhandled : s'.unhandled = s.count :: s.unhandled
  active : s'.active = s.active
  inactive : s'.inactive = s.inactive
  operandToSlot : s'.operandToSlot = s.operandToSlot
  freeStackSlots : s'.freeStackSlots = s.freeStackSlots
  maxStackSlot : s'.maxStackSlot = s.maxStackSlot

theorem splitAndSave_split {s s' : Scan} {i : Nat} {loc : Int} (hi : i < s.count)
    (hne : (s.intervals i).ranges ≠ []) (h : s.splitAndSave i loc = some s') :
    s.Split i loc s' := by
  have hcount : i ≠ s.count := Nat.ne_of_lt hi
  unfold splitAndSave at h
  split at h
  case isFalse => simp at h
  case isTrue hstart =>
      split at h
      case h_2 => simp at h
      case h_1 first second hsplit =>
          split at h
          case isFalse => simp at h
          case isTrue =>
              obtain ⟨hfixed, ⟨_, _, rfl⟩, ⟨_, _, rfl⟩, hfirst, hsecond, hnonempty⟩ :=
                splitAt?_spec hsplit
              simp only [Option.some.injEq] at h
              subst h
              constructor
              · exact hfixed
              · exact hstart
              · simpa [hcount] using hnonempty hne
              · intro k hki hkc
                simp [hki, hkc]
              all_goals simp [hcount, withRanges, hfixed]
              · simpa [withRanges, hfixed] using hfirst
              · simpa [withRanges, hfixed] using hsecond

namespace Split

variable {s s' : Scan} {i : Nat} {loc : Int}

theorem shrinks (h : s.Split i loc s') {k : Nat} (hk : k < s.count) :
    Shrinks (s.intervals k) (s'.intervals k) := by
  by_cases heq : k = i
  · subst heq
    exact ⟨h.operand.1, h.allocatedLoc, fun l hl => ((h.mem_first l).mp hl).1⟩
  · rw [h.other k heq (Nat.ne_of_lt hk)]
    exact Shrinks.refl _

theorem fixed_eq (h : s.Split i loc s') {k : Nat} (hk : k < s.count) :
    (s'.intervals k).fixed = (s.intervals k).fixed := by
  by_cases heq : k = i
  · rw [heq, h.fixed.1, h.not_fixed]
  · rw [h.other k heq (Nat.ne_of_lt hk)]

theorem ranges_ne_nil (h : s.Split i loc s') (hne : ∀ k < s.count, (s.intervals k).ranges ≠ []) :
    ∀ k < s'.count, (s'.intervals k).ranges ≠ [] := by
  intro k hk
  rw [h.count] at hk
  by_cases hnew : k = s.count
  · exact hnew ▸ h.nonempty.2
  · by_cases heq : k = i
    · exact heq ▸ h.nonempty.1
    · rw [h.other k heq hnew]
      exact hne k (by omega)

theorem startLocation_eq (h : s.Split i loc s') (hne : (s.intervals i).ranges ≠ []) {k : Nat}
    (hk : k < s.count) : (s'.intervals k).startLocation = (s.intervals k).startLocation := by
  by_cases heq : k = i
  · subst heq
    apply le_antisymm
    · apply startLocation_le
      exact (h.mem_first _).mpr ⟨startLocation_mem hne, h.start_lt⟩
    · exact startLocation_le_of_mem h.nonempty.1
        fun l hl => ((h.mem_first l).mp hl).1
  · rw [h.other k heq (Nat.ne_of_lt hk)]

theorem le_startLocation_new (h : s.Split i loc s') :
    loc ≤ (s'.intervals s.count).startLocation :=
  ((h.mem_second _).mp (startLocation_mem h.nonempty.2)).2

end Split

section

variable {ctx : ScanContext} {orig : OperandId → LiveInterval} {pos loc : Int}
  {pending : Nat → Prop} {s s' : Scan} {i : Nat}

theorem Partitions.apart_new (h : s.Partitions orig) (hi : i < s.count)
    (hs : s.Split i loc s') {j : Nat} (hj : j < s.count)
    (hop : (s.intervals i).operand = (s'.intervals j).operand) : s'.Apart s.count j := by
  intro l hl hmem
  rw [hs.mem_second] at hl
  by_cases heq : j = i
  · subst heq
    have := ((hs.mem_first l).mp hmem).2
    omega
  · rw [hs.other j heq (Nat.ne_of_lt hj)] at hop hmem
    exact h.apart i hi j hj (Ne.symm heq) hop l hl.1 hmem

theorem Partitions.split (h : s.Partitions orig) (hi : i < s.count) (hs : s.Split i loc s') :
    s'.Partitions orig := by
  constructor
  · exact hs.ranges_ne_nil h.nonempty
  · intro operand l
    rw [h.mem_iff, hs.count]
    constructor
    · rintro ⟨k, hk, hop, hmem⟩
      by_cases heq : k = i
      · subst heq
        by_cases hl : l < loc
        · exact ⟨k, by omega, by rw [hs.operand.1, hop], (hs.mem_first l).mpr ⟨hmem, hl⟩⟩
        · refine ⟨s.count, by omega, by rw [hs.operand.2, hop], ?_⟩
          exact (hs.mem_second l).mpr ⟨hmem, by omega⟩
      · refine ⟨k, by omega, ?_⟩
        rw [hs.other k heq (Nat.ne_of_lt hk)]
        exact ⟨hop, hmem⟩
    · rintro ⟨k, hk, hop, hmem⟩
      by_cases hnew : k = s.count
      · subst hnew
        exact ⟨i, hi, by rw [← hs.operand.2, hop], ((hs.mem_second l).mp hmem).1⟩
      · have hshrinks := hs.shrinks (show k < s.count by omega)
        exact ⟨k, by omega, by rw [← hshrinks.operand, hop], hshrinks.mem l hmem⟩
  · intro k hk j hj hne hop
    rw [hs.count] at hk hj
    by_cases hnewk : k = s.count
    · subst hnewk
      rw [hs.operand.2] at hop
      exact h.apart_new hi hs (by omega) hop
    · by_cases hnewj : j = s.count
      · subst hnewj
        rw [hs.operand.2] at hop
        exact (h.apart_new hi hs (by omega) hop.symm).symm
      · have hshrinksk := hs.shrinks (show k < s.count by omega)
        have hshrinksj := hs.shrinks (show j < s.count by omega)
        rw [hshrinksk.operand, hshrinksj.operand] at hop
        intro l hmemk hmemj
        exact h.apart k (by omega) j (by omega) hne hop l (hshrinksk.mem l hmemk)
          (hshrinksj.mem l hmemj)

theorem Split.lt_count_of_fixed (hs : s.Split i loc s') {k : Nat} (hk : k < s'.count)
    (hfixed : (s'.intervals k).fixed = true) :
    k < s.count ∧ (s.intervals k).fixed = true := by
  rw [hs.count] at hk
  have hne : k ≠ s.count := by
    rintro rfl
    simp [hs.fixed.2] at hfixed
  have hlt : k < s.count := by omega
  exact ⟨hlt, by rw [← hs.fixed_eq hlt, hfixed]⟩

theorem FixedOk.split (h : s.FixedOk ctx) (hne : (s.intervals i).ranges ≠ [])
    (hi : i < s.count) (hs : s.Split i loc s') : s'.FixedOk ctx := by
  constructor
  · intro k hk hfixed
    obtain ⟨hlt, hold⟩ := hs.lt_count_of_fixed hk hfixed
    rw [hs.startLocation_eq hne hlt]
    exact h.start k hlt hold
  · intro k hk hfixed
    obtain ⟨hlt, hold⟩ := hs.lt_count_of_fixed hk hfixed
    rw [(hs.shrinks hlt).allocatedLoc, (hs.shrinks hlt).operand]
    exact h.register k hlt hold
  · intro k hk j hj hfixedk hfixedj heq
    obtain ⟨hltk, holdk⟩ := hs.lt_count_of_fixed hk hfixedk
    obtain ⟨hltj, holdj⟩ := hs.lt_count_of_fixed hj hfixedj
    rw [(hs.shrinks hltk).allocatedLoc, (hs.shrinks hltj).allocatedLoc] at heq
    exact h.distinct k hltk j hltj holdk holdj heq
  · intro k hk hfixed
    by_cases hnew : k = s.count
    · have hstart := h.start_nonneg i hi hs.not_fixed
      have hlt := hs.start_lt
      have hle := hs.le_startLocation_new
      rw [hnew]
      omega
    · rw [hs.count] at hk
      have hlt : k < s.count := by omega
      rw [hs.startLocation_eq hne hlt]
      rw [hs.fixed_eq hlt] at hfixed
      exact h.start_nonneg k hlt hfixed

theorem SlotsOk.congr (h : s.SlotsOk) (htable : s'.operandToSlot = s.operandToSlot)
    (hfree : s'.freeStackSlots = s.freeStackSlots)
    (hmax : s'.maxStackSlot = s.maxStackSlot) : s'.SlotsOk := by
  constructor <;> simp only [htable, hfree, hmax]
  · exact h.injective
  · exact h.not_free
  · exact h.free_nodup
  · exact h.bound
  · exact h.free_bound
  · exact h.max_le

theorem Split.handled_iff (hs : s.Split i loc s') (k : Nat) :
    s'.Handled (fun k => pending k ∨ k = s.count) k ↔ s.Handled pending k := by
  unfold Handled
  rw [hs.count]
  constructor
  · rintro ⟨hlt, hnot⟩
    have hne : k ≠ s.count := fun heq => hnot (Or.inr heq)
    exact ⟨by omega, fun hp => hnot (Or.inl hp)⟩
  · rintro ⟨hlt, hnot⟩
    refine ⟨by omega, ?_⟩
    rintro (hp | heq)
    · exact hnot hp
    · omega

theorem Invariant.split (h : s.Invariant ctx orig pos pending) (hi : i < s.count)
    (hloc : pos ≤ loc) (hs : s.Split i loc s') :
    s'.Invariant ctx orig pos (fun k => pending k ∨ k = s.count) := by
  have hne := h.partitions.nonempty i hi
  constructor
  · exact h.partitions.split hi hs
  · exact h.lastUse
  · exact h.fixed.split hne hi hs
  · exact h.slots.congr hs.operandToSlot hs.freeStackSlots hs.maxStackSlot
  · apply h.placed.mono (le_refl pos)
    · intro k hk
      exact (hs.handled_iff k).mp hk
    · intro k hk
      exact hs.shrinks ((hs.handled_iff k).mp hk).1
    · intro o slot hslot
      rw [hs.operandToSlot]
      exact Or.inl hslot
  · rintro k (hk | rfl)
    · have := h.pending_lt k hk
      rw [hs.count]
      omega
    · rw [hs.count]
      omega
  · rintro k (hk | rfl)
    · rw [hs.startLocation_eq hne (h.pending_lt k hk)]
      exact h.pending_start k hk
    · exact le_trans hloc hs.le_startLocation_new
  · intro k hk
    rw [hs.handled_iff] at hk
    rw [hs.startLocation_eq hne hk.1]
    exact h.handled_start k hk
  · intro k hk
    rw [hs.active, hs.inactive] at hk
    obtain ⟨hhandled, hreg⟩ := h.sets_handled k hk
    rw [hs.handled_iff, (hs.shrinks hhandled.1).allocatedLoc]
    exact ⟨hhandled, hreg⟩
  · intro k hk hreg hlt
    rw [hs.handled_iff] at hk
    have hshrinks := hs.shrinks hk.1
    rw [hshrinks.allocatedLoc] at hreg
    rw [hs.active, hs.inactive]
    have hend := endLocation_le_of_mem
      (hs.ranges_ne_nil h.partitions.nonempty k (by rw [hs.count]; have := hk.1; omega))
      hshrinks.mem
    exact h.in_sets k hk hreg (by omega)

end

end CinderX.Jit.Lir.Scan
