import CinderX.Jit.Lir.LinearScanSteps

/-!
# A turn of linear scan

The interval taken from the queue gets a free register, a register taken from
another interval, or a stack slot.  In each case its location does not collide
with a handled interval.
-/

namespace CinderX.Jit.Lir.Scan

open List Option LiveInterval

def Waiting (s : Scan) (current k : Nat) : Prop := k = current ∨ k ∈ s.unhandled

structure Turn (ctx : ScanContext) (orig : OperandId → LiveInterval) (pos : Int)
    (current : Nat) (s : Scan) : Prop where
  inv : s.Invariant ctx orig pos (s.Waiting current)
  start : (s.intervals current).startLocation = pos
  not_queued : current ∉ s.unhandled

def Done (s : Scan) (current : Nat) : Nat → Prop := s.Handled (s.Waiting current)

variable {ctx : ScanContext} {orig : OperandId → LiveInterval} {pos loc : Int}
  {s s' : Scan} {i current : Nat}

namespace Turn

theorem lt_count (h : s.Turn ctx orig pos current) : current < s.count :=
  h.inv.pending_lt current (Or.inl rfl)

theorem le_of_mem (h : s.Turn ctx orig pos current) {l : Int}
    (hmem : (s.intervals current).Mem l) : pos ≤ l := by
  rw [← h.start]
  exact startLocation_le hmem

theorem ne_of_done (_ : s.Turn ctx orig pos current) {j : Nat} (hj : s.Done current j) :
    j ≠ current := by
  rintro rfl
  exact hj.2 (Or.inl rfl)

theorem splitAndSave (h : s.Turn ctx orig pos current) (hi : i < s.count) (hloc : pos ≤ loc)
    (hsplit : s.splitAndSave i loc = some s') :
    s'.Turn ctx orig pos current ∧ s.Split i loc s' ∧
      ∀ k, s'.Done current k ↔ s.Done current k := by
  have hs := splitAndSave_split hi (h.inv.partitions.nonempty i hi) hsplit
  have hwaiting : ∀ k, s.Waiting current k ∨ k = s.count ↔ s'.Waiting current k := by
    intro k
    simp only [Waiting, hs.unhandled, mem_cons]
    tauto
  refine ⟨⟨(h.inv.split hi hloc hs).congr_pending hwaiting, ?_, ?_⟩, hs, ?_⟩
  · rw [hs.startLocation_eq (h.inv.partitions.nonempty i hi) h.lt_count]
    exact h.start
  · rw [hs.unhandled]
    have := h.lt_count
    simp only [mem_cons, not_or]
    exact ⟨by omega, h.not_queued⟩
  · intro k
    have heq : s'.Waiting current = fun k => s.Waiting current k ∨ k = s.count :=
      funext fun k => propext (hwaiting k).symm
    rw [Done, heq, hs.handled_iff]
    rfl

theorem splitCurrent (h : s.Turn ctx orig pos current)
    (hsplit : s.splitAndSave current loc = some s') :
    s'.Turn ctx orig pos current ∧ s.Split current loc s' ∧
      ∀ k, s'.Done current k ↔ s.Done current k := by
  have hs := splitAndSave_split h.lt_count (h.inv.partitions.nonempty _ h.lt_count) hsplit
  have hlt := hs.start_lt
  rw [h.start] at hlt
  exact h.splitAndSave h.lt_count (le_of_lt hlt) hsplit

theorem allocateTo (h : s.Turn ctx orig pos current)
    (hfixed : (s.intervals current).fixed = false) :
    (s.allocateTo current loc).Turn ctx orig pos current where
  inv := h.inv.allocateTo (Or.inl rfl) hfixed
  start := by rw [allocateTo_startLocation, h.start]
  not_queued := h.not_queued

end Turn

/-! ## A free register -/

theorem foldl_min_le (intersect : Nat → Option Int) (intervals : List Nat) (init : Int) :
    let free := intervals.foldl (fun pos j =>
      match intersect j with
      | some x => min pos x
      | none => pos) init
    free ≤ init ∧ ∀ j ∈ intervals, ∀ x, intersect j = some x → free ≤ x := by
  induction intervals generalizing init with
  | nil => simp
  | cons j rest ih =>
    dsimp only [foldl_cons] at ih ⊢
    cases hj : intersect j with
    | none =>
      refine ⟨(ih init).1, ?_⟩
      intro k hk x hx
      cases mem_cons.mp hk with
      | inl heq => simp [heq, hj] at hx
      | inr hmem => exact (ih init).2 k hmem x hx
    | some y =>
      have hinit := (ih (min init y)).1
      refine ⟨le_trans hinit (min_le_left _ _), ?_⟩
      intro k hk x hx
      cases mem_cons.mp hk with
      | inl heq =>
        rw [heq, hj] at hx
        rw [← Option.some.inj hx]
        exact le_trans hinit (min_le_right _ _)
      | inr hmem => exact (ih (min init y)).2 k hmem x hx

theorem le_foldl_min {intersect : Nat → Option Int} {intervals : List Nat} {init bound : Int}
    (hinit : bound ≤ init)
    (hall : ∀ j ∈ intervals, ∀ x, intersect j = some x → bound ≤ x) :
    bound ≤ intervals.foldl (fun pos j =>
      match intersect j with
      | some x => min pos x
      | none => pos) init := by
  induction intervals generalizing init with
  | nil => exact hinit
  | cons j rest ih =>
    rw [foldl_cons]
    apply ih
    · cases hj : intersect j with
      | none => exact hinit
      | some y => exact le_min hinit (hall j (by simp) y hj)
    · exact fun k hk => hall k (by simp [hk])

variable {reg j : Nat} {isFp : Bool} {l : Int}

theorem mem_holding {set : List Nat} :
    j ∈ s.holding ctx set isFp reg ↔
      j ∈ set ∧ ctx.isFp (s.intervals j).operand = isFp ∧
        (s.intervals j).allocatedLoc.loc = reg := by
  simp [holding]

theorem Turn.freeUntilPos_le (h : s.Turn ctx orig pos current)
    (hfixed : (s.intervals current).fixed = false)
    (hfree : s.freeUntilPos ctx current reg ≠ START_LOCATION) (hj : s.Done current j)
    (hloc : (s.intervals j).allocatedLoc.loc = reg)
    (hfp : ctx.isFp (s.intervals j).operand = ctx.isFp (s.intervals current).operand)
    (hcurrent : (s.intervals current).Mem l) (hmem : (s.intervals j).Mem l) :
    s.freeUntilPos ctx current reg ≤ l := by
  have hpos := h.le_of_mem hcurrent
  have hend := LiveInterval.lt_endLocation hmem
  have hin := h.inv.in_sets j hj (by omega) (by omega)
  have hnonneg : ∀ k x,
      (s.intervals k).intersectWith (s.intervals current) = some x → 0 ≤ x := by
    intro k x hx
    have hfirst := (s.intervals k).intersectWith_isFirst (s.intervals current)
    rw [hx] at hfirst
    have hstart := h.inv.fixed.start_nonneg current h.lt_count hfixed
    have := h.le_of_mem hfirst.1.2
    rw [h.start] at hstart
    omega
  unfold freeUntilPos at hfree ⊢
  dsimp only at hfree ⊢
  split at hfree
  · exact absurd rfl hfree
  · rename_i hallowed
    rw [if_neg hallowed]
    cases hin with
    | inl hactive =>
      exfalso
      apply hfree
      have hholding : (s.holding ctx s.active
          (ctx.isFp (s.intervals current).operand) reg).isEmpty = false := by
        rw [isEmpty_eq_false_iff]
        exact ne_nil_of_mem (mem_holding.mpr ⟨hactive, hfp, hloc⟩)
      rw [hholding]
      apply le_antisymm
      · exact (foldl_min_le _ _ _).1
      · exact le_foldl_min (le_refl _) fun k _ x hx => hnonneg k x hx
    | inr hinactive =>
      have hfirst := (s.intervals j).intersectWith_isFirst (s.intervals current)
      cases hx : (s.intervals j).intersectWith (s.intervals current) with
      | none =>
        rw [hx] at hfirst
        exact absurd ⟨hmem, hcurrent⟩ (hfirst l)
      | some x =>
        rw [hx] at hfirst
        refine le_trans ?_ (hfirst.2 l ⟨hmem, hcurrent⟩)
        exact (foldl_min_le (fun k => (s.intervals k).intersectWith (s.intervals current))
          _ _).2 j (mem_holding.mpr ⟨hinactive, hfp, hloc⟩) x hx

theorem maxElement_mem {position : Nat → Int} {regs : List Nat}
    (h : maxElement position regs = some reg) : reg ∈ regs := by
  induction regs generalizing reg with
  | nil => simp [maxElement] at h
  | cons first rest ih =>
    simp only [maxElement] at h
    cases hrest : maxElement position rest with
    | none => simp_all
    | some best =>
      rw [hrest] at h
      dsimp only at h
      split at h
      · rw [← Option.some.inj h]
        exact mem_cons_of_mem _ (ih hrest)
      · simp_all

theorem mem_candidates {lo hi : Nat} (h : reg ∈ candidates lo hi) :
    lo ≤ reg ∧ reg < hi := by
  simp only [candidates, mem_range'_1] at h
  omega

theorem isFpRegister_of_mem {n : Nat} (hn : n ≤ ctx.regs.vecdRegBase)
    (h : reg ∈ if isFp then candidates ctx.regs.vecdRegBase ctx.regs.numRegs else candidates 0 n) :
    isFpRegister ctx reg = isFp := by
  cases isFp with
  | true =>
    have := mem_candidates h
    simp only [isFpRegister, decide_eq_true_eq]
    omega
  | false =>
    have := mem_candidates h
    simp only [isFpRegister, decide_eq_false_iff_not]
    omega

theorem preferredReg_spec (h : s.preferredReg ctx current = some (some reg)) :
    s.freeUntilPos ctx current reg ≠ START_LOCATION ∧
      isFpRegister ctx reg = ctx.isFp (s.intervals current).operand := by
  simp only [preferredReg, isRegisterAllocated, PhyLocation.isRegister, decide_eq_true_eq] at h
  split at h
  case isFalse => simp at h
  case isTrue hreg =>
      split at h
      case isFalse => simp at h
      case isTrue hfp =>
          split at h
          case isTrue => simp at h
          case isFalse hfree =>
              simp only [Option.some.injEq] at h
              subst h
              exact ⟨hfree, by rw [Int.toNat_of_nonneg hreg, hfp]⟩

theorem freestReg_spec (h : s.freestReg ctx current = some (some reg)) :
    s.freeUntilPos ctx current reg ≠ START_LOCATION ∧
      isFpRegister ctx reg = ctx.isFp (s.intervals current).operand := by
  unfold freestReg at h
  dsimp only at h
  split at h
  case h_2 => simp at h
  case h_1 best hbest =>
      split at h
      case isTrue => simp at h
      case isFalse hfree =>
          simp only [Option.some.injEq] at h
          subst h
          refine ⟨hfree, isFpRegister_of_mem ?_ (maxElement_mem hbest)⟩
          have := ctx.regs.numRegs_eq
          omega

theorem freeReg_spec (h : s.freeReg ctx current = some (some reg)) :
    s.freeUntilPos ctx current reg ≠ START_LOCATION ∧
      isFpRegister ctx reg = ctx.isFp (s.intervals current).operand := by
  unfold freeReg at h
  split at h
  case h_1 preferred hpreferred =>
      simp only [Option.some.injEq] at h
      exact h ▸ preferredReg_spec hpreferred
  case h_2 => exact freestReg_spec h
  case h_3 => simp at h

theorem tryAllocateFreeReg_cases (h : s.tryAllocateFreeReg ctx current = some (some s')) :
    ((s.intervals current).fixed = true ∧ s' = s) ∨
      ((s.intervals current).fixed = false ∧ ∃ reg : Nat,
        s.freeUntilPos ctx current reg ≠ START_LOCATION ∧
        isFpRegister ctx reg = ctx.isFp (s.intervals current).operand ∧
        ((s.allocateTo current reg).splitAndSave current
            (s.freeUntilPos ctx current reg) = some s' ∨
          (s.intervals current).endLocation ≤ s.freeUntilPos ctx current reg ∧
            s' = s.allocateTo current reg)) := by
  unfold tryAllocateFreeReg at h
  split at h
  case isTrue hfixed =>
      left
      simpa [hfixed, eq_comm] using h
  case isFalse hfixed =>
      right
      refine ⟨by simpa using hfixed, ?_⟩
      simp only [Option.bind_eq_bind, Option.bind_eq_some_iff, Option.pure_def] at h
      obtain ⟨reg?, hreg, h⟩ := h
      cases reg? with
      | none => simp at h
      | some reg =>
        have hspec := freeReg_spec hreg
        refine ⟨reg, hspec.1, hspec.2, ?_⟩
        dsimp only at h
        rw [allocateTo_endLocation] at h
        split at h
        · left
          simpa [Option.bind_eq_some_iff] using h
        case isFalse hend =>
            right
            simp only [Option.some.injEq] at h
            exact ⟨by omega, h.symm⟩

structure Located (ctx : ScanContext) (orig : OperandId → LiveInterval) (pos : Int)
    (current : Nat) (s : Scan) : Prop where
  turn : s.Turn ctx orig pos current
  ready : s.Ready ctx (s.Done current) current

theorem ready_of_reg {handled : Nat → Prop} (hloc : (s.intervals current).allocatedLoc.loc = reg)
    (hfp : isFpRegister ctx reg = ctx.isFp (s.intervals current).operand)
    (hapart : ∀ j, handled j → (s.intervals j).allocatedLoc.loc = reg → s.Apart current j) :
    s.Ready ctx handled current := by
  constructor
  · exact Or.inl (by omega)
  · intro _
    rw [hloc, hfp]
  · intro j hj _ heq
    exact hapart j hj (by rw [← heq, hloc])
  · intro hstack
    omega
  · intro hstack
    omega

theorem Turn.located_fixed (h : s.Turn ctx orig pos current)
    (hfixed : (s.intervals current).fixed = true) : s.Located ctx orig pos current := by
  refine ⟨h, ?_⟩
  have hreg := h.inv.fixed.register current h.lt_count hfixed
  have hstart := h.inv.fixed.start current h.lt_count hfixed
  rw [h.start] at hstart
  constructor
  · exact Or.inl hreg.1
  · exact fun _ => hreg.2
  · intro j hj _ heq
    exfalso
    have hjstart := h.inv.handled_start j hj
    cases hjfixed : (s.intervals j).fixed with
    | true =>
      exact h.ne_of_done hj
        (h.inv.fixed.distinct current h.lt_count j hj.1 hfixed hjfixed heq).symm
    | false =>
      have := h.inv.fixed.start_nonneg j hj.1 hjfixed
      omega
  · intro hstack
    omega
  · intro hstack
    omega

theorem Turn.apart_of_lt (h : s.Turn ctx orig pos current)
    (hfixed : (s.intervals current).fixed = false)
    (hfree : s.freeUntilPos ctx current reg ≠ START_LOCATION)
    (hfp : isFpRegister ctx reg = ctx.isFp (s.intervals current).operand) (hj : s.Done current j)
    (hloc : (s.intervals j).allocatedLoc.loc = reg)
    (hlt : l < s.freeUntilPos ctx current reg) (hcurrent : (s.intervals current).Mem l) :
    ¬ (s.intervals j).Mem l := by
  intro hmem
  have hfpj := h.inv.placed.fp j hj (by omega)
  rw [hloc, hfp] at hfpj
  have := h.freeUntilPos_le hfixed hfree hj hloc hfpj.symm hcurrent hmem
  omega

theorem Turn.tryAllocateFreeReg (h : s.Turn ctx orig pos current)
    (htry : s.tryAllocateFreeReg ctx current = some (some s')) :
    s'.Located ctx orig pos current := by
  rcases tryAllocateFreeReg_cases htry with
    ⟨hfixed, rfl⟩ | ⟨hfixed, reg, hfree, hfp, hsplit | ⟨hend, rfl⟩⟩
  · exact h.located_fixed hfixed
  · have hturn : (s.allocateTo current reg).Turn ctx orig pos current := h.allocateTo hfixed
    obtain ⟨hturn', hs, hdone⟩ := hturn.splitCurrent hsplit
    have hreg : (s'.intervals current).allocatedLoc.loc = reg := by
      rw [hs.allocatedLoc, allocateTo_loc]
    refine ⟨hturn', ready_of_reg hreg ?_ ?_⟩
    · rw [hs.operand.1, allocateTo_operand, hfp]
    · intro j hj hloc l hmem hmemj
      have hj : s.Done current j := (hdone j).mp hj
      have hne := h.ne_of_done hj
      rw [hs.other j hne (Nat.ne_of_lt hj.1), allocateTo_of_ne hne] at hloc hmemj
      rw [hs.mem_first, allocateTo_mem] at hmem
      exact h.apart_of_lt hfixed hfree hfp hj hloc hmem.2 hmem.1 hmemj
  · refine ⟨h.allocateTo hfixed, ready_of_reg (allocateTo_loc _ _ _) ?_ ?_⟩
    · rw [allocateTo_operand, hfp]
    · intro j hj hloc l hmem hmemj
      have hj : s.Done current j := hj
      rw [allocateTo_of_ne (h.ne_of_done hj)] at hloc hmemj
      rw [allocateTo_mem] at hmem
      have := LiveInterval.lt_endLocation hmem
      exact h.apart_of_lt hfixed hfree hfp hj hloc (by omega) hmem hmemj

/-! ## A stack slot -/

/-- What `getStackSlot` gives: the slot of the operand, new or old. -/
structure GotSlot (s : Scan) (o : OperandId) (slot : Int) (s' : Scan) : Prop where
  slots : s'.SlotsOk
  slot : s'.operandToSlot o = some slot
  old : ∀ o' slot', s.operandToSlot o' = some slot' → s'.operandToSlot o' = some slot'
  same : s.SameQueue s'
  active : s'.active = s.active
  inactive : s'.inactive = s.inactive

variable {slot : Int}

theorem SlotsOk.newStackSlot (h : s.SlotsOk) (hnew : s.newStackSlot = (slot, s')) :
    s'.SlotsOk ∧ s'.operandToSlot = s.operandToSlot ∧
      (∀ o, s.operandToSlot o ≠ some slot) ∧ slot ∉ s'.freeStackSlots ∧
      s'.maxStackSlot ≤ slot ∧ slot ≤ -8 ∧
      s.SameQueue s' ∧ s'.active = s.active ∧ s'.inactive = s.inactive := by
  unfold Scan.newStackSlot at hnew
  split at hnew
  case h_1 first rest hfree =>
      simp only [Prod.mk.injEq] at hnew
      obtain ⟨rfl, rfl⟩ := hnew
      have hnodup := h.free_nodup
      rw [hfree, nodup_cons] at hnodup
      have hbound := h.free_bound first (by simp [hfree])
      refine ⟨⟨h.injective, ?_, hnodup.2, h.bound, ?_, h.max_le⟩, rfl, ?_, hnodup.1,
        hbound.1, hbound.2, ⟨rfl, rfl, rfl⟩, rfl, rfl⟩
      · intro o slot hslot hmem
        exact h.not_free o slot hslot (by simp [hfree, hmem])
      · intro slot hmem
        exact h.free_bound slot (by simp [hfree, hmem])
      · intro o hslot
        exact h.not_free o first hslot (by simp [hfree])
  case h_2 hfree =>
      simp only [Prod.mk.injEq, kPointerSize] at hnew
      obtain ⟨rfl, rfl⟩ := hnew
      have hmax := h.max_le
      refine ⟨⟨h.injective, h.not_free, h.free_nodup, ?_, ?_, ?_⟩, rfl, ?_, by simp [hfree],
        le_refl _, by omega, ⟨rfl, rfl, rfl⟩, rfl, rfl⟩
      · intro o slot hslot
        have := h.bound o slot hslot
        dsimp only
        omega
      · simp [hfree]
      · dsimp only
        omega
      · intro o hslot
        have := h.bound o _ hslot
        omega

variable {o : OperandId}

theorem SlotsOk.getStackSlot (h : s.SlotsOk) (hget : s.getStackSlot o = some (slot, s')) :
    s.GotSlot o slot s' := by
  unfold Scan.getStackSlot at hget
  split at hget
  case h_1 old hold =>
      simp only [Option.some.injEq, Prod.mk.injEq] at hget
      obtain ⟨rfl, rfl⟩ := hget
      exact ⟨h, hold, fun _ _ hslot => hslot, ⟨rfl, rfl, rfl⟩, rfl, rfl⟩
  case h_2 hnone =>
      cases hnew : s.newStackSlot with
      | mk new s₁ =>
        rw [hnew] at hget
        dsimp only at hget
        split at hget
        case isFalse => simp at hget
        case isTrue =>
            simp only [Option.some.injEq, Prod.mk.injEq] at hget
            obtain ⟨rfl, rfl⟩ := hget
            obtain ⟨hslots, htable, hfresh, hfree, hlo, hhi, hsame, hactive, hinactive⟩ :=
              h.newStackSlot hnew
            have hcases : ∀ o' slot', Function.update s₁.operandToSlot o (some new) o' =
                some slot' → (o' = o ∧ slot' = new) ∨ s.operandToSlot o' = some slot' := by
              intro o' slot' hslot
              by_cases heq : o' = o
              · subst heq
                simp only [Function.update_self, Option.some.injEq] at hslot
                exact Or.inl ⟨rfl, hslot.symm⟩
              · rw [Function.update_of_ne heq, htable] at hslot
                exact Or.inr hslot
            refine ⟨⟨?_, ?_, hslots.free_nodup, ?_, hslots.free_bound, hslots.max_le⟩,
              by simp, ?_, ⟨hsame.intervals, hsame.count, hsame.unhandled⟩, hactive,
              hinactive⟩
            · intro o₁ o₂ slot' h₁ h₂
              rcases hcases o₁ slot' h₁ with ⟨heq₁, rfl⟩ | hold₁
              · rcases hcases o₂ slot' h₂ with ⟨heq₂, -⟩ | hold₂
                · rw [heq₁, heq₂]
                · exact absurd hold₂ (hfresh o₂)
              · rcases hcases o₂ slot' h₂ with ⟨-, rfl⟩ | hold₂
                · exact absurd hold₁ (hfresh o₁)
                · exact h.injective o₁ o₂ slot' hold₁ hold₂
            · intro o' slot' hslot
              rcases hcases o' slot' hslot with ⟨-, rfl⟩ | hslot
              · exact hfree
              · rw [← htable] at hslot
                exact hslots.not_free o' slot' hslot
            · intro o' slot' hslot
              rcases hcases o' slot' hslot with ⟨-, rfl⟩ | hslot
              · exact ⟨hlo, hhi⟩
              · rw [← htable] at hslot
                exact hslots.bound o' slot' hslot
            · intro o' slot' hslot
              have hne : o' ≠ o := by
                rintro rfl
                simp [hnone] at hslot
              simpa [hne, htable] using hslot

theorem Turn.getStackSlot (h : s.Turn ctx orig pos current) (hgot : s.GotSlot o slot s') :
    s'.Turn ctx orig pos current := by
  have hwaiting : s'.Waiting current = s.Waiting current := by
    funext k
    rw [Waiting, Waiting, hgot.same.unhandled]
  refine ⟨?_, ?_, ?_⟩
  · rw [hwaiting]
    refine h.inv.update hgot.same.intervals hgot.same.count hgot.slots ?_ ?_ ?_
    · exact fun o' slot' hslot => Or.inl (hgot.old o' slot' hslot)
    · rw [hgot.active, hgot.inactive]
      exact fun _ hi => hi
    · rw [hgot.active, hgot.inactive]
      exact fun _ hi _ => hi
  · rw [hgot.same.intervals, h.start]
  · rw [hgot.same.unhandled]
    exact h.not_queued

theorem getUseAtOrAfter_le {use : Int} (huse : use ∈ ctx.vregPhyUses o) (hloc : loc ≤ use) :
    getUseAtOrAfter ctx o loc ≤ use := by
  have hmem : use ∈ (ctx.vregPhyUses o).filter fun use => loc ≤ use :=
    Finset.mem_filter.mpr ⟨huse, hloc⟩
  unfold getUseAtOrAfter
  obtain ⟨first, hfirst⟩ := Finset.min_of_mem hmem
  rw [hfirst]
  exact Finset.min_le_of_eq hmem hfirst

theorem Turn.spillCurrent (h : s.Turn ctx orig pos current)
    (hfixed : (s.intervals current).fixed = false) {firstUse : Int}
    (huse : ∀ use ∈ ctx.vregPhyUses (s.intervals current).operand, pos ≤ use → firstUse ≤ use)
    (hspill : s.spillCurrent current firstUse = some s') : s'.Located ctx orig pos current := by
  simp only [Scan.spillCurrent, bind_eq_bind, bind_eq_some_iff,
    allocateTo_endLocation, Option.pure_def] at hspill
  obtain ⟨⟨slot, s₁⟩, hget, hspill⟩ := hspill
  have hgot := h.inv.slots.getStackSlot hget
  have hintervals := hgot.same.intervals
  have hturn : (s₁.allocateTo current slot).Turn ctx orig pos current :=
    (h.getStackSlot hgot).allocateTo (by rw [hintervals, hfixed])
  have hbound := hgot.slots.bound _ _ hgot.slot
  dsimp only at hspill
  have hready : ∀ s₂ : Scan, (s₂.intervals current).allocatedLoc.loc = slot →
      (s₂.intervals current).operand = (s.intervals current).operand →
      s₂.operandToSlot = s₁.operandToSlot →
      (∀ l, (s₂.intervals current).Mem l → (s.intervals current).Mem l ∧ l < firstUse) →
      s₂.Ready ctx (s₂.Done current) current := by
    intro s₂ hloc hoperand htable hmem
    constructor
    · exact Or.inr (by omega)
    · intro hreg
      omega
    · intro _ _ hreg
      omega
    · intro _ use hmemUse hcovers
      rw [hoperand] at hmemUse
      have := huse use hmemUse (h.le_of_mem (hmem use hcovers).1)
      have := (hmem use hcovers).2
      omega
    · intro _
      rw [htable, hoperand, hgot.slot, hloc]
  split at hspill
  · obtain ⟨hturn', hs, -⟩ := hturn.splitCurrent hspill
    refine ⟨hturn', hready s' ?_ ?_ hs.operandToSlot ?_⟩
    · rw [hs.allocatedLoc, allocateTo_loc]
    · rw [hs.operand.1, allocateTo_operand, hintervals]
    · intro l hl
      rwa [hs.mem_first, allocateTo_mem, hintervals] at hl
  case isFalse hend =>
      rw [← Option.some.inj hspill]
      refine ⟨hturn, hready _ (allocateTo_loc _ _ _) ?_ rfl ?_⟩
      · rw [allocateTo_operand, hintervals]
      · intro l hl
        rw [allocateTo_mem] at hl
        have := LiveInterval.lt_endLocation hl
        rw [hintervals] at hl
        exact ⟨hl, by omega⟩

/-! ## A register taken from another interval -/

structure Evicts (current : Nat) (s s' : Scan) : Prop where
  count_le : s.count ≤ s'.count
  done : ∀ k, s'.Done current k → s.Done current k
  shrinks : ∀ k < s.count, Shrinks (s.intervals k) (s'.intervals k)

theorem Evicts.refl (current : Nat) (s : Scan) : Evicts current s s :=
  ⟨le_refl _, fun _ h => h, fun _ _ => Shrinks.refl _⟩

theorem Evicts.trans {s'' : Scan} (h : Evicts current s s') (h' : Evicts current s' s'') :
    Evicts current s s'' := by
  refine ⟨le_trans h.count_le h'.count_le, fun k hk => h.done k (h'.done k hk), ?_⟩
  intro k hk
  have hfirst := h.shrinks k hk
  have hsecond := h'.shrinks k (lt_of_lt_of_le hk h.count_le)
  exact ⟨hsecond.operand.trans hfirst.operand, hsecond.allocatedLoc.trans hfirst.allocatedLoc,
    fun l hl => hfirst.mem l (hsecond.mem l hl)⟩

theorem Split.evicts (hs : s.Split i loc s')
    (hdone : ∀ k, s'.Done current k ↔ s.Done current k) : Evicts current s s' := by
  refine ⟨?_, fun k hk => (hdone k).mp hk, fun k hk => hs.shrinks hk⟩
  rw [hs.count]
  omega

theorem Evicts.apart (h : Evicts current s s') (hturn : s.Turn ctx orig pos current)
    (hj : j < s.count) (hapart : s.Apart current j) : s'.Apart current j := by
  intro l hcurrent hmem
  exact hapart l ((h.shrinks current hturn.lt_count).mem l hcurrent)
    ((h.shrinks j hj).mem l hmem)

theorem Turn.evictInactive (h : s.Turn ctx orig pos current) {j : Nat} (hj : j < s.count)
    (hne : j ≠ current) (hevict : evictInactive current pos s j = some s') :
    s'.Turn ctx orig pos current ∧ Evicts current s s' ∧ s'.Apart current j := by
  unfold Scan.evictInactive at hevict
  split at hevict
  · have hfirst := (s.intervals current).intersectWith_isFirst (s.intervals j)
    split at hevict
    case h_1 intersect hx =>
        rw [hx] at hfirst
        obtain ⟨hturn, hs, hdone⟩ := h.splitCurrent hevict
        refine ⟨hturn, hs.evicts hdone, ?_⟩
        intro l hcurrent hmem
        rw [hs.mem_first] at hcurrent
        rw [hs.other j hne (Nat.ne_of_lt hj)] at hmem
        have := hfirst.2 l ⟨hcurrent.1, hmem⟩
        omega
    case h_2 hx =>
        rw [hx] at hfirst
        rw [← Option.some.inj hevict]
        exact ⟨h, Evicts.refl _ _, fun l hcurrent hmem => hfirst l ⟨hcurrent, hmem⟩⟩
  · obtain ⟨hturn, hs, hdone⟩ := h.splitAndSave hj (le_refl pos) hevict
    refine ⟨hturn, hs.evicts hdone, ?_⟩
    intro l hcurrent hmem
    have := hturn.le_of_mem hcurrent
    have := ((hs.mem_first l).mp hmem).2
    omega

theorem Turn.evictAllInactive (inactive : List Nat) (h : s.Turn ctx orig pos current)
    (hinactive : ∀ j ∈ inactive, j < s.count ∧ j ≠ current)
    (hclear : ∀ k, s.Done current k → (s.intervals k).allocatedLoc.loc = reg →
      k ∉ inactive → s.Apart current k)
    (hevict : inactive.foldlM (Scan.evictInactive current pos) s = some s') :
    s'.Turn ctx orig pos current ∧ Evicts current s s' ∧
      ∀ k, s'.Done current k → (s'.intervals k).allocatedLoc.loc = reg →
        s'.Apart current k := by
  induction inactive generalizing s with
  | nil =>
    simp only [foldlM_nil, Option.pure_def, Option.some.injEq] at hevict
    subst hevict
    exact ⟨h, Evicts.refl _ _, fun k hk hloc => hclear k hk hloc (by simp)⟩
  | cons j rest ih =>
    simp only [foldlM_cons, Option.bind_eq_bind, Option.bind_eq_some_iff] at hevict
    obtain ⟨s₁, hfirst, hrest⟩ := hevict
    have hj := hinactive j (by simp)
    obtain ⟨hturn, hevicts, hapart⟩ := h.evictInactive hj.1 hj.2 hfirst
    have hrestInactive : ∀ k ∈ rest, k < s₁.count ∧ k ≠ current := by
      intro k hk
      have := hinactive k (by simp [hk])
      exact ⟨lt_of_lt_of_le this.1 hevicts.count_le, this.2⟩
    have hrestClear : ∀ k, s₁.Done current k → (s₁.intervals k).allocatedLoc.loc = reg →
        k ∉ rest → s₁.Apart current k := by
      intro k hk hloc hnot
      by_cases heq : k = j
      · exact heq ▸ hapart
      · have hdone := hevicts.done k hk
        rw [(hevicts.shrinks k hdone.1).allocatedLoc] at hloc
        exact hevicts.apart h hdone.1 (hclear k hdone hloc (by simp [heq, hnot]))
    obtain ⟨hturn', hevicts', hclear'⟩ := ih hturn hrestInactive hrestClear hrest
    exact ⟨hturn', hevicts.trans hevicts', hclear'⟩

theorem Turn.holder_unique (h : s.Turn ctx orig pos current) (hsets : s.SetsAt pos) {k : Nat}
    (hj : j ∈ s.active) (hk : k ∈ s.active) (hlocj : (s.intervals j).allocatedLoc.loc = reg)
    (hlock : (s.intervals k).allocatedLoc.loc = reg) : j = k := by
  by_contra hne
  have hjdone := h.inv.sets_handled j (Or.inl hj)
  have hkdone := h.inv.sets_handled k (Or.inl hk)
  exact h.inv.placed.apart_reg j k hjdone.1 hkdone.1 hne hjdone.2 (by rw [hlocj, hlock]) pos
    (hsets.active j hj) (hsets.active k hk)

theorem Turn.evictActive (h : s.Turn ctx orig pos current) (hsets : s.SetsAt pos) {holder : Nat}
    (hholder : holder ∈ s.active) (hevict : s.evictActive pos holder = some s') :
    s'.Turn ctx orig pos current ∧ Evicts current s s' ∧
      ∀ l, pos ≤ l → s'.Done current holder → ¬ (s'.intervals holder).Mem l := by
  have hdone := (h.inv.sets_handled holder (Or.inl hholder)).1
  unfold Scan.evictActive at hevict
  split at hevict
  case isTrue hstart =>
      rw [← Option.some.inj hevict]
      have hinactive : holder ∉ s.inactive := fun hmem =>
        hsets.inactive holder hmem (hsets.active holder hholder)
      have hsetsIff : ∀ k, k ∈ s.active.filter (fun i => i ≠ holder) ∨ k ∈ s.inactive ↔
          (k ∈ s.active ∨ k ∈ s.inactive) ∧ k ≠ holder := by
        intro k
        by_cases heq : k = holder
        · simp [heq, hinactive]
        · simp [heq]
      have hinv : Invariant ctx orig pos (fun k => s.Waiting current k ∨ k = holder)
          { s with
            active := s.active.filter fun i => i ≠ holder
            unhandled := holder :: s.unhandled } :=
        h.inv.requeue hdone hstart.symm ⟨rfl, rfl, rfl, rfl, rfl⟩ hsetsIff
      refine ⟨⟨hinv.congr_pending ?_, h.start, ?_⟩, ⟨le_refl _, ?_, fun _ _ => Shrinks.refl _⟩, ?_⟩
      · intro k
        simp only [Waiting, mem_cons]
        tauto
      · simp only [mem_cons, not_or]
        exact ⟨(h.ne_of_done hdone).symm, h.not_queued⟩
      · intro k hk
        refine ⟨hk.1, fun hwaiting => hk.2 ?_⟩
        exact hwaiting.imp id (mem_cons_of_mem _)
      · intro l _ hqueued
        exact absurd (Or.inr mem_cons_self) hqueued.2
  case isFalse hstart =>
      obtain ⟨hturn, hs, hiff⟩ := h.splitAndSave hdone.1 (le_refl pos) hevict
      refine ⟨hturn, hs.evicts hiff, ?_⟩
      intro l hl _ hmem
      have := ((hs.mem_first l).mp hmem).2
      omega

theorem allocateBlockedReg_cases (h : s.allocateBlockedReg ctx current = some s') :
    ∃ reg, s.farthestReg ctx current = some reg ∧
      (s.spillCurrent current (getUseAtOrAfter ctx (s.intervals current).operand
          (s.intervals current).startLocation) = some s' ∨
        ∃ holder s₁,
          holder ∈ s.holding ctx s.active (ctx.isFp (s.intervals current).operand) reg ∧
          (s.allocateTo current reg).evictActive (s.intervals current).startLocation holder =
            some s₁ ∧
          (s.holding ctx s.inactive (ctx.isFp (s.intervals current).operand) reg).foldlM
            (evictInactive current (s.intervals current).startLocation) s₁ = some s') := by
  simp only [allocateBlockedReg, bind_eq_bind, bind_eq_some_iff] at h
  obtain ⟨reg, hreg, h⟩ := h
  refine ⟨reg, hreg, ?_⟩
  split at h
  · exact Or.inl h
  · simp only [bind_eq_some_iff] at h
    obtain ⟨holder, hholder, s₁, hactive, hinactive⟩ := h
    exact Or.inr ⟨holder, s₁, mem_of_head? hholder, hactive, hinactive⟩

theorem farthestReg_isFp (h : s.farthestReg ctx current = some reg) :
    isFpRegister ctx reg = ctx.isFp (s.intervals current).operand := by
  refine isFpRegister_of_mem ?_ (maxElement_mem h)
  have := ctx.regs.numRegs_eq
  have := ctx.regs.numVecdRegs_le
  omega

theorem Turn.allocateBlockedReg (h : s.Turn ctx orig pos current) (hsets : s.SetsAt pos)
    (hfixed : (s.intervals current).fixed = false)
    (hblocked : s.allocateBlockedReg ctx current = some s') :
    s'.Located ctx orig pos current := by
  obtain ⟨reg, hreg, hcases⟩ := allocateBlockedReg_cases hblocked
  rw [h.start] at hcases
  rcases hcases with hspill | ⟨holder, s₂, hholder, hactive, hinactive⟩
  · exact h.spillCurrent hfixed (fun use huse hle => getUseAtOrAfter_le huse hle) hspill
  · have hfp := farthestReg_isFp hreg
    have hturn₁ : (s.allocateTo current reg).Turn ctx orig pos current := h.allocateTo hfixed
    have hsets₁ : (s.allocateTo current reg).SetsAt pos := by
      constructor
      · intro i hi
        rw [allocateTo_mem]
        exact hsets.active i hi
      · intro i hi
        rw [allocateTo_mem]
        exact hsets.inactive i hi
    rw [mem_holding] at hholder
    obtain ⟨hturn₂, hevicts₂, hgone⟩ := hturn₁.evictActive hsets₁ hholder.1 hactive
    have hold : ∀ k, s.Done current k →
        (s.allocateTo current reg).intervals k = s.intervals k := fun k hk =>
      allocateTo_of_ne (h.ne_of_done hk)
    have hclear : ∀ k, s₂.Done current k → (s₂.intervals k).allocatedLoc.loc = reg →
        k ∉ s.holding ctx s.inactive (ctx.isFp (s.intervals current).operand) reg →
        s₂.Apart current k := by
      intro k hk hloc hnot l hcurrent hmem
      have hpos := hturn₂.le_of_mem hcurrent
      have hdone : s.Done current k := hevicts₂.done k hk
      have hshrinks := hevicts₂.shrinks k hdone.1
      rw [hold k hdone] at hshrinks
      rw [hshrinks.allocatedLoc] at hloc
      have hend := LiveInterval.lt_endLocation (hshrinks.mem l hmem)
      have hclass := h.inv.placed.fp k hdone (by omega)
      rw [hloc, hfp] at hclass
      cases h.inv.in_sets k hdone (by omega) (by omega) with
      | inl hkactive =>
        have heq := h.holder_unique hsets hkactive hholder.1 hloc hholder.2.2
        rw [heq] at hk hmem
        exact hgone l hpos hk hmem
      | inr hkinactive => exact hnot (mem_holding.mpr ⟨hkinactive, hclass.symm, hloc⟩)
    have hlist : ∀ j ∈ s.holding ctx s.inactive (ctx.isFp (s.intervals current).operand) reg,
        j < s₂.count ∧ j ≠ current := by
      intro j hj
      have hdone := (h.inv.sets_handled j (Or.inr (mem_holding.mp hj).1)).1
      exact ⟨lt_of_lt_of_le hdone.1 hevicts₂.count_le, h.ne_of_done hdone⟩
    obtain ⟨hturn, hevicts, hapart⟩ := hturn₂.evictAllInactive _ hlist hclear hinactive
    have hshrinks := (hevicts₂.trans hevicts).shrinks current hturn₁.lt_count
    have hloc : (s'.intervals current).allocatedLoc.loc = reg := by
      rw [hshrinks.allocatedLoc, allocateTo_loc]
    refine ⟨hturn, ready_of_reg hloc ?_ hapart⟩
    rw [hshrinks.operand, allocateTo_operand, hfp]

def Between (ctx : ScanContext) (orig : OperandId → LiveInterval) (s : Scan) : Prop :=
  ∃ pos, s.Invariant ctx orig pos (fun i => i ∈ s.unhandled)

theorem tryAllocateFreeReg_not_fixed (h : s.tryAllocateFreeReg ctx current = some none) :
    (s.intervals current).fixed = false := by
  unfold tryAllocateFreeReg at h
  split at h
  case isTrue => simp at h
  case isFalse hfixed => simpa using hfixed

theorem Turn.allocate (h : s.Turn ctx orig pos current) (hsets : s.SetsAt pos)
    (hallocate : s.allocate ctx current = some s') : s'.Located ctx orig pos current := by
  unfold Scan.allocate at hallocate
  split at hallocate
  case h_1 s₁ htry =>
      rw [← Option.some.inj hallocate]
      exact h.tryAllocateFreeReg htry
  case h_2 htry =>
      exact h.allocateBlockedReg hsets (tryAllocateFreeReg_not_fixed htry) hallocate
  case h_3 => simp at hallocate

theorem Invariant.take (h : s.Invariant ctx orig pos (fun i => i ∈ s.unhandled))
    (htop : s.IsTop current) :
    Turn ctx orig (s.intervals current).startLocation current
      { s with unhandled := s.unhandled.filter fun i => i ≠ current } := by
  have hadvance := h.advance (h.pending_start current htop.1) htop.2
  refine ⟨?_, rfl, by simp⟩
  have hwaiting : ∀ k, k ∈ s.unhandled ↔
      Waiting { s with unhandled := s.unhandled.filter fun i => i ≠ current } current k := by
    intro k
    by_cases heq : k = current
    · simp [Waiting, heq, htop.1]
    · simp [Waiting, heq]
  refine (hadvance.congr_pending hwaiting).update rfl rfl ?_ ?_ ?_ ?_
  · exact h.slots.congr rfl rfl rfl
  · exact fun _ _ hslot => Or.inl hslot
  · exact fun _ hi => hi
  · exact fun _ hi _ => hi

theorem Turn.congr_queue {s₁ : Scan} (h : s.Turn ctx orig pos current)
    (hinv : s₁.Invariant ctx orig pos (s.Waiting current)) (hsame : s.SameQueue s₁) :
    s₁.Turn ctx orig pos current := by
  have hwaiting : s₁.Waiting current = s.Waiting current := by
    funext k
    rw [Waiting, Waiting, hsame.unhandled]
  refine ⟨hwaiting ▸ hinv, ?_, ?_⟩
  · rw [hsame.intervals, h.start]
  · rw [hsame.unhandled]
    exact h.not_queued

theorem Located.finish (h : s.Located ctx orig pos current) :
    (s.recordLocation current).Between ctx orig := by
  have hwaiting : ∀ k, s.Waiting current k ∧ k ≠ current ↔ k ∈ s.unhandled := by
    intro k
    by_cases heq : k = current
    · simp [Waiting, heq, h.turn.not_queued]
    · simp [Waiting, heq]
  refine ⟨pos, ?_⟩
  unfold recordLocation
  split
  case isTrue hreg =>
      have hreg : 0 ≤ (s.intervals current).allocatedLoc.loc := by
        simpa [isRegisterAllocated, PhyLocation.isRegister] using hreg
      apply Invariant.congr_pending _ hwaiting
      refine h.turn.inv.place (Or.inl rfl) h.turn.start h.ready ⟨rfl, rfl, rfl, rfl, rfl⟩ ?_
      intro k
      simp only [mem_cons, hreg, and_true]
      tauto
  case isFalse hreg =>
      have hstack : ¬ 0 ≤ (s.intervals current).allocatedLoc.loc := by
        simpa [isRegisterAllocated, PhyLocation.isRegister] using hreg
      apply Invariant.congr_pending _ hwaiting
      refine h.turn.inv.place (Or.inl rfl) h.turn.start h.ready ⟨rfl, rfl, rfl, rfl, rfl⟩ ?_
      simp [hstack]

theorem Between.step (h : s.Between ctx orig) (htop : s.IsTop current)
    (hstep : step ctx current s = some s') : s'.Between ctx orig := by
  obtain ⟨pos, h⟩ := h
  simp only [Scan.step, Option.bind_eq_bind, Option.bind_eq_some_iff, Option.pure_def]
    at hstep
  obtain ⟨s₁, hrelease, s₂, hallocate, hstep⟩ := hstep
  have hturn := h.take htop
  obtain ⟨hinv, hsame⟩ := hturn.inv.releaseStackSlots hrelease
  have hupdated : (s₁.updateSets (s.intervals current).startLocation).Turn ctx orig
      (s.intervals current).startLocation current :=
    hturn.congr_queue hinv.updateSets ⟨hsame.intervals, hsame.count, hsame.unhandled⟩
  rw [← Option.some.inj hstep]
  exact (hupdated.allocate (updateSets_setsAt _ _) hallocate).finish

theorem Between.perm {active inactive : List Nat} (h : s.Between ctx orig)
    (hactive : active.Perm s.active) (hinactive : inactive.Perm s.inactive) :
    Between ctx orig { s with active := active, inactive := inactive } := by
  obtain ⟨pos, h⟩ := h
  refine ⟨pos, h.update rfl rfl ?_ ?_ ?_ ?_⟩
  · exact h.slots.congr rfl rfl rfl
  · exact fun _ _ hslot => Or.inl hslot
  · intro i hi
    exact hi.imp hactive.mem_iff.mp hinactive.mem_iff.mp
  · intro i hi _
    exact hi.imp hactive.mem_iff.mpr hinactive.mem_iff.mpr

theorem Between.run (h : s.Between ctx orig) (hrun : Run ctx s s') : s'.Between ctx orig := by
  induction hrun with
  | refl => exact h
  | tail _ hstep ih =>
    obtain ⟨current, active, inactive, htop, hactive, hinactive, hstep⟩ := hstep
    exact (ih.perm hactive hinactive).step htop hstep

end CinderX.Jit.Lir.Scan
