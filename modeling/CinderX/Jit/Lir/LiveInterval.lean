import CinderX.Jit.Lir.Function

/-!
# Live intervals

A live interval is a list of half-open ranges of locations, ascending and with
a gap between neighbours.  Its operations are those of `LiveInterval`; what
they mean for the set of covered locations is stated next to each of them.
-/

namespace CinderX.Jit.Lir

open List

/-- `LiveRange`, with the check of its constructor as a field.  Locations are integers. -/
structure LiveRange where
  start : Int
  stop : Int
  lt : start < stop
  deriving DecidableEq, Repr

namespace LiveRange

def make? (start stop : Int) : Option LiveRange :=
  if h : start < stop then some ⟨start, stop, h⟩ else none

def isInRange (range : LiveRange) (loc : Int) : Bool :=
  range.start ≤ loc && loc < range.stop

def intersectsWith (a b : LiveRange) : Bool :=
  if b.start < a.start then a.start < b.stop else b.start < a.stop

theorem isInRange_iff {range : LiveRange} {loc : Int} :
    range.isInRange loc = true ↔ range.start ≤ loc ∧ loc < range.stop := by
  simp [isInRange]

theorem intersectsWith_iff {a b : LiveRange} :
    a.intersectsWith b = true ↔
      ∃ loc, a.isInRange loc = true ∧ b.isInRange loc = true := by
  have ha := a.lt
  have hb := b.lt
  simp only [isInRange_iff, intersectsWith]
  constructor
  · intro h
    split at h
    · exact ⟨a.start, by simp only [decide_eq_true_eq] at h; omega⟩
    · exact ⟨b.start, by simp only [decide_eq_true_eq] at h; omega⟩
  · rintro ⟨loc, hloc⟩
    split <;> simp only [decide_eq_true_eq] <;> omega

end LiveRange

def Separated (ranges : List LiveRange) : Prop :=
  ranges.Pairwise fun a b => a.stop < b.start

instance (ranges : List LiveRange) : Decidable (Separated ranges) :=
  inferInstanceAs (Decidable (ranges.Pairwise fun a b => a.stop < b.start))

def InRanges (ranges : List LiveRange) (loc : Int) : Prop :=
  ∃ range ∈ ranges, range.isInRange loc = true

@[simp] theorem inRanges_nil (loc : Int) : ¬ InRanges [] loc := by
  simp [InRanges]

@[simp] theorem inRanges_cons (range : LiveRange) (ranges : List LiveRange)
    (loc : Int) :
    InRanges (range :: ranges) loc ↔ range.isInRange loc = true ∨ InRanges ranges loc := by
  simp [InRanges]

@[simp] theorem inRanges_append (before after : List LiveRange) (loc : Int) :
    InRanges (before ++ after) loc ↔ InRanges before loc ∨ InRanges after loc := by
  simp [InRanges, or_and_right, exists_or]

/-! ## Adding a range -/

/--
The loop of `addRange` over the ranges after the new one: it grows the end of
the new range while they touch it, and drops them.
-/
def absorb (stop : Int) : List LiveRange → Int × List LiveRange
  | [] => (stop, [])
  | range :: rest =>
    if range.start ≤ stop then absorb (max stop range.stop) rest
    else (stop, range :: rest)

theorem le_absorb (stop : Int) (ranges : List LiveRange) :
    stop ≤ (absorb stop ranges).1 := by
  induction ranges generalizing stop with
  | nil => simp [absorb]
  | cons range rest ih =>
    simp only [absorb]
    split
    · have := ih (max stop range.stop)
      omega
    · simp

theorem absorb_separated {stop : Int} {ranges : List LiveRange}
    (h : Separated ranges) :
    Separated (absorb stop ranges).2 ∧
      ∀ range ∈ (absorb stop ranges).2, (absorb stop ranges).1 < range.start := by
  induction ranges generalizing stop with
  | nil => simp [absorb, Separated]
  | cons range rest ih =>
    have hrest := pairwise_cons.mp h
    simp only [absorb]
    split
    · exact ih hrest.2
    case isFalse hgap =>
        refine ⟨h, ?_⟩
        intro other hother
        simp only [mem_cons] at hother
        cases hother with
        | inl heq =>
          subst heq
          simpa using hgap
        | inr hmem =>
          have := hrest.1 other hmem
          have := range.lt
          simp only at *
          omega

theorem absorb_subset (stop : Int) (ranges : List LiveRange) :
    ∀ range ∈ (absorb stop ranges).2, range ∈ ranges := by
  induction ranges generalizing stop with
  | nil => simp [absorb]
  | cons first rest ih =>
    intro range hmem
    simp only [absorb] at hmem
    split at hmem
    · simp [ih _ range hmem]
    · exact hmem

variable {ranges : List LiveRange}

theorem mem_absorb {start stop : Int} (hseparated : Separated ranges)
    (hstart : ∀ range ∈ ranges, start ≤ range.start) (hlt : start < stop) (loc : Int) :
    (start ≤ loc ∧ loc < (absorb stop ranges).1) ∨ InRanges (absorb stop ranges).2 loc ↔
      (start ≤ loc ∧ loc < stop) ∨ InRanges ranges loc := by
  induction ranges generalizing stop with
  | nil => simp [absorb]
  | cons range rest ih =>
    have hrest := pairwise_cons.mp hseparated
    have hrange := hstart range (by simp)
    have hne := range.lt
    simp only [absorb]
    split
    case isTrue htouch =>
        rw [ih hrest.2 (fun r hr => hstart r (by simp [hr])) (by omega), inRanges_cons,
          LiveRange.isInRange_iff, ← or_assoc]
        apply or_congr_left
        omega
    case isFalse => rfl

def addRange (ranges : List LiveRange) (range : LiveRange) : List LiveRange :=
  let before := ranges.takeWhile fun r => r.start < range.start
  let after := ranges.dropWhile fun r => r.start < range.start
  let absorbed := absorb range.stop after
  let rest := absorbed.2
  have hlt : range.start < absorbed.1 := lt_of_lt_of_le range.lt (le_absorb _ _)
  match before.getLast? with
  | some prev =>
    if range.start ≤ prev.stop then
      before.dropLast ++
        ⟨prev.start, max absorbed.1 prev.stop, lt_of_lt_of_le prev.lt (le_max_right _ _)⟩ :: rest
    else before ++ ⟨range.start, absorbed.1, hlt⟩ :: rest
  | none => ⟨range.start, absorbed.1, hlt⟩ :: rest

theorem Separated.sublist {ranges' : List LiveRange} (h : Separated ranges)
    (hsub : List.Sublist ranges' ranges) : Separated ranges' :=
  List.Pairwise.sublist hsub h

variable {loc : Int}

theorem Separated.start_le_of_dropWhile (h : Separated ranges) {range : LiveRange}
    (hmem : range ∈ ranges.dropWhile fun r => r.start < loc) : loc ≤ range.start := by
  induction ranges with
  | nil => simp at hmem
  | cons first rest ih =>
    have hrest := pairwise_cons.mp h
    simp only [dropWhile_cons] at hmem
    split at hmem
    · exact ih hrest.2 hmem
    case isFalse hfirst =>
        simp only [decide_eq_true_eq] at hfirst
        simp only [mem_cons] at hmem
        cases hmem with
        | inl heq => rw [heq]; omega
        | inr hmem =>
          have := hrest.1 range hmem
          have := first.lt
          omega

theorem start_lt_of_takeWhile {range : LiveRange}
    (hmem : range ∈ ranges.takeWhile fun r => r.start < loc) : range.start < loc := by
  simpa using mem_takeWhile_imp hmem

theorem dropLast_append_getLast? {last : LiveRange} (h : ranges.getLast? = some last) :
    ranges = ranges.dropLast ++ [last] := by
  have hne : ranges ≠ [] := by
    rintro rfl
    simp at h
  rw [getLast?_eq_some_getLast hne, Option.some.injEq] at h
  rw [← h, dropLast_concat_getLast]

theorem Separated.split (h : Separated ranges) (loc : Int) :
    ∃ before after, ranges.takeWhile (fun r => r.start < loc) = before ∧
      ranges.dropWhile (fun r => r.start < loc) = after ∧ ranges = before ++ after ∧
      Separated before ∧ Separated after ∧
      (∀ range ∈ before, range.start < loc) ∧ (∀ range ∈ after, loc ≤ range.start) ∧
      ∀ a ∈ before, ∀ b ∈ after, a.stop < b.start := by
  refine ⟨_, _, rfl, rfl, takeWhile_append_dropWhile.symm,
    h.sublist (takeWhile_sublist _), h.sublist (dropWhile_sublist _),
    fun _ hmem => start_lt_of_takeWhile hmem,
    fun _ hmem => h.start_le_of_dropWhile hmem, ?_⟩
  have hsplit : Separated (ranges.takeWhile (fun r => r.start < loc) ++
      ranges.dropWhile fun r => r.start < loc) := by
    rw [takeWhile_append_dropWhile]
    exact h
  exact (pairwise_append.mp hsplit).2.2

theorem addRange_cases (ranges : List LiveRange) (range : LiveRange)
    {before after rest : List LiveRange} {stop : Int}
    (hbefore : ranges.takeWhile (fun r => r.start < range.start) = before)
    (hafter : ranges.dropWhile (fun r => r.start < range.start) = after)
    (habsorb : absorb range.stop after = (stop, rest)) :
    (∃ new : LiveRange, new.start = range.start ∧ new.stop = stop ∧
      addRange ranges range = before ++ new :: rest ∧
      ∀ prev ∈ before.getLast?, prev.stop < range.start) ∨
    ∃ init prev, ∃ new : LiveRange, before = init ++ [prev] ∧ range.start ≤ prev.stop ∧
      new.start = prev.start ∧ new.stop = max stop prev.stop ∧
      addRange ranges range = init ++ new :: rest := by
  subst hbefore hafter
  unfold addRange
  cases hlast : (ranges.takeWhile fun r => r.start < range.start).getLast? with
  | none =>
    have hnil := getLast?_eq_none_iff.mp hlast
    left
    refine ⟨⟨range.start, stop, ?_⟩, rfl, rfl, ?_, by simp⟩
    · have := le_absorb range.stop (ranges.dropWhile fun r => r.start < range.start)
      rw [habsorb] at this
      exact lt_of_lt_of_le range.lt this
    · simp [habsorb, hnil]
  | some prev =>
    have hsplit := dropLast_append_getLast? hlast
    by_cases htouch : range.start ≤ prev.stop
    · right
      refine ⟨_, prev, ⟨prev.start, max stop prev.stop, ?_⟩, hsplit, htouch, rfl, rfl, ?_⟩
      · exact lt_of_lt_of_le prev.lt (le_max_right _ _)
      · simp [habsorb, hlast, htouch]
    · left
      refine ⟨⟨range.start, stop, ?_⟩, rfl, rfl, ?_, ?_⟩
      · have := le_absorb range.stop (ranges.dropWhile fun r => r.start < range.start)
        rw [habsorb] at this
        exact lt_of_lt_of_le range.lt this
      · simp [habsorb, hlast, htouch]
      · simp
        omega

theorem Separated.stop_lt_of_getLast? (h : Separated ranges)
    (hlast : ∀ prev ∈ ranges.getLast?, prev.stop < loc) :
    ∀ range ∈ ranges, range.stop < loc := by
  intro range hmem
  cases hgetLast : ranges.getLast? with
  | none => simp [getLast?_eq_none_iff.mp hgetLast] at hmem
  | some prev =>
    have hprev := hlast prev (by simp [hgetLast])
    rw [dropLast_append_getLast? hgetLast] at h hmem
    have hcross := (pairwise_append.mp h).2.2
    simp only [mem_append, mem_singleton] at hmem
    cases hmem with
    | inl hinit =>
      have := hcross range hinit prev (by simp)
      have := prev.lt
      omega
    | inr heq => rwa [heq]

theorem addRange_separated (h : Separated ranges) (range : LiveRange) :
    Separated (addRange ranges range) := by
  obtain ⟨before, after, hbefore, hafter, -, hsepBefore, hsepAfter, -, -, hcross⟩ :=
    h.split range.start
  cases habsorb : absorb range.stop after with
  | mk stop rest =>
    obtain ⟨hsepRest, hgap⟩ : Separated rest ∧ ∀ r ∈ rest, stop < r.start := by
      have := @absorb_separated range.stop after hsepAfter
      rwa [habsorb] at this
    have hsubset : ∀ r ∈ rest, r ∈ after := by
      have := absorb_subset range.stop after
      rwa [habsorb] at this
    rcases addRange_cases ranges range hbefore hafter habsorb with
      ⟨new, hstart, hstop, heq, hprev⟩ | ⟨init, prev, new, hinit, -, hstart, hstop, heq⟩
    · have hlast := hsepBefore.stop_lt_of_getLast? hprev
      rw [heq]
      refine pairwise_append.mpr ⟨hsepBefore, pairwise_cons.mpr ⟨?_, hsepRest⟩, ?_⟩
      · intro r hr
        rw [hstop]
        exact hgap r hr
      · intro a ha b hb
        simp only [mem_cons] at hb
        cases hb with
        | inl hb =>
          rw [hb, hstart]
          exact hlast a ha
        | inr hb => exact hcross a ha b (hsubset b hb)
    · subst hinit
      have hsplit := pairwise_append.mp hsepBefore
      rw [heq]
      refine pairwise_append.mpr ⟨hsplit.1, pairwise_cons.mpr ⟨?_, hsepRest⟩, ?_⟩
      · intro r hr
        have := hgap r hr
        have := hcross prev (by simp) r (hsubset r hr)
        omega
      · intro a ha b hb
        simp only [mem_cons] at hb
        cases hb with
        | inl hb =>
          rw [hb, hstart]
          exact hsplit.2.2 a ha prev (by simp)
        | inr hb => exact hcross a (by simp [ha]) b (hsubset b hb)

theorem mem_addRange (h : Separated ranges) (range : LiveRange) (loc : Int) :
    InRanges (addRange ranges range) loc ↔
      InRanges ranges loc ∨ range.isInRange loc = true := by
  obtain ⟨before, after, hbefore, hafter, hranges, -, hsepAfter, hlt, hge, hcross⟩ :=
    h.split range.start
  cases habsorb : absorb range.stop after with
  | mk stop rest =>
    have hmem := mem_absorb hsepAfter hge range.lt loc
    rw [habsorb] at hmem
    have hle := le_absorb range.stop after
    rw [habsorb] at hle
    rcases addRange_cases ranges range hbefore hafter habsorb with
      ⟨new, hstart, hstop, heq, hprev⟩ | ⟨init, prev, new, hinit, htouch, hstart, hstop, heq⟩
    · rw [heq, hranges]
      simp only [inRanges_append, inRanges_cons, LiveRange.isInRange_iff, hstart, hstop]
      rw [hmem]
      simp only [or_comm, or_left_comm]
    · have hprevStart := hlt prev (by simp [hinit])
      have hprevLt := prev.lt
      rw [heq, hranges, hinit]
      simp only [inRanges_append, inRanges_cons, inRanges_nil, or_false,
        LiveRange.isInRange_iff, hstart, hstop]
      have hmerge : prev.start ≤ loc ∧ loc < max stop prev.stop ↔
          (prev.start ≤ loc ∧ loc < prev.stop) ∨ (range.start ≤ loc ∧ loc < stop) := by
        have := range.lt
        omega
      rw [hmerge, or_assoc, hmem]
      simp only [or_assoc, or_comm, or_left_comm]

def setFrom (loc : Int) : List LiveRange → List LiveRange
  | [] => []
  | range :: rest =>
    if h : range.stop ≤ loc then rest
    else ⟨max loc range.start, range.stop, max_lt (not_le.mp h) range.lt⟩ :: rest

theorem setFrom_separated (h : Separated ranges) (loc : Int) :
    Separated (setFrom loc ranges) := by
  cases ranges with
  | nil => exact h
  | cons range rest =>
    have hrest := pairwise_cons.mp h
    simp only [setFrom]
    split
    · exact hrest.2
    · exact pairwise_cons.mpr ⟨fun r hr => hrest.1 r hr, hrest.2⟩

theorem inRanges_of_setFrom {from' : Int} (h : InRanges (setFrom from' ranges) loc) :
    InRanges ranges loc := by
  cases ranges with
  | nil => exact h
  | cons range rest =>
    simp only [setFrom] at h
    split at h
    · simp [h]
    · simp only [inRanges_cons, LiveRange.isInRange_iff] at h ⊢
      exact h.imp_left fun hloc => by omega

theorem inRanges_setFrom_of_le {from' : Int} (h : InRanges ranges loc) (hle : from' ≤ loc) :
    InRanges (setFrom from' ranges) loc := by
  cases ranges with
  | nil => exact h
  | cons range rest =>
    simp only [inRanges_cons, LiveRange.isInRange_iff] at h
    simp only [setFrom]
    split
    · cases h with
      | inl hloc => omega
      | inr hrest => exact hrest
    · simp only [inRanges_cons, LiveRange.isInRange_iff]
      exact h.imp_left fun hloc => by omega

/-! ## Queries -/

def covers (ranges : List LiveRange) (loc : Int) : Bool :=
  match (ranges.takeWhile fun r => r.start ≤ loc).getLast? with
  | some range => loc < range.stop
  | none => false

theorem covers_iff (h : Separated ranges) (loc : Int) :
    covers ranges loc = true ↔ InRanges ranges loc := by
  have htake : (ranges.takeWhile fun r => r.start ≤ loc) =
      ranges.takeWhile fun r => r.start < loc + 1 := by
    congr 1
    funext r
    simp
  obtain ⟨before, after, hbefore, -, hranges, hsepBefore, -, hlt, hge, -⟩ := h.split (loc + 1)
  unfold covers
  rw [htake, hbefore, hranges, inRanges_append]
  have hafter : ¬ InRanges after loc := by
    rintro ⟨range, hmem, hin⟩
    have := hge range hmem
    rw [LiveRange.isInRange_iff] at hin
    omega
  cases hlast : before.getLast? with
  | none => simp [getLast?_eq_none_iff.mp hlast, hafter]
  | some prev =>
    have hsplit := dropLast_append_getLast? hlast
    have hprev : prev.start < loc + 1 := by
      apply hlt
      rw [hsplit]
      simp
    have hinit : ¬ InRanges before.dropLast loc := by
      rintro ⟨range, hmem, hin⟩
      rw [hsplit] at hsepBefore
      have := (pairwise_append.mp hsepBefore).2.2 range hmem prev (by simp)
      rw [LiveRange.isInRange_iff] at hin
      omega
    rw [hsplit, inRanges_append, inRanges_cons, LiveRange.isInRange_iff]
    simp only [hinit, hafter, inRanges_nil, false_or, or_false, decide_eq_true_eq]
    omega

/-- The first intersection with a range; `none` stands for `INVALID_LOCATION`. -/
def intersectWithRange (ranges : List LiveRange) (range : LiveRange) : Option Int :=
  let before := ranges.takeWhile fun r => r.start < range.start
  let after := ranges.dropWhile fun r => r.start < range.start
  if before.getLast?.any fun prev => prev.intersectsWith range then some range.start
  else
    match after with
    | next :: _ => if next.intersectsWith range then some next.start else none
    | [] => none

def firstIntersection (other : List LiveRange) : List LiveRange → Option Int
  | [] => none
  | range :: rest =>
    match intersectWithRange other range with
    | some loc => some loc
    | none => firstIntersection other rest

/-- `LiveInterval::intersectWith`: the loop runs over the shorter list. -/
def intersectWith (a b : List LiveRange) : Option Int :=
  if b.length < a.length then firstIntersection a b else firstIntersection b a

def IsFirst (p : Int → Prop) : Option Int → Prop
  | some loc => p loc ∧ ∀ other, p other → loc ≤ other
  | none => ∀ other, ¬ p other

theorem IsFirst.congr {p q : Int → Prop} {result : Option Int} (h : IsFirst p result)
    (hpq : ∀ loc, p loc ↔ q loc) : IsFirst q result := by
  have : p = q := funext fun loc => propext (hpq loc)
  exact this ▸ h

theorem intersectWithRange_isFirst (h : Separated ranges) (range : LiveRange) :
    IsFirst (fun loc => InRanges ranges loc ∧ range.isInRange loc = true)
      (intersectWithRange ranges range) := by
  obtain ⟨before, after, hbefore, hafter, hranges, hsepBefore, hsepAfter, hlt, hge, -⟩ :=
    h.split range.start
  have hrange := range.lt
  unfold intersectWithRange
  rw [hbefore, hafter, hranges]
  simp only [inRanges_append, LiveRange.isInRange_iff]
  split
  case isTrue hprev =>
      cases hlast : before.getLast? with
      | none => simp [hlast] at hprev
      | some prev =>
        simp only [hlast, Option.any_some, LiveRange.intersectsWith_iff,
          LiveRange.isInRange_iff] at hprev
        obtain ⟨loc, hin, hin'⟩ := hprev
        have hmem : prev ∈ before := mem_of_getLast? hlast
        have := hlt prev hmem
        refine ⟨⟨Or.inl ⟨prev, hmem, ?_⟩, by omega⟩, fun other hother => hother.2.1⟩
        rw [LiveRange.isInRange_iff]
        omega
  case isFalse hprev =>
      have hnone : ∀ loc, range.start ≤ loc → loc < range.stop → ¬ InRanges before loc := by
        rintro loc hle hlt' ⟨r, hmem, hin⟩
        cases hlast : before.getLast? with
        | none => simp [getLast?_eq_none_iff.mp hlast] at hmem
        | some prev =>
          simp only [hlast, Option.any_some, LiveRange.intersectsWith_iff,
            LiveRange.isInRange_iff] at hprev
          rw [LiveRange.isInRange_iff] at hin
          rw [dropLast_append_getLast? hlast] at hmem hsepBefore
          simp only [mem_append, mem_singleton] at hmem
          rcases hmem with hmem | rfl
          · have := (pairwise_append.mp hsepBefore).2.2 r hmem prev (by simp)
            have := hlt prev (mem_of_getLast? hlast)
            omega
          · exact hprev ⟨loc, hin, hle, hlt'⟩
      cases after with
      | nil =>
        intro loc hloc
        rcases hloc with ⟨hin | hin, hle, hlt'⟩
        · exact hnone loc hle hlt' hin
        · simp at hin
      | cons next rest =>
        have hnext := hge next (by simp)
        have hrest := (pairwise_cons.mp hsepAfter).1
        dsimp only
        split
        case isTrue hmeets =>
            rw [LiveRange.intersectsWith_iff] at hmeets
            obtain ⟨loc, hin, hin'⟩ := hmeets
            rw [LiveRange.isInRange_iff] at hin hin'
            have := next.lt
            refine ⟨⟨Or.inr ?_, by omega, by omega⟩, ?_⟩
            · simp only [inRanges_cons, LiveRange.isInRange_iff]
              omega
            · rintro other ⟨hother | hother, hle, hlt'⟩
              · exact absurd hother (hnone other hle hlt')
              · rw [inRanges_cons, LiveRange.isInRange_iff] at hother
                rcases hother with hother | ⟨r, hmem, hin⟩
                · omega
                · have := hrest r hmem
                  rw [LiveRange.isInRange_iff] at hin
                  omega
        case isFalse hmeets =>
            rw [LiveRange.intersectsWith_iff] at hmeets
            rintro other ⟨hother | hother, hle, hlt'⟩
            · exact hnone other hle hlt' hother
            · rw [inRanges_cons] at hother
              rcases hother with hother | ⟨r, hmem, hin⟩
              · exact hmeets ⟨other, hother, LiveRange.isInRange_iff.mpr ⟨hle, hlt'⟩⟩
              · have := hrest r hmem
                have := next.lt
                rw [LiveRange.isInRange_iff] at hin
                refine hmeets ⟨next.start, ?_, ?_⟩ <;> rw [LiveRange.isInRange_iff] <;> omega

theorem firstIntersection_isFirst {other : List LiveRange} (hother : Separated other)
    (h : Separated ranges) :
    IsFirst (fun loc => InRanges other loc ∧ InRanges ranges loc)
      (firstIntersection other ranges) := by
  induction ranges with
  | nil => simp [firstIntersection, IsFirst]
  | cons range rest ih =>
    have hrest := pairwise_cons.mp h
    have hfirst := intersectWithRange_isFirst hother range
    have ih := ih hrest.2
    simp only [firstIntersection]
    cases hmeets : intersectWithRange other range with
    | some loc =>
      rw [hmeets] at hfirst
      obtain ⟨⟨hin, hin'⟩, hleast⟩ := hfirst
      refine ⟨⟨hin, by simp [hin']⟩, ?_⟩
      rintro loc' ⟨hloc', hloc''⟩
      rw [inRanges_cons] at hloc''
      rcases hloc'' with hloc'' | ⟨r, hmem, hin''⟩
      · exact hleast loc' ⟨hloc', hloc''⟩
      · have := hrest.1 r hmem
        rw [LiveRange.isInRange_iff] at hin' hin''
        omega
    | none =>
      rw [hmeets] at hfirst
      refine ih.congr fun loc => ?_
      rw [inRanges_cons]
      constructor
      · rintro ⟨hin, hin'⟩
        exact ⟨hin, Or.inr hin'⟩
      · rintro ⟨hin, hin' | hin'⟩
        · exact absurd ⟨hin, hin'⟩ (hfirst loc)
        · exact ⟨hin, hin'⟩

theorem intersectWith_isFirst {a b : List LiveRange} (ha : Separated a) (hb : Separated b) :
    IsFirst (fun loc => InRanges a loc ∧ InRanges b loc) (intersectWith a b) := by
  unfold intersectWith
  split
  · exact firstIntersection_isFirst ha hb
  · exact (firstIntersection_isFirst hb ha).congr fun loc => and_comm

/-! ## Splitting -/

def startLocation : List LiveRange → Int
  | [] => 0
  | range :: _ => range.start

def endLocation (ranges : List LiveRange) : Int :=
  match ranges.getLast? with
  | some range => range.stop
  | none => 0

def cutLast (loc : Int) (before after : List LiveRange) : List LiveRange × List LiveRange :=
  match before.getLast? with
  | some prev =>
    if h : prev.start < loc ∧ loc < prev.stop then
      (before.dropLast ++ [⟨prev.start, loc, h.1⟩], ⟨loc, prev.stop, h.2⟩ :: after)
    else (before, after)
  | none => (before, after)

/-- `LiveInterval::splitAt` on the list of ranges: the two parts, if both have locations. -/
def splitAt (ranges : List LiveRange) (loc : Int) :
    Option (List LiveRange × List LiveRange) :=
  if loc ≤ startLocation ranges ∨ endLocation ranges ≤ loc then none
  else
    some (cutLast loc (ranges.takeWhile fun r => r.start < loc)
      (ranges.dropWhile fun r => r.start < loc))

theorem startLocation_isFirst (h : Separated ranges) (hne : ranges ≠ []) :
    IsFirst (InRanges ranges) (some (startLocation ranges)) := by
  cases ranges with
  | nil => exact absurd rfl hne
  | cons range rest =>
    have hlt := range.lt
    refine ⟨?_, ?_⟩
    · simp only [startLocation, inRanges_cons, LiveRange.isInRange_iff]
      omega
    · intro loc hloc
      simp only [startLocation]
      rw [inRanges_cons, LiveRange.isInRange_iff] at hloc
      rcases hloc with hloc | ⟨r, hmem, hin⟩
      · exact hloc.1
      · have := (pairwise_cons.mp h).1 r hmem
        rw [LiveRange.isInRange_iff] at hin
        omega

theorem lt_endLocation (h : Separated ranges) (hloc : InRanges ranges loc) :
    loc < endLocation ranges := by
  obtain ⟨r, hmem, hin⟩ := hloc
  rw [LiveRange.isInRange_iff] at hin
  unfold endLocation
  cases hlast : ranges.getLast? with
  | none => simp [getLast?_eq_none_iff.mp hlast] at hmem
  | some last =>
    have := last.lt
    dsimp only
    rw [dropLast_append_getLast? hlast] at h hmem
    simp only [mem_append, mem_singleton] at hmem
    rcases hmem with hmem | rfl
    · have := (pairwise_append.mp h).2.2 r hmem last (by simp)
      omega
    · omega

theorem endLocation_sub_one_mem (hne : ranges ≠ []) :
    InRanges ranges (endLocation ranges - 1) := by
  unfold endLocation
  cases hlast : ranges.getLast? with
  | none => exact absurd (getLast?_eq_none_iff.mp hlast) hne
  | some last =>
    have := last.lt
    refine ⟨last, mem_of_getLast? hlast, ?_⟩
    rw [LiveRange.isInRange_iff]
    dsimp only
    omega

theorem Separated.cutLast {loc : Int} {before after : List LiveRange}
    (hbefore : Separated before) (hafter : Separated after)
    (hcross : ∀ a ∈ before, ∀ b ∈ after, a.stop < b.start) :
    Separated (cutLast loc before after).1 ∧ Separated (cutLast loc before after).2 := by
  unfold Lir.cutLast
  cases hlast : before.getLast? with
  | none => exact ⟨hbefore, hafter⟩
  | some prev =>
    dsimp only
    split
    · have hprev := mem_of_getLast? hlast
      rw [dropLast_append_getLast? hlast] at hbefore
      have hparts := pairwise_append.mp hbefore
      refine ⟨pairwise_append.mpr ⟨hparts.1, pairwise_singleton _ _, ?_⟩,
        pairwise_cons.mpr ⟨fun r hr => hcross prev hprev r hr, hafter⟩⟩
      intro a ha b hb
      simp only [mem_singleton] at hb
      subst hb
      exact hparts.2.2 a ha prev (by simp)
    · exact ⟨hbefore, hafter⟩

theorem mem_cutLast {before after : List LiveRange} (hbefore : Separated before)
    (hlt : ∀ range ∈ before, range.start < loc) (hge : ∀ range ∈ after, loc ≤ range.start)
    (l : Int) :
    (InRanges (cutLast loc before after).1 l ↔ InRanges (before ++ after) l ∧ l < loc) ∧
      (InRanges (cutLast loc before after).2 l ↔ InRanges (before ++ after) l ∧ loc ≤ l) := by
  have hafterGe : InRanges after l → loc ≤ l := by
    rintro ⟨r, hmem, hin⟩
    have := hge r hmem
    rw [LiveRange.isInRange_iff] at hin
    omega
  unfold Lir.cutLast
  cases hlast : before.getLast? with
  | none =>
    rw [getLast?_eq_none_iff.mp hlast]
    simp only [inRanges_nil, nil_append, false_iff, not_and, not_lt]
    exact ⟨hafterGe, fun hl => ⟨hl, hafterGe hl⟩, fun hl => hl.1⟩
  | some prev =>
    have hprev := hlt prev (mem_of_getLast? hlast)
    have hprevLt := prev.lt
    have hdrop := dropLast_append_getLast? hlast
    have hinitLt : InRanges before.dropLast l → l < prev.start := by
      rintro ⟨r, hmem, hin⟩
      rw [hdrop] at hbefore
      have := (pairwise_append.mp hbefore).2.2 r hmem prev (by simp)
      rw [LiveRange.isInRange_iff] at hin
      omega
    have hbeforeIff : InRanges before l ↔
        InRanges before.dropLast l ∨ (prev.start ≤ l ∧ l < prev.stop) := by
      conv_lhs => rw [hdrop]
      rw [inRanges_append, inRanges_cons, LiveRange.isInRange_iff]
      simp
    dsimp only
    split
    · simp only [inRanges_append, inRanges_cons, inRanges_nil, or_false,
        LiveRange.isInRange_iff, hbeforeIff]
      by_cases hin : InRanges before.dropLast l
      · have := hinitLt hin
        simp only [hin, true_or, true_and, true_iff]
        refine ⟨by omega, fun h => ?_, by omega⟩
        rcases h with h | h
        · omega
        · exact hafterGe h
      · by_cases ha : InRanges after l
        · have := hafterGe ha
          simp only [hin, ha, false_or, or_true, true_and, true_iff]
          omega
        · simp only [hin, ha, false_or, or_false]
          omega
    · simp only [inRanges_append, hbeforeIff]
      by_cases hin : InRanges before.dropLast l
      · have := hinitLt hin
        simp only [hin, true_or, true_and, true_iff]
        exact ⟨by omega, fun h => hafterGe h, by omega⟩
      · by_cases ha : InRanges after l
        · have := hafterGe ha
          simp only [hin, ha, false_or, or_true, true_and, true_iff]
          omega
        · simp only [hin, ha, false_or, or_false, false_iff]
          omega

theorem splitAt_parts {first second : List LiveRange} (h : Separated ranges)
    (hsplit : splitAt ranges loc = some (first, second)) :
    Separated first ∧ Separated second ∧
      (∀ l, InRanges first l ↔ InRanges ranges l ∧ l < loc) ∧
      (∀ l, InRanges second l ↔ InRanges ranges l ∧ loc ≤ l) := by
  obtain ⟨before, after, hbefore, hafter, hranges, hsepBefore, hsepAfter, hlt, hge, hcross⟩ :=
    h.split loc
  unfold splitAt at hsplit
  rw [hbefore, hafter] at hsplit
  split at hsplit
  · simp at hsplit
  · simp only [Option.some.injEq] at hsplit
    have hseparated := @Separated.cutLast loc before after hsepBefore hsepAfter hcross
    have hmem := mem_cutLast hsepBefore hlt hge
    rw [hsplit] at hseparated hmem
    rw [hranges]
    exact ⟨hseparated.1, hseparated.2, fun l => (hmem l).1, fun l => (hmem l).2⟩

theorem splitAt_ne_nil {first second : List LiveRange} (h : Separated ranges) (hne : ranges ≠ [])
    (hsplit : splitAt ranges loc = some (first, second)) :
    first ≠ [] ∧ second ≠ [] := by
  obtain ⟨-, -, hfirst, hsecond⟩ := splitAt_parts h hsplit
  have hbounds : startLocation ranges < loc ∧ loc < endLocation ranges := by
    unfold splitAt at hsplit
    split at hsplit
    · simp at hsplit
    · omega
  constructor
  · rintro rfl
    have := (hfirst (startLocation ranges)).mpr ⟨(startLocation_isFirst h hne).1, hbounds.1⟩
    simp at this
  · rintro rfl
    have := (hsecond (endLocation ranges - 1)).mpr ⟨endLocation_sub_one_mem hne, by omega⟩
    simp at this

/-- What an interval belongs to: a virtual register, or a reserved physical one. -/
inductive OperandId where
  | vreg (v : VReg)
  | phyReg (loc : Nat)
  deriving DecidableEq, Repr

structure PhyLocation where
  loc : Int
  bitSize : Nat
  deriving DecidableEq, Repr

namespace PhyLocation

def REG_INVALID : Int := -1

def isRegister (location : PhyLocation) : Bool := 0 ≤ location.loc

end PhyLocation

structure LiveInterval where
  operand : OperandId
  ranges : List LiveRange
  separated : Separated ranges
  allocatedLoc : PhyLocation
  fixed : Bool
  deriving DecidableEq

namespace LiveInterval

def empty (operand : OperandId) (sizeInBits : Nat) : LiveInterval :=
  ⟨operand, [], List.Pairwise.nil, ⟨PhyLocation.REG_INVALID, sizeInBits⟩, false⟩

def addRange (interval : LiveInterval) (range : LiveRange) : LiveInterval :=
  { interval with
    ranges := Lir.addRange interval.ranges range
    separated := addRange_separated interval.separated range }

def setFrom (interval : LiveInterval) (loc : Int) : LiveInterval :=
  { interval with
    ranges := Lir.setFrom loc interval.ranges
    separated := setFrom_separated interval.separated loc }

def covers (interval : LiveInterval) (loc : Int) : Bool := Lir.covers interval.ranges loc

def isEmpty (interval : LiveInterval) : Bool := interval.ranges.isEmpty

def startLocation (interval : LiveInterval) : Int := Lir.startLocation interval.ranges

def endLocation (interval : LiveInterval) : Int := Lir.endLocation interval.ranges

def intersectWith (a b : LiveInterval) : Option Int := Lir.intersectWith a.ranges b.ranges

def isRegisterAllocated (interval : LiveInterval) : Bool := interval.allocatedLoc.isRegister

def isAllocated (interval : LiveInterval) : Bool :=
  interval.allocatedLoc.loc ≠ PhyLocation.REG_INVALID

def withRanges (interval : LiveInterval) (ranges : List LiveRange)
    (separated : Separated ranges) : LiveInterval :=
  { interval with ranges := ranges, separated := separated }

/-- The two parts of an interval, unless it is fixed or the location is not inside. -/
def splitAt? (interval : LiveInterval) (loc : Int) : Option (LiveInterval × LiveInterval) :=
  if interval.fixed then none
  else
    match hsplit : Lir.splitAt interval.ranges loc with
    | some (first, second) =>
      have hparts := splitAt_parts interval.separated hsplit
      some (interval.withRanges first hparts.1, interval.withRanges second hparts.2.1)
    | none => none

/-- Locations are always given in the size of the operand, as the check demands. -/
def allocateTo (interval : LiveInterval) (loc : Int) : LiveInterval :=
  { interval with allocatedLoc := ⟨loc, interval.allocatedLoc.bitSize⟩ }

def Mem (interval : LiveInterval) (loc : Int) : Prop := InRanges interval.ranges loc

theorem covers_iff_mem (interval : LiveInterval) (loc : Int) :
    interval.covers loc = true ↔ interval.Mem loc :=
  Lir.covers_iff interval.separated loc

variable {interval : LiveInterval}

theorem startLocation_mem (hne : interval.ranges ≠ []) :
    interval.Mem interval.startLocation :=
  (Lir.startLocation_isFirst interval.separated hne).1

variable {loc : Int}

theorem ranges_ne_nil_of_mem (h : interval.Mem loc) :
    interval.ranges ≠ [] := by
  intro hnil
  simp [Mem, hnil] at h

theorem startLocation_le (h : interval.Mem loc) :
    interval.startLocation ≤ loc :=
  (Lir.startLocation_isFirst interval.separated (ranges_ne_nil_of_mem h)).2 loc h

theorem lt_endLocation (h : interval.Mem loc) :
    loc < interval.endLocation :=
  Lir.lt_endLocation interval.separated h

theorem endLocation_le_of_mem {a b : LiveInterval} (hne : a.ranges ≠ [])
    (h : ∀ loc, a.Mem loc → b.Mem loc) : a.endLocation ≤ b.endLocation := by
  have hlast : a.Mem (a.endLocation - 1) := Lir.endLocation_sub_one_mem hne
  have := lt_endLocation (h _ hlast)
  omega

theorem startLocation_le_of_mem {a b : LiveInterval} (hne : a.ranges ≠ [])
    (h : ∀ loc, a.Mem loc → b.Mem loc) : b.startLocation ≤ a.startLocation :=
  startLocation_le (h _ (startLocation_mem hne))

theorem splitAt?_spec {first second : LiveInterval}
    (h : interval.splitAt? loc = some (first, second)) :
    interval.fixed = false ∧
      (∃ ranges separated, first = interval.withRanges ranges separated) ∧
      (∃ ranges separated, second = interval.withRanges ranges separated) ∧
      (∀ l, first.Mem l ↔ interval.Mem l ∧ l < loc) ∧
      (∀ l, second.Mem l ↔ interval.Mem l ∧ loc ≤ l) ∧
      (interval.ranges ≠ [] → first.ranges ≠ [] ∧ second.ranges ≠ []) := by
  unfold splitAt? at h
  split at h
  · simp at h
  case isFalse hfixed =>
      split at h
      case h_1 ranges ranges' hsplit =>
          simp only [Option.some.injEq, Prod.mk.injEq] at h
          obtain ⟨rfl, rfl⟩ := h
          have hparts := splitAt_parts interval.separated hsplit
          exact ⟨by simpa using hfixed, ⟨_, _, rfl⟩, ⟨_, _, rfl⟩, hparts.2.2.1, hparts.2.2.2,
            fun hne => splitAt_ne_nil interval.separated hne hsplit⟩
      case h_2 => simp at h

theorem intersectWith_isFirst (a b : LiveInterval) :
    IsFirst (fun loc => a.Mem loc ∧ b.Mem loc) (a.intersectWith b) :=
  Lir.intersectWith_isFirst a.separated b.separated

@[simp] theorem mem_addRange_iff (interval : LiveInterval) (range : LiveRange) (loc : Int) :
    (interval.addRange range).Mem loc ↔ interval.Mem loc ∨ range.isInRange loc = true :=
  mem_addRange interval.separated range loc

end LiveInterval

end CinderX.Jit.Lir
