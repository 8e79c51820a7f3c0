import CinderX.Jit.Lir.LiveInterval

/-!
# The vector of a live interval

The operations of `LiveInterval` on its vector of ranges, with the two numbers that the code
sets apart: a range that `addRange` swallows is marked by the start `kRemovedRange` until
it is erased, and a query without an answer returns `INVALID_LOCATION`.  Whatever is built
by them denotes a set of locations.
-/

namespace CinderX.Jit.Lir

open List LiveRange

def INVALID_LOCATION : Int := -1

/-- `std::numeric_limits<int>::min()`. -/
def kRemovedRange : Int := -2 ^ 31

/-- An element of the vector while `addRange` runs, whose start may be the mark. -/
structure RangeSlot where
  start : Int
  stop : Int
  deriving DecidableEq, Repr

def LiveRange.slot (range : LiveRange) : RangeSlot := ⟨range.start, range.stop⟩

namespace RangeVector

/-- The ranges that the end of the new one touches are marked, and the end grows. -/
def markTouched (stop : Int) : List RangeSlot → Int × List RangeSlot
  | [] => (stop, [])
  | slot :: rest =>
    if slot.start ≤ stop then
      let marked := markTouched (max stop slot.stop) rest
      (marked.1, { slot with start := kRemovedRange } :: marked.2)
    else (stop, slot :: rest)

/-- A marked element is overwritten; otherwise the new one is inserted. -/
def place (new : RangeSlot) : List RangeSlot → List RangeSlot
  | [] => [new]
  | slot :: rest =>
    if slot.start = kRemovedRange then new :: rest else new :: slot :: rest

def mergeInto (ranges : List RangeSlot) (range : LiveRange) : List RangeSlot :=
  let before := ranges.takeWhile fun slot => slot.start < range.start
  let marked := markTouched range.stop (ranges.dropWhile fun slot => slot.start < range.start)
  match before.getLast? with
  | some prev =>
    if range.start ≤ prev.stop then
      before.dropLast ++ { prev with stop := max marked.1 prev.stop } :: marked.2
    else before ++ place ⟨range.start, marked.1⟩ marked.2
  | none => place ⟨range.start, marked.1⟩ marked.2

/-- `std::erase_if` of the marked ranges. -/
def eraseRemoved (slots : List RangeSlot) : List LiveRange :=
  slots.filterMap fun slot =>
    if slot.start = kRemovedRange then none else LiveRange.make? slot.start slot.stop

def addRange (ranges : List LiveRange) (range : LiveRange) : List LiveRange :=
  if ranges = [] then [range]
  else eraseRemoved (mergeInto (ranges.map LiveRange.slot) range)

def intersectWithRange (ranges : List LiveRange) (range : LiveRange) : Int :=
  (Lir.intersectWithRange ranges range).getD INVALID_LOCATION

def firstIntersection (other : List LiveRange) : List LiveRange → Int
  | [] => INVALID_LOCATION
  | range :: rest =>
    let loc := intersectWithRange other range
    if loc ≠ INVALID_LOCATION then loc else firstIntersection other rest

def intersectWith (a b : List LiveRange) : Int :=
  if b.length < a.length then firstIntersection a b else firstIntersection b a

variable {ranges : List LiveRange} {start stop : Int}

theorem make?_of_lt (h : start < stop) :
    LiveRange.make? start stop = some ⟨start, stop, h⟩ := by
  simp [make?, h]

theorem eraseRemoved_map_slot (h : ∀ range ∈ ranges, kRemovedRange < range.start) :
    eraseRemoved (ranges.map LiveRange.slot) = ranges := by
  induction ranges with
  | nil => rfl
  | cons range rest ih =>
    have hne : range.start ≠ kRemovedRange := by
      have := h range mem_cons_self
      omega
    have hrest := ih fun r hr => h r (mem_cons_of_mem _ hr)
    unfold eraseRemoved at hrest ⊢
    simp [slot, hne, make?_of_lt range.lt, hrest]

theorem eraseRemoved_append (before after : List RangeSlot) :
    eraseRemoved (before ++ after) = eraseRemoved before ++ eraseRemoved after :=
  filterMap_append

theorem eraseRemoved_cons (hstart : kRemovedRange < start)
    (hlt : start < stop) (slots : List RangeSlot) :
    eraseRemoved (⟨start, stop⟩ :: slots) = ⟨start, stop, hlt⟩ :: eraseRemoved slots := by
  have hne : start ≠ kRemovedRange := by omega
  simp [eraseRemoved, hne, make?_of_lt hlt]

theorem eraseRemoved_place (hstart : kRemovedRange < start)
    (hlt : start < stop) (slots : List RangeSlot) :
    eraseRemoved (place ⟨start, stop⟩ slots) = ⟨start, stop, hlt⟩ :: eraseRemoved slots := by
  cases slots with
  | nil => exact eraseRemoved_cons hstart hlt []
  | cons slot rest =>
    simp only [place]
    split
    next hmark =>
      rw [eraseRemoved_cons hstart hlt]
      simp [eraseRemoved, hmark]
    next => exact eraseRemoved_cons hstart hlt _

theorem markTouched_slots (h : ∀ range ∈ ranges, kRemovedRange < range.start) (stop : Int) :
    (markTouched stop (ranges.map LiveRange.slot)).1 = (absorb stop ranges).1 ∧
      eraseRemoved (markTouched stop (ranges.map LiveRange.slot)).2 = (absorb stop ranges).2 := by
  induction ranges generalizing stop with
  | nil => exact ⟨rfl, rfl⟩
  | cons range rest ih =>
    have hrest := ih fun r hr => h r (mem_cons_of_mem _ hr)
    by_cases htouch : range.start ≤ stop
    · obtain ⟨hstop, hslots⟩ := hrest (max stop range.stop)
      have hmark : eraseRemoved ({ range.slot with start := kRemovedRange } ::
          (markTouched (max stop range.stop) (rest.map slot)).2) =
            (absorb (max stop range.stop) rest).2 := by
        rw [← hslots]
        simp [eraseRemoved]
      simp only [map_cons, markTouched, slot, absorb, htouch, if_true]
      exact ⟨hstop, hmark⟩
    · have hkept := eraseRemoved_map_slot h
      simp only [map_cons, slot] at hkept
      simp only [map_cons, markTouched, slot, absorb, htouch, if_false, hkept, and_self]

theorem addRange_eq (h : ∀ range ∈ ranges, kRemovedRange < range.start) {range : LiveRange}
    (hstart : kRemovedRange < range.start) :
    addRange ranges range = Lir.addRange ranges range := by
  by_cases hnil : ranges = []
  · subst hnil
    rfl
  have htake : (ranges.map slot).takeWhile (fun slot => slot.start < range.start) =
      (ranges.takeWhile fun r => r.start < range.start).map slot := takeWhile_map ..
  have hdrop : (ranges.map slot).dropWhile (fun slot => slot.start < range.start) =
      (ranges.dropWhile fun r => r.start < range.start).map slot := dropWhile_map ..
  have hbefore : ∀ r ∈ ranges.takeWhile fun r => r.start < range.start, kRemovedRange < r.start :=
    fun r hr => h r ((takeWhile_sublist _).subset hr)
  have hafter : ∀ r ∈ ranges.dropWhile fun r => r.start < range.start, kRemovedRange < r.start :=
    fun r hr => h r ((dropWhile_suffix _).subset hr)
  obtain ⟨hstop, hslots⟩ := markTouched_slots hafter range.stop
  have hlt := lt_of_lt_of_le range.lt
    (le_absorb range.stop (ranges.dropWhile fun r => r.start < range.start))
  simp only [addRange, hnil, if_false, mergeInto, Lir.addRange, htake, hdrop, getLast?_map,
    hstop]
  cases hlast : (ranges.takeWhile fun r => r.start < range.start).getLast? with
  | none => simp only [Option.map_none, eraseRemoved_place hstart hlt, hslots]
  | some prev =>
    have hprev := hbefore prev (mem_of_getLast? hlast)
    simp only [Option.map_some, slot]
    by_cases htouch : range.start ≤ prev.stop
    · have hinit : ∀ r ∈ (ranges.takeWhile fun r => r.start < range.start).dropLast,
          kRemovedRange < r.start := fun r hr => hbefore r ((dropLast_sublist _).subset hr)
      rw [if_pos htouch, if_pos htouch, eraseRemoved_append, ← map_dropLast,
        eraseRemoved_map_slot hinit,
        eraseRemoved_cons hprev (lt_of_lt_of_le prev.lt (le_max_right _ _)), hslots]
    · rw [if_neg htouch, if_neg htouch, eraseRemoved_append, eraseRemoved_map_slot hbefore,
        eraseRemoved_place hstart hlt, hslots]

theorem firstIntersection_eq {other : List LiveRange} (hother : Separated other)
    (hvalid : ¬ (InRanges other INVALID_LOCATION ∧ InRanges ranges INVALID_LOCATION)) :
    firstIntersection other ranges =
      (Lir.firstIntersection other ranges).getD INVALID_LOCATION := by
  induction ranges with
  | nil => rfl
  | cons range rest ih =>
    have hfirst := intersectWithRange_isFirst hother range
    rw [inRanges_cons] at hvalid
    cases hmeets : Lir.intersectWithRange other range with
    | some loc =>
      rw [hmeets] at hfirst
      have hne : loc ≠ INVALID_LOCATION := by
        rintro rfl
        exact hvalid ⟨hfirst.1.1, Or.inl hfirst.1.2⟩
      simp [firstIntersection, intersectWithRange, Lir.firstIntersection, hmeets, hne]
    | none =>
      have hrest := ih fun hboth => hvalid ⟨hboth.1, Or.inr hboth.2⟩
      simp [firstIntersection, intersectWithRange, Lir.firstIntersection, hmeets, hrest]

theorem intersectWith_eq {a b : List LiveRange} (ha : Separated a) (hb : Separated b)
    (hvalid : ¬ (InRanges a INVALID_LOCATION ∧ InRanges b INVALID_LOCATION)) :
    intersectWith a b = (Lir.intersectWith a b).getD INVALID_LOCATION := by
  unfold intersectWith Lir.intersectWith
  split
  · exact firstIntersection_eq ha hvalid
  · exact firstIntersection_eq hb fun hboth => hvalid hboth.symm

/-! ## Sequences of operations -/

/--
The vectors of the intervals that additions, `setFrom` and splits lead to; a split leaves
one part in the receiver and returns the other.  None of these intervals is `fixed`.
-/
inductive Built : List LiveRange → Prop
  | empty : Built []
  | addRange {ranges : List LiveRange} (h : Built ranges) {range : LiveRange}
      (hstart : kRemovedRange < range.start) : Built (addRange ranges range)
  | setFrom {ranges : List LiveRange} (h : Built ranges) (loc : Int) :
      Built (Lir.setFrom loc ranges)
  | splitReceiver {ranges : List LiveRange} (h : Built ranges) {loc : Int}
      {first second : List LiveRange} (hsplit : splitAt ranges loc = some (first, second)) :
      Built first
  | splitReturned {ranges : List LiveRange} (h : Built ranges) {loc : Int}
      {first second : List LiveRange} (hsplit : splitAt ranges loc = some (first, second)) :
      Built second

structure WellFormed (ranges : List LiveRange) : Prop where
  separated : Separated ranges
  unmarked : ∀ loc, InRanges ranges loc → kRemovedRange < loc

namespace WellFormed

theorem starts (h : WellFormed ranges) : ∀ range ∈ ranges, kRemovedRange < range.start := by
  intro range hmem
  exact h.unmarked _ ⟨range, hmem, isInRange_iff.mpr ⟨le_refl _, range.lt⟩⟩

variable {range : LiveRange}

theorem mem_addRange (h : WellFormed ranges) (hstart : kRemovedRange < range.start) (loc : Int) :
    InRanges (addRange ranges range) loc ↔ InRanges ranges loc ∨ range.isInRange loc = true := by
  rw [addRange_eq h.starts hstart]
  exact Lir.mem_addRange h.separated range loc

theorem addRange (h : WellFormed ranges)
    (hstart : kRemovedRange < range.start) : WellFormed (addRange ranges range) where
  separated := by
    rw [addRange_eq h.starts hstart]
    exact addRange_separated h.separated range
  unmarked loc hloc := by
    rcases (h.mem_addRange hstart loc).mp hloc with hin | hin
    · exact h.unmarked loc hin
    · have := (isInRange_iff.mp hin).1
      omega

theorem setFrom (h : WellFormed ranges) (loc : Int) : WellFormed (setFrom loc ranges) where
  separated := setFrom_separated h.separated loc
  unmarked _ hin := h.unmarked _ (inRanges_of_setFrom hin)

theorem splitAt (h : WellFormed ranges) {loc : Int} {first second : List LiveRange}
    (hsplit : splitAt ranges loc = some (first, second)) :
    WellFormed first ∧ WellFormed second := by
  obtain ⟨hfirst, hsecond, hmemFirst, hmemSecond⟩ := splitAt_parts h.separated hsplit
  exact ⟨⟨hfirst, fun l hl => h.unmarked l ((hmemFirst l).mp hl).1⟩,
    ⟨hsecond, fun l hl => h.unmarked l ((hmemSecond l).mp hl).1⟩⟩

end WellFormed

theorem Built.wellFormed (h : Built ranges) : WellFormed ranges := by
  induction h with
  | empty => exact ⟨List.Pairwise.nil, fun loc hloc => absurd hloc (inRanges_nil loc)⟩
  | addRange _ hstart ih => exact ih.addRange hstart
  | setFrom _ loc ih => exact ih.setFrom loc
  | splitReceiver _ hsplit ih => exact (ih.splitAt hsplit).1
  | splitReturned _ hsplit ih => exact (ih.splitAt hsplit).2

theorem splitAt_inside (h : Separated ranges) (hne : ranges ≠ []) {loc : Int}
    (hstart : startLocation ranges < loc) (hend : loc < endLocation ranges) :
    ∃ first second, splitAt ranges loc = some (first, second) ∧ first ≠ [] ∧ second ≠ [] ∧
      (∀ l, InRanges first l ↔ InRanges ranges l ∧ l < loc) ∧
      ∀ l, InRanges second l ↔ InRanges ranges l ∧ loc ≤ l := by
  have hinside : ¬ (loc ≤ startLocation ranges ∨ endLocation ranges ≤ loc) := by omega
  obtain ⟨⟨first, second⟩, hsplit⟩ : ∃ parts, splitAt ranges loc = some parts := by
    unfold splitAt
    rw [if_neg hinside]
    exact ⟨_, rfl⟩
  have hparts := splitAt_parts h hsplit
  have hnil := splitAt_ne_nil h hne hsplit
  exact ⟨first, second, hsplit, hnil.1, hnil.2, hparts.2.2.1, hparts.2.2.2⟩

/--
An interval built from ranges that do not start at the mark denotes a set of locations, and
the intersection is exact for two intervals that do not share the location
`INVALID_LOCATION`.
-/
theorem denotes_locations (h : Built ranges) :
    Separated ranges ∧
      (∀ range : LiveRange, kRemovedRange < range.start → ∀ loc,
        InRanges (addRange ranges range) loc ↔
          InRanges ranges loc ∨ range.isInRange loc = true) ∧
      (∀ loc, covers ranges loc = true ↔ InRanges ranges loc) ∧
      (∀ other, Built other →
        ¬ (InRanges ranges INVALID_LOCATION ∧ InRanges other INVALID_LOCATION) →
        (intersectWith ranges other = INVALID_LOCATION ↔
          ∀ loc, ¬ (InRanges ranges loc ∧ InRanges other loc)) ∧
        ∀ loc, InRanges ranges loc ∧ InRanges other loc →
          (InRanges ranges (intersectWith ranges other) ∧
            InRanges other (intersectWith ranges other)) ∧
          intersectWith ranges other ≤ loc) ∧
      ∀ loc, ranges ≠ [] → startLocation ranges < loc → loc < endLocation ranges →
        ∃ first second, splitAt ranges loc = some (first, second) ∧ first ≠ [] ∧ second ≠ [] ∧
          (∀ l, InRanges first l ↔ InRanges ranges l ∧ l < loc) ∧
          ∀ l, InRanges second l ↔ InRanges ranges l ∧ loc ≤ l := by
  have hformed := h.wellFormed
  refine ⟨hformed.separated, fun range hstart loc => hformed.mem_addRange hstart loc,
    covers_iff hformed.separated, ?_, ?_⟩
  · intro other hbuilt hvalid
    have hother := hbuilt.wellFormed
    have hfirst := intersectWith_isFirst hformed.separated hother.separated
    rw [intersectWith_eq hformed.separated hother.separated hvalid]
    cases hresult : Lir.intersectWith ranges other with
    | none =>
      rw [hresult] at hfirst
      exact ⟨⟨fun _ => hfirst, fun _ => rfl⟩, fun loc hloc => absurd hloc (hfirst loc)⟩
    | some first =>
      rw [hresult] at hfirst
      have hne : first ≠ INVALID_LOCATION := by
        rintro rfl
        exact hvalid hfirst.1
      exact ⟨⟨fun heq => absurd heq hne, fun hnone => absurd hfirst.1 (hnone first)⟩,
        fun loc hloc => ⟨hfirst.1, hfirst.2 loc hloc⟩⟩
  · intro loc hne hstart hend
    exact splitAt_inside hformed.separated hne hstart hend

/-- Two ranges with a hole between them, the first one grown by a range that touches it. -/
def twoRanges : List LiveRange :=
  addRange (addRange (addRange [] ⟨4, 10, by decide⟩) ⟨20, 30, by decide⟩) ⟨0, 4, by decide⟩

theorem built_twoRanges : Built twoRanges :=
  .addRange (.addRange (.addRange .empty (by decide)) (by decide)) (by decide)

theorem denotes_locations_twoRanges :
    twoRanges = [⟨0, 10, by decide⟩, ⟨20, 30, by decide⟩] ∧ Separated twoRanges ∧
      intersectWith twoRanges (addRange [] ⟨10, 25, by decide⟩) = 20 ∧
      ∃ first second, splitAt twoRanges 15 = some (first, second) ∧ first ≠ [] ∧
        second ≠ [] := by
  have h := denotes_locations built_twoRanges
  obtain ⟨first, second, hsplit, hfirst, hsecond, -⟩ :=
    h.2.2.2.2 15 (by decide) (by decide) (by decide)
  exact ⟨by decide, h.1, by decide, first, second, hsplit, hfirst, hsecond⟩

/--
The two numbers pass for what they stand for: a range that starts at the mark is erased at
once, and two equal ranges that start at `INVALID_LOCATION` are reported to be disjoint.
-/
theorem sentinels_notDenoted :
    let marked : LiveRange := ⟨kRemovedRange, -5, by decide⟩
    let range : LiveRange := ⟨INVALID_LOCATION, 1, by decide⟩
    addRange twoRanges marked = twoRanges ∧ ¬ InRanges twoRanges kRemovedRange ∧
      intersectWith (addRange [] range) (addRange [] range) = INVALID_LOCATION ∧
      ¬ ∀ loc, ¬ (InRanges (addRange [] range) loc ∧ InRanges (addRange [] range) loc) := by
  intro marked range
  have hcovers : covers (addRange [] range) 0 = true := by decide
  have hseparated : Separated (addRange [] range) := by decide
  have hin := (covers_iff hseparated 0).mp hcovers
  refine ⟨by decide, ?_, by decide, fun hnone => hnone 0 ⟨hin, hin⟩⟩
  rw [← covers_iff (by decide)]
  decide

end RangeVector

end CinderX.Jit.Lir
