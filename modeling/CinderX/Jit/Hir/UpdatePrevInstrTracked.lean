import CinderX.Jit.Hir.UpdatePrevInstr

/-!
# Blocks that keep track of the line

What the updates of a block say of the current activation, and that the pass leaves blocks in
which every instruction with arbitrary execution comes after an update with its own line.
-/

namespace CinderX.Jit.Hir.UpdatePrevInstr

open List Option

namespace Function

variable (func : Function)

def lineOf (parent : Option BeginInlinedFunction) (instr : Instr) : Int :=
  if func.update_every_bc then instr.bytecodeOffset
  else BytecodeIndexToLine.lineNoFor (BytecodeIndexToLine.create (func.codeOf parent))
    (asIndex instr.bytecodeOffset)

def carried (update : Instr) : Int :=
  if func.update_every_bc then update.bytecodeOffset else update.lineNo

/-- The line, or the bytecode offset, that the update for `RESUME` says. -/
def firstLine (parent : Option BeginInlinedFunction) : Int :=
  if func.update_every_bc then (func.codeOf parent).firsttraceable * 2
  else BytecodeIndexToLine.lineNoFor (BytecodeIndexToLine.create (func.codeOf parent))
    (func.codeOf parent).firsttraceable

end Function

/-- The instructions at which the line is looked at: others run, or become the caller. -/
def watched (instr : Instr) : Bool :=
  hasArbitraryExecution instr || instr.opcode = .kBeginInlinedFunction

/-- The inlined functions that are active, the innermost one first, and what the most recent
update of the innermost activation says. -/
structure Tracking where
  begins : List BeginInlinedFunction
  position : Option Int := none

namespace Tracking

variable (func : Function)

def next (t : Tracking) (instr : Instr) : Tracking :=
  match instr.opcode, instr.inlined with
  | .kBeginInlinedFunction, some begin => ⟨begin :: t.begins, none⟩
  | .kEndInlinedFunction, _ => ⟨t.begins.tail, none⟩
  | .kUpdatePrevInstr, _ => ⟨t.begins, some (func.carried instr)⟩
  | _, _ => t

def all (t : Tracking) (instrs : List Instr) : Tracking := instrs.foldl (next func) t

/-- Every watched instruction comes after an update with its own line. -/
def Tracked : Tracking → List Instr → Prop
  | _, [] => True
  | t, instr :: rest =>
    (watched instr = true → t.position = some (func.lineOf t.begins.head? instr)) ∧
      Tracked (t.next func instr) rest

/-- No watched instruction comes after an update with another line. -/
def Prepared : Tracking → List Instr → Prop
  | _, [] => True
  | t, instr :: rest =>
    (watched instr = true →
      ∀ line, t.position = some line → line = func.lineOf t.begins.head? instr) ∧
      Prepared (t.next func instr) rest

variable {func} {t : Tracking} {instrs instrs' : List Instr} {instr : Instr}

@[simp]
theorem all_append : t.all func (instrs ++ instrs') = (t.all func instrs).all func instrs' :=
  foldl_append

@[simp]
theorem all_cons : t.all func (instr :: instrs) = (t.next func instr).all func instrs := rfl

@[simp]
theorem all_nil : t.all func [] = t := rfl

theorem tracked_append : t.Tracked func (instrs ++ instrs') ↔
    t.Tracked func instrs ∧ (t.all func instrs).Tracked func instrs' := by
  induction instrs generalizing t with
  | nil => simp [Tracked]
  | cons instr instrs ih => simp [Tracked, ih, and_assoc]

theorem Tracked.prepared (h : t.Tracked func instrs) : t.Prepared func instrs := by
  induction instrs generalizing t with
  | nil => trivial
  | cons instr instrs ih =>
    refine ⟨fun hwatched line hline => ?_, ih h.2⟩
    exact Option.some.inj (hline.symm.trans (h.1 hwatched))

theorem next_position_of_none (hupdate : instr.opcode ≠ .kUpdatePrevInstr)
    (h : t.position = none) : (t.next func instr).position = none := by
  unfold next
  split
  · rfl
  · rfl
  next hopcode => exact absurd hopcode hupdate
  · exact h

theorem prepared_of_fresh (hfresh : ∀ instr ∈ instrs, instr.opcode ≠ .kUpdatePrevInstr)
    (h : t.position = none) : t.Prepared func instrs := by
  induction instrs generalizing t with
  | nil => trivial
  | cons instr instrs ih =>
    obtain ⟨hinstr, hfresh⟩ := forall_mem_cons.mp hfresh
    refine ⟨fun _ line hline => ?_, ih hfresh (next_position_of_none hinstr h)⟩
    rw [h] at hline
    cases hline

end Tracking

/-- Instructions that neither look at the line nor begin or end anything. -/
def Plain (instr : Instr) : Prop :=
  watched instr = false ∧ instr.opcode ≠ .kBeginInlinedFunction ∧
    instr.opcode ≠ .kEndInlinedFunction

namespace Tracking

variable {func : Function} {t : Tracking} {instrs : List Instr} {instr : Instr}

theorem tracked_of_plain (h : ∀ instr ∈ instrs, Plain instr) : t.Tracked func instrs := by
  induction instrs generalizing t with
  | nil => trivial
  | cons instr instrs ih =>
    obtain ⟨hinstr, h⟩ := forall_mem_cons.mp h
    exact ⟨fun hwatched => by simp [hinstr.1] at hwatched, ih h⟩

end Tracking

def LinesBelow (code : PyCodeObject) : Prop := ∀ range ∈ code.ranges, range.ar_line < INT_MAX

def Bounded (instr : Instr) : Prop :=
  instr.bytecodeOffset < INT_MAX ∧ ∀ begin, instr.inlined = some begin → LinesBelow begin.code

theorem lt_of_mem_fill {numIndices : Nat} {ranges : List PyCodeAddressRange} {lines : List Int}
    (hranges : ∀ range ∈ ranges, range.ar_line < INT_MAX)
    (hlines : ∀ line ∈ lines, line < INT_MAX) :
    ∀ line ∈ BytecodeIndexToLine.fill numIndices lines ranges, line < INT_MAX := by
  induction ranges generalizing lines with
  | nil => exact hlines
  | cons range ranges ih =>
    obtain ⟨hrange, hranges⟩ := forall_mem_cons.mp hranges
    unfold BytecodeIndexToLine.fill
    split
    · exact hlines
    · refine ih hranges fun line hline => ?_
      rcases mem_append.mp hline with hline | hline
      · exact hlines line hline
      · rw [(mem_replicate.mp hline).2]
        exact hrange

theorem lineOf_ne {func : Function} {parent : Option BeginInlinedFunction} {instr : Instr}
    (hcode : LinesBelow (func.codeOf parent)) (hinstr : Bounded instr) :
    func.lineOf parent instr ≠ INT_MAX := by
  refine ne_of_lt ?_
  unfold Function.lineOf BytecodeIndexToLine.lineNoFor
  split
  · exact hinstr.1
  · split
    · decide
    · rw [getD_eq_getElem?_getD]
      cases hline : (BytecodeIndexToLine.create (func.codeOf parent))[
          (asIndex instr.bytecodeOffset).toNat]? with
      | none => decide
      | some line => exact lt_of_mem_fill hcode (by simp) line (mem_of_getElem? hline)

/-- The inlined functions that are active after an instruction; `outer` says what is active
around an inlined function. -/
def nest (outer : BeginInlinedFunction → List BeginInlinedFunction)
    (begins : List BeginInlinedFunction) (instr : Instr) : Option (List BeginInlinedFunction) :=
  match instr.opcode, instr.inlined with
  | .kBeginInlinedFunction, some begin =>
      if outer begin = begins then some (begin :: begins) else none
  | .kBeginInlinedFunction, none => none
  | .kEndInlinedFunction, some begin => if begins.head? = some begin then some begins.tail else none
  | .kEndInlinedFunction, none => none
  | .kUpdatePrevInstr, parent => if parent = begins.head? then some begins else none
  | _, _ => some begins

def Chained (outer : BeginInlinedFunction → List BeginInlinedFunction) :
    List BeginInlinedFunction → Prop
  | [] => True
  | begin :: rest => outer begin = rest ∧ Chained outer rest

/-- What comes before an instruction in its block: the active inlined functions, the line of the
last instruction with arbitrary execution, and the line that the update for `RESUME` says if no
other update has followed it. -/
structure Scan where
  begins : List BeginInlinedFunction
  line : Option Int := none
  breaker : Option Int := none
  inited_once : Bool

namespace Scan

variable (func : Function) (lightweight : Bool)

def border (s : Scan) (instr : Instr) : Scan :=
  match instr.opcode, instr.inlined with
  | .kBeginInlinedFunction, some begin =>
    ⟨begin :: s.begins, none, none, if lightweight then false else s.inited_once⟩
  | .kEndInlinedFunction, some _ => ⟨s.begins.tail, none, none, s.inited_once⟩
  | .kUpdatePrevInstr, _ => { s with breaker := none }
  | _, _ => s

def next (s : Scan) (instr : Instr) : Scan :=
  let s := s.border lightweight instr
  if lightweight = true ∧ s.inited_once = false ∧ instr.opcode = .kLoadEvalBreaker then
    { s with breaker := some (func.firstLine s.begins.head?), inited_once := true }
  else if hasArbitraryExecution instr then
    { s with line := some (func.lineOf s.begins.head? instr), breaker := none }
  else s

/-- The update for `RESUME` does not stand between two instructions of another line. -/
def Undisturbed : Scan → List Instr → Prop
  | _, [] => True
  | s, instr :: rest =>
    (watched instr = true → s.line = some (func.lineOf s.begins.head? instr) →
      ∀ first, s.breaker = some first → first = func.lineOf s.begins.head? instr) ∧
      Undisturbed (s.next func lightweight instr) rest

instance undisturbedDecidable : ∀ (s : Scan) (instrs : List Instr),
    Decidable (s.Undisturbed func lightweight instrs)
  | _, [] => inferInstanceAs (Decidable True)
  | s, instr :: rest =>
    haveI := undisturbedDecidable (s.next func lightweight instr) rest
    inferInstanceAs (Decidable
      ((watched instr = true → s.line = some (func.lineOf s.begins.head? instr) →
        ∀ first ∈ s.breaker, first = func.lineOf s.begins.head? instr) ∧
        Undisturbed func lightweight (s.next func lightweight instr) rest))

end Scan

/-! ## One instruction -/

section Steps

variable {func : Function} {outer : BeginInlinedFunction → List BeginInlinedFunction}
  {kept : BeginInlinedFunction → Prop} {lightweight : Bool}

variable {begins : List BeginInlinedFunction}

theorem begins_of_nest {t : Tracking} {instr : Instr}
    (h : nest outer t.begins instr = some begins) : (t.next func instr).begins = begins := by
  unfold nest at h
  unfold Tracking.next
  cases hinlined : instr.inlined <;> simp only [hinlined] at h ⊢ <;> split at h <;> split <;>
    simp_all

variable {instrs : List Instr}

theorem begins_of_nests {t : Tracking} (h : instrs.foldlM (nest outer) t.begins = some begins) :
    (t.all func instrs).begins = begins := by
  induction instrs generalizing t with
  | nil => exact Option.some.inj h
  | cons instr instrs ih =>
    obtain ⟨middle, hinstr, hrest⟩ := bind_eq_some_iff.mp h
    rw [Tracking.all_cons]
    refine ih ?_
    rwa [begins_of_nest hinstr]

theorem nests_of_plain (h : ∀ instr ∈ instrs, Plain instr ∧ nest outer begins instr = some begins) :
    instrs.foldlM (nest outer) begins = some begins := by
  induction instrs with
  | nil => rfl
  | cons instr instrs ih =>
    obtain ⟨hinstr, h⟩ := forall_mem_cons.mp h
    rw [foldlM_cons, hinstr.2]
    exact ih h

/-- What the pass keeps while it goes through a block: `t₀` is what is known at its start,
`begins` is active now, and `kept` are the inlined functions that other blocks need. -/
structure Shape (func : Function) (outer : BeginInlinedFunction → List BeginInlinedFunction)
    (kept : BeginInlinedFunction → Prop) (t₀ : Tracking) (begins : List BeginInlinedFunction)
      (s : State) : Prop where
  parent : s.parent = begins.head?
  tracked : t₀.Tracked func s.instrs
  nested : s.instrs.foldlM (nest outer) t₀.begins = some begins
  last : ∀ update since, s.last_emitted = some (update, since) →
    update.opcode = .kUpdatePrevInstr ∧ update.inlined = begins.head? ∧
      (∀ instr ∈ since, Plain instr ∧ nest outer begins instr = some begins) ∧
      s.front.foldlM (nest outer) t₀.begins = some begins
  chained : Chained outer begins
  parents : ∀ begin, kept begin ∨ begin ∈ begins → s.parents begin = (outer begin).head?
  codes : ∀ code lines, s.code_bc_idx_map code = some lines → lines =
    BytecodeIndexToLine.create code
  known : ∀ begin, kept begin ∨ begin ∈ begins → (s.code_bc_idx_map begin.code).isSome
  own : (s.code_bc_idx_map func.code).isSome
  bounded : ∀ instr ∈ s.instrs, watched instr = true → Bounded instr
  below : ∀ begin, kept begin ∨ begin ∈ begins → LinesBelow begin.code

/-- What the most recent update says; `t` is what the instructions so far say without the new
updates. -/
structure Keeps (func : Function) (outer : BeginInlinedFunction → List BeginInlinedFunction)
    (kept : BeginInlinedFunction → Prop) (t₀ t : Tracking) (scan : Scan) (s : State) : Prop
    extends Shape func outer kept t₀ t.begins s where
  begins : scan.begins = t.begins
  inited : scan.inited_once = s.inited_once
  line : scan.line =
    if s.prev_emitted_lno_or_bc = INT_MAX then none else some s.prev_emitted_lno_or_bc
  breaker : ∀ first, scan.breaker = some first → (t₀.all func s.instrs).position = some first
  position : scan.breaker = none → ∀ line, t.position = some line →
    (t₀.all func s.instrs).position = some line
  prev : scan.breaker = none → t.position = none → ∀ line, scan.line = some line →
    (t₀.all func s.instrs).position = some line

theorem bounded_append {instr : Instr} (h : ∀ x ∈ instrs, watched x = true → Bounded x)
    (hinstr : watched instr = true → Bounded instr) :
    ∀ x ∈ instrs ++ [instr], watched x = true → Bounded x := by
  intro x hx
  rcases mem_append.mp hx with hx | hx
  · exact h x hx
  · rwa [mem_singleton.mp hx]

namespace State

variable {s : State} {instr : Instr} {line_no : Int}

@[simp]
theorem instrs_forget : s.forget.instrs = s.instrs := rfl

@[simp]
theorem instrs_push : (s.push instr).instrs = s.instrs ++ [instr] := by
  unfold push instrs
  cases s.last_emitted <;> simp

structure SameOthers (s s' : State) : Prop where
  code_bc_idx_map : s'.code_bc_idx_map = s.code_bc_idx_map
  parents : s'.parents = s.parents
  inited_once : s'.inited_once = s.inited_once
  parent : s'.parent = s.parent

variable (s instr) in
theorem sameOthers_push : SameOthers s (s.push instr) ∧
    (s.push instr).prev_emitted_lno_or_bc = s.prev_emitted_lno_or_bc := by
  unfold push
  split <;> exact ⟨⟨rfl, rfl, rfl, rfl⟩, rfl⟩

theorem last_emitted_push (h : s.last_emitted = none) : (s.push instr).last_emitted = none := by
  simp [push, h]

variable (s instr line_no) in
theorem sameOthers_add : SameOthers s (s.add_update_prev_instr instr line_no) := by
  unfold add_update_prev_instr
  split <;> exact ⟨rfl, rfl, rfl, rfl⟩

end State

namespace Shape

variable {t₀ : Tracking} {begins : List BeginInlinedFunction} {s s' : State} {instr : Instr}
  (h : Shape func outer kept t₀ begins s)

include h

theorem lines_isSome : s.code_bc_idx_map (func.codeOf s.parent) =
    some (BytecodeIndexToLine.create (func.codeOf s.parent)) := by
  have hsome : (s.code_bc_idx_map (func.codeOf s.parent)).isSome := by
    rw [h.parent]
    cases hbegins : begins with
    | nil => exact h.own
    | cons begin rest => exact h.known begin (Or.inr (by simp [hbegins]))
  obtain ⟨lines, hlines⟩ := isSome_iff_exists.mp hsome
  rw [hlines, h.codes _ _ hlines]

theorem add_update (line_no : Int)
    (hline : func.update_every_bc = false → line_no = func.lineOf begins.head? instr) :
    t₀.Tracked func (s.add_update_prev_instr instr line_no).instrs ∧
      (s.add_update_prev_instr instr line_no).instrs.foldlM (nest outer) t₀.begins = some begins ∧
      (t₀.all func (s.add_update_prev_instr instr line_no).instrs).position =
        some (func.lineOf begins.head? instr) ∧
      ∀ x ∈ (s.add_update_prev_instr instr line_no).instrs, watched x = true → Bounded x := by
  have hcarried : ∀ update : Instr, func.carried { update with
      lineNo := line_no, bytecodeOffset := instr.bytecodeOffset } =
        func.lineOf begins.head? instr := by
    intro update
    unfold Function.carried
    cases hevery : func.update_every_bc with
    | true => simp [Function.lineOf, hevery]
    | false => simpa using hline hevery
  -- an update of the innermost activation at the end of the block
  have hend : ∀ (front : List Instr) (update : Instr), update.opcode = .kUpdatePrevInstr →
      update.inlined = begins.head? →
      func.carried update = func.lineOf begins.head? instr → t₀.Tracked func front →
      front.foldlM (nest outer) t₀.begins = some begins →
      (∀ x ∈ front, watched x = true → Bounded x) →
      t₀.Tracked func (front ++ [update]) ∧
        (front ++ [update]).foldlM (nest outer) t₀.begins = some begins ∧
        (t₀.all func (front ++ [update])).position = some (func.lineOf begins.head? instr) ∧
        ∀ x ∈ front ++ [update], watched x = true → Bounded x := by
    intro front update hopcode hinlined hsays htracked hnested hbounded
    have hwatched : watched update = false := by
      simp [watched, hasArbitraryExecution, Opcode.hasArbitraryExecution, hopcode]
    refine ⟨Tracking.tracked_append.mpr ⟨htracked, by simp [Tracking.Tracked, hwatched]⟩, ?_, ?_,
      fun x hx hxw => ?_⟩
    · rw [foldlM_append, hnested]
      simp [nest, hopcode, hinlined]
    · simp [Tracking.next, hopcode, hsays]
    · rcases mem_append.mp hx with hx | hx
      · exact hbounded x hx hxw
      · rw [mem_singleton.mp hx, hwatched] at hxw
        cases hxw
  have htracked := h.tracked
  have hnested := h.nested
  have hbounded := h.bounded
  cases hlast : s.last_emitted with
  | none =>
    have hfront : s.instrs = s.front := by simp [State.instrs, hlast]
    rw [hfront] at htracked hnested hbounded
    have hinstrs : (s.add_update_prev_instr instr line_no).instrs =
        s.front ++ [⟨.kUpdatePrevInstr, instr.bytecodeOffset, s.parent, line_no, .kJitGen_yf,
          []⟩] := by
      simp [State.add_update_prev_instr, State.instrs, hlast]
    rw [hinstrs]
    refine hend s.front _ rfl h.parent ?_ htracked hnested hbounded
    exact hcarried { opcode := .kUpdatePrevInstr, inlined := s.parent }
  | some last =>
    obtain ⟨update, since⟩ := last
    obtain ⟨hopcode, hinlined, hplain, hfront⟩ := h.last update since hlast
    have hold : s.instrs = s.front ++ update :: since := by simp [State.instrs, hlast]
    rw [hold] at htracked hbounded
    have hinstrs : (s.add_update_prev_instr instr line_no).instrs =
        (s.front ++ since) ++
          [{ update with lineNo := line_no, bytecodeOffset := instr.bytecodeOffset }] := by
      simp [State.add_update_prev_instr, State.instrs, hlast]
    rw [hinstrs]
    refine hend (s.front ++ since) _ hopcode hinlined (hcarried update) ?_ ?_ fun x hx =>
      hbounded x (by simpa using (mem_append.mp hx).imp_right Or.inr)
    · refine Tracking.tracked_append.mpr ⟨(Tracking.tracked_append.mp htracked).1, ?_⟩
      exact Tracking.tracked_of_plain fun x hx => (hplain x hx).1
    · rw [foldlM_append, hfront]
      exact nests_of_plain hplain

theorem push (hplain : Plain instr) (hnest : nest outer begins instr = some begins) :
    Shape func outer kept t₀ begins (s.push instr) := by
  have hbegins : (t₀.all func s.instrs).begins = begins := begins_of_nests h.nested
  have htracked : t₀.Tracked func (s.push instr).instrs := by
    rw [State.instrs_push]
    exact Tracking.tracked_append.mpr ⟨h.tracked, by simp [Tracking.Tracked, hplain.1]⟩
  have hnested : (s.push instr).instrs.foldlM (nest outer) t₀.begins = some begins := by
    rw [State.instrs_push, foldlM_append, h.nested]
    simp [hnest]
  have hbounded : ∀ x ∈ (s.push instr).instrs, watched x = true → Bounded x := by
    rw [State.instrs_push]
    exact bounded_append h.bounded fun hwatched => by simp [hplain.1] at hwatched
  cases hlast : s.last_emitted with
  | none =>
    have heq : s.push instr = { s with front := s.front ++ [instr] } := by simp [State.push, hlast]
    rw [heq] at htracked hnested hbounded ⊢
    exact ⟨h.parent, htracked, hnested, by simp [hlast], h.chained, h.parents, h.codes, h.known,
      h.own, hbounded, h.below⟩
  | some last =>
    obtain ⟨update, since⟩ := last
    have heq : s.push instr = { s with last_emitted := some (update, since ++ [instr]) } := by
      simp [State.push, hlast]
    rw [heq] at htracked hnested hbounded ⊢
    refine ⟨h.parent, htracked, hnested, ?_, h.chained, h.parents, h.codes, h.known, h.own,
      hbounded, h.below⟩
    rintro update' since' hsome
    cases hsome
    obtain ⟨hopcode, hinlined, hsince, hfront⟩ := h.last update since hlast
    refine ⟨hopcode, hinlined, fun x hx => ?_, hfront⟩
    rcases mem_append.mp hx with hx | hx
    · exact hsince x hx
    · rw [mem_singleton.mp hx]
      exact ⟨hplain, hnest⟩

end Shape

/-- Nothing but the instruction's own line is announced where it comes. -/
structure Current (func : Function) (t : Tracking) (scan : Scan) (instr : Instr) : Prop where
  prepared : ∀ line, t.position = some line → line = func.lineOf t.begins.head? instr
  undisturbed : scan.line = some (func.lineOf t.begins.head? instr) →
    ∀ first, scan.breaker = some first → first = func.lineOf t.begins.head? instr
  max : func.lineOf t.begins.head? instr ≠ INT_MAX

namespace Keeps

variable {t₀ t : Tracking} {scan : Scan} {s s' : State} {instr : Instr}
  (h : Keeps func outer kept t₀ t scan s)

include h

theorem update_one (hcurrent : Current func t scan instr) :
    ∃ s', s.update_one func instr = some s' ∧ State.SameOthers s s' ∧
      s'.prev_emitted_lno_or_bc = func.lineOf t.begins.head? instr ∧
      t₀.Tracked func s'.instrs ∧ s'.instrs.foldlM (nest outer) t₀.begins = some t.begins ∧
      (t₀.all func s'.instrs).position = some (func.lineOf t.begins.head? instr) ∧
      ∀ x ∈ s'.instrs, watched x = true → Bounded x := by
  have hupdate : ∃ line_no,
      (func.update_every_bc = false → line_no = func.lineOf t.begins.head? instr) ∧
      s.update_one func instr =
        if func.lineOf t.begins.head? instr ≠ s.prev_emitted_lno_or_bc then
          some { s.add_update_prev_instr instr line_no with
            prev_emitted_lno_or_bc := func.lineOf t.begins.head? instr }
        else some s := by
    cases hevery : func.update_every_bc with
    | true => exact ⟨-1, by simp, by simp [State.update_one, Function.lineOf, hevery]⟩
    | false =>
      refine ⟨func.lineOf t.begins.head? instr, fun _ => rfl, ?_⟩
      have hlines := h.toShape.lines_isSome
      rw [h.parent] at hlines
      simp only [State.update_one, hevery, h.parent, hlines, Function.lineOf]
      simp
  obtain ⟨line_no, hline, heq⟩ := hupdate
  obtain ⟨htracked, hnested, hposition, hbounded⟩ := h.toShape.add_update line_no hline
  by_cases hsame : func.lineOf t.begins.head? instr = s.prev_emitted_lno_or_bc
  · have hscan : scan.line = some (func.lineOf t.begins.head? instr) := by
      rw [h.line, if_neg (hsame ▸ hcurrent.max), hsame]
    refine ⟨s, by simp [heq, hsame], ⟨rfl, rfl, rfl, rfl⟩, hsame.symm, h.tracked, h.nested, ?_,
      h.bounded⟩
    cases hbreaker : scan.breaker with
    | some first =>
      rw [h.breaker first hbreaker, hcurrent.undisturbed hscan first hbreaker]
    | none =>
      cases hold : t.position with
      | some line => rw [h.position hbreaker line hold, hcurrent.prepared line hold]
      | none => exact h.prev hbreaker hold _ hscan
  · refine ⟨{ s.add_update_prev_instr instr line_no with
      prev_emitted_lno_or_bc := func.lineOf t.begins.head? instr }, by rw [heq, if_pos hsame], ?_,
      rfl, htracked, hnested, hposition, hbounded⟩
    have hothers := State.sameOthers_add s instr line_no
    exact ⟨hothers.1, hothers.2, hothers.3, hothers.4⟩

end Keeps

/-- Instructions that leave the activations and what is known of them alone. -/
def Other (instr : Instr) : Prop :=
  instr.opcode ≠ .kBeginInlinedFunction ∧ instr.opcode ≠ .kEndInlinedFunction ∧
    instr.opcode ≠ .kUpdatePrevInstr

section Other

variable {instr : Instr} (hother : Other instr)

include hother

theorem next_of_other (t : Tracking) : t.next func instr = t := by
  unfold Tracking.next
  split <;> simp_all [Other]

theorem nest_of_other (begins : List BeginInlinedFunction) :
    nest outer begins instr = some begins := by
  unfold nest
  split <;> simp_all [Other]

theorem border_of_other (scan : Scan) : scan.border lightweight instr = scan := by
  unfold Scan.border
  split <;> simp_all [Other]

theorem visitInlined_of_other (s : State) : s.visitInlined func lightweight instr = some s := by
  unfold State.visitInlined
  split <;> simp_all [Other]

end Other

namespace Keeps

variable {t₀ t : Tracking} {scan : Scan} {s : State} {instr : Instr}
  (h : Keeps func outer kept t₀ t scan s)

include h

theorem visit_watched (hother : Other instr) (hexecutes : hasArbitraryExecution instr = true)
    (hcurrent : Current func t scan instr) (hinstr : Bounded instr) :
    ∃ s', s.update_one func instr = some s' ∧ Keeps func outer kept t₀ t
      { scan with line := some (func.lineOf t.begins.head? instr), breaker := none }
      (s'.forget.push instr) := by
  obtain ⟨s', hupdate, hothers, hprev, htracked, hnested, hposition, hbounded⟩ :=
    h.update_one hcurrent
  have hwatched : watched instr = true := by simp [watched, hexecutes]
  have hbegins : (t₀.all func s'.instrs).begins = t.begins := begins_of_nests hnested
  have hinstrs : (s'.forget.push instr).instrs = s'.instrs ++ [instr] := by simp
  have hlast : (s'.forget.push instr).last_emitted = none := rfl
  have hend : (t₀.all func (s'.forget.push instr).instrs).position =
      some (func.lineOf t.begins.head? instr) := by
    rw [hinstrs, Tracking.all_append, Tracking.all_cons, Tracking.all_nil, next_of_other hother,
      hposition]
  refine ⟨s', hupdate, ⟨⟨?_, ?_, ?_, by simp [hlast], h.chained, ?_, ?_, ?_, ?_, ?_,
    h.below⟩, h.begins, ?_, ?_, by simp, fun _ line hline => ?_, fun _ _ line hline => ?_⟩⟩
  · exact hothers.parent.trans h.parent
  · rw [hinstrs]
    refine Tracking.tracked_append.mpr ⟨htracked, fun _ => ?_, trivial⟩
    rw [hposition, hbegins]
  · rw [hinstrs, foldlM_append, hnested]
    simp [nest_of_other hother]
  · exact fun begin hbegin => (congrFun hothers.parents begin).trans (h.parents begin hbegin)
  · intro code lines hlines
    exact h.codes code lines ((congrFun hothers.code_bc_idx_map code).symm.trans hlines)
  · intro begin hbegin
    have hknown := h.known begin hbegin
    rwa [← hothers.code_bc_idx_map] at hknown
  · have hown := h.own
    rwa [← hothers.code_bc_idx_map] at hown
  · rw [hinstrs]
    exact bounded_append hbounded fun _ => hinstr
  · exact h.inited.trans hothers.inited_once.symm
  · have hvalue : (s'.forget.push instr).prev_emitted_lno_or_bc =
        func.lineOf t.begins.head? instr := hprev
    rw [hvalue, if_neg hcurrent.max]
  · rw [hend, hcurrent.prepared line hline]
  · rw [hend, Option.some.inj hline]

omit h in
theorem visit_plain (h : Keeps func outer kept t₀ t scan s) (hother : Other instr)
    (hplain : Plain instr) : Keeps func outer kept t₀ t scan (s.push instr) := by
  have hsame := State.sameOthers_push s instr
  have hposition : (t₀.all func (s.push instr).instrs).position =
      (t₀.all func s.instrs).position := by
    rw [State.instrs_push, Tracking.all_append, Tracking.all_cons, Tracking.all_nil,
      next_of_other hother]
  refine ⟨h.toShape.push hplain (nest_of_other hother _), h.begins,
    h.inited.trans hsame.1.inited_once.symm, ?_, ?_, ?_, ?_⟩
  · rw [hsame.2, h.line]
  · rw [hposition]
    exact h.breaker
  · rw [hposition]
    exact h.position
  · rw [hposition]
    exact h.prev

theorem visit_update (hopcode : instr.opcode = .kUpdatePrevInstr)
    (hinlined : instr.inlined = t.begins.head?) : Keeps func outer kept t₀ (t.next func instr)
      { scan with breaker := none } (s.push instr) := by
  have hnext : ∀ t : Tracking, t.next func instr = ⟨t.begins, some (func.carried instr)⟩ := by
    intro t
    simp [Tracking.next, hopcode]
  have hplain : Plain instr := by
    simp [Plain, watched, hasArbitraryExecution, Opcode.hasArbitraryExecution, hopcode]
  have hnest : nest outer t.begins instr = some t.begins := by simp [nest, hopcode, hinlined]
  have hsame := State.sameOthers_push s instr
  rw [hnext]
  refine ⟨h.toShape.push hplain hnest, h.begins, h.inited.trans hsame.1.inited_once.symm, ?_,
    by simp, fun _ line hline => ?_, by simp⟩
  · rw [hsame.2, ← h.line]
  · rw [State.instrs_push, Tracking.all_append, Tracking.all_cons, hnext]
    exact hline

theorem visit_breaker (hopcode : instr.opcode = .kLoadEvalBreaker) :
    ∃ s', s.initOnce func = some s' ∧ Keeps func outer kept t₀ t
      { scan with breaker := some (func.firstLine t.begins.head?), inited_once := true }
      (s'.push instr) := by
  have hother : Other instr := by simp [Other, hopcode]
  have hplain : Plain instr := by
    simp [Plain, watched, hasArbitraryExecution, Opcode.hasArbitraryExecution, hopcode]
  have hlines := h.toShape.lines_isSome
  rw [h.parent] at hlines
  obtain ⟨update, hupdate, hinlined, hfirst, heq⟩ : ∃ update : Instr,
      update.opcode = .kUpdatePrevInstr ∧ update.inlined = t.begins.head? ∧
        func.carried update = func.firstLine t.begins.head? ∧
        s.initOnce func = some { s with
          front := s.instrs, last_emitted := some (update, []), inited_once := true } := by
    refine ⟨⟨.kUpdatePrevInstr, (func.codeOf t.begins.head?).firsttraceable * 2, t.begins.head?,
      BytecodeIndexToLine.lineNoFor (BytecodeIndexToLine.create (func.codeOf t.begins.head?))
        (func.codeOf t.begins.head?).firsttraceable, .kJitGen_yf, []⟩, rfl, rfl, rfl, ?_⟩
    simp [State.initOnce, h.parent, hlines]
  have hshape : Shape func outer kept t₀ t.begins { s with
      front := s.instrs, last_emitted := some (update, []), inited_once := true } := by
    have hwatched : watched update = false := by
      simp [watched, hasArbitraryExecution, Opcode.hasArbitraryExecution, hupdate]
    refine ⟨h.parent, ?_, ?_, ?_, h.chained, h.parents, h.codes, h.known, h.own,
      bounded_append h.bounded (by simp [hwatched]), h.below⟩
    · exact Tracking.tracked_append.mpr ⟨h.tracked, by simp [Tracking.Tracked, hwatched]⟩
    · change (s.instrs ++ [update]).foldlM (nest outer) t₀.begins = some t.begins
      rw [foldlM_append, h.nested]
      simp [nest, hupdate, hinlined]
    · rintro update' since hsome
      cases hsome
      exact ⟨hupdate, hinlined, by simp, h.nested⟩
  have hposition : (t₀.all func (s.instrs ++ [update, instr])).position =
      some (func.firstLine t.begins.head?) := by
    rw [Tracking.all_append, Tracking.all_cons, Tracking.all_cons, Tracking.all_nil,
      next_of_other hother]
    simp [Tracking.next, hupdate, hfirst]
  refine ⟨_, heq, ⟨hshape.push hplain (nest_of_other hother _), h.begins, rfl, h.line,
    fun first hsome => ?_, by simp, by simp⟩⟩
  rw [← Option.some.inj hsome]
  exact hposition

variable {begin : BeginInlinedFunction}

variable (lightweight) in
theorem visit_begin (hopcode : instr.opcode = .kBeginInlinedFunction)
    (hinlined : instr.inlined = some begin) (houter : outer begin = t.begins)
    (hcurrent : Current func t scan instr) (hinstr : Bounded instr) :
    ∃ s', s.visitInlined func lightweight instr = some s' ∧ Keeps func outer kept t₀
      (t.next func instr) (scan.border lightweight instr) (s'.push instr) := by
  obtain ⟨s₁, hupdate, hothers, hprev, htracked, hnested, hposition, hbounded⟩ :=
    h.update_one hcurrent
  have hwatched : watched instr = true := by simp [watched, hopcode]
  have hactive : (t₀.all func s₁.instrs).begins = t.begins := begins_of_nests hnested
  have hnext : t.next func instr = ⟨begin :: t.begins, none⟩ := by
    simp [Tracking.next, hopcode, hinlined]
  have hborder : scan.border lightweight instr = ⟨begin :: scan.begins, none, none,
      if lightweight then false else scan.inited_once⟩ := by
    simp [Scan.border, hopcode, hinlined]
  obtain ⟨s', hvisit, hinstrs', hlast, hmap, hparents, hparent, hprev', hinited⟩ :
      ∃ s', s.visitInlined func lightweight instr = some s' ∧ s'.instrs = s₁.instrs ∧
        s'.last_emitted = none ∧
        s'.code_bc_idx_map = (if s₁.code_bc_idx_map begin.code = none then
          Function.update s₁.code_bc_idx_map begin.code
            (some (BytecodeIndexToLine.create begin.code))
          else s₁.code_bc_idx_map) ∧
        s'.parents = Function.update s₁.parents begin s₁.parent ∧ s'.parent = some begin ∧
        s'.prev_emitted_lno_or_bc = INT_MAX ∧
        s'.inited_once = if lightweight then false else s₁.inited_once :=
    ⟨{ s₁.forget with
      code_bc_idx_map :=
        if s₁.code_bc_idx_map begin.code = none then
          Function.update s₁.code_bc_idx_map begin.code
            (some (BytecodeIndexToLine.create begin.code))
        else s₁.code_bc_idx_map
      parents := Function.update s₁.parents begin s₁.parent
      parent := some begin
      prev_emitted_lno_or_bc := INT_MAX
      inited_once := if lightweight then false else s₁.inited_once },
      by simp [State.visitInlined, hopcode, hinlined, hupdate], rfl, rfl, rfl, rfl, rfl, rfl, rfl⟩
  obtain ⟨hpush, hpushPrev⟩ := State.sameOthers_push s' instr
  have hmap' : ∀ code, (s'.push instr).code_bc_idx_map code =
      if code = begin.code ∧ s.code_bc_idx_map begin.code = none then
        some (BytecodeIndexToLine.create begin.code)
      else s.code_bc_idx_map code := by
    intro code
    rw [hpush.code_bc_idx_map, hmap, hothers.code_bc_idx_map]
    by_cases hcode : code = begin.code
    · subst hcode
      split <;> simp_all
    · split <;> simp [hcode]
  refine ⟨s', hvisit, ?_⟩
  rw [hnext, hborder]
  refine ⟨⟨?_, ?_, ?_, ?_, ⟨houter, h.chained⟩, ?_, ?_, ?_, ?_, ?_, ?_⟩, ?_, ?_, ?_, by simp, by
    simp,
    by simp⟩
  · rw [hpush.parent, hparent]
    rfl
  · rw [State.instrs_push, hinstrs']
    refine Tracking.tracked_append.mpr ⟨htracked, fun _ => ?_, trivial⟩
    rw [hposition, hactive]
  · rw [State.instrs_push, hinstrs', foldlM_append, hnested]
    simp [nest, hopcode, hinlined, houter]
  · rw [State.last_emitted_push hlast]
    simp
  · intro other hother
    rw [hpush.parents, hparents]
    by_cases hsame : other = begin
    · subst hsame
      rw [Function.update_self, houter]
      exact hothers.parent.trans h.parent
    · rw [Function.update_of_ne hsame, hothers.parents]
      exact h.parents other (hother.imp_right fun hmem => (mem_cons.mp hmem).resolve_left hsame)
  · intro code lines hlines
    rw [hmap'] at hlines
    split at hlines
    next hcode =>
      cases hlines
      rw [hcode.1]
    next => exact h.codes code lines hlines
  · intro other hother
    rw [hmap']
    split
    next => rfl
    next hnot =>
      by_cases hsame : other = begin
      · subst hsame
        exact isSome_iff_ne_none.mpr fun hnone => hnot ⟨rfl, hnone⟩
      · exact h.known other
          (hother.imp_right fun hmem => (mem_cons.mp hmem).resolve_left hsame)
  · rw [hmap']
    split
    next => rfl
    next => exact h.own
  · rw [State.instrs_push, hinstrs']
    exact bounded_append hbounded fun _ => hinstr
  · intro other hother
    by_cases hsame : other = begin
    · exact hsame ▸ hinstr.2 begin hinlined
    · exact h.below other (hother.imp_right fun hmem => (mem_cons.mp hmem).resolve_left hsame)
  · rw [h.begins]
  · rw [hpush.inited_once, hinited, h.inited, hothers.inited_once]
  · rw [hpushPrev, hprev', if_pos rfl]

variable (lightweight) in
theorem visit_end (hopcode : instr.opcode = .kEndInlinedFunction)
    (hinlined : instr.inlined = some begin) (hbegin : t.begins.head? = some begin) :
    ∃ s', s.visitInlined func lightweight instr = some s' ∧ Keeps func outer kept t₀
      (t.next func instr) (scan.border lightweight instr) (s'.push instr) := by
  obtain ⟨rest, hrest⟩ : ∃ rest, t.begins = begin :: rest := by
    cases hbegins : t.begins with
    | nil => simp [hbegins] at hbegin
    | cons first rest => exact ⟨rest, by simpa [hbegins] using hbegin⟩
  have hchained := h.chained
  rw [hrest] at hchained
  have hnext : t.next func instr = ⟨rest, none⟩ := by simp [Tracking.next, hopcode, hrest]
  have hborder : scan.border lightweight instr = ⟨rest, none, none, scan.inited_once⟩ := by
    simp [Scan.border, hopcode, hinlined, h.begins, hrest]
  have hwatched : watched instr = false := by
    simp [watched, hasArbitraryExecution, Opcode.hasArbitraryExecution, hopcode]
  obtain ⟨s', hvisit, hinstrs', hlast, hmap, hparents, hparent, hprev, hinited⟩ :
      ∃ s', s.visitInlined func lightweight instr = some s' ∧ s'.instrs = s.instrs ∧
        s'.last_emitted = none ∧ s'.code_bc_idx_map = s.code_bc_idx_map ∧
        s'.parents = s.parents ∧ s'.parent = s.parents begin ∧
        s'.prev_emitted_lno_or_bc = INT_MAX ∧ s'.inited_once = s.inited_once :=
    ⟨{ s.forget with parent := s.parents begin, prev_emitted_lno_or_bc := INT_MAX },
      by simp [State.visitInlined, hopcode, hinlined], rfl, rfl, rfl, rfl, rfl, rfl, rfl⟩
  obtain ⟨hpush, hpushPrev⟩ := State.sameOthers_push s' instr
  refine ⟨s', hvisit, ?_⟩
  rw [hnext, hborder]
  refine ⟨⟨?_, ?_, ?_, ?_, hchained.2, ?_, ?_, ?_, ?_, ?_, ?_⟩, rfl, ?_, ?_, by simp, by simp, by
    simp⟩
  · rw [hpush.parent, hparent, h.parents begin (Or.inr (by simp [hrest])), hchained.1]
  · rw [State.instrs_push, hinstrs']
    exact Tracking.tracked_append.mpr ⟨h.tracked, by simp [Tracking.Tracked, hwatched]⟩
  · rw [State.instrs_push, hinstrs', foldlM_append, h.nested]
    simp [nest, hopcode, hinlined, hrest]
  · rw [State.last_emitted_push hlast]
    simp
  · rw [hpush.parents, hparents]
    exact fun other hother => h.parents other (hother.imp_right (hrest ▸ mem_cons_of_mem begin))
  · rw [hpush.code_bc_idx_map, hmap]
    exact h.codes
  · rw [hpush.code_bc_idx_map, hmap]
    exact fun other hother => h.known other (hother.imp_right (hrest ▸ mem_cons_of_mem begin))
  · rw [hpush.code_bc_idx_map, hmap]
    exact h.own
  · rw [State.instrs_push, hinstrs']
    exact bounded_append h.bounded (by simp [hwatched])
  · exact fun other hother => h.below other (hother.imp_right (hrest ▸ mem_cons_of_mem begin))
  · rw [hpush.inited_once, hinited, h.inited]
  · rw [hpushPrev, hprev, if_pos rfl]

theorem visitInstr {begins : List BeginInlinedFunction}
    (hnest : nest outer t.begins instr = some begins)
    (hprepared : watched instr = true →
      ∀ line, t.position = some line → line = func.lineOf t.begins.head? instr)
    (hundisturbed : watched instr = true → scan.line = some (func.lineOf t.begins.head? instr) →
      ∀ first, scan.breaker = some first → first = func.lineOf t.begins.head? instr)
    (hcode : LinesBelow func.code) (hinstr : watched instr = true → Bounded instr) :
    ∃ s', s.visitInstr func lightweight instr = some s' ∧ Keeps func outer kept t₀
      (t.next func instr) (scan.next func lightweight instr) s' ∧
      s'.instrs.getLast? = some instr := by
  have hcurrent : watched instr = true → Current func t scan instr := by
    refine fun hwatched => ⟨hprepared hwatched, hundisturbed hwatched,
      lineOf_ne ?_ (hinstr hwatched)⟩
    cases hbegins : t.begins with
    | nil => exact hcode
    | cons begin rest => exact h.below begin (Or.inr (by simp [hbegins]))
  by_cases hbegin : instr.opcode = .kBeginInlinedFunction
  · have hexecutes : hasArbitraryExecution instr = false := by
      simp [hasArbitraryExecution, Opcode.hasArbitraryExecution, hbegin]
    have hwatched : watched instr = true := by simp [watched, hbegin]
    cases hinlined : instr.inlined with
    | none => simp [nest, hbegin, hinlined] at hnest
    | some begin =>
      have houter : outer begin = t.begins := by
        by_contra hne
        simp [nest, hbegin, hinlined, hne] at hnest
      obtain ⟨s', hvisit, hkeeps⟩ := h.visit_begin lightweight hbegin hinlined
        houter (hcurrent hwatched) (hinstr hwatched)
      refine ⟨s'.push instr, by simp [State.visitInstr, hvisit, hbegin, hexecutes], ?_, by simp⟩
      simpa [Scan.next, hbegin, hexecutes] using hkeeps
  by_cases hend : instr.opcode = .kEndInlinedFunction
  · have hexecutes : hasArbitraryExecution instr = false := by
      simp [hasArbitraryExecution, Opcode.hasArbitraryExecution, hend]
    cases hinlined : instr.inlined with
    | none => simp [nest, hend, hinlined] at hnest
    | some begin =>
      have hhead : t.begins.head? = some begin := by
        by_contra hne
        simp [nest, hend, hinlined, hne] at hnest
      obtain ⟨s', hvisit, hkeeps⟩ :=
        h.visit_end lightweight hend hinlined hhead
      refine ⟨s'.push instr, by simp [State.visitInstr, hvisit, hend, hexecutes], ?_, by simp⟩
      simpa [Scan.next, hend, hexecutes] using hkeeps
  by_cases hupdate : instr.opcode = .kUpdatePrevInstr
  · have hexecutes : hasArbitraryExecution instr = false := by
      simp [hasArbitraryExecution, Opcode.hasArbitraryExecution, hupdate]
    have hinlined : instr.inlined = t.begins.head? := by
      by_contra hne
      simp [nest, hupdate, hne] at hnest
    have hvisit : s.visitInlined func lightweight instr = some s := by
      simp [State.visitInlined, hupdate]
    refine ⟨s.push instr, by simp [State.visitInstr, hvisit, hupdate, hexecutes], ?_, by simp⟩
    simpa [Scan.next, Scan.border, hupdate, hexecutes] using h.visit_update hupdate hinlined
  have hother : Other instr := ⟨hbegin, hend, hupdate⟩
  have hvisit : s.visitInlined func lightweight instr = some s := visitInlined_of_other hother s
  rw [next_of_other hother, Scan.next, border_of_other hother]
  by_cases hinit : lightweight = true ∧ s.inited_once = false ∧ instr.opcode = .kLoadEvalBreaker
  · obtain ⟨s', hs', hkeeps⟩ := h.visit_breaker hinit.2.2
    refine ⟨s'.push instr, ?_, ?_, by simp⟩
    · simp only [State.visitInstr, hvisit, bind_eq_bind, bind_some, if_pos hinit, hs',
        Option.pure_def]
    · rw [if_pos (h.inited ▸ hinit)]
      simpa only [h.begins] using hkeeps
  · by_cases hexecutes : hasArbitraryExecution instr = true
    · have hwatched : watched instr = true := by simp [watched, hexecutes]
      obtain ⟨s', hs', hkeeps⟩ := h.visit_watched hother hexecutes (hcurrent hwatched)
        (hinstr hwatched)
      refine ⟨s'.forget.push instr, ?_, ?_, by simp⟩
      · simp only [State.visitInstr, hvisit, bind_eq_bind, bind_some, if_neg hinit,
          if_pos hexecutes, hs', Option.pure_def]
      · rw [if_neg (h.inited ▸ hinit), if_pos hexecutes]
        simpa only [h.begins] using hkeeps
    · have hplain : Plain instr := by simp [Plain, watched, hexecutes, hbegin, hend]
      refine ⟨s.push instr, ?_, ?_, by simp⟩
      · simp only [State.visitInstr, hvisit, bind_eq_bind, bind_some, if_neg hinit,
          if_neg hexecutes, Option.pure_def]
      · rw [if_neg (h.inited ▸ hinit), if_neg hexecutes]
        exact h.visit_plain hother hplain

end Keeps

end Steps

end CinderX.Jit.Hir.UpdatePrevInstr
