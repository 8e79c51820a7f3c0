import CinderX.Foundation.Dominance
import CinderX.Jit.Hir.UpdatePrevInstrTracked

/-!
# Tracebacks show the right lines

The worklist leaves every block that can be reached tracked.  So on every path, each activation
has been told the line that it is at when others run.
-/

namespace CinderX.Jit.Hir.UpdatePrevInstr

open Foundation.Dominance List

variable {func : Function}

theorem Keeps.visitInstrs {outer : BeginInlinedFunction → List BeginInlinedFunction}
    {kept : BeginInlinedFunction → Prop} {lightweight : Bool} {t₀ t : Tracking} {scan : Scan}
    {s : State} {instrs : List Instr} {begins : List BeginInlinedFunction}
    (h : Keeps func outer kept t₀ t scan s)
    (hnest : instrs.foldlM (nest outer) t.begins = some begins)
    (hprepared : t.Prepared func instrs) (hundisturbed : scan.Undisturbed func lightweight instrs)
    (hcode : LinesBelow func.code)
    (hbounded : ∀ instr ∈ instrs, watched instr = true → Bounded instr) :
    ∃ s' scan', instrs.foldlM (State.visitInstr · func lightweight ·) s = some s' ∧
      Keeps func outer kept t₀ (t.all func instrs) scan' s' ∧
      ∀ last, instrs.getLast? = some last → s'.instrs.getLast? = some last := by
  induction instrs generalizing t scan s with
  | nil => exact ⟨s, scan, rfl, h, by simp⟩
  | cons instr instrs ih =>
    obtain ⟨middle, hfirst, hrest⟩ := Option.bind_eq_some_iff.mp hnest
    obtain ⟨hinstr, hbounded⟩ := forall_mem_cons.mp hbounded
    have hquiet := hundisturbed.1
    rw [h.begins] at hquiet
    obtain ⟨s₁, hs₁, hkeeps, hlast⟩ := h.visitInstr hfirst hprepared.1 hquiet hcode hinstr
    rw [← (begins_of_nest hfirst : (t.next func instr).begins = middle)] at hrest
    obtain ⟨s', scan', hs', hkeeps', hlast'⟩ :=
      ih hkeeps hrest hprepared.2 hundisturbed.2 hbounded
    refine ⟨s', scan', by rw [foldlM_cons, hs₁]; exact hs', hkeeps', fun last hlast'' => ?_⟩
    cases instrs with
    | nil =>
      cases hs'
      exact hlast.trans hlast''
    | cons next instrs => exact hlast' last (by simpa using hlast'')

/-- The inlined functions are nested the same way on all paths: what is active at the start of a
block, and around an inlined function. -/
structure Nesting (func : Function) where
  begins : BlockId → List BeginInlinedFunction
  outer : BeginInlinedFunction → List BeginInlinedFunction
  entry : begins func.entry_block = []
  entry_mem : func.entry_block ∈ func.ids
  block : ∀ id ∈ func.ids, ∃ result term,
    (func.block id).foldlM (nest outer) (begins id) = some result ∧
      (func.block id).getLast? = some term ∧
      ∀ succ ∈ term.successors, succ ∈ func.ids ∧ begins succ = result

structure Function.Fresh (func : Function) : Prop where
  update : ∀ id ∈ func.ids, ∀ instr ∈ func.block id, instr.opcode ≠ .kUpdatePrevInstr
  bounded : ∀ id ∈ func.ids, ∀ instr ∈ func.block id, Bounded instr
  code : LinesBelow func.code

/-! ## The worklist -/

namespace Run

section Enqueue

variable {parent : Option BeginInlinedFunction} {r : Run} {succs : List BlockId}

structure Enqueued (parent : Option BeginInlinedFunction) (succs : List BlockId) (r r' : Run) :
    Prop where
  block : r'.block = r.block
  state : r'.state = r.state
  worklist : ∀ cur ∈ r'.worklist,
    cur ∈ r.worklist ∨ cur.block ∈ succs ∧ cur.parent = parent
  kept : ∀ cur ∈ r.worklist, cur ∈ r'.worklist
  enqueued : ∀ id, id ∈ r'.enqueued ↔ id ∈ r.enqueued ∨ id ∈ succs
  waiting : ∀ id ∈ succs, id ∈ r.enqueued ∨ ∃ cur ∈ r'.worklist, cur.block = id

theorem enqueued_foldl (r : Run) (succs : List BlockId) :
    Enqueued parent succs r (succs.foldl (enqueue parent) r) := by
  induction succs generalizing r with
  | nil => exact ⟨rfl, rfl, by simp, by simp, by simp, by simp⟩
  | cons succ succs ih =>
    have hrest := ih (enqueue parent r succ)
    rw [foldl_cons]
    by_cases hmem : succ ∈ r.enqueued
    · have heq : enqueue parent r succ = r := if_pos hmem
      rw [heq] at hrest ⊢
      refine ⟨hrest.block, hrest.state, fun cur hcur => ?_, hrest.kept, fun id => ?_, ?_⟩
      · exact (hrest.worklist cur hcur).imp_right fun h => ⟨mem_cons_of_mem _ h.1, h.2⟩
      · rw [hrest.enqueued, mem_cons]
        by_cases hid : id = succ
        · simp [hid, hmem]
        · simp [hid]
      · exact forall_mem_cons.mpr ⟨Or.inl hmem, hrest.waiting⟩
    · have heq : enqueue parent r succ = { r with
          worklist := ⟨succ, parent⟩ :: r.worklist, enqueued := succ :: r.enqueued } := if_neg hmem
      rw [heq] at hrest ⊢
      have hnew : (⟨succ, parent⟩ : InlineStackState) ∈ (succs.foldl (enqueue parent) { r with
          worklist := ⟨succ, parent⟩ :: r.worklist, enqueued := succ :: r.enqueued }).worklist :=
        hrest.kept _ mem_cons_self
      refine ⟨hrest.block, hrest.state, fun cur hcur => ?_,
        fun cur hcur => hrest.kept cur (mem_cons_of_mem _ hcur), fun id => ?_,
        forall_mem_cons.mpr ⟨Or.inr ⟨_, hnew, rfl⟩, fun id hid => ?_⟩⟩
      · rcases hrest.worklist cur hcur with hcur | hcur
        · rcases mem_cons.mp hcur with rfl | hcur
          · exact Or.inr ⟨mem_cons_self, rfl⟩
          · exact Or.inl hcur
        · exact Or.inr ⟨mem_cons_of_mem _ hcur.1, hcur.2⟩
      · rw [hrest.enqueued]
        simp only [mem_cons, or_assoc, or_left_comm]
      · rcases hrest.waiting id hid with hold | hwaiting
        · rcases mem_cons.mp hold with rfl | hold
          · exact Or.inr ⟨_, hnew, rfl⟩
          · exact Or.inl hold
        · exact Or.inr hwaiting

end Enqueue

structure Valid {func : Function} (nesting : Nesting func) (r : Run) : Prop where
  nested : ∀ id ∈ func.ids, (r.block id).foldlM (nest nesting.outer) (nesting.begins id) =
    (func.block id).foldlM (nest nesting.outer) (nesting.begins id)
  last : ∀ id ∈ func.ids, (r.block id).getLast? = (func.block id).getLast?
  prepared : ∀ id ∈ func.ids, Tracking.Prepared func ⟨nesting.begins id, none⟩ (r.block id)
  bounded : ∀ id ∈ func.ids, ∀ instr ∈ r.block id, watched instr = true → Bounded instr
  worklist : ∀ cur ∈ r.worklist, cur.block ∈ func.ids ∧
    cur.parent = (nesting.begins cur.block).head? ∧
    Chained nesting.outer (nesting.begins cur.block) ∧
    ∀ begin ∈ nesting.begins cur.block, r.state.parents begin = (nesting.outer begin).head? ∧
      (r.state.code_bc_idx_map begin.code).isSome ∧ LinesBelow begin.code
  codes : ∀ code lines, r.state.code_bc_idx_map code = some lines →
    lines = BytecodeIndexToLine.create code
  own : (r.state.code_bc_idx_map func.code).isSome
  enqueued : ∀ id ∈ r.enqueued, id ∈ func.ids
  done : ∀ id, id = func.entry_block ∨ id ∈ r.enqueued → (∃ cur ∈ r.worklist, cur.block = id) ∨
    Tracking.Tracked func ⟨nesting.begins id, none⟩ (r.block id) ∧
      ∀ term, (r.block id).getLast? = some term → ∀ succ ∈ term.successors, succ ∈ r.enqueued

/-- The update for `RESUME` does not disturb the block that is next. -/
def Quiet {func : Function} (nesting : Nesting func) (lightweight : Bool) (r : Run)
    (cur : InlineStackState) : Prop :=
  Scan.Undisturbed func lightweight ⟨nesting.begins cur.block, none, none, r.state.inited_once⟩
    (r.block cur.block)

variable {func : Function} {nesting : Nesting func} {lightweight : Bool} {r : Run}
  {cur : InlineStackState} {rest : List InlineStackState}

theorem Valid.keeps (h : r.Valid nesting) (hwork : r.worklist = cur :: rest) :
    Keeps func nesting.outer (fun begin => ∃ other ∈ rest, begin ∈ nesting.begins other.block)
      ⟨nesting.begins cur.block, none⟩ ⟨nesting.begins cur.block, none⟩
      ⟨nesting.begins cur.block, none, none, r.state.inited_once⟩
      { r.state with
        parent := cur.parent, prev_emitted_lno_or_bc := INT_MAX, front := [],
        last_emitted := none } := by
  have hcur := h.worklist cur (by simp [hwork])
  have hknown : ∀ begin, (∃ other ∈ rest, begin ∈ nesting.begins other.block) ∨
      begin ∈ nesting.begins cur.block → r.state.parents begin = (nesting.outer begin).head? ∧
        (r.state.code_bc_idx_map begin.code).isSome ∧ LinesBelow begin.code := by
    rintro begin (⟨other, hother, hbegin⟩ | hbegin)
    · exact (h.worklist other (by simp [hwork, hother])).2.2.2 begin hbegin
    · exact hcur.2.2.2 begin hbegin
  refine ⟨⟨hcur.2.1, trivial, rfl, by simp, hcur.2.2.1, fun begin hbegin => (hknown begin hbegin).1,
    h.codes, fun begin hbegin => (hknown begin hbegin).2.1, h.own, by simp [State.instrs],
    fun begin hbegin => (hknown begin hbegin).2.2⟩, rfl, rfl, by simp, by simp, by simp, by simp⟩

def pending (func : Function) (r : Run) : Nat :=
  r.worklist.length + (func.ids.toFinset \ r.enqueued.toFinset).card

theorem pending_foldl {parent : Option BeginInlinedFunction} {succs : List BlockId}
    (hsuccs : ∀ succ ∈ succs, succ ∈ func.ids) (r : Run) :
    pending func (succs.foldl (enqueue parent) r) = pending func r := by
  induction succs generalizing r with
  | nil => rfl
  | cons succ succs ih =>
    obtain ⟨hsucc, hsuccs⟩ := forall_mem_cons.mp hsuccs
    rw [foldl_cons, ih hsuccs]
    by_cases hmem : succ ∈ r.enqueued
    · rw [enqueue, if_pos hmem]
    · have hin : succ ∈ func.ids.toFinset \ r.enqueued.toFinset := by simp [hsucc, hmem]
      have hcard := Finset.card_erase_of_mem hin
      have hpos := Finset.card_pos.mpr ⟨succ, hin⟩
      have herase : func.ids.toFinset \ (succ :: r.enqueued).toFinset =
          (func.ids.toFinset \ r.enqueued.toFinset).erase succ := by
        ext id
        simp only [Finset.mem_sdiff, List.mem_toFinset, mem_cons, not_or, Finset.mem_erase]
        tauto
      rw [enqueue, if_neg hmem]
      simp only [pending, length_cons, herase]
      omega

theorem Valid.visitBlock (h : r.Valid nesting) (hcode : LinesBelow func.code)
    (hwork : r.worklist = cur :: rest) (hquiet : Quiet nesting lightweight r cur) :
    ∃ r', r.visitBlock func lightweight cur rest = some r' ∧ r'.Valid nesting ∧
      pending func r' + 1 = pending func r := by
  have hcur := h.worklist cur (by simp [hwork])
  obtain ⟨result, term, hresult, hterm, hsuccs⟩ := nesting.block cur.block hcur.1
  have hnest : (r.block cur.block).foldlM (nest nesting.outer) (nesting.begins cur.block) =
      some result := (h.nested _ hcur.1).trans hresult
  have hlast : (r.block cur.block).getLast? = some term := (h.last _ hcur.1).trans hterm
  obtain ⟨s', scan', hs', hkeeps, hlast'⟩ := (h.keeps hwork).visitInstrs hnest
    (h.prepared _ hcur.1) hquiet hcode (h.bounded _ hcur.1)
  have hbegins : (Tracking.all func ⟨nesting.begins cur.block, none⟩ (r.block cur.block)).begins =
      result := begins_of_nests hnest
  have hshape := hkeeps.toShape
  rw [hbegins] at hshape
  obtain ⟨r', hr'⟩ : ∃ r', r' = term.successors.foldl (enqueue s'.parent) { r with
    block := Function.update r.block cur.block s'.instrs, worklist := rest, state := s' } :=
      ⟨_, rfl⟩
  have hvisit : r.visitBlock func lightweight cur rest = some r' := by
    rw [hr']
    simp only [Run.visitBlock, hs', hlast, Option.bind_eq_bind, Option.bind_some, Option.pure_def]
  have henqueued : Enqueued s'.parent term.successors { r with
      block := Function.update r.block cur.block s'.instrs, worklist := rest, state := s' } r' :=
    hr' ▸ enqueued_foldl _ _
  have hpending : pending func r' = pending func { r with
      block := Function.update r.block cur.block s'.instrs, worklist := rest, state := s' } :=
    hr' ▸ pending_foldl (fun succ hsucc => (hsuccs succ hsucc).1) _
  have hown : r'.block cur.block = s'.instrs := by
    rw [henqueued.block]
    exact Function.update_self _ _ _
  have hother : ∀ {id}, id ≠ cur.block → r'.block id = r.block id := by
    intro id hid
    rw [henqueued.block]
    exact Function.update_of_ne hid _ _
  refine ⟨r', hvisit, ?_, ?_⟩
  · refine ⟨fun id hid => ?_, fun id hid => ?_, fun id hid => ?_, fun id hid => ?_,
      fun next hnext => ?_, ?_, ?_, fun id hid => ?_, fun id hid => ?_⟩
    · by_cases hid' : id = cur.block
      · rw [hid', hown, hresult]
        exact hshape.nested
      · rw [hother hid', h.nested id hid]
    · by_cases hid' : id = cur.block
      · rw [hid', hown, hterm]
        exact hlast' term hlast
      · rw [hother hid', h.last id hid]
    · by_cases hid' : id = cur.block
      · rw [hid', hown]
        exact hshape.tracked.prepared
      · rw [hother hid']
        exact h.prepared id hid
    · by_cases hid' : id = cur.block
      · rw [hid', hown]
        exact hshape.bounded
      · rw [hother hid']
        exact h.bounded id hid
    · rw [henqueued.state]
      rcases henqueued.worklist next hnext with hrest | ⟨hsucc, hparent⟩
      · obtain ⟨hid, hparent, hchained, -⟩ := h.worklist next (by simp [hwork, hrest])
        exact ⟨hid, hparent, hchained, fun begin hbegin =>
          ⟨hshape.parents begin (Or.inl ⟨next, hrest, hbegin⟩),
            hshape.known begin (Or.inl ⟨next, hrest, hbegin⟩),
            hshape.below begin (Or.inl ⟨next, hrest, hbegin⟩)⟩⟩
      · obtain ⟨hid, hbegins'⟩ := hsuccs next.block hsucc
        rw [hbegins']
        exact ⟨hid, hparent.trans hshape.parent, hshape.chained, fun begin hbegin =>
          ⟨hshape.parents begin (Or.inr hbegin), hshape.known begin (Or.inr hbegin),
            hshape.below begin (Or.inr hbegin)⟩⟩
    · rw [henqueued.state]
      exact hshape.codes
    · rw [henqueued.state]
      exact hshape.own
    · rcases (henqueued.enqueued id).mp hid with hold | hsucc
      · exact h.enqueued id hold
      · exact (hsuccs id hsucc).1
    · by_cases hid' : id = cur.block
      · right
        rw [hid', hown]
        refine ⟨hshape.tracked, fun term' hterm' succ hsucc => ?_⟩
        obtain rfl := Option.some.inj ((hlast' term hlast).symm.trans hterm')
        exact (henqueued.enqueued succ).mpr (Or.inr hsucc)
      · by_cases hold : id = func.entry_block ∨ id ∈ r.enqueued
        · rcases h.done id hold with ⟨next, hnext, hblock⟩ | ⟨htracked, hclosed⟩
          · rw [hwork] at hnext
            rcases mem_cons.mp hnext with rfl | hnext
            · exact absurd hblock.symm hid'
            · exact Or.inl ⟨next, henqueued.kept next hnext, hblock⟩
          · right
            rw [hother hid']
            exact ⟨htracked, fun term' hterm' succ hsucc =>
              (henqueued.enqueued succ).mpr (Or.inl (hclosed term' hterm' succ hsucc))⟩
        · obtain ⟨hne, hnot⟩ := not_or.mp hold
          have hsucc := ((henqueued.enqueued id).mp (hid.resolve_left hne)).resolve_left hnot
          exact Or.inl ((henqueued.waiting id hsucc).resolve_left hnot)
  · rw [hpending]
    simp only [pending, hwork, length_cons]
    omega

variable (func lightweight) in
def Along (P : Run → InlineStackState → Prop) : Nat → Run → Prop
  | 0, _ => True
  | fuel + 1, r =>
    match r.worklist with
    | [] => True
    | cur :: rest =>
      P r cur ∧ ∀ r', r.visitBlock func lightweight cur rest = some r' → Along P fuel r'

theorem Valid.loop_spec {fuel : Nat} {r' : Run} (h : r.Valid nesting) (hcode : LinesBelow func.code)
    (hquiet : Along func lightweight (Quiet nesting lightweight) fuel r)
    (hloop : Run.loop func lightweight fuel r = some r') : r'.Valid nesting ∧ r'.worklist = [] := by
  induction fuel generalizing r with
  | zero =>
    unfold Run.loop at hloop
    split at hloop
    next hempty =>
      cases hloop
      exact ⟨h, List.isEmpty_iff.mp hempty⟩
    next => cases hloop
  | succ fuel ih =>
    cases hwork : r.worklist with
    | nil =>
      simp only [Run.loop, hwork, Option.some.injEq] at hloop
      exact hloop ▸ ⟨h, hwork⟩
    | cons cur rest =>
      simp only [Along, hwork] at hquiet
      obtain ⟨r₁, hvisit, hvalid, -⟩ := h.visitBlock hcode hwork hquiet.1
      simp only [Run.loop, hwork, hvisit, Option.bind_eq_bind, Option.bind_some] at hloop
      exact ih hvalid (hquiet.2 r₁ hvisit) hloop

theorem Valid.loop_isSome {fuel : Nat} (h : r.Valid nesting) (hcode : LinesBelow func.code)
    (hquiet : Along func lightweight (Quiet nesting lightweight) fuel r)
    (hfuel : pending func r ≤ fuel) : ∃ r', Run.loop func lightweight fuel r = some r' := by
  induction fuel generalizing r with
  | zero =>
    have hempty : r.worklist = [] :=
      eq_nil_of_length_eq_zero (by unfold pending at hfuel; omega)
    exact ⟨r, by simp [Run.loop, hempty]⟩
  | succ fuel ih =>
    cases hwork : r.worklist with
    | nil => exact ⟨r, by simp [Run.loop, hwork]⟩
    | cons cur rest =>
      simp only [Along, hwork] at hquiet
      obtain ⟨r₁, hvisit, hvalid, hless⟩ := h.visitBlock hcode hwork hquiet.1
      obtain ⟨r', hr'⟩ := ih hvalid (hquiet.2 r₁ hvisit) (by omega)
      exact ⟨r', by simp [Run.loop, hwork, hvisit, hr']⟩

theorem valid_start (nesting : Nesting func)
    (hfresh : func.Fresh) : (start func).Valid nesting := by
  refine ⟨fun _ _ => rfl, fun _ _ => rfl, fun id hid => ?_, fun id hid instr hinstr _ => ?_, ?_, ?_,
    ?_, by simp [start], fun id hid => ?_⟩
  · exact Tracking.prepared_of_fresh (hfresh.update id hid) rfl
  · exact hfresh.bounded id hid instr hinstr
  · intro cur hcur
    obtain rfl := mem_singleton.mp hcur
    simp [nesting.entry, nesting.entry_mem, Chained]
  · intro code lines hlines
    by_cases hsame : code = func.code
    · subst hsame
      simpa [start, eq_comm] using hlines
    · simp [start, Function.update_of_ne hsame] at hlines
  · simp [start]
  · obtain rfl : id = func.entry_block := by simpa [start] using hid
    exact Or.inl ⟨_, mem_singleton.mpr rfl, rfl⟩

end Run

/-- An activation, with what its last update says and the watched instruction that it is at. -/
structure Activation where
  inlined : Option BeginInlinedFunction
  position : Option Int := none
  instr : Option Instr := none

namespace Activation

def arrive (instr : Instr) : List Activation → List Activation
  | [] => []
  | a :: callers => { a with instr := some instr } :: callers

variable (func : Function)

def Accurate (a : Activation) : Prop :=
  ∃ instr, a.instr = some instr ∧ a.position = some (func.lineOf a.inlined instr)

def publish (update : Instr) : List Activation → List Activation
  | [] => []
  | a :: callers =>
    if a.inlined = update.inlined then
      { a with position := some (func.carried update) } :: callers
    else a :: publish update callers

/-- What an instruction does to the activations, the innermost one first. -/
def execute (stack : List Activation) (instr : Instr) : List Activation :=
  match instr.opcode, instr.inlined with
  | .kBeginInlinedFunction, some begin => ⟨some begin, none, none⟩ :: arrive instr stack
  | .kEndInlinedFunction, _ => stack.tail
  | .kUpdatePrevInstr, _ => publish func instr stack
  | _, _ => if watched instr then arrive instr stack else stack

structure Matches (t : Tracking) (stack : List Activation) : Prop where
  inlined : stack.map (·.inlined) = t.begins.map some ++ [none]
  position : ∀ line, t.position = some line → ∀ a ∈ stack.head?, a.position = some line
  callers : ∀ a ∈ stack.tail, a.Accurate func

variable {func} {outer : BeginInlinedFunction → List BeginInlinedFunction} {t : Tracking}
  {stack : List Activation} {instr : Instr} {instrs : List Instr}
      {begins : List BeginInlinedFunction}

@[simp]
theorem map_inlined_arrive : (arrive instr stack).map (·.inlined) = stack.map (·.inlined) := by
  cases stack <;> rfl

@[simp]
theorem tail_arrive : (arrive instr stack).tail = stack.tail := by cases stack <;> rfl

theorem Matches.exists_cons (h : Matches func t stack) : ∃ a callers, stack = a :: callers ∧
    a.inlined = t.begins.head? ∧ callers.map (·.inlined) = (t.begins.map some ++ [none]).tail := by
  have hinlined := h.inlined
  cases stack with
  | nil => simp at hinlined
  | cons a callers =>
    refine ⟨a, callers, rfl, ?_, by rw [← hinlined]; rfl⟩
    cases hbegins : t.begins <;> simp_all

theorem Matches.weaken (h : Matches func t stack) : Matches func ⟨t.begins, none⟩ stack :=
  ⟨h.inlined, by simp, h.callers⟩

theorem Matches.arrive (h : Matches func t stack) : Matches func t (arrive instr stack) := by
  refine ⟨by simpa using h.inlined, fun line hline a ha => ?_, by simpa using h.callers⟩
  obtain ⟨b, callers, rfl, -⟩ := h.exists_cons
  cases ha
  exact h.position line hline b rfl

theorem Matches.accurate (h : Matches func t stack)
    (hposition : t.position = some (func.lineOf t.begins.head? instr)) :
    ∀ a ∈ Activation.arrive instr stack, a.Accurate func := by
  obtain ⟨b, callers, rfl, hinlined, -⟩ := h.exists_cons
  refine forall_mem_cons.mpr ⟨⟨instr, rfl, ?_⟩, h.callers⟩
  change b.position = some (func.lineOf b.inlined instr)
  rw [hinlined]
  exact h.position _ hposition b rfl

theorem Matches.execute (h : Matches func t stack) (hnest : nest outer t.begins instr = some begins)
    (hposition : watched instr = true → t.position = some (func.lineOf t.begins.head? instr)) :
    Matches func (t.next func instr) (execute func stack instr) := by
  by_cases hbegin : instr.opcode = .kBeginInlinedFunction
  · cases hinlined : instr.inlined with
    | none => simp [nest, hbegin, hinlined] at hnest
    | some begin =>
      have haccurate := h.accurate (hposition (by simp [watched, hbegin]))
      simp only [Tracking.next, Activation.execute, hbegin, hinlined]
      exact ⟨by simp [h.inlined], by simp, haccurate⟩
  by_cases hend : instr.opcode = .kEndInlinedFunction
  · have hcons : ∃ begin rest, t.begins = begin :: rest := by
      cases hbegins : t.begins with
      | nil => cases hinlined : instr.inlined <;> simp [nest, hend, hinlined, hbegins] at hnest
      | cons begin rest => exact ⟨begin, rest, rfl⟩
    obtain ⟨begin, rest, hbegins⟩ := hcons
    obtain ⟨a, callers, rfl, -, hcallers⟩ := h.exists_cons
    simp only [Tracking.next, Activation.execute, hend, hbegins, tail_cons]
    refine ⟨by simpa [hbegins] using hcallers, by simp, fun b hb => ?_⟩
    exact h.callers b (mem_of_mem_tail hb)
  by_cases hupdate : instr.opcode = .kUpdatePrevInstr
  · obtain ⟨a, callers, rfl, hinlined, -⟩ := h.exists_cons
    have hsame : a.inlined = instr.inlined := by
      rw [hinlined]
      by_contra hne
      simp [nest, hupdate, Ne.symm hne] at hnest
    simp only [Tracking.next, Activation.execute, hupdate, publish, if_pos hsame]
    refine ⟨h.inlined, fun line hline b hb => ?_, h.callers⟩
    cases hb
    exact hline
  have hnext : t.next func instr = t := by
    unfold Tracking.next
    split
    next hopcode _ => exact absurd hopcode hbegin
    next hopcode => exact absurd hopcode hend
    next hopcode => exact absurd hopcode hupdate
    · rfl
  have hexecute : Activation.execute func stack instr =
      if watched instr then Activation.arrive instr stack else stack := by
    unfold Activation.execute
    split
    next hopcode _ => exact absurd hopcode hbegin
    next hopcode => exact absurd hopcode hend
    next hopcode => exact absurd hopcode hupdate
    · rfl
  rw [hnext, hexecute]
  split
  · exact h.arrive
  · exact h

theorem Matches.executes (h : Matches func t stack)
    (hnest : instrs.foldlM (nest outer) t.begins = some begins) (htracked : t.Tracked func instrs) :
    Matches func (t.all func instrs) (instrs.foldl (Activation.execute func) stack) := by
  induction instrs generalizing t stack with
  | nil => exact h
  | cons instr instrs ih =>
    obtain ⟨middle, hinstr, hrest⟩ := Option.bind_eq_some_iff.mp hnest
    have hstep := h.execute hinstr htracked.1
    rw [← (begins_of_nest hinstr : (t.next func instr).begins = middle)] at hrest
    exact ih hstep hrest htracked.2

end Activation

namespace Function

variable (func : Function)

def Edge (a b : BlockId) : Prop :=
  ∃ term, (func.block a).getLast? = some term ∧ b ∈ term.successors

def activations (walked : List BlockId) (pre : List Instr) : List Activation :=
  (walked.reverse.flatMap func.block ++ pre).foldl (Activation.execute func) [⟨none, none, none⟩]

/-- On every path to a watched instruction, the last update of each activation has the line at
which that activation is. -/
def Exact : Prop :=
  ∀ walked id, Walk func.Edge func.entry_block walked id →
    ∀ pre instr post, func.block id = pre ++ instr :: post → watched instr = true →
      ∀ a ∈ Activation.arrive instr (func.activations walked pre), a.Accurate func

variable {func}

theorem activations_eq_foldl (walked : List BlockId) (pre : List Instr) :
    func.activations walked pre =
      pre.foldl (Activation.execute func) (func.activations walked []) := by
  simp [activations]

theorem activations_cons (walked : List BlockId) (id : BlockId) :
    func.activations (id :: walked) [] = func.activations walked (func.block id) := by
  simp [activations]

end Function

theorem Activation.execute_with_block (func : Function) (block : BlockId → List Instr) :
    Activation.execute { func with block := block } = Activation.execute func := by
  have hpublish : ∀ update stack,
      publish { func with block := block } update stack = publish func update stack := by
    intro update stack
    induction stack with
    | nil => rfl
    | cons a callers ih =>
      simp only [publish, ih]
      rfl
  funext stack instr
  unfold execute
  split
  · rfl
  · rfl
  · exact hpublish instr stack
  · rfl

theorem Run.Valid.matches {nesting : Nesting func} {r : Run} (h : r.Valid nesting)
    (hempty : r.worklist = []) {walked : List BlockId} {id : BlockId}
    (hwalk : Walk (Function.Edge { func with block := r.block }) func.entry_block walked id) :
    (id = func.entry_block ∨ id ∈ r.enqueued) ∧
      Activation.Matches func ⟨nesting.begins id, none⟩
        (Function.activations { func with block := r.block } walked []) := by
  induction hwalk with
  | entry => exact ⟨Or.inl rfl, by rw [nesting.entry]; rfl, by simp, by simp [Function.activations]⟩
  | @step walked a b _ hedge ih =>
    obtain ⟨hreached, hmatches⟩ := ih
    obtain ⟨term, hterm, hsucc⟩ := hedge
    have ha : a ∈ func.ids := by
      rcases hreached with rfl | hreached
      · exact nesting.entry_mem
      · exact h.enqueued a hreached
    rcases h.done a hreached with ⟨cur, hcur, -⟩ | ⟨htracked, hclosed⟩
    · simp [hempty] at hcur
    obtain ⟨result, term', hresult, hterm', hsuccs⟩ := nesting.block a ha
    obtain rfl : term' = term :=
      Option.some.inj (hterm'.symm.trans ((h.last a ha).symm.trans hterm))
    have hnest := (h.nested a ha).trans hresult
    refine ⟨Or.inr (hclosed _ hterm b hsucc), ?_⟩
    have hblock := (hmatches.executes hnest htracked).weaken
    rw [begins_of_nests hnest, ← (hsuccs b hsucc).2] at hblock
    rw [Function.activations_cons, Function.activations_eq_foldl, Activation.execute_with_block]
    exact hblock

theorem Run.Valid.exact {nesting : Nesting func} {r : Run} (h : r.Valid nesting)
    (hempty : r.worklist = []) : Function.Exact { func with block := r.block } := by
  intro walked id hwalk pre instr post hblock hwatched
  obtain ⟨hreached, hmatches⟩ := h.matches hempty hwalk
  have hid : id ∈ func.ids := by
    rcases hreached with rfl | hreached
    · exact nesting.entry_mem
    · exact h.enqueued id hreached
  rcases h.done id hreached with ⟨cur, hcur, -⟩ | ⟨htracked, -⟩
  · simp [hempty] at hcur
  obtain ⟨result, _, hresult, -⟩ := nesting.block id hid
  have hnest := (h.nested id hid).trans hresult
  have hsplit : r.block id = pre ++ instr :: post := hblock
  rw [hsplit] at htracked hnest
  rw [foldlM_append] at hnest
  obtain ⟨middle, hpre, -⟩ := Option.bind_eq_some_iff.mp hnest
  obtain ⟨htrackedPre, htrackedInstr⟩ := Tracking.tracked_append.mp htracked
  have hbefore := hmatches.executes hpre htrackedPre
  rw [Function.activations_eq_foldl, Activation.execute_with_block]
  exact hbefore.accurate (htrackedInstr.1 hwatched)

theorem Scan.undisturbed_of_not_lightweight {scan : Scan} {instrs : List Instr}
    (h : scan.breaker = none) : scan.Undisturbed func false instrs := by
  induction instrs generalizing scan with
  | nil => trivial
  | cons instr instrs ih =>
    refine ⟨fun _ _ first hfirst => ?_, ih ?_⟩
    · rw [h] at hfirst
      cases hfirst
    · have hborder : (scan.border false instr).breaker = none := by
        unfold Scan.border
        split <;> first | rfl | exact h
      rw [Scan.next, if_neg (by simp)]
      split
      · rfl
      · exact hborder

theorem Run.along_of_not_lightweight (nesting : Nesting func) (fuel : Nat) (r : Run) :
    Run.Along func false (Run.Quiet nesting false) fuel r := by
  induction fuel generalizing r with
  | zero => trivial
  | succ fuel ih =>
    unfold Run.Along
    split
    · trivial
    · exact ⟨Scan.undisturbed_of_not_lightweight rfl, fun r' _ => ih r'⟩

/-- The pass ends, and then every activation on every path has been told the line that it is at,
if the update for `RESUME` never stands where the pass takes the line to be known. -/
theorem insertUpdates_exact {func : Function} {lightweight : Bool} (nesting : Nesting func)
    (hfresh : func.Fresh) (hquiet : lightweight = true →
      ∀ fuel, Run.Along func lightweight (Run.Quiet nesting lightweight) fuel (Run.start func)) :
    (∃ fuel func', func.insertUpdates lightweight fuel = some func') ∧
      ∀ fuel func', func.insertUpdates lightweight fuel = some func' → func'.Exact := by
  have hquiet : ∀ fuel,
      Run.Along func lightweight (Run.Quiet nesting lightweight) fuel (Run.start func) := by
    cases lightweight with
    | false => exact fun fuel => Run.along_of_not_lightweight nesting fuel _
    | true => exact hquiet rfl
  have hvalid := Run.valid_start nesting hfresh
  constructor
  · obtain ⟨r, hr⟩ := hvalid.loop_isSome hfresh.code (hquiet _) (le_refl _)
    exact ⟨Run.pending func (Run.start func), { func with block := r.block },
      by simp [Function.insertUpdates, hr]⟩
  · intro fuel func' hfunc'
    obtain ⟨r, hr, heq⟩ := Option.bind_eq_some_iff.mp hfunc'
    obtain ⟨hvalid', hempty⟩ := hvalid.loop_spec hfresh.code (hquiet fuel) hr
    cases heq
    exact hvalid'.exact hempty

def twoLines : PyCodeObject where
  numIndices := 8
  ranges := [⟨0, 2, 1⟩, ⟨2, 16, 2⟩]
  co_linetable := some 4
  firsttraceable := 0

def inliningFunction : Function where
  code := twoLines
  entry_block := 0
  ids := [0, 1]
  block id :=
    if id = 0 then
      [{ opcode := .kLoadEvalBreaker, bytecodeOffset := 0 },
        { opcode := .kVectorCall, bytecodeOffset := 2 },
        { opcode := .kBeginInlinedFunction, bytecodeOffset := 4, inlined := some ⟨0, twoLines⟩ },
        { opcode := .kLoadEvalBreaker, bytecodeOffset := 0 },
        { opcode := .kBranch, bytecodeOffset := 0, successors := [1] }]
    else
      [{ opcode := .kVectorCall, bytecodeOffset := 2 },
        { opcode := .kEndInlinedFunction, bytecodeOffset := 4, inlined := some ⟨0, twoLines⟩ },
        { opcode := .kVectorCall, bytecodeOffset := 6 },
        { opcode := .kReturn, bytecodeOffset := 8 }]

def inliningNesting : Nesting inliningFunction where
  begins id := if id = 0 then [] else [⟨0, twoLines⟩]
  outer _ := []
  entry := rfl
  entry_mem := by decide
  block := by
    intro id hid
    fin_cases hid
    · exact ⟨[⟨0, twoLines⟩], _, rfl, rfl, by decide⟩
    · exact ⟨[], _, rfl, rfl, by decide⟩

theorem inliningFunction_fresh : inliningFunction.Fresh := by
  refine ⟨by decide, ?_, by unfold LinesBelow; decide⟩
  have hbounded : ∀ id ∈ inliningFunction.ids, ∀ instr ∈ inliningFunction.block id,
      instr.bytecodeOffset < INT_MAX ∧ ∀ begin ∈ instr.inlined,
        ∀ range ∈ begin.code.ranges, range.ar_line < INT_MAX := by decide
  exact hbounded

theorem inliningFunction_quiet (fuel : Nat) :
    Run.Along inliningFunction true (Run.Quiet inliningNesting true) fuel
      (Run.start inliningFunction) := by
  have hfirst : (Run.visitBlock inliningFunction true (Run.start inliningFunction)
      ⟨inliningFunction.entry_block, none⟩ []).map
      (fun r => (r.worklist, r.block 1, r.state.inited_once)) =
        some ([⟨1, some ⟨0, twoLines⟩⟩], inliningFunction.block 1, true) := rfl
  cases fuel with
  | zero => trivial
  | succ fuel =>
    refine ⟨by unfold Run.Quiet; decide, fun r hr => ?_⟩
    rw [hr] at hfirst
    obtain ⟨hwork, hblock⟩ := Prod.mk.inj (Option.some.inj hfirst)
    obtain ⟨hblock, hinited⟩ := Prod.mk.inj hblock
    cases fuel with
    | zero => trivial
    | succ fuel =>
      have hsecond : ∀ r', r.visitBlock inliningFunction true ⟨1, some ⟨0, twoLines⟩⟩ [] =
          some r' → r'.worklist = [] := by
        intro r' hr'
        unfold Run.visitBlock at hr'
        rw [hblock] at hr'
        obtain ⟨state, -, hterm⟩ := Option.bind_eq_some_iff.mp hr'
        exact Option.some.inj hterm ▸ rfl
      simp only [Run.Along, hwork]
      refine ⟨?_, fun r' hr' => ?_⟩
      · unfold Run.Quiet
        rw [hblock, hinited]
        decide
      · cases fuel with
        | zero => trivial
        | succ fuel => simp [Run.Along, hsecond r' hr']

theorem insertUpdates_exact_inliningFunction :
    (∃ fuel func', inliningFunction.insertUpdates true fuel = some func') ∧
      ∀ fuel func', inliningFunction.insertUpdates true fuel = some func' → func'.Exact :=
  insertUpdates_exact inliningNesting inliningFunction_fresh fun _ => inliningFunction_quiet

/-- The update for `RESUME` stands between two calls on another line. -/
def lateResume : Function where
  code := twoLines
  entry_block := 0
  ids := [0]
  block _ :=
    [{ opcode := .kVectorCall, bytecodeOffset := 2 },
      { opcode := .kLoadEvalBreaker, bytecodeOffset := 4 },
      { opcode := .kVectorCall, bytecodeOffset := 6 },
      { opcode := .kReturn, bytecodeOffset := 8 }]

def lateResumeNesting : Nesting lateResume where
  begins _ := []
  outer _ := []
  entry := rfl
  entry_mem := by decide
  block := by
    intro id hid
    fin_cases hid
    exact ⟨[], _, rfl, rfl, by decide⟩

/-- The second call is made while the last update still says the first line. -/
theorem lateResume_not_exact : Nonempty (Nesting lateResume) ∧ lateResume.Fresh ∧
    ∃ func', lateResume.insertUpdates true 1 = some func' ∧ ¬func'.Exact := by
  refine ⟨⟨lateResumeNesting⟩, ⟨by decide, ?_, by unfold LinesBelow; decide⟩, _, rfl, ?_⟩
  · have hbounded : ∀ id ∈ lateResume.ids, ∀ instr ∈ lateResume.block id,
        instr.bytecodeOffset < INT_MAX ∧ ∀ begin ∈ instr.inlined,
          ∀ range ∈ begin.code.ranges, range.ar_line < INT_MAX := by decide
    exact hbounded
  · intro hexact
    obtain ⟨instr, hinstr, hposition⟩ := hexact [] 0 .entry
      [⟨.kUpdatePrevInstr, 2, none, 2, .kJitGen_yf, []⟩,
        ⟨.kVectorCall, 2, none, 0, .kJitGen_yf, []⟩,
        ⟨.kUpdatePrevInstr, 0, none, 1, .kJitGen_yf, []⟩,
        ⟨.kLoadEvalBreaker, 4, none, 0, .kJitGen_yf, []⟩]
      ⟨.kVectorCall, 6, none, 0, .kJitGen_yf, []⟩ [⟨.kReturn, 8, none, 0, .kJitGen_yf, []⟩]
      rfl rfl ⟨none, some 1, some ⟨.kVectorCall, 6, none, 0, .kJitGen_yf, []⟩⟩
      (mem_singleton.mpr rfl)
    cases hinstr
    exact absurd hposition (by decide)

end CinderX.Jit.Hir.UpdatePrevInstr
