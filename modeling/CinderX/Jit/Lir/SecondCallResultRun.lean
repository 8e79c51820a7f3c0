import CinderX.Jit.Lir.SecondCallResultSound

/-!
# Runs of functions with second results

A call puts its results into its output and into the second return register; what is executed next
may overwrite that register.  A machine knows which of the calls so far a register has its value
from.  Then the second result of a load stands in the load's register as soon as the first one
stands in the load's source.
-/

namespace CinderX.Jit.Lir.SecondCallResult

open List Instr

/-- `held` is the number of the call whose first result a register holds. -/
structure Machine (V : Type*) where
  regs : VReg → V
  second : V
  held : VReg → Option Nat
  calls : List (V × V)

variable {V : Type*} {second : Nat} {F blocks : List BasicBlock} {bb bb' : BasicBlock}
  {done : List BasicBlock} {instrs executed rest pre post : List Instruction}
  {instr : Instruction} {v w x u src out : VReg} {m m' : Machine V}

def writeTo {α : Type*} (output : Output) (value : α) (f : VReg → α) : VReg → α :=
  match output with
  | .vreg v => Function.update f v value
  | _ => f

variable {α : Type*} {value : α} {f : VReg → α}

theorem writeTo_of_ne {output : Output}
    (h : output ≠ .vreg w) : writeTo output value f w = f w := by
  unfold writeTo
  split
  next v => exact Function.update_of_ne (fun hsame : w = v => h (by rw [hsame])) _ _
  next => rfl

@[simp]
theorem writeTo_self :
    writeTo (.vreg w) value f w = value := Function.update_self _ _ _

def Copies (instr : Instruction) (x : VReg) : Prop :=
  instr.opcode = .kMove ∧ ∃ input, instr.inputs = [input] ∧ define? input = some x

inductive Step (second : Nat) (instr : Instruction) (m : Machine V) : Machine V → Prop
  | call (h : Instr.isCallLike instr = true) (first result : V) : Step second instr m
      { regs := writeTo instr.output first m.regs
        second := result
        held := writeTo instr.output (some m.calls.length) m.held
        calls := m.calls ++ [(first, result)] }
  | second (h : Instr.movesSecond instr second = true) : Step second instr m
      { m with
        regs := writeTo instr.output m.second m.regs
        held := writeTo instr.output none m.held }
  | copy {x : VReg} (h : Copies instr x) (clobbered : V) : Step second instr m
      { m with
        regs := writeTo instr.output (m.regs x) m.regs
        second := clobbered
        held := writeTo instr.output (m.held x) m.held }
  | other (hcall : Instr.isCallLike instr = false)
      (hsecond : Instr.movesSecond instr second = false)
      (hcopy : ∀ x, ¬ Copies instr x) (value clobbered : V) : Step second instr m
      { m with
        regs := writeTo instr.output value m.regs
        second := clobbered
        held := writeTo instr.output none m.held }

/-- The phis of a block are executed together, with the values for the block that is left. -/
structure Enter (pred : BlockId) (bb : BasicBlock) (m m' : Machine V) : Prop where
  held : ∀ phi ∈ bb.phis, ∀ w, phi.output = .vreg w →
    m'.held w = ((phi.getOperandByPredecessor pred).bind define?).bind m.held
  regs : ∀ phi ∈ bb.phis, ∀ w, phi.output = .vreg w → ∀ x,
    (phi.getOperandByPredecessor pred).bind define? = some x → m'.regs w = m.regs x
  kept : ∀ w, (∀ phi ∈ bb.phis, phi.output ≠ .vreg w) →
    m'.regs w = m.regs w ∧ m'.held w = m.held w
  calls : m'.calls = m.calls

def body (instrs : List Instruction) : List Instruction := instrs.filter fun instr => !instr.isPhi

/-- The runs of a function: the blocks that have been left, the last one first, the block that is
executed, what has been executed of it and what has not. -/
inductive Reaches (second : Nat) (blocks : List BasicBlock) :
    List BasicBlock → BasicBlock → List Instruction → List Instruction → Machine V → Prop
  | start {bb : BasicBlock} {m : Machine V} (hhead : blocks.head? = some bb)
      (hheld : ∀ w, m.held w = none) (hcalls : m.calls = []) :
      Reaches second blocks [] bb [] (body bb.instrs) m
  | step {done : List BasicBlock} {bb : BasicBlock} {executed rest : List Instruction}
      {instr : Instruction} {m m' : Machine V}
      (h : Reaches second blocks done bb executed (instr :: rest) m)
      (hstep : Step second instr m m') :
      Reaches second blocks done bb (executed ++ [instr]) rest m'
  | enter {done : List BasicBlock} {bb bb' : BasicBlock} {executed : List Instruction}
      {m m' : Machine V} (h : Reaches second blocks done bb executed [] m) (hmem : bb' ∈ blocks)
      (hsucc : bb'.id ∈ bb.successors) (henter : Enter bb.id bb' m m') :
      Reaches second blocks (bb :: done) bb' [] (body bb'.instrs) m'

inductive Walk (blocks : List BasicBlock) : List BasicBlock → BasicBlock → Prop
  | start {bb : BasicBlock} (hhead : blocks.head? = some bb) : Walk blocks [] bb
  | enter {done : List BasicBlock} {bb bb' : BasicBlock} (h : Walk blocks done bb)
      (hmem : bb' ∈ blocks) (hsucc : bb'.id ∈ bb.successors) : Walk blocks (bb :: done) bb'

def Defined (done : List BasicBlock) (bb : BasicBlock) (executed : List Instruction) (w : VReg) :
    Prop :=
  ∃ instr, Instr.defines instr w = true ∧
    (instr ∈ instrsOf done ∨ instr ∈ bb.phis ∨ instr ∈ executed)

/-- Every way to a use of a register goes through its definition, and a phi has a value for each
block that is left for its own. -/
structure Strict (blocks : List BasicBlock) : Prop where
  ids_nodup : (blocks.map BasicBlock.id).Nodup
  entry : ∀ bb, blocks.head? = some bb → bb.phis = []
  uses : ∀ done bb pre instr post, Walk blocks done bb → body bb.instrs = pre ++ instr :: post →
    ∀ input ∈ instr.inputs, ∀ x, define? input = some x → Defined done bb pre x
  operands : ∀ done bb bb', Walk blocks done bb → bb' ∈ blocks → bb'.id ∈ bb.successors →
    ∀ phi ∈ bb'.phis, ∃ input, phi.getOperandByPredecessor bb.id = some input ∧
      ∀ x, define? input = some x → Defined done bb (body bb.instrs) x

theorem Strict.of_local (hids : (blocks.map BasicBlock.id).Nodup)
    (hentry : ∀ bb ∈ blocks.head?, bb.phis = [])
    (huses : ∀ bb ∈ blocks, ∀ n < (body bb.instrs).length, ∀ instr ∈ (body bb.instrs)[n]?,
      ∀ input ∈ instr.inputs, ∀ x ∈ define? input,
        ∃ definition ∈ bb.phis ++ (body bb.instrs).take n, Instr.defines definition x = true)
    (hoperands : ∀ bb ∈ blocks, ∀ bb' ∈ blocks, bb'.id ∈ bb.successors → ∀ phi ∈ bb'.phis,
      ∃ input ∈ phi.getOperandByPredecessor bb.id, ∀ x ∈ define? input,
        ∃ definition ∈ bb.phis ++ body bb.instrs, Instr.defines definition x = true) :
    Strict blocks := by
  have hmem : ∀ {done bb}, Walk blocks done bb → bb ∈ blocks := fun h => by
    cases h with
    | start hhead => exact mem_of_mem_head? hhead
    | enter _ hmem _ => exact hmem
  refine ⟨hids, fun bb hbb => hentry bb hbb, ?_, ?_⟩
  · intro done bb pre instr post hwalk hbody input hinput x hx
    have hinstr : (body bb.instrs)[pre.length]? = some instr := by simp [hbody]
    obtain ⟨definition, hdefinition, hdefines⟩ := huses bb (hmem hwalk) pre.length
      (List.getElem?_eq_some_iff.mp hinstr).1 instr hinstr input hinput x hx
    rw [hbody, take_left] at hdefinition
    exact ⟨definition, hdefines, Or.inr (mem_append.mp hdefinition)⟩
  · intro done bb bb' hwalk hbb' hsucc phi hphi
    obtain ⟨input, hinput, hdefined⟩ := hoperands bb (hmem hwalk) bb' hbb' hsucc phi hphi
    refine ⟨input, hinput, fun x hx => ?_⟩
    obtain ⟨definition, hdefinition, hdefines⟩ := hdefined x hx
    exact ⟨definition, hdefines, Or.inr (mem_append.mp hdefinition)⟩

theorem Walk.mem (h : Walk blocks done bb) : bb ∈ blocks := by
  cases h with
  | start hhead => exact mem_of_mem_head? hhead
  | enter _ hmem _ => exact hmem

theorem Walk.mem_of_done (h : Walk blocks done bb) : ∀ bb' ∈ done, bb' ∈ blocks := by
  induction h with
  | start => exact fun _ hmem => absurd hmem not_mem_nil
  | enter hwalk _ _ ih =>
    intro bb' hmem
    rcases mem_cons.mp hmem with rfl | hdone
    · exact hwalk.mem
    · exact ih bb' hdone

theorem Step.frame (h : Step second instr m m') (hw : instr.output ≠ .vreg w) :
    m'.regs w = m.regs w ∧ m'.held w = m.held w := by
  cases h <;> exact ⟨writeTo_of_ne hw, writeTo_of_ne hw⟩

theorem Step.calls (h : Step second instr m m') : ∃ new, m'.calls = m.calls ++ new := by
  cases h with
  | call _ first result => exact ⟨[(first, result)], rfl⟩
  | second _ => exact ⟨[], (append_nil _).symm⟩
  | copy _ _ => exact ⟨[], (append_nil _).symm⟩
  | other _ _ _ _ _ => exact ⟨[], (append_nil _).symm⟩

theorem Step.of_call (h : Step second instr m m') (hcall : Instr.isCallLike instr = true)
    (hw : instr.output = .vreg w) : ∃ result, m'.calls = m.calls ++ [(m'.regs w, result)] ∧
      m'.held w = some m.calls.length ∧ m'.second = result := by
  have hopcode : instr.opcode ≠ .kMove := fun hmove => by simp [isCallLike, hmove] at hcall
  cases h with
  | call _ first result =>
    rw [hw]
    simp
  | second hsecond => simp [movesSecond, hopcode] at hsecond
  | copy hcopy _ => exact absurd hcopy.1 hopcode
  | other hnot => rw [hcall] at hnot; cases hnot

theorem Step.of_movesSecond (h : Step second instr m m')
    (hsecond : Instr.movesSecond instr second = true) (hw : instr.output = .vreg w) :
    m'.regs w = m.second ∧ m'.calls = m.calls := by
  simp only [movesSecond, Bool.and_eq_true, decide_eq_true_eq] at hsecond
  obtain ⟨hopcode, hinputs⟩ := hsecond
  have hnotCopy : ∀ x, ¬ Copies instr x := by
    rintro x ⟨-, input, hinput, hdefine⟩
    simp only [hinput, decide_eq_true_eq] at hinputs
    simp [define?, hinputs] at hdefine
  cases h with
  | call hcall _ _ => simp [isCallLike, hopcode] at hcall
  | second _ =>
    rw [hw]
    simp
  | copy hcopy _ => exact absurd hcopy (hnotCopy _)
  | other _ hnot _ _ _ => simp [movesSecond, hopcode, hinputs] at hnot

def rewritten (par : VReg → List Parallel) (bb : BasicBlock) : BasicBlock :=
  { bb with instrs := renderInstrs par (withoutLoads bb.instrs) }

/-- What stands behind the instructions of a function when all loads are gone. -/
structure SecondResults (second : Nat) (F : List BasicBlock)
  (par : VReg → List Parallel) : Prop where
  unique : (outputsOf F).Nodup
  apart : ∀ instr ∈ instrsOf F, Instr.isLoadSecondCallResult instr = false →
    ∀ v, Instr.defines instr v = true → Apart par v
  inj : ∀ w w' p p', p ∈ par w → p' ∈ par w' → p.vreg = p'.vreg → w = w'
  owner : ∀ w, ∀ p ∈ par w, ∃ load ∈ instrsOf F, ∃ out src, Loads load out src ∧
    WebOf F src w ∧ ∃ names, Closed second F names w p
  handled : ∀ load ∈ instrsOf F, ∀ out src, Loads load out src →
    ∃ names : VReg → Option VReg, names src = some out ∧ ∀ w, WebOf F src w →
      ∃ p ∈ par w, names w = some p.vreg ∧ Closed second F names w p
  calls : ∀ w, ∀ call ∈ instrsOf F, Instr.defines call w = true →
    Instr.isCallLike call = true → (par w).length ≤ 1

section Body

variable {par : VReg → List Parallel} {p : Parallel} (h : SecondResults second F par)

theorem isCallLike_of_isPhi (hphi : instr.isPhi = true) : Instr.isCallLike instr = false := by
  simp only [Instruction.isPhi, decide_eq_true_eq] at hphi
  simp [isCallLike, hphi]

include h in
theorem SecondResults.kind (hinstr : instr ∈ instrsOf F) (hdefines : Instr.defines instr w = true)
    (hp : p ∈ par w) : Instr.isCallLike instr = true ∧ Instr.movesSecond p.instr second = true ∧
      p.instr.isPhi = false ∨ instr.isPhi = true ∧ p.instr.isPhi = true := by
  obtain ⟨-, -, -, -, -, -, names, other, hother, hdefines', hkind⟩ := h.owner w p hp
  obtain rfl := eq_of_defines h.unique hinstr hother hdefines hdefines'
  rcases hkind with ⟨hcall, hopcode, type, hinputs⟩ | ⟨hphi, hopcode, -⟩
  · refine Or.inl ⟨hcall, ?_, ?_⟩
    · simp [movesSecond, Parallel.instr, hopcode, hinputs]
    · simp [Instruction.isPhi, Parallel.instr, hopcode]
  · exact Or.inr ⟨hphi, by simp [Instruction.isPhi, Parallel.instr, hopcode]⟩

@[simp]
theorem body_append (instrs instrs' : List Instruction) :
    body (instrs ++ instrs') = body instrs ++ body instrs' :=
  filter_append ..

theorem body_cons_of_isPhi (hphi : instr.isPhi = true) : body (instr :: instrs) = body instrs := by
  simp [body, hphi]

theorem body_cons (hphi : instr.isPhi = false) : body (instr :: instrs) = instr :: body instrs := by
  simp [body, hphi]

theorem body_renderInstrs_cons (hphi : instr.isPhi = false) :
    body (renderInstrs par (instr :: instrs)) =
      instr :: (body (parallels par instr) ++ body (renderInstrs par instrs)) := by
  rw [renderInstrs_cons, body_cons hphi, body_append]

include h in
theorem SecondResults.body_parallels_of_isPhi (hinstr : instr ∈ instrsOf F)
    (hphi : instr.isPhi = true) : body (parallels par instr) = [] := by
  refine filter_eq_nil_iff.mpr fun other hother => ?_
  obtain ⟨w, hw, p, hp, rfl⟩ := exists_of_mem_parallels hother
  rcases h.kind hinstr (defines_iff.mpr hw) hp with ⟨hcall, -⟩ | ⟨-, hphi'⟩
  · rw [isCallLike_of_isPhi hphi] at hcall
    cases hcall
  · simp [hphi']

include h in
theorem SecondResults.body_parallels (hinstr : instr ∈ instrsOf F) (hphi : instr.isPhi = false) :
    body (parallels par instr) = [] ∧ (∀ w, Instr.defines instr w = true → par w = []) ∨
      ∃ w p, instr.output = .vreg w ∧ Instr.isCallLike instr = true ∧ par w = [p] ∧
        Instr.movesSecond p.instr second = true ∧ body (parallels par instr) = [p.instr] := by
  by_cases hnil : ∀ w, defines instr w = true → par w = []
  · refine Or.inl ⟨filter_eq_nil_iff.mpr fun other hother => ?_, hnil⟩
    obtain ⟨w, hw, p, hp, rfl⟩ := exists_of_mem_parallels hother
    rw [hnil w (defines_iff.mpr hw)] at hp
    cases hp
  · push Not at hnil
    obtain ⟨w, hw, hne⟩ := hnil
    obtain ⟨p, hp⟩ := exists_mem_of_ne_nil _ hne
    rcases h.kind hinstr hw hp with ⟨hcall, hsecond, hnotPhi⟩ | ⟨hphi', -⟩
    · have hone : par w = [p] := by
        have hlength := h.calls w instr hinstr hw hcall
        match hpar : par w, hlength with
        | [], _ => exact absurd hpar hne
        | [q], _ =>
          rw [hpar] at hp
          rw [mem_singleton.mp hp]
      refine Or.inr ⟨w, p, defines_iff.mp hw, hcall, hone, hsecond, ?_⟩
      rw [parallels_of_defines hw, hone]
      simp [body, hnotPhi]
    · rw [hphi] at hphi'
      cases hphi'

include h in
theorem SecondResults.body_renderInstrs (hinstrs : ∀ instr ∈ instrs, instr ∈ instrsOf F) :
    body (renderInstrs par instrs) = body (renderInstrs par (body instrs)) := by
  induction instrs with
  | nil => rfl
  | cons instr instrs ih =>
    obtain ⟨hinstr, hrest⟩ := forall_mem_cons.mp hinstrs
    have ih := ih hrest
    cases hphi : instr.isPhi with
    | true =>
      rw [renderInstrs_cons, body_cons_of_isPhi hphi, body_cons_of_isPhi hphi, body_append,
        h.body_parallels_of_isPhi hinstr hphi, nil_append, ih]
    | false => rw [body_renderInstrs_cons hphi, body_cons hphi, body_renderInstrs_cons hphi, ih]

end Body

/-! ## Runs -/

/-- A register holds the first result of a call, and another one the second result of that call. -/
def Holds (m : Machine V) (w u : VReg) : Prop :=
  ∃ k first result, m.held w = some k ∧ m.calls[k]? = some (first, result) ∧
    m.regs w = first ∧ m.regs u = result

theorem Holds.of_step (h : Holds m w u) (hstep : Step second instr m m')
    (hw : instr.output ≠ .vreg w) (hu : instr.output ≠ .vreg u) : Holds m' w u := by
  obtain ⟨k, first, result, hheld, hcall, hfirst, hresult⟩ := h
  obtain ⟨new, hnew⟩ := hstep.calls
  refine ⟨k, first, result, (hstep.frame hw).2.trans hheld, ?_, (hstep.frame hw).1.trans hfirst,
    (hstep.frame hu).1.trans hresult⟩
  rw [hnew, getElem?_append_left (List.getElem?_eq_some_iff.mp hcall).1, hcall]

/-- The registers of the web of one load, and those of the second results. -/
structure Tracks (F : List BasicBlock) (par : VReg → List Parallel) (second : Nat) (src : VReg)
    (names : VReg → Option VReg) : Prop where
  source : ∀ w, WebOf F src w → IsSource F w
  handled : ∀ w, WebOf F src w →
    ∃ p ∈ par w, names w = some p.vreg ∧ Closed second F names w p

/-- The registers of the web that are defined hold results of calls, but for one perhaps. -/
def Settled (F : List BasicBlock) (src : VReg) (names : VReg → Option VReg)
    (done : List BasicBlock) (bb : BasicBlock) (pre : List Instruction) (m : Machine V)
    (except : Option VReg) : Prop :=
  ∀ w, WebOf F src w → except ≠ some w → ∀ u, names w = some u → Defined done bb pre w →
    Holds m w u

inductive Tracked (F : List BasicBlock) (par : VReg → List Parallel) (second : Nat) (src : VReg)
    (names : VReg → Option VReg) (done : List BasicBlock) (bb : BasicBlock)
    (pre post : List Instruction) : List Instruction → Machine V → Prop
  | between {m : Machine V} (h : Settled F src names done bb pre m none) :
      Tracked F par second src names done bb pre post (body (renderInstrs par post)) m
  /-- A call has been executed, and its second result is still to be moved. -/
  | pending {m : Machine V} {w : VReg} {p : Parallel} {k : Nat} (hpar : par w = [p])
      (hsecond : Instr.movesSecond p.instr second = true)
      (hdefined : ∃ call ∈ instrsOf F, Instr.isLoadSecondCallResult call = false ∧
        Instr.defines call w = true)
      (hheld : m.held w = some k) (hcall : m.calls[k]? = some (m.regs w, m.second))
      (h : Settled F src names done bb pre m (some w)) :
      Tracked F par second src names done bb pre post
        (p.instr :: body (renderInstrs par post)) m

section Runs

variable {par : VReg → List Parallel} {p : Parallel} {names : VReg → Option VReg}
  (h : SecondResults second F par) (ht : Tracks F par second src names)

include ht in
theorem Tracks.name (hw : WebOf F src w) (hu : names w = some u) : ∃ p ∈ par w, p.vreg = u := by
  obtain ⟨p, hp, hname, -⟩ := ht.handled w hw
  exact ⟨p, hp, Option.some.inj (hname.symm.trans hu)⟩

theorem mem_instrsOf (hbb : bb ∈ blocks) (hinstr : instr ∈ bb.instrs) : instr ∈ instrsOf blocks :=
  mem_flatMap.mpr ⟨bb, hbb, hinstr⟩

theorem mem_body_withoutLoads : instr ∈ body (withoutLoads instrs) ↔
    instr ∈ instrs ∧ Instr.isLoadSecondCallResult instr = false ∧ instr.isPhi = false := by
  simp [body, withoutLoads, and_comm]

include h ht in
theorem Tracked.step_between (hbb : bb ∈ F)
    (hbody : body (withoutLoads bb.instrs) = pre ++ post)
    (hsettled : Settled F src names done bb pre m none)
    (hrest : body (renderInstrs par post) = instr :: rest) (hstep : Step second instr m m') :
    ∃ pre' post', body (withoutLoads bb.instrs) = pre' ++ post' ∧
      Tracked F par second src names done bb pre' post' rest m' := by
  obtain ⟨i, post', rfl⟩ : ∃ i post', post = i :: post' := by
    cases post with
    | nil => cases hrest
    | cons i post' => exact ⟨i, post', rfl⟩
  have hi : i ∈ body (withoutLoads bb.instrs) := by rw [hbody]; simp
  obtain ⟨himem, hnotLoad, hnotPhi⟩ := mem_body_withoutLoads.mp hi
  have hiF := mem_instrsOf hbb himem
  rw [body_renderInstrs_cons hnotPhi] at hrest
  obtain ⟨rfl, hrest'⟩ := List.cons.inj hrest
  refine ⟨pre ++ [i], post', by rw [hbody, append_assoc]; rfl, ?_⟩
  have hother : ∀ w, WebOf F src w → i.output ≠ .vreg w → ∀ u, names w = some u →
      Defined done bb (pre ++ [i]) w → Holds m' w u := by
    intro w hw hne u hu hdefined
    have hdefined' : Defined done bb pre w := by
      obtain ⟨other, hdefines, hdone | hphi | hexecuted⟩ := hdefined
      · exact ⟨other, hdefines, Or.inl hdone⟩
      · exact ⟨other, hdefines, Or.inr (Or.inl hphi)⟩
      · rcases mem_append.mp hexecuted with hpre | hlast
        · exact ⟨other, hdefines, Or.inr (Or.inr hpre)⟩
        · rw [mem_singleton.mp hlast] at hdefines
          exact absurd (defines_iff.mp hdefines) hne
    refine (hsettled w hw (by simp) u hu hdefined').of_step hstep hne fun hu' => ?_
    obtain ⟨p, hp, rfl⟩ := ht.name hw hu
    exact h.apart i hiF hnotLoad p.vreg (defines_iff.mpr hu') w p hp rfl
  rcases h.body_parallels hiF hnotPhi with ⟨hnil, hpar⟩ | ⟨w, p, hw, hcall, hpar, hsecond, hone⟩
  · rw [← hrest', hnil, nil_append]
    refine .between fun w hw _ u hu hdefined => hother w hw (fun hi' => ?_) u hu hdefined
    obtain ⟨p, hp, -⟩ := ht.name hw hu
    rw [hpar w (defines_iff.mpr hi')] at hp
    cases hp
  · obtain ⟨result, hcalls, hheld, rfl⟩ := hstep.of_call hcall hw
    rw [← hrest', hone]
    refine .pending hpar hsecond ⟨i, hiF, hnotLoad, defines_iff.mpr hw⟩ hheld ?_
      fun w' hw' hne u hu hdefined => hother w' hw' (fun hi' => ?_) u hu hdefined
    · rw [hcalls, getElem?_concat_length]
    · rw [hw] at hi'
      exact hne (by simpa using hi')

include h ht in
theorem Tracked.step_pending (hpar : par w = [p])
    (hsecond : Instr.movesSecond p.instr second = true)
    (hdefined : ∃ call ∈ instrsOf F, Instr.isLoadSecondCallResult call = false ∧
      Instr.defines call w = true) {k : Nat}
    (hheld : m.held w = some k) (hcall : m.calls[k]? = some (m.regs w, m.second))
    (hsettled : Settled F src names done bb pre m (some w)) (hstep : Step second p.instr m m') :
    Settled F src names done bb pre m' none := by
  have hp : p ∈ par w := by rw [hpar]; exact mem_singleton_self p
  have hfree : ∀ v, (∃ instr ∈ instrsOf F, isLoadSecondCallResult instr = false ∧
      defines instr v = true) → p.instr.output ≠ .vreg v := by
    rintro v ⟨instr, hinstr, hnotLoad, hdefines⟩ hsame
    exact h.apart instr hinstr hnotLoad v hdefines w p hp (by simpa [Parallel.instr] using hsame)
  obtain ⟨hmoved, hcalls⟩ := hstep.of_movesSecond hsecond rfl
  intro w' hw' _ u hu hdefined'
  obtain ⟨q, hq, rfl⟩ := ht.name hw' hu
  by_cases hsame : w' = w
  · subst hsame
    rw [hpar, mem_singleton] at hq
    subst hq
    obtain ⟨hregs, hkept⟩ := hstep.frame (hfree w' hdefined)
    exact ⟨k, m.regs w', m.second, hkept.trans hheld, by rw [hcalls, hcall], hregs, hmoved⟩
  · obtain ⟨instr, hinstr, hdefines, hkind⟩ := ht.source w' hw'
    refine (hsettled w' hw' (by simpa using Ne.symm hsame) _ hu hdefined').of_step hstep
      (hfree w' ⟨instr, hinstr, not_load_of_source (hkind.imp id (·.1)), hdefines⟩) fun hout => ?_
    exact hsame (h.inj w' w q p hq hp (by simpa [Parallel.instr] using hout.symm))

theorem withoutLoads_body : withoutLoads (body instrs) = body (withoutLoads instrs) :=
  filter_comm ..

include h ht in
theorem Tracks.defined_withoutLoads (hbb : bb ∈ F) (hw : WebOf F src w)
    (hpre : ∀ instr ∈ pre, instr ∈ bb.instrs) (hdefined : Defined done bb pre w) :
    Defined done bb (withoutLoads pre) w := by
  obtain ⟨instr, hdefines, hdone | hphi | hexecuted⟩ := hdefined
  · exact ⟨instr, hdefines, Or.inl hdone⟩
  · exact ⟨instr, hdefines, Or.inr (Or.inl hphi)⟩
  · obtain ⟨source, hsource, hdefines', hkind⟩ := ht.source w hw
    obtain rfl := eq_of_defines h.unique (mem_instrsOf hbb (hpre instr hexecuted)) hsource hdefines
      hdefines'
    refine ⟨instr, hdefines, Or.inr (Or.inr (mem_filter.mpr ⟨hexecuted, ?_⟩))⟩
    simp [not_load_of_source (hkind.imp id (·.1))]

theorem Mirrors.operand {inputs inputs' : List Input} {input : Input} {pred : BlockId}
    (hm : Mirrors names inputs inputs')
    (hinput : Instruction.operandByPredecessor pred inputs = some input) :
    ∃ input' x u, Instruction.operandByPredecessor pred inputs' = some input' ∧
      input ∈ values inputs ∧ define? input = some x ∧ names x = some u ∧
      define? input' = some u := by
  induction hm with
  | nil => cases hinput
  | @cons label value value' rest rest' x v hx hname hv _ ih =>
    rw [Instruction.operandByPredecessor] at hinput
    split at hinput
    next hlabel =>
      cases hinput
      exact ⟨value', x, v, by rw [Instruction.operandByPredecessor, if_pos hlabel],
        mem_cons_self .., hx, hname, hv⟩
    next hlabel =>
      obtain ⟨input', y, u, hoperand, hmem, hrest⟩ := ih hinput
      exact ⟨input', y, u, by rw [Instruction.operandByPredecessor, if_neg hlabel]; exact hoperand,
        mem_cons_of_mem _ hmem, hrest⟩

theorem mem_phis_rewritten (hinstr : instr ∈ bb.instrs) (hphi : instr.isPhi = true) :
    instr ∈ (rewritten par bb).phis := by
  refine mem_filter.mpr ⟨mem_renderInstrs.mpr (Or.inl (mem_filter.mpr ⟨hinstr, ?_⟩)), hphi⟩
  simp [not_load_of_source (Or.inr hphi)]

theorem mem_phis_rewritten_of_parallel (hinstr : instr ∈ bb.instrs) (hphi : instr.isPhi = true)
    (hdefines : Instr.defines instr w = true) (hp : p ∈ par w) (hpphi : p.instr.isPhi = true) :
    p.instr ∈ (rewritten par bb).phis := by
  refine mem_filter.mpr ⟨mem_renderInstrs.mpr (Or.inr ⟨instr,
    mem_filter.mpr ⟨hinstr, ?_⟩, ?_⟩), hpphi⟩
  · simp [not_load_of_source (Or.inr hphi)]
  · rw [parallels_of_defines hdefines]
    exact List.mem_map_of_mem hp

theorem mem_phis_rewritten_cases (hinstr : instr ∈ (rewritten par bb).phis) :
    instr ∈ bb.phis ∨ instr.isPhi = true ∧ ∃ other ∈ bb.instrs, ∃ w, Instr.defines other w = true ∧
      ∃ q ∈ par w, instr = q.instr := by
  obtain ⟨hmem, hphi⟩ := mem_filter.mp hinstr
  rcases mem_renderInstrs.mp hmem with hbase | ⟨other, hother, hparallel⟩
  · exact Or.inl (mem_filter.mpr ⟨(mem_filter.mp hbase).1, hphi⟩)
  · obtain ⟨w, hw, q, hq, hqinstr⟩ := exists_of_mem_parallels hparallel
    exact Or.inr ⟨hphi, other, (mem_filter.mp hother).1, w, defines_iff.mpr hw, q, hq, hqinstr⟩

variable {source : Instruction}

include h in
theorem SecondResults.not_output_of_not_phi (hmem : bb' ∈ F)
    (hsource : source ∈ instrsOf F) (hdefines : Instr.defines source w = true)
    (hnotLoad : Instr.isLoadSecondCallResult source = false) (hphi : source ∉ bb'.phis) :
    ∀ phi ∈ (rewritten par bb').phis, phi.output ≠ .vreg w := by
  intro phi hphi' houtput
  rcases mem_phis_rewritten_cases hphi' with hbase | ⟨-, -, -, w₀, -, q, hq, rfl⟩
  · obtain rfl := eq_of_defines h.unique (mem_instrsOf hmem (mem_filter.mp hbase).1) hsource
      (defines_iff.mpr houtput) hdefines
    exact hphi hbase
  · exact h.apart source hsource hnotLoad w hdefines w₀ q hq
      (by simpa [Parallel.instr] using houtput)

include h in
theorem SecondResults.not_output_parallel_of_not_phi (hmem : bb' ∈ F)
    (hsource : source ∈ instrsOf F) (hdefines : Instr.defines source w = true)
    (hphi : source ∉ bb'.phis) (hp : p ∈ par w) :
    ∀ phi ∈ (rewritten par bb').phis, phi.output ≠ .vreg p.vreg := by
  intro phi hphi' houtput
  rcases mem_phis_rewritten_cases hphi' with hbase | ⟨hisPhi, other, hother, w₀, hw₀, q, hq, rfl⟩
  · obtain ⟨hmemPhi, hisPhi⟩ := mem_filter.mp hbase
    exact h.apart phi (mem_instrsOf hmem hmemPhi) (not_load_of_source (Or.inr hisPhi)) p.vreg
      (defines_iff.mpr houtput) w p hp rfl
  · obtain rfl := h.inj w₀ w q p hq hp (by simpa [Parallel.instr] using houtput)
    obtain rfl := eq_of_defines h.unique (mem_instrsOf hmem hother) hsource hw₀ hdefines
    rcases h.kind hsource hdefines hq with ⟨-, -, hnotPhi⟩ | ⟨hotherPhi, -⟩
    · rw [hisPhi] at hnotPhi
      cases hnotPhi
    · exact hphi (mem_filter.mpr ⟨hother, hotherPhi⟩)

include h ht in
theorem Settled.enter (hstrict : Strict F) (hwalk : Walk F done bb) (hmem : bb' ∈ F)
    (hsucc : bb'.id ∈ bb.successors)
    (hsettled : Settled F src names done bb (body (withoutLoads bb.instrs)) m none)
    (henter : Enter bb.id (rewritten par bb') m m') :
    Settled F src names (bb :: done) bb' [] m' none := by
  intro w hw _ u hu hdefined
  obtain ⟨p, hp, hname, source, hsource, hdefines, hkind⟩ := ht.handled w hw
  obtain rfl := Option.some.inj (hname.symm.trans hu)
  by_cases hphi : source ∈ bb'.phis
  · obtain ⟨hsourceMem, hisPhi⟩ := mem_filter.mp hphi
    have hmirrors : p.instr.isPhi = true ∧ Mirrors names source.inputs p.inputs := by
      rcases hkind with ⟨hcall, -⟩ | ⟨-, hopcode, hmirrors⟩
      · rw [isCallLike_of_isPhi hisPhi] at hcall
        cases hcall
      · exact ⟨by simp [Instruction.isPhi, Parallel.instr, hopcode], hmirrors⟩
    obtain ⟨input, hinput, hinputDefined⟩ :=
      hstrict.operands done bb bb' hwalk hmem hsucc source hphi
    obtain ⟨input', x, v, hinput', hvalue, hx, hv, hx'⟩ := hmirrors.2.operand hinput
    have hxWeb : WebOf F src x := hw.tail ⟨source, hsource, hdefines, hisPhi, input, hvalue, hx⟩
    have hxDefined : Defined done bb (body (withoutLoads bb.instrs)) x := by
      rw [← withoutLoads_body]
      exact ht.defined_withoutLoads h hwalk.mem hxWeb
        (fun instr hinstr => (mem_filter.mp hinstr).1) (hinputDefined x hx)
    obtain ⟨k, first, result, hheld, hcall, hfirst, hresult⟩ :=
      hsettled x hxWeb (by simp) v hv hxDefined
    have hsourcePhi : source ∈ (rewritten par bb').phis := mem_phis_rewritten hsourceMem hisPhi
    have hparallelPhi := mem_phis_rewritten_of_parallel hsourceMem hisPhi hdefines hp hmirrors.1
    have hxOperand : (source.getOperandByPredecessor bb.id).bind define? = some x := by
      rw [hinput, Option.bind_some, hx]
    have hvOperand : (p.instr.getOperandByPredecessor bb.id).bind define? = some v := by
      have hoperand : p.instr.getOperandByPredecessor bb.id = some input' := hinput'
      rw [hoperand, Option.bind_some, hx']
    refine ⟨k, first, result, ?_, by rw [henter.calls, hcall], ?_, ?_⟩
    · rw [henter.held source hsourcePhi w (defines_iff.mp hdefines), hxOperand,
        Option.bind_some, hheld]
    · rw [henter.regs source hsourcePhi w (defines_iff.mp hdefines) x hxOperand, hfirst]
    · rw [henter.regs p.instr hparallelPhi p.vreg rfl v hvOperand, hresult]
  · have hsourceKind := not_load_of_source (hkind.imp (·.1) (·.1))
    obtain ⟨hregs, hheld⟩ := henter.kept w
      (h.not_output_of_not_phi hmem hsource hdefines hsourceKind hphi)
    obtain ⟨hregs', -⟩ := henter.kept p.vreg
      (h.not_output_parallel_of_not_phi hmem hsource hdefines hphi hp)
    have hbefore : Defined done bb (body (withoutLoads bb.instrs)) w := by
      have hbb := hwalk.mem
      have hdone := hwalk.mem_of_done
      obtain ⟨instr, hinstr, hleft | hphis | hnil⟩ := hdefined
      · obtain ⟨left, hleftMem, hin⟩ := mem_flatMap.mp hleft
        rcases mem_cons.mp hleftMem with rfl | hleftDone
        · obtain rfl := eq_of_defines h.unique (mem_instrsOf hbb hin) hsource hinstr hdefines
          cases hisPhi : instr.isPhi with
          | true => exact ⟨instr, hinstr, Or.inr (Or.inl (mem_filter.mpr ⟨hin, hisPhi⟩))⟩
          | false =>
            exact ⟨instr, hinstr,
              Or.inr (Or.inr (mem_body_withoutLoads.mpr ⟨hin, hsourceKind, hisPhi⟩))⟩
        · exact ⟨instr, hinstr, Or.inl (mem_instrsOf hleftDone hin)⟩
      · obtain rfl := eq_of_defines h.unique
          (mem_instrsOf hmem (mem_filter.mp hphis).1) hsource hinstr hdefines
        exact absurd hphis hphi
      · cases hnil
    obtain ⟨k, first, result, hk, hcall, hfirst, hresult⟩ := hsettled w hw (by simp) _ hu hbefore
    exact ⟨k, first, result, hheld.trans hk, by rw [henter.calls, hcall], hregs.trans hfirst,
      hregs'.trans hresult⟩

include h ht in
theorem Reaches.tracked (hstrict : Strict F)
    (hreach : Reaches second (F.map (rewritten par)) done bb executed rest m) :
    ∃ done₀ bb₀ pre post, Walk F done₀ bb₀ ∧ bb = rewritten par bb₀ ∧
      body (withoutLoads bb₀.instrs) = pre ++ post ∧
      Tracked F par second src names done₀ bb₀ pre post rest m := by
  have hentered : ∀ bb₀ ∈ F, body (rewritten par bb₀).instrs =
      body (renderInstrs par (body (withoutLoads bb₀.instrs))) := fun bb₀ hmem =>
    h.body_renderInstrs fun instr hinstr => mem_instrsOf hmem (mem_filter.mp hinstr).1
  induction hreach with
  | start hhead hheld hcalls =>
    rw [head?_map, Option.map_eq_some_iff] at hhead
    obtain ⟨bb₀, hhead, rfl⟩ := hhead
    refine ⟨[], bb₀, [], _, .start hhead, rfl, rfl, ?_⟩
    rw [hentered bb₀ (mem_of_mem_head? hhead)]
    refine .between fun w _ _ u _ hdefined => ?_
    obtain ⟨instr, -, hnil | hphis | hnil⟩ := hdefined
    · cases hnil
    · rw [hstrict.entry bb₀ hhead] at hphis
      cases hphis
    · cases hnil
  | @step _ _ _ rest instr m m' _ hstep ih =>
    obtain ⟨done₀, bb₀, pre, post, hwalk, hbb, hbody, htracked⟩ := ih
    generalize hrest : instr :: rest = remaining at htracked
    cases htracked with
    | between hsettled =>
      obtain ⟨pre', post', hbody', htracked'⟩ :=
        Tracked.step_between h ht hwalk.mem hbody hsettled hrest.symm hstep
      exact ⟨done₀, bb₀, pre', post', hwalk, hbb, hbody', htracked'⟩
    | pending hpar hsecond hdefined hheld hcall hsettled =>
      cases hrest
      exact ⟨done₀, bb₀, pre, post, hwalk, hbb, hbody,
        .between (Tracked.step_pending h ht hpar hsecond hdefined hheld hcall hsettled hstep)⟩
  | @enter _ _ bb' _ m m' _ hmem hsucc henter ih =>
    obtain ⟨done₀, bb₀, pre, post, hwalk, rfl, hbody, htracked⟩ := ih
    obtain ⟨bb₁, hmem₁, rfl⟩ := List.mem_map.mp hmem
    have hsettled : Settled F src names done₀ bb₀ (body (withoutLoads bb₀.instrs)) m none := by
      generalize hrest : ([] : List Instruction) = remaining at htracked
      cases htracked with
      | pending => cases hrest
      | between hsettled =>
        cases post with
        | nil => rwa [hbody, append_nil]
        | cons instr post =>
          have hinstr : instr ∈ body (withoutLoads bb₀.instrs) := by rw [hbody]; simp
          rw [body_renderInstrs_cons (mem_body_withoutLoads.mp hinstr).2.2] at hrest
          cases hrest
    refine ⟨bb₀ :: done₀, bb₁, [], _, hwalk.enter hmem₁ hsucc, rfl, rfl, ?_⟩
    rw [hentered bb₁ hmem₁]
    exact .between (hsettled.enter h ht hstrict hwalk hmem₁ hsucc henter)

theorem renderInstrs_suffix_unique {pre' post' : List Instruction}
    (heq : pre ++ post = pre' ++ post')
    (hphi : ∀ instr ∈ pre ++ post, instr.isPhi = false)
    (hrest : body (renderInstrs par post) = body (renderInstrs par post')) : post = post' := by
  have hnil : ∀ l, (∀ instr ∈ l, instr.isPhi = false) → body (renderInstrs par l) = [] → l =
    [] := by
    intro l hl hbody
    cases l with
    | nil => rfl
    | cons instr l =>
      rw [body_renderInstrs_cons (hl instr (by simp))] at hbody
      cases hbody
  rcases append_eq_append_iff.mp heq with ⟨l, -, rfl⟩ | ⟨l, rfl, rfl⟩
  · rw [renderInstrs_append, body_append, append_left_eq_self] at hrest
    rw [hnil l (fun instr hinstr => hphi instr (by simp [hinstr])) hrest, nil_append]
  · rw [renderInstrs_append, body_append, self_eq_append_left] at hrest
    rw [hnil l (fun instr hinstr => hphi instr (by simp [hinstr])) hrest, nil_append]

include h ht in
theorem Reaches.holds (hstrict : Strict F) (hname : names src = some out) (hmem : bb ∈ F)
    (hinstrs : bb.instrs = pre ++ instr :: post) (hl : Loads instr out src)
    (hreach : Reaches second (F.map (rewritten par)) done (rewritten par bb) executed
      (body (renderInstrs par (withoutLoads post))) m) : Holds m src out := by
  obtain ⟨done₀, bb₀, pre₀, post₀, hwalk, hbb, hbody, htracked⟩ := hreach.tracked h ht hstrict
  obtain rfl : bb = bb₀ := by
    have hid : (rewritten par bb).id = (rewritten par bb₀).id := by rw [hbb]
    exact inj_on_of_nodup_map hstrict.ids_nodup hmem hwalk.mem hid
  have hload : isLoadSecondCallResult instr = true := hl.opcode
  have hnotPhi : instr.isPhi = false := by
    cases hphi : instr.isPhi with
    | false => rfl
    | true =>
      rw [not_load_of_source (Or.inr hphi)] at hload
      cases hload
  have hplace : body (withoutLoads bb.instrs) =
      body (withoutLoads pre) ++ body (withoutLoads post) := by
    have hsplit : withoutLoads (pre ++ instr :: post) = withoutLoads pre ++ withoutLoads post := by
      simp [withoutLoads, hload]
    rw [hinstrs, hsplit, body_append]
  rw [h.body_renderInstrs fun other hother => mem_instrsOf hmem (by
    rw [hinstrs]
    exact mem_append_right _ (mem_cons_of_mem _ (mem_filter.mp hother).1))] at htracked
  generalize hrest : body (renderInstrs par (body (withoutLoads post))) = remaining at htracked
  cases htracked with
  | between hsettled =>
    obtain rfl := renderInstrs_suffix_unique (hbody.symm.trans hplace)
      (fun other hother => (mem_body_withoutLoads.mp (hbody ▸ hother)).2.2) hrest.symm
    obtain rfl := append_cancel_right (hbody.symm.trans hplace)
    obtain ⟨input, rest, hinputs, hsrc⟩ := hl.input
    have huse : Defined done₀ bb (body pre) src := by
      refine hstrict.uses done₀ bb (body pre) instr (body post) hwalk ?_ input ?_ src hsrc
      · rw [hinstrs, body_append, body_cons hnotPhi]
      · rw [hinputs]
        exact mem_cons_self ..
    have hdefined := ht.defined_withoutLoads h hmem .refl (fun other hother => by
      rw [hinstrs]
      exact mem_append_left _ (mem_filter.mp hother).1) huse
    rw [withoutLoads_body] at hdefined
    exact hsettled src .refl (by simp) out hname hdefined
  | @pending _ w p _ hpar =>
    cases hpost : body (withoutLoads post) with
    | nil =>
      rw [hpost] at hrest
      cases hrest
    | cons other remaining =>
      have hother : other ∈ body (withoutLoads bb.instrs) := by rw [hplace, hpost]; simp
      obtain ⟨hmemOther, hnotLoad, hnotPhi'⟩ := mem_body_withoutLoads.mp hother
      rw [hpost, body_renderInstrs_cons hnotPhi'] at hrest
      obtain ⟨rfl, -⟩ := List.cons.inj hrest
      exact absurd rfl (h.apart p.instr (mem_instrsOf hmem hmemOther) hnotLoad p.vreg (by simp)
        w p (by rw [hpar]; exact mem_singleton_self p))

end Runs

section Correct

variable {s s' : State} {outs : List VReg} {bg : VReg → List Parallel}

theorem mem_without_iff_of_loadsOf_nil (ha : Accepted second s)
    (h : Rewritten second s.blocks outs bg s') (hnil : loadsOf (without outs s.blocks) = [])
    (hinstr : instr ∈ instrsOf s.blocks) :
    (∀ v ∈ outs, Instr.defines instr v = false) ↔ Instr.isLoadSecondCallResult instr = false := by
  constructor
  · intro hdefines
    refine Bool.eq_false_iff.mpr fun hload => ?_
    have hmem : instr ∈ loadsOf (without outs s.blocks) :=
      mem_filter.mpr ⟨mem_without.mpr ⟨hinstr, hdefines⟩, hload⟩
    rw [hnil] at hmem
    cases hmem
  · intro hload v hv
    obtain ⟨load, hmem, src, hl⟩ := h.gone v hv
    refine Bool.eq_false_iff.mpr fun hdefines => ?_
    rw [eq_of_defines ha.unique hinstr hmem hdefines (defines_iff.mpr hl.output), hl.opcode]
      at hload
    cases hload

theorem Rewritten.blocks_eq (ha : Accepted second s) (h : Rewritten second s.blocks outs bg s')
    (hnil : loadsOf (without outs s.blocks) = []) : s'.blocks = s.blocks.map (rewritten bg) := by
  rw [h.rendered, render, without, List.map_map]
  refine map_congr_left fun bb hbb => ?_
  have hfilter : (bb.instrs.filter fun instr => outs.all fun v => !defines instr v) =
      withoutLoads bb.instrs := by
    refine filter_congr fun instr hinstr => ?_
    have hiff := mem_without_iff_of_loadsOf_nil ha h hnil (mem_instrsOf hbb hinstr)
    rw [Bool.eq_iff_iff]
    simpa using hiff
  simp only [Function.comp_apply, hfilter, rewritten]

theorem Rewritten.secondResults (ha : Accepted second s) (h : Rewritten second s.blocks outs bg s')
    (hnil : loadsOf (without outs s.blocks) = []) : SecondResults second s.blocks bg where
  unique := ha.unique
  apart instr hinstr hload v hdefines := h.apart v (mem_outputsOf.mpr ⟨instr,
    mem_without.mpr ⟨hinstr, (mem_without_iff_of_loadsOf_nil ha h hnil hinstr).mpr hload⟩,
      hdefines⟩)
  inj := h.inj
  owner w p hp := by
    obtain ⟨load, hload, out, -, src, hrest⟩ := h.owner w p hp
    exact ⟨load, hload, out, src, hrest⟩
  handled load hload out src hl := by
    refine h.handled load hload out (by_contra fun hnot => ?_) src hl
    have hkept : ∀ v ∈ outs, defines load v = false := by
      refine fun v hv => Bool.eq_false_iff.mpr fun hdefines => hnot ?_
      have hsame := hl.output.symm.trans (defines_iff.mp hdefines)
      exact (by simpa using hsame : out = v) ▸ hv
    have hopcode := (mem_without_iff_of_loadsOf_nil ha h hnil hload).mp hkept
    rw [hl.opcode] at hopcode
    cases hopcode
  calls := h.calls

theorem SecondResults.of_contributes (h : SecondResults second F bg) (hw : Contributes F w) :
    ∃ u type, bg w = [⟨u, .kMove, [⟨.phyReg second, type⟩]⟩] := by
  obtain ⟨call, hcall, hdefines, hisCall, load, hload, out, src, hl, hweb⟩ := hw
  obtain ⟨names, -, hall⟩ := h.handled load hload out src hl
  obtain ⟨⟨u, opcode, inputs⟩, hp, -, other, hother, hdefines', hkind⟩ := hall w hweb
  obtain rfl := eq_of_defines h.unique hcall hother hdefines hdefines'
  have hlength := h.calls w call hcall hdefines hisCall
  rcases hkind with ⟨-, hopcode, type, hinputs⟩ | ⟨hphi, -⟩
  · simp only at hopcode hinputs
    subst hopcode hinputs
    refine ⟨u, type, ?_⟩
    match hbg : bg w, hlength with
    | [], _ =>
      rw [hbg] at hp
      cases hp
    | [q], _ =>
      rw [hbg] at hp
      rw [mem_singleton.mp hp]
  · rw [isCallLike_of_isPhi hphi] at hisCall
    cases hisCall

theorem SecondResults.contributes_or_phi (h : SecondResults second F bg) {p : Parallel}
    (hp : p ∈ bg w) : Contributes F w ∨ p.opcode = .kPhi := by
  obtain ⟨load, hload, out, src, hl, hweb, names, instr, hinstr, hdefines, hkind⟩ := h.owner w p hp
  rcases hkind with ⟨hcall, -⟩ | ⟨-, hopcode, -⟩
  · exact Or.inl ⟨instr, hinstr, hdefines, hcall, load, hload, out, src, hl, hweb⟩
  · exact Or.inr hopcode

/-- The rewrite goes through: behind each contributing call stands one move of the second return
register, all else that is new are phis, and where a load was, on every run, its register holds the
second result of the call whose first result its source holds. -/
theorem rewriteAll_correct (ha : Accepted second s) (hstrict : Strict s.blocks) :
    ∃ s' par, rewriteAll second s.instrs.length s = some s' ∧
      s'.blocks = s.blocks.map (rewritten par) ∧
      (∀ w, Contributes s.blocks w → ∃ u type, par w = [⟨u, .kMove, [⟨.phyReg second, type⟩]⟩]) ∧
      (∀ w, ∀ p ∈ par w, Contributes s.blocks w ∨ p.opcode = .kPhi) ∧
      ∀ bb ∈ s.blocks, ∀ pre load post out src, bb.instrs = pre ++ load :: post →
        Loads load out src → ∀ done executed, ∀ m : Machine V,
          Reaches second s'.blocks done (rewritten par bb) executed
            (body (renderInstrs par (withoutLoads post))) m → Holds m src out := by
  obtain ⟨s', outs, par, hrewrite, h, hnil⟩ := (Rewritten.start ha).all ha s.instrs.length (by
    rw [without_nil]
    exact length_filter_le _ _)
  have hresults := h.secondResults ha hnil
  have hblocks := h.blocks_eq ha hnil
  refine ⟨s', par, hrewrite, hblocks, fun _ hw => hresults.of_contributes hw,
    fun _ _ hp => hresults.contributes_or_phi hp, ?_⟩
  intro bb hbb pre load post out src hinstrs hl done executed m hreach
  have hload : load ∈ instrsOf s.blocks := mem_instrsOf hbb (by rw [hinstrs]; simp)
  obtain ⟨out', src', hl', hsource⟩ := ha.loads load hload hl.opcode
  obtain ⟨rfl, rfl⟩ := hl.unique hl'
  obtain ⟨names, hname, hhandled⟩ := hresults.handled load hload out src hl
  rw [hblocks] at hreach
  exact Reaches.holds hresults ⟨hsource, hhandled⟩ hstrict hname hbb hinstrs hl hreach

end Correct

section Examples

def use (operand : Nat) (v : VReg) : Input := ⟨.vreg ⟨operand, v⟩, .k64bit⟩

def label (block : BlockId) : Input := ⟨.label block, .kObject⟩

def joiningPhi : Instruction := ⟨.kPhi, .vreg 3, [label 0, use 1 1, label 1, use 2 2]⟩

def joinedLoad : Instruction := ⟨.kLoadSecondCallResult, .vreg 4, [use 3 3]⟩

def joiningBlock : BasicBlock :=
  ⟨2, [joiningPhi, joinedLoad, ⟨.kReturn, .none, [use 4 4]⟩], []⟩

def joinedCalls : State where
  blocks := [
    ⟨0, [⟨.kCall, .vreg 1, []⟩, ⟨.kCondBranch, .none, [use 0 1, label 1, label 2]⟩], [1, 2]⟩,
    ⟨1, [⟨.kCall, .vreg 2, []⟩], [2]⟩,
    joiningBlock]
  dataType _ := .k64bit
  nextVReg := 5
  nextOperand := 5

theorem joinedCalls_strict : Strict joinedCalls.blocks :=
  .of_local (by decide) (by decide) (by decide) (by decide)

theorem joinedLoad_loads : Loads joinedLoad 4 3 := ⟨rfl, rfl, use 3 3, [], rfl, rfl⟩

theorem joinedCalls_webOf (hw : WebOf joinedCalls.blocks 3 w) : w = 1 ∨ w = 2 ∨ w = 3 := by
  have hvalues : ∀ phi ∈ instrsOf joinedCalls.blocks, phi.isPhi = true →
      ∀ value ∈ values phi.inputs, ∀ x ∈ define? value, x = 1 ∨ x = 2 ∨ x = 3 := by decide
  induction hw with
  | refl => exact Or.inr (Or.inr rfl)
  | tail _ hfeeds _ =>
    obtain ⟨phi, hphi, -, hisPhi, value, hvalue, hx⟩ := hfeeds
    exact hvalues phi hphi hisPhi value hvalue _ hx

theorem joinedCalls_accepted : Accepted 2 joinedCalls := by
  have hone : ∀ instr ∈ instrsOf joinedCalls.blocks, isLoadSecondCallResult instr = true →
      instr = joinedLoad := by decide
  refine ⟨by decide, by decide, fun w _ bb hbb other hother => ?_, fun instr hinstr hload => ?_, ?_⟩
  · have hnone : ∀ bb ∈ joinedCalls.blocks, ∀ other ∈ bb.instrs,
        movesSecond other 2 = false := by decide
    have hmem := (dropWhile_sublist _).mem (mem_of_getElem? hother)
    exact hnone bb hbb other (mem_filter.mp hmem).1
  · rw [hone instr hinstr hload]
    refine ⟨4, 3, joinedLoad_loads, fun w hw => ?_⟩
    rcases joinedCalls_webOf hw with rfl | rfl | rfl
    · exact ⟨⟨.kCall, .vreg 1, []⟩, by decide, by decide, Or.inl (by decide)⟩
    · exact ⟨⟨.kCall, .vreg 2, []⟩, by decide, by decide, Or.inl (by decide)⟩
    · exact ⟨joiningPhi, by decide, by decide,
        Or.inr ⟨by decide, .cons (x := 1) rfl trivial (.cons (x := 2) rfl trivial .nil)⟩⟩
  · intro instr hinstr other hother out src out' src' hl hl' hne
    rw [hone instr hinstr hl.opcode] at hl
    rw [hone other hother hl'.opcode] at hl'
    exact absurd ((hl.unique hl').1) hne

theorem rewriteAll_correct_joinedCalls : ∃ s' par,
    rewriteAll 2 joinedCalls.instrs.length joinedCalls = some s' ∧
      s'.blocks = joinedCalls.blocks.map (rewritten par) ∧
      (∃ u u' type type', par 1 = [⟨u, .kMove, [⟨.phyReg 2, type⟩]⟩] ∧
        par 2 = [⟨u', .kMove, [⟨.phyReg 2, type'⟩]⟩]) ∧
      ∀ done executed, ∀ m : Machine Nat, Reaches 2 s'.blocks done
        (rewritten par joiningBlock) executed
        (body (renderInstrs par [⟨.kReturn, .none, [use 4 4]⟩])) m → Holds m 3 4 := by
  obtain ⟨s', par, hrewrite, hblocks, hcalls, -, hruns⟩ :=
    rewriteAll_correct (V := Nat) joinedCalls_accepted joinedCalls_strict
  have hfeeds : ∀ x, x = 1 ∨ x = 2 → WebOf joinedCalls.blocks 3 x := by
    rintro x (rfl | rfl)
    · exact .single ⟨joiningPhi, by decide, by decide, by decide, use 1 1, by decide, rfl⟩
    · exact .single ⟨joiningPhi, by decide, by decide, by decide, use 2 2, by decide, rfl⟩
  obtain ⟨u, type, hu⟩ := hcalls 1 ⟨⟨.kCall, .vreg 1, []⟩, by decide, by decide, by decide,
    joinedLoad, by decide, 4, 3, joinedLoad_loads, hfeeds 1 (Or.inl rfl)⟩
  obtain ⟨u', type', hu'⟩ := hcalls 2 ⟨⟨.kCall, .vreg 2, []⟩, by decide, by decide, by decide,
    joinedLoad, by decide, 4, 3, joinedLoad_loads, hfeeds 2 (Or.inr rfl)⟩
  exact ⟨s', par, hrewrite, hblocks, ⟨u, u', type, type', hu, hu'⟩, fun done executed m hreach =>
    hruns joiningBlock (by decide)
      [joiningPhi] joinedLoad _ 4 3 rfl joinedLoad_loads done executed m hreach⟩

def throughMove : State where
  blocks := [⟨0, [⟨.kCall, .vreg 1, []⟩, ⟨.kMove, .vreg 2, [use 0 1]⟩,
    ⟨.kLoadSecondCallResult, .vreg 3, [use 1 2]⟩, ⟨.kReturn, .none, [use 2 3]⟩], []⟩]
  dataType _ := .k64bit
  nextVReg := 4
  nextOperand := 3

def askedTwice : State where
  blocks := [⟨0, [⟨.kCall, .vreg 1, []⟩, ⟨.kLoadSecondCallResult, .vreg 2, [use 0 1]⟩,
    ⟨.kLoadSecondCallResult, .vreg 3, [use 1 1]⟩, ⟨.kReturn, .none, [use 2 3]⟩], []⟩]
  dataType _ := .k64bit
  nextVReg := 4
  nextOperand := 3

theorem rewriteAll_throughMove_askedTwice :
    ((outputsOf throughMove.blocks).Nodup ∧ Strict throughMove.blocks ∧
      ∀ fuel, rewriteAll 2 fuel throughMove = none) ∧
    (outputsOf askedTwice.blocks).Nodup ∧ Strict askedTwice.blocks ∧
      ∀ fuel, rewriteAll 2 fuel askedTwice = none := by
  refine ⟨⟨by decide, .of_local (by decide) (by decide) (by decide) (by decide), fun fuel => ?_⟩,
    by decide, .of_local (by decide) (by decide) (by decide) (by decide), fun fuel => ?_⟩
  · cases fuel with
    | zero => rfl
    | succ fuel => rfl
  · match fuel with
    | 0 => rfl
    | 1 => rfl
    | fuel + 2 => rfl

end Examples

end CinderX.Jit.Lir.SecondCallResult
