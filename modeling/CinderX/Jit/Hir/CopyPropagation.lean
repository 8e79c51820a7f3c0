import CinderX.Jit.Hir.Copies

/-!
# Copy propagation

Every use of a copy becomes a use of what it is a copy of, at the end of the
chain, and the `Assign`s go.  An operand of an `Assign` that has been rewritten
on the way leads to the same end, so that all chains are followed in the
function as it was.
-/

namespace CinderX.Jit.Hir

open Foundation List Hir.Function Instr BasicBlock

variable {n : Nat} {f : Function n}

def Frame.mapUses (rename : Register n → Register n) (frame : Frame n) : Frame n where
  localsplus := frame.localsplus.map (Option.map rename)
  stack := frame.stack.map rename
  curInstrOffs := frame.curInstrOffs

theorem Frame.uses_mapUses (rename : Register n → Register n) (frame : Frame n) :
    (frame.mapUses rename).uses = frame.uses.map rename := by
  simp [Frame.uses, Frame.mapUses, List.filterMap_map, List.map_filterMap]

namespace Instr

def mapUses (rename : Register n → Register n) (instr : Instr n) : Instr n :=
  { instr with
    operands := instr.operands.map rename
    deopt := instr.deopt.map fun info =>
      ⟨info.frameState.map (Frame.mapUses rename), info.guiltyReg.map rename⟩
    snapshotState := instr.snapshotState.map (Frame.mapUses rename)
    yieldFromIter := instr.yieldFromIter.map rename }

variable (rename : Register n → Register n) (instr : Instr n)

@[simp] theorem mapUses_opcode : (instr.mapUses rename).opcode = instr.opcode := rfl

@[simp] theorem mapUses_output : (instr.mapUses rename).output = instr.output := rfl

@[simp] theorem mapUses_successors : (instr.mapUses rename).successors = instr.successors := rfl

@[simp] theorem mapUses_basicBlocks : (instr.mapUses rename).basicBlocks = instr.basicBlocks := rfl

@[simp] theorem mapUses_operands :
    (instr.mapUses rename).operands = instr.operands.map rename := rfl

@[simp] theorem mapUses_isPhi : (instr.mapUses rename).isPhi = instr.isPhi := rfl

@[simp] theorem mapUses_isPrologueLoad :
    (instr.mapUses rename).isPrologueLoad = instr.isPrologueLoad := rfl

theorem uses_mapUses (frames : FrameState n) :
    (frames.map (Frame.mapUses rename)).flatMap Frame.uses =
      (frames.flatMap Frame.uses).map rename := by
  rw [flatMap_map, map_flatMap]
  exact flatMap_congr fun frame _ => frame.uses_mapUses rename

theorem visitUses_mapUses : (instr.mapUses rename).visitUses = instr.visitUses.map rename := by
  simp only [visitUses, map_append, mapUses_operands]
  congr 1
  · congr 1
    · congr 1
      cases hdeopt : instr.deopt with
      | none => simp [mapUses, hdeopt]
      | some info => cases hguilty : info.guiltyReg <;>
          simp [mapUses, hdeopt, uses_mapUses, hguilty]
    · exact uses_mapUses rename instr.snapshotState
  · cases hiter : instr.yieldFromIter <;> simp [mapUses, hiter]

theorem phiOperand?_mapUses (pred : BlockId) :
    (instr.mapUses rename).phiOperand? pred = (instr.phiOperand? pred).map rename := by
  simp only [phiOperand?, mapUses_basicBlocks, mapUses_operands]
  rw [← List.map_id instr.basicBlocks, zip_map, List.map_id]
  rw [find?_map]
  simp [Function.comp_def, Option.map_map]

theorem request_mapUses {V : Type} (regs : Register n → V) :
    (instr.mapUses rename).request regs = instr.request (regs ∘ rename) := by
  have hframes : ∀ frames : FrameState n,
      (frames.map (Frame.mapUses rename)).map (fun frame => frame.values regs) =
        frames.map fun frame => frame.values (regs ∘ rename) := by
    intro frames
    rw [List.map_map]
    refine map_congr_left fun frame _ => ?_
    simp [Frame.values, Frame.mapUses, Function.comp_def, Option.map_map]
  simp only [request, Request.mk.injEq]
  refine ⟨rfl, rfl, by simp, ?_, hframes instr.snapshotState, ?_, rfl, rfl, rfl, rfl⟩
  · cases hdeopt : instr.deopt with
    | none => simp [mapUses, hdeopt]
    | some info => simp [mapUses, hdeopt, ← hframes]
  · cases hiter : instr.yieldFromIter <;> simp [mapUses, hiter]

theorem WellShaped.mapUses {instr : Instr n} (h : instr.WellShaped) :
    (instr.mapUses rename).WellShaped where
  output := h.output
  edges := h.edges
  phi hphi := by rw [visitUses_mapUses, h.phi hphi, mapUses_operands]
  phi_output := h.phi_output
  assign hassign := by
    obtain ⟨houtput, hlength⟩ := h.assign hassign
    exact ⟨houtput, by simpa using hlength⟩
  snapshot := h.snapshot

end Instr

theorem definedBy_mapUses (rename : Register n → Register n) (instrs : List (Instr n)) :
    definedBy (instrs.map (Instr.mapUses rename)) = definedBy instrs := by
  simp [definedBy, filterMap_map, Function.comp_def]

namespace Function

def assignOperand? (f : Function n) (reg : Register n) : Option (Register n) :=
  match f.instr? reg with
  | some instr => if instr.opcode = .kAssign then instr.operands.head? else none
  | none => none

/-- `none` for a chain without an end. -/
def chaseAssignOperand (f : Function n) (reg : Register n) : Option (Register n) :=
  chase f.assignOperand? n reg

def propagatedTo (f : Function n) (reg : Register n) : Register n :=
  (f.chaseAssignOperand reg).getD reg

end Function

def propagateIn (f : Function n) (instrs : List (Instr n)) : List (Instr n) :=
  (instrs.filter fun instr => instr.opcode ≠ .kAssign).map (Instr.mapUses f.propagatedTo)

def copyPropagation (f : Function n) : Option (Function n) :=
  match reachableBlocks f with
  | none => none
  | some reachable =>
    if ∀ block ∈ f.blocks, block.id ∈ reachable → ∀ instr ∈ block.instrs,
        ∀ reg ∈ instr.visitUses, (f.chaseAssignOperand reg).isSome then
      some (f.mapBlocks fun block =>
        if block.id ∈ reachable then propagateIn f block.instrs else block.instrs)
    else none

namespace Function

theorem assign_of_assignOperand? {reg source : Register n}
    (hsource : f.assignOperand? reg = some source) : ∃ d ∈ f.instrs, d.isPhi = false ∧
      d.output = some reg ∧ d.opcode = .kAssign ∧ source ∈ d.operands := by
  unfold assignOperand? at hsource
  split at hsource
  case h_2 => simp at hsource
  case h_1 instr hinstr =>
    split at hsource
    case isFalse => simp at hsource
    case isTrue hassign =>
      obtain ⟨hmem, houtput⟩ := mem_instrs_of_instr? hinstr
      have hphi : instr.isPhi = false := by simp [isPhi, hassign]
      exact ⟨instr, hmem, hphi, houtput, hassign, mem_of_head? hsource⟩

theorem dependsOn_of_assignOperand? {reg source : Register n}
    (hsource : f.assignOperand? reg = some source) : f.DependsOn reg source := by
  obtain ⟨d, hd, hphi, houtput, -, hmem⟩ := assign_of_assignOperand? hsource
  exact ⟨d, hd, hphi, houtput, hmem⟩

end Function

theorem WellFormed.chaseAssignOperand_isSome (h : WellFormed f) (reg : Register n) :
    ∃ root, f.chaseAssignOperand reg = some root := by
  have hacyclic : ∀ reg, ¬Relation.TransGen (Links f.assignOperand?) reg reg := by
    intro reg hcycle
    have hlinks : ∀ a b, Links f.assignOperand? a b → f.DependsOn a b :=
      fun _ _ hlink => dependsOn_of_assignOperand? hlink
    exact h.dependsOn_acyclic (Relation.TransGen.mono hlinks _ _ hcycle)
  simpa [chaseAssignOperand] using chase_isSome hacyclic reg

theorem WellFormed.propagatedTo_chain (h : WellFormed f) (reg : Register n) :
    Relation.ReflTransGen f.DependsOn reg (f.propagatedTo reg) := by
  obtain ⟨root, hroot⟩ := h.chaseAssignOperand_isSome reg
  have hlinks : ∀ a b, Links f.assignOperand? a b → f.DependsOn a b :=
    fun _ _ hlink => dependsOn_of_assignOperand? hlink
  rw [propagatedTo, hroot]
  exact Relation.ReflTransGen.mono hlinks _ _ (chase_spec hroot).1

namespace InSsaForm

variable (h : InSsaForm f)

include h

theorem copyOf_of_assignOperand? {reg source : Register n}
    (hsource : f.assignOperand? reg = some source) : f.CopyOf reg source := by
  obtain ⟨d, hd, -, houtput, hassign, hmem⟩ := assign_of_assignOperand? hsource
  obtain ⟨block, hblock, hin⟩ := mem_instrs.mp hd
  obtain ⟨operand, hoperand⟩ :=
    length_eq_one_iff.mp ((h.wellShaped block hblock d hin).assign hassign).2
  obtain rfl : source = operand := by simpa [hoperand] using hmem
  exact ⟨d, hd, houtput, .inl ⟨hassign, hoperand⟩⟩

theorem propagatedTo_spec (reg : Register n) :
    Relation.ReflTransGen f.CopyOf reg (f.propagatedTo reg) ∧
      f.assignOperand? (f.propagatedTo reg) = none := by
  obtain ⟨root, hroot⟩ := h.wellFormed.chaseAssignOperand_isSome reg
  obtain ⟨hlinks, hend⟩ := chase_spec hroot
  rw [propagatedTo, hroot]
  have hcopies : ∀ a b, Links f.assignOperand? a b → f.CopyOf a b :=
    fun _ _ hlink => h.copyOf_of_assignOperand? hlink
  exact ⟨Relation.ReflTransGen.mono hcopies _ _ hlinks, hend⟩

theorem opcode_ne_of_assignOperand? {reg : Register n} (hreg : f.assignOperand? reg = none)
    {d : Instr n} (hd : d ∈ f.instrs) (houtput : d.output = some reg) :
    d.opcode ≠ .kAssign := by
  intro hassign
  cases hfind : f.instr? reg with
  | none => simpa [houtput] using find?_eq_none.mp hfind d hd
  | some other =>
    obtain ⟨hother, houtput'⟩ := mem_instrs_of_instr? hfind
    obtain rfl := h.wellFormed.def_unique hd hother houtput houtput'
    obtain ⟨block, hblock, hin⟩ := mem_instrs.mp hd
    have hlength := ((h.wellShaped block hblock d hin).assign hassign).2
    obtain ⟨operand, hoperand⟩ := length_eq_one_iff.mp hlength
    simp [assignOperand?, hfind, hassign, hoperand] at hreg

theorem copyPropagation_eq : copyPropagation f =
    some (f.mapBlocks fun block => propagateIn f block.instrs) := by
  have hcheck := checkCFG_iff.mpr h.wellFormed.cfg
  unfold checkCFG at hcheck
  cases hreachable : reachableBlocks f with
  | none => simp [hreachable] at hcheck
  | some reachable =>
    simp only [hreachable, List.all_eq_true, Bool.and_eq_true, decide_eq_true_eq] at hcheck
    have hall : ∀ block ∈ f.blocks, block.id ∈ reachable :=
      fun block hblock => (hcheck block hblock).1.1
    have hchase : ∀ reg, (f.chaseAssignOperand reg).isSome = true := by
      intro reg
      obtain ⟨root, hroot⟩ := h.wellFormed.chaseAssignOperand_isSome reg
      simp [hroot]
    unfold copyPropagation
    rw [hreachable]
    simp only [hchase, implies_true, if_true, Option.some.injEq]
    exact mapBlocks_congr fun block hblock => by simp [hall block hblock]

end InSsaForm

/-! ## The result is in SSA form -/

theorem Function.keepsEdges_propagateIn (hassign : ∀ block ∈ f.blocks, ∀ instr ∈ block.instrs,
    instr.opcode = .kAssign → instr.successors = []) :
    f.KeepsEdges fun block => propagateIn f block.instrs := by
  intro block hblock
  simp only [propagateIn, outEdges, flatMap_map, mapUses_successors]
  refine flatMap_successors_filter fun instr hinstr hkeep => ?_
  exact hassign block hblock instr hinstr (by simpa using hkeep)

theorem propagateIn_append (instrs rest : List (Instr n)) :
    propagateIn f (instrs ++ rest) = propagateIn f instrs ++ propagateIn f rest := by
  simp [propagateIn]

variable {instrs : List (Instr n)}

theorem mem_propagateIn {instr : Instr n} :
    instr ∈ propagateIn f instrs ↔
      ∃ old ∈ instrs, old.opcode ≠ .kAssign ∧ instr = old.mapUses f.propagatedTo := by
  simp only [propagateIn, List.mem_map, mem_filter, decide_eq_true_eq]
  constructor
  · rintro ⟨old, ⟨hold, hopcode⟩, rfl⟩
    exact ⟨old, hold, hopcode, rfl⟩
  · rintro ⟨old, hold, hopcode, rfl⟩
    exact ⟨old, ⟨hold, hopcode⟩, rfl⟩

theorem propagateIn_split {pre post : List (Instr n)} {instr : Instr n}
    (heq : propagateIn f instrs = pre ++ instr :: post) :
    ∃ pre' old post', instrs = pre' ++ old :: post' ∧ old.opcode ≠ .kAssign ∧
      instr = old.mapUses f.propagatedTo ∧ pre = propagateIn f pre' := by
  obtain ⟨front, back, hsplit, rfl, hback⟩ := map_eq_append_iff.mp heq
  obtain ⟨old, back', rfl, rfl, rfl⟩ := map_eq_cons_iff.mp hback
  obtain ⟨pre', post', rfl, hkept, rfl, -⟩ := filter_eq_append_cons hsplit
  exact ⟨pre', old, post', rfl, by simpa using hkept, rfl, rfl⟩

theorem definedBy_propagateIn {reg : Register n}
    (hreg : ∀ d ∈ instrs, d.output = some reg → d.opcode ≠ .kAssign) :
    reg ∈ definedBy (propagateIn f instrs) ↔ reg ∈ definedBy instrs := by
  rw [propagateIn, definedBy_mapUses]
  exact definedBy_filter fun d hd houtput => by simpa using hreg d hd houtput

theorem shaped_propagateIn (h : Shaped instrs) :
    Shaped (propagateIn f instrs) := by
  cases h with
  | mk phis middle last hphis hmiddle hlast =>
    have hopcode : last.opcode ≠ .kAssign := by
      intro hopcode
      simp [hopcode, Opcode.isTerminator] at hlast
    have hend : propagateIn f [last] = [last.mapUses f.propagatedTo] := by
      simp [propagateIn, hopcode]
    rw [propagateIn_append, propagateIn_append, hend]
    refine .mk _ _ _ (fun phi hphi => ?_) (fun instr hinstr => ?_) hlast
    · obtain ⟨old, hold, -, rfl⟩ := mem_propagateIn.mp hphi
      exact hphis old hold
    · obtain ⟨old, hold, -, rfl⟩ := mem_propagateIn.mp hinstr
      exact hmiddle old hold

namespace InSsaForm

variable (h : InSsaForm f)

include h

theorem successors_of_assign {block : BasicBlock n} (hblock : block ∈ f.blocks) {instr : Instr n}
    (hinstr : instr ∈ block.instrs) (hassign : instr.opcode = .kAssign) :
    instr.successors = [] := by
  by_contra hne
  have hterm := (h.wellShaped block hblock instr hinstr).successors hne
  simp [hassign, Opcode.isTerminator] at hterm

theorem definedAt_propagatedTo {id : BlockId} {pre post : List (Instr n)} {reg : Register n}
    (hpre : f.instrsOf id = pre ++ post) (hsub : ∀ instr ∈ pre, instr ∈ f.instrs)
    (hreg : f.DefinedAt id pre reg) :
    (f.mapBlocks fun block => propagateIn f block.instrs).DefinedAt id (propagateIn f pre)
      (f.propagatedTo reg) := by
  obtain ⟨hlinks, hend⟩ := h.propagatedTo_spec reg
  have hedges := keepsEdges_propagateIn fun block hblock instr hinstr =>
    h.successors_of_assign hblock hinstr
  refine definedAt_mapBlocks hedges (fun block hblock hout => ?_) ?_
    (h.definedAt_of_copies_chain hlinks hpre hreg)
  · refine (definedBy_propagateIn fun d hd houtput => ?_).mpr hout
    exact h.opcode_ne_of_assignOperand? hend (mem_instrs.mpr ⟨block, hblock, hd⟩) houtput
  · exact (definedBy_propagateIn fun d hd houtput =>
      h.opcode_ne_of_assignOperand? hend (hsub d hd) houtput).mpr

theorem propagated : InSsaForm (f.mapBlocks fun block => propagateIn f block.instrs) := by
  have hf := h.wellFormed
  have hedges := keepsEdges_propagateIn fun block hblock instr hinstr =>
    h.successors_of_assign hblock hinstr
  have hmem : ∀ {block instr}, block ∈ f.blocks → instr ∈ block.instrs → instr ∈ f.instrs :=
    fun hblock hinstr => mem_instrs.mpr ⟨_, hblock, hinstr⟩
  refine h.of_mapBlocks f.propagatedTo hedges ?_
    (fun old hold => shaped_propagateIn (hf.shaped hold)) ?_ ?_ ?_ ?_
  · have hsub : ((f.mapBlocks fun block => propagateIn f block.instrs).blocks.flatMap
        outputs).Sublist (f.blocks.flatMap outputs) := by
      rw [mapBlocks, flatMap_map]
      refine List.Sublist.flatMap_right _ fun block hblock => ?_
      rw [outputs, outputs]
      change (definedBy (propagateIn f block.instrs)).Sublist _
      rw [propagateIn, definedBy_mapUses]
      exact filter_sublist.filterMap _
    exact hsub.nodup hf.nodup_outputs
  · intro old hold instr hinstr
    obtain ⟨instr, hin, -, rfl⟩ := mem_propagateIn.mp hinstr
    exact (h.wellShaped old hold instr hin).mapUses f.propagatedTo
  · intro old hold pre instr post heq hload
    obtain ⟨pre', instr, post', heq', -, rfl, rfl⟩ := propagateIn_split heq
    obtain ⟨hentry, hall⟩ := hf.prologue old hold pre' instr post' heq' hload
    refine ⟨hentry, fun other hother => ?_⟩
    obtain ⟨other, hin, -, rfl⟩ := mem_propagateIn.mp hother
    exact hall other hin
  · intro old hold pre instr post heq hphi reg hreg
    obtain ⟨pre', instr, post', heq', -, rfl, rfl⟩ := propagateIn_split heq
    rw [visitUses_mapUses] at hreg
    obtain ⟨use, huse, rfl⟩ := List.mem_map.mp hreg
    refine h.definedAt_propagatedTo ((instrsOf_of_mem hold).trans heq')
      (fun other hother => hmem hold (by simp [heq', hother])) ?_
    exact h.uses old hold pre' instr post' heq' hphi use huse
  · intro old hold phi hphi hisPhi
    obtain ⟨phi, hin, -, rfl⟩ := mem_propagateIn.mp hphi
    refine ⟨phi, hin, hisPhi, rfl, rfl, fun source hsource reg _ hdefined => ?_⟩
    have hwhole : f.instrsOf source.id = source.instrs ++ [] := by
      rw [instrsOf_of_mem hsource, append_nil]
    exact h.definedAt_propagatedTo hwhole (fun other hother => hmem hsource hother) hdefined

end InSsaForm

/-! ## Its runs -/

section

variable {V W : Type} {exec : Request V → W → Outcome V W}

/-- An `Assign` gives its output the value of its operand. -/
structure RunsAssigns (exec : Request V → W → Outcome V W) : Prop where
  next : ∀ (request : Request V) (value : V) (world : W), request.opcode = .kAssign →
    request.operands = [value] → exec request world = .next value world

structure IgnoresCopies {β : Type} (rename : Register n → Register n)
    (obs : Event n V → Option β) : Prop where
  assign : ∀ event, event.request.opcode = .kAssign → obs event = none
  mapUses : ∀ instr request, obs ⟨instr.mapUses rename, request⟩ = obs ⟨instr, request⟩

def requestOf (event : Event n V) : Option (Request V) :=
  if event.request.opcode = .kAssign then none else some event.request

theorem ignoresCopies_requestOf (rename : Register n → Register n) :
    IgnoresCopies rename (requestOf : Event n V → Option (Request V)) where
  assign _ hop := if_pos hop
  mapUses _ _ := rfl

namespace InSsaForm

/-- The registers agree that no `Assign` defines. -/
def AgreeOff (f : Function n) (regs regs' : Register n → V) : Prop :=
  ∀ reg, f.assignOperand? reg = none → regs reg = regs' reg

variable {regs regs' : Register n → V}

theorem AgreeOff.assign (hregs : AgreeOff f regs regs') (instr : Instr n)
    (rename : Register n → Register n) (value : V) :
    AgreeOff f (instr.assign value regs) ((instr.mapUses rename).assign value regs') :=
  fun reg hreg => assign_congr rfl (hregs reg hreg) value

variable (h : InSsaForm f)

include h

theorem AgreeOff.assign_dropped (hregs : AgreeOff f regs regs') {instr : Instr n}
    (hinstr : instr ∈ f.instrs) (hassign : instr.opcode = .kAssign) (value : V) :
    AgreeOff f (instr.assign value regs) regs' := by
  intro reg hreg
  rw [assign_of_ne fun houtput => h.opcode_ne_of_assignOperand? hreg hinstr houtput hassign]
  exact hregs reg hreg

theorem regs_propagatedTo {id : BlockId} {pre post : List (Instr n)}
    (hpre : f.instrsOf id = pre ++ post) (hholds : f.CopiesHold id pre regs)
    (hregs : AgreeOff f regs regs') {reg : Register n} (hreg : f.DefinedAt id pre reg) :
    regs reg = regs' (f.propagatedTo reg) := by
  obtain ⟨hlinks, hend⟩ := h.propagatedTo_spec reg
  exact (hholds.chain h hlinks hpre hreg).trans (hregs _ hend)

def AfterEdge (f : Function n) (id : BlockId) (succ : BlockId) (regs regs' : Register n → V) :
    Prop :=
  AgreeOff f regs regs' ∧ f.CopiesHold id (f.instrsOf id) regs ∧ succ ∈ f.succs id

theorem execInstrs_propagateIn {β : Type} {obs : Event n V → Option β}
    (hobs : IgnoresCopies f.propagatedTo obs) (hexec : RunsAssigns exec) {block : BasicBlock n}
    (hblock : block ∈ f.blocks) {pre rest : List (Instr n)} (heq : block.instrs = pre ++ rest)
    (hphi : ∀ instr ∈ rest, instr.isPhi = false) (world : W)
    (hholds : f.CopiesHold block.id pre regs) (hregs : AgreeOff f regs regs') :
    Alike obs obs (AfterEdge f block.id) (execInstrs exec rest regs world)
      (execInstrs exec (propagateIn f rest) regs' world) := by
  induction rest generalizing pre regs regs' world with
  | nil => exact ⟨rfl, .stuck⟩
  | cons instr rest ih =>
    obtain ⟨hpos, hinstr, hrest, hrestPhi⟩ := Position.of_cons hblock heq hphi
    have hinstrs := (instrsOf_of_mem hblock).trans heq
    have hmem : instr ∈ block.instrs := by simp [heq]
    have hnotPhi := hphi instr mem_cons_self
    by_cases hassign : instr.opcode = .kAssign
    · obtain ⟨source, hsource⟩ := length_eq_one_iff.mp
        ((h.wellShaped block hblock instr hmem).assign hassign).2
      have hnext : exec (instr.request regs) world = .next (regs source) world :=
        hexec.next _ _ _ hassign (by simp [request, hsource])
      have hlater := h.copiesHold_assign hpos hnotPhi hholds (regs source) fun y _ hy => by
        rw [hsource] at hy
        rw [singleton_inj.mp hy]
      have hdropped := AgreeOff.assign_dropped h hregs hinstr hassign (regs source)
      rw [show propagateIn f (instr :: rest) = propagateIn f rest by simp [propagateIn, hassign]]
      exact .cons_left hnext (hobs.assign _ (by simp [request, hassign]))
        (ih hrest hrestPhi world hlater hdropped)
    · have hrequest : instr.request regs =
          (instr.mapUses f.propagatedTo).request regs' := by
        rw [request_mapUses]
        exact request_congr fun reg hreg => h.regs_propagatedTo hinstrs hholds hregs
          (h.uses block hblock pre instr rest heq hnotPhi reg hreg)
      rw [show propagateIn f (instr :: rest) =
        instr.mapUses f.propagatedTo :: propagateIn f rest by simp [propagateIn, hassign]]
      refine .cons (by rw [hrequest]) rfl (by rw [hobs.mapUses, hrequest])
        (fun value world' _ => ?_) fun hsucc => ?_
      · have hlater := h.copiesHold_assign hpos hnotPhi hholds value
          fun _ hopcode => absurd hopcode hassign
        exact ih hrest hrestPhi world' hlater (hregs.assign instr f.propagatedTo value)
      · obtain ⟨hend, hedge⟩ := h.wellFormed.definedAt_of_jump hpos
          (h.wellShaped block hblock instr hmem) hsucc
        exact ⟨hregs, fun x y hcopy hx => hholds x y hcopy (hend x hx), hedge⟩

end InSsaForm

end

theorem phis_propagateIn (h : InSsaForm f) {block : BasicBlock n} (hblock : block ∈ f.blocks) :
    BasicBlock.phis ⟨block.id, propagateIn f block.instrs⟩ =
        block.phis.map (Instr.mapUses f.propagatedTo) ∧
      BasicBlock.body ⟨block.id, propagateIn f block.instrs⟩ = propagateIn f block.body := by
  have hphis : propagateIn f block.phis = block.phis.map (mapUses f.propagatedTo) := by
    rw [propagateIn, filter_eq_self.mpr]
    intro phi hphi
    have hisPhi := isPhi_of_mem_phis hphi
    simp only [isPhi, decide_eq_true_eq] at hisPhi
    simp [hisPhi]
  have heq : propagateIn f block.instrs =
      block.phis.map (mapUses f.propagatedTo) ++ propagateIn f block.body := by
    rw [← hphis, ← propagateIn_append, ← block.instrs_eq]
  unfold BasicBlock.phis BasicBlock.body at heq ⊢
  simp only [heq]
  refine takeWhile_append_of_split (fun phi hphi => ?_) (fun instr hinstr => ?_)
  · obtain ⟨old, hold, rfl⟩ := List.mem_map.mp hphi
    exact (mapUses_isPhi f.propagatedTo old).trans (mem_takeWhile_imp hold)
  · obtain ⟨old, hold, -, rfl⟩ := mem_propagateIn.mp hinstr
    exact (mapUses_isPhi f.propagatedTo old).trans (h.wellFormed.not_isPhi_of_mem_body hblock hold)

section

variable {V W : Type} {exec : Request V → W → Outcome V W} (h : InSsaForm f)

include h

theorem InSsaForm.AgreeOff.takeEdge {pred : BlockId} {target : BasicBlock n}
    (htarget : target ∈ f.blocks) {regs regs' : Register n → V}
    (hafter : AfterEdge f pred target.id regs regs') :
    AgreeOff f (target.takeEdge pred regs)
      (BasicBlock.takeEdge ⟨target.id, propagateIn f target.instrs⟩ pred regs') := by
  obtain ⟨hregs, hholds, hedge⟩ := hafter
  intro reg hreg
  have hrenamed : ((target.phis.map (mapUses f.propagatedTo)).find?
      fun phi => phi.output = some reg) =
        (target.phis.find? fun phi => phi.output = some reg).map (mapUses f.propagatedTo) := by
    rw [find?_map]
    rfl
  unfold BasicBlock.takeEdge
  rw [(phis_propagateIn h htarget).1, hrenamed]
  cases hfind : target.phis.find? fun phi => phi.output = some reg with
  | none => exact hregs reg hreg
  | some phi =>
    have hphi := mem_of_find?_eq_some hfind
    obtain ⟨operand, hoperand, -, hdefined⟩ := h.exists_phiOperand htarget
      (target.instrs_eq ▸ mem_append_left _ hphi) (isPhi_of_mem_phis hphi) hedge
    simp only [Option.map_some, Option.bind_some, phiOperand?_mapUses, hoperand]
    exact h.regs_propagatedTo (append_nil _).symm hholds hregs hdefined

theorem InSsaForm.run_propagated_of {β : Type} {obs : Event n V → Option β}
    (hobs : IgnoresCopies f.propagatedTo obs) (hexec : RunsAssigns exec) (fuel : Nat)
    (regs : Register n → V) (world : W) : observe obs (f.execute exec fuel regs world) =
      observe obs
        ((f.mapBlocks fun block => propagateIn f block.instrs).execute exec fuel regs world) := by
  refine execute_mapBlocks (P := fun _ => True)
    (R := fun block regs regs' => AgreeOff f regs regs' ∧ f.CopiesHold block.id block.phis regs)
    ?_ fuel world (fun block hblock => ⟨fun _ _ => rfl, ?_⟩) fun _ _ => trivial
  · rintro block hmem regs regs' world ⟨hregs, hholds⟩ -
    rw [(phis_propagateIn h hmem).2]
    have halike := h.execInstrs_propagateIn hobs hexec hmem block.instrs_eq
      (fun instr hinstr => h.wellFormed.not_isPhi_of_mem_body hmem hinstr) world hholds hregs
    refine ⟨halike.events, halike.exit.imp ?_⟩
    rintro _ regs regs' hafter target hmemTarget rfl
    exact ⟨AgreeOff.takeEdge h hmemTarget hafter,
      h.copiesHold_takeEdge hmemTarget hafter.2.2 hafter.2.1⟩
  · exact (id_of_block? hblock).symm ▸ h.copiesHold_entry hblock regs

theorem InSsaForm.run_propagated (hexec : RunsAssigns exec) (fuel : Nat) (regs : Register n → V)
    (world : W) : observe requestOf (f.execute exec fuel regs world) =
      observe requestOf
        ((f.mapBlocks fun block => propagateIn f block.instrs).execute exec fuel regs world) :=
  h.run_propagated_of (ignoresCopies_requestOf _) hexec fuel regs world

end

end CinderX.Jit.Hir
