import CinderX.Jit.Hir.PrimitiveBoxRematForm

/-!
# Runs with moved boxes

The function with moved boxes executes the same instructions on the same values,
and its frame states stand for the same Python values.  Each slot of a frame
state may get a `float` object of its own.
-/

namespace CinderX.Jit.Hir

open Foundation List Hir.Function Instr

variable {n : Nat} {f : Function n} {moves : List (BoxMove n)} {V W : Type}

/-- What boxing a double gives, and which Python value stands for a slot of a frame state. -/
structure Reification (V : Type) where
  box : V → V
  reify : V → V
  reify_box : ∀ value, reify (box value) = reify value

def FrameValues.map (reify : V → V) (frame : FrameValues V) : FrameValues V where
  localsplus := frame.localsplus.map (Option.map reify)
  stack := frame.stack.map reify
  curInstrOffs := frame.curInstrOffs

def Request.reified (reify : V → V) (request : Request V) : Request V :=
  { request with
    deopt := request.deopt.map fun info => (info.1.map (FrameValues.map reify), info.2)
    snapshotState := request.snapshotState.map (FrameValues.map reify) }

/-- Frame states are there to be reified, `UseType`s do nothing, and a boxed double depends on the
double alone.  Boxing fails only for lack of memory, which is left out here too. -/
structure RunsBoxes (exec : Request V → W → Outcome V W) (values : Reification V) : Prop
    extends RunsAssigns exec where
  reified : ∀ (request request' : Request V) (world : W),
    request.reified values.reify = request'.reified values.reify →
      exec request world = exec request' world
  useType : ∀ (request : Request V) (world : W), request.opcode = .kUseType →
    ∃ value, exec request world = .next value world
  box : ∀ (request : Request V) (value : V) (world : W), request.opcode = .kPrimitiveBox →
    request.immediate = TCDouble → request.operands = [value] →
      exec request world = .next (values.box value) world

/-- What is seen of a run: neither copies and `UseType`s nor the boxes that are moved. -/
def boxEvent (moves : List (BoxMove n)) (reify : V → V) (event : Event n V) :
    Option (Option (Register n) × Request V) :=
  if event.request.opcode = .kAssign ∨ event.request.opcode = .kUseType ∨
      event.request.opcode = .kPrimitiveBox ∧
        ∃ move ∈ moves, event.instr.output = some move.boxed then none
  else some (event.instr.output, event.request.reified reify)

theorem ignoresCopies_boxEvent (rename : Register n → Register n) (reify : V → V) :
    IgnoresCopies rename (boxEvent moves reify) where
  assign _ hop := if_pos (.inl hop)
  mapUses _ _ := rfl

def Reification.Boxes (values : Reification V) (instr : Instr n) (regs : Register n → V) : Prop :=
  instr.isDoubleBox = true → ∀ out value, instr.output = some out → instr.operands = [value] →
    regs out = values.box (regs value)

theorem Reification.boxes_isLocal (values : Reification V) : IsLocal (n := n) values.Boxes := by
  intro instr regs regs' hsame hboxes hbox out value houtput hoperands
  rw [← hsame out (.inl houtput), ← hsame value (.inr (by simp [hoperands]))]
  exact hboxes hbox out value houtput hoperands

variable {regs : Register n → V} {instr : Instr n}

theorem RunsBoxes.boxes_assign {exec : Request V → W → Outcome V W} {values : Reification V}
    (hexec : RunsBoxes exec values)
    (hoperands : ∀ reg ∈ instr.operands, instr.output ≠ some reg) {world world' : W} {value : V}
    (hnext : exec (instr.request regs) world = .next value world') :
    values.Boxes instr (instr.assign value regs) := by
  intro hbox out operand houtput hoperand
  simp only [isDoubleBox, Bool.and_eq_true, decide_eq_true_eq] at hbox
  have hboxed := hexec.box (instr.request regs) (regs operand) world hbox.1 hbox.2
    (by simp [request, hoperand])
  rw [hboxed] at hnext
  obtain ⟨rfl, -⟩ := Outcome.next.inj hnext
  have hne := hoperands operand (by simp [hoperand])
  simp [assign, houtput, show out ≠ operand by rintro rfl; exact hne houtput]

theorem Instr.reified_mapFrames {rename : Register n → Register n}
    {reify : V → V} {regs' : Register n → V}
    (huses : ∀ reg, reg ∈ instr.operands ∨ reg ∈ instr.otherUses → regs reg = regs' reg)
    (hframes : ∀ reg ∈ instr.frameUses, reify (regs reg) = reify (regs' (rename reg))) :
    (instr.request regs).reified reify =
      ((instr.mapFrames rename).request regs').reified reify := by
  have hstates : ∀ frames : FrameState n, (∀ reg ∈ frames.flatMap Frame.uses,
      reify (regs reg) = reify (regs' (rename reg))) →
        (frames.map fun frame => frame.values regs).map (FrameValues.map reify) =
          ((frames.map (Frame.mapUses rename)).map fun frame => frame.values regs').map
            (FrameValues.map reify) := by
    intro frames hall
    have hvalues := FrameState.values_congr hall
    simpa [Function.comp_def, Frame.values, Frame.mapUses, FrameValues.map] using hvalues
  have hsnapshot := hstates instr.snapshotState fun reg hreg => hframes reg (by
    rw [frameUses, frames, flatMap_append]
    exact mem_append_right _ hreg)
  simp only [request, Request.reified, mapFrames, Request.mk.injEq, true_and, and_true]
  refine ⟨map_congr_left fun reg hreg => huses reg (.inl hreg), ?_, hsnapshot, ?_⟩
  · cases hdeopt : instr.deopt with
    | none => rfl
    | some info =>
      have hdeoptState := hstates info.frameState fun reg hreg => hframes reg (by
        simp only [frameUses, frames, hdeopt, flatMap_append]
        exact mem_append_left _ hreg)
      simp only [Option.map_some, Option.some.injEq, Prod.mk.injEq]
      refine ⟨hdeoptState, ?_⟩
      cases hguilty : info.guiltyReg with
      | none => rfl
      | some reg => exact congrArg some (huses reg (.inr (by simp [otherUses, hdeopt, hguilty])))
  · cases hiter : instr.yieldFromIter with
    | none => rfl
    | some reg => exact congrArg some (huses reg (.inr (by simp [otherUses, hiter])))

def AgreeOffBoxes (moves : List (BoxMove n)) (regs regs' : Register n → V) : Prop :=
  ∀ reg, (∀ move ∈ moves, move.boxed ≠ reg) → regs reg = regs' reg

theorem AgreeOffBoxes.assign {regs' : Register n → V} (hregs : AgreeOffBoxes moves regs regs')
    (instr : Instr n) (rename : Register n → Register n) (value : V) :
    AgreeOffBoxes moves (instr.assign value regs) ((instr.mapFrames rename).assign value regs') :=
  fun reg hreg => assign_congr rfl (hregs reg hreg) value

/-- Both sides at a place of a block, behind `pre` and behind what has become of it. -/
structure Function.RunsAlike (f : Function n) (moves : List (BoxMove n)) (values : Reification V)
    (id : BlockId) (pre pre' : List (Instr n)) (regs regs' : Register n → V) : Prop where
  agree : AgreeOffBoxes moves regs regs'
  left : f.DefinitionsHold values.Boxes id pre regs
  right : (f.moveBoxes moves).DefinitionsHold values.Boxes id pre' regs'

namespace Function.Moves

variable (h : f.Moves moves) (hbox : f.Boxable) (hf : InSsaForm f)
  (hg : InSsaForm (f.moveBoxes moves)) {values : Reification V}

include h

variable {pre : List (Instr n)} {regs : Register n → V} {move : BoxMove n} {post : List (Instr n)}
  {reg : Register n}

theorem boxed_eq (hmove : move ∈ moves) {id : BlockId}
    (hholds : f.DefinitionsHold values.Boxes id pre regs) (hreg : f.DefinedAt id pre move.boxed) :
    regs move.boxed = values.box (regs move.unboxed) := by
  obtain ⟨hmem, hdouble, houtput, hoperands⟩ := h.box move hmove
  have hphi := h.isPhi_box hmove
  exact hholds move.box hmem hphi _ houtput hreg hdouble _ _ houtput hoperands

include hbox hf hg

variable {block : BasicBlock n}

theorem box_mem_of_definedAt (hmove : move ∈ moves) (hblock : block ∈ f.blocks)
    (heq : (f.moveBoxes moves).instrsOf block.id = pre ++ post)
    (hreg : (f.moveBoxes moves).DefinedAt block.id pre move.boxed) :
    move.box ∈ (f.moveBoxes moves).instrs := by
  have hsomewhere : ∃ id, move.boxed ∈ (f.moveBoxes moves).outputsOf id := by
    obtain ⟨walked, hwalk⟩ := hg.wellFormed.cfg.reachable block.id (by
      rw [moveBoxes, blockIds_mapBlocks]
      exact mem_blockIds.mpr ⟨block, hblock, rfl⟩)
    cases hreg walked hwalk with
    | inl hon =>
      obtain ⟨id, -, hout⟩ := hon
      exact ⟨id, hout⟩
    | inr hdefined =>
      refine ⟨block.id, ?_⟩
      rw [← definedBy_instrsOf, heq, definedBy, filterMap_append]
      exact mem_append_left _ hdefined
  obtain ⟨id, hout⟩ := hsomewhere
  obtain ⟨block', hblock', rfl, hdefines⟩ := mem_outputsOf.mp hout
  obtain ⟨old, hold, rfl⟩ := mem_mapBlocks.mp hblock'
  cases h.mem_definedBy_of_moved hbox hold hdefines with
  | inr hkept => exact absurd rfl (hkept.2 move hmove)
  | inl hmoved =>
    obtain ⟨other, hother, htarget, hsame⟩ := hmoved
    obtain ⟨hmem, -, houtput, -⟩ := h.box move hmove
    obtain ⟨hmem', -, houtput', -⟩ := h.box other hother
    have hsameBox := hf.wellFormed.def_unique hmem hmem' houtput (hsame ▸ houtput')
    refine mem_instrs.mpr ⟨_, hblock', mem_append_left _ ?_⟩
    exact mem_insertedIn.mpr ⟨other, hother, htarget, hsameBox⟩

variable {regs' : Register n → V}

theorem regs_eq_of_use (hblock : block ∈ f.blocks) {pre' post' : List (Instr n)}
    (heq : (f.moveBoxes moves).instrsOf block.id = pre' ++ post')
    (hrel : f.RunsAlike moves values block.id pre pre' regs regs')
    (hreg : f.DefinedAt block.id pre reg)
    (hreg' : (f.moveBoxes moves).DefinedAt block.id pre' reg) : regs reg = regs' reg := by
  by_cases hne : ∀ move ∈ moves, move.boxed ≠ reg
  · exact hrel.agree reg hne
  · push Not at hne
    obtain ⟨move, hmove, rfl⟩ := hne
    obtain ⟨-, hdouble, houtput, hoperands⟩ := h.box move hmove
    have hmem := h.box_mem_of_definedAt hbox hf hg hmove hblock heq hreg'
    have hphi := h.isPhi_box hmove
    calc regs move.boxed
        = values.box (regs move.unboxed) := h.boxed_eq hmove hrel.left hreg
      _ = values.box (regs' move.unboxed) := by
          rw [hrel.agree move.unboxed fun other hother => h.unboxed_ne hmove hother]
      _ = regs' move.boxed :=
          (hrel.right move.box hmem hphi _ houtput hreg' hdouble _ _ houtput hoperands).symm

omit hbox hg in
theorem reify_eq_of_use {pre' : List (Instr n)}
    (hrel : f.RunsAlike moves values block.id pre pre' regs regs')
    (hreg : f.DefinedAt block.id pre reg) :
    values.reify (regs reg) = values.reify (regs' (unboxedIn moves reg)) := by
  by_cases hne : ∀ move ∈ moves, move.boxed ≠ reg
  · rw [unboxedIn_of_forall_ne hne, hrel.agree reg hne]
  · push Not at hne
    obtain ⟨move, hmove, rfl⟩ := hne
    rw [h.boxed_eq hmove hrel.left hreg, values.reify_box, h.unboxedIn_boxed hf hmove,
      hrel.agree move.unboxed fun other hother => h.unboxed_ne hmove hother]

theorem reified_eq (hblock : block ∈ f.blocks) {old : Instr n}
    (heq : block.instrs = pre ++ old :: post) (hkept : isUnlinked moves old = false)
    (hphi : old.isPhi = false) (hrel : f.RunsAlike moves values block.id pre
      (insertedIn moves block.id ++ keptIn moves pre) regs regs') :
    (old.request regs).reified values.reify =
      ((old.mapFrames (unboxedIn moves)).request regs').reified values.reify := by
  have hgInstrs : (f.moveBoxes moves).instrsOf block.id =
      (insertedIn moves block.id ++ keptIn moves pre) ++
        old.mapFrames (unboxedIn moves) :: keptIn moves post := by
    have hsplit : keptIn moves (old :: post) =
        old.mapFrames (unboxedIn moves) :: keptIn moves post := by simp [keptIn, hkept]
    rw [moveBoxes, instrsOf_mapBlocks hblock, heq, keptIn_append, hsplit, append_assoc]
  have hgBlock : (⟨block.id, insertedIn moves block.id ++ keptIn moves block.instrs⟩ :
      BasicBlock n) ∈ (f.moveBoxes moves).blocks := mem_mapBlocks.mpr ⟨block, hblock, rfl⟩
  have huse : ∀ reg ∈ old.visitUses, f.DefinedAt block.id pre reg :=
    fun reg hreg => hf.uses block hblock pre old post heq hphi reg hreg
  refine reified_mapFrames (fun reg hreg => ?_) fun reg hreg => ?_
  · have hsame : reg ∈ old.visitUses := mem_visitUses.mpr (hreg.imp_right .inr)
    have hsame' : reg ∈ (old.mapFrames (unboxedIn moves)).visitUses := by
      rw [mem_visitUses, mapFrames_operands, mapFrames_otherUses]
      exact hreg.imp_right .inr
    have hgSplit := (instrsOf_of_mem hgBlock).symm.trans hgInstrs
    exact h.regs_eq_of_use hbox hf hg hblock hgInstrs hrel (huse reg hsame)
      (hg.uses _ hgBlock _ _ _ hgSplit hphi reg hsame')
  · exact h.reify_eq_of_use hf hrel (huse reg (mem_visitUses.mpr (.inr (.inl hreg))))

end Function.Moves

section

variable {values : Reification V} {exec : Request V → W → Outcome V W}

theorem InSsaForm.boxesHold_next (hf : InSsaForm f) (hexec : RunsBoxes exec values)
    {block : BasicBlock n} {pre : List (Instr n)} {instr : Instr n}
    (hpos : f.Position block pre instr) (hphi : instr.isPhi = false) {regs : Register n → V}
    {world world' : W} {value : V}
    (hnext : exec (instr.request regs) world = .next value world')
    (hholds : f.DefinitionsHold values.Boxes block.id pre regs) :
    f.DefinitionsHold values.Boxes block.id (pre ++ [instr]) (instr.assign value regs) := by
  obtain ⟨post, heq⟩ := hpos.split
  refine hf.wellFormed.definitionsHold_assign values.boxes_isLocal hpos hholds value fun _ => ?_
  refine hexec.boxes_assign (fun reg hreg houtput => ?_) hnext
  exact hf.wellFormed.not_definedAt hpos.mem heq houtput (hf.uses_of_split hpos.mem heq hphi hreg)

structure Function.LeavesAlike (f : Function n) (moves : List (BoxMove n)) (values : Reification V)
    (id succ : BlockId) (regs regs' : Register n → V) : Prop where
  alike : f.RunsAlike moves values id (f.instrsOf id) ((f.moveBoxes moves).instrsOf id) regs regs'
  edge : succ ∈ f.succs id

namespace Function.Moves

variable (h : f.Moves moves) (hbox : f.Boxable) (hf : InSsaForm f)
  (hg : InSsaForm (f.moveBoxes moves)) (hexec : RunsBoxes exec values) {seen : List (BoxMove n)}
  (hseen : moves ⊆ seen)

include h hexec

include hseen in
theorem box_next {move : BoxMove n} (hmove : move ∈ moves) (regs : Register n → V) (world : W) :
    exec (move.box.request regs) world = .next (values.box (regs move.unboxed)) world ∧
      boxEvent seen values.reify ⟨move.box, move.box.request regs⟩ = none := by
  obtain ⟨-, hdouble, houtput, hoperands⟩ := h.box move hmove
  simp only [isDoubleBox, Bool.and_eq_true, decide_eq_true_eq] at hdouble
  refine ⟨hexec.box _ _ world hdouble.1 hdouble.2 (by simp [request, hoperands]), ?_⟩
  exact if_pos (.inr (.inr ⟨hdouble.1, move, hseen hmove, houtput⟩))

include hseen hbox in
theorem unlinked_next {instr : Instr n} (hinstr : instr ∈ f.instrs)
    (hunlinked : isUnlinked moves instr = true) (regs : Register n → V) (world : W) :
    ∃ value, exec (instr.request regs) world = .next value world ∧
      boxEvent seen values.reify ⟨instr, instr.request regs⟩ = none ∧
        ∀ reg, instr.output = some reg → ∃ move ∈ moves, move.boxed = reg := by
  obtain ⟨move, hmove, rfl | ⟨huse, -⟩⟩ := isUnlinked_iff.mp hunlinked
  · obtain ⟨hnext, hhidden⟩ := h.box_next hexec hseen hmove regs world
    refine ⟨_, hnext, hhidden, fun reg houtput => ⟨move, hmove, ?_⟩⟩
    have hboxed := (h.box move hmove).2.2.1
    exact Option.some.inj (hboxed.symm.trans houtput)
  · obtain ⟨value, hnext⟩ := hexec.useType (instr.request regs) world huse
    refine ⟨value, hnext, if_pos (.inr (.inl huse)), fun reg houtput => ?_⟩
    simp [(hbox.created instr hinstr).useType huse] at houtput

include hseen hbox hf hg

theorem execInstrs_keptIn {block : BasicBlock n} (hblock : block ∈ f.blocks)
    {pre rest : List (Instr n)} (heq : block.instrs = pre ++ rest)
    (hphi : ∀ instr ∈ rest, instr.isPhi = false) {regs regs' : Register n → V} (world : W)
    (hrel : f.RunsAlike moves values block.id pre
      (insertedIn moves block.id ++ keptIn moves pre) regs regs') :
    Alike (boxEvent seen values.reify) (boxEvent seen values.reify)
      (f.LeavesAlike moves values block.id) (execInstrs exec rest regs world)
      (execInstrs exec (keptIn moves rest) regs' world) := by
  induction rest generalizing pre regs regs' world with
  | nil => exact ⟨rfl, .stuck⟩
  | cons instr rest ih =>
    obtain ⟨hpos, hinstr, hrest, hrestPhi⟩ := Position.of_cons hblock heq hphi
    have hnotPhi := hphi instr mem_cons_self
    cases hunlinked : isUnlinked moves instr with
    | true =>
      obtain ⟨value, hnext, hhidden, houtput⟩ :=
        h.unlinked_next hbox hexec hseen hinstr hunlinked regs world
      have hsame : keptIn moves (pre ++ [instr]) = keptIn moves pre := by
        simp [keptIn, hunlinked]
      have hagree : AgreeOffBoxes moves (instr.assign value regs) regs' := by
        intro reg hreg
        rw [assign_of_ne fun hout => ?_]
        · exact hrel.agree reg hreg
        · obtain ⟨move, hmove, hboxed⟩ := houtput reg hout
          exact hreg move hmove hboxed
      have hdropped : keptIn moves (instr :: rest) = keptIn moves rest := by
        simp [keptIn, hunlinked]
      rw [hdropped]
      exact .cons_left hnext hhidden (ih hrest hrestPhi world
        ⟨hagree, hf.boxesHold_next hexec hpos hnotPhi hnext hrel.left, hsame ▸ hrel.right⟩)
    | false =>
      have hrequest := h.reified_eq hbox hf hg hblock heq hunlinked hnotPhi hrel
      have hresult := hexec.reified _ _ world hrequest
      have hevent : boxEvent seen values.reify ⟨instr, instr.request regs⟩ =
          boxEvent seen values.reify ⟨instr.mapFrames (unboxedIn moves),
            (instr.mapFrames (unboxedIn moves)).request regs'⟩ := by
        unfold boxEvent
        rw [hrequest]
        rfl
      have hcons : keptIn moves (instr :: rest) =
          instr.mapFrames (unboxedIn moves) :: keptIn moves rest := by
        simp [keptIn, hunlinked]
      have hgPos : (f.moveBoxes moves).Position
          ⟨block.id, insertedIn moves block.id ++ keptIn moves block.instrs⟩
          (insertedIn moves block.id ++ keptIn moves pre)
          (instr.mapFrames (unboxedIn moves)) := by
        refine ⟨mem_mapBlocks.mpr ⟨block, hblock, rfl⟩, keptIn moves rest, ?_⟩
        rw [heq, keptIn_append, hcons, append_assoc]
      rw [hcons]
      refine .cons hresult.symm rfl hevent (fun value world' hrun => ?_) fun hsucc => ?_
      · have hpre : insertedIn moves block.id ++ keptIn moves (pre ++ [instr]) =
            (insertedIn moves block.id ++ keptIn moves pre) ++
              [instr.mapFrames (unboxedIn moves)] := by
          rw [keptIn_append, append_assoc]
          simp [keptIn, hunlinked]
        have hright := hg.boxesHold_next hexec hgPos hnotPhi (hresult ▸ hrun) hrel.right
        exact ih hrest hrestPhi world' ⟨hrel.agree.assign instr (unboxedIn moves) value,
          hf.boxesHold_next hexec hpos hnotPhi hrun hrel.left, hpre ▸ hright⟩
      · obtain ⟨hend, hedge⟩ := hf.wellFormed.definedAt_of_jump hpos
          (hbox.wellShaped instr hinstr) hsucc
        obtain ⟨hgEnd, -⟩ := hg.wellFormed.definedAt_of_jump hgPos
          (hbox.wellShaped instr hinstr).mapFrames hsucc
        exact ⟨⟨hrel.agree,
          fun d hd hdPhi x houtput hx => hrel.left d hd hdPhi x houtput (hend x hx),
          fun d hd hdPhi x houtput hx => hrel.right d hd hdPhi x houtput (hgEnd x hx)⟩, hedge⟩

end Function.Moves

end

/-! ## Runs of the function -/

section

variable {values : Reification V} {exec : Request V → W → Outcome V W}

namespace Function.Moves

variable (h : f.Moves moves) (hf : InSsaForm f)

include h hf

theorem phis_moveBoxes {block : BasicBlock n} (hblock : block ∈ f.blocks) :
    BasicBlock.phis ⟨block.id, insertedIn moves block.id ++ keptIn moves block.instrs⟩ =
        block.phis.map (Instr.mapFrames (unboxedIn moves)) ∧
      BasicBlock.body ⟨block.id, insertedIn moves block.id ++ keptIn moves block.instrs⟩ =
        insertedIn moves block.id ++ keptIn moves block.body := by
  have hphis := h.keptIn_phis fun phi (hphi : phi ∈ block.phis) => BasicBlock.isPhi_of_mem_phis hphi
  have heq : insertedIn moves block.id ++ keptIn moves block.instrs =
      block.phis.map (mapFrames (unboxedIn moves)) ++
        (insertedIn moves block.id ++ keptIn moves block.body) := by
    rw [← hphis]
    nth_rewrite 1 [block.instrs_eq]
    rw [keptIn_append]
    obtain hnil | ⟨move, hall, htarget, -⟩ := h.insertedIn_cases block.id
    · rw [hnil, nil_append, nil_append]
    · rw [h.phis_eq_nil hblock (by simp [hall]) htarget]
      rfl
  unfold BasicBlock.phis BasicBlock.body at heq ⊢
  simp only [heq]
  refine takeWhile_append_of_split (fun phi hphi => ?_) (fun instr hinstr => ?_)
  · obtain ⟨old, hold, rfl⟩ := List.mem_map.mp hphi
    exact (mapFrames_isPhi _ old).trans (mem_takeWhile_imp hold)
  · cases mem_append.mp hinstr with
    | inl hinserted =>
      obtain ⟨move, hmove, -, rfl⟩ := mem_insertedIn.mp hinserted
      simp [isPhi, h.opcode_box hmove]
    | inr hkept =>
      obtain ⟨old, hold, -, rfl⟩ := mem_keptIn.mp hkept
      exact (mapFrames_isPhi _ old).trans (hf.wellFormed.not_isPhi_of_mem_body hblock hold)

theorem agreeOffBoxes_takeEdge {pred : BlockId} {target : BasicBlock n}
    (htarget : target ∈ f.blocks) {regs regs' : Register n → V}
    (hregs : AgreeOffBoxes moves regs regs') :
    AgreeOffBoxes moves (target.takeEdge pred regs)
      (BasicBlock.takeEdge
        ⟨target.id, insertedIn moves target.id ++ keptIn moves target.instrs⟩ pred regs') := by
  intro reg hreg
  have hrenamed : ((target.phis.map (mapFrames (unboxedIn moves))).find?
      fun phi => phi.output = some reg) =
        (target.phis.find? fun phi => phi.output = some reg).map (mapFrames (unboxedIn moves)) := by
    rw [find?_map]
    rfl
  unfold BasicBlock.takeEdge
  rw [(h.phis_moveBoxes hf htarget).1, hrenamed]
  cases hfind : target.phis.find? fun phi => phi.output = some reg with
  | none => exact hregs reg hreg
  | some phi =>
    simp only [Option.map_some, Option.bind_some, mapFrames_phiOperand?]
    cases hoperand : phi.phiOperand? pred with
    | none => exact hregs reg hreg
    | some operand =>
      refine hregs operand fun move hmove hboxed => ?_
      have hphi := mem_of_find?_eq_some hfind
      have hin : phi ∈ f.instrs := mem_instrs.mpr
        ⟨target, htarget, target.instrs_eq ▸ mem_append_left _ hphi⟩
      exact h.not_mem_phi_operands hmove hin (BasicBlock.isPhi_of_mem_phis hphi)
        (hboxed ▸ mem_operands_of_phiOperand? hoperand)

variable (hbox : f.Boxable) (hg : InSsaForm (f.moveBoxes moves)) (hexec : RunsBoxes exec values)
  {seen : List (BoxMove n)} (hseen : moves ⊆ seen)

include hbox hg hexec hseen

theorem execInstrs_body {block : BasicBlock n} (hblock : block ∈ f.blocks)
    {regs regs' : Register n → V} (world : W)
    (hrel : f.RunsAlike moves values block.id block.phis (keptIn moves block.phis) regs regs') :
    Alike (boxEvent seen values.reify) (boxEvent seen values.reify)
      (f.LeavesAlike moves values block.id) (execInstrs exec block.body regs world)
      (execInstrs exec (insertedIn moves block.id ++ keptIn moves block.body) regs' world) := by
  have hbody : ∀ instr ∈ block.body, instr.isPhi = false :=
    fun instr hinstr => hf.wellFormed.not_isPhi_of_mem_body hblock hinstr
  obtain hnil | ⟨move, hall, htarget, hsingle⟩ := h.insertedIn_cases block.id
  · rw [hnil, nil_append]
    refine h.execInstrs_keptIn hbox hf hg hexec hseen hblock block.instrs_eq hbody world ?_
    rwa [hnil, nil_append]
  · have hmove : move ∈ moves := by simp [hall]
    obtain ⟨hnext, hhidden⟩ := h.box_next hexec hseen hmove regs' world
    have hphis := h.phis_eq_nil hblock hmove htarget
    have hnotPhi := h.isPhi_box hmove
    have hgPos : (f.moveBoxes moves).Position
        ⟨block.id, insertedIn moves block.id ++ keptIn moves block.instrs⟩ [] move.box := by
      refine ⟨mem_mapBlocks.mpr ⟨block, hblock, rfl⟩, keptIn moves block.instrs, ?_⟩
      rw [hsingle]
      rfl
    have hagree : AgreeOffBoxes moves regs
        (move.box.assign (values.box (regs' move.unboxed)) regs') := by
      intro reg hreg
      have hne : move.box.output ≠ some reg := by
        rw [(h.box move hmove).2.2.1]
        exact fun heq => hreg move hmove (Option.some.inj heq)
      rw [assign, if_neg hne]
      exact hrel.agree reg hreg
    have hright := hg.boxesHold_next hexec hgPos hnotPhi hnext (by
      have hright := hrel.right
      rw [hphis] at hright
      exact hright)
    have hafter : insertedIn moves block.id ++ keptIn moves block.phis = [] ++ [move.box] := by
      rw [hsingle, hphis]
      rfl
    have halike := h.execInstrs_keptIn hbox hf hg hexec hseen hblock block.instrs_eq
      hbody world ⟨hagree, hrel.left, hafter ▸ hright⟩
    rw [hsingle, singleton_append, execInstrs_next hnext]
    exact ⟨by rw [filterMap_cons_none hhidden, halike.events], halike.exit⟩

theorem run_moveBoxes (fuel : Nat) (regs : Register n → V) (world : W) :
    observe (boxEvent seen values.reify) (f.execute exec fuel regs world) =
      observe (boxEvent seen values.reify)
        ((f.moveBoxes moves).execute exec fuel regs world) := by
  refine execute_mapBlocks (P := fun _ => True) (R := fun block regs regs' =>
      f.RunsAlike moves values block.id block.phis (BasicBlock.phis
        ⟨block.id, insertedIn moves block.id ++ keptIn moves block.instrs⟩) regs regs')
    ?_ fuel world (fun block hblock => ⟨fun _ _ => rfl, ?_, ?_⟩) fun _ _ => trivial
  · intro block hmem regs regs' world hrel _
    have hphis := h.keptIn_phis fun phi (hphi : phi ∈ block.phis) =>
      BasicBlock.isPhi_of_mem_phis hphi
    rw [(h.phis_moveBoxes hf hmem).2]
    rw [(h.phis_moveBoxes hf hmem).1, ← hphis] at hrel
    have halike := h.execInstrs_body hf hbox hg hexec hseen hmem world hrel
    refine ⟨halike.events, halike.exit.imp ?_⟩
    rintro _ regs regs' ⟨halike, hedge⟩ target htarget rfl
    have hgTarget : (⟨target.id, insertedIn moves target.id ++ keptIn moves target.instrs⟩ :
        BasicBlock n) ∈ (f.moveBoxes moves).blocks :=
      mem_mapBlocks.mpr ⟨target, htarget, rfl⟩
    have hgEdge : target.id ∈ (f.moveBoxes moves).succs block.id := by
      rw [moveBoxes, succs_mapBlocks (h.keepsEdges hbox)]
      exact hedge
    exact ⟨h.agreeOffBoxes_takeEdge hf htarget halike.agree,
      hf.wellFormed.definitionsHold_takeEdge values.boxes_isLocal htarget hedge halike.left,
      hg.wellFormed.definitionsHold_takeEdge values.boxes_isLocal hgTarget hgEdge halike.right⟩
  · exact (id_of_block? hblock).symm ▸ hf.wellFormed.definitionsHold_entry hblock regs
  · have hgBlock : (f.moveBoxes moves).block? f.entryBlock =
        some ⟨block.id, insertedIn moves block.id ++ keptIn moves block.instrs⟩ := by
      rw [moveBoxes, block?_mapBlocks, hblock]
      rfl
    have hentry : (f.moveBoxes moves).DefinitionsHold values.Boxes f.entryBlock _ regs :=
      hg.wellFormed.definitionsHold_entry hgBlock regs
    rwa [← id_of_block? hblock] at hentry

end Function.Moves

end

end CinderX.Jit.Hir
