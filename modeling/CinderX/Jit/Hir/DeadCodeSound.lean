import CinderX.Jit.Hir.DeadCode

/-!
# Dead code elimination keeps the meaning

The registers of the two functions agree wherever only kept instructions define
them.
-/

namespace CinderX.Jit.Hir

open List

variable {n : Nat} {f : Function n} {V W : Type}

theorem BasicBlock.instrs_eq (block : BasicBlock n) : block.instrs = block.phis ++ block.body :=
  takeWhile_append_dropWhile.symm

variable {block : BasicBlock n} {phi : Instr n} {α : Type} {P : Event n V → Prop}

theorem BasicBlock.isPhi_of_mem_phis (h : phi ∈ block.phis) : phi.isPhi = true :=
  mem_takeWhile_imp h

variable {instr : Instr n}

theorem WellFormed.not_isPhi_of_mem_body (h : WellFormed f) (hblock : block ∈ f.blocks)
    (hinstr : instr ∈ block.body) :
    instr.isPhi = false := by
  by_contra hphi
  have hphi : instr.isPhi = true := by simpa using hphi
  obtain ⟨pre, post, heq⟩ := append_of_mem hinstr
  have hall := h.phis_first block hblock (block.phis ++ pre) instr post
    (by rw [block.instrs_eq, heq, append_assoc]) hphi
  have hhead : ∀ first ∈ block.body.head?, first.isPhi = false := by
    intro first hfirst
    have := head?_dropWhile_not Instr.isPhi block.instrs
    rw [show block.instrs.dropWhile Instr.isPhi = block.body from rfl, hfirst] at this
    simpa using this
  cases pre with
  | nil => simpa [hphi] using hhead instr (by simp [heq])
  | cons first pre =>
    have := hall first (by simp)
    simp [hhead first (by simp [heq])] at this

theorem takeWhile_append_of_split {p : α → Bool} {front back : List α}
    (hfront : ∀ a ∈ front, p a = true) (hback : ∀ a ∈ back, p a = false) :
    (front ++ back).takeWhile p = front ∧ (front ++ back).dropWhile p = back := by
  rw [takeWhile_append_of_pos hfront, dropWhile_append_of_pos hfront]
  cases back with
  | nil => simp
  | cons a back => simp [hback a (by simp)]

theorem WellFormed.phis_filter (h : WellFormed f) (hblock : block ∈ f.blocks)
    (keep : Instr n → Bool) :
    BasicBlock.phis ⟨block.id, block.instrs.filter keep⟩ = block.phis.filter keep ∧
      BasicBlock.body ⟨block.id, block.instrs.filter keep⟩ = block.body.filter keep := by
  have heq : block.instrs.filter keep = block.phis.filter keep ++ block.body.filter keep := by
    rw [← filter_append, ← block.instrs_eq]
  unfold BasicBlock.phis BasicBlock.body
  simp only [heq]
  refine takeWhile_append_of_split ?_ ?_
  · exact fun phi hphi => BasicBlock.isPhi_of_mem_phis (mem_filter.mp hphi).1
  · exact fun instr hinstr => h.not_isPhi_of_mem_body hblock (mem_filter.mp hinstr).1

theorem find?_filter_of_imp {p keep : α → Bool} {as : List α}
    (h : ∀ a ∈ as, p a = true → keep a = true) : (as.filter keep).find? p = as.find? p := by
  induction as with
  | nil => rfl
  | cons a as ih =>
    have hrest := ih fun b hb => h b (by simp [hb])
    by_cases hp : p a = true
    · simp [h a (by simp) hp, hp]
    · by_cases hkeep : keep a = true
      · simp [hkeep, hp, hrest]
      · simp [hkeep, hp, hrest]

theorem Instr.mem_operands_of_phiOperand? {pred : BlockId} {reg : Register n}
    (h : phi.phiOperand? pred = some reg) : reg ∈ phi.operands := by
  obtain ⟨pair, hfind, rfl⟩ := Option.map_eq_some_iff.mp h
  exact (of_mem_zip (mem_of_find?_eq_some hfind)).2

variable {freeThreaded : Bool}

theorem memoryEffects_isSome (hterm : instr.opcode.isTerminator = false)
    (hphi : instr.isPhi = false) :
    ∃ effects, memoryEffects freeThreaded instr = some effects := by
  unfold Instr.isPhi at hphi
  unfold memoryEffects
  cases hopcode : instr.opcode <;> simp_all [Opcode.isTerminator] <;> split <;> simp

theorem of_not_isUseful (h : isUseful freeThreaded instr = false) :
    instr.opcode.isTerminator = false ∧ (instr.deopt = none ∨ instr.opcode = .kPrimitiveBox) ∧
      (instr.isPhi = true ∨ ∃ effects, memoryEffects freeThreaded instr = some effects ∧
        effects.mayStore = AliasClass.AEmpty) := by
  simp only [isUseful, Bool.or_eq_false_iff, Bool.and_eq_false_iff, decide_eq_false_iff_not,
    not_not, Option.isSome_eq_false_iff, Option.isNone_iff_eq_none] at h
  obtain ⟨⟨⟨⟨hterm, -⟩, -⟩, hdeopt⟩, hstore⟩ := h
  refine ⟨hterm, hdeopt, ?_⟩
  cases hphi : instr.isPhi with
  | true => exact .inl rfl
  | false =>
    obtain ⟨effects, heffects⟩ : ∃ effects, memoryEffects freeThreaded instr = some effects :=
      memoryEffects_isSome hterm hphi
    exact .inr ⟨effects, heffects, by simpa [heffects, hphi] using hstore⟩

theorem hasArbitraryExecution_of_not_isUseful (h : isUseful freeThreaded instr = false)
    (func : CFunc) : instr.opcode.hasArbitraryExecution func = false := by
  obtain ⟨-, -, hphi | ⟨effects, heffects, hempty⟩⟩ := of_not_isUseful h
  · have hopcode : instr.opcode = .kPhi := by simpa [Instr.isPhi] using hphi
    rw [hopcode]
    rfl
  · exact hasArbitraryExecution_eq_false heffects hempty func

variable {exec : Request V → W → Outcome V W}

theorem RespectsEffects.next_of_not_isUseful (hexec : RespectsEffects n freeThreaded exec)
    (regs : Register n → V) (world : W) (hphi : instr.isPhi = false)
    (huseful : isUseful freeThreaded instr = false) :
    ∃ value, exec (instr.request regs) world = .next value world := by
  obtain ⟨hterm, hdeopt, hstore⟩ := of_not_isUseful huseful
  obtain ⟨effects, heffects, hempty⟩ := hstore.resolve_left (by simp [hphi])
  obtain ⟨value, world', hresult⟩ := hexec.goesOn instr regs world hterm hdeopt
  have hworld : world' = world := hexec.stores instr regs world effects value world' heffects hempty
    (hasArbitraryExecution_eq_false heffects hempty) hresult
  exact ⟨value, hworld ▸ hresult⟩

section

variable {freeThreaded : Bool} {live : List (Instr n)} {exec : Request V → W → Outcome V W}

def Function.AgreeOn (f : Function n) (live : List (Instr n)) (regs regs' : Register n → V) :
    Prop :=
  ∀ reg, (∀ d ∈ f.instrs, d.output = some reg → d ∈ live) → regs reg = regs' reg

variable {regs regs' : Register n → V}

theorem Function.AgreeOn.assign (h : f.AgreeOn live regs regs') (instr : Instr n) (value : V) :
    f.AgreeOn live (instr.assign value regs) (instr.assign value regs') :=
  fun reg hreg => Instr.assign_congr rfl (h reg hreg) value

theorem Function.AgreeOn.assign_dropped (h : f.AgreeOn live regs regs') {instr : Instr n}
    (hinstr : instr ∈ f.instrs) (hnot : instr ∉ live) (value : V) :
    f.AgreeOn live (instr.assign value regs) regs' := by
  intro reg hreg
  rw [Instr.assign_of_ne fun houtput => hnot (hreg instr hinstr houtput)]
  exact h reg hreg

variable (h : InSsaForm f) (hlive : f.Marked freeThreaded live)

include h hlive

theorem InSsaForm.request_eq (hregs : f.AgreeOn live regs regs') {instr : Instr n}
    (hinstr : instr ∈ live) : instr.request regs = instr.request regs' :=
  Instr.request_congr fun reg hreg => hregs reg fun _ hd houtput =>
    h.mem_live hlive hinstr hreg hd houtput

theorem InSsaForm.agreeOn_takeEdge (hregs : f.AgreeOn live regs regs') {block : BasicBlock n}
    (hblock : block ∈ f.blocks) (pred : BlockId) :
    f.AgreeOn live (block.takeEdge pred regs)
      (BasicBlock.takeEdge ⟨block.id, block.instrs.filter fun instr => instr ∈ live⟩ pred
        regs') := by
  intro reg hreg
  have hmem : ∀ phi ∈ block.phis, phi ∈ f.instrs := by
    intro phi hphi
    refine Function.mem_instrs.mpr ⟨block, hblock, ?_⟩
    rw [block.instrs_eq]
    exact mem_append_left _ hphi
  have hfind : (block.phis.filter fun instr => instr ∈ live).find?
      (fun phi => phi.output = some reg) = block.phis.find? fun phi => phi.output = some reg := by
    refine find?_filter_of_imp fun phi hphi houtput => ?_
    simpa using hreg phi (hmem phi hphi) (by simpa using houtput)
  unfold BasicBlock.takeEdge
  rw [(h.wellFormed.phis_filter hblock _).1, hfind]
  cases hphi : block.phis.find? fun phi => phi.output = some reg with
  | none => exact hregs reg hreg
  | some phi =>
    have hfound := hmem phi (mem_of_find?_eq_some hphi)
    have houtput : phi.output = some reg := by simpa using find?_some hphi
    have hphiLive : phi ∈ live := hreg phi hfound houtput
    cases hoperand : phi.phiOperand? pred with
    | none => simpa [hoperand] using hregs reg hreg
    | some operand =>
      have huse := operands_subset_visitUses (Instr.mem_operands_of_phiOperand? hoperand)
      simpa [hoperand] using hregs operand fun d hd houtput =>
        h.mem_live hlive hphiLive huse hd houtput

theorem InSsaForm.execInstrs_filter (hexec : RespectsEffects n freeThreaded exec)
    {instrs : List (Instr n)} (hinstrs : ∀ instr ∈ instrs, instr ∈ f.instrs)
    (hphi : ∀ instr ∈ instrs, instr.isPhi = false) (world : W) (hregs : f.AgreeOn live regs regs') :
    Alike (fun event => if event.instr ∈ live then some event else none) some
      (fun _ => f.AgreeOn live) (execInstrs exec instrs regs world)
      (execInstrs exec (instrs.filter fun instr => instr ∈ live) regs' world) := by
  induction instrs generalizing regs regs' world with
  | nil => exact ⟨rfl, .stuck⟩
  | cons instr rest ih =>
    have hrest : ∀ other ∈ rest, other ∈ f.instrs :=
      fun other hother => hinstrs other (by simp [hother])
    have hrestPhi : ∀ other ∈ rest, other.isPhi = false :=
      fun other hother => hphi other (by simp [hother])
    by_cases hmem : instr ∈ live
    · rw [filter_cons_of_pos (by simpa using hmem)]
      have hrequest := h.request_eq hlive hregs hmem
      exact .cons (by rw [hrequest]) rfl (by rw [if_pos hmem, hrequest])
        (fun value world' _ => ih hrest hrestPhi world' (hregs.assign instr value)) fun _ => hregs
    · rw [filter_cons_of_neg (by simpa using hmem)]
      have huseful : isUseful freeThreaded instr = false := by
        by_contra huseful
        exact hmem (hlive.useful instr (hinstrs instr (by simp)) (by simpa using huseful))
      obtain ⟨value, hresult⟩ := hexec.next_of_not_isUseful regs world
        (hphi instr (by simp)) huseful
      exact .cons_left hresult (if_neg hmem)
        (ih hrest hrestPhi world (hregs.assign_dropped (hinstrs instr (by simp)) hmem value))

end

theorem forall_mem_execInstrs {instrs : List (Instr n)}
    (h : ∀ instr ∈ instrs, ∀ regs, P ⟨instr, instr.request regs⟩) (regs : Register n → V)
    (world : W) : ∀ event ∈ (execInstrs exec instrs regs world).1, P event := by
  induction instrs generalizing regs world with
  | nil => simp [execInstrs]
  | cons instr rest ih =>
    have hrest := ih fun other hother => h other (mem_cons_of_mem _ hother)
    have hfirst := h instr mem_cons_self regs
    simp only [execInstrs]
    cases exec (instr.request regs) world with
    | next value world' => exact forall_mem_cons.mpr ⟨hfirst, hrest _ world'⟩
    | jump edge world' => simpa using hfirst
    | leave world' => simpa using hfirst

theorem Function.forall_mem_run (exec : Request V → W → Outcome V W)
    (h : ∀ instr ∈ f.instrs, ∀ regs, P ⟨instr, instr.request regs⟩) (fuel : Nat) (id : BlockId)
    (regs : Register n → V) (world : W) : ∀ event ∈ (f.run exec fuel id regs world).1, P event := by
  induction fuel generalizing id regs world with
  | zero => simp [run]
  | succ fuel ih =>
    simp only [run]
    cases hblock : f.block? id with
    | none => simp
    | some block =>
      have hbody : ∀ event ∈ (execInstrs exec block.body regs world).1, P event :=
        forall_mem_execInstrs (fun instr hinstr => h instr (mem_instrs.mpr ⟨block,
          mem_blocks_of_block? hblock, block.instrs_eq ▸ mem_append_right _ hinstr⟩))
          regs world
      cases hexec : execInstrs exec block.body regs world with
      | mk events exit =>
      rw [hexec] at hbody
      cases exit with
      | leave world' => simpa only [hexec] using hbody
      | stuck => simpa only [hexec] using hbody
      | jump succ regs' world' =>
        simp only [hexec]
        cases f.block? succ with
        | none => exact hbody
        | some target => exact forall_mem_append.mpr ⟨hbody, ih succ _ world'⟩

theorem InSsaForm.run_filterInstrs {freeThreaded : Bool} {live : List (Instr n)} (h : InSsaForm f)
    (hlive : f.Marked freeThreaded live) (hexec : RespectsEffects n freeThreaded exec)
    (fuel : Nat) (regs : Register n → V) (world : W) :
    observe (fun event => if event.instr ∈ live then some event else none)
        (f.execute exec fuel regs world) =
      observe some ((f.filterInstrs fun instr => instr ∈ live).execute exec fuel regs world) := by
  refine Function.execute_mapBlocks (P := fun _ => True) (R := fun _ => f.AgreeOn live)
    (fun block hmem regs regs' world hregs _ => ?_) fuel world (fun _ _ _ _ => rfl) fun _ _ =>
      trivial
  rw [(h.wellFormed.phis_filter hmem _).2]
  have hbody : ∀ instr ∈ block.body, instr ∈ f.instrs := by
    intro instr hinstr
    refine Function.mem_instrs.mpr ⟨block, hmem, ?_⟩
    rw [block.instrs_eq]
    exact mem_append_right _ hinstr
  have halike := h.execInstrs_filter hlive hexec hbody
    (fun instr hinstr => h.wellFormed.not_isPhi_of_mem_body hmem hinstr) world hregs
  exact ⟨halike.events, halike.exit.imp fun succ regs regs' hregs target htarget _ =>
    h.agreeOn_takeEdge hlive hregs htarget block.id⟩

/-- The pass ends and drops only instructions that write no memory, run no arbitrary code, do not
leave the block and define a register, if any, that no other instruction uses, be it as an operand
or in a frame state.  The result is accepted, and its runs
are those of the function without the events of the dropped instructions. -/
theorem deadCodeElimination_sound (h : InSsaForm f) (freeThreaded : Bool) :
    ∃ g, deadCodeElimination freeThreaded f = some g ∧ checkFunc g = true ∧
      (∀ instr ∈ f.instrs, instr ∉ g.instrs →
        instr.opcode.isTerminator = false ∧
        (instr.deopt = none ∨ instr.opcode = .kPrimitiveBox) ∧
        (instr.isPhi = true ∨ ∃ effects, memoryEffects freeThreaded instr = some effects ∧
          effects.mayStore = AliasClass.AEmpty) ∧
        (∀ func, instr.opcode.hasArbitraryExecution func = false) ∧
        ∀ other ∈ g.instrs, ∀ reg ∈ other.visitUses, instr.output ≠ some reg) ∧
      ∀ (V W : Type) (exec : Request V → W → Outcome V W), RespectsEffects n freeThreaded exec →
        ∀ (fuel : Nat) (regs : Register n → V) (world : W),
          g.execute exec fuel regs world =
            ((f.execute exec fuel regs world).1.filter (fun event => event.instr ∈ g.instrs),
              (f.execute exec fuel regs world).2) := by
  obtain ⟨live, hset⟩ := h.liveSet_isSome freeThreaded
  have hlive := Function.marked_of_liveSet hset
  have hmem : ∀ instr ∈ f.instrs,
      (instr ∈ (f.filterInstrs fun instr => instr ∈ live).instrs ↔ instr ∈ live) := by
    intro instr hinstr
    simp [Function.instrs_filterInstrs, hinstr]
  refine ⟨f.filterInstrs fun instr => instr ∈ live, by simp [deadCodeElimination, hset],
    checkFunc_iff.mpr (h.wellFormed_filterInstrs hlive), ?_, ?_⟩
  · intro instr hinstr hnot
    rw [hmem instr hinstr] at hnot
    have huseful : isUseful freeThreaded instr = false := by
      by_contra huseful
      exact hnot (hlive.useful instr hinstr (by simpa using huseful))
    obtain ⟨hterm, hdeopt, hstore⟩ := of_not_isUseful huseful
    refine ⟨hterm, hdeopt, hstore, hasArbitraryExecution_of_not_isUseful huseful,
      fun other hother reg hreg houtput => hnot ?_⟩
    have hother : other ∈ f.instrs ∧ other ∈ live := by
      simpa [Function.instrs_filterInstrs] using hother
    exact h.mem_live hlive hother.2 hreg hinstr houtput
  · intro V W exec hexec fuel regs world
    have hrun := h.run_filterInstrs hlive hexec fuel regs world
    simp only [observe, Prod.mk.injEq, filterMap_some] at hrun
    refine Prod.ext ?_ hrun.2.symm
    rw [← hrun.1, ← filterMap_eq_filter]
    have hin := Function.forall_mem_run exec (f := f) (P := fun event => event.instr ∈ f.instrs)
      (fun instr hinstr _ => hinstr) fuel f.entryBlock regs world
    refine filterMap_congr fun event hevent => ?_
    simp [Option.guard, hmem event.instr (hin event hevent)]

/-- The phi of block 1 and the copy in block 2 use each other, and nothing else uses them. -/
def deadCycle : Function 3 := .ofObjects [
    ⟨0, [{ opcode := .kLoadConst, output := some 0 }, { opcode := .kBranch, successors := [1] }]⟩,
    ⟨1, [{ opcode := .kPhi, output := some 1, operands := [0, 2], basicBlocks := [0, 2] },
      { opcode := .kCondBranch, operands := [0], successors := [2, 3] }]⟩,
    ⟨2, [{ opcode := .kAssign, output := some 2, operands := [1] },
      { opcode := .kBranch, successors := [1] }]⟩,
    ⟨3, [{ opcode := .kReturn, operands := [0] }]⟩] (by decide)

theorem deadCycle_inSsaForm : InSsaForm deadCycle := checkSsaForm_iff.mp (by decide)

/-- Every value is 0, which makes conditional branches take their second edge. -/
def execZeros (request : Request Nat) (_ : Unit) : Outcome Nat Unit :=
  match request.opcode with
  | .kBranch => .jump 0 ()
  | .kCondBranch => .jump 1 ()
  | opcode => if opcode.isTerminator || request.deopt.isSome && opcode ≠ .kPrimitiveBox
      then .leave () else .next 0 ()

theorem execZeros_respectsEffects (freeThreaded : Bool) :
    RespectsEffects n freeThreaded execZeros := by
  refine ⟨fun instr regs world hterm hdeopt => ⟨0, (), ?_⟩, by simp⟩
  have hfalls : (instr.opcode.isTerminator ||
      (instr.request regs).deopt.isSome && instr.opcode ≠ .kPrimitiveBox) = false := by
    obtain hdeopt | hbox := hdeopt
    · simp [hterm, Instr.request, hdeopt]
    · simp [hbox, Opcode.isTerminator]
  unfold execZeros
  split
  case h_1 hopcode => simp [show instr.opcode = .kBranch from hopcode, Opcode.isTerminator] at hterm
  case h_2 hopcode =>
    simp [show instr.opcode = .kCondBranch from hopcode, Opcode.isTerminator] at hterm
  case h_3 =>
    rw [show (instr.request regs).opcode = instr.opcode from rfl, hfalls]
    rfl

theorem deadCodeElimination_sound_deadCycle :
    ∃ g, deadCodeElimination false deadCycle = some g ∧ checkFunc g = true ∧
      ∀ fuel, g.execute execZeros fuel (fun _ => 0) () =
        ((deadCycle.execute execZeros fuel (fun _ => 0) ()).1.filter
          (fun event => event.instr ∈ g.instrs),
          (deadCycle.execute execZeros fuel (fun _ => 0) ()).2) := by
  obtain ⟨g, hg, hcheck, -, hrun⟩ := deadCodeElimination_sound deadCycle_inSsaForm false
  exact ⟨g, hg, hcheck, fun fuel =>
    hrun Nat Unit execZeros (execZeros_respectsEffects false) fuel (fun _ => 0) ()⟩

end CinderX.Jit.Hir
