import CinderX.Jit.Hir.Cfg
import CinderX.Jit.Hir.InstrEffects

/-!
# Execution of HIR functions

What instructions do is a parameter.  An instruction is given the values of its
registers and the state of the world; it goes on to the next instruction with a
value for its output, takes one of its edges, or leaves the function by a
return, an exception or a deopt.  Phis are not executed: taking an edge assigns
those of the target.
-/

namespace CinderX.Jit.Hir

open List

variable {n : Nat} {V W : Type}

structure FrameValues (V : Type) where
  localsplus : List (Option V)
  stack : List V
  curInstrOffs : Int

def Frame.values (frame : Frame n) (regs : Register n → V) : FrameValues V where
  localsplus := frame.localsplus.map (Option.map regs)
  stack := frame.stack.map regs
  curInstrOffs := frame.curInstrOffs

/-- An instruction with values in the place of its registers. -/
structure Request (V : Type) where
  opcode : Opcode
  immediate : Nat
  operands : List V
  deopt : Option (List (FrameValues V) × Option V)
  snapshotState : List (FrameValues V)
  yieldFromIter : Option V
  castsToFloat : Bool
  borrowed : Bool
  checksWaitHandle : Bool
  destructorKnown : Bool

def Instr.request (instr : Instr n) (regs : Register n → V) : Request V where
  opcode := instr.opcode
  immediate := instr.immediate
  operands := instr.operands.map regs
  deopt := instr.deopt.map fun info =>
    (info.frameState.map fun frame => frame.values regs, info.guiltyReg.map regs)
  snapshotState := instr.snapshotState.map fun frame => frame.values regs
  yieldFromIter := instr.yieldFromIter.map regs
  castsToFloat := instr.castsToFloat
  borrowed := instr.borrowed
  checksWaitHandle := instr.checksWaitHandle
  destructorKnown := instr.destructorKnown

inductive Outcome (V W : Type) where
  | next (value : V) (world : W)
  | jump (edge : Nat) (world : W)
  | leave (world : W)

structure Event (n : Nat) (V : Type) where
  instr : Instr n
  request : Request V

inductive Exit (n : Nat) (V W : Type) where
  | jump (succ : BlockId) (regs : Register n → V) (world : W)
  | leave (world : W)
  | stuck

inductive Result (W : Type) where
  | leave (world : W)
  | running
  | stuck

def Instr.assign (instr : Instr n) (value : V) (regs : Register n → V) : Register n → V :=
  fun reg => if instr.output = some reg then value else regs reg

theorem Instr.assign_congr {instr instr' : Instr n} (houtput : instr.output = instr'.output)
    {regs regs' : Register n → V} {reg : Register n} (h : regs reg = regs' reg) (value : V) :
    instr.assign value regs reg = instr'.assign value regs' reg := by
  simp only [assign, houtput, h]

theorem Instr.assign_of_ne {instr : Instr n} {reg : Register n} (h : instr.output ≠ some reg)
    (value : V) (regs : Register n → V) : instr.assign value regs reg = regs reg :=
  if_neg h

section

variable (exec : Request V → W → Outcome V W)

def execInstrs : List (Instr n) → (Register n → V) → W → List (Event n V) × Exit n V W
  | [], _, _ => ([], .stuck)
  | instr :: rest, regs, world =>
    match exec (instr.request regs) world with
    | .next value world =>
      let later := execInstrs rest (instr.assign value regs) world
      (⟨instr, instr.request regs⟩ :: later.1, later.2)
    | .jump edge world =>
      ([⟨instr, instr.request regs⟩],
        match instr.successors[edge]? with
        | some succ => .jump succ regs world
        | none => .stuck)
    | .leave world => ([⟨instr, instr.request regs⟩], .leave world)

theorem execInstrs_next {exec : Request V → W → Outcome V W} {instr : Instr n}
    {rest : List (Instr n)} {regs : Register n → V} {world world' : W} {value : V}
    (hnext : exec (instr.request regs) world = .next value world') :
    execInstrs exec (instr :: rest) regs world =
      (⟨instr, instr.request regs⟩ :: (execInstrs exec rest (instr.assign value regs) world').1,
        (execInstrs exec rest (instr.assign value regs) world').2) := by
  simp [execInstrs, hnext]

def BasicBlock.body (block : BasicBlock n) : List (Instr n) := block.instrs.dropWhile Instr.isPhi

/-- The phi of the target that defines a register takes its value from the source of the edge. -/
def BasicBlock.takeEdge (block : BasicBlock n) (pred : BlockId) (regs : Register n → V) :
    Register n → V :=
  fun reg =>
    match (block.phis.find? fun phi => phi.output = some reg).bind fun phi =>
      phi.phiOperand? pred with
    | some operand => regs operand
    | none => regs reg

def Function.run (f : Function n) :
    Nat → BlockId → (Register n → V) → W → List (Event n V) × Result W
  | 0, _, _, _ => ([], .running)
  | fuel + 1, id, regs, world =>
    match f.block? id with
    | none => ([], .stuck)
    | some block =>
      match execInstrs exec block.body regs world with
      | (events, .leave world) => (events, .leave world)
      | (events, .stuck) => (events, .stuck)
      | (events, .jump succ regs world) =>
        match f.block? succ with
        | none => (events, .stuck)
        | some target =>
          let later := f.run fuel succ (target.takeEdge id regs) world
          (events ++ later.1, later.2)

def Function.execute (f : Function n) (fuel : Nat) (regs : Register n → V) (world : W) :
    List (Event n V) × Result W :=
  f.run exec fuel f.entryBlock regs world

end

/-- What the classes of the instructions and the two tables of effects promise: the world stays
as it is where no memory is written and no arbitrary code run.  Boxing deopts only for lack of
memory, which is left out here. -/
structure RespectsEffects (n : Nat) (freeThreaded : Bool) (exec : Request V → W → Outcome V W) :
    Prop where
  goesOn : ∀ (instr : Instr n) (regs : Register n → V) (world : W),
    instr.opcode.isTerminator = false → instr.deopt = none ∨ instr.opcode = .kPrimitiveBox →
      ∃ value world', exec (instr.request regs) world = .next value world'
  stores : ∀ (instr : Instr n) (regs : Register n → V) (world : W) (effects : MemoryEffects)
    (value : V) (world' : W), memoryEffects freeThreaded instr = some effects →
      effects.mayStore = AliasClass.AEmpty →
      (∀ func, instr.opcode.hasArbitraryExecution func = false) →
      exec (instr.request regs) world = .next value world' → world' = world

theorem FrameState.values_congr {frames : FrameState n} {regs regs' : Register n → V}
    (h : ∀ reg ∈ frames.flatMap Frame.uses, regs reg = regs' reg) :
    frames.map (fun frame => frame.values regs) = frames.map fun frame => frame.values regs' := by
  refine map_congr_left fun frame hframe => ?_
  have huse : ∀ reg ∈ frame.uses, regs reg = regs' reg :=
    fun reg hreg => h reg (mem_flatMap.mpr ⟨frame, hframe, hreg⟩)
  simp only [Frame.values, FrameValues.mk.injEq, and_true]
  constructor
  · refine map_congr_left fun slot hslot => ?_
    cases slot with
    | none => rfl
    | some reg =>
      exact congrArg some (huse reg (mem_append_right _ (mem_filterMap.mpr
        ⟨some reg, hslot, rfl⟩)))
  · exact map_congr_left fun reg hreg => huse reg (mem_append_left _ hreg)

theorem Instr.request_congr {instr : Instr n} {regs regs' : Register n → V}
    (h : ∀ reg ∈ instr.visitUses, regs reg = regs' reg) :
    instr.request regs = instr.request regs' := by
  simp only [visitUses, mem_append] at h
  simp only [request, Request.mk.injEq, true_and, and_true]
  refine ⟨?_, ?_, ?_, ?_⟩
  · exact map_congr_left fun reg hreg => h reg (.inl (.inl (.inl hreg)))
  · cases hdeopt : instr.deopt with
    | none => rfl
    | some info =>
      simp only [hdeopt, mem_append] at h
      simp only [Option.map_some, Option.some.injEq, Prod.mk.injEq]
      refine ⟨FrameState.values_congr fun reg hreg => h reg (.inl (.inl (.inr (.inl hreg)))), ?_⟩
      cases hguilty : info.guiltyReg with
      | none => rfl
      | some reg => exact congrArg some (h reg (.inl (.inl (.inr (.inr (by simp [hguilty]))))))
  · exact FrameState.values_congr fun reg hreg => h reg (.inl (.inr hreg))
  · cases hiter : instr.yieldFromIter with
    | none => rfl
    | some reg => exact congrArg some (h reg (.inr (by simp [hiter])))

section

variable {m : Nat} {β : Type}

inductive Exit.Related (R : BlockId → (Register n → V) → (Register m → V) → Prop) :
    Exit n V W → Exit m V W → Prop
  | jump {succ : BlockId} {regs : Register n → V} {regs' : Register m → V} {world : W}
      (h : R succ regs regs') : Related R (.jump succ regs world) (.jump succ regs' world)
  | leave {world : W} : Related R (.leave world) (.leave world)
  | stuck : Related R .stuck .stuck

theorem Exit.Related.imp {R S : BlockId → (Register n → V) → (Register m → V) → Prop}
    {exit : Exit n V W} {exit' : Exit m V W} (h : Exit.Related R exit exit')
    (himp : ∀ succ regs regs', R succ regs regs' → S succ regs regs') :
    Exit.Related S exit exit' := by
  cases h with
  | jump h => exact .jump (himp _ _ _ h)
  | leave => exact .leave
  | stuck => exact .stuck

def observe (obs : Event n V → Option β) (run : List (Event n V) × Result W) :
    List β × Result W :=
  (run.1.filterMap obs, run.2)

variable {exec : Request V → W → Outcome V W} {obs : Event n V → Option β}
    {obs' : Event m V → Option β}
  {R : BlockId → (Register n → V) → (Register m → V) → Prop} {regs : Register n → V}
  {regs' : Register m → V} {world world' : W}

/-- Two executions of instructions look alike and end alike. -/
structure Alike (obs : Event n V → Option β) (obs' : Event m V → Option β)
    (R : BlockId → (Register n → V) → (Register m → V) → Prop) (run : List (Event n V) × Exit n V W)
    (run' : List (Event m V) × Exit m V W) : Prop where
  events : run.1.filterMap obs = run'.1.filterMap obs'
  exit : Exit.Related R run.2 run'.2

variable {instr : Instr n} {rest : List (Instr n)}

theorem Alike.cons {instr' : Instr m} {rest' : List (Instr m)}
    (hrun : exec (instr'.request regs') world = exec (instr.request regs) world)
    (hedges : instr'.successors = instr.successors)
    (hobs : obs ⟨instr, instr.request regs⟩ = obs' ⟨instr', instr'.request regs'⟩)
    (hnext : ∀ value world', exec (instr.request regs) world = .next value world' →
      Alike obs obs' R (execInstrs exec rest (instr.assign value regs) world')
        (execInstrs exec rest' (instr'.assign value regs') world'))
    (hjump : ∀ {edge : Nat} {succ}, instr.successors[edge]? = some succ → R succ regs regs') :
    Alike obs obs' R (execInstrs exec (instr :: rest) regs world)
      (execInstrs exec (instr' :: rest') regs' world) := by
  simp only [execInstrs, hrun]
  cases hresult : exec (instr.request regs) world with
  | next value world' =>
    obtain ⟨hevents, hexit⟩ := hnext value world' hresult
    exact ⟨by simp only [filterMap_cons, hobs, hevents], hexit⟩
  | jump edge world' =>
    refine ⟨by simp only [filterMap_cons, hobs, filterMap_nil], ?_⟩
    simp only [hedges]
    cases hsucc : instr.successors[edge]? with
    | none => exact .stuck
    | some succ => exact .jump (hjump hsucc)
  | leave world' => exact ⟨by simp only [filterMap_cons, hobs, filterMap_nil], .leave⟩

theorem Alike.cons_left {value : V} {run' : List (Event m V) × Exit m V W}
    (hnext : exec (instr.request regs) world = .next value world')
    (hobs : obs ⟨instr, instr.request regs⟩ = none)
    (h : Alike obs obs' R (execInstrs exec rest (instr.assign value regs) world') run') :
    Alike obs obs' R (execInstrs exec (instr :: rest) regs world) run' := by
  rw [execInstrs_next hnext]
  exact ⟨(filterMap_cons_none hobs).trans h.events, h.exit⟩

end

end CinderX.Jit.Hir
