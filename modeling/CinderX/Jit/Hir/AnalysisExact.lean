import CinderX.Jit.Hir.SsaForm

/-!
# The analyses are exact

For functions in SSA form, and for every order in which the hash tables are
traversed, the analyses end and their results are decided by paths.
-/

namespace CinderX.Jit.Hir

open Foundation Hir.Function

variable {n : Nat} {f : Function n}

namespace Function

/-- `GetLastUses` of a block: its instructions, each with the registers that die at it. -/
def lastUses (f : Function n) (live : Dataflow.State BlockId (Register n)) (id : BlockId) :
    List (InstrStep n) :=
  f.stepsOf id (live.before id) (f.instrsOf id)

theorem stepsOf_append (f : Function n) (id : BlockId) (live : Finset (Register n))
    (pre : List (Instr n)) (instr : Instr n) (post : List (Instr n)) :
    (f.stepsOf id live (pre ++ instr :: post))[pre.length]? =
      some ⟨instr, f.dyingRegs id instr (f.liveBeforeAll id live post), post.head?⟩ := by
  induction pre with
  | nil => simp [stepsOf]
  | cons first pre ih => simpa [stepsOf] using ih

theorem mem_dyingRegs {id : BlockId} {instr : Instr n} {live : Finset (Register n)}
    {reg : Register n} (huse : reg ∈ f.instrUses id instr → instr.output ≠ some reg) :
    reg ∈ f.dyingRegs id instr live ↔
      (reg ∈ f.instrUses id instr ∨ instr.output = some reg) ∧ reg ∉ live := by
  simp only [dyingRegs, Finset.mem_union, Finset.mem_sdiff, Option.mem_toFinset, Option.mem_def]
  by_cases houtput : instr.output = some reg
  · have : reg ∉ f.instrUses id instr := fun hmem => huse hmem houtput
    simp [houtput, this]
  · simp [houtput]

end Function

/-- The sets of `LivenessAnalysis` say which registers have a use ahead, those of
`AssignmentAnalysis` which are assigned on every or on some way from the entry, and the last uses
of an instruction are the registers it uses or defines that have no use ahead of it. -/
theorem analyses_exact (h : InSsaForm f) (t : Traversal f) :
    ∃ live definite maybe, f.livenessAnalysis t = some live ∧
      f.assignmentAnalysis t true = some definite ∧ f.assignmentAnalysis t false = some maybe ∧
      ∀ id ∈ f.blockIds, ∀ reg,
        (reg ∈ live.after id ↔ f.UsedLater reg id (f.instrsOf id)) ∧
        (reg ∈ live.before id ↔ f.UsedLater reg id []) ∧
        (reg ∈ definite.before id ↔ ∀ walked, f.Walk walked id → f.definesOn walked reg) ∧
        (reg ∈ definite.after id ↔ ∀ walked, f.Walk walked id → f.definesOn (id :: walked) reg) ∧
        (reg ∈ maybe.before id ↔ ∃ walked, f.Walk walked id ∧ f.definesOn walked reg) ∧
        (reg ∈ maybe.after id ↔ ∃ walked, f.Walk walked id ∧ f.definesOn (id :: walked) reg) ∧
        ∀ pre instr post, f.instrsOf id = pre ++ instr :: post →
          ∃ step, (f.lastUses live id)[pre.length]? = some step ∧ step.instr = instr ∧
            (reg ∈ step.dying ↔
              (reg ∈ f.instrUses id instr ∨ instr.output = some reg) ∧
                ¬f.UsedLater reg id post) := by
  have hcfg := h.wellFormed.cfg
  obtain ⟨live, hlive⟩ : ∃ s, f.livenessAnalysis t = some s :=
    livenessAnalysis_isSome hcfg.linked
  obtain ⟨definite, hdefinite⟩ : ∃ s, f.assignmentAnalysis t true = some s :=
    assignmentAnalysis_isSome hcfg.linked
  obtain ⟨maybe, hmaybe⟩ : ∃ s, f.assignmentAnalysis t false = some s :=
    assignmentAnalysis_isSome hcfg.linked
  refine ⟨live, definite, maybe, hlive, hdefinite, hmaybe, fun id hid reg =>
    ⟨mem_liveIn hlive hid, mem_liveOut hlive hid, mem_assignedIn hcfg.reachable hdefinite hid,
      mem_assignedOut hcfg.reachable hdefinite hid,
      mem_assignedIn hcfg.reachable hmaybe hid,
      mem_assignedOut hcfg.reachable hmaybe hid, ?_⟩⟩
  intro pre instr post heq
  refine ⟨_, heq ▸ f.stepsOf_append id (live.before id) pre instr post, rfl, ?_⟩
  obtain ⟨block, hblock, rfl⟩ := mem_blockIds.mp hid
  have hinstrs : f.instrsOf block.id = block.instrs := by
    simp [instrsOf, block?_of_mem hblock]
  have huse : reg ∈ f.instrUses block.id instr → instr.output ≠ some reg :=
    fun hmem => h.output_ne hblock (hinstrs ▸ heq) hmem
  rw [mem_dyingRegs huse, mem_liveBeforeAll (fun reg => mem_liveOut hlive hid)]

def unusedConst : Function 2 := .ofObjects [⟨0, [{ opcode := .kLoadConst, output := some 0 },
    { opcode := .kLoadConst, output := some 1 }, { opcode := .kReturn, operands := [0] }]⟩]
  (by decide)

theorem unusedConst_inSsaForm : InSsaForm unusedConst :=
  checkSsaForm_iff.mp (by decide)

theorem analyses_exact_unusedConst :
    ∃ live, unusedConst.livenessAnalysis (.ofFunction unusedConst) = some live ∧
      ((0 : Register 2) ∈ live.after 0 ↔
        unusedConst.UsedLater 0 0 (unusedConst.instrsOf 0)) := by
  obtain ⟨live, _, _, hlive, _, _, h⟩ := analyses_exact unusedConst_inSsaForm (.ofFunction _)
  exact ⟨live, hlive, (h 0 (by decide) 0).1⟩

/-- A register that is defined and never used dies at its definition, which does not use it. -/
theorem lastUses_not_only_uses :
    ¬∀ (n : Nat) (f : Function n) (t : Traversal f) (live : Dataflow.State BlockId (Register n)),
      InSsaForm f → f.livenessAnalysis t = some live → ∀ id ∈ f.blockIds,
        ∀ (pre : List (Instr n)) (instr : Instr n) (post : List (Instr n)),
          f.instrsOf id = pre ++ instr :: post →
          ∀ step : InstrStep n, (f.lastUses live id)[pre.length]? = some step →
          ∀ reg : Register n,
            reg ∈ step.dying ↔ reg ∈ f.instrUses id instr ∧ ¬f.UsedLater reg id post := by
  intro hdying
  obtain ⟨live, hlive⟩ : ∃ live, unusedConst.livenessAnalysis (.ofFunction _) = some live :=
    livenessAnalysis_isSome (by decide)
  have hdies : ∀ live, unusedConst.livenessAnalysis (.ofFunction _) = some live →
      ∃ step, (unusedConst.lastUses live 0)[1]? = some step ∧ (1 : Register 2) ∈ step.dying := by
    intro live hlive
    have hcompute : ((unusedConst.livenessAnalysis (.ofFunction _)).bind fun live =>
        (unusedConst.lastUses live 0)[1]?.map fun step => decide ((1 : Register 2) ∈ step.dying)) =
          some true := by
      decide
    rw [hlive] at hcompute
    simpa [Option.map_eq_some_iff] using hcompute
  obtain ⟨step, hstep, hmem⟩ := hdies live hlive
  have huse := (hdying 2 unusedConst (.ofFunction _) live unusedConst_inSsaForm hlive 0 (by decide)
    [({ opcode := .kLoadConst, output := some 0 } : Instr 2)]
    ({ opcode := .kLoadConst, output := some 1 } : Instr 2)
    [({ opcode := .kReturn, operands := [0] } : Instr 2)] rfl step hstep 1).mp hmem
  exact absurd huse.1 (by decide)

end CinderX.Jit.Hir
