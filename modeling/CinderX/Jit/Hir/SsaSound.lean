import CinderX.Jit.Hir.Ssa

/-!
# What the verifier accepts

The functions that `checkFunc` accepts, in terms of the walks from the entry.
-/

namespace CinderX.Jit.Hir

open Foundation List Hir.Function

variable {n : Nat} {f : Function n}

/-! ## The control flow graph -/

/-- The search between two visits: what it has found is what it has visited and the queue. -/
structure Searched (f : Function n) (visited queue : List BlockId) : Prop where
  nodup : (visited ++ queue).Nodup
  linked : ∀ id ∈ visited, id ∈ f.blockIds
  closed : ∀ id ∈ visited, ∀ succ ∈ f.succs id, succ ∈ visited ++ queue
  walk : ∀ id ∈ visited ++ queue, ∃ walked, f.Walk walked id
  entry : f.entryBlock ∈ visited ++ queue

theorem Searched.start (f : Function n) : Searched f [] [f.entryBlock] := by
  refine ⟨by simp, by simp, by simp, ?_, by simp⟩
  intro id hid
  obtain rfl : id = f.entryBlock := by simpa using hid
  exact ⟨[], .entry⟩

def foundBy (block : BasicBlock n) (reachable : List BlockId) : List BlockId :=
  (block.outEdges.filter fun succ => succ ∉ reachable).dedup

variable {block : BasicBlock n}

theorem mem_foundBy {reachable : List BlockId} {succ : BlockId} :
    succ ∈ foundBy block reachable ↔ succ ∈ block.outEdges ∧ succ ∉ reachable := by
  simp [foundBy]

variable {visited queue : List BlockId}

theorem Searched.visit {id : BlockId} (h : Searched f visited (id :: queue))
    (hblock : f.block? id = some block) :
    Searched f (visited ++ [id]) (queue ++ foundBy block (visited ++ id :: queue)) := by
  have happend : visited ++ [id] ++ (queue ++ foundBy block (visited ++ id :: queue)) =
      (visited ++ id :: queue) ++ foundBy block (visited ++ id :: queue) := by simp
  have hsuccs : f.succs id = block.outEdges := by simp [succs, hblock]
  refine ⟨?_, ?_, ?_, ?_, ?_⟩
  · rw [happend, nodup_append']
    refine ⟨h.nodup, nodup_dedup _, ?_⟩
    intro succ hsucc hfound
    exact (mem_foundBy.mp hfound).2 hsucc
  · intro other hother
    obtain hother | rfl : other ∈ visited ∨ other = id := by simpa using hother
    · exact h.linked other hother
    · exact block?_isSome.mp (by simp [hblock])
  · intro other hother succ hsucc
    rw [happend, mem_append]
    obtain hother | rfl : other ∈ visited ∨ other = id := by simpa using hother
    · exact .inl (h.closed other hother succ hsucc)
    · by_cases hmem : succ ∈ visited ++ other :: queue
      · exact .inl hmem
      · exact .inr (mem_foundBy.mpr ⟨hsuccs ▸ hsucc, hmem⟩)
  · intro other hother
    rw [happend, mem_append] at hother
    obtain hother | hother := hother
    · exact h.walk other hother
    · obtain ⟨walked, hwalk⟩ := h.walk id (by simp)
      exact ⟨_, .step hwalk (hsuccs ▸ (mem_foundBy.mp hother).1)⟩
  · rw [happend, mem_append]
    exact .inl h.entry

theorem Searched.of_search {fuel : Nat} {reachable : List BlockId} (h : Searched f visited queue)
    (hsearch : searchBlocks f fuel queue (visited ++ queue) = some reachable) :
    Searched f reachable [] := by
  induction fuel generalizing visited queue with
  | zero =>
    cases queue with
    | nil =>
      obtain rfl : visited = reachable := by simpa [searchBlocks] using hsearch
      exact h
    | cons id queue => simp [searchBlocks] at hsearch
  | succ fuel ih =>
    cases queue with
    | nil =>
      obtain rfl : visited = reachable := by simpa [searchBlocks] using hsearch
      exact h
    | cons id queue =>
      simp only [searchBlocks] at hsearch
      split at hsearch
      case h_1 => simp at hsearch
      case h_2 block hblock => exact ih (h.visit hblock) (by simpa [foundBy] using hsearch)

theorem Searched.search_isSome {fuel : Nat} (h : Searched f visited queue)
    (hall : ∀ id walked, f.Walk walked id → id ∈ f.blockIds)
    (hfuel : f.blocks.length ≤ visited.length + fuel) :
    ∃ reachable, searchBlocks f fuel queue (visited ++ queue) = some reachable := by
  induction fuel generalizing visited queue with
  | zero =>
    cases queue with
    | nil => exact ⟨visited ++ [], by simp [searchBlocks]⟩
    | cons id queue =>
      have hsub : visited ++ id :: queue ⊆ f.blockIds := by
        intro other hother
        obtain ⟨walked, hwalk⟩ := h.walk other hother
        exact hall other walked hwalk
      have := (h.nodup.subperm hsub).length_le
      simp only [length_append, length_cons, blockIds, length_map] at this
      omega
  | succ fuel ih =>
    cases queue with
    | nil => exact ⟨visited ++ [], by simp [searchBlocks]⟩
    | cons id queue =>
      obtain ⟨walked, hwalk⟩ := h.walk id (by simp)
      obtain ⟨block, hblock⟩ := Option.isSome_iff_exists.mp
        (block?_isSome.mpr (hall id walked hwalk))
      obtain ⟨reachable, hreachable⟩ := ih (h.visit hblock) (by simp; omega)
      refine ⟨reachable, ?_⟩
      simpa [searchBlocks, hblock, foundBy] using hreachable

structure WellFormedCFG (f : Function n) : Prop where
  linked : f.linked = true
  entry : f.entryBlock ∈ f.blockIds
  reachable : f.AllReachable
  nodup_inEdges : ∀ id ∈ f.blockIds, (f.inEdges id).Nodup

theorem WellFormedCFG.mem_blockIds (h : WellFormedCFG f) {id : BlockId} {walked : List BlockId}
    (hwalk : f.Walk walked id) : id ∈ f.blockIds := by
  cases hwalk with
  | entry => exact h.entry
  | step _ hedge => exact mem_blockIds_of_linked h.linked hedge

theorem checkCFG_iff : checkCFG f = true ↔ WellFormedCFG f := by
  constructor
  · intro hcheck
    unfold checkCFG at hcheck
    split at hcheck
    case h_1 => simp at hcheck
    case h_2 reachable hreachable =>
      have hsearched : Searched f reachable [] := (Searched.start f).of_search hreachable
      simp only [List.all_eq_true, Bool.and_eq_true, decide_eq_true_eq] at hcheck
      have hmem : ∀ id ∈ f.blockIds, id ∈ reachable := by
        intro id hid
        obtain ⟨block, hblock, rfl⟩ := mem_blockIds.mp hid
        exact (hcheck block hblock).1.1
      refine ⟨?_, hsearched.linked _ (by simpa using hsearched.entry), ?_, ?_⟩
      · simp only [linked, List.all_eq_true, decide_eq_true_eq]
        intro block hblock succ hsucc
        refine hsearched.linked succ ?_
        have := hsearched.closed block.id (hcheck block hblock).1.1 succ
          (by rwa [succs_of_mem hblock])
        simpa using this
      · intro id hid
        exact hsearched.walk id (by simpa using hmem id hid)
      · intro id hid
        obtain ⟨block, hblock, rfl⟩ := mem_blockIds.mp hid
        exact (hcheck block hblock).2
  · intro h
    have hall : ∀ id walked, f.Walk walked id → id ∈ f.blockIds :=
      fun id walked hwalk => h.mem_blockIds hwalk
    obtain ⟨reachable, hreachable⟩ : ∃ reachable, reachableBlocks f = some reachable :=
      (Searched.start f).search_isSome hall (by simp)
    have hsearched := (Searched.start f).of_search hreachable
    have hclosed : ∀ id walked, f.Walk walked id → id ∈ reachable := by
      intro id walked hwalk
      induction hwalk with
      | entry => simpa using hsearched.entry
      | step _ hedge ih => simpa using hsearched.closed _ ih _ hedge
    have hmem : ∀ id ∈ f.blockIds, id ∈ reachable := by
      intro id hid
      obtain ⟨walked, hwalk⟩ := h.reachable id hid
      exact hclosed id walked hwalk
    unfold checkCFG
    rw [hreachable]
    simp only [List.all_eq_true, Bool.and_eq_true, decide_eq_true_eq]
    intro block hblock
    have hid : block.id ∈ f.blockIds := mem_blockIds.mpr ⟨block, hblock, rfl⟩
    exact ⟨⟨hmem _ hid, fun pred hpred => hmem pred (mem_blockIds_of_mem_inEdges hpred)⟩,
      h.nodup_inEdges _ hid⟩

/-! ## Instructions -/

variable {assign : Dataflow.State BlockId (Register n)} {id : BlockId}

def definedBy (instrs : List (Instr n)) : List (Register n) := instrs.filterMap Instr.output

structure InstrOk (f : Function n) (assign : Dataflow.State BlockId (Register n)) (id : BlockId)
    (env : CheckEnv n) (pre : List (Instr n)) (instr : Instr n) (post : List (Instr n)) : Prop where
  phiSection : instr.isPhi = true → env.phiSection = true ∧ ∀ i ∈ pre, i.isPhi = true
  phi : instr.isPhi = true → checkPhi f id instr = true
  prologue : instr.isPrologueLoad = true →
    env.allowPrologueLoads = true ∧ ∀ i ∈ pre, i.isPrologueLoad = true
  terminator : instr.opcode.isTerminator = true ↔ post = []
  operands : checkOperands assign (env.defined ∪ (definedBy pre).toFinset) instr = true

variable {env : CheckEnv n}

theorem checkInstrs_not_ok (h : env.ok = false) (instrs : List (Instr n)) :
    (checkInstrs f assign id env instrs).ok = false := by
  induction instrs generalizing env with
  | nil => exact h
  | cons instr rest ih =>
    unfold checkInstrs
    split
    · exact ih rfl
    · exact ih (by simp [h])

theorem instrOk_cons_iff {first instr : Instr n} {pre post : List (Instr n)} :
    InstrOk f assign id env (first :: pre) instr post ↔
      InstrOk f assign id (env.advance first) pre instr post := by
  have hdefined : env.defined ∪ (definedBy (first :: pre)).toFinset =
      (env.advance first).defined ∪ (definedBy pre).toFinset := by
    ext reg
    simp [CheckEnv.advance, definedBy]
  constructor
  · intro h
    refine ⟨fun hphi => ?_, h.phi, fun hload => ?_, h.terminator, hdefined ▸ h.operands⟩
    · obtain ⟨henv, hpre⟩ := h.phiSection hphi
      simp only [mem_cons, forall_eq_or_imp] at hpre
      exact ⟨by simp [CheckEnv.advance, henv, hpre.1], hpre.2⟩
    · obtain ⟨henv, hpre⟩ := h.prologue hload
      simp only [mem_cons, forall_eq_or_imp] at hpre
      exact ⟨by simp [CheckEnv.advance, henv, hpre.1], hpre.2⟩
  · intro h
    refine ⟨fun hphi => ?_, h.phi, fun hload => ?_, h.terminator, hdefined ▸ h.operands⟩
    · obtain ⟨henv, hpre⟩ := h.phiSection hphi
      simp only [CheckEnv.advance, Bool.and_eq_true] at henv
      simp only [mem_cons, forall_eq_or_imp]
      exact ⟨henv.1, henv.2, hpre⟩
    · obtain ⟨henv, hpre⟩ := h.prologue hload
      simp only [CheckEnv.advance, Bool.and_eq_true] at henv
      simp only [mem_cons, forall_eq_or_imp]
      exact ⟨henv.1, henv.2, hpre⟩

theorem instrOk_nil_iff {env : CheckEnv n} {instr : Instr n} {post : List (Instr n)} :
    (InstrOk f assign id env [] instr post ∧ instr.output.all (fun o => o ∉ env.defs) = true) ↔
      (instr.isPhi && !env.phiSection) = false ∧
        checkInstr f assign id env instr post.isEmpty = true := by
  have hlast : instr.opcode.isTerminator = post.isEmpty ↔
      (instr.opcode.isTerminator = true ↔ post = []) := by
    cases post <;> cases instr.opcode.isTerminator <;> simp
  constructor
  · rintro ⟨h, hdefs⟩
    refine ⟨?_, ?_⟩
    · cases hphi : instr.isPhi with
      | false => rfl
      | true => simp [(h.phiSection hphi).1]
    · simp only [checkInstr, Bool.and_eq_true, Bool.or_eq_true, Bool.not_eq_true',
        decide_eq_true_eq, hlast]
      refine ⟨⟨⟨⟨?_, ?_⟩, h.terminator⟩, by simpa [definedBy] using h.operands⟩, hdefs⟩
      · cases hphi : instr.isPhi with
        | false => exact .inl rfl
        | true => exact .inr (h.phi hphi)
      · cases hload : instr.isPrologueLoad with
        | false => exact .inl rfl
        | true => exact .inr (h.prologue hload).1
  · rintro ⟨hsection, hcheck⟩
    simp only [checkInstr, Bool.and_eq_true, Bool.or_eq_true, Bool.not_eq_true',
      decide_eq_true_eq, hlast] at hcheck
    obtain ⟨⟨⟨⟨hphi, hload⟩, hterm⟩, hoperands⟩, hdefs⟩ := hcheck
    refine ⟨⟨fun h => ⟨by simpa [h] using hsection, by simp⟩, fun h => ?_,
      fun h => ⟨?_, by simp⟩, hterm, by simpa [definedBy] using hoperands⟩, hdefs⟩
    · exact hphi.resolve_left (by simp [h])
    · exact hload.resolve_left (by simp [h])

theorem nodup_append_output {defs : List (Register n)} (hdefs : defs.Nodup) (instr : Instr n) :
    (defs ++ instr.output.toList).Nodup ↔ instr.output.all (fun o => o ∉ defs) = true := by
  cases instr.output with
  | none => simp [hdefs]
  | some output =>
    simp only [Option.toList_some, Option.all_some, decide_eq_true_eq]
    rw [nodup_append']
    simp [hdefs]

theorem checkInstrs_ok_iff {env : CheckEnv n} (hdefs : env.defs.Nodup) (instrs : List (Instr n)) :
    (checkInstrs f assign id env instrs).ok = true ↔ env.ok = true ∧
      (∀ pre instr post, instrs = pre ++ instr :: post → InstrOk f assign id env pre instr post) ∧
      (env.defs ++ definedBy instrs).Nodup := by
  induction instrs generalizing env with
  | nil => simp [checkInstrs, definedBy, hdefs]
  | cons instr rest ih =>
    have houtputs : env.defs ++ definedBy (instr :: rest) =
        (env.defs ++ instr.output.toList) ++ definedBy rest := by
      unfold definedBy
      cases h : instr.output <;> simp [h]
    have hsplit : (∀ pre i post, instr :: rest = pre ++ i :: post →
          InstrOk f assign id env pre i post) ↔
        InstrOk f assign id env [] instr rest ∧ ∀ pre i post, rest = pre ++ i :: post →
          InstrOk f assign id (env.advance instr) pre i post := by
      constructor
      · intro h
        refine ⟨h [] instr rest rfl, fun pre i post hrest => instrOk_cons_iff.mp ?_⟩
        exact h (instr :: pre) i post (by simp [hrest])
      · rintro ⟨hfirst, hrest⟩ pre i post heq
        cases pre with
        | nil =>
          obtain ⟨rfl, rfl⟩ : instr = i ∧ rest = post := by simpa using heq
          exact hfirst
        | cons first pre =>
          obtain ⟨rfl, htail⟩ : instr = first ∧ rest = pre ++ i :: post := by simpa using heq
          exact instrOk_cons_iff.mpr (hrest pre i post htail)
    rw [hsplit, houtputs]
    unfold checkInstrs
    split
    case isTrue hsection =>
      rw [checkInstrs_not_ok rfl]
      simp only [Bool.false_eq_true, false_iff, not_and]
      rintro - hok -
      have := (hok.1.phiSection (by simp_all)).1
      simp_all
    case isFalse hsection =>
      have hfirst := @instrOk_nil_iff n f assign id env instr rest
      by_cases hcheck : checkInstr f assign id env instr rest.isEmpty = true
      · obtain ⟨hinstr, hdef⟩ := hfirst.mpr ⟨by simpa using hsection, hcheck⟩
        have hdefs' := (nodup_append_output hdefs instr).mpr hdef
        have hrest := @ih { env.advance instr with ok := env.ok && true }
          (by simpa [CheckEnv.advance] using hdefs')
        rw [hcheck, hrest]
        simp only [Bool.and_true]
        constructor
        · rintro ⟨hok, hrest, hnodup⟩
          exact ⟨hok, ⟨hinstr, hrest⟩, hnodup⟩
        · rintro ⟨hok, ⟨-, hrest⟩, hnodup⟩
          exact ⟨hok, hrest, hnodup⟩
      · rw [checkInstrs_not_ok (by simp [hcheck])]
        simp only [Bool.false_eq_true, false_iff, not_and]
        rintro - ⟨hinstr, -⟩ hnodup
        have hdef := (nodup_append_output hdefs instr).mp (nodup_append'.mp hnodup).1
        exact hcheck (hfirst.mp ⟨hinstr, hdef⟩).2

theorem checkInstrs_defs {instrs : List (Instr n)}
    (h : (checkInstrs f assign id env instrs).ok = true) :
    (checkInstrs f assign id env instrs).defs = env.defs ++ definedBy instrs := by
  induction instrs generalizing env with
  | nil => simp [checkInstrs, definedBy]
  | cons instr rest ih =>
    unfold checkInstrs at h ⊢
    split at h
    case isTrue => simp [checkInstrs_not_ok] at h
    case isFalse hsection =>
      rw [if_neg hsection, ih h]
      unfold CheckEnv.advance definedBy
      cases houtput : instr.output <;> simp [houtput]

def blockEnv (f : Function n) (assign : Dataflow.State BlockId (Register n)) (id : BlockId)
    (env : CheckEnv n) : CheckEnv n :=
  { env with
    defined := assign.before id
    phiSection := true
    allowPrologueLoads := id = f.entryBlock }

def BlockOk (f : Function n) (assign : Dataflow.State BlockId (Register n))
    (block : BasicBlock n) : Prop :=
  block.instrs ≠ [] ∧ ∀ pre instr post, block.instrs = pre ++ instr :: post →
    InstrOk f assign block.id (blockEnv f assign block.id ⟨true, [], ∅, true, true⟩) pre instr post

theorem instrOk_blockEnv {env' : CheckEnv n} {pre post : List (Instr n)} {instr : Instr n} :
    InstrOk f assign id (blockEnv f assign id env) pre instr post ↔
      InstrOk f assign id (blockEnv f assign id env') pre instr post :=
  ⟨fun h => ⟨h.phiSection, h.phi, h.prologue, h.terminator, h.operands⟩,
    fun h => ⟨h.phiSection, h.phi, h.prologue, h.terminator, h.operands⟩⟩

theorem checkBlock_ok_iff {env : CheckEnv n} (hdefs : env.defs.Nodup) (block : BasicBlock n) :
    (checkBlock f assign env block).ok = true ↔
      env.ok = true ∧ BlockOk f assign block ∧ (env.defs ++ block.outputs).Nodup := by
  unfold checkBlock
  split
  case isTrue hempty =>
    simp only [List.isEmpty_iff] at hempty
    simp [BlockOk, hempty]
  case isFalse hempty =>
    simp only [List.isEmpty_iff] at hempty
    refine (@checkInstrs_ok_iff n f assign block.id (blockEnv f assign block.id env) hdefs
      block.instrs).trans ?_
    refine and_congr Iff.rfl (and_congr ⟨fun h => ⟨hempty, ?_⟩, fun h => ?_⟩ Iff.rfl)
    · exact fun pre instr post heq => instrOk_blockEnv.mp (h pre instr post heq)
    · exact fun pre instr post heq => instrOk_blockEnv.mp (h.2 pre instr post heq)

theorem checkBlock_defs (h : (checkBlock f assign env block).ok = true) :
    (checkBlock f assign env block).defs = env.defs ++ block.outputs := by
  unfold checkBlock at h ⊢
  split at h
  case isTrue => simp at h
  case isFalse hempty =>
    rw [if_neg hempty]
    exact checkInstrs_defs h

theorem checkBlock_not_ok (h : env.ok = false) (block : BasicBlock n) :
    (checkBlock f assign env block).ok = false := by
  unfold checkBlock
  split
  · rfl
  · refine checkInstrs_not_ok ?_ _
    exact h

theorem foldl_checkBlock_ok_iff (hdefs : env.defs.Nodup) (blocks : List (BasicBlock n)) :
    (blocks.foldl (checkBlock f assign) env).ok = true ↔ env.ok = true ∧
      (∀ block ∈ blocks, BlockOk f assign block) ∧
      (env.defs ++ blocks.flatMap BasicBlock.outputs).Nodup := by
  induction blocks generalizing env with
  | nil => simp [hdefs]
  | cons block blocks ih =>
    have hnot : ∀ (blocks : List (BasicBlock n)) (env : CheckEnv n), env.ok = false →
        (blocks.foldl (checkBlock f assign) env).ok = false := by
      intro blocks
      induction blocks with
      | nil => exact fun env h => h
      | cons block blocks ih => exact fun env h => ih _ (checkBlock_not_ok h block)
    rw [foldl_cons, forall_mem_cons, flatMap_cons, ← append_assoc]
    have hblock := @checkBlock_ok_iff n f assign env hdefs block
    by_cases hok : (checkBlock f assign env block).ok = true
    · obtain ⟨henv, hthis, hnodup⟩ := hblock.mp hok
      rw [ih (checkBlock_defs hok ▸ hnodup), checkBlock_defs hok]
      simp [hok, henv, hthis]
    · rw [hnot blocks _ (by simpa using hok)]
      simp only [Bool.false_eq_true, false_iff, not_and]
      rintro henv ⟨hthis, -⟩ hnodup
      exact hok (hblock.mpr ⟨henv, hthis, (nodup_append'.mp hnodup).1⟩)

theorem checkFunc_eq_true_iff : checkFunc f = true ↔ WellFormedCFG f ∧
    ∃ assign, f.assignmentAnalysis (.ofFunction f) true = some assign ∧
      (∀ block ∈ f.blocks, BlockOk f assign block) ∧
      (f.blocks.flatMap BasicBlock.outputs).Nodup := by
  unfold checkFunc
  rw [← checkCFG_iff]
  cases checkCFG f with
  | false => simp
  | true =>
    simp only [Bool.not_true, Bool.false_eq_true, if_false, true_and]
    cases f.assignmentAnalysis (.ofFunction f) true with
    | none => simp
    | some assign => simp [foldl_checkBlock_ok_iff]

/-! ## Functions -/

/-- A register is defined on every way to a point, given by a block and the instructions of the
block that have been executed. -/
def Function.DefinedAt (f : Function n) (id : BlockId) (pre : List (Instr n))
    (reg : Register n) : Prop :=
  ∀ walked, f.Walk walked id → f.definesOn walked reg ∨ reg ∈ definedBy pre

structure WellFormed (f : Function n) : Prop where
  cfg : WellFormedCFG f
  /-- No register is defined twice. -/
  nodup_outputs : (f.blocks.flatMap BasicBlock.outputs).Nodup
  nonempty : ∀ block ∈ f.blocks, block.instrs ≠ []
  terminator : ∀ block ∈ f.blocks, ∀ pre instr post, block.instrs = pre ++ instr :: post →
    (instr.opcode.isTerminator = true ↔ post = [])
  phis_first : ∀ block ∈ f.blocks, ∀ pre instr post, block.instrs = pre ++ instr :: post →
    instr.isPhi = true → ∀ i ∈ pre, i.isPhi = true
  phi : ∀ block ∈ f.blocks, ∀ phi ∈ block.instrs, phi.isPhi = true →
    phi.operands ≠ [] ∧ ∀ pred ∈ phi.basicBlocks, pred ∈ f.inEdges block.id
  prologue : ∀ block ∈ f.blocks, ∀ pre instr post, block.instrs = pre ++ instr :: post →
    instr.isPrologueLoad = true →
      block.id = f.entryBlock ∧ ∀ i ∈ pre, i.isPrologueLoad = true
  /-- Operands are defined before they are used. -/
  operands : ∀ block ∈ f.blocks, ∀ pre instr post, block.instrs = pre ++ instr :: post →
    instr.isPhi = false → ∀ reg ∈ instr.operands, f.DefinedAt block.id pre reg
  /-- Operands of phis are defined at the end of the predecessors that they come from. -/
  phi_operands : ∀ block ∈ f.blocks, ∀ phi ∈ block.instrs, phi.isPhi = true →
    ∀ pair ∈ phi.basicBlocks.zip phi.operands, f.DefinedAt pair.1 (f.instrsOf pair.1) pair.2

namespace Function

theorem definedBy_instrsOf (f : Function n) (id : BlockId) :
    definedBy (f.instrsOf id) = f.outputsOf id := by
  unfold instrsOf outputsOf
  cases f.block? id <;> rfl

theorem definedAt_iff (hcfg : WellFormedCFG f)
    (h : f.assignmentAnalysis (.ofFunction f) true = some assign) (hid : id ∈ f.blockIds)
    (pre : List (Instr n)) (reg : Register n) :
    f.DefinedAt id pre reg ↔ reg ∈ assign.before id ∪ (definedBy pre).toFinset := by
  rw [Finset.mem_union, mem_assignedIn hcfg.reachable h hid, List.mem_toFinset]
  simp only [DefinedAt, AssignedOn, if_true, nil_append]
  by_cases hpre : reg ∈ definedBy pre
  · simp [hpre]
  · simp [hpre]

theorem definedAt_end_iff (hcfg : WellFormedCFG f)
    (h : f.assignmentAnalysis (.ofFunction f) true = some assign) (hid : id ∈ f.blockIds)
    (reg : Register n) : f.DefinedAt id (f.instrsOf id) reg ↔ reg ∈ assign.after id := by
  rw [mem_assignedOut hcfg.reachable h hid]
  simp only [DefinedAt, AssignedOn, if_true, definedBy_instrsOf, definesOn, singleton_append,
    mem_cons, exists_eq_or_imp]
  exact forall_congr' fun walked => imp_congr_right fun _ => or_comm

end Function

theorem WellFormed.of_blockOk (hcfg : WellFormedCFG f)
    (h : f.assignmentAnalysis (.ofFunction f) true = some assign)
    (hblocks : ∀ block ∈ f.blocks, BlockOk f assign block)
    (hnodup : (f.blocks.flatMap BasicBlock.outputs).Nodup) : WellFormed f := by
  have hid : ∀ block ∈ f.blocks, block.id ∈ f.blockIds :=
    fun block hblock => mem_blockIds.mpr ⟨block, hblock, rfl⟩
  have hmem : ∀ block ∈ f.blocks, ∀ instr ∈ block.instrs, ∃ pre post,
      InstrOk f assign block.id (blockEnv f assign block.id ⟨true, [], ∅, true, true⟩) pre instr
        post := by
    intro block hblock instr hinstr
    obtain ⟨pre, post, heq⟩ := append_of_mem hinstr
    exact ⟨pre, post, (hblocks block hblock).2 pre instr post heq⟩
  have hphi : ∀ block ∈ f.blocks, ∀ phi ∈ block.instrs, phi.isPhi = true →
      phi.operands ≠ [] ∧ ∀ pred ∈ phi.basicBlocks, pred ∈ f.inEdges block.id := by
    intro block hblock phi hmemphi hisPhi
    obtain ⟨pre, post, hok⟩ := hmem block hblock phi hmemphi
    simpa [checkPhi] using hok.phi hisPhi
  refine ⟨hcfg, hnodup, fun block hblock => (hblocks block hblock).1, ?_, ?_, hphi, ?_, ?_, ?_⟩
  · exact fun block hblock pre instr post heq =>
      ((hblocks block hblock).2 pre instr post heq).terminator
  · exact fun block hblock pre instr post heq hisPhi =>
      (((hblocks block hblock).2 pre instr post heq).phiSection hisPhi).2
  · intro block hblock pre instr post heq hload
    have := ((hblocks block hblock).2 pre instr post heq).prologue hload
    exact ⟨by simpa [blockEnv] using this.1, this.2⟩
  · intro block hblock pre instr post heq hisPhi reg hreg
    have hok := ((hblocks block hblock).2 pre instr post heq).operands
    simp only [checkOperands, hisPhi, Bool.false_eq_true, if_false, List.all_eq_true,
      decide_eq_true_eq] at hok
    exact (definedAt_iff hcfg h (hid block hblock) pre reg).mpr (hok reg hreg)
  · intro block hblock phi hmemphi hisPhi pair hpair
    obtain ⟨pre, post, hok⟩ := hmem block hblock phi hmemphi
    have hoperands := hok.operands
    simp only [checkOperands, hisPhi, if_true, List.all_eq_true, decide_eq_true_eq] at hoperands
    have hpred := (hphi block hblock phi hmemphi hisPhi).2 pair.1 (of_mem_zip hpair).1
    exact (definedAt_end_iff hcfg h (mem_blockIds_of_mem_inEdges hpred)
      pair.2).mpr (hoperands pair hpair)

theorem WellFormed.blockOk (hf : WellFormed f)
    (h : f.assignmentAnalysis (.ofFunction f) true = some assign) {block : BasicBlock n}
    (hblock : block ∈ f.blocks) : BlockOk f assign block := by
  have hid : block.id ∈ f.blockIds := mem_blockIds.mpr ⟨block, hblock, rfl⟩
  refine ⟨hf.nonempty block hblock, fun pre instr post heq => ?_⟩
  have hinstr : instr ∈ block.instrs := by simp [heq]
  refine ⟨fun hphi => ⟨rfl, hf.phis_first block hblock pre instr post heq hphi⟩, fun hphi => ?_,
    fun hload => ?_, hf.terminator block hblock pre instr post heq, ?_⟩
  · simpa [checkPhi] using hf.phi block hblock instr hinstr hphi
  · obtain ⟨hentry, hpre⟩ := hf.prologue block hblock pre instr post heq hload
    exact ⟨by simp [blockEnv, hentry], hpre⟩
  · unfold checkOperands
    split
    case isTrue hphi =>
      simp only [List.all_eq_true, decide_eq_true_eq]
      intro pair hpair
      have hpred := (hf.phi block hblock instr hinstr hphi).2 pair.1 (of_mem_zip hpair).1
      exact (definedAt_end_iff hf.cfg h (mem_blockIds_of_mem_inEdges hpred)
        pair.2).mp (hf.phi_operands block hblock instr hinstr hphi pair hpair)
    case isFalse hphi =>
      simp only [List.all_eq_true, decide_eq_true_eq]
      intro reg hreg
      exact (definedAt_iff hf.cfg h hid pre reg).mp
        (hf.operands block hblock pre instr post heq (by simpa using hphi) reg hreg)

theorem checkFunc_iff : checkFunc f = true ↔ WellFormed f := by
  rw [checkFunc_eq_true_iff]
  constructor
  · rintro ⟨hcfg, assign, h, hblocks, hnodup⟩
    exact .of_blockOk hcfg h hblocks hnodup
  · intro hf
    obtain ⟨assign, h⟩ : ∃ assign, f.assignmentAnalysis (.ofFunction f) true = some assign :=
      assignmentAnalysis_isSome hf.cfg.linked
    exact ⟨hf.cfg, assign, h, fun block hblock => hf.blockOk h hblock, hf.nodup_outputs⟩

/-- What `checkFunc` guarantees: registers are defined once, operands are defined on every way to
their use, phis come first and name predecessors only, every block ends in its only terminator,
and exactly the blocks of the function can be reached. -/
theorem checkFunc_sound (h : checkFunc f = true) :
    (f.blocks.flatMap BasicBlock.outputs).Nodup ∧
    (∀ id, id ∈ f.blockIds ↔ ∃ walked, f.Walk walked id) ∧
    ∀ block ∈ f.blocks, block.instrs ≠ [] ∧
      ∀ pre instr post, block.instrs = pre ++ instr :: post →
        (instr.opcode.isTerminator = true ↔ post = []) ∧
        (instr.isPhi = false → ∀ reg ∈ instr.operands, ∀ walked, f.Walk walked block.id →
          f.definesOn walked reg ∨ reg ∈ definedBy pre) ∧
        (instr.isPhi = true → (∀ i ∈ pre, i.isPhi = true) ∧ instr.operands ≠ [] ∧
          (∀ pred ∈ instr.basicBlocks, pred ∈ f.inEdges block.id) ∧
          ∀ pair ∈ instr.basicBlocks.zip instr.operands, ∀ walked, f.Walk walked pair.1 →
            f.definesOn (pair.1 :: walked) pair.2) := by
  have hf := checkFunc_iff.mp h
  refine ⟨hf.nodup_outputs, fun id => ⟨hf.cfg.reachable id, ?_⟩, fun block hblock =>
    ⟨hf.nonempty block hblock, fun pre instr post heq =>
      ⟨hf.terminator block hblock pre instr post heq, fun hphi => ?_, fun hphi => ?_⟩⟩⟩
  · rintro ⟨walked, hwalk⟩
    exact hf.cfg.mem_blockIds hwalk
  · exact fun reg hreg => hf.operands block hblock pre instr post heq hphi reg hreg
  · have hinstr : instr ∈ block.instrs := by simp [heq]
    obtain ⟨hoperands, hblocks⟩ := hf.phi block hblock instr hinstr hphi
    refine ⟨hf.phis_first block hblock pre instr post heq hphi, hoperands, hblocks, ?_⟩
    intro pair hpair walked hwalk
    have hdefined := hf.phi_operands block hblock instr hinstr hphi pair hpair walked hwalk
    rw [definedBy_instrsOf] at hdefined
    simpa [definesOn, or_comm] using hdefined

def partialPhi : Function 2 := .ofObjects [
    ⟨0, [{ opcode := .kLoadConst, output := some 0 },
      { opcode := .kCondBranch, operands := [0], successors := [1, 2] }]⟩,
    ⟨1, [{ opcode := .kBranch, successors := [3] }]⟩,
    ⟨2, [{ opcode := .kBranch, successors := [3] }]⟩,
    ⟨3, [{ opcode := .kPhi, output := some 1, operands := [0], basicBlocks := [1] },
      { opcode := .kReturn, operands := [1] }]⟩] (by decide)

theorem checkFunc_partialPhi : checkFunc partialPhi = true := by decide

theorem checkFunc_sound_partialPhi :
    checkFunc partialPhi = true ∧ (partialPhi.blocks.flatMap BasicBlock.outputs).Nodup :=
  ⟨checkFunc_partialPhi, (checkFunc_sound checkFunc_partialPhi).1⟩

theorem checkFunc_accepts_partial_phi :
    ¬∀ (n : Nat) (f : Function n), checkFunc f = true → ∀ block ∈ f.blocks,
      ∀ phi ∈ block.instrs, phi.isPhi = true → ∀ pred ∈ f.inEdges block.id,
        pred ∈ phi.basicBlocks := by
  intro hcomplete
  have := hcomplete 2 partialPhi checkFunc_partialPhi
    ⟨3, [{ opcode := .kPhi, output := some 1, operands := [0], basicBlocks := [1] },
      { opcode := .kReturn, operands := [1] }]⟩ (by decide)
    { opcode := .kPhi, output := some 1, operands := [0], basicBlocks := [1] } (by decide) rfl 2
    (by decide)
  exact absurd this (by decide)

end CinderX.Jit.Hir
