import CinderX.Jit.Hir.Exec
import CinderX.Jit.Hir.SsaForm

/-!
# Passes that keep the blocks of a function

Such a pass replaces the instructions of every block.  If it also keeps the
edges, the control flow graph stays as it is.
-/

namespace CinderX.Jit.Hir

open List

variable {n : Nat}

namespace Function

def mapBlocks (f : Function n) (rewrite : BasicBlock n → List (Instr n)) : Function n where
  blocks := f.blocks.map fun block => ⟨block.id, rewrite block⟩
  entryBlock := f.entryBlock
  nodupIds := by simpa [Function.comp_def] using f.nodupIds
  couldBeMortal := f.couldBeMortal
  isObject := f.isObject
  couldBeCPtr := f.couldBeCPtr

variable {f : Function n} {rewrite : BasicBlock n → List (Instr n)}

theorem mem_mapBlocks {block : BasicBlock n} : block ∈ (f.mapBlocks rewrite).blocks ↔
    ∃ old ∈ f.blocks, block = ⟨old.id, rewrite old⟩ := by
  simp [mapBlocks, eq_comm]

variable {rewrite' : BasicBlock n → List (Instr n)}

theorem mapBlocks_congr (h : ∀ block ∈ f.blocks, rewrite block = rewrite' block) :
    f.mapBlocks rewrite = f.mapBlocks rewrite' := by
  simp only [mapBlocks, mk.injEq, and_true]
  exact map_congr_left fun block hblock => by rw [h block hblock]

theorem mapBlocks_self : (f.mapBlocks BasicBlock.instrs) = f := by
  simp [mapBlocks]

theorem mapBlocks_mapBlocks :
    (f.mapBlocks rewrite).mapBlocks rewrite' =
      f.mapBlocks fun block => rewrite' ⟨block.id, rewrite block⟩ := by
  simp [mapBlocks]

theorem blockIds_mapBlocks : (f.mapBlocks rewrite).blockIds = f.blockIds := by
  simp [mapBlocks, blockIds, Function.comp_def]

theorem block?_mapBlocks (id : BlockId) : (f.mapBlocks rewrite).block? id =
    (f.block? id).map fun block => ⟨block.id, rewrite block⟩ := by
  simp only [block?, mapBlocks]
  induction f.blocks with
  | nil => rfl
  | cons block blocks ih =>
    by_cases h : block.id = id
    · simp [h]
    · simp [h, ih]

theorem outputsOf_mapBlocks (id : BlockId) : (f.mapBlocks rewrite).outputsOf id =
    match f.block? id with
    | some block => definedBy (rewrite block)
    | none => [] := by
  unfold outputsOf
  rw [block?_mapBlocks]
  cases f.block? id <;> rfl

def KeepsEdges (f : Function n) (rewrite : BasicBlock n → List (Instr n)) : Prop :=
  ∀ block ∈ f.blocks, (rewrite block).flatMap Instr.successors = block.outEdges

theorem succs_mapBlocks (h : f.KeepsEdges rewrite) (id : BlockId) :
    (f.mapBlocks rewrite).succs id = f.succs id := by
  unfold succs
  rw [block?_mapBlocks]
  cases hfind : f.block? id with
  | none => rfl
  | some block => exact h block (mem_blocks_of_block? hfind)

theorem walk_mapBlocks (h : f.KeepsEdges rewrite) {walked : List BlockId} {id : BlockId} :
    (f.mapBlocks rewrite).Walk walked id ↔ f.Walk walked id := by
  constructor
  · intro hwalk
    induction hwalk with
    | entry => exact .entry
    | step _ hedge ih => exact .step ih (succs_mapBlocks h _ ▸ hedge)
  · intro hwalk
    induction hwalk with
    | entry => exact .entry
    | step _ hedge ih => exact .step ih ((succs_mapBlocks h _).symm ▸ hedge)

theorem inEdges_mapBlocks (h : f.KeepsEdges rewrite) (id : BlockId) :
    (f.mapBlocks rewrite).inEdges id = f.inEdges id := by
  unfold inEdges
  simp only [mapBlocks, flatMap_map]
  refine flatMap_congr fun block hblock => ?_
  rw [BasicBlock.outEdges, h block hblock]

theorem wellFormedCFG_mapBlocks (h : f.KeepsEdges rewrite) (hf : WellFormedCFG f) :
    WellFormedCFG (f.mapBlocks rewrite) := by
  refine ⟨?_, ?_, ?_, ?_⟩
  · simp only [linked, List.all_eq_true, decide_eq_true_eq, blockIds_mapBlocks]
    intro block hblock succ hsucc
    obtain ⟨old, hold, rfl⟩ := mem_mapBlocks.mp hblock
    have hold_succ : succ ∈ f.succs old.id := by
      rw [succs_of_mem hold, ← h old hold]
      exact hsucc
    exact mem_blockIds_of_linked hf.linked hold_succ
  · rw [blockIds_mapBlocks]
    exact hf.entry
  · intro id hid
    obtain ⟨walked, hwalk⟩ := hf.reachable id (blockIds_mapBlocks ▸ hid)
    exact ⟨walked, (walk_mapBlocks h).mpr hwalk⟩
  · intro id hid
    rw [inEdges_mapBlocks h]
    exact hf.nodup_inEdges id (blockIds_mapBlocks ▸ hid)

def filterInstrs (f : Function n) (keep : Instr n → Bool) : Function n :=
  f.mapBlocks fun block => block.instrs.filter keep

variable {keep : Instr n → Bool}

theorem flatMap_successors_filter {instrs : List (Instr n)}
    (hedges : ∀ instr ∈ instrs, keep instr = false → instr.successors = []) :
    (instrs.filter keep).flatMap Instr.successors = instrs.flatMap Instr.successors := by
  induction instrs with
  | nil => rfl
  | cons instr rest ih =>
    have hrest := ih fun other hother => hedges other (mem_cons_of_mem _ hother)
    cases hkeep : keep instr with
    | true =>
      rw [filter_cons_of_pos hkeep, flatMap_cons, flatMap_cons, hrest]
    | false =>
      rw [filter_cons_of_neg (by simp [hkeep]), flatMap_cons, hrest,
        hedges instr mem_cons_self hkeep, nil_append]

theorem definedBy_filter {instrs : List (Instr n)} {reg : Register n}
    (hkeep : ∀ instr ∈ instrs, instr.output = some reg → keep instr = true) :
    reg ∈ definedBy (instrs.filter keep) ↔ reg ∈ definedBy instrs := by
  simp only [definedBy, mem_filterMap, mem_filter]
  constructor
  · rintro ⟨instr, ⟨hinstr, -⟩, houtput⟩
    exact ⟨instr, hinstr, houtput⟩
  · rintro ⟨instr, hinstr, houtput⟩
    exact ⟨instr, ⟨hinstr, hkeep instr hinstr houtput⟩, houtput⟩

end Function

theorem filter_eq_append_cons {α : Type} {keep : α → Bool} {as pre post : List α} {a : α}
    (h : as.filter keep = pre ++ a :: post) :
    ∃ pre' post', as = pre' ++ a :: post' ∧ keep a = true ∧ pre = pre'.filter keep ∧
      post = post'.filter keep := by
  obtain ⟨front, rest, rfl, rfl, hrest⟩ := filter_eq_append_iff.mp h
  obtain ⟨skipped, tail, rfl, hskipped, ha, rfl⟩ := filter_eq_cons_iff.mp hrest
  refine ⟨front ++ skipped, tail, by simp, ha, ?_, rfl⟩
  have : skipped.filter keep = [] := filter_eq_nil_iff.mpr hskipped
  simp [this]

theorem flatMap_eq_append_cons {α β : Type} {g : α → List β} {as : List α} {pre post : List β}
    {b : β} (h : as.flatMap g = pre ++ b :: post) :
    ∃ pre' a post' front back, as = pre' ++ a :: post' ∧ g a = front ++ b :: back ∧
      pre = pre'.flatMap g ++ front := by
  induction as generalizing pre with
  | nil => simp at h
  | cons a as ih =>
    rw [flatMap_cons] at h
    obtain ⟨rest, rfl, hrest⟩ | ⟨rest, hfront, hrest⟩ := append_eq_append_iff.mp h
    · obtain ⟨pre', a', post', front, back, rfl, hsplit, rfl⟩ := ih hrest
      exact ⟨a :: pre', a', post', front, back, rfl, hsplit, by simp⟩
    · cases rest with
      | nil =>
        have hnil : as.flatMap g = [] ++ b :: post := hrest.symm
        obtain ⟨pre', a', post', front, back, rfl, hsplit, heq⟩ := ih hnil
        refine ⟨a :: pre', a', post', front, back, rfl, hsplit, ?_⟩
        rw [flatMap_cons, hfront, append_nil, append_assoc, ← heq,
          append_nil]
      | cons b' rest =>
        obtain ⟨rfl, -⟩ := List.cons.inj hrest
        exact ⟨[], a, as, pre, rest, rfl, hfront, rfl⟩

/-! ## Blocks from phis, a body and a terminator -/

inductive Shaped : List (Instr n) → Prop
  | mk (phis middle : List (Instr n)) (last : Instr n) (hphis : ∀ phi ∈ phis, phi.isPhi = true)
      (hmiddle : ∀ instr ∈ middle, instr.isPhi = false ∧ instr.opcode.isTerminator = false)
      (hlast : last.opcode.isTerminator = true) : Shaped (phis ++ middle ++ [last])

theorem Instr.not_isTerminator_of_isPhi {instr : Instr n} (h : instr.isPhi = true) :
    instr.opcode.isTerminator = false := by
  rw [show instr.opcode = .kPhi by simpa [isPhi] using h]
  rfl

variable {f : Function n} {block : BasicBlock n}

theorem WellFormed.shaped (h : WellFormed f) (hblock : block ∈ f.blocks) :
    Shaped block.instrs := by
  obtain ⟨front, last, heq⟩ : ∃ front last, block.instrs = front ++ [last] :=
    ⟨_, _, (dropLast_append_getLast (h.nonempty block hblock)).symm⟩
  have hlast := (h.terminator block hblock front last [] heq).mpr rfl
  have hnot : ∀ instr ∈ front, instr.opcode.isTerminator = false := by
    intro instr hinstr
    obtain ⟨pre, post, rfl⟩ := append_of_mem hinstr
    by_contra hterm
    have hnil := (h.terminator block hblock pre instr (post ++ [last]) (by simp [heq])).mp
      (by simpa using hterm)
    simp at hnil
  have hsplit : front = front.takeWhile Instr.isPhi ++ front.dropWhile Instr.isPhi :=
    takeWhile_append_dropWhile.symm
  rw [heq, hsplit]
  refine .mk _ _ last (fun phi hphi => mem_takeWhile_imp hphi) (fun instr hinstr => ?_) hlast
  refine ⟨?_, hnot instr (hsplit ▸ mem_append_right _ hinstr)⟩
  by_contra hphi
  -- the first instruction behind the phis would be a phi too
  cases hrest : front.dropWhile Instr.isPhi with
  | nil => simp [hrest] at hinstr
  | cons first rest =>
    have hfirst : first.isPhi = false := by
      have := head?_dropWhile_not Instr.isPhi front
      simpa [hrest] using this
    obtain ⟨pre, post, hpre⟩ := append_of_mem hinstr
    have hfront : front = front.takeWhile Instr.isPhi ++ (pre ++ instr :: post) :=
      hpre ▸ hsplit
    have hall := h.phis_first block hblock (front.takeWhile Instr.isPhi ++ pre) instr
      (post ++ [last]) (by rw [heq]; nth_rewrite 1 [hfront]; simp) (by simpa using hphi)
    cases pre with
    | nil =>
      obtain rfl : first = instr := by
        rw [hrest] at hpre
        simpa using congrArg head? hpre
      exact hphi (by simp [hfirst])
    | cons other pre =>
      obtain rfl : first = other := by
        rw [hrest] at hpre
        simpa using congrArg head? hpre
      simp [hall first (by simp)] at hfirst

namespace Shaped

variable {instrs : List (Instr n)}

theorem ne_nil (h : Shaped instrs) : instrs ≠ [] := by
  cases h
  simp

variable {pre post : List (Instr n)} {instr : Instr n}

theorem phis_first (h : Shaped instrs)
    (heq : instrs = pre ++ instr :: post) (hphi : instr.isPhi = true) :
    ∀ other ∈ pre, other.isPhi = true := by
  cases h with
  | mk phis middle last hphis hmiddle hlast =>
    have hnot : ∀ other ∈ middle ++ [last], other.isPhi = false := by
      intro other hother
      obtain hother | hother := mem_append.mp hother
      · exact (hmiddle other hother).1
      · obtain rfl : other = last := by simpa using hother
        by_contra hother
        simp [Instr.not_isTerminator_of_isPhi (by simpa using hother)] at hlast
    rw [append_assoc] at heq
    obtain ⟨more, rfl, hrest⟩ | ⟨more, rfl, hrest⟩ := append_eq_append_iff.mp heq
    · have := hnot instr (by rw [hrest]; simp)
      simp [hphi] at this
    · exact fun other hother => hphis other (mem_append_left _ hother)

theorem terminator (h : Shaped instrs)
    (heq : instrs = pre ++ instr :: post) : instr.opcode.isTerminator = true ↔ post = [] := by
  cases h with
  | mk phis middle last hphis hmiddle hlast =>
    have hnot : ∀ other ∈ phis ++ middle, other.opcode.isTerminator = false := by
      intro other hother
      obtain hother | hother := mem_append.mp hother
      · exact Instr.not_isTerminator_of_isPhi (hphis other hother)
      · exact (hmiddle other hother).2
    obtain rfl | ⟨front, final, rfl⟩ := post.eq_nil_or_concat'
    · obtain ⟨-, hsame⟩ := append_inj' heq rfl
      obtain rfl : last = instr := by simpa using hsame
      simp [hlast]
    · have hboth : (phis ++ middle) ++ [last] = (pre ++ instr :: front) ++ [final] := by
        rw [heq, append_assoc, cons_append]
      have hfront := (append_inj' hboth rfl).1
      simp [hnot instr (by rw [hfront]; simp)]

end Shaped

theorem WellFormed.of_shaped (hcfg : WellFormedCFG f)
    (hnodup : (f.blocks.flatMap BasicBlock.outputs).Nodup)
    (hshaped : ∀ block ∈ f.blocks, Shaped block.instrs)
    (hprologue : ∀ block ∈ f.blocks, ∀ pre instr post, block.instrs = pre ++ instr :: post →
      instr.isPrologueLoad = true → block.id = f.entryBlock ∧ ∀ i ∈ pre, i.isPrologueLoad = true)
    (hoperands : ∀ block ∈ f.blocks, ∀ pre instr post, block.instrs = pre ++ instr :: post →
      instr.isPhi = false → ∀ reg ∈ instr.operands, f.DefinedAt block.id pre reg)
    (hphis : ∀ block ∈ f.blocks, ∀ phi ∈ block.instrs, phi.isPhi = true → phi.operands ≠ [] ∧
      (∀ pred ∈ phi.basicBlocks, pred ∈ f.inEdges block.id) ∧
      ∀ pair ∈ phi.basicBlocks.zip phi.operands, f.DefinedAt pair.1 (f.instrsOf pair.1) pair.2) :
    WellFormed f where
  cfg := hcfg
  nodup_outputs := hnodup
  nonempty := fun block hblock => (hshaped block hblock).ne_nil
  terminator := fun block hblock _ _ _ heq => (hshaped block hblock).terminator heq
  phis_first := fun block hblock _ _ _ heq hphi => (hshaped block hblock).phis_first heq hphi
  phi := fun block hblock phi hphi hisPhi =>
    ⟨(hphis block hblock phi hphi hisPhi).1, (hphis block hblock phi hphi hisPhi).2.1⟩
  prologue := hprologue
  operands := hoperands
  phi_operands := fun block hblock phi hphi hisPhi => (hphis block hblock phi hphi hisPhi).2.2

theorem InSsaForm.of_shaped (hcfg : WellFormedCFG f)
    (hnodup : (f.blocks.flatMap BasicBlock.outputs).Nodup)
    (hshaped : ∀ block ∈ f.blocks, Shaped block.instrs)
    (hwell : ∀ block ∈ f.blocks, ∀ instr ∈ block.instrs, instr.WellShaped)
    (hprologue : ∀ block ∈ f.blocks, ∀ pre instr post, block.instrs = pre ++ instr :: post →
      instr.isPrologueLoad = true → block.id = f.entryBlock ∧ ∀ i ∈ pre, i.isPrologueLoad = true)
    (huses : ∀ block ∈ f.blocks, ∀ pre instr post, block.instrs = pre ++ instr :: post →
      instr.isPhi = false → ∀ reg ∈ instr.visitUses, f.DefinedAt block.id pre reg)
    (hphis : ∀ block ∈ f.blocks, ∀ phi ∈ block.instrs, phi.isPhi = true → phi.operands ≠ [] ∧
      phi.basicBlocks.length = phi.operands.length ∧ phi.basicBlocks.Perm (f.inEdges block.id) ∧
      ∀ pair ∈ phi.basicBlocks.zip phi.operands, f.DefinedAt pair.1 (f.instrsOf pair.1) pair.2)
    (hentry : ∀ block ∈ f.blocks, block.id = f.entryBlock → ∀ instr ∈ block.instrs,
      instr.isPhi = false) : InSsaForm f where
  wellFormed := by
    refine .of_shaped hcfg hnodup hshaped hprologue (fun block hblock pre instr post heq hphi reg
      hreg => ?_) (fun block hblock phi hphi hisPhi => ?_)
    · exact huses block hblock pre instr post heq hphi reg (by simp [Instr.visitUses, hreg])
    · obtain ⟨hne, -, hperm, hdefined⟩ := hphis block hblock phi hphi hisPhi
      exact ⟨hne, fun pred hpred => hperm.subset hpred, hdefined⟩
  wellShaped := hwell
  uses := huses
  phis := fun block hblock phi hphi hisPhi => by
    obtain ⟨-, hlength, hperm, -⟩ := hphis block hblock phi hphi hisPhi
    exact ⟨hlength, hperm⟩
  entry := hentry

variable {rewrite : BasicBlock n → List (Instr n)}

theorem Function.definedAt_mapBlocks (hedges : f.KeepsEdges rewrite) {reg : Register n}
    (hkeep : ∀ block ∈ f.blocks, reg ∈ block.outputs → reg ∈ definedBy (rewrite block))
    {id : BlockId} {pre pre' : List (Instr n)} (hpre : reg ∈ definedBy pre → reg ∈ definedBy pre')
    (h : f.DefinedAt id pre reg) : (f.mapBlocks rewrite).DefinedAt id pre' reg := by
  intro walked hwalk
  obtain ⟨other, hother, hdef⟩ | hdef := h walked ((walk_mapBlocks hedges).mp hwalk)
  · refine .inl ⟨other, hother, ?_⟩
    cases hfind : f.block? other with
    | none => simp [outputsOf, hfind] at hdef
    | some block =>
      rw [outputsOf, hfind] at hdef
      rw [outputsOf_mapBlocks, hfind]
      exact hkeep block (mem_blocks_of_block? hfind) hdef
  · exact .inr (hpre hdef)

theorem Function.instrsOf_mapBlocks (h : block ∈ f.blocks) :
    (f.mapBlocks rewrite).instrsOf block.id = rewrite block := by
  simp [instrsOf, block?_mapBlocks, block?_of_mem h]

theorem WellFormed.exists_phi_source (h : WellFormed f) (hblock : block ∈ f.blocks) {phi : Instr n}
    (hphi : phi ∈ block.instrs) (hisPhi : phi.isPhi = true) {pair : BlockId × Register n}
    (hpair : pair ∈ phi.basicBlocks.zip phi.operands) :
    ∃ source ∈ f.blocks, source.id = pair.1 ∧ f.DefinedAt source.id source.instrs pair.2 := by
  have hpred := (h.phi block hblock phi hphi hisPhi).2 pair.1 (of_mem_zip hpair).1
  obtain ⟨source, hsource, hid⟩ :=
    Function.mem_blockIds.mp (Function.mem_blockIds_of_mem_inEdges hpred)
  have hdefined := h.phi_operands block hblock phi hphi hisPhi pair hpair
  rw [← hid, Function.instrsOf, Function.block?_of_mem hsource] at hdefined
  exact ⟨source, hsource, hid, hdefined⟩

/-- SSA form is kept too if every phi of the result was there, up to the names of its operands. -/
theorem InSsaForm.of_mapBlocks (h : InSsaForm f) (rename : Register n → Register n)
    (hedges : f.KeepsEdges rewrite)
    (hnodup : ((f.mapBlocks rewrite).blocks.flatMap BasicBlock.outputs).Nodup)
    (hshaped : ∀ block ∈ f.blocks, Shaped (rewrite block))
    (hwell : ∀ block ∈ f.blocks, ∀ instr ∈ rewrite block, instr.WellShaped)
    (hprologue : ∀ block ∈ f.blocks, ∀ pre instr post, rewrite block = pre ++ instr :: post →
      instr.isPrologueLoad = true → block.id = f.entryBlock ∧ ∀ i ∈ pre, i.isPrologueLoad = true)
    (huses : ∀ block ∈ f.blocks, ∀ pre instr post, rewrite block = pre ++ instr :: post →
      instr.isPhi = false → ∀ reg ∈ instr.visitUses,
        (f.mapBlocks rewrite).DefinedAt block.id pre reg)
    (hphis : ∀ block ∈ f.blocks, ∀ phi ∈ rewrite block, phi.isPhi = true →
      ∃ old ∈ block.instrs, old.isPhi = true ∧ phi.basicBlocks = old.basicBlocks ∧
        phi.operands = old.operands.map rename ∧ ∀ source ∈ f.blocks, ∀ reg ∈ old.operands,
          f.DefinedAt source.id source.instrs reg →
            (f.mapBlocks rewrite).DefinedAt source.id (rewrite source) (rename reg)) :
    InSsaForm (f.mapBlocks rewrite) := by
  have hcfg := Function.wellFormedCFG_mapBlocks hedges h.wellFormed.cfg
  refine .of_shaped hcfg hnodup ?_ ?_ ?_ ?_ ?_ ?_ <;> intro block hblock <;>
    obtain ⟨old, hold, rfl⟩ := Function.mem_mapBlocks.mp hblock
  · exact hshaped old hold
  · exact hwell old hold
  · exact hprologue old hold
  · exact huses old hold
  · intro phi hphi hisPhi
    obtain ⟨source, hin, hsource, hblocks, hoperands, hdefined⟩ := hphis old hold phi hphi hisPhi
    obtain ⟨hlength, hperm⟩ := h.phis old hold source hin hsource
    rw [hblocks, hoperands, Function.inEdges_mapBlocks hedges, length_map]
    refine ⟨by simpa using (h.wellFormed.phi old hold source hin hsource).1, hlength, hperm,
      fun pair hpair => ?_⟩
    rw [zip_map_right, List.mem_map] at hpair
    obtain ⟨pair, hpair, rfl⟩ := hpair
    obtain ⟨pred, hpred, hid, hat⟩ := h.wellFormed.exists_phi_source hold hin hsource hpair
    simp only [Prod.map_fst, Prod.map_snd, id_eq]
    rw [← hid, Function.instrsOf_mapBlocks hpred]
    exact hdefined pred hpred pair.2 (of_mem_zip hpair).2 hat
  · intro hid instr hinstr
    by_contra hne
    obtain ⟨source, hin, hsource, -⟩ := hphis old hold instr hinstr (by simpa using hne)
    exact absurd (h.entry old hold hid source hin) (by simp [hsource])

/-- If a block and what it is rewritten to look alike and keep a relation between the registers,
the runs of the functions look alike, as long as the events of the first are as expected. -/
theorem Function.execute_mapBlocks {V W β : Type} {exec : Request V → W → Outcome V W}
    {P : Event n V → Prop} {R : BasicBlock n → (Register n → V) → (Register n → V) → Prop}
    {obs obs' : Event n V → Option β}
    (hblock : ∀ block ∈ f.blocks, ∀ regs regs' world, R block regs regs' →
      (∀ event ∈ (execInstrs exec block.body regs world).1, P event) →
      Alike obs obs' (fun succ regs regs' => ∀ target ∈ f.blocks, target.id = succ →
      R target (target.takeEdge block.id regs) (BasicBlock.takeEdge ⟨target.id,
      rewrite target⟩ block.id regs')) (execInstrs exec block.body regs world) (execInstrs exec
      (BasicBlock.body ⟨block.id, rewrite block⟩) regs' world))
    (fuel : Nat) {regs regs' : Register n → V} (world : W)
    (hregs : ∀ block, f.block? f.entryBlock = some block → R block regs regs')
    (hall : ∀ event ∈ (f.execute exec fuel regs world).1, P event) :
    observe obs (f.execute exec fuel regs world) =
      observe obs' ((f.mapBlocks rewrite).execute exec fuel regs' world) := by
  unfold execute at hall ⊢
  change _ = observe obs' ((f.mapBlocks rewrite).run exec fuel f.entryBlock regs' world)
  generalize f.entryBlock = id at hregs hall ⊢
  induction fuel generalizing id regs regs' world with
  | zero => rfl
  | succ fuel ih =>
    simp only [run, block?_mapBlocks] at hall ⊢
    cases hfind : f.block? id with
    | none => simp [observe]
    | some block =>
      obtain rfl := id_of_block? hfind
      have hboth := hblock block (mem_blocks_of_block? hfind) regs regs' world
        (hregs block hfind)
      simp only [hfind, Option.map_some] at hall ⊢
      cases hrun : execInstrs exec block.body regs world with
      | mk events exit =>
      cases hrun' : execInstrs exec (BasicBlock.body ⟨block.id, rewrite block⟩) regs' world with
      | mk events' exit' =>
      rw [hrun] at hall
      rw [hrun, hrun'] at hboth
      have hfirst : ∀ event ∈ events, P event := by
        intro event hevent
        cases exit with
        | leave | stuck => exact hall event hevent
        | jump succ regs world =>
          refine hall event ?_
          simp only
          cases f.block? succ with
          | none => exact hevent
          | some target => exact mem_append_left _ hevent
      obtain ⟨hevents, hexit⟩ := hboth hfirst
      simp only at hevents
      cases hexit with
      | stuck => simp [observe, hevents]
      | leave => simp [observe, hevents]
      | @jump succ regs regs' world hrel =>
        cases hsucc : f.block? succ with
        | none => simp [hsucc, observe, hevents]
        | some target =>
          have hlater := ih world succ (fun other hother => by
              obtain rfl : target = other := by simpa [hsucc] using hother
              exact hrel target (mem_blocks_of_block? hsucc) (id_of_block? hsucc))
            fun event hevent => hall event (by
              simp only [hsucc]
              exact mem_append_right _ hevent)
          simp only [observe, Prod.mk.injEq] at hlater
          simp [hsucc, observe, hevents, hlater.1, hlater.2]

end CinderX.Jit.Hir
