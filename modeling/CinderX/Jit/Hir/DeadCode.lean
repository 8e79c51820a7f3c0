import CinderX.Foundation.Closure
import CinderX.Foundation.Fold
import CinderX.Jit.Hir.Rewrite

/-!
# Dead code elimination

The instructions that are useful by themselves and those that define what they
use, directly or through others, are kept.
-/

namespace CinderX.Jit.Hir

open Foundation List Hir.Function

variable {n : Nat} {f : Function n}

def isUseful (freeThreaded : Bool) (instr : Instr n) : Bool :=
  instr.opcode.isTerminator || instr.opcode = .kSnapshot || instr.opcode = .kUseObj ||
    (instr.deopt.isSome && instr.opcode ≠ .kPrimitiveBox) ||
    (!instr.isPhi &&
      (memoryEffects freeThreaded instr).any fun effects => effects.mayStore ≠ AliasClass.AEmpty)

namespace Function

def instrs (f : Function n) : List (Instr n) := f.blocks.flatMap BasicBlock.instrs

def usedInstrs (f : Function n) (instr : Instr n) : Option (List (Instr n)) :=
  instr.visitUses.mapM f.instr?

/-- Every instruction is expanded at most once, and then adds at most one for each of its uses. -/
def markFuel (f : Function n) : Nat :=
  f.instrs.length + (f.instrs.map fun instr => instr.visitUses.length).sum

def liveSet (f : Function n) (freeThreaded : Bool) : Option (List (Instr n)) :=
  closure f.usedInstrs f.markFuel (pushAll [] (f.instrs.filter (isUseful freeThreaded))) []

end Function

def deadCodeElimination (freeThreaded : Bool) (f : Function n) : Option (Function n) :=
  (f.liveSet freeThreaded).map fun live => f.filterInstrs fun instr => instr ∈ live

namespace Function

theorem mem_instrs {instr : Instr n} :
    instr ∈ f.instrs ↔ ∃ block ∈ f.blocks, instr ∈ block.instrs := by
  simp [instrs]

theorem outputs_eq (f : Function n) :
    f.blocks.flatMap BasicBlock.outputs = f.instrs.filterMap Instr.output := by
  rw [instrs, filterMap_flatMap]
  rfl

theorem instrs_filterInstrs {keep : Instr n → Bool} :
    (f.filterInstrs keep).instrs = f.instrs.filter keep := by
  simp [filterInstrs, mapBlocks, instrs, flatMap_map, filter_flatMap]

theorem mem_instrs_of_instr? {reg : Register n} {instr : Instr n} (h : f.instr? reg = some instr) :
    instr ∈ f.instrs ∧ instr.output = some reg :=
  ⟨mem_of_find?_eq_some h, by simpa using find?_some h⟩

end Function

variable {instr : Instr n} {reg : Register n} {other : Instr n}

theorem Function.def_unique (h : (f.blocks.flatMap BasicBlock.outputs).Nodup)
    (hinstr : instr ∈ f.instrs) (hother : other ∈ f.instrs) (hreg : instr.output = some reg)
    (hreg' : other.output = some reg) : instr = other := by
  have hnodup : (f.instrs.filterMap Instr.output).Nodup := Function.outputs_eq f ▸ h
  exact eq_of_nodup_filterMap hnodup hinstr hother hreg hreg'

theorem WellFormed.def_unique (h : WellFormed f) (hinstr : instr ∈ f.instrs)
    (hother : other ∈ f.instrs) (hreg : instr.output = some reg) (hreg' : other.output = some reg) :
    instr = other :=
  Function.def_unique h.nodup_outputs hinstr hother hreg hreg'

theorem Function.DefinedAt.exists_def (hcfg : WellFormedCFG f) {id : BlockId}
    {pre : List (Instr n)} (hid : id ∈ f.blockIds) (hpre : ∀ instr ∈ pre, instr ∈ f.instrs)
    (h : f.DefinedAt id pre reg) :
    ∃ instr, f.instr? reg = some instr := by
  obtain ⟨instr, hinstr, houtput⟩ : ∃ instr ∈ f.instrs, instr.output = some reg := by
    obtain ⟨walked, hwalk⟩ := hcfg.reachable id hid
    obtain ⟨other, -, hother⟩ | hmem := h walked hwalk
    · unfold outputsOf at hother
      split at hother
      case h_1 block hblock =>
        obtain ⟨instr, hinstr, houtput⟩ := mem_filterMap.mp hother
        exact ⟨instr, mem_instrs.mpr ⟨block, mem_blocks_of_block? hblock, hinstr⟩, houtput⟩
      case h_2 => simp at hother
    · obtain ⟨instr, hinstr, houtput⟩ := mem_filterMap.mp hmem
      exact ⟨instr, hpre instr hinstr, houtput⟩
  cases hfind : f.instr? reg with
  | none =>
    have := find?_eq_none.mp hfind instr hinstr
    simp [houtput] at this
  | some other => exact ⟨other, rfl⟩

theorem InSsaForm.exists_def (h : InSsaForm f) (hinstr : instr ∈ f.instrs)
    (hreg : reg ∈ instr.visitUses) : ∃ d, f.instr? reg = some d := by
  obtain ⟨block, hblock, hmem⟩ := mem_instrs.mp hinstr
  have hcfg := h.wellFormed.cfg
  cases hisPhi : instr.isPhi with
  | true =>
    obtain ⟨hlength, -⟩ := h.phis block hblock instr hmem hisPhi
    rw [(h.wellShaped block hblock instr hmem).phi hisPhi] at hreg
    obtain ⟨i, hi, hget⟩ := mem_iff_getElem.mp hreg
    have hpair : (instr.basicBlocks[i], reg) ∈ instr.basicBlocks.zip instr.operands :=
      mem_iff_getElem.mpr ⟨i, by simp [hlength, hi], by simp [hget]⟩
    have hpred := (h.wellFormed.phi block hblock instr hmem hisPhi).2 _ (of_mem_zip hpair).1
    refine (h.wellFormed.phi_operands block hblock instr hmem hisPhi _ hpair).exists_def hcfg
      (mem_blockIds_of_mem_inEdges hpred) fun d hd => ?_
    unfold instrsOf at hd
    split at hd
    case h_1 pred hfind =>
      exact mem_instrs.mpr ⟨pred, mem_blocks_of_block? hfind, hd⟩
    case h_2 => simp at hd
  | false =>
    obtain ⟨pre, post, heq⟩ := append_of_mem hmem
    refine (h.uses block hblock pre instr post heq hisPhi reg hreg).exists_def hcfg
      (mem_blockIds.mpr ⟨block, hblock, rfl⟩) fun d hd => ?_
    exact mem_instrs.mpr ⟨block, hblock, by simp [heq, hd]⟩

/-- A set of instructions that holds the useful ones and the definitions of what is used. -/
structure Function.Marked (f : Function n) (freeThreaded : Bool) (live : List (Instr n)) :
    Prop where
  useful : ∀ instr ∈ f.instrs, isUseful freeThreaded instr = true → instr ∈ live
  closed : ∀ instr ∈ live, ∀ reg ∈ instr.visitUses, ∃ d ∈ live, f.instr? reg = some d

variable {freeThreaded : Bool} {live : List (Instr n)}

theorem Function.marked_of_liveSet (h : f.liveSet freeThreaded = some live) :
    f.Marked freeThreaded live := by
  obtain ⟨hmem, hclosed⟩ := closure_closed h (by simp [Expanded])
  refine ⟨fun instr hinstr huseful => hmem instr (.inl ?_), fun instr hinstr reg hreg => ?_⟩
  · exact mem_pushAll.mpr (.inr (mem_filter.mpr ⟨hinstr, huseful⟩))
  · obtain ⟨found, hfound, hall⟩ := hclosed instr hinstr
    obtain ⟨d, hd, heq⟩ := exists_mem_of_mapM hfound hreg
    exact ⟨d, by simpa using hall d hd, heq⟩

theorem InSsaForm.liveSet_isSome (h : InSsaForm f) (freeThreaded : Bool) :
    ∃ live, f.liveSet freeThreaded = some live := by
  have hnext : ∀ instr ∈ f.instrs.toFinset, ∃ found, f.usedInstrs instr = some found ∧
      ∀ d ∈ found, d ∈ f.instrs.toFinset := by
    intro instr hinstr
    obtain ⟨found, hfound⟩ : ∃ found, f.usedInstrs instr = some found :=
      mapM_isSome fun reg hreg => h.exists_def (List.mem_toFinset.mp hinstr) hreg
    refine ⟨found, hfound, fun d hd => ?_⟩
    obtain ⟨reg, -, hreg⟩ := exists_of_mem_mapM hfound hd
    exact List.mem_toFinset.mpr (mem_instrs_of_instr? hreg).1
  refine closure_isSome hnext ?_ ?_
  · intro instr hinstr
    obtain hinstr | hinstr := mem_pushAll.mp hinstr
    · simp at hinstr
    · exact List.mem_toFinset.mpr (mem_filter.mp hinstr).1
  · refine (pending_le _ _ _ _).trans (Nat.add_le_add ?_ ?_)
    · refine (length_pushAll_le _ _).trans ?_
      simpa using length_filter_le _ _
    · refine sum_le_sum fun instr hinstr => ?_
      obtain ⟨found, hfound, -⟩ := hnext instr (List.mem_toFinset.mpr hinstr)
      simp [hfound, (mapM_eq_some_iff.mp hfound).length_eq]

/-! ## The result is accepted -/

theorem InSsaForm.mem_live (h : InSsaForm f) (hlive : f.Marked freeThreaded live)
    (hinstr : instr ∈ live) (hreg : reg ∈ instr.visitUses) {d : Instr n} (hd : d ∈ f.instrs)
    (houtput : d.output = some reg) : d ∈ live := by
  obtain ⟨other, hother, hfind⟩ := hlive.closed instr hinstr reg hreg
  obtain ⟨hmem, houtput'⟩ := mem_instrs_of_instr? hfind
  rwa [h.wellFormed.def_unique hd hmem houtput houtput']

theorem operands_subset_visitUses (h : reg ∈ instr.operands) : reg ∈ instr.visitUses := by
  simp [Instr.visitUses, h]

namespace Function

variable {keep : Instr n → Bool} {id : BlockId}

theorem definedAt_filterInstrs
    (hedges : f.KeepsEdges fun block => block.instrs.filter keep) {reg : Register n}
    (hreg : ∀ d ∈ f.instrs, d.output = some reg → keep d = true)
    {pre : List (Instr n)} (hpre : ∀ instr ∈ pre, instr ∈ f.instrs)
    (h : f.DefinedAt id pre reg) : (f.filterInstrs keep).DefinedAt id (pre.filter keep) reg := by
  refine definedAt_mapBlocks hedges (fun block hblock => ?_) ?_ h
  · exact (definedBy_filter fun d hd => hreg d (mem_instrs.mpr ⟨block, hblock, hd⟩)).mpr
  · exact (definedBy_filter fun d hd => hreg d (hpre d hd)).mpr

theorem instrsOf_filterInstrs (id : BlockId) :
    (f.filterInstrs keep).instrsOf id = (f.instrsOf id).filter keep := by
  unfold instrsOf
  rw [filterInstrs, block?_mapBlocks]
  cases f.block? id <;> rfl

theorem mem_instrs_of_mem_instrsOf {instr : Instr n}
    (h : instr ∈ f.instrsOf id) : instr ∈ f.instrs := by
  unfold instrsOf at h
  split at h
  case h_1 block hblock => exact mem_instrs.mpr ⟨block, mem_blocks_of_block? hblock, h⟩
  case h_2 => simp at h

end Function

theorem Function.Marked.mem_of_isTerminator (hlive : f.Marked freeThreaded live)
    {instr : Instr n} (hinstr : instr ∈ f.instrs) (hterm : instr.opcode.isTerminator = true) :
    instr ∈ live :=
  hlive.useful instr hinstr (by simp [isUseful, hterm])

section

variable (h : InSsaForm f) (hlive : f.Marked freeThreaded live)

include h hlive

theorem InSsaForm.keepsEdges_filter :
    f.KeepsEdges fun block => block.instrs.filter fun instr => instr ∈ live := by
  intro block hblock
  have hall : ∀ instr ∈ block.instrs, instr ∉ live → instr.successors = [] := by
    intro instr hinstr hnot
    by_contra hne
    have hmem := mem_instrs.mpr ⟨block, hblock, hinstr⟩
    exact hnot (hlive.mem_of_isTerminator hmem
      ((h.wellShaped block hblock instr hinstr).successors hne))
  exact flatMap_successors_filter fun instr hinstr hkeep =>
    hall instr hinstr (by simpa using hkeep)

theorem InSsaForm.filter_ne_nil {block : BasicBlock n} (hblock : block ∈ f.blocks)
    {pre post : List (Instr n)} (heq : block.instrs = pre ++ post) (hpost : post ≠ []) :
    post.filter (fun instr => instr ∈ live) ≠ [] := by
  have hlast : post = post.dropLast ++ [post.getLast hpost] :=
    (dropLast_append_getLast hpost).symm
  have hterm := (h.wellFormed.terminator block hblock (pre ++ post.dropLast) (post.getLast hpost)
    [] (by rw [heq, append_assoc, ← hlast])).mpr rfl
  have hmem : post.getLast hpost ∈ block.instrs := by
    rw [heq]
    exact mem_append_right _ (getLast_mem hpost)
  intro hnil
  have := filter_eq_nil_iff.mp hnil _ (getLast_mem hpost)
  exact this (by simpa using hlive.mem_of_isTerminator (mem_instrs.mpr ⟨block, hblock, hmem⟩) hterm)

theorem InSsaForm.wellFormed_filterInstrs :
    WellFormed (f.filterInstrs fun instr => instr ∈ live) := by
  have hedges := h.keepsEdges_filter hlive
  have hf := h.wellFormed
  have hlifts : ∀ {instr : Instr n}, instr ∈ live → ∀ reg ∈ instr.operands, ∀ d ∈ f.instrs,
      d.output = some reg → decide (d ∈ live) = true := by
    intro instr hinstr reg hreg d hd houtput
    simpa using h.mem_live hlive hinstr (operands_subset_visitUses hreg) hd houtput
  refine ⟨wellFormedCFG_mapBlocks hedges hf.cfg, ?_, ?_, ?_, ?_, ?_, ?_, ?_, ?_⟩
  · rw [outputs_eq, instrs_filterInstrs]
    exact (filter_sublist.filterMap _).nodup (outputs_eq f ▸ hf.nodup_outputs)
  · intro block hblock
    obtain ⟨old, hold, rfl⟩ := mem_mapBlocks.mp hblock
    exact h.filter_ne_nil hlive hold (nil_append _).symm (hf.nonempty old hold)
  · intro block hblock pre instr post heq
    obtain ⟨old, hold, rfl⟩ := mem_mapBlocks.mp hblock
    obtain ⟨pre', post', heq', -, rfl, rfl⟩ := filter_eq_append_cons heq
    rw [hf.terminator old hold pre' instr post' heq']
    constructor
    · rintro rfl
      rfl
    · intro hnil
      by_contra hne
      exact h.filter_ne_nil hlive hold (heq'.trans (append_cons pre' instr post')) hne hnil
  · intro block hblock pre instr post heq hphi other hother
    obtain ⟨old, hold, rfl⟩ := mem_mapBlocks.mp hblock
    obtain ⟨pre', post', heq', -, rfl, rfl⟩ := filter_eq_append_cons heq
    exact hf.phis_first old hold pre' instr post' heq' hphi other (mem_filter.mp hother).1
  · intro block hblock phi hphi hisPhi
    obtain ⟨old, hold, rfl⟩ := mem_mapBlocks.mp hblock
    rw [filterInstrs, inEdges_mapBlocks hedges]
    exact hf.phi old hold phi (mem_filter.mp hphi).1 hisPhi
  · intro block hblock pre instr post heq hload
    obtain ⟨old, hold, rfl⟩ := mem_mapBlocks.mp hblock
    obtain ⟨pre', post', heq', -, rfl, rfl⟩ := filter_eq_append_cons heq
    obtain ⟨hentry, hall⟩ := hf.prologue old hold pre' instr post' heq' hload
    exact ⟨hentry, fun other hother => hall other (mem_filter.mp hother).1⟩
  · intro block hblock pre instr post heq hphi reg hreg
    obtain ⟨old, hold, rfl⟩ := mem_mapBlocks.mp hblock
    obtain ⟨pre', post', heq', hkept, rfl, rfl⟩ := filter_eq_append_cons heq
    refine definedAt_filterInstrs hedges (hlifts (by simpa using hkept) reg hreg) ?_
      (hf.operands old hold pre' instr post' heq' hphi reg hreg)
    exact fun other hother => mem_instrs.mpr ⟨old, hold, by simp [heq', hother]⟩
  · intro block hblock phi hphi hisPhi pair hpair
    obtain ⟨old, hold, rfl⟩ := mem_mapBlocks.mp hblock
    obtain ⟨hphi, hmem⟩ := mem_filter.mp hphi
    rw [instrsOf_filterInstrs]
    exact definedAt_filterInstrs hedges (hlifts (by simpa using hmem) pair.2 (of_mem_zip hpair).2)
      (fun other hother => mem_instrs_of_mem_instrsOf hother)
      (hf.phi_operands old hold phi hphi hisPhi pair hpair)

end

end CinderX.Jit.Hir
