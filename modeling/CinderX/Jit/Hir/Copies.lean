import CinderX.Foundation.Chase
import CinderX.Jit.Hir.DeadCodeSound

/-!
# Registers that are copies of others

An `Assign` copies its operand, and so does a phi whose operands other than
itself are all one register.  Where a copy is defined, the register it is a
copy of is defined too and has the same value.
-/

namespace CinderX.Jit.Hir

open List Hir.Function BasicBlock

variable {n : Nat} {f : Function n} {x y : Register n} {id : BlockId}

namespace Instr

def isTrivialFrom (out : Option (Register n)) :
    Option (Register n) → List (Register n) → Option (Register n)
  | val, [] => val
  | val, reg :: regs =>
    if some reg ≠ out ∧ some reg ≠ val then
      if val.isSome then none else isTrivialFrom out (some reg) regs
    else isTrivialFrom out val regs

def isTrivial (phi : Instr n) : Option (Register n) := isTrivialFrom phi.output none phi.operands

theorem isTrivialFrom_some {out : Option (Register n)} {regs : List (Register n)} :
    isTrivialFrom out (some x) regs = some y ↔ x = y ∧ ∀ reg ∈ regs, some reg = out ∨ reg = y := by
  induction regs with
  | nil => simp [isTrivialFrom]
  | cons reg regs ih =>
    simp only [isTrivialFrom, Option.isSome_some, if_true]
    split
    case isTrue h =>
      simp only [forall_mem_cons, reduceCtorEq, false_iff]
      rintro ⟨rfl, hreg, -⟩
      simp only [ne_eq, Option.some.injEq] at h
      tauto
    case isFalse h =>
      simp only [ih, forall_mem_cons]
      simp only [ne_eq, Option.some.injEq] at h
      constructor
      · rintro ⟨rfl, hall⟩
        exact ⟨rfl, by tauto, hall⟩
      · rintro ⟨rfl, -, hall⟩
        exact ⟨rfl, hall⟩

theorem isTrivialFrom_none {out : Option (Register n)} {regs : List (Register n)} :
    isTrivialFrom out none regs = some y ↔
      some y ≠ out ∧ y ∈ regs ∧ ∀ reg ∈ regs, some reg = out ∨ reg = y := by
  induction regs with
  | nil => simp [isTrivialFrom]
  | cons reg regs ih =>
    simp only [isTrivialFrom, Option.isSome_none, ne_eq, reduceCtorEq, not_false_eq_true,
      and_true]
    split
    case isTrue h =>
      rw [forall_mem_cons, mem_cons]
      simp only [if_false, isTrivialFrom_some]
      constructor
      · rintro ⟨rfl, hall⟩
        exact ⟨h, .inl rfl, .inr rfl, hall⟩
      · rintro ⟨-, -, hreg, hall⟩
        exact ⟨hreg.resolve_left h, hall⟩
    case isFalse h =>
      have hreg : some reg = out := not_not.mp h
      rw [forall_mem_cons, mem_cons, ih]
      constructor
      · rintro ⟨hy, hmem, hall⟩
        exact ⟨hy, .inr hmem, .inl hreg, hall⟩
      · rintro ⟨hy, rfl | hmem, -, hall⟩
        · exact absurd hreg hy
        · exact ⟨hy, hmem, hall⟩

theorem isTrivial_eq_some {phi : Instr n} : phi.isTrivial = some y ↔
    phi.output ≠ some y ∧ y ∈ phi.operands ∧
      ∀ reg ∈ phi.operands, phi.output = some reg ∨ reg = y := by
  rw [isTrivial, isTrivialFrom_none, ne_comm]
  simp only [eq_comm (a := phi.output)]

end Instr

/-! ## Copies -/

def Instr.Copies (instr : Instr n) (y : Register n) : Prop :=
  instr.opcode = .kAssign ∧ instr.operands = [y] ∨
    instr.isPhi = true ∧ instr.isTrivial = some y

def Function.CopyOf (f : Function n) (x y : Register n) : Prop :=
  ∃ instr ∈ f.instrs, instr.output = some x ∧ instr.Copies y

namespace Function

theorem Walk.split {walked : List BlockId} {other : BlockId} (h : f.Walk walked id)
    (hmem : other ∈ walked) :
    ∃ later earlier, walked = later ++ other :: earlier ∧ f.Walk earlier other := by
  induction h with
  | entry => simp at hmem
  | @step walked id succ h hedge ih =>
    obtain rfl | hmem := mem_cons.mp hmem
    · exact ⟨[], walked, rfl, h⟩
    · obtain ⟨later, earlier, rfl, hwalk⟩ := ih hmem
      exact ⟨id :: later, earlier, rfl, hwalk⟩

theorem definesOn_append {walked earlier : List BlockId} (h : f.definesOn earlier x)
    (later : List BlockId) (heq : walked = later ++ earlier) : f.definesOn walked x := by
  obtain ⟨id, hid, hx⟩ := h
  exact ⟨id, heq ▸ mem_append_right _ hid, hx⟩

theorem instrsOf_of_mem {block : BasicBlock n} (h : block ∈ f.blocks) :
    f.instrsOf block.id = block.instrs := by
  simp [instrsOf, block?_of_mem h]

theorem mem_outputsOf {reg : Register n} : reg ∈ f.outputsOf id ↔
    ∃ block ∈ f.blocks, block.id = id ∧ reg ∈ block.outputs := by
  constructor
  · intro h
    unfold outputsOf at h
    split at h
    case h_1 block hblock => exact ⟨block, mem_blocks_of_block? hblock, id_of_block? hblock, h⟩
    case h_2 => simp at h
  · rintro ⟨block, hblock, rfl, hreg⟩
    rwa [outputsOf_of_mem hblock]

end Function

theorem WellFormed.outputsOf_unique (h : WellFormed f) {other : BlockId}
    (hid : x ∈ f.outputsOf id) (hother : x ∈ f.outputsOf other) : id = other := by
  obtain ⟨block, hblock, rfl, hx⟩ := mem_outputsOf.mp hid
  obtain ⟨block', hblock', rfl, hx'⟩ := mem_outputsOf.mp hother
  rw [h.block_unique hblock hblock' hx hx']

variable {block : BasicBlock n} {instr : Instr n}

theorem BasicBlock.mem_outputs (hinstr : instr ∈ block.instrs) (hx : instr.output = some x) :
    x ∈ block.outputs :=
  mem_filterMap.mpr ⟨instr, hinstr, hx⟩

namespace InSsaForm

variable (h : InSsaForm f)

include h

theorem exists_phiOperand {block : BasicBlock n} (hblock : block ∈ f.blocks) {phi : Instr n}
    (hphi : phi ∈ block.instrs) (hisPhi : phi.isPhi = true) {pred : BlockId}
    (hedge : block.id ∈ f.succs pred) : ∃ operand, phi.phiOperand? pred = some operand ∧
      operand ∈ phi.operands ∧ f.DefinedAt pred (f.instrsOf pred) operand := by
  obtain ⟨hlength, hperm⟩ := h.phis block hblock phi hphi hisPhi
  have hmem : pred ∈ phi.basicBlocks := hperm.mem_iff.mpr (mem_inEdges.mpr hedge)
  obtain ⟨i, hi, rfl⟩ := mem_iff_getElem.mp hmem
  have hpair : (phi.basicBlocks[i], phi.operands[i]) ∈ phi.basicBlocks.zip phi.operands :=
    mem_iff_getElem.mpr ⟨i, by simp; omega, by simp⟩
  cases hfind : (phi.basicBlocks.zip phi.operands).find? fun pair =>
      pair.1 = phi.basicBlocks[i] with
  | none => simpa using find?_eq_none.mp hfind _ hpair
  | some pair =>
    have hfound := mem_of_find?_eq_some hfind
    have hpred : pair.1 = phi.basicBlocks[i] := by simpa using find?_some hfind
    refine ⟨pair.2, by simp [Instr.phiOperand?, hfind], (of_mem_zip hfound).2, ?_⟩
    rw [← hpred]
    exact h.wellFormed.phi_operands block hblock phi hphi hisPhi pair hfound

theorem definesOn_of_isTrivial {block : BasicBlock n} (hblock : block ∈ f.blocks) {phi : Instr n}
    (hphi : phi ∈ block.instrs) (hisPhi : phi.isPhi = true) (htrivial : phi.isTrivial = some y)
    {walked : List BlockId} (hwalk : f.Walk walked block.id) : f.definesOn walked y := by
  induction hlength : walked.length using Nat.strong_induction_on generalizing walked with
  | _ length ih =>
    generalize hid : block.id = id at hwalk
    cases hwalk with
    | entry => simp [h.entry block hblock hid phi hphi] at hisPhi
    | @step walked pred _ hwalk hedge =>
      obtain ⟨operand, -, hoperand, hdefined⟩ := h.exists_phiOperand hblock hphi hisPhi
        (hid ▸ hedge)
      have hon : f.definesOn (pred :: walked) operand := by
        obtain ⟨other, hother, hout⟩ | hout := hdefined walked hwalk
        · exact ⟨other, by simp [hother], hout⟩
        · exact ⟨pred, by simp, definedBy_instrsOf f pred ▸ hout⟩
      obtain houtput | rfl := (Instr.isTrivial_eq_some.mp htrivial).2.2 operand hoperand
      · obtain ⟨other, hother, hout⟩ := hon
        have hsame : other = block.id := h.wellFormed.outputsOf_unique hout
          (mem_outputsOf.mpr ⟨block, hblock, rfl, mem_outputs hphi houtput⟩)
        have hfull : f.Walk (pred :: walked) block.id := hid ▸ .step hwalk hedge
        obtain ⟨later, earlier, heq, hearlier⟩ := hfull.split (hsame ▸ hother)
        have hlt : earlier.length < length := by
          rw [← hlength, heq]
          simp
          omega
        refine definesOn_append (ih _ hlt hearlier rfl) (later ++ [block.id]) ?_
        simpa using heq
      · exact hon

end InSsaForm

theorem InSsaForm.uses_of_split (h : InSsaForm f) (hblock : block ∈ f.blocks)
    {pre post : List (Instr n)} (heq : block.instrs = pre ++ instr :: post)
    (hphi : instr.isPhi = false) {reg : Register n} (hreg : reg ∈ instr.operands) :
    f.DefinedAt block.id pre reg :=
  h.uses block hblock pre instr post heq hphi reg (operands_subset_visitUses hreg)

namespace Function

/-- The instruction before which the registers of `pre` are defined in a block. -/
structure Position (f : Function n) (block : BasicBlock n) (pre : List (Instr n))
    (instr : Instr n) : Prop where
  mem : block ∈ f.blocks
  split : ∃ post, block.instrs = pre ++ instr :: post

theorem exists_position {instr : Instr n} (h : instr ∈ f.instrs) :
    ∃ block pre, f.Position block pre instr := by
  obtain ⟨block, hblock, hinstr⟩ := mem_instrs.mp h
  obtain ⟨pre, post, heq⟩ := append_of_mem hinstr
  exact ⟨block, pre, hblock, post, heq⟩

/-- The next instruction of the straight-line part of a block, and the part behind it. -/
theorem Position.of_cons {pre rest : List (Instr n)} (hblock : block ∈ f.blocks)
    (heq : block.instrs = pre ++ instr :: rest)
    (hphi : ∀ other ∈ instr :: rest, other.isPhi = false) :
    f.Position block pre instr ∧ instr ∈ f.instrs ∧ block.instrs = (pre ++ [instr]) ++ rest ∧
      ∀ other ∈ rest, other.isPhi = false :=
  ⟨⟨hblock, rest, heq⟩, mem_instrs.mpr ⟨block, hblock, by simp [heq]⟩, by simp [heq],
    fun other hother => hphi other (mem_cons_of_mem _ hother)⟩

theorem DefinedAt.mono {pre pre' : List (Instr n)} (h : f.DefinedAt id pre x)
    (hsub : pre ⊆ pre') : f.DefinedAt id pre' x := by
  intro walked hwalk
  obtain hon | hpre := h walked hwalk
  · exact .inl hon
  · exact .inr ((filterMap_subset _ hsub) hpre)

end Function

theorem WellFormed.definedAt_of_position (h : WellFormed f) {front : List (Instr n)}
    (hpos : f.Position block front instr) (houtput : instr.output = some x)
    (hy : f.DefinedAt block.id front y) {pre post : List (Instr n)}
    (hpre : f.instrsOf id = pre ++ post) (hx : f.DefinedAt id pre x) : f.DefinedAt id pre y := by
  obtain ⟨back, heq⟩ := hpos.split
  have hmem : instr ∈ block.instrs := by simp [heq]
  have hxBlock : x ∈ f.outputsOf block.id := mem_outputsOf.mpr
    ⟨block, hpos.mem, rfl, mem_outputs hmem houtput⟩
  have hfront : ∀ reg ∈ definedBy front, reg ∈ f.outputsOf block.id := by
    intro reg hreg
    rw [outputsOf_of_mem hpos.mem, outputs, heq, filterMap_append]
    exact mem_append_left _ hreg
  intro walked hwalk
  obtain ⟨other, hother, hout⟩ | hdefined := hx walked hwalk
  · obtain rfl := h.outputsOf_unique hout hxBlock
    obtain ⟨later, earlier, hwalked, hearlier⟩ := hwalk.split hother
    refine .inl ?_
    obtain hon | hfrontY := hy earlier hearlier
    · exact definesOn_append hon (later ++ [block.id]) (by simpa using hwalked)
    · exact ⟨block.id, hother, hfront y hfrontY⟩
  · have hsame : block.id = id := by
      refine h.outputsOf_unique hxBlock ?_
      rw [← definedBy_instrsOf, hpre, definedBy, filterMap_append]
      exact mem_append_left _ hdefined
    subst hsame
    rw [instrsOf_of_mem hpos.mem, heq] at hpre
    obtain ⟨middle, rfl, -⟩ | ⟨middle, rfl, -⟩ := append_eq_append_iff.mp hpre
    · obtain hon | hfrontY := hy walked hwalk
      · exact .inl hon
      · exact .inr (by simp only [definedBy, filterMap_append] at hfrontY ⊢
                       exact mem_append_left _ hfrontY)
    · refine absurd ?_ (h.not_definedBy hpos.mem heq houtput).1
      simp only [definedBy, filterMap_append] at hdefined ⊢
      exact mem_append_left _ hdefined

namespace InSsaForm

variable (h : InSsaForm f)

include h

theorem isTrivial_not_mem_outputs {block : BasicBlock n} (hblock : block ∈ f.blocks)
    {phi : Instr n} (hphi : phi ∈ block.instrs) (hisPhi : phi.isPhi = true)
    (htrivial : phi.isTrivial = some y) : y ∉ block.outputs := by
  intro hy
  obtain ⟨walked, hwalk⟩ := h.wellFormed.cfg.reachable block.id
    (mem_blockIds.mpr ⟨block, hblock, rfl⟩)
  obtain ⟨first, hfirst, hnot⟩ := hwalk.first
  obtain ⟨id, hid, hout⟩ := h.definesOn_of_isTrivial hblock hphi hisPhi htrivial hfirst
  have hsame : id = block.id := h.wellFormed.outputsOf_unique hout
    (mem_outputsOf.mpr ⟨block, hblock, rfl, hy⟩)
  exact hnot (hsame ▸ hid)

variable {pre : List (Instr n)}

theorem definedAt_of_copies {block : BasicBlock n} {instr : Instr n}
    (hpos : f.Position block pre instr) (hcopies : instr.Copies y) :
    f.DefinedAt block.id pre y := by
  obtain ⟨post, heq⟩ := hpos.split
  obtain ⟨hassign, hy⟩ | ⟨hphi, hy⟩ := hcopies
  · exact h.uses_of_split hpos.mem heq (by simp [Instr.isPhi, hassign]) (by simp [hy])
  · exact fun walked hwalk =>
      .inl (h.definesOn_of_isTrivial hpos.mem (by simp [heq]) hphi hy hwalk)

theorem definedAt_of_copyOf (hcopy : f.CopyOf x y) {post : List (Instr n)}
    (hpre : f.instrsOf id = pre ++ post) (hx : f.DefinedAt id pre x) : f.DefinedAt id pre y := by
  obtain ⟨instr, hinstr, houtput, hcopies⟩ := hcopy
  obtain ⟨block, front, hpos⟩ := exists_position hinstr
  exact h.wellFormed.definedAt_of_position hpos houtput (h.definedAt_of_copies hpos hcopies) hpre hx

theorem definedAt_of_copies_chain (hlinks : Relation.ReflTransGen f.CopyOf x y)
    {post : List (Instr n)} (hpre : f.instrsOf id = pre ++ post) (hx : f.DefinedAt id pre x) :
    f.DefinedAt id pre y := by
  induction hlinks with
  | refl => exact hx
  | tail _ hcopy ih => exact h.definedAt_of_copyOf hcopy hpre ih

theorem copyOf_acyclic : ¬Relation.TransGen f.CopyOf x x := by
  intro hcycle
  obtain ⟨z, hcopy, hlinks⟩ := Relation.TransGen.head'_iff.mp hcycle
  obtain ⟨instr, hinstr, houtput, hcopies⟩ := hcopy
  obtain ⟨block, pre, hpos⟩ := exists_position hinstr
  obtain ⟨post, heq⟩ := hpos.split
  refine h.wellFormed.not_definedAt hpos.mem heq houtput ?_
  exact h.definedAt_of_copies_chain hlinks ((instrsOf_of_mem hpos.mem).trans heq)
    (h.definedAt_of_copies hpos hcopies)

end InSsaForm

/-! ## Values -/

section

variable {V : Type}

def Function.CopiesHold (f : Function n) (id : BlockId) (pre : List (Instr n))
    (regs : Register n → V) : Prop :=
  ∀ x y, f.CopyOf x y → f.DefinedAt id pre x → regs x = regs y

variable {pre : List (Instr n)} {regs : Register n → V}

theorem Function.CopiesHold.chain {post : List (Instr n)} (hholds : f.CopiesHold id pre regs)
    (h : InSsaForm f) (hlinks : Relation.ReflTransGen f.CopyOf x y)
    (hpre : f.instrsOf id = pre ++ post) (hx : f.DefinedAt id pre x) : regs x = regs y := by
  induction hlinks with
  | refl => rfl
  | tail hfront hcopy ih =>
    exact ih.trans (hholds _ _ hcopy (h.definedAt_of_copies_chain hfront hpre hx))

variable {instr : Instr n}

theorem Function.definedAt_of_append (hx : f.DefinedAt id (pre ++ [instr]) x)
    (hne : instr.output ≠ some x) :
    f.DefinedAt id pre x := by
  intro walked hwalk
  obtain hon | hdefined := hx walked hwalk
  · exact .inl hon
  · refine .inr ?_
    simp only [definedBy, filterMap_append, mem_append] at hdefined
    exact hdefined.resolve_right (by simpa using fun h => hne h)

variable {block : BasicBlock n}

theorem WellFormed.definedAt_of_jump (h : WellFormed f) (hpos : f.Position block pre instr)
    (hshape : instr.WellShaped) {edge : Nat} {succ : BlockId}
    (hsucc : instr.successors[edge]? = some succ) :
    (∀ x, f.DefinedAt block.id (f.instrsOf block.id) x → f.DefinedAt block.id pre x) ∧
      succ ∈ f.succs block.id := by
  obtain ⟨post, heq⟩ := hpos.split
  have hsuccMem : succ ∈ instr.successors := mem_of_getElem? hsucc
  have hterm := hshape.successors (ne_nil_of_mem hsuccMem)
  obtain rfl := (h.terminator block hpos.mem pre instr post heq).mp hterm
  constructor
  · intro x hx
    rw [instrsOf_of_mem hpos.mem, heq] at hx
    exact definedAt_of_append hx (by simp [hshape.output hterm])
  · rw [succs_of_mem hpos.mem]
    exact mem_flatMap.mpr ⟨instr, by simp [heq], hsuccMem⟩

theorem InSsaForm.copiesHold_assign (h : InSsaForm f) (hpos : f.Position block pre instr)
    (hphi : instr.isPhi = false) (hholds : f.CopiesHold block.id pre regs) (value : V)
    (hvalue : ∀ y, instr.opcode = .kAssign → instr.operands = [y] → value = regs y) :
    f.CopiesHold block.id (pre ++ [instr]) (instr.assign value regs) := by
  obtain ⟨post, heq⟩ := hpos.split
  have hpre := (instrsOf_of_mem hpos.mem).trans heq
  intro x y hcopy hx
  by_cases houtput : instr.output = some x
  · obtain ⟨d, hd, houtput', hcopies⟩ := hcopy
    have hinstr : instr ∈ f.instrs := mem_instrs.mpr ⟨block, hpos.mem, by simp [heq]⟩
    obtain rfl := h.wellFormed.def_unique hinstr hd houtput houtput'
    have hy : instr.output ≠ some y := fun houtputY =>
      h.wellFormed.not_definedAt hpos.mem heq houtputY (h.definedAt_of_copies hpos hcopies)
    obtain ⟨hassign, hoperands⟩ := hcopies.resolve_right (by simp [hphi])
    simp [Instr.assign, houtput', hvalue y hassign hoperands, show ¬x = y by
      rintro rfl; exact hy houtput']
  · have hdefined := definedAt_of_append hx houtput
    have hy : instr.output ≠ some y := fun houtputY =>
      h.wellFormed.not_definedAt hpos.mem heq houtputY (h.definedAt_of_copyOf hcopy hpre hdefined)
    simpa [Instr.assign, houtput, hy] using hholds x y hcopy hdefined

theorem BasicBlock.takeEdge_of_not_mem {target : BasicBlock n} {pred : BlockId}
    (hx : x ∉ definedBy target.phis) :
    target.takeEdge pred regs x = regs x := by
  have hfind : (target.phis.find? fun phi => phi.output = some x) = none := by
    refine find?_eq_none.mpr fun phi hphi houtput => hx ?_
    exact mem_filterMap.mpr ⟨phi, hphi, by simpa using houtput⟩
  simp [takeEdge, hfind]

theorem Function.DefinedAt.pred {pred : BlockId} (hx : f.DefinedAt id [] x)
    (hedge : id ∈ f.succs pred) : f.DefinedAt pred (f.instrsOf pred) x := by
  intro walked hwalk
  obtain ⟨other, hother, hout⟩ | hnil := hx (pred :: walked) (.step hwalk hedge)
  · obtain rfl | hother := mem_cons.mp hother
    · exact .inr (definedBy_instrsOf f other ▸ hout)
    · exact .inl ⟨other, hother, hout⟩
  · simp [definedBy] at hnil

theorem WellFormed.not_mem_phis (h : WellFormed f) (hblock : block ∈ f.blocks)
    (hx : f.DefinedAt block.id [] x) : x ∉ definedBy block.phis := by
  intro hmem
  obtain ⟨phi, hphi, houtput⟩ := mem_filterMap.mp hmem
  obtain ⟨pre, post, heq⟩ := append_of_mem hphi
  have hsplit : block.instrs = pre ++ phi :: (post ++ block.body) := by
    rw [block.instrs_eq, heq, append_assoc, cons_append]
  exact h.not_definedAt hblock hsplit houtput (hx.mono (nil_subset _))

theorem InSsaForm.copiesHold_takeEdge (h : InSsaForm f) {pred : BlockId} {target : BasicBlock n}
    (htarget : target ∈ f.blocks) (hedge : target.id ∈ f.succs pred)
    (hholds : f.CopiesHold pred (f.instrsOf pred) regs) :
    f.CopiesHold target.id target.phis (target.takeEdge pred regs) := by
  intro x y hcopy hx
  by_cases hxPhi : x ∈ definedBy target.phis
  · obtain ⟨phi, hphi, houtput⟩ := mem_filterMap.mp hxPhi
    have hmem : phi ∈ target.instrs := target.instrs_eq ▸ mem_append_left _ hphi
    have hisPhi := isPhi_of_mem_phis hphi
    obtain ⟨d, hd, houtput', hcopies⟩ := hcopy
    obtain rfl := h.wellFormed.def_unique (mem_instrs.mpr ⟨target, htarget, hmem⟩) hd
      houtput houtput'
    obtain ⟨-, htrivial⟩ := hcopies.resolve_left (by
      rintro ⟨hassign, -⟩
      simp [Instr.isPhi, hassign] at hisPhi)
    have hy : y ∉ definedBy target.phis := by
      intro hy
      refine h.isTrivial_not_mem_outputs htarget hmem hisPhi htrivial ?_
      rw [outputs, target.instrs_eq, filterMap_append]
      exact mem_append_left _ hy
    obtain ⟨operand, hoperand, hmemOperand, hdefined⟩ :=
      h.exists_phiOperand htarget hmem hisPhi hedge
    have hfind : (target.phis.find? fun phi => phi.output = some x) = some phi := by
      cases hfound : target.phis.find? fun phi => phi.output = some x with
      | none => simpa [houtput] using find?_eq_none.mp hfound phi hphi
      | some other =>
        have hother := mem_of_find?_eq_some hfound
        refine congrArg some (h.wellFormed.def_unique ?_ hd
          (by simpa using find?_some hfound) houtput)
        exact mem_instrs.mpr ⟨target, htarget, target.instrs_eq ▸ mem_append_left _ hother⟩
    rw [target.takeEdge_of_not_mem hy]
    simp only [takeEdge, hfind, Option.bind_some, hoperand]
    obtain hself | rfl := (Instr.isTrivial_eq_some.mp htrivial).2.2 operand hmemOperand
    · obtain rfl : x = operand := Option.some.inj (houtput.symm.trans hself)
      exact hholds x y ⟨phi, hd, houtput, .inr ⟨hisPhi, htrivial⟩⟩ hdefined
    · rfl
  · have hxBefore : f.DefinedAt target.id [] x := by
      intro walked hwalk
      exact .inl ((hx walked hwalk).resolve_right hxPhi)
    have hyBefore : f.DefinedAt target.id [] y := h.definedAt_of_copyOf hcopy rfl hxBefore
    rw [target.takeEdge_of_not_mem hxPhi,
      target.takeEdge_of_not_mem (h.wellFormed.not_mem_phis htarget hyBefore)]
    exact hholds x y hcopy (hxBefore.pred hedge)

theorem InSsaForm.copiesHold_entry (h : InSsaForm f) (hblock : f.block? f.entryBlock = some block)
    (regs : Register n → V) :
    f.CopiesHold f.entryBlock block.phis regs := by
  intro x y _ hx
  have hnil : block.phis = [] := by
    refine eq_nil_iff_forall_not_mem.mpr fun phi hphi => ?_
    have hisPhi := isPhi_of_mem_phis hphi
    simp [h.entry block (mem_blocks_of_block? hblock) (id_of_block? hblock) phi
      (block.instrs_eq ▸ mem_append_left _ hphi)] at hisPhi
  obtain ⟨id, hid, -⟩ | hdefined := hx [] .entry
  · simp at hid
  · simp [hnil, definedBy] at hdefined

end

end CinderX.Jit.Hir

/-!
## What definitions say about values

An instruction without effects gives its output a value that depends on its
operands alone.  Wherever the output is defined, so are the operands, and none
of them has been assigned again since: what the instruction said about their
values still holds.
-/

namespace CinderX.Jit.Hir

variable {n : Nat} {f : Function n} {x y : Register n} {id : BlockId} {V : Type}

def Function.DependsOn (f : Function n) (x y : Register n) : Prop :=
  ∃ d ∈ f.instrs, d.isPhi = false ∧ d.output = some x ∧ y ∈ d.operands

/-- Whether a statement about an instruction and the registers is one about its own registers. -/
def IsLocal (holds : Instr n → (Register n → V) → Prop) : Prop :=
  ∀ instr regs regs', (∀ reg, instr.output = some reg ∨ reg ∈ instr.operands →
    regs reg = regs' reg) → holds instr regs → holds instr regs'

def Function.DefinitionsHold (f : Function n) (holds : Instr n → (Register n → V) → Prop)
    (id : BlockId) (pre : List (Instr n)) (regs : Register n → V) : Prop :=
  ∀ d ∈ f.instrs, d.isPhi = false → ∀ x, d.output = some x → f.DefinedAt id pre x → holds d regs

namespace WellFormed

variable (h : WellFormed f) {holds : Instr n → (Register n → V) → Prop}

include h

theorem definedAt_of_dependsOn (hdepends : f.DependsOn x y) {pre post : List (Instr n)}
    (hpre : f.instrsOf id = pre ++ post) (hx : f.DefinedAt id pre x) : f.DefinedAt id pre y := by
  obtain ⟨d, hd, hphi, houtput, hy⟩ := hdepends
  obtain ⟨block, front, hpos⟩ := Function.exists_position hd
  obtain ⟨back, heq⟩ := hpos.split
  have hdefined := h.operands block hpos.mem front d back heq hphi y hy
  exact h.definedAt_of_position hpos houtput hdefined hpre hx

theorem definedAt_of_dependsOn_chain (hchain : Relation.ReflTransGen f.DependsOn x y)
    {pre post : List (Instr n)} (hpre : f.instrsOf id = pre ++ post) (hx : f.DefinedAt id pre x) :
    f.DefinedAt id pre y := by
  induction hchain with
  | refl => exact hx
  | tail _ hdepends ih => exact h.definedAt_of_dependsOn hdepends hpre ih

theorem dependsOn_acyclic : ¬Relation.TransGen f.DependsOn x x := by
  intro hcycle
  obtain ⟨z, ⟨d, hd, hphi, houtput, hz⟩, hchain⟩ := Relation.TransGen.head'_iff.mp hcycle
  obtain ⟨block, pre, hpos⟩ := Function.exists_position hd
  obtain ⟨post, heq⟩ := hpos.split
  refine h.not_definedAt hpos.mem heq houtput ?_
  exact h.definedAt_of_dependsOn_chain hchain ((Function.instrsOf_of_mem hpos.mem).trans heq)
    (h.operands block hpos.mem pre d post heq hphi z hz)

theorem definitionsHold_assign (hlocal : IsLocal holds) {block : BasicBlock n}
    {pre : List (Instr n)} {instr : Instr n} (hpos : f.Position block pre instr)
    {regs : Register n → V} (hholds : f.DefinitionsHold holds block.id pre regs) (value : V)
    (hvalue : instr.output.isSome = true → holds instr (instr.assign value regs)) :
    f.DefinitionsHold holds block.id (pre ++ [instr]) (instr.assign value regs) := by
  obtain ⟨post, heq⟩ := hpos.split
  have hpre := (Function.instrsOf_of_mem hpos.mem).trans heq
  have hinstr : instr ∈ f.instrs := Function.mem_instrs.mpr ⟨block, hpos.mem, by simp [heq]⟩
  intro d hd hphi x houtput hx
  by_cases hsame : instr.output = some x
  · obtain rfl := h.def_unique hinstr hd hsame houtput
    exact hvalue (by simp [hsame])
  · have hdefined := Function.definedAt_of_append hx hsame
    refine hlocal d regs _ (fun reg hreg => ?_) (hholds d hd hphi x houtput hdefined)
    have hne : instr.output ≠ some reg := by
      intro houtput'
      obtain hreg | hreg := hreg
      · exact hsame (houtput'.trans (hreg.symm.trans houtput))
      · exact h.not_definedAt hpos.mem heq houtput'
          (h.definedAt_of_dependsOn ⟨d, hd, hphi, houtput, hreg⟩ hpre hdefined)
    simp [Instr.assign, hne]

theorem definitionsHold_takeEdge (hlocal : IsLocal holds) {pred : BlockId} {target : BasicBlock n}
    (htarget : target ∈ f.blocks) (hedge : target.id ∈ f.succs pred) {regs : Register n → V}
    (hholds : f.DefinitionsHold holds pred (f.instrsOf pred) regs) :
    f.DefinitionsHold holds target.id target.phis (target.takeEdge pred regs) := by
  intro d hd hphi x houtput hx
  have hxPhi : x ∉ definedBy target.phis := by
    intro hmem
    obtain ⟨phi, hmemPhi, houtput'⟩ := List.mem_filterMap.mp hmem
    have hin : phi ∈ target.instrs := target.instrs_eq ▸ List.mem_append_left _ hmemPhi
    have hsame := h.def_unique (Function.mem_instrs.mpr ⟨target, htarget, hin⟩) hd houtput' houtput
    simp [← hsame, BasicBlock.isPhi_of_mem_phis hmemPhi] at hphi
  have hxBefore : f.DefinedAt target.id [] x :=
    fun walked hwalk => .inl ((hx walked hwalk).resolve_right hxPhi)
  refine hlocal d regs _ (fun reg hreg => ?_) (hholds d hd hphi x houtput (hxBefore.pred hedge))
  have hbefore : f.DefinedAt target.id [] reg := by
    obtain hreg | hreg := hreg
    · rwa [Option.some.inj (hreg.symm.trans houtput)]
    · exact h.definedAt_of_dependsOn ⟨d, hd, hphi, houtput, hreg⟩ rfl hxBefore
  exact (target.takeEdge_of_not_mem (h.not_mem_phis htarget hbefore)).symm

theorem definitionsHold_entry {block : BasicBlock n} (hblock : f.block? f.entryBlock = some block)
    (regs : Register n → V) : f.DefinitionsHold holds f.entryBlock block.phis regs := by
  intro d hd hphi x houtput hx
  obtain ⟨id, hid, -⟩ | hdefined := hx [] .entry
  · simp at hid
  · obtain ⟨phi, hmem, houtput'⟩ := List.mem_filterMap.mp hdefined
    have hin : phi ∈ f.instrs := Function.mem_instrs.mpr
      ⟨block, Function.mem_blocks_of_block? hblock,
      block.instrs_eq ▸ List.mem_append_left _ hmem⟩
    have hsame := h.def_unique hin hd houtput' houtput
    simp [← hsame, BasicBlock.isPhi_of_mem_phis hmem] at hphi

end WellFormed

end CinderX.Jit.Hir
