import CinderX.Foundation.Liveness
import CinderX.Jit.Lir.CalculateLiveIntervals

/-!
# Liveness of virtual registers

The locations of a function, numbered in the order of its blocks: one for the
start of each block, then two for each instruction, where it reads its inputs
and where it defines its output.  Over them, liveness in the sense of paths.
-/

namespace CinderX.Jit.Lir

open CinderX.Foundation BasicBlock List

def AddressReg.reads : AddressReg → List VReg
  | .vreg operand => [operand.define]
  | .phyReg _ => []

def MemoryIndirect.reads (indirect : MemoryIndirect) : List VReg :=
  indirect.base.reads ++
    match indirect.index with
    | some index => index.reads
    | none => []

def Output.reads : Output → List VReg
  | .ind indirect => indirect.reads
  | _ => []

def Input.reads (input : Input) : List VReg :=
  match input.kind with
  | .vreg operand => [operand.define]
  | .ind indirect => indirect.reads
  | _ => []

def Instruction.reads (instr : Instruction) : List VReg :=
  instr.output.reads ++ instr.inputs.flatMap Input.reads

namespace BasicBlock

def size (bb : BasicBlock) : Nat := 2 * bb.instrs.length + 1

def At (bb : BasicBlock) (index : Nat) (instr : Instruction) : Prop :=
  bb.instrs[index]? = some instr ∧ instr.isPhi = false

/-- Locations relative to the start of the block at which a register is read. -/
def ReadsAt (bb : BasicBlock) (v : VReg) (offset : Nat) : Prop :=
  ∃ index instr, bb.At index instr ∧ v ∈ instr.reads ∧
    (offset = 2 * index + 1 ∨
      instr.opcode.inputsLiveAcross = true ∧ offset = 2 * index + 2)

def DefinesAt (bb : BasicBlock) (v : VReg) (offset : Nat) : Prop :=
  (offset = 0 ∧ v ∈ phiOutputs bb) ∨
    ∃ index instr, bb.At index instr ∧ instr.output = .vreg v ∧ offset = 2 * index + 2

theorem ReadsAt.lt_size {bb : BasicBlock} {v : VReg} {offset : Nat}
    (h : bb.ReadsAt v offset) : offset < bb.size := by
  obtain ⟨index, instr, ⟨hget, -⟩, -, hoffset⟩ := h
  have hlt := (List.getElem?_eq_some_iff.mp hget).1
  simp only [size]
  omega

theorem DefinesAt.lt_size {bb : BasicBlock} {v : VReg} {offset : Nat}
    (h : bb.DefinesAt v offset) : offset < bb.size := by
  rcases h with ⟨rfl, -⟩ | ⟨index, instr, ⟨hget, -⟩, -, rfl⟩
  · simp [size]
  · have hlt := (List.getElem?_eq_some_iff.mp hget).1
    simp only [size]
    omega

end BasicBlock

def layout : Int → List BasicBlock → List (Int × BasicBlock)
  | _, [] => []
  | start, bb :: rest => (start, bb) :: layout (start + bb.size) rest

namespace Function

variable (f : Function)

def Placed (start : Int) (bb : BasicBlock) : Prop := (start, bb) ∈ layout 0 f.blocks

def PhiReads (bb : BasicBlock) (v : VReg) : Prop :=
  ∃ succ ∈ bb.successors, ∃ succBlock, f.block? succ = some succBlock ∧
    v ∈ phiInputs succBlock bb.id

def Use (v : VReg) (loc : Int) : Prop :=
  ∃ start bb, f.Placed start bb ∧
    ((∃ offset : Nat, bb.ReadsAt v offset ∧ loc = start + offset) ∨
      (f.PhiReads bb v ∧ loc = start + bb.size - 1))

def Define (v : VReg) (loc : Int) : Prop :=
  ∃ start bb, f.Placed start bb ∧ ∃ offset : Nat, bb.DefinesAt v offset ∧ loc = start + offset

/-- Control moves on inside a block, and from its end to the start of a successor. -/
def Next (loc loc' : Int) : Prop :=
  ∃ start bb, f.Placed start bb ∧
    ((start ≤ loc ∧ loc < start + bb.size - 1 ∧ loc' = loc + 1) ∨
      (loc = start + bb.size - 1 ∧
        ∃ bb', f.Placed loc' bb' ∧ bb'.id ∈ bb.successors))

def LiveAt (v : VReg) (loc : Int) : Prop := Live f.Next f.Use f.Define v loc

def ForwardLiveAt (v : VReg) (loc : Int) : Prop :=
  Live (Forward f.Next) f.Use f.Define v loc

def ForwardLiveIn (v : VReg) (loc : Int) : Prop :=
  LiveIn (Forward f.Next) f.Use f.Define v loc

/-- What the pass relies on: blocks are distinct, and no block reads before it defines. -/
structure WellFormed : Prop where
  ids_nodup : (f.blocks.map BasicBlock.id).Nodup
  define_le_read : ∀ bb ∈ f.blocks, ∀ v define read,
    bb.DefinesAt v define → bb.ReadsAt v read → define ≤ read

/-- A jump back from a later block to a header into which the register is live. -/
def LoopCarries (v : VReg) (loc : Int) : Prop :=
  ∃ header headerBlock, f.Placed header headerBlock ∧
    ∃ last lastBlock, f.Placed last lastBlock ∧ headerBlock.id ∈ lastBlock.successors ∧
      header < last ∧ header ≤ loc ∧ loc < last + lastBlock.size ∧ f.ForwardLiveIn v header

end Function

/-! ## Reading locations back -/

variable {start s : Int} {blocks : List BasicBlock} {bb : BasicBlock}

theorem le_of_mem_layout (h : (s, bb) ∈ layout start blocks) : start ≤ s := by
  induction blocks generalizing start with
  | nil => simp [layout] at h
  | cons first rest ih =>
    simp only [layout, mem_cons, Prod.mk.injEq] at h
    cases h with
    | inl heq => omega
    | inr hmem =>
      have := ih hmem
      omega

theorem mem_of_mem_layout (h : (s, bb) ∈ layout start blocks) : bb ∈ blocks := by
  induction blocks generalizing start with
  | nil => simp [layout] at h
  | cons first rest ih =>
    simp only [layout, mem_cons, Prod.mk.injEq] at h
    cases h with
    | inl heq => simp [heq.2]
    | inr hmem => simp [ih hmem]

theorem layout_ordered {s' : Int} {bb' : BasicBlock} (h : (s, bb) ∈ layout start blocks)
    (h' : (s', bb') ∈ layout start blocks) :
    (s = s' ∧ bb = bb') ∨ s + bb.size ≤ s' ∨ s' + bb'.size ≤ s := by
  induction blocks generalizing start with
  | nil => simp [layout] at h
  | cons first rest ih =>
    simp only [layout, mem_cons, Prod.mk.injEq] at h h'
    rcases h with ⟨rfl, rfl⟩ | h <;> rcases h' with ⟨rfl, rfl⟩ | h'
    · exact Or.inl ⟨rfl, rfl⟩
    · exact Or.inr (Or.inl (le_of_mem_layout h'))
    · exact Or.inr (Or.inr (le_of_mem_layout h))
    · exact ih h h'

namespace Function

variable {f : Function}

variable {bb : BasicBlock}

theorem Placed.eq_of_overlap {s s' : Int} {bb' : BasicBlock} (h : f.Placed s bb)
    (h' : f.Placed s' bb') (hlt : s < s' + bb'.size) (hlt' : s' < s + bb.size) :
    s = s' ∧ bb = bb' := by
  rcases layout_ordered h h' with heq | hle | hle
  · exact heq
  · omega
  · omega

theorem Placed.eq_of_id (hf : f.WellFormed) {s s' : Int} {bb' : BasicBlock} (h : f.Placed s bb)
    (h' : f.Placed s' bb') (hid : bb.id = bb'.id) :
    s = s' ∧ bb = bb' := by
  have hnodup := hf.ids_nodup
  unfold Placed at h h'
  generalize (0 : Int) = start at h h'
  generalize f.blocks = blocks at h h' hnodup
  induction blocks generalizing start with
  | nil => simp [layout] at h
  | cons first rest ih =>
    simp only [map_cons, nodup_cons, mem_map, not_exists, not_and] at hnodup
    simp only [layout, mem_cons, Prod.mk.injEq] at h h'
    rcases h with ⟨rfl, rfl⟩ | h <;> rcases h' with ⟨rfl, rfl⟩ | h'
    · exact ⟨rfl, rfl⟩
    · exact absurd hid.symm (hnodup.1 _ (mem_of_mem_layout h'))
    · exact absurd hid (hnodup.1 _ (mem_of_mem_layout h))
    · exact ih _ h h' hnodup.2

variable {start : Int} {v : VReg} {offset : Nat}

theorem use_iff (hbb : f.Placed start bb) (hoffset : offset < bb.size) :
    f.Use v (start + offset) ↔
      bb.ReadsAt v offset ∨ (f.PhiReads bb v ∧ offset + 1 = bb.size) := by
  constructor
  · rintro ⟨s, bb', hbb', ⟨offset', hreads, hloc⟩ | ⟨hphi, hloc⟩⟩
    · have hlt := hreads.lt_size
      obtain ⟨rfl, rfl⟩ := hbb.eq_of_overlap hbb' (by omega) (by omega)
      have : offset = offset' := by omega
      exact Or.inl (this ▸ hreads)
    · have : 0 < bb'.size := by simp [size]
      obtain ⟨rfl, rfl⟩ := hbb.eq_of_overlap hbb' (by omega) (by omega)
      exact Or.inr ⟨hphi, by omega⟩
  · rintro (hreads | ⟨hphi, hend⟩)
    · exact ⟨start, bb, hbb, Or.inl ⟨offset, hreads, rfl⟩⟩
    · exact ⟨start, bb, hbb, Or.inr ⟨hphi, by omega⟩⟩

theorem define_iff {start : Int} {bb : BasicBlock} (hbb : f.Placed start bb) {v : VReg}
    {offset : Nat} (hoffset : offset < bb.size) :
    f.Define v (start + offset) ↔ bb.DefinesAt v offset := by
  constructor
  · rintro ⟨s, bb', hbb', offset', hdefines, hloc⟩
    have hlt := hdefines.lt_size
    obtain ⟨rfl, rfl⟩ := hbb.eq_of_overlap hbb' (by omega) (by omega)
    have : offset = offset' := by omega
    exact this ▸ hdefines
  · intro hdefines
    exact ⟨start, bb, hbb, offset, hdefines, rfl⟩

def ForwardLiveOut (f : Function) (start : Int) (bb : BasicBlock) (v : VReg) : Prop :=
  f.PhiReads bb v ∨
    ∃ start' bb', f.Placed start' bb' ∧ bb'.id ∈ bb.successors ∧ start < start' ∧
      f.ForwardLiveIn v start'

variable {loc : Int}

theorem next_inside (hbb : f.Placed start bb) (hoffset : offset + 1 < bb.size) :
    f.Next (start + offset) loc ↔ loc = start + (offset + 1 : Nat) := by
  constructor
  · rintro ⟨s, bb', hbb', ⟨hle, hlt, hloc⟩ | ⟨hend, bb'', -, -⟩⟩
    · omega
    · have : 0 < bb'.size := by simp [size]
      obtain ⟨rfl, rfl⟩ := hbb.eq_of_overlap hbb' (by omega) (by omega)
      omega
  · rintro rfl
    exact ⟨start, bb, hbb, Or.inl ⟨by omega, by omega, by omega⟩⟩

theorem next_end (hbb : f.Placed start bb) (hoffset : offset + 1 = bb.size) :
    f.Next (start + offset) loc ↔ ∃ bb', f.Placed loc bb' ∧ bb'.id ∈ bb.successors := by
  constructor
  · rintro ⟨s, bb', hbb', ⟨hle, hlt, hloc⟩ | ⟨hend, hsucc⟩⟩
    · obtain ⟨rfl, rfl⟩ := hbb.eq_of_overlap hbb' (by omega) (by omega)
      omega
    · have : 0 < bb'.size := by simp [size]
      obtain ⟨rfl, rfl⟩ := hbb.eq_of_overlap hbb' (by omega) (by omega)
      exact hsucc
  · intro hsucc
    exact ⟨start, bb, hbb, Or.inr ⟨by omega, hsucc⟩⟩

theorem forwardLiveAt_inside (hbb : f.Placed start bb) (hoffset : offset + 1 < bb.size) :
    f.ForwardLiveAt v (start + offset) ↔
      bb.ReadsAt v offset ∨
        (¬ bb.DefinesAt v (offset + 1) ∧ f.ForwardLiveAt v (start + (offset + 1 : Nat))) := by
  unfold ForwardLiveAt
  rw [live_iff, use_iff hbb (by omega)]
  simp only [Forward, next_inside hbb hoffset, LiveIn]
  constructor
  · rintro ((hreads | ⟨-, hend⟩) | ⟨loc, ⟨rfl, -⟩, hdefine, hlive⟩)
    · exact Or.inl hreads
    · omega
    · rw [define_iff hbb hoffset] at hdefine
      exact Or.inr ⟨hdefine, hlive⟩
  · rintro (hreads | ⟨hdefine, hlive⟩)
    · exact Or.inl (Or.inl hreads)
    · rw [← define_iff hbb hoffset] at hdefine
      exact Or.inr ⟨_, ⟨rfl, by omega⟩, hdefine, hlive⟩

theorem forwardLiveAt_end (hbb : f.Placed start bb) (hoffset : offset + 1 = bb.size) :
    f.ForwardLiveAt v (start + offset) ↔
      bb.ReadsAt v offset ∨ f.ForwardLiveOut start bb v := by
  unfold ForwardLiveAt
  rw [live_iff, use_iff hbb (by omega)]
  simp only [Forward, next_end hbb hoffset]
  unfold ForwardLiveOut
  constructor
  · rintro ((hreads | ⟨hphi, -⟩) | ⟨loc, ⟨⟨bb', hbb', hsucc⟩, hlt⟩, hlive⟩)
    · exact Or.inl hreads
    · exact Or.inr (Or.inl hphi)
    · exact Or.inr (Or.inr ⟨loc, bb', hbb', hsucc, by omega, hlive⟩)
  · rintro (hreads | hphi | ⟨loc, bb', hbb', hsucc, hlt, hlive⟩)
    · exact Or.inl (Or.inl hreads)
    · exact Or.inl (Or.inr ⟨hphi, hoffset⟩)
    · refine Or.inr ⟨loc, ⟨⟨bb', hbb', hsucc⟩, ?_⟩, hlive⟩
      rcases layout_ordered hbb hbb' with ⟨rfl, -⟩ | hle | hle
      · omega
      · omega
      · have : 0 < bb'.size := by simp [size]
        omega

/-- Some later point of the block, or what follows the block, needs the register. -/
def NeededIn (f : Function) (start : Int) (bb : BasicBlock) (v : VReg) (loc : Int) : Prop :=
  start ≤ loc ∧ loc < start + bb.size ∧
    (f.ForwardLiveOut start bb v ∨ ∃ offset : Nat, bb.ReadsAt v offset ∧ loc ≤ start + offset)

theorem ForwardLiveAt.needed (h : f.ForwardLiveAt v loc) :
    ∃ start bb, f.Placed start bb ∧ f.NeededIn start bb v loc := by
  unfold ForwardLiveAt at h
  induction h with
  | use huse =>
    obtain ⟨start, bb, hbb, ⟨offset, hreads, rfl⟩ | ⟨hphi, rfl⟩⟩ := huse
    · have := hreads.lt_size
      exact ⟨start, bb, hbb, by omega, by omega, Or.inr ⟨offset, hreads, le_refl _⟩⟩
    · have : 0 < bb.size := by simp [size]
      exact ⟨start, bb, hbb, by omega, by omega, Or.inl (Or.inl hphi)⟩
  | @step loc loc' hnext hdefine hlive ih =>
    obtain ⟨⟨start, bb, hbb, ⟨hle, hlt, rfl⟩ | ⟨hend, bb', hbb', hsucc⟩⟩, hforward⟩ := hnext
    · obtain ⟨start', bb', hbb', hle', hlt', hneeded⟩ := ih
      obtain ⟨rfl, rfl⟩ := hbb.eq_of_overlap hbb' (by omega) (by omega)
      refine ⟨start, bb, hbb, hle, by omega, hneeded.imp_right ?_⟩
      rintro ⟨offset, hreads, hoffset⟩
      exact ⟨offset, hreads, by omega⟩
    · have : 0 < bb.size := by simp [size]
      exact ⟨start, bb, hbb, by omega, by omega,
        Or.inl (Or.inr ⟨loc', bb', hbb', hsucc, by omega, hdefine, hlive⟩)⟩

theorem NeededIn.forwardLiveAt (hbb : f.Placed start bb)
    (hneeded : f.NeededIn start bb v (start + offset))
    (hdefine : ∀ define, bb.DefinesAt v define → define ≤ offset) :
    f.ForwardLiveAt v (start + offset) := by
  obtain ⟨-, hlt, hneeded⟩ := hneeded
  induction hdist : bb.size - offset generalizing offset with
  | zero => omega
  | succ distance ih =>
    by_cases hend : offset + 1 = bb.size
    · rw [forwardLiveAt_end hbb hend]
      rcases hneeded with hout | ⟨read, hreads, hle⟩
      · exact Or.inr hout
      · have := hreads.lt_size
        have : read = offset := by omega
        exact Or.inl (this ▸ hreads)
    · rw [forwardLiveAt_inside hbb (by omega)]
      by_cases hreads : bb.ReadsAt v offset
      · exact Or.inl hreads
      right
      constructor
      · intro hdefines
        have := hdefine _ hdefines
        omega
      apply ih
      · intro define hdefines
        have := hdefine define hdefines
        omega
      · omega
      · refine hneeded.imp_right ?_
        rintro ⟨read, hread, hle⟩
        have hne : read ≠ offset := by
          rintro rfl
          exact hreads hread
        exact ⟨read, hread, by omega⟩
      · omega

theorem LiveAt.inside (hbb : f.Placed start bb) (hoffset : offset + 1 < bb.size)
    (h : f.LiveAt v (start + offset)) :
    bb.ReadsAt v offset ∨
      (¬ bb.DefinesAt v (offset + 1) ∧ f.LiveAt v (start + (offset + 1 : Nat))) := by
  unfold LiveAt at h ⊢
  rw [live_iff, use_iff hbb (by omega)] at h
  rcases h with (hreads | ⟨-, hend⟩) | ⟨loc, hnext, hdefine, hlive⟩
  · exact Or.inl hreads
  · omega
  · rw [next_inside hbb hoffset] at hnext
    subst hnext
    rw [define_iff hbb hoffset] at hdefine
    exact Or.inr ⟨hdefine, hlive⟩

theorem LiveAt.define_le (hf : f.WellFormed) (hbb : f.Placed start bb) {define : Nat}
    (hlive : f.LiveAt v (start + offset)) (hdefine : bb.DefinesAt v define) :
    define ≤ offset := by
  by_contra hlt
  have hsize := hdefine.lt_size
  induction hdist : define - offset generalizing offset with
  | zero => omega
  | succ distance ih =>
    rcases hlive.inside hbb (by omega) with hreads | ⟨hnot, hlive⟩
    · have := hf.define_le_read bb (mem_of_mem_layout hbb) v define offset hdefine hreads
      omega
    · by_cases heq : define = offset + 1
      · exact hnot (heq ▸ hdefine)
      · exact ih hlive (by omega) (by omega)

def LiveBefore (out : Prop) (v : VReg) : List Instruction → Prop
  | [] => out
  | instr :: rest =>
    if instr.isPhi then LiveBefore out v rest
    else v ∈ instr.reads ∨ (instr.output ≠ .vreg v ∧ LiveBefore out v rest)

def LiveBeforeIndex (f : Function) (start : Int) (bb : BasicBlock) (v : VReg)
    (index : Nat) : Prop :=
  if index < bb.instrs.length then f.ForwardLiveAt v (start + (2 * index + 1 : Nat))
  else f.ForwardLiveOut start bb v

theorem not_definesAt_odd {index : Nat} :
    ¬ bb.DefinesAt v (2 * index + 1) := by
  rintro (⟨hzero, -⟩ | ⟨index', instr, -, -, hoffset⟩)
  · omega
  · omega

theorem not_readsAt_zero : ¬ bb.ReadsAt v 0 := by
  rintro ⟨index, instr, -, -, hoffset⟩
  omega

theorem forwardLiveAt_even {start : Int} {bb : BasicBlock} (hbb : f.Placed start bb)
    {v : VReg} {index : Nat} (hindex : index ≤ bb.instrs.length) :
    f.ForwardLiveAt v (start + (2 * index : Nat)) ↔
      bb.ReadsAt v (2 * index) ∨ f.LiveBeforeIndex start bb v index := by
  unfold LiveBeforeIndex
  by_cases hend : index < bb.instrs.length
  · rw [forwardLiveAt_inside hbb (by simp only [size]; omega), if_pos hend]
    simp only [not_definesAt_odd, not_false_eq_true, true_and]
  · rw [forwardLiveAt_end hbb (by simp only [size]; omega), if_neg hend]

theorem liveBefore_iff {start : Int} {bb : BasicBlock} (hbb : f.Placed start bb)
    {v : VReg} {index : Nat} (hindex : index ≤ bb.instrs.length) :
    LiveBefore (f.ForwardLiveOut start bb v) v (bb.instrs.drop index) ↔
      f.LiveBeforeIndex start bb v index := by
  induction hdist : bb.instrs.length - index generalizing index with
  | zero =>
    have hlength : bb.instrs.length = index := by omega
    simp [LiveBeforeIndex, LiveBefore, drop_eq_nil_of_le hlength.le, hlength]
  | succ distance ih =>
    have hlt : index < bb.instrs.length := by omega
    have hrest := @ih (index + 1) (by omega) (by omega)
    have hget : bb.instrs[index]? = some bb.instrs[index] := getElem?_eq_getElem hlt
    rw [drop_eq_getElem_cons hlt, LiveBefore]
    generalize hinstr : bb.instrs[index] = instr at hget
    have hreadsOdd : bb.ReadsAt v (2 * index + 1) ↔
        instr.isPhi = false ∧ v ∈ instr.reads := by
      constructor
      · rintro ⟨index', instr', ⟨hget', hphi⟩, hreads, hoffset⟩
        have : index' = index := by omega
        subst this
        rw [hget, Option.some.injEq] at hget'
        subst hget'
        exact ⟨hphi, hreads⟩
      · rintro ⟨hphi, hreads⟩
        exact ⟨index, instr, ⟨hget, hphi⟩, hreads, Or.inl rfl⟩
    have hreadsEven : bb.ReadsAt v (2 * (index + 1)) → instr.isPhi = false ∧ v ∈ instr.reads := by
      rintro ⟨index', instr', ⟨hget', hphi⟩, hreads, hoffset⟩
      have : index' = index := by omega
      subst this
      rw [hget, Option.some.injEq] at hget'
      subst hget'
      exact ⟨hphi, hreads⟩
    have hdefines : bb.DefinesAt v (2 * index + 2) ↔
        instr.isPhi = false ∧ instr.output = .vreg v := by
      constructor
      · rintro (⟨hzero, -⟩ | ⟨index', instr', ⟨hget', hphi⟩, houtput, hoffset⟩)
        · omega
        · have : index' = index := by omega
          subst this
          rw [hget, Option.some.injEq] at hget'
          subst hget'
          exact ⟨hphi, houtput⟩
      · rintro ⟨hphi, houtput⟩
        exact Or.inr ⟨index, instr, ⟨hget, hphi⟩, houtput, rfl⟩
    have hodd : f.LiveBeforeIndex start bb v index ↔
        f.ForwardLiveAt v (start + (2 * index + 1 : Nat)) := by
      simp [LiveBeforeIndex, hlt]
    rw [hodd, forwardLiveAt_inside hbb (by simp only [size]; omega), hreadsOdd, hdefines]
    have heven := @forwardLiveAt_even f start bb hbb v (index + 1) (by omega)
    rw [show 2 * index + 1 + 1 = 2 * (index + 1) by omega, heven, hrest]
    cases hphi : instr.isPhi with
    | true => simp_all
    | false =>
      simp only [hphi, true_and] at hreadsEven ⊢
      simp only [Bool.false_eq_true, if_false]
      by_cases hreads : v ∈ instr.reads
      · simp [hreads]
      · have hnone : ¬ bb.ReadsAt v (2 * (index + 1)) := fun h => hreads (hreadsEven h)
        simp only [hreads, hnone, false_or]

theorem forwardLiveIn_iff (hbb : f.Placed start bb) :
    f.ForwardLiveIn v start ↔
      LiveBefore (f.ForwardLiveOut start bb v) v bb.instrs ∧ v ∉ phiOutputs bb := by
  have hsize : 0 < bb.size := by simp [size]
  have hdefine := @define_iff f start bb hbb v 0 hsize
  have hlive := @forwardLiveAt_even f start bb hbb v 0 (by omega)
  have hbefore := @liveBefore_iff f start bb hbb v 0 (by omega)
  have hzero : bb.DefinesAt v 0 ↔ v ∈ phiOutputs bb := by
    constructor
    · rintro (⟨-, hphi⟩ | ⟨index, instr, -, -, hoffset⟩)
      · exact hphi
      · omega
    · intro hphi
      exact Or.inl ⟨rfl, hphi⟩
  rw [show start + ((0 : Nat) : Int) = start by omega] at hdefine
  rw [show start + ((2 * 0 : Nat) : Int) = start by omega] at hlive
  simp only [Nat.mul_zero, not_readsAt_zero, false_or] at hlive
  simp only [drop_zero] at hbefore
  unfold ForwardLiveIn LiveIn
  unfold ForwardLiveAt at hlive
  rw [hdefine, hzero, hlive, hbefore, and_comm]

end Function

end CinderX.Jit.Lir
