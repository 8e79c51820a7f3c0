import CinderX.Jit.Hir.Function

/-!
# Paths through the control flow graph

The edges between the blocks of a function, and the walks from its entry.
-/

namespace CinderX.Jit.Hir

variable {n : Nat}

namespace Function

def blockIds (f : Function n) : List BlockId := f.blocks.map BasicBlock.id

def succs (f : Function n) (id : BlockId) : List BlockId :=
  match f.block? id with
  | some block => block.outEdges
  | none => []

def outputsOf (f : Function n) (id : BlockId) : List (Register n) :=
  match f.block? id with
  | some block => block.outputs
  | none => []

variable {f : Function n} {block : BasicBlock n} {id succ : BlockId}

theorem mem_blocks_of_block? (h : f.block? id = some block) : block ∈ f.blocks :=
  List.mem_of_find?_eq_some h

theorem id_of_block? (h : f.block? id = some block) : block.id = id := by
  simpa using List.find?_some h

theorem mem_blockIds : id ∈ f.blockIds ↔ ∃ block ∈ f.blocks, block.id = id := by
  simp [blockIds]

theorem block?_of_mem (h : block ∈ f.blocks) : f.block? block.id = some block := by
  cases hfind : f.block? block.id with
  | none =>
    have := List.find?_eq_none.mp hfind block h
    simp at this
  | some other =>
    have hother := mem_blocks_of_block? hfind
    rw [List.inj_on_of_nodup_map f.nodupIds hother h (id_of_block? hfind)]

theorem block?_isSome : (f.block? id).isSome ↔ id ∈ f.blockIds := by
  rw [mem_blockIds]
  constructor
  · intro h
    obtain ⟨block, hblock⟩ := Option.isSome_iff_exists.mp h
    exact ⟨block, mem_blocks_of_block? hblock, id_of_block? hblock⟩
  · rintro ⟨block, hmem, rfl⟩
    simp [block?_of_mem hmem]

theorem succs_of_mem (h : block ∈ f.blocks) : f.succs block.id = block.outEdges := by
  simp [succs, block?_of_mem h]

theorem outputsOf_of_mem (h : block ∈ f.blocks) : f.outputsOf block.id = block.outputs := by
  simp [outputsOf, block?_of_mem h]

theorem mem_inEdges {pred : BlockId} : pred ∈ f.inEdges id ↔ id ∈ f.succs pred := by
  simp only [inEdges, List.mem_flatMap, List.mem_map, List.mem_filter, decide_eq_true_eq]
  constructor
  · rintro ⟨block, hblock, _, ⟨hedge, rfl⟩, rfl⟩
    rwa [succs_of_mem hblock]
  · intro h
    cases hfind : f.block? pred with
    | none => simp [succs, hfind] at h
    | some block =>
      exact ⟨block, mem_blocks_of_block? hfind, id, ⟨by simpa [succs, hfind] using h, rfl⟩,
        id_of_block? hfind⟩

theorem mem_blockIds_of_mem_inEdges {pred : BlockId} (h : pred ∈ f.inEdges id) :
    pred ∈ f.blockIds := by
  rw [mem_inEdges] at h
  rw [← block?_isSome]
  cases hfind : f.block? pred with
  | none => simp [succs, hfind] at h
  | some block => rfl

/-- The blocks that are executed on the way from the entry to a block, the last one first. -/
inductive Walk (f : Function n) : List BlockId → BlockId → Prop
  | entry : Walk f [] f.entryBlock
  | step {walked : List BlockId} {id succ : BlockId} (h : Walk f walked id)
      (hedge : succ ∈ f.succs id) : Walk f (id :: walked) succ

def definesOn (f : Function n) (walked : List BlockId) (reg : Register n) : Prop :=
  ∃ id ∈ walked, reg ∈ f.outputsOf id

theorem Walk.entry_mem {walked : List BlockId} (h : f.Walk walked id) (hne : walked ≠ []) :
    f.entryBlock ∈ walked := by
  induction h with
  | entry => simp at hne
  | @step walked id succ h hedge ih =>
    by_cases hnil : walked = []
    · subst hnil
      cases h
      simp
    · exact List.mem_cons_of_mem _ (ih hnil)

def linked (f : Function n) : Bool :=
  f.blocks.all fun block => block.outEdges.all fun succ => succ ∈ f.blockIds

theorem mem_blockIds_of_linked (hlinked : f.linked = true) (h : succ ∈ f.succs id) :
    succ ∈ f.blockIds := by
  simp only [linked, List.all_eq_true, decide_eq_true_eq] at hlinked
  cases hfind : f.block? id with
  | none => simp [succs, hfind] at h
  | some block =>
    exact hlinked block (mem_blocks_of_block? hfind) succ (by simpa [succs, hfind] using h)

end Function

end CinderX.Jit.Hir
