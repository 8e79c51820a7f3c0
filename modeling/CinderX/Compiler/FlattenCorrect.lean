import CinderX.Compiler.AssemblerCorrect

/-!
# Where flattening stops

The last pass of `flatten_graph` changes no size, so the offsets it has used are those
of the code it leaves.
-/

namespace CinderX.Compiler

open List Option

variable {Op : Type} {opcodes : Opcodes Op}

def codeSize (opcodes : Opcodes Op) (g : List (Block Op)) : Nat :=
  (g.map fun b => instsSize opcodes b.insts).sum

def blockOffset (opcodes : Opcodes Op) (g : List (Block Op)) (k : Nat) : Nat :=
  codeSize opcodes (g.take k)

theorem instsSize_flatInsts (g : List (Block Op)) :
    instsSize opcodes (flatInsts g) = codeSize opcodes g := by
  induction g with
  | nil => rfl
  | cons b g ih =>
    simp only [flatInsts, codeSize, flatMap_cons, map_cons, sum_cons] at ih ⊢
    rw [← ih]
    simp [instsSize]

theorem lookup_blockOffsets (g : List (Block Op)) :
    ∀ {pc k : Nat} {b : Block Op}, (g.map (·.bid)).Nodup → g[k]? = some b →
      (blockOffsets opcodes pc g).lookup b.bid = some (pc + blockOffset opcodes g k) := by
  induction g with
  | nil => exact nofun
  | cons b' g ih =>
    intro pc k b hnodup hk
    rw [map_cons, nodup_cons] at hnodup
    cases k with
    | zero =>
      obtain rfl : b' = b := by simpa using hk
      simp [blockOffsets, blockOffset, codeSize]
    | succ k =>
      rw [getElem?_cons_succ] at hk
      have hne : b.bid ≠ b'.bid := by
        intro h
        apply hnodup.1
        rw [← h]
        exact List.mem_map_of_mem (mem_of_getElem? hk)
      have hlookup : (blockOffsets opcodes (pc + instsSize opcodes b'.insts) g).lookup b.bid =
          some (pc + instsSize opcodes b'.insts + blockOffset opcodes g k) := ih hnodup.2 hk
      simp only [blockOffsets, lookup_cons, beq_eq_false_iff_ne.mpr hne]
      rw [hlookup]
      simp [blockOffset, codeSize, Nat.add_assoc]

theorem blockOffsets_congr (g : List (Block Op)) :
    ∀ {g' : List (Block Op)} {pc : Nat},
      (g.map fun b => (b.bid, instsSize opcodes b.insts)) =
        (g'.map fun b => (b.bid, instsSize opcodes b.insts)) →
      blockOffsets opcodes pc g = blockOffsets opcodes pc g' := by
  induction g with
  | nil =>
    intro g' pc h
    obtain rfl : g' = [] := by simpa using h.symm
    rfl
  | cons b g ih =>
    intro g' pc h
    cases g' with
    | nil => simp at h
    | cons b' g' =>
      simp only [map_cons, List.cons.injEq, Prod.mk.injEq] at h
      simp only [blockOffsets, h.1.1, h.1.2]
      rw [ih h.2]

def Inst.core (opcodes : Opcodes Op) (inst : Inst Op) : Inst Op :=
  if opcodes.hasJump inst.opname then { inst with ioparg := 0 } else inst

def Block.core (opcodes : Opcodes Op) (b : Block Op) : Block Op :=
  ⟨b.bid, b.insts.map (Inst.core opcodes)⟩

theorem initOperands_core (v314 : Bool) (g : List (Block Op)) :
    (initOperands opcodes v314 g).map (Block.core opcodes) = g.map (Block.core opcodes) := by
  have hinst : ∀ labels (inst : Inst Op),
      (initOperand opcodes v314 labels inst).core opcodes = inst.core opcodes := by
    intro labels inst
    unfold initOperand Inst.core
    split <;> simp [*]
  simp [initOperands, Block.core, Function.comp_def, hinst]

variable [DecidableEq Op]

variable {offsets : List (Nat × Nat)}

theorem flattenInsts_core (insts : List (Inst Op)) :
    ∀ {pc : Nat} {r : List (Inst Op) × Bool},
      flattenInsts opcodes offsets pc insts = some r →
      r.1.map (Inst.core opcodes) = insts.map (Inst.core opcodes) := by
  induction insts with
  | nil =>
    intro pc r h
    cases h
    rfl
  | cons inst insts ih =>
    intro pc r h
    obtain ⟨r', hrest, h⟩ := bind_eq_some_iff.mp h
    have hrest := ih hrest
    dsimp only at h
    split at h
    next hjump =>
      obtain ⟨offset, -, h⟩ := bind_eq_some_iff.mp h
      cases h
      simp [Inst.core, hjump, hrest]
    next =>
      cases h
      simp [hrest]

theorem flattenBlocks_core (g : List (Block Op)) :
    ∀ {pc : Nat} {r : List (Block Op) × Bool},
      flattenBlocks opcodes offsets pc g = some r →
      r.1.map (Block.core opcodes) = g.map (Block.core opcodes) := by
  induction g with
  | nil =>
    intro pc r h
    cases h
    rfl
  | cons b g ih =>
    intro pc r h
    obtain ⟨insts, hinsts, h⟩ := bind_eq_some_iff.mp h
    obtain ⟨r', hrest, h⟩ := bind_eq_some_iff.mp h
    cases h
    simp [Block.core, flattenInsts_core b.insts hinsts, ih hrest]

theorem FlattensTo.core {g g' : List (Block Op)} (h : FlattensTo opcodes g g') :
    g'.map (Block.core opcodes) = g.map (Block.core opcodes) := by
  induction h with
  | done h => exact flattenBlocks_core _ h
  | again h _ ih => exact ih.trans (flattenBlocks_core _ h)

/-- The operands of the jumps are what `flatten_jump` computes at their ends. -/
def JumpsFlat (opcodes : Opcodes Op) (offsets : List (Nat × Nat)) (pc : Nat)
    (insts : List (Inst Op)) : Prop :=
  ∀ i inst, insts[i]? = some inst → opcodes.hasJump inst.opname →
    flattenJump opcodes offsets inst
      (pc + instsSize opcodes (insts.take i) + instSize opcodes inst) = some inst.ioparg

theorem flattenInsts_final (insts : List (Inst Op)) :
    ∀ {pc : Nat} {insts' : List (Inst Op)},
      flattenInsts opcodes offsets pc insts = some (insts', false) →
      instsSize opcodes insts' = instsSize opcodes insts ∧
        JumpsFlat opcodes offsets pc insts' := by
  induction insts with
  | nil =>
    intro pc insts' h
    obtain rfl := (Prod.mk.inj (Option.some.inj h)).1
    exact ⟨rfl, fun i inst hi => by simp at hi⟩
  | cons inst insts ih =>
    intro pc insts' h
    obtain ⟨⟨rest, recompile⟩, hrest, h⟩ := bind_eq_some_iff.mp h
    -- the first instruction keeps its size, whether it is a jump or not
    have hfirst : ∃ first, insts' = first :: rest ∧ recompile = false ∧
        instSize opcodes first = instSize opcodes inst ∧
        (opcodes.hasJump first.opname → flattenJump opcodes offsets first
          (pc + instSize opcodes first) = some first.ioparg) := by
      dsimp only at h
      split at h
      next hjump =>
        obtain ⟨offset, hoffset, h⟩ := bind_eq_some_iff.mp h
        simp only [Option.pure_def, Option.some.injEq, Prod.mk.injEq, Bool.or_eq_false_iff,
          bne_eq_false_iff_eq] at h
        obtain ⟨rfl, hrecompile, hsize⟩ := h
        refine ⟨_, rfl, hrecompile, hsize.symm, fun _ => ?_⟩
        have hsame : instSize opcodes { inst with ioparg := offset } =
            instSize opcodes inst := hsize.symm
        rw [hsame]
        exact hoffset
      next hjump =>
        simp only [Option.pure_def, Option.some.injEq, Prod.mk.injEq] at h
        obtain ⟨rfl, hrecompile⟩ := h
        exact ⟨inst, rfl, hrecompile, rfl, fun h => absurd h hjump⟩
    obtain ⟨first, rfl, rfl, hsize, hjump⟩ := hfirst
    obtain ⟨hsizes, hjumps⟩ := ih hrest
    constructor
    · simp only [instsSize, map_cons, sum_cons] at hsizes ⊢
      rw [hsize, hsizes]
    · intro i inst' hi hj
      cases i with
      | zero =>
        obtain rfl : first = inst' := by simpa using hi
        simpa [instsSize] using hjump hj
      | succ i =>
        rw [getElem?_cons_succ] at hi
        have hrestJump := hjumps i inst' hi hj
        rw [← hsize] at hrestJump
        simpa [instsSize, Nat.add_assoc] using hrestJump

theorem flattenBlocks_final (g : List (Block Op)) :
    ∀ {pc : Nat} {g' : List (Block Op)},
      flattenBlocks opcodes offsets pc g = some (g', false) →
      (g'.map fun b => (b.bid, instsSize opcodes b.insts)) =
          (g.map fun b => (b.bid, instsSize opcodes b.insts)) ∧
        ∀ k b, g'[k]? = some b →
          JumpsFlat opcodes offsets (pc + blockOffset opcodes g' k) b.insts := by
  induction g with
  | nil =>
    intro pc g' h
    obtain rfl := (Prod.mk.inj (Option.some.inj h)).1
    exact ⟨rfl, fun k b hk => by simp at hk⟩
  | cons b g ih =>
    intro pc g' h
    obtain ⟨⟨insts, recompile⟩, hinsts, h⟩ := Option.bind_eq_some_iff.mp h
    obtain ⟨⟨rest, recompile'⟩, hrest, h⟩ := Option.bind_eq_some_iff.mp h
    simp only [Option.pure_def, Option.some.injEq, Prod.mk.injEq, Bool.or_eq_false_iff] at h
    obtain ⟨rfl, rfl, rfl⟩ := h
    obtain ⟨hsize, hjumps⟩ := flattenInsts_final b.insts hinsts
    obtain ⟨hsizes, hrests⟩ := ih hrest
    constructor
    · simp only [map_cons, hsize, hsizes]
    · intro k b' hk
      cases k with
      | zero =>
        obtain rfl : (⟨b.bid, insts⟩ : Block Op) = b' := by simpa using hk
        simpa [blockOffset, codeSize] using hjumps
      | succ k =>
        rw [getElem?_cons_succ] at hk
        have hblock := hrests k b' hk
        rw [← hsize] at hblock
        simpa [blockOffset, codeSize, Nat.add_assoc] using hblock

theorem FlattensTo.jumpsFlat {g g' : List (Block Op)} (h : FlattensTo opcodes g g') :
    ∀ k b, g'[k]? = some b → JumpsFlat opcodes (blockOffsets opcodes 0 g')
      (blockOffset opcodes g' k) b.insts := by
  induction h with
  | @done g g' h =>
    obtain ⟨hsizes, hjumps⟩ := flattenBlocks_final g h
    rw [blockOffsets_congr g' hsizes]
    simpa using hjumps
  | again _ _ ih => exact ih

end CinderX.Compiler
