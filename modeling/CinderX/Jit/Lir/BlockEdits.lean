import CinderX.Jit.Lir.Function

/-!
# Edits of the control flow of LIR functions

A block is its place in `basic_block_store_`.  An edit has no result where a check of the source
fails, and where it would look for a block that is not there.
-/

namespace CinderX.Jit.Lir.Edits

open List

def relabel (oldPred newPred : BlockId) (input : Input) : Input :=
  if input.kind = .label oldPred then { input with kind := .label newPred } else input

def fixupPhis (oldPred newPred : BlockId) (instrs : List Instruction) : List Instruction :=
  instrs.map fun instr =>
    if instr.isPhi then { instr with inputs := instr.inputs.map (relabel oldPred newPred) }
    else instr

def labelOf (input : Input) : Option BlockId :=
  match input.kind with
  | .label block => some block
  | _ => none

def phiLabels (instrs : List Instruction) : List BlockId :=
  (instrs.filter (·.isPhi)).flatMap fun phi => phi.inputs.filterMap labelOf

structure Blocks where
  successors : BlockId → List BlockId := fun _ => []
  predecessors : BlockId → List BlockId := fun _ => []
  instrs : BlockId → List Instruction := fun _ => []
  size : Nat := 0
  basicBlocks : List BlockId := []

namespace Blocks

def setSuccessors (f : Blocks) (b : BlockId) (blocks : List BlockId) : Blocks :=
  { f with successors := Function.update f.successors b blocks }

def setPredecessors (f : Blocks) (b : BlockId) (blocks : List BlockId) : Blocks :=
  { f with predecessors := Function.update f.predecessors b blocks }

def setInstrs (f : Blocks) (b : BlockId) (instrs : List Instruction) : Blocks :=
  { f with instrs := Function.update f.instrs b instrs }

def addSuccessor (f : Blocks) (b bb : BlockId) : Blocks :=
  (f.setSuccessors b (f.successors b ++ [bb])).setPredecessors bb (f.predecessors bb ++ [b])

def erasePredecessor (f : Blocks) (b pred : BlockId) : Option Blocks :=
  if pred ∈ f.predecessors b then
    some (f.setPredecessors b ((f.predecessors b).erase pred))
  else none

def setSuccessor (f : Blocks) (b : BlockId) (index : Nat) (bb : BlockId) : Option Blocks :=
  match (f.successors b)[index]? with
  | none => none
  | some oldBb => do
      let f ← f.erasePredecessor oldBb b
      let f := f.setSuccessors b ((f.successors b).set index bb)
      pure (f.setPredecessors bb (f.predecessors bb ++ [b]))

def allocateBasicBlock (f : Blocks) : Blocks :=
  { f with size := f.size + 1, basicBlocks := f.basicBlocks ++ [f.size] }

def allocateBasicBlockAfter (f : Blocks) (b : BlockId) : Option Blocks :=
  if b ∈ f.basicBlocks then
    some { f with
      size := f.size + 1
      basicBlocks := f.basicBlocks.insertIdx (f.basicBlocks.idxOf b + 1) f.size }
  else none

def insertBasicBlockBetween (f : Blocks) (b block : BlockId) : Option Blocks :=
  if block ∈ f.successors b then do
    let newBlock := f.size
    let f ← f.allocateBasicBlockAfter b
    let f := f.setSuccessors b ((f.successors b).set ((f.successors b).idxOf block) newBlock)
    let f := f.setPredecessors newBlock (f.predecessors newBlock ++ [b])
    let f ← f.erasePredecessor block b
    pure (f.addSuccessor newBlock block)
  else none

/-- What `splitBefore` does for one of the successors. -/
def moveEdge (b secondBlock : BlockId) (f : Blocks) (bb : BlockId) : Blocks :=
  let f := f.setInstrs bb (fixupPhis b secondBlock (f.instrs bb))
  let f := f.setSuccessors secondBlock (f.successors secondBlock ++ [bb])
  f.setPredecessors bb ((f.predecessors bb).map fun p => if p = b then secondBlock else p)

/-- An instruction of another block is a place behind the end. -/
def splitBefore (f : Blocks) (b : BlockId) (place : Nat) : Option Blocks :=
  match (f.instrs b)[place]? with
  | none => some f
  | some instr =>
    if instr.isPhi then none
    else do
      let secondBlock := f.size
      let f ← f.allocateBasicBlockAfter b
      let f := f.setInstrs secondBlock (f.instrs secondBlock ++ (f.instrs b).drop place)
      let f := f.setInstrs b ((f.instrs b).take place)
      let f := (f.successors b).foldl (moveEdge b secondBlock) f
      pure ((f.setSuccessors b []).addSuccessor b secondBlock)

end Blocks

/-- `setInstrs` stands for what passes do to the instructions of a block in between. -/
inductive Edit where
  | allocateBasicBlock
  | setInstrs (b : BlockId) (instrs : List Instruction)
  | addSuccessor (b bb : BlockId)
  | setSuccessor (b : BlockId) (index : Nat) (bb : BlockId)
  | insertBasicBlockBetween (b block : BlockId)
  | splitBefore (b : BlockId) (place : Nat)
  | removeBlock (b : BlockId)

namespace Edit

def blocks : Edit → List BlockId
  | allocateBasicBlock => []
  | setInstrs b instrs => b :: phiLabels instrs
  | addSuccessor b bb | setSuccessor b _ bb | insertBasicBlockBetween b bb => [b, bb]
  | splitBefore b _ | removeBlock b => [b]

def apply (f : Blocks) : Edit → Option Blocks
  | allocateBasicBlock => some f.allocateBasicBlock
  | setInstrs b instrs => some (f.setInstrs b instrs)
  | addSuccessor b bb => some (f.addSuccessor b bb)
  | setSuccessor b index bb => f.setSuccessor b index bb
  | insertBasicBlockBetween b block => f.insertBasicBlockBetween b block
  | splitBefore b place => f.splitBefore b place
  | removeBlock b => some { f with basicBlocks := f.basicBlocks.filter (· ≠ b) }

end Edit

def step (f : Blocks) (edit : Edit) : Option Blocks :=
  if ∀ b ∈ edit.blocks, b < f.size then edit.apply f else none

def run (f : Blocks) (edits : List Edit) : Option Blocks := edits.foldlM step f

/-! ## What edits keep -/

variable {f f' : Blocks} {a b x y : BlockId}

def Blocks.PhisNamePredecessors (f : Blocks) (b : BlockId) : Prop :=
  ∀ l ∈ phiLabels (f.instrs b), l ∈ f.predecessors b

structure WellFormed (f : Blocks) : Prop where
  symmetric : ∀ a b, (f.successors a).count b = (f.predecessors b).count a
  fresh : ∀ b, f.size ≤ b → f.successors b = [] ∧ f.predecessors b = [] ∧ f.instrs b = []
  named : ∀ b, ∀ l ∈ phiLabels (f.instrs b), l < f.size

def Edit.affected (f : Blocks) : Edit → List BlockId
  | insertBasicBlockBetween _ block => [f.size, block]
  | splitBefore b place => if place < (f.instrs b).length then f.size :: f.successors b else []
  | _ => []

/-- What an edit needs of the phis, as it leaves those of `insertBasicBlockBetween` and those
behind the place of `splitBefore` as they are. -/
def Edit.PhisFit (f : Blocks) : Edit → Prop
  | insertBasicBlockBetween b block =>
    ∀ l ∈ phiLabels (f.instrs block), l ∈ (f.predecessors block).erase b
  | splitBefore b place => place < (f.instrs b).length →
      (∀ l ∈ phiLabels ((f.instrs b).drop place), l = b) ∧
        ∀ bb ∈ f.successors b, f.PhisNamePredecessors bb
  | _ => True

open Blocks

theorem erasePredecessor_eq (hf : f.erasePredecessor b x = some f') :
    x ∈ f.predecessors b ∧ f' = f.setPredecessors b ((f.predecessors b).erase x) := by
  unfold erasePredecessor at hf
  split at hf
  · exact ⟨by assumption, (Option.some.inj hf).symm⟩
  · cases hf

theorem allocateBasicBlockAfter_eq (hf : f.allocateBasicBlockAfter b = some f') :
    ∃ basicBlocks, f' = { f with size := f.size + 1, basicBlocks } := by
  unfold allocateBasicBlockAfter at hf
  split at hf
  · cases hf
    exact ⟨_, rfl⟩
  · cases hf

variable {n : BlockId}

theorem fixupPhis_fixupPhis (hbn : b ≠ n) (instrs : List Instruction) :
    fixupPhis b n (fixupPhis b n instrs) = fixupPhis b n instrs := by
  have hidem : ∀ input, relabel b n (relabel b n input) = relabel b n input := by
    intro input
    unfold relabel
    grind
  simp only [fixupPhis, map_map]
  apply map_congr_left
  intro instr _
  by_cases hphi : instr.isPhi
  · have hphi' : ∀ inputs, ({ instr with inputs } : Instruction).isPhi := fun _ => hphi
    simp only [Function.comp_apply, hphi, hphi', if_true, map_map]
    simp only [Function.comp_def, hidem]
  · simp [hphi]

theorem phiLabels_fixupPhis (instrs : List Instruction) :
    phiLabels (fixupPhis b n instrs) =
      (phiLabels instrs).map fun p => if p = b then n else p := by
  induction instrs with
  | nil => rfl
  | cons instr instrs ih =>
    by_cases hphi : instr.isPhi
    · have hphi' : ∀ inputs, ({ instr with inputs } : Instruction).isPhi := fun _ => hphi
      have hlabels : (instr.inputs.map (relabel b n)).filterMap labelOf =
          (instr.inputs.filterMap labelOf).map fun p => if p = b then n else p := by
        rw [filterMap_map, map_filterMap]
        apply filterMap_congr
        intro input _
        simp only [Function.comp_apply, relabel, labelOf]
        grind
      simp only [phiLabels, fixupPhis] at ih
      simp [phiLabels, fixupPhis, hphi, hphi', hlabels, ih]
    · simp only [phiLabels, fixupPhis] at ih
      simp [phiLabels, fixupPhis, hphi, ih]

theorem foldl_moveEdge (hbn : b ≠ n) (succs : List BlockId) (g : Blocks) :
    succs.foldl (moveEdge b n) g = { g with
      successors := Function.update g.successors n (g.successors n ++ succs)
      predecessors := fun x => if x ∈ succs then
        (g.predecessors x).map fun p => if p = b then n else p else g.predecessors x
      instrs := fun x => if x ∈ succs then fixupPhis b n (g.instrs x) else g.instrs x } := by
  induction succs generalizing g with
  | nil => simp
  | cons s succs ih =>
    rw [foldl_cons, ih]
    simp only [moveEdge, setInstrs, setSuccessors, setPredecessors, Function.update_self,
      Function.update_idem, append_assoc, singleton_append, Blocks.mk.injEq, true_and, and_true]
    constructor
    · funext x
      simp only [Function.update_apply]
      have hidem : ∀ ps : List BlockId, (ps.map fun p => if p = b then n else p).map
          (fun p => if p = b then n else p) = ps.map fun p => if p = b then n else p := by
        intro ps
        rw [map_map]
        apply map_congr_left
        grind
      grind
    · funext x
      have hidem := fixupPhis_fixupPhis hbn
      simp only [Function.update_apply]
      grind

theorem WellFormed.mem_predecessors (h : WellFormed f) :
    x ∈ f.predecessors y ↔ y ∈ f.successors x := by
  rw [← count_pos_iff, ← count_pos_iff, h.symmetric]

theorem splitBefore_eq {place : Nat} (h : WellFormed f) (hb : b < f.size)
    (hplace : place < (f.instrs b).length) (hf : f.splitBefore b place = some f') :
    ∃ basicBlocks, f' =
      { successors :=
          Function.update (Function.update f.successors f.size (f.successors b)) b [f.size]
        predecessors := Function.update (fun x => if x ∈ f.successors b then
            (f.predecessors x).map fun p => if p = b then f.size else p
          else f.predecessors x) f.size [b]
        instrs := Function.update (fun x => if x ∈ f.successors b then
            fixupPhis b f.size (Function.update f.instrs b ((f.instrs b).take place) x)
          else Function.update f.instrs b ((f.instrs b).take place) x)
          f.size ((f.instrs b).drop place)
        size := f.size + 1
        basicBlocks } := by
  unfold splitBefore at hf
  rw [getElem?_eq_getElem hplace] at hf
  simp only at hf
  split at hf
  · cases hf
  · obtain ⟨g, hg, hf⟩ := Option.bind_eq_some_iff.1 hf
    obtain ⟨bs, rfl⟩ := allocateBasicBlockAfter_eq hg
    cases hf
    have hbn : b ≠ f.size := Nat.ne_of_lt hb
    obtain ⟨hsucc, hpred, hinstr⟩ := h.fresh f.size (Nat.le_refl _)
    have hmem : f.size ∉ f.successors b := by
      rw [← h.mem_predecessors, hpred]
      exact not_mem_nil
    refine ⟨bs, ?_⟩
    rw [foldl_moveEdge hbn]
    simp only [Blocks.addSuccessor, setInstrs, setSuccessors, setPredecessors, Blocks.mk.injEq,
      and_true]
    refine ⟨?_, ?_, ?_⟩
    · funext x
      simp only [Function.update_apply]
      grind
    · funext x
      simp only [Function.update_apply]
      grind
    · funext x
      simp only [Function.update_apply]
      grind

theorem mem_phiLabels_place (place : Nat) (instrs : List Instruction) :
    x ∈ phiLabels instrs ↔
      x ∈ phiLabels (instrs.take place) ∨ x ∈ phiLabels (instrs.drop place) := by
  rw [← mem_append]
  simp only [phiLabels, ← flatMap_append, ← filter_append, take_append_drop]

theorem count_redirect (x : BlockId) (ps : List BlockId) :
    (ps.map fun p => if p = b then n else p).count x =
      (if x = n then ps.count b else 0) + if x = b then 0 else ps.count x := by
  induction ps with
  | nil => simp
  | cons p ps ih =>
    simp only [map_cons, count_cons, ih]
    grind

namespace WellFormed

theorem addSuccessor (h : WellFormed f) (hx : x < f.size) (hy : y < f.size) :
    WellFormed (f.addSuccessor x y) where
  symmetric a b := by
    have hab := h.symmetric a b
    simp only [Blocks.addSuccessor, setSuccessors, setPredecessors, Function.update_apply]
    grind
  fresh b hb := by
    have hb' := h.fresh b hb
    simp only [Blocks.addSuccessor, setSuccessors, setPredecessors, Function.update_apply] at hb ⊢
    grind
  named := h.named

theorem setSuccessor {i : Nat} (h : WellFormed f) (hx : x < f.size) (hy : y < f.size)
    (hf : f.setSuccessor x i y = some f') : WellFormed f' := by
  unfold Blocks.setSuccessor at hf
  split at hf
  · cases hf
  case h_2 old hold =>
    obtain ⟨g, hg, hf⟩ := Option.bind_eq_some_iff.1 hf
    obtain ⟨hmem, rfl⟩ := erasePredecessor_eq hg
    obtain ⟨hlt, hget⟩ := List.getElem?_eq_some_iff.1 hold
    cases hf
    refine ⟨fun a b => ?_, fun b hb => ?_, h.named⟩
    · have hab := h.symmetric a b
      have hset := List.count_set (b := b) (a := y) hlt
      have hpos := count_pos_iff.2 hmem
      simp only [setSuccessors, setPredecessors, Function.update_apply]
      grind
    · have hb' := h.fresh b hb
      simp only [setSuccessors, setPredecessors, Function.update_apply] at hb ⊢
      grind

theorem insertBasicBlockBetween (h : WellFormed f) (hx : x < f.size) (hy : y < f.size)
    (hf : f.insertBasicBlockBetween x y = some f') : WellFormed f' := by
  unfold Blocks.insertBasicBlockBetween at hf
  split at hf
  case isFalse => cases hf
  case isTrue hmem =>
    obtain ⟨g, hg, hf⟩ := Option.bind_eq_some_iff.1 hf
    obtain ⟨bs, rfl⟩ := allocateBasicBlockAfter_eq hg
    obtain ⟨g, hg', hf⟩ := Option.bind_eq_some_iff.1 hf
    obtain ⟨hpred, rfl⟩ := erasePredecessor_eq hg'
    cases hf
    have hlt := idxOf_lt_length_of_mem hmem
    have hget := getElem_idxOf hlt
    have hnew := h.fresh f.size (Nat.le_refl _)
    refine ⟨fun a b => ?_, fun b hb => ?_, fun b l hl => Nat.lt_succ_of_lt (h.named b l hl)⟩
    · have hab := h.symmetric a b
      have hset := List.count_set (b := b) (a := f.size) hlt
      have hpos := count_pos_iff.2 hmem
      simp only [Blocks.addSuccessor, setSuccessors, setPredecessors, Function.update_apply]
        at hpred ⊢
      grind
    · have hb' := h.fresh b (Nat.le_of_succ_le hb)
      simp only [Blocks.addSuccessor, setSuccessors, setPredecessors, Function.update_apply]
        at hb ⊢
      grind

variable {place : Nat}

theorem splitBefore (h : WellFormed f) (hb : b < f.size)
    (hplace : place < (f.instrs b).length) (hf : f.splitBefore b place = some f') :
    WellFormed f' := by
  obtain ⟨bs, rfl⟩ := splitBefore_eq h hb hplace hf
  have hnew := h.fresh f.size (Nat.le_refl _)
  have hmem := fun x => h.mem_predecessors (x := b) (y := x)
  refine ⟨fun x y => ?_, fun x hx => ?_, fun x l hl => ?_⟩
  · have hxy := h.symmetric x y
    have hby := h.symmetric b y
    have hcount := count_redirect (b := b) (n := f.size) x (f.predecessors y)
    have hn := h.symmetric f.size y
    simp only [Function.update_apply]
    grind
  · have hx' := h.fresh x (Nat.le_of_succ_le hx)
    have hxb := h.mem_predecessors (x := b) (y := x)
    simp only [Function.update_apply] at hx ⊢
    grind
  · have hl' := h.named
    have hlabels := mem_phiLabels_place (x := l) place (f.instrs b)
    clear hf
    simp only [Function.update_apply] at hl ⊢
    split at hl
    · grind
    split at hl
    · rw [phiLabels_fixupPhis, mem_map] at hl
      obtain ⟨k, hk, rfl⟩ := hl
      have hk' := mem_phiLabels_place (x := k) place (f.instrs b)
      grind
    · grind

theorem phis_insertBasicBlockBetween (h : WellFormed f) (hy : y < f.size)
    (hf : f.insertBasicBlockBetween x y = some f') :
    (∀ b ∈ (Edit.insertBasicBlockBetween x y).affected f, f'.PhisNamePredecessors b) ↔
      (Edit.insertBasicBlockBetween x y).PhisFit f := by
  unfold Blocks.insertBasicBlockBetween at hf
  split at hf
  case isFalse => cases hf
  case isTrue hmem =>
    obtain ⟨g, hg, hf⟩ := Option.bind_eq_some_iff.1 hf
    obtain ⟨bs, rfl⟩ := allocateBasicBlockAfter_eq hg
    obtain ⟨g, hg', hf⟩ := Option.bind_eq_some_iff.1 hf
    obtain ⟨hpred, rfl⟩ := erasePredecessor_eq hg'
    cases hf
    have hempty : phiLabels (f.instrs f.size) = [] := by
      rw [(h.fresh f.size (Nat.le_refl _)).2.2]
      rfl
    -- the phis of `y` name old blocks only, so the new edge makes none of them fit
    have hold : ∀ l ∈ phiLabels (f.instrs y), l ≠ f.size := fun l hl =>
      Nat.ne_of_lt (h.named y l hl)
    have hyn : y ≠ f.size := Nat.ne_of_lt hy
    simp only [Edit.affected, Edit.PhisFit, forall_mem_cons, Blocks.PhisNamePredecessors,
      Blocks.addSuccessor, setSuccessors, setPredecessors, Function.update_apply, hempty]
    grind

theorem phis_splitBefore (h : WellFormed f) (hb : b < f.size)
    (hplace : place < (f.instrs b).length) (hf : f.splitBefore b place = some f') :
    (∀ x ∈ (Edit.splitBefore b place).affected f, f'.PhisNamePredecessors x) ↔
      (Edit.splitBefore b place).PhisFit f := by
  obtain ⟨bs, rfl⟩ := splitBefore_eq h hb hplace hf
  clear hf
  simp only [Edit.affected, Edit.PhisFit, hplace, if_true, true_imp_iff, forall_mem_cons]
  have hdrop : (∀ l ∈ phiLabels ((f.instrs b).drop place), l ∈ [b]) ↔
      ∀ l ∈ phiLabels ((f.instrs b).drop place), l = b := by simp
  simp only [Blocks.PhisNamePredecessors, Function.update_self, hdrop]
  apply and_congr_right
  intro hdrop
  apply forall₂_congr
  intro x hx
  have hbx := h.mem_predecessors.2 hx
  have hxn : x ≠ f.size := by
    rintro rfl
    rw [(h.fresh f.size (Nat.le_refl _)).2.1] at hbx
    cases hbx
  -- what the phis in front of the place name, those of `b` itself too
  have hlabels : ∀ l, l ∈ phiLabels (f.instrs x) ↔
      l ∈ phiLabels (Function.update f.instrs b ((f.instrs b).take place) x) ∨
        x = b ∧ l ∈ phiLabels ((f.instrs b).drop place) := by
    intro l
    have hplace := mem_phiLabels_place (x := l) place (f.instrs b)
    simp only [Function.update_apply]
    grind
  have hlt : ∀ l ∈ phiLabels (f.instrs x), l ≠ f.size := fun l hl =>
    Nat.ne_of_lt (h.named x l hl)
  have hpreds : ∀ l ∈ f.predecessors x, l ≠ f.size := by
    rintro _ hl rfl
    rw [h.mem_predecessors, (h.fresh f.size (Nat.le_refl _)).1] at hl
    cases hl
  simp only [Function.update_of_ne hxn, if_pos hx, phiLabels_fixupPhis, mem_map]
  constructor
  · intro hfit l hl
    rcases (hlabels l).1 hl with htake | ⟨rfl, hl'⟩
    · obtain ⟨k, hk, hkl⟩ := hfit _ ⟨l, htake, rfl⟩
      have hln := hlt l hl
      have hkn := hpreds k hk
      grind
    · rw [hdrop l hl']
      exact hbx
  · rintro hfit _ ⟨l, hl, rfl⟩
    have hl' := hfit l ((hlabels l).2 (.inl hl))
    exact ⟨l, hl', rfl⟩

theorem step {edit : Edit} (h : WellFormed f) (hf : step f edit = some f') :
    WellFormed f' := by
  unfold Edits.step at hf
  split at hf
  case isFalse => cases hf
  case isTrue hlt =>
    cases edit with
    | allocateBasicBlock =>
      cases hf
      exact ⟨h.symmetric, fun b hb => h.fresh b (Nat.le_of_succ_le hb),
        fun b l hl => Nat.lt_succ_of_lt (h.named b l hl)⟩
    | setInstrs b instrs =>
      cases hf
      simp only [Edit.blocks, forall_mem_cons] at hlt
      refine ⟨h.symmetric, fun x hx => ?_, fun x l hl => ?_⟩
      · have hx' := h.fresh x hx
        simp only [Blocks.setInstrs, Function.update_apply] at hx ⊢
        grind
      · have hl' := h.named x l
        simp only [Blocks.setInstrs, Function.update_apply] at hl ⊢
        grind
    | addSuccessor b bb =>
      cases hf
      exact h.addSuccessor (hlt b (by simp [Edit.blocks])) (hlt bb (by simp [Edit.blocks]))
    | setSuccessor b index bb =>
      exact h.setSuccessor (hlt b (by simp [Edit.blocks])) (hlt bb (by simp [Edit.blocks])) hf
    | insertBasicBlockBetween b block =>
      exact h.insertBasicBlockBetween (hlt b (by simp [Edit.blocks]))
        (hlt block (by simp [Edit.blocks])) hf
    | splitBefore b place =>
      by_cases hplace : place < (f.instrs b).length
      · exact h.splitBefore (hlt b (by simp [Edit.blocks])) hplace hf
      · have hend := getElem?_eq_none (Nat.le_of_not_lt hplace)
        simp only [Edit.apply, Blocks.splitBefore, hend] at hf
        cases hf
        exact h
    | removeBlock b =>
      cases hf
      exact ⟨h.symmetric, h.fresh, h.named⟩

theorem run {edits : List Edit} (h : WellFormed f) (hf : run f edits = some f') :
    WellFormed f' := by
  induction edits generalizing f with
  | nil =>
    cases hf
    exact h
  | cons edit edits ih =>
    obtain ⟨g, hg, hf⟩ := Option.bind_eq_some_iff.1 hf
    exact ih (h.step hg) hf

end WellFormed

/-- Every run keeps the edges symmetric, and an edit leaves the phis naming predecessors exactly
where they fitted before. -/
theorem run_symmetric_phis {edits : List Edit} (hrun : run {} edits = some f) :
    (∀ a b, (f.successors a).count b = (f.predecessors b).count a) ∧
      ∀ edit f', step f edit = some f' →
        ((∀ b ∈ edit.affected f, f'.PhisNamePredecessors b) ↔ edit.PhisFit f) := by
  have h : WellFormed f := WellFormed.run ⟨by simp, by simp, by simp [phiLabels]⟩ hrun
  refine ⟨h.symmetric, fun edit f' hf => ?_⟩
  unfold step at hf
  split at hf
  case isFalse => cases hf
  case isTrue hlt =>
    cases edit with
    | insertBasicBlockBetween b block =>
      exact h.phis_insertBasicBlockBetween (hlt block (by simp [Edit.blocks])) hf
    | splitBefore b place =>
      by_cases hplace : place < (f.instrs b).length
      · exact h.phis_splitBefore (hlt b (by simp [Edit.blocks])) hplace hf
      · simp [Edit.affected, Edit.PhisFit, hplace]
    | _ => simp [Edit.affected, Edit.PhisFit]

def phiEdge : List Edit :=
  [.allocateBasicBlock, .allocateBasicBlock, .addSuccessor 0 1,
    .setInstrs 1 [⟨.kPhi, .none, [⟨.label 0, .kObject⟩, ⟨.imm, .kObject⟩]⟩]]

theorem run_symmetric_phis_phiEdge :
    ∃ f, run {} (phiEdge ++ [.setInstrs 0 [⟨.kReturn, .none, []⟩]]) = some f ∧
      ∀ f', step f (.splitBefore 0 0) = some f' → f'.PhisNamePredecessors 1 := by
  refine ⟨_, rfl, fun f' hf => ?_⟩
  have hrun : run {} (phiEdge ++ [.setInstrs 0 [⟨.kReturn, .none, []⟩]]) = some _ := rfl
  apply ((run_symmetric_phis hrun).2 _ f' hf).2
  · simp only [Edit.PhisFit, Blocks.PhisNamePredecessors]
    decide
  · decide

theorem insertBasicBlockBetween_phis :
    ¬ ∀ edits f edit f', run {} edits = some f → step f edit = some f' →
      ∀ b ∈ edit.affected f, f'.PhisNamePredecessors b := by
  intro hall
  have hphi := hall phiEdge _ (.insertBasicBlockBetween 0 1) _ rfl rfl
  have hmem := hphi 1 (by decide) 0 (by decide)
  revert hmem
  decide

end CinderX.Jit.Lir.Edits
