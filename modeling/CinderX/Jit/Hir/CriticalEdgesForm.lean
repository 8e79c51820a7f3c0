import CinderX.Jit.Hir.CriticalEdges

/-!
# Functions with an edge split

A block on an edge changes one edge of the graph and the phis behind it, and the verifier accepts
the function as before.
-/

namespace CinderX.Jit.Hir

open List Hir.Function Instr BasicBlock

variable {n : Nat}

structure Instr.PhiOrdered (phi : Instr n) : Prop where
  length : phi.basicBlocks.length = phi.operands.length
  ordered : phi.basicBlocks.Pairwise (· < ·)

instance (phi : Instr n) : Decidable phi.PhiOrdered :=
  decidable_of_iff
    (phi.basicBlocks.length = phi.operands.length ∧ phi.basicBlocks.Pairwise (· < ·))
    ⟨fun h => ⟨h.1, h.2⟩, fun h => ⟨h.length, h.ordered⟩⟩

namespace Instr.PhiOrdered

variable {phi : Instr n} {pred oldPred newPred : BlockId} {reg : Register n}

theorem map_fst (h : phi.PhiOrdered) :
    (phi.basicBlocks.zip phi.operands).map Prod.fst = phi.basicBlocks :=
  map_fst_zip h.length.le

theorem nodup (h : phi.PhiOrdered) : phi.basicBlocks.Nodup :=
  h.ordered.imp fun hlt => ne_of_lt hlt

theorem phiOperand?_eq_some_iff (h : phi.PhiOrdered) :
    phi.phiOperand? pred = some reg ↔ (pred, reg) ∈ phi.basicBlocks.zip phi.operands := by
  unfold phiOperand?
  constructor
  · intro hsome
    obtain ⟨pair, hfind, rfl⟩ := Option.map_eq_some_iff.mp hsome
    have hpred : pair.1 = pred := by simpa using find?_some hfind
    exact hpred ▸ mem_of_find?_eq_some hfind
  · intro hmem
    cases hfind : (phi.basicBlocks.zip phi.operands).find? fun pair => pair.1 = pred with
    | none => simpa using find?_eq_none.mp hfind _ hmem
    | some pair =>
      have hpair := mem_of_find?_eq_some hfind
      have hpred : pair.1 = pred := by simpa using find?_some hfind
      have hnodup : ((phi.basicBlocks.zip phi.operands).map Prod.fst).Nodup := by
        rw [h.map_fst]
        exact h.nodup
      rw [inj_on_of_nodup_map hnodup hpair hmem hpred]
      rfl

theorem foldl_setArg {args done : List (BlockId × Register n)}
    (hnodup : (done.map Prod.fst ++ args.map Prod.fst).Nodup) :
    args.foldl setArg done = args.reverse ++ done := by
  induction args generalizing done with
  | nil => rfl
  | cons arg args ih =>
    have hkeep : setArg done arg = arg :: done := by
      refine congrArg _ (filter_eq_self.mpr fun other hother => ?_)
      have hdisjoint := (nodup_append'.mp hnodup).2.2
      refine decide_eq_true fun hsame => ?_
      exact hdisjoint (mem_map_of_mem hother) (by simp [hsame])
    have hrest : ((arg :: done).map Prod.fst ++ args.map Prod.fst).Nodup := by
      refine (perm_middle.nodup_iff).mp ?_
      simpa using hnodup
    rw [foldl_cons, hkeep, ih hrest]
    simp

theorem fixupPhi_zip (h : phi.PhiOrdered) (hnew : newPred ∉ phi.basicBlocks) :
    (phi.fixupPhi oldPred newPred).PhiOrdered ∧
      ((phi.fixupPhi oldPred newPred).basicBlocks.zip
        (phi.fixupPhi oldPred newPred).operands).Perm
        ((phi.basicBlocks.zip phi.operands).map fun arg =>
          (if arg.1 = oldPred then newPred else arg.1, arg.2)) := by
  obtain ⟨args, hargs⟩ : ∃ args, args = (phi.basicBlocks.zip phi.operands).map fun arg =>
      (if arg.1 = oldPred then newPred else arg.1, arg.2) := ⟨_, rfl⟩
  have hfst : args.map Prod.fst =
      phi.basicBlocks.map fun pred => if pred = oldPred then newPred else pred := by
    rw [hargs, map_map, ← h.map_fst, map_map, h.map_fst]
    rfl
  have hnodup : (args.map Prod.fst).Nodup := by
    rw [hfst]
    refine h.nodup.map_on fun a ha b hb hab => ?_
    split at hab <;> split at hab
    · simp_all
    · exact absurd hb (hab ▸ hnew)
    · exact absurd ha (hab.symm ▸ hnew)
    · exact hab
  have hfold : (phi.basicBlocks.zip phi.operands).foldl
      (fun args arg => setArg args (if arg.1 = oldPred then newPred else arg.1, arg.2)) [] =
        args.reverse := by
    rw [← append_nil args.reverse, ← foldl_setArg (by simpa using hnodup), hargs,
      foldl_map]
  have hlength : args.length = phi.operands.length := by
    rw [hargs, length_map, length_zip, h.length, min_self]
  have hperm : (args.reverse.insertionSort fun arg other => arg.1 ≤ other.1).Perm args :=
    (perm_insertionSort _ _).trans (reverse_perm args)
  have hsorted : ((args.reverse.insertionSort fun arg other => arg.1 ≤ other.1).map
      Prod.fst).Pairwise (· < ·) := by
    have hle : ((args.reverse.insertionSort fun arg other => arg.1 ≤ other.1).map
        Prod.fst).Pairwise (· ≤ ·) := by
      have : Std.Total fun arg other : BlockId × Register n => arg.1 ≤ other.1 :=
        ⟨fun a b => le_total a.1 b.1⟩
      have : IsTrans (BlockId × Register n) fun arg other => arg.1 ≤ other.1 :=
        ⟨fun _ _ _ => le_trans⟩
      exact pairwise_map.mpr (pairwise_insertionSort _ _)
    have hdistinct := (hperm.map Prod.fst).nodup_iff.mpr hnodup
    exact hle.imp₂ (fun _ _ hab hne => lt_of_le_of_ne hab hne) hdistinct
  have heq : phi.fixupPhi oldPred newPred = { phi with
      basicBlocks := (args.reverse.insertionSort fun arg other => arg.1 ≤ other.1).map Prod.fst
      operands :=
        (args.reverse.insertionSort fun arg other => arg.1 ≤ other.1).map Prod.snd } := by
    unfold fixupPhi
    rw [hfold, setArgs]
    simp [hlength]
  rw [heq]
  refine ⟨⟨by simp, hsorted⟩, ?_⟩
  rw [← hargs]
  exact zip_of_prod rfl rfl ▸ hperm

end Instr.PhiOrdered

def Instr.edited (pred : BlockId) (index : Nat) (succ split id : BlockId) (instr : Instr n) :
    Instr n :=
  if instr.isPhi then (if id = succ then instr.fixupPhi pred split else instr)
  else if instr.opcode.isTerminator ∧ id = pred then instr.setTo index split
  else instr

namespace Instr

variable (pred : BlockId) (index : Nat) (succ split id : BlockId) (instr : Instr n)

@[simp]
theorem opcode_edited : (instr.edited pred index succ split id).opcode = instr.opcode := by
  unfold edited
  split
  · split <;> rfl
  · split <;> rfl

@[simp]
theorem output_edited : (instr.edited pred index succ split id).output = instr.output := by
  unfold edited
  split
  · split <;> rfl
  · split <;> rfl

@[simp]
theorem isPhi_edited : (instr.edited pred index succ split id).isPhi = instr.isPhi := by
  simp [isPhi]

@[simp]
theorem isPrologueLoad_edited :
    (instr.edited pred index succ split id).isPrologueLoad = instr.isPrologueLoad := by
  simp [isPrologueLoad]

theorem definedBy_edited (instrs : List (Instr n)) :
    definedBy (instrs.map (edited pred index succ split id)) = definedBy instrs := by
  rw [definedBy, definedBy, filterMap_map]
  exact filterMap_congr fun instr _ => output_edited pred index succ split id instr

variable {pred index succ split id instr}

theorem edited_of_not_isPhi (h : instr.isPhi = false) : ∃ successors,
    instr.edited pred index succ split id = { instr with successors := successors } := by
  rw [edited, if_neg (by simp [h])]
  split
  · exact ⟨_, rfl⟩
  · exact ⟨_, rfl⟩

theorem operands_edited (h : instr.isPhi = false) :
    (instr.edited pred index succ split id).operands = instr.operands := by
  obtain ⟨successors, heq⟩ := edited_of_not_isPhi h
  rw [heq]

theorem request_edited {V : Type} (h : instr.isPhi = false) (regs : Register n → V) :
    (instr.edited pred index succ split id).request regs = instr.request regs := by
  obtain ⟨successors, heq⟩ := edited_of_not_isPhi h
  rw [heq]
  rfl

theorem successors_edited :
    (instr.edited pred index succ split id).successors =
      if instr.opcode.isTerminator ∧ id = pred then instr.successors.set index split
      else instr.successors := by
  unfold edited
  by_cases hphi : instr.isPhi = true
  · have hterm : ¬(instr.opcode.isTerminator = true ∧ id = pred) := by
      simp [not_isTerminator_of_isPhi hphi]
    rw [if_pos hphi, if_neg hterm]
    split
    · rfl
    · rfl
  · rw [if_neg hphi]
    split
    · rfl
    · rfl

theorem WellShaped.edited (h : instr.WellShaped) :
    (instr.edited pred index succ split id).WellShaped := by
  refine ⟨by simpa using h.output, ?_, fun hphi => ?_, by
    simpa using h.phi_output, fun hassign => ?_,
    by simpa using h.snapshot⟩
  · rw [successors_edited, opcode_edited, ← h.edges]
    split
    · exact length_set
    · rfl
  · rw [isPhi_edited] at hphi
    have huses := h.phi hphi
    have hrest : ∀ rest : List (Register n), instr.operands ++ rest = instr.operands → rest = [] :=
      fun rest hrest => by simpa using hrest
    unfold visitUses at huses
    simp only [append_assoc] at huses
    have hnil := hrest _ huses
    rw [Instr.edited, if_pos hphi]
    split
    · unfold visitUses fixupPhi setArgs
      simp only [append_assoc]
      rw [hnil, append_nil]
    · exact h.phi hphi
  · rw [opcode_edited] at hassign
    rw [output_edited, operands_edited (by simp [isPhi, hassign])]
    exact h.assign hassign

end Instr

structure Function.Formed (f : Function n) : Prop where
  wellShaped : ∀ block ∈ f.blocks, ∀ instr ∈ block.instrs, instr.WellShaped
  phis : ∀ block ∈ f.blocks, ∀ phi ∈ block.instrs, phi.isPhi = true → phi.PhiOrdered

theorem mem_set_of_nodup {α : Type*} {l : List α} {i : Nat} {a b x : α} (hnodup : l.Nodup)
    (hi : l[i]? = some a) : x ∈ l.set i b ↔ x = b ∨ x ∈ l ∧ x ≠ a := by
  obtain ⟨pre, post, rfl, rfl⟩ : ∃ pre post, l = pre ++ a :: post ∧ pre.length = i := by
    obtain ⟨hlt, rfl⟩ := List.getElem?_eq_some_iff.mp hi
    exact ⟨l.take i, l.drop (i + 1), by rw [getElem_cons_drop, take_append_drop],
      length_take_of_le hlt.le⟩
  have happend := nodup_append'.mp hnodup
  have hpre : a ∉ pre := fun hmem => happend.2.2 hmem mem_cons_self
  have hpost := (nodup_cons.mp happend.2.1).1
  rw [set_append_right _ _ le_rfl, Nat.sub_self, set_cons_zero]
  simp only [mem_append, mem_cons]
  constructor
  · rintro (hx | rfl | hx)
    · exact Or.inr ⟨Or.inl hx, fun hsame => hpre (hsame ▸ hx)⟩
    · exact Or.inl rfl
    · exact Or.inr ⟨Or.inr (Or.inr hx), fun hsame => hpost (hsame ▸ hx)⟩
  · rintro (rfl | ⟨hx | hx | hx, hne⟩)
    · exact Or.inr (Or.inl rfl)
    · exact Or.inl hx
    · exact absurd hx hne
    · exact Or.inr (Or.inr hx)

section Split

variable {f : Function n} {pred : BlockId} {index : Nat} {succ split id : BlockId}

theorem WellFormed.edgeTo?_eq (hf : WellFormed f) (hformed : f.Formed) (edge : BlockId × Nat) :
    f.edgeTo? edge = (f.succs edge.1)[edge.2]? := by
  unfold edgeTo? succs
  cases hblock : f.block? edge.1 with
  | none => rfl
  | some block =>
    obtain ⟨front, last, hends⟩ :=
      hf.ends hformed.wellShaped (mem_blocks_of_block? hblock)
    have hterm : block.terminator? = some last := by
      simp [terminator?, hends.split]
    simp [hterm, hends.outEdges_eq]

theorem map_edited_front {front : List (Instr n)}
    (hfront : ∀ instr ∈ front, instr.opcode.isTerminator = false)
    (hbody : ∀ instr ∈ front.dropWhile Instr.isPhi, instr.isPhi = false) :
    front.map (Instr.edited pred index succ split id) =
      if id = succ then
        (front.takeWhile Instr.isPhi).map (Instr.fixupPhi pred split) ++ front.dropWhile Instr.isPhi
      else front := by
  have hplain : ∀ instr ∈ front, instr.isPhi = false →
      instr.edited pred index succ split id = instr := by
    intro instr hinstr hphi
    rw [edited, if_neg (by simp [hphi]), if_neg (by simp [hfront instr hinstr])]
  have hsplit := takeWhile_append_dropWhile (p := isPhi) (l := front)
  have hmiddle : (front.dropWhile isPhi).map (edited pred index succ split id) =
      front.dropWhile isPhi :=
    (map_congr_left fun instr hinstr =>
      hplain instr ((dropWhile_sublist _).subset hinstr) (hbody instr hinstr)).trans (map_id _)
  have hphis : ∀ instr ∈ front.takeWhile isPhi,
      instr.edited pred index succ split id =
        if id = succ then instr.fixupPhi pred split else instr :=
    fun instr hinstr => if_pos (mem_takeWhile_imp hinstr)
  conv_lhs => rw [← hsplit, map_append, hmiddle, map_congr_left hphis]
  split
  next => rfl
  next => rw [map_id', hsplit]

theorem WellFormed.splitEdge_eq (hf : WellFormed f) (hformed : f.Formed) {block : BasicBlock n}
    (hblock : block ∈ f.blocks) : block.splitEdge pred index succ split =
      ⟨block.id, block.instrs.map (Instr.edited pred index succ split block.id)⟩ := by
  obtain ⟨front, last, hends⟩ := hf.ends hformed.wellShaped hblock
  have hlast := not_isPhi_of_isTerminator hends.terminator
  have hbody : ∀ instr ∈ front.dropWhile isPhi, instr.isPhi = false := by
    intro instr hinstr
    refine hf.not_isPhi_of_mem_body hblock ?_
    have heq := (phis_concat block.id front hlast).2
    rw [← hends.split] at heq
    exact heq ▸ mem_append_left _ hinstr
  have hmoved : (if block.id = pred then block.setTo index split else block) =
      ⟨block.id, front ++ [last.edited pred index succ split block.id]⟩ := by
    have hedited : last.edited pred index succ split block.id =
        if block.id = pred then last.setTo index split else last := by
      simp [edited, hlast, hends.terminator]
    rw [hedited]
    split
    next => simp [BasicBlock.setTo, BasicBlock.terminator?, hends.split]
    next => rw [← hends.split]
  have hnew : (last.edited pred index succ split block.id).isPhi = false := by simpa using hlast
  simp only [BasicBlock.splitEdge, hmoved]
  rw [hends.split, map_append,
    map_edited_front (fun instr hinstr => (hends.plain instr hinstr).1) hbody]
  split
  next =>
    rw [fixupPhis, (phis_concat block.id front hnew).1, (phis_concat block.id front hnew).2]
    simp
  next => simp

end Split

/-! ## The graph with a block more -/

structure Function.Split (f g : Function n) (pred : BlockId) (index : Nat) (succ split : BlockId) :
    Prop where
  wellFormed : WellFormed f
  formed : f.Formed
  edge : (f.succs pred)[index]? = some succ
  fresh : split ∉ f.blockIds
  blocks : g.blocks = f.blocks.map (fun block =>
    ⟨block.id, block.instrs.map (Instr.edited pred index succ split block.id)⟩) ++
      [⟨split, [Instr.branchTo succ]⟩]
  entryBlock : g.entryBlock = f.entryBlock

theorem WellFormed.split {f : Function n} (hf : WellFormed f) (hformed : f.Formed)
    {pred : BlockId} {index : Nat} {succ split : BlockId}
    (hedge : f.edgeTo? (pred, index) = some succ) (hfresh : split ∉ f.blockIds) :
    f.Split (f.splitEdge pred index succ split hfresh) pred index succ split where
  wellFormed := hf
  formed := hformed
  edge := (hf.edgeTo?_eq hformed (pred, index)).symm.trans hedge
  fresh := hfresh
  blocks := by
    have hmap : f.blocks.map (splitEdge pred index succ split) = f.blocks.map fun block =>
        ⟨block.id, block.instrs.map (edited pred index succ split block.id)⟩ :=
      map_congr_left fun block hblock => hf.splitEdge_eq hformed hblock
    exact congrArg (· ++ [⟨split, [branchTo succ]⟩]) hmap
  entryBlock := rfl

theorem WellFormed.nodup_succs {f : Function n} (hf : WellFormed f) (id : BlockId) :
    (f.succs id).Nodup := by
  refine nodup_iff_count_le_one.mpr fun succ => ?_
  by_cases hsucc : succ ∈ f.succs id
  · obtain ⟨block, hblock⟩ : ∃ block, f.block? id = some block := by
      cases hfind : f.block? id with
      | none => simp [succs, hfind] at hsucc
      | some block => exact ⟨block, rfl⟩
    obtain ⟨pre, post, hsplit⟩ := append_of_mem (mem_blocks_of_block? hblock)
    have hnodup := hf.cfg.nodup_inEdges succ (mem_blockIds_of_linked hf.cfg.linked hsucc)
    rw [inEdges, hsplit, flatMap_append, flatMap_cons] at hnodup
    have hown := (nodup_append'.mp (nodup_append'.mp hnodup).2.1).1
    rw [map_const', nodup_replicate] at hown
    rwa [succs, hblock, count_eq_countP, countP_eq_length_filter]
  · rw [count_eq_zero_of_not_mem hsucc]
    exact Nat.zero_le 1

namespace Function.Split

variable {f g : Function n} {pred : BlockId} {index : Nat} {succ split id target : BlockId}
  (h : f.Split g pred index succ split)

include h

variable {block : BasicBlock n}

theorem mem_blocks : block ∈ g.blocks ↔
    (∃ old ∈ f.blocks, block =
      ⟨old.id, old.instrs.map (Instr.edited pred index succ split old.id)⟩) ∨
      block = ⟨split, [Instr.branchTo succ]⟩ := by
  rw [h.blocks, mem_append, mem_map, mem_singleton]
  simp only [eq_comm]

theorem mem_blockIds : id ∈ g.blockIds ↔ id ∈ f.blockIds ∨ id = split := by
  rw [blockIds, h.blocks, map_append, map_map, mem_append]
  simp [Function.blockIds, Function.comp_def]

theorem ne_split (hid : id ∈ f.blockIds) : id ≠ split := fun hsame => h.fresh (hsame ▸ hid)

theorem block?_split : g.block? split = some ⟨split, [Instr.branchTo succ]⟩ :=
  block?_of_mem (f := g) (h.mem_blocks.mpr (Or.inr rfl))

theorem block?_eq (hid : id ≠ split) : g.block? id = (f.block? id).map fun block =>
    ⟨block.id, block.instrs.map (Instr.edited pred index succ split block.id)⟩ := by
  cases hblock : f.block? id with
  | some block =>
    obtain rfl := id_of_block? hblock
    exact block?_of_mem (f := g)
      (h.mem_blocks.mpr (Or.inl ⟨block, mem_blocks_of_block? hblock, rfl⟩))
  | none =>
    have hnot : id ∉ g.blockIds := by
      rw [h.mem_blockIds, ← block?_isSome, hblock]
      simp [hid]
    rw [← block?_isSome] at hnot
    simpa using hnot

theorem succs_split : g.succs split = [succ] := by
  simp [succs, h.block?_split, outEdges, branchTo]

theorem outputsOf_eq (hid : id ≠ split) : g.outputsOf id = f.outputsOf id := by
  rw [outputsOf, h.block?_eq hid, outputsOf]
  cases f.block? id with
  | none => rfl
  | some block => exact definedBy_edited _ _ _ _ _ _

theorem succs_eq (hid : id ≠ split) :
    g.succs id = if id = pred then (f.succs id).set index split else f.succs id := by
  rw [succs, h.block?_eq hid, succs]
  cases hblock : f.block? id with
  | none => simp
  | some block =>
    obtain ⟨front, last, hends⟩ :=
      h.wellFormed.ends h.formed.wellShaped (mem_blocks_of_block? hblock)
    have hfront : (front.map (edited pred index succ split block.id)).flatMap successors = [] := by
      refine flatMap_eq_nil_iff.mpr fun instr hinstr => ?_
      obtain ⟨old, hold, rfl⟩ := mem_map.mp hinstr
      rw [successors_edited, if_neg (by simp [(hends.plain old hold).1])]
      exact (hends.plain old hold).2
    have hedges : outEdges
        ⟨block.id, block.instrs.map (edited pred index succ split block.id)⟩ =
          (last.edited pred index succ split block.id).successors := by
      simp [outEdges, hends.split, hfront]
    rw [successors_edited, id_of_block? hblock] at hedges
    simpa only [Option.map_some, hends.outEdges_eq, hends.terminator, true_and,
      id_of_block? hblock] using hedges

theorem pred_mem : pred ∈ f.blockIds :=
  mem_blockIds_of_mem_inEdges (mem_inEdges.mpr (mem_of_getElem? h.edge))

theorem succ_mem : succ ∈ f.blockIds :=
  mem_blockIds_of_linked h.wellFormed.cfg.linked (mem_of_getElem? h.edge)

theorem mem_succs (hid : id ≠ split) : target ∈ g.succs id ↔
    id = pred ∧ target = split ∨ target ∈ f.succs id ∧ ¬(id = pred ∧ target = succ) := by
  rw [h.succs_eq hid]
  split
  next hpred =>
    subst hpred
    rw [mem_set_of_nodup (h.wellFormed.nodup_succs id) h.edge]
    simp
  next hpred => simp [hpred]

theorem not_mem_succs : split ∉ f.succs id := fun hmem =>
  h.fresh (mem_blockIds_of_linked h.wellFormed.cfg.linked hmem)

theorem nodup_succs (id : BlockId) : (g.succs id).Nodup := by
  by_cases hid : id = split
  · rw [hid, h.succs_split]
    simp
  · rw [h.succs_eq hid]
    split
    · exact (h.wellFormed.nodup_succs id).set h.not_mem_succs
    · exact h.wellFormed.nodup_succs id

theorem nodup_inEdges (id : BlockId) : (g.inEdges id).Nodup := by
  refine nodup_inEdges_of_outEdges (fun block hblock => ?_) id
  rw [← succs_of_mem hblock]
  exact h.nodup_succs block.id

theorem inEdges_perm (hid : id ∈ f.blockIds) : (g.inEdges id).Perm
    ((f.inEdges id).map fun other => if other = pred ∧ id = succ then split else other) := by
  have hold : (f.inEdges id).Nodup := h.wellFormed.cfg.nodup_inEdges id hid
  have hnot : split ∉ f.inEdges id := fun hmem =>
    h.fresh (mem_blockIds_of_mem_inEdges hmem)
  refine (perm_ext_iff_of_nodup (h.nodup_inEdges id) ?_).mpr fun other => ?_
  · refine hold.map_on fun a ha b hb hab => ?_
    split at hab <;> split at hab
    · simp_all
    · exact absurd hb (hab ▸ hnot)
    · exact absurd ha (hab.symm ▸ hnot)
    · exact hab
  · rw [mem_inEdges, mem_map]
    constructor
    · intro hmem
      by_cases hother : other = split
      · rw [hother, h.succs_split, mem_singleton] at hmem
        exact ⟨pred, mem_inEdges.mpr (hmem ▸ mem_of_getElem? h.edge), by simp [hmem, hother]⟩
      · rcases (h.mem_succs hother).mp hmem with ⟨-, hsame⟩ | ⟨hmem, hne⟩
        · exact absurd hsame (h.ne_split hid)
        · exact ⟨other, mem_inEdges.mpr hmem, if_neg hne⟩
    · rintro ⟨old, hmem, rfl⟩
      rw [mem_inEdges] at hmem
      split
      next hsame => rw [h.succs_split, hsame.2, mem_singleton]
      next hne =>
        refine (h.mem_succs fun hsplit => ?_).mpr (Or.inr ⟨hmem, hne⟩)
        exact hnot (hsplit ▸ mem_inEdges.mpr hmem)

theorem inEdges_split : g.inEdges split = [pred] := by
  refine perm_singleton.mp ((perm_ext_iff_of_nodup (h.nodup_inEdges split)
    (by simp)).mpr fun other => ?_)
  rw [mem_inEdges, mem_singleton]
  by_cases hother : other = split
  · rw [hother, h.succs_split, mem_singleton]
    constructor
    · exact fun hsame => absurd hsame.symm (h.ne_split h.succ_mem)
    · exact fun hsame => absurd hsame.symm (h.ne_split h.pred_mem)
  · rw [h.mem_succs hother]
    simp [h.not_mem_succs]

variable {walked : List BlockId}

theorem walk_of_split (hwalk : g.Walk walked id) :
    f.Walk (walked.filter fun other => other ≠ split) (if id = split then succ else id) := by
  induction hwalk with
  | entry =>
    rw [h.entryBlock, if_neg (h.ne_split h.wellFormed.cfg.entry)]
    exact .entry
  | @step walked id target _ hedge ih =>
    by_cases hid : id = split
    · subst hid
      rw [h.succs_split, mem_singleton] at hedge
      rw [if_pos rfl] at ih
      rw [filter_cons_of_neg (by simp), hedge, if_neg (h.ne_split h.succ_mem)]
      exact ih
    · rw [if_neg hid] at ih
      rw [filter_cons_of_pos (by simpa using hid)]
      rcases (h.mem_succs hid).mp hedge with ⟨hpred, hsplit⟩ | ⟨hmem, -⟩
      · rw [if_pos hsplit]
        exact .step ih (hpred ▸ mem_of_getElem? h.edge)
      · rw [if_neg fun hsplit : target = split => h.not_mem_succs (hsplit ▸ hmem)]
        exact .step ih hmem

theorem exists_walk (hwalk : f.Walk walked id) : ∃ walked', g.Walk walked' id := by
  induction hwalk with
  | entry => exact ⟨[], h.entryBlock ▸ .entry⟩
  | @step walked id target hwalk hedge ih =>
    obtain ⟨walked', hwalk'⟩ := ih
    have hid := h.ne_split (h.wellFormed.cfg.mem_blockIds hwalk)
    by_cases hsplit : id = pred ∧ target = succ
    · have hto : split ∈ g.succs id := (h.mem_succs hid).mpr (Or.inl ⟨hsplit.1, rfl⟩)
      have hfrom : target ∈ g.succs split := by
        rw [h.succs_split, hsplit.2]
        exact mem_cons_self
      exact ⟨_, .step (.step hwalk' hto) hfrom⟩
    · exact ⟨_, .step hwalk' ((h.mem_succs hid).mpr (Or.inr ⟨hedge, hsplit⟩))⟩

variable {reg : Register n}

theorem definesOn_of_filter
    (hdefines : f.definesOn (walked.filter fun other => other ≠ split) reg) :
    g.definesOn walked reg := by
  obtain ⟨other, hother, hreg⟩ := hdefines
  obtain ⟨hmem, hne⟩ := mem_filter.mp hother
  exact ⟨other, hmem, (h.outputsOf_eq (by simpa using hne)).symm ▸ hreg⟩

theorem definedAt {pre pre' : List (Instr n)} (hid : id ≠ split)
    (hpre : reg ∈ definedBy pre → reg ∈ definedBy pre') (hreg : f.DefinedAt id pre reg) :
    g.DefinedAt id pre' reg := by
  intro walked hwalk
  have hwalk' := h.walk_of_split hwalk
  rw [if_neg hid] at hwalk'
  exact (hreg _ hwalk').imp h.definesOn_of_filter hpre

theorem definedAt_split {pre : List (Instr n)} (hreg : f.DefinedAt pred (f.instrsOf pred) reg) :
    g.DefinedAt split pre reg := by
  intro walked hwalk
  generalize hid : split = id at hwalk
  cases hwalk with
  | entry =>
    refine absurd (hid.trans h.entryBlock) (Ne.symm (h.ne_split h.wellFormed.cfg.entry))
  | @step walked other _ hwalk hedge =>
    subst hid
    have hother : other = pred := by
      have hmem := mem_inEdges.mpr hedge
      rwa [h.inEdges_split, mem_singleton] at hmem
    subst hother
    have hwalk' := h.walk_of_split hwalk
    rw [if_neg (h.ne_split h.pred_mem)] at hwalk'
    left
    rcases hreg _ hwalk' with hdefines | hown
    · obtain ⟨block, hblock, hout⟩ := h.definesOn_of_filter hdefines
      exact ⟨block, mem_cons_of_mem _ hblock, hout⟩
    · rw [definedBy_instrsOf] at hown
      exact ⟨other, mem_cons_self, (h.outputsOf_eq (h.ne_split h.pred_mem)).symm ▸ hown⟩

theorem wellFormedCFG : WellFormedCFG g := by
  have hcfg := h.wellFormed.cfg
  refine ⟨?_, ?_, fun id hid => ?_, fun id _ => h.nodup_inEdges id⟩
  · simp only [linked, all_eq_true, decide_eq_true_eq]
    intro block hblock target htarget
    rw [← succs_of_mem hblock] at htarget
    rw [h.mem_blockIds]
    by_cases hid : block.id = split
    · rw [hid, h.succs_split, mem_singleton] at htarget
      exact Or.inl (htarget ▸ h.succ_mem)
    · rcases (h.mem_succs hid).mp htarget with ⟨-, hsplit⟩ | ⟨hmem, -⟩
      · exact Or.inr hsplit
      · exact Or.inl (mem_blockIds_of_linked hcfg.linked hmem)
  · rw [h.entryBlock, h.mem_blockIds]
    exact Or.inl hcfg.entry
  · rcases h.mem_blockIds.mp hid with hid | rfl
    · obtain ⟨walked, hwalk⟩ := hcfg.reachable id hid
      exact h.exists_walk hwalk
    · obtain ⟨walked, hwalk⟩ := hcfg.reachable pred h.pred_mem
      obtain ⟨walked', hwalk'⟩ := h.exists_walk hwalk
      exact ⟨_, .step hwalk' ((h.mem_succs (h.ne_split h.pred_mem)).mpr (Or.inl ⟨rfl, rfl⟩))⟩

omit h in
theorem Shaped.edited {instrs : List (Instr n)} (hshaped : Shaped instrs) :
    Shaped (instrs.map (Instr.edited pred index succ split id)) := by
  cases hshaped with
  | mk phis middle last hphis hmiddle hlast =>
    rw [map_append, map_append]
    refine .mk _ _ _ (fun phi hphi => ?_) (fun instr hinstr => ?_) (by simpa using hlast)
    · obtain ⟨old, hold, rfl⟩ := mem_map.mp hphi
      simpa using hphis old hold
    · obtain ⟨old, hold, rfl⟩ := mem_map.mp hinstr
      simpa using hmiddle old hold

theorem edited_phi (hblock : block ∈ f.blocks) {phi : Instr n} (hphi : phi ∈ block.instrs)
    (hisPhi : phi.isPhi = true) :
    (phi.edited pred index succ split block.id).PhiOrdered ∧
      ((phi.edited pred index succ split block.id).basicBlocks.zip
        (phi.edited pred index succ split block.id).operands).Perm
        ((phi.basicBlocks.zip phi.operands).map fun arg =>
          (if arg.1 = pred ∧ block.id = succ then split else arg.1, arg.2)) := by
  have hordered := h.formed.phis block hblock phi hphi hisPhi
  rw [edited, if_pos hisPhi]
  split
  next hid =>
    have hnew : split ∉ phi.basicBlocks := fun hmem => h.fresh
      (mem_blockIds_of_mem_inEdges ((h.wellFormed.phi block hblock phi hphi hisPhi).2 _ hmem))
    simpa [hid] using hordered.fixupPhi_zip hnew
  next hid => simpa [hid] using hordered

theorem mem_phi (hblock : block ∈ f.blocks) {phi : Instr n} (hphi : phi ∈ block.instrs)
    (hisPhi : phi.isPhi = true) {arg : BlockId × Register n} :
    arg ∈ (phi.edited pred index succ split block.id).basicBlocks.zip
        (phi.edited pred index succ split block.id).operands ↔
      ∃ old ∈ phi.basicBlocks.zip phi.operands,
        (if old.1 = pred ∧ block.id = succ then split else old.1, old.2) = arg := by
  rw [(h.edited_phi hblock hphi hisPhi).2.mem_iff, mem_map]

theorem formed_split : g.Formed := by
  refine ⟨fun block hblock new hnew => ?_, fun block hblock new hnew hisPhi => ?_⟩
  · rcases h.mem_blocks.mp hblock with ⟨old, hold, rfl⟩ | rfl
    · obtain ⟨instr, hinstr, rfl⟩ := mem_map.mp hnew
      exact (h.formed.wellShaped old hold instr hinstr).edited
    · obtain rfl := mem_singleton.mp hnew
      constructor <;> simp [branchTo, Opcode.numEdges, isPhi]
  · rcases h.mem_blocks.mp hblock with ⟨old, hold, rfl⟩ | rfl
    · obtain ⟨phi, hphi, rfl⟩ := mem_map.mp hnew
      exact (h.edited_phi hold hphi (by simpa using hisPhi)).1
    · obtain rfl := mem_singleton.mp hnew
      simp [branchTo, isPhi] at hisPhi

theorem wellFormed_split : WellFormed g := by
  have hf := h.wellFormed
  have hbranch : ∀ {pre post : List (Instr n)} {instr : Instr n},
      [branchTo succ] = pre ++ instr :: post → instr = branchTo succ := by
    intro pre post instr heq
    have hmem : instr ∈ [(branchTo succ : Instr n)] := heq ▸ mem_append_right _ mem_cons_self
    exact mem_singleton.mp hmem
  refine .of_shaped h.wellFormedCFG ?_ ?_ ?_ ?_ ?_
  · have houtputs : g.blocks.flatMap outputs = f.blocks.flatMap outputs := by
      rw [h.blocks, flatMap_append, flatMap_map]
      have hsame : ∀ block ∈ f.blocks, outputs
          ⟨block.id, block.instrs.map (edited pred index succ split block.id)⟩ =
            block.outputs := fun block _ => definedBy_edited _ _ _ _ _ _
      rw [flatMap_congr hsame]
      simp [outputs, branchTo]
    rw [houtputs]
    exact hf.nodup_outputs
  · intro block hblock
    rcases h.mem_blocks.mp hblock with ⟨old, hold, rfl⟩ | rfl
    · exact Shaped.edited (hf.shaped hold)
    · exact .mk [] [] (branchTo succ) (by simp) (by simp) rfl
  · intro block hblock pre instr post heq hload
    rcases h.mem_blocks.mp hblock with ⟨old, hold, rfl⟩ | rfl
    · obtain ⟨pre, rest, hinstrs, rfl, hrest⟩ := map_eq_append_iff.mp heq
      obtain ⟨instr, post, rfl, rfl, rfl⟩ := map_eq_cons_iff.mp hrest
      obtain ⟨hentry, hall⟩ := hf.prologue old hold pre instr post hinstrs (by simpa using hload)
      refine ⟨hentry.trans h.entryBlock.symm, fun new hnew => ?_⟩
      obtain ⟨other, hother, rfl⟩ := mem_map.mp hnew
      simpa using hall other hother
    · rw [hbranch heq] at hload
      simp [isPrologueLoad, branchTo] at hload
  · intro block hblock pre instr post heq hphi reg hreg
    rcases h.mem_blocks.mp hblock with ⟨old, hold, rfl⟩ | rfl
    · obtain ⟨pre, rest, hinstrs, rfl, hrest⟩ := map_eq_append_iff.mp heq
      obtain ⟨instr, post, rfl, rfl, rfl⟩ := map_eq_cons_iff.mp hrest
      rw [isPhi_edited] at hphi
      rw [operands_edited hphi] at hreg
      refine h.definedAt (h.ne_split (Function.mem_blockIds.mpr ⟨old, hold, rfl⟩)) (fun hpre => ?_)
        (hf.operands old hold pre instr post hinstrs hphi reg hreg)
      rwa [definedBy_edited]
    · rw [hbranch heq] at hreg
      simp [branchTo] at hreg
  · intro block hblock new hnew hisPhi
    rcases h.mem_blocks.mp hblock with ⟨old, hold, rfl⟩ | rfl
    · obtain ⟨phi, hphi, rfl⟩ := mem_map.mp hnew
      rw [isPhi_edited] at hisPhi
      obtain ⟨hne, hpreds⟩ := hf.phi old hold phi hphi hisPhi
      obtain ⟨hordered, hperm⟩ := h.edited_phi hold hphi hisPhi
      have hid : old.id ∈ f.blockIds := Function.mem_blockIds.mpr ⟨old, hold, rfl⟩
      refine ⟨fun hnil => hne ?_, fun other hother => ?_, fun new hnew => ?_⟩
      · have hlength := hperm.length_eq
        rw [length_map, length_zip, length_zip, hordered.length, hnil,
          (h.formed.phis old hold phi hphi hisPhi).length, min_self] at hlength
        exact eq_nil_of_length_eq_zero (by simpa using hlength.symm)
      · rw [← hordered.map_fst] at hother
        obtain ⟨new, hnew, rfl⟩ := mem_map.mp hother
        obtain ⟨arg, harg, rfl⟩ := (h.mem_phi hold hphi hisPhi).mp hnew
        exact (h.inEdges_perm hid).mem_iff.mpr
          (mem_map.mpr ⟨arg.1, hpreds _ (of_mem_zip harg).1, rfl⟩)
      · obtain ⟨arg, harg, rfl⟩ := (h.mem_phi hold hphi hisPhi).mp hnew
        have hdefined := hf.phi_operands old hold phi hphi hisPhi arg harg
        have hpred := mem_blockIds_of_mem_inEdges (hpreds _ (of_mem_zip harg).1)
        simp only
        split
        next hsame => exact h.definedAt_split (hsame.1 ▸ hdefined)
        next =>
          refine h.definedAt (h.ne_split hpred) (fun hpre => ?_) hdefined
          rw [definedBy_instrsOf] at hpre ⊢
          rwa [h.outputsOf_eq (h.ne_split hpred)]
    · obtain rfl := mem_singleton.mp hnew
      simp [branchTo, isPhi] at hisPhi

end Function.Split

end CinderX.Jit.Hir
