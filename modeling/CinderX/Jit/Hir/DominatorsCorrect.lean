import CinderX.Jit.Hir.Dominators

/-!
# The dominator analysis is correct

The reverse postorder numbers the reachable blocks as `Numbering` asks, so each loop over the
blocks is a pass over the tree of immediate dominators.
-/

namespace CinderX.Jit.Hir

open Foundation Dominance List Option Hir.Function

variable {n : Nat}

def BasicBlock.Terminated (block : BasicBlock n) : Prop :=
  ∃ front last, block.instrs = front ++ [last] ∧ (∀ instr ∈ front, instr.successors = []) ∧
    last.opcode.isTerminator = true ∧ last.successors.length = last.opcode.numEdges

namespace Function

variable (f : Function n)

def Edge (pred succ : BlockId) : Prop := succ ∈ f.succs pred

def Terminated : Prop := ∀ id, Reachable f.Edge f.entryBlock id →
  ∃ block, f.block? id = some block ∧ block.Terminated

end Function

variable {f : Function n}

/-! ## Traversals -/

variable {instr : Instr n}

theorem Instr.targets_eq_some (hterminator : instr.opcode.isTerminator = true)
    (hedges : instr.successors.length = instr.opcode.numEdges) :
    ∃ found, instr.targets = some found ∧ ∀ id, id ∈ found ↔ id ∈ instr.successors := by
  have hnone : instr.opcode.numEdges = 0 → instr.successors = [] := fun hzero =>
    eq_nil_of_length_eq_zero (hedges.trans hzero)
  cases hopcode : instr.opcode <;>
    simp_all [Instr.targets, Opcode.isTerminator, Opcode.numEdges]

theorem Instr.mem_successors_of_targets {found : List BlockId} {id : BlockId}
    (h : instr.targets = some found) (hid : id ∈ found) : id ∈ instr.successors := by
  unfold Instr.targets at h
  split at h <;> cases h <;> simp_all

namespace Function

theorem edge_of_targets {a b : BlockId} (h : DepthFirst.Edge f.targets a b) : f.Edge a b := by
  obtain ⟨found, hfound, hb⟩ := h
  obtain ⟨block, hblock, hfound⟩ := bind_eq_some_iff.mp hfound
  obtain ⟨last, hlast, hfound⟩ := bind_eq_some_iff.mp hfound
  have hmem : last ∈ block.instrs := mem_of_getLast? hlast
  have hsucc := Instr.mem_successors_of_targets hfound hb
  rw [Edge, succs, hblock]
  exact mem_flatMap.mpr ⟨last, hmem, hsucc⟩

theorem targets_eq_some {id : BlockId} (h : f.Terminated)
    (hreach : Reachable f.Edge f.entryBlock id) :
    ∃ found, f.targets id = some found ∧ ∀ succ, succ ∈ found ↔ f.Edge id succ := by
  obtain ⟨block, hblock, front, last, hsplit, hplain, hterminator, hedges⟩ := h id hreach
  obtain ⟨found, hfound, hmem⟩ := Instr.targets_eq_some hterminator hedges
  have hlast : block.terminator? = some last := by simp [BasicBlock.terminator?, hsplit]
  refine ⟨found, by simp [targets, hblock, hlast, hfound], fun succ => ?_⟩
  have hfront : front.flatMap Instr.successors = [] := flatMap_eq_nil_iff.mpr hplain
  simp [hmem, Edge, succs, hblock, BasicBlock.outEdges, hsplit, hfront]

end Function

variable {rpo : List BlockId}

theorem rpoIndex_lt {a b : BlockId} (hnodup : rpo.Nodup) (h : [a, b].Sublist rpo) :
    DominatorAnalysis.rpoIndex rpo a < DominatorAnalysis.rpoIndex rpo b := by
  have ha : a ∈ rpo := h.subset (by simp)
  have hb : b ∈ rpo := h.subset (by simp)
  rw [DominatorAnalysis.rpoIndex, DominatorAnalysis.rpoIndex, if_pos ha, if_pos hb]
  clear ha hb
  induction rpo with
  | nil => cases h
  | cons c rpo ih =>
    obtain ⟨hc, hnodup⟩ := nodup_cons.mp hnodup
    cases h with
    | cons _ h =>
      have hca : c ≠ a := by
        rintro rfl
        exact hc (h.subset (by simp))
      have hcb : c ≠ b := by
        rintro rfl
        exact hc (h.subset (by simp))
      rw [idxOf_cons_ne _ hca, idxOf_cons_ne _ hcb]
      exact Nat.succ_lt_succ (ih hnodup h)
    | cons_cons _ h =>
      have hab : a ≠ b := by
        rintro rfl
        exact hc (singleton_sublist.mp h)
      rw [idxOf_cons_self, idxOf_cons_ne _ hab]
      exact Nat.succ_pos _

structure Traversed (f : Function n) (rpo : List BlockId) : Prop
    extends Numbering f.Edge (DominatorAnalysis.rpoIndex rpo) f.entryBlock rpo where
  head : ∃ rest, rpo = f.entryBlock :: rest
  sorted : rpo.Pairwise fun a b =>
    DominatorAnalysis.rpoIndex rpo a < DominatorAnalysis.rpoIndex rpo b

theorem Function.GetRPOTraversal_traversed (h : f.Terminated) {fuel : Nat}
    (hrpo : f.GetRPOTraversal fuel = some rpo) : Traversed f rpo := by
  obtain ⟨traversal, htraversal, hrpo⟩ := bind_eq_some_iff.mp hrpo
  cases hrpo
  obtain ⟨s, hvisit, htraversal⟩ := bind_eq_some_iff.mp htraversal
  cases htraversal
  obtain ⟨new, hnew⟩ := DepthFirst.visit_extends hvisit (by simp)
  have hlist : s.traversal = new ++ [f.entryBlock] := by simpa using hnew.traversal
  have hrpo : s.traversal.reverse = f.entryBlock :: new.reverse := by simp [hlist]
  have hmem : ∀ a, a ∈ f.entryBlock :: new.reverse ↔ a ∈ new ++ [f.entryBlock] := by
    simp [or_comm]
  have hnodup : (f.entryBlock :: new.reverse).Nodup := by
    rw [← hrpo, nodup_reverse, hlist]
    exact hnew.nodup
  have hindex : ∀ {a b}, [b, a].Sublist (new ++ [f.entryBlock]) →
      DominatorAnalysis.rpoIndex (f.entryBlock :: new.reverse) a <
        DominatorAnalysis.rpoIndex (f.entryBlock :: new.reverse) b := by
    intro a b hpair
    refine rpoIndex_lt hnodup ?_
    simpa using hpair.reverse
  have hdescends : ∀ {a b}, DepthFirst.Descends f.targets (new ++ [f.entryBlock]) a b →
      Relation.ReflTransGen (Forward f.Edge
        (DominatorAnalysis.rpoIndex (f.entryBlock :: new.reverse))) a b := fun h =>
    Relation.ReflTransGen.mono
      (fun _ _ hforward => ⟨f.edge_of_targets hforward.1, hindex hforward.2⟩) _ _ h
  have hedges : ∀ a ∈ new ++ [f.entryBlock], ∀ b, f.Edge a b → b ∈ new ++ [f.entryBlock] ∧
      ([b, a].Sublist (new ++ [f.entryBlock]) ∨
        DepthFirst.Descends f.targets (new ++ [f.entryBlock]) b a) := by
    intro a ha b hedge
    have hreach := reachable_of_forward (hdescends (hnew.descends a ha))
    obtain ⟨found, hfound, hsucc⟩ := targets_eq_some h hreach
    simpa using hnew.edges a ha b ⟨found, hfound, (hsucc b).mpr hedge⟩
  rw [hrpo]
  refine ⟨⟨by simp, fun a ha b hb heq => ?_, fun a ha b hedge => ?_, fun a ha => ?_,
    fun a ha b hedge => ?_⟩, ⟨_, rfl⟩, ?_⟩
  · rw [DominatorAnalysis.rpoIndex, DominatorAnalysis.rpoIndex, if_pos ha, if_pos hb] at heq
    exact (idxOf_inj ha).mp heq
  · exact (hmem b).mpr (hedges a ((hmem a).mp ha) b hedge).1
  · exact hdescends (hnew.descends a ((hmem a).mp ha))
  · exact (hedges a ((hmem a).mp ha) b hedge).2.imp hindex hdescends
  · rw [pairwise_iff_forall_sublist]
    exact fun hpair => rpoIndex_lt hnodup hpair

theorem Function.GetRPOTraversal_isSome (h : f.Terminated) {fuel : Nat}
    (hfuel : f.blocks.length ≤ fuel) : ∃ rpo, f.GetRPOTraversal fuel = some rpo := by
  classical
  have hall : ∀ id ∈ f.blockIds.toFinset.filter (Reachable f.Edge f.entryBlock),
      ∃ found, f.targets id = some found ∧
        ∀ succ ∈ found, succ ∈ f.blockIds.toFinset.filter (Reachable f.Edge f.entryBlock) := by
    intro id hid
    obtain ⟨walked, hwalk⟩ := (Finset.mem_filter.mp hid).2
    obtain ⟨found, hfound, hsucc⟩ := targets_eq_some h ⟨walked, hwalk⟩
    refine ⟨found, hfound, fun succ hmem => ?_⟩
    have hreach : Reachable f.Edge f.entryBlock succ := ⟨_, hwalk.step ((hsucc succ).mp hmem)⟩
    obtain ⟨block, hblock, -⟩ := h succ hreach
    simp [hreach, ← block?_isSome, hblock]
  have hentry : Reachable f.Edge f.entryBlock f.entryBlock := ⟨[], .entry⟩
  obtain ⟨block, hblock, -⟩ := h _ hentry
  have hmem : f.entryBlock ∈ f.blockIds.toFinset.filter (Reachable f.Edge f.entryBlock) := by
    simp [hentry, ← block?_isSome, hblock]
  have hcard : (f.blockIds.toFinset.filter (Reachable f.Edge f.entryBlock) \
      (∅ : Finset BlockId)).card ≤ fuel := by
    refine le_trans (Finset.card_le_card Finset.sdiff_subset)
      (le_trans (Finset.card_filter_le _ _) ?_)
    refine (toFinset_card_le _).trans ?_
    simpa [blockIds] using hfuel
  obtain ⟨s, hs⟩ := DepthFirst.visit_isSome (s := {}) hall hmem (by simp) hcard
  exact ⟨s.traversal.reverse, by
    simp [Function.GetRPOTraversal, Function.GetPostOrderTraversal, postorder_traverse, hs]⟩

theorem Traversed.length_le (t : Traversed f rpo) (h : f.Terminated) :
    rpo.length ≤ f.blocks.length := by
  have hnodup : rpo.Nodup := t.sorted.imp fun hlt heq => (heq ▸ hlt).false
  have hsubset : rpo ⊆ f.blockIds := by
    intro id hid
    obtain ⟨block, hblock, -⟩ := h id (t.toNumbering.reachable_iff.mpr hid)
    exact block?_isSome.mp (by simp [hblock])
  simpa [blockIds] using (hnodup.subperm hsubset).length_le

namespace DominatorAnalysis

section Loops

variable {idx : BlockId → Nat} {entry : BlockId} {D : BlockId → Option BlockId}
  (t : Tree idx entry D) {limit pred pred1 pred2 m z : BlockId} {fuel : Nat}

theorem climb_spec (h : climb idx D limit fuel pred = some m) : idx m ≤ idx limit ∧
    Chain D pred m ∧ ∀ z, idx z ≤ idx limit → (Chain D pred z ↔ Chain D m z) := by
  induction fuel generalizing pred with
  | zero =>
    unfold climb at h
    split at h
    next => cases h
    next hle =>
      cases h
      exact ⟨Nat.not_lt.mp hle, .refl, fun _ _ => Iff.rfl⟩
  | succ fuel ih =>
    unfold climb at h
    split at h
    next hlt =>
      obtain ⟨parent, hparent, h⟩ := bind_eq_some_iff.mp h
      obtain ⟨hle, hchain, hsame⟩ := ih h
      refine ⟨hle, .cons hparent hchain, fun z hz => ?_⟩
      rw [chain_iff hparent, ← hsame z hz]
      refine or_iff_right ?_
      rintro rfl
      omega
    next hle =>
      cases h
      exact ⟨Nat.not_lt.mp hle, .refl, fun _ _ => Iff.rfl⟩

include t

theorem climb_isSome (hlimit : (D limit).isSome) (hpred : (D pred).isSome)
    (hfuel : idx pred ≤ fuel) : ∃ m, climb idx D limit fuel pred = some m := by
  induction fuel generalizing pred with
  | zero => exact ⟨pred, by simp [climb]; omega⟩
  | succ fuel ih =>
    by_cases hlt : idx limit < idx pred
    · obtain ⟨parent, hparent⟩ := isSome_iff_exists.mp hpred
      have hne : pred ≠ entry := by
        rintro rfl
        have hle := t.chain_le (t.chain_of_isSome hlimit)
        omega
      obtain ⟨hless, hsome⟩ := t.parent hparent hne
      obtain ⟨m, hm⟩ := ih hsome (by omega)
      exact ⟨m, by simp [climb, hlt, hparent, hm]⟩
    · exact ⟨pred, by simp [climb, hlt]⟩

theorem intersect_spec (h : intersect idx D fuel pred1 pred2 = some m) :
    Chain D pred1 m ∧ ∀ z, Chain D m z ↔ Chain D pred1 z ∧ Chain D pred2 z := by
  induction fuel generalizing pred1 pred2 with
  | zero => cases h
  | succ fuel ih =>
    obtain ⟨pred2', h2, h⟩ := bind_eq_some_iff.mp h
    obtain ⟨pred1', h1, h⟩ := bind_eq_some_iff.mp h
    obtain ⟨hle2, hchain2, hsame2⟩ := climb_spec h2
    obtain ⟨hle1, hchain1, hsame1⟩ := climb_spec h1
    -- climbing passes no common ancestor
    have hcommon : ∀ z, Chain D pred1 z ∧ Chain D pred2 z ↔
        Chain D pred1' z ∧ Chain D pred2' z := by
      intro z
      constructor
      · rintro ⟨hz1, hz2⟩
        have hz2' := (hsame2 z (t.chain_le hz1)).mp hz2
        exact ⟨(hsame1 z (t.chain_le hz2')).mp hz1, hz2'⟩
      · rintro ⟨hz1, hz2⟩
        exact ⟨hchain1.trans hz1, hchain2.trans hz2⟩
    simp only [hcommon]
    split at h
    next heq =>
      cases h
      exact ⟨hchain1, fun z => by rw [heq, and_self]⟩
    next =>
      obtain ⟨hchain, hmeet⟩ := ih h
      exact ⟨hchain1.trans hchain, hmeet⟩

theorem intersect_isSome
    (hinj : ∀ {a b}, (D a).isSome → (D b).isSome → idx a = idx b → a = b)
    (h1 : (D pred1).isSome) (h2 : (D pred2).isSome) (hfuel : idx pred1 + idx pred2 < fuel) :
    ∃ m, intersect idx D fuel pred1 pred2 = some m := by
  induction fuel generalizing pred1 pred2 with
  | zero => omega
  | succ fuel ih =>
    have hfuel2 : idx pred2 ≤ fuel := by omega
    obtain ⟨pred2', hclimb2⟩ := climb_isSome t h1 h2 hfuel2
    obtain ⟨hle2, hchain2, -⟩ := climb_spec hclimb2
    have h2' := t.isSome_of_chain hchain2 h2
    have hfuel1 : idx pred1 ≤ fuel := by omega
    obtain ⟨pred1', hclimb1⟩ := climb_isSome t h2' h1 hfuel1
    obtain ⟨hle1, hchain1, -⟩ := climb_spec hclimb1
    have h1' := t.isSome_of_chain hchain1 h1
    by_cases heq : pred1' = pred2'
    · exact ⟨pred1', by simp [intersect, hclimb2, hclimb1, heq]⟩
    · have hlt : idx pred1' < idx pred2' := hle1.lt_of_ne fun h => heq (hinj h1' h2' h)
      have hle2' := t.chain_le hchain2
      obtain ⟨m, hm⟩ := ih h1' h2' (by omega)
      exact ⟨m, by simp [intersect, hclimb2, hclimb1, heq, hm]⟩

end Loops

section CommonPred

variable {idx : BlockId → Nat} {entry : BlockId} {D : BlockId → Option BlockId} {fuel : Nat}
  {preds rest : List BlockId} {pred m z : BlockId}

theorem firstProcessed_spec (h : firstProcessed D preds = some (pred, rest)) :
    (D pred).isSome ∧ ∀ p, (D p).isSome → (p ∈ preds ↔ p = pred ∨ p ∈ rest) := by
  induction preds with
  | nil => cases h
  | cons first preds ih =>
    unfold firstProcessed at h
    split at h
    next hsome =>
      cases h
      exact ⟨hsome, fun p _ => mem_cons⟩
    next hnone =>
      obtain ⟨hpred, hmem⟩ := ih h
      refine ⟨hpred, fun p hp => ?_⟩
      have hne : p ≠ first := by
        rintro rfl
        exact hnone hp
      rw [mem_cons, or_iff_right hne, hmem p hp]

theorem firstProcessed_isSome (h : ∃ p ∈ preds, (D p).isSome) :
    ∃ found, firstProcessed D preds = some found := by
  induction preds with
  | nil => simp at h
  | cons first preds ih =>
    by_cases hfirst : (D first).isSome
    · exact ⟨(first, preds), by simp [firstProcessed, hfirst]⟩
    · obtain ⟨p, hp, hsome⟩ := h
      have hp : p ∈ preds := by
        refine (mem_cons.mp hp).resolve_left ?_
        rintro rfl
        exact hfirst hsome
      obtain ⟨found, hfound⟩ := ih ⟨p, hp, hsome⟩
      exact ⟨found, by simp [firstProcessed, hfirst, hfound]⟩

theorem commonPred_fold (t : Tree idx entry D) (hpred : (D pred).isSome)
    (h : rest.foldlM (fun pred1 pred2 => if pred2 = pred1 ∨ D pred2 = none then some pred1
      else intersect idx D fuel pred1 pred2) pred = some m) :
    (D m).isSome ∧ ∀ z, Chain D m z ↔
      Chain D pred z ∧ ∀ p ∈ rest, (D p).isSome → Chain D p z := by
  induction rest generalizing pred with
  | nil =>
    cases h
    exact ⟨hpred, by simp⟩
  | cons p rest ih =>
    obtain ⟨pred', hfirst, hrest⟩ := bind_eq_some_iff.mp h
    dsimp only at hfirst
    have hround : (D pred').isSome ∧
        ∀ z, Chain D pred' z ↔ Chain D pred z ∧ ((D p).isSome → Chain D p z) := by
      split at hfirst
      next hskip =>
        cases hfirst
        refine ⟨hpred, fun z => (and_iff_left_of_imp fun hz hp => ?_).symm⟩
        rcases hskip with rfl | hnone
        · exact hz
        · simp [hnone] at hp
      next hskip =>
        have hp : (D p).isSome := isSome_iff_ne_none.mpr fun h => hskip (Or.inr h)
        obtain ⟨hchain, hmeet⟩ := intersect_spec t hfirst
        exact ⟨t.isSome_of_chain hchain hpred, fun z => by simp [hmeet, hp]⟩
    obtain ⟨hm, hmeet⟩ := ih hround.1 hrest
    refine ⟨hm, fun z => ?_⟩
    rw [hmeet, hround.2, forall_mem_cons, and_assoc]

theorem commonPred_spec (t : Tree idx entry D) (h : commonPred idx D fuel preds = some m)
    (z : BlockId) :
    Chain D m z ↔ ∀ p ∈ preds, (D p).isSome → Chain D p z := by
  obtain ⟨⟨pred, rest⟩, hfirst, hfold⟩ := bind_eq_some_iff.mp h
  obtain ⟨hpred, hmem⟩ := firstProcessed_spec hfirst
  rw [(commonPred_fold t hpred hfold).2]
  constructor
  · rintro ⟨hz, hrest⟩ p hp hsome
    rcases (hmem p hsome).mp hp with rfl | hp
    · exact hz
    · exact hrest p hp hsome
  · intro hall
    exact ⟨hall pred ((hmem pred hpred).mpr (Or.inl rfl)) hpred,
      fun p hp hsome => hall p ((hmem p hsome).mpr (Or.inr hp)) hsome⟩

theorem commonPred_isSome (t : Tree idx entry D)
    (hinj : ∀ {a b}, (D a).isSome → (D b).isSome → idx a = idx b → a = b) {bound : Nat}
    (hbound : ∀ {a}, (D a).isSome → idx a ≤ bound) (hfuel : 2 * bound < fuel)
    (h : ∃ p ∈ preds, (D p).isSome) : ∃ m, commonPred idx D fuel preds = some m := by
  obtain ⟨⟨pred, rest⟩, hfirst⟩ := firstProcessed_isSome h
  have hpred := (firstProcessed_spec hfirst).1
  have hfold : ∃ m, rest.foldlM (fun pred1 pred2 =>
      if pred2 = pred1 ∨ D pred2 = none then some pred1
      else intersect idx D fuel pred1 pred2) pred = some m := by
    clear hfirst
    induction rest generalizing pred with
    | nil => exact ⟨pred, rfl⟩
    | cons p rest ih =>
      by_cases hskip : p = pred ∨ D p = none
      · obtain ⟨m, hm⟩ := ih pred hpred
        exact ⟨m, by simp [hskip, hm]⟩
      · have hp : (D p).isSome := isSome_iff_ne_none.mpr fun h => hskip (Or.inr h)
        have hrounds : idx pred + idx p < fuel := by
          have hle := hbound hpred
          have hle' := hbound hp
          omega
        obtain ⟨pred', hpred'⟩ := intersect_isSome t hinj hpred hp hrounds
        have hchain := (intersect_spec t hpred').1
        obtain ⟨m, hm⟩ := ih pred' (t.isSome_of_chain hchain hpred)
        exact ⟨m, by simp [hskip, hpred', hm]⟩
  obtain ⟨m, hm⟩ := hfold
  exact ⟨m, by simp [commonPred, hfirst, hm]⟩

end CommonPred

/-! ## The passes -/

section Passes

variable {rpo : List BlockId} (t : Traversed f rpo) (order : f.EdgeOrder) {bound : Nat}
  {s s' : (BlockId → Option BlockId) × Bool} {b : BlockId}

omit order in
theorem rpoIndex_le {a : BlockId} (ha : a ∈ rpo) : rpoIndex rpo a ≤ rpo.length := by
  rw [rpoIndex, if_pos ha]
  exact idxOf_le_length

abbrev Approximation (f : Function n) (rpo : List BlockId) (D : BlockId → Option BlockId) : Prop :=
  Approximates f.Edge (rpoIndex rpo) f.entryBlock rpo D

theorem mem_in_edges {p : BlockId} : p ∈ order.in_edges b ↔ f.Edge p b := by
  rw [(order.perm b).mem_iff, mem_inEdges]
  rfl

include t

theorem visitBlock_spec (h : Approximation f rpo s.1) (hb : b ∈ rpo) (hne : b ≠ f.entryBlock)
    (hbelow : ∀ p ∈ rpo, rpoIndex rpo p < rpoIndex rpo b → (s.1 p).isSome)
    (hvisit : visitBlock (rpoIndex rpo) order.in_edges bound s b = some s') :
    ∃ m, Meets f.Edge s.1 b m ∧ s'.1 = Function.update s.1 b (some m) ∧
      Approximation f rpo s'.1 ∧ (s'.2 = true ↔ s.2 = true ∨ s.1 b ≠ some m) := by
  obtain ⟨m, hm, hvisit⟩ := bind_eq_some_iff.mp hvisit
  cases hvisit
  have hmeets : Meets f.Edge s.1 b m := by
    intro z
    rw [commonPred_spec h.toTree hm z]
    simp only [mem_in_edges]
  obtain ⟨q, hq, hforward⟩ := t.toNumbering.exists_forward hb hne
  have happrox := (h.update hb hne hmeets hforward (hbelow q hq hforward.2)).1
  have hvalue : (if s.1 b ≠ some m then (Function.update s.1 b (some m), true) else s).1 =
      Function.update s.1 b (some m) := by
    split
    · rfl
    next hsame => exact (Function.update_eq_self_iff.mpr (not_not.mp hsame).symm).symm
  refine ⟨m, hmeets, hvalue, ?_, ?_⟩
  · rw [hvalue]
    exact happrox
  · split
    next hchanged => simp [hchanged]
    next hsame => simp [not_not.mp hsame]

theorem visitBlock_isSome (h : Approximation f rpo s.1) (hb : b ∈ rpo) (hne : b ≠ f.entryBlock)
    (hbelow : ∀ p ∈ rpo, rpoIndex rpo p < rpoIndex rpo b → (s.1 p).isSome)
    (hbound : 2 * rpo.length < bound) :
    ∃ s', visitBlock (rpoIndex rpo) order.in_edges bound s b = some s' := by
  obtain ⟨q, hq, hforward⟩ := t.toNumbering.exists_forward hb hne
  obtain ⟨m, hm⟩ : ∃ m, commonPred (rpoIndex rpo) s.1 bound (order.in_edges b) = some m :=
    commonPred_isSome h.toTree (fun ha hb heq => t.injective _ (h.mem ha) _ (h.mem hb) heq)
      (fun ha => rpoIndex_le (h.mem ha)) hbound
      ⟨q, (mem_in_edges order).mpr hforward.1, hbelow q hq hforward.2⟩
  exact ⟨_, by rw [visitBlock, hm]; rfl⟩

variable {done bs : List BlockId}

omit order in
theorem before_of_split (hrpo : rpo = done ++ b :: bs)
    (hentry : f.entryBlock ∈ done) : b ∈ rpo ∧ b ≠ f.entryBlock ∧ b ∉ bs ∧
      ∀ p ∈ rpo, rpoIndex rpo p < rpoIndex rpo b → p ∈ done := by
  have hsorted := t.sorted
  subst hrpo
  obtain ⟨-, hafter, hbefore⟩ := pairwise_append.mp hsorted
  obtain ⟨hafter, -⟩ := pairwise_cons.mp hafter
  refine ⟨by simp, ?_, fun hb => (hafter b hb).false, fun p hp hlt => ?_⟩
  · rintro rfl
    exact (hbefore _ hentry _ mem_cons_self).false
  · rcases mem_append.mp hp with hp | hp
    · exact hp
    · rcases mem_cons.mp hp with rfl | hp
      · exact absurd hlt (lt_irrefl _)
      · exact absurd (hafter p hp) hlt.asymm

omit t in
theorem isSome_update {D : BlockId → Option BlockId} {b m : BlockId}
    (hdone : ∀ p ∈ done, (D p).isSome) :
    ∀ p ∈ done ++ [b], (Function.update D b (some m) p).isSome := by
  intro p hp
  by_cases hpb : p = b
  · simp [hpb]
  · rw [Function.update_of_ne hpb]
    exact hdone p (by simpa [hpb] using hp)

theorem foldlM_visitBlock (hrpo : rpo = done ++ bs)
    (hentry : f.entryBlock ∈ done) (h : Approximation f rpo s.1)
    (hdone : ∀ p ∈ done, (s.1 p).isSome)
    (hfold : bs.foldlM (visitBlock (rpoIndex rpo) order.in_edges bound) s = some s') :
    Sweep f.Edge s.1 bs s'.1 ∧ Approximation f rpo s'.1 ∧
      (s'.2 = true ↔ s.2 = true ∨ s'.1 ≠ s.1) := by
  induction bs generalizing s done with
  | nil =>
    cases hfold
    exact ⟨.nil, h, by simp⟩
  | cons b bs ih =>
    obtain ⟨s₁, hvisit, hfold⟩ := bind_eq_some_iff.mp hfold
    obtain ⟨hb, hne, hnot, hbefore⟩ := before_of_split t hrpo hentry
    obtain ⟨m, hmeets, hvalue, happrox, hchanged⟩ := visitBlock_spec t order h hb hne
      (fun p hp hlt => hdone p (hbefore p hp hlt)) hvisit
    have hdone' : ∀ p ∈ done ++ [b], (s₁.1 p).isSome := hvalue ▸ isSome_update hdone
    have hrpo' : rpo = (done ++ [b]) ++ bs := by simp [hrpo]
    obtain ⟨hsweep, happrox', hchanged'⟩ :=
      ih hrpo' (mem_append_left _ hentry) happrox hdone' hfold
    have hnew : s'.1 b = some m := by
      rw [hsweep.eq_of_notMem hnot, hvalue, Function.update_self]
    refine ⟨.cons hmeets (hvalue ▸ hsweep), happrox', ?_⟩
    rw [hchanged', hchanged]
    by_cases hsame : s.1 b = some m
    · have heq : s₁.1 = s.1 := by rw [hvalue, ← hsame, Function.update_eq_self]
      simp [hsame, heq]
    · have hdiffers : s'.1 ≠ s.1 := fun heq => hsame (heq ▸ hnew)
      simp [hsame, hdiffers]

theorem foldlM_visitBlock_isSome (hrpo : rpo = done ++ bs)
    (hentry : f.entryBlock ∈ done) (h : Approximation f rpo s.1)
    (hdone : ∀ p ∈ done, (s.1 p).isSome) (hbound : 2 * rpo.length < bound) :
    ∃ s', bs.foldlM (visitBlock (rpoIndex rpo) order.in_edges bound) s = some s' := by
  induction bs generalizing s done with
  | nil => exact ⟨s, rfl⟩
  | cons b bs ih =>
    obtain ⟨hb, hne, hnot, hbefore⟩ := before_of_split t hrpo hentry
    have hbelow : ∀ p ∈ rpo, rpoIndex rpo p < rpoIndex rpo b → (s.1 p).isSome :=
      fun p hp hlt => hdone p (hbefore p hp hlt)
    obtain ⟨s₁, hvisit⟩ := visitBlock_isSome t order h hb hne hbelow hbound
    obtain ⟨m, hmeets, hvalue, happrox, hchanged⟩ :=
      visitBlock_spec t order h hb hne hbelow hvisit
    have hdone' : ∀ p ∈ done ++ [b], (s₁.1 p).isSome := hvalue ▸ isSome_update hdone
    have hrpo' : rpo = (done ++ [b]) ++ bs := by simp [hrpo]
    obtain ⟨s', hs'⟩ := ih hrpo' (mem_append_left _ hentry) happrox hdone'
    exact ⟨s', by rw [foldlM_cons, hvisit]; exact hs'⟩

variable {D D' : BlockId → Option BlockId}

theorem pass_spec (h : Approximation f rpo D)
    (hpass : rpo.tail.foldlM (visitBlock (rpoIndex rpo) order.in_edges bound) (D, false) =
      some s') :
    Pass f.Edge (rpoIndex rpo) f.entryBlock rpo D s'.1 ∧ Approximation f rpo s'.1 ∧
      (s'.2 = true ↔ s'.1 ≠ D) := by
  obtain ⟨rest, hrest⟩ := t.head
  have hentry : ∀ p ∈ [f.entryBlock], (D p).isSome := by simp [h.root]
  rw [hrest, tail_cons, ← hrest] at hpass
  obtain ⟨hsweep, happrox, hchanged⟩ :=
    foldlM_visitBlock t order (show rpo = [f.entryBlock] ++ rest from hrest)
      (by simp) h hentry hpass
  exact ⟨hsweep.pass hrest t.sorted fun _ => h.mem, happrox, by simpa using hchanged⟩

theorem pass_isSome (h : Approximation f rpo D) (hbound : 2 * rpo.length < bound) :
    ∃ s', rpo.tail.foldlM (visitBlock (rpoIndex rpo) order.in_edges bound) (D, false) =
      some s' := by
  obtain ⟨rest, hrest⟩ := t.head
  have hentry : ∀ p ∈ [f.entryBlock], (D p).isSome := by simp [h.root]
  obtain ⟨s', hs'⟩ := foldlM_visitBlock_isSome t order (s := (D, false))
    (show rpo = [f.entryBlock] ++ rest from hrest) (by simp) h hentry hbound
  rw [hrest, tail_cons, ← hrest]
  exact ⟨s', hs'⟩

theorem passes_spec {fuel : Nat} (h : Approximation f rpo D)
    (hpasses : passes rpo order.in_edges bound fuel D = some D') :
    Approximation f rpo D' ∧ Pass f.Edge (rpoIndex rpo) f.entryBlock rpo D' D' := by
  induction fuel generalizing D with
  | zero => cases hpasses
  | succ fuel ih =>
    obtain ⟨s', hpass, hpasses⟩ := bind_eq_some_iff.mp hpasses
    obtain ⟨hspec, happrox, hchanged⟩ := pass_spec t order h hpass
    dsimp only at hpasses
    split at hpasses
    next => exact ih happrox hpasses
    next hsame =>
      cases hpasses
      have heq : s'.1 = D := not_not.mp fun hne => hsame (hchanged.mpr hne)
      exact ⟨happrox, heq.symm ▸ heq ▸ hspec⟩

theorem passes_isSome {fuel : Nat} {D₀ : BlockId → Option BlockId} (h₀ : Approximation f rpo D₀)
    (hpass : Pass f.Edge (rpoIndex rpo) f.entryBlock rpo D₀ D) (h : Approximation f rpo D)
    (hbound : 2 * rpo.length < bound) (hfuel : height (rpoIndex rpo) rpo D < fuel) :
    ∃ D', passes rpo order.in_edges bound fuel D = some D' := by
  induction fuel generalizing D₀ D with
  | zero => omega
  | succ fuel ih =>
    obtain ⟨s', hs'⟩ := pass_isSome t order h hbound
    obtain ⟨hspec, happrox, hchanged⟩ := pass_spec t order h hs'
    by_cases hsame : s'.2 = true
    · have hlt := hpass.height_lt t.toNumbering h.toTree hspec happrox.toTree h₀.mem h.mem
        happrox.mem (hchanged.mp hsame)
      obtain ⟨D', hD'⟩ := ih h hspec happrox (by omega)
      exact ⟨D', by simp [passes, hs', hsame, hD']⟩
    · exact ⟨s'.1, by simp [passes, hs', hsame]⟩

end Passes

section DominatedSets

variable {sets : BlockId → Finset BlockId}

theorem mem_addDominated {idoms : BlockId → Option BlockId} {b c d : BlockId}
    (hne : idoms b ≠ some b) : c ∈ addDominated idoms sets b d ↔
      if d = b then c ∈ insert b (sets b)
      else c ∈ sets d ∨ idoms b = some d ∧ c ∈ insert b (sets b) := by
  unfold addDominated
  cases hidom : idoms b with
  | none =>
    by_cases hd : d = b <;> simp [hd]
  | some parent =>
    have hparent : parent ≠ b := by
      rintro rfl
      exact hne hidom
    by_cases hd : d = b
    · subst hd
      simp [Function.update_of_ne hparent.symm]
    · by_cases hdp : d = parent
      · subst hdp
        simp [hd, or_left_comm]
      · simp [hd, Function.update_of_ne hdp, Ne.symm hdp]

variable {rpo : List BlockId} {D : BlockId → Option BlockId} (h : Approximation f rpo D)

theorem chain_last {idx : BlockId → Nat} {entry c d : BlockId} (t : Tree idx entry D)
    (hchain : Chain D c d) (hne : c ≠ d) :
    ∃ b, Function.update D entry none b = some d ∧ Chain D c b ∧ idx d < idx b := by
  induction hchain with
  | refl => exact absurd rfl hne
  | @tail b d hchain hlink ih =>
    by_cases hb : b = entry
    · subst hb
      obtain rfl := Option.some.inj (t.root.symm.trans hlink)
      exact ih hne
    · exact ⟨b, by rwa [Function.update_of_ne hb], hchain, (t.parent hlink hb).1⟩

def Collected (f : Function n) (rpo : List BlockId) (D : BlockId → Option BlockId)
    (done : List BlockId) (sets : BlockId → Finset BlockId) : Prop :=
  ∀ d c, c ∈ sets d ↔ c ∈ rpo ∧ (d ∈ done ∧ Chain D c d ∨
    d ∉ done ∧ ∃ b ∈ done, Function.update D f.entryBlock none b = some d ∧ Chain D c b)

include h

theorem link_of_update {b d : BlockId} (hlink : Function.update D f.entryBlock none b = some d) :
    D b = some d ∧ rpoIndex rpo d < rpoIndex rpo b := by
  by_cases hb : b = f.entryBlock
  · simp [hb] at hlink
  · rw [Function.update_of_ne hb] at hlink
    exact ⟨hlink, (h.parent hlink hb).1⟩

theorem Collected.step {done : List BlockId} {b : BlockId} (hsets : Collected f rpo D done sets)
    (hb : b ∈ rpo) (hdone : ∀ a ∈ rpo, a ∈ done ↔ rpoIndex rpo b < rpoIndex rpo a) :
    Collected f rpo D (done ++ [b])
      (addDominated (Function.update D f.entryBlock none) sets b) := by
  have hnot : b ∉ done := fun hmem => ((hdone b hb).mp hmem).false
  -- the block has got everything that it dominates
  have hown : ∀ c, c ∈ insert b (sets b) ↔ c ∈ rpo ∧ Chain D c b := by
    intro c
    rw [Finset.mem_insert, hsets b c]
    simp only [hnot, false_and, not_false_eq_true, true_and, false_or]
    constructor
    · rintro (rfl | ⟨hc, a, -, hlink, hchain⟩)
      · exact ⟨hb, .refl⟩
      · exact ⟨hc, hchain.tail (link_of_update h hlink).1⟩
    · rintro ⟨hc, hchain⟩
      by_cases hcb : c = b
      · exact Or.inl hcb
      · obtain ⟨a, hlink, hchain, hlt⟩ := chain_last h.toTree hchain hcb
        have han : a ∈ rpo := h.mem (by simp [(link_of_update h hlink).1])
        exact Or.inr ⟨hc, a, (hdone a han).mpr hlt, hlink, hchain⟩
  have hne : Function.update D f.entryBlock none b ≠ some b := fun hlink =>
    (link_of_update h hlink).2.false
  intro d c
  rw [mem_addDominated hne]
  by_cases hd : d = b
  · subst hd
    simp [hown]
  · rw [if_neg hd, hsets d c, hown c]
    simp only [mem_append, mem_singleton, hd, or_false]
    by_cases hmem : d ∈ done
    · have hlink : Function.update D f.entryBlock none b ≠ some d := fun hlink => by
        have hlt := (link_of_update h hlink).2
        have hdn : d ∈ rpo := h.mem (h.toTree.isSome (link_of_update h hlink).1)
        exact hlt.asymm ((hdone d hdn).mp hmem)
      simp [hmem, hlink]
    · simp only [hmem, false_and, not_false_eq_true, true_and, false_or]
      constructor
      · rintro (⟨hc, a, ha, hrest⟩ | ⟨hlink, hc, hchain⟩)
        · exact ⟨hc, a, Or.inl ha, hrest⟩
        · exact ⟨hc, b, Or.inr rfl, hlink, hchain⟩
      · rintro ⟨hc, a, ha | rfl, hlink, hchain⟩
        · exact Or.inl ⟨hc, a, ha, hlink, hchain⟩
        · exact Or.inr ⟨hlink, hc, hchain⟩

theorem collected_foldl (t : Traversed f rpo) {done rest : List BlockId}
    (hsplit : rpo.reverse = done ++ rest) (hsets : Collected f rpo D done sets) :
    Collected f rpo D rpo.reverse
      (rest.foldl (addDominated (Function.update D f.entryBlock none)) sets) := by
  induction rest generalizing done sets with
  | nil =>
    rw [hsplit, append_nil]
    exact hsets
  | cons b rest ih =>
    have hrpo : rpo = rest.reverse ++ b :: done.reverse := by
      rw [← reverse_reverse rpo, hsplit]
      simp
    have hsorted := t.sorted
    rw [hrpo] at hsorted
    obtain ⟨-, hafter, hbefore⟩ := pairwise_append.mp hsorted
    obtain ⟨hafter, -⟩ := pairwise_cons.mp hafter
    rw [← hrpo] at hafter hbefore
    refine ih (by simp [hsplit]) (hsets.step h (by simp [hrpo]) fun a ha => ?_)
    constructor
    · exact fun hmem => hafter a (mem_reverse.mpr hmem)
    · intro hlt
      rw [hrpo] at ha
      rcases mem_append.mp ha with ha | ha
      · exact absurd (hbefore a ha b mem_cons_self) hlt.asymm
      · rcases mem_cons.mp ha with rfl | ha
        · exact absurd hlt (lt_irrefl _)
        · exact mem_reverse.mp ha

end DominatedSets

variable (f) in
structure Correct (a : DominatorAnalysis) : Prop where
  entry : a.immediateDominator f.entryBlock = none
  immediate : ∀ b, Reachable f.Edge f.entryBlock b → b ≠ f.entryBlock →
    ∃ d, a.immediateDominator b = some d ∧ ImmediatelyDominates f.Edge f.entryBlock d b ∧
      ∀ d', ImmediatelyDominates f.Edge f.entryBlock d' b → d' = d
  dominated : ∀ b c, c ∈ a.getBlocksDominatedBy b ↔
    Reachable f.Edge f.entryBlock c ∧ Dominates f.Edge f.entryBlock b c

theorem approximation_start {rpo : List BlockId} (t : Traversed f rpo) :
    Approximation f rpo (Function.update (fun _ => none) f.entryBlock (some f.entryBlock)) := by
  have hlink : ∀ {a b}, Function.update (fun _ => none) f.entryBlock (some f.entryBlock) a =
      some b →
      a = f.entryBlock ∧ b = f.entryBlock := by
    intro a b h
    by_cases ha : a = f.entryBlock
    · subst ha
      rw [Function.update_self] at h
      exact ⟨rfl, (Option.some.inj h).symm⟩
    · simp [Function.update_of_ne ha] at h
  refine ⟨⟨Function.update_self _ _ _, fun h hne => absurd (hlink h).1 hne⟩, fun ha => ?_,
    fun h => ?_, fun {a z} ha hz => ?_⟩
  · obtain ⟨b, hb⟩ := isSome_iff_exists.mp ha
    exact (hlink hb).1 ▸ t.entry_mem
  · obtain ⟨rfl, rfl⟩ := hlink h
    exact .refl
  · obtain ⟨b, hb⟩ := isSome_iff_exists.mp ha
    obtain ⟨rfl, -⟩ := hlink hb
    rw [dominates_entry_iff.mp hz]
    exact .refl

theorem correct_of_create (h : f.Terminated) (order : f.EdgeOrder) {fuel : Nat}
    {a : DominatorAnalysis} (hcreate : create f order fuel = some a) : Correct f a := by
  obtain ⟨rpo, hrpo, hcreate⟩ := bind_eq_some_iff.mp hcreate
  obtain ⟨entry, hentry, hcreate⟩ := bind_eq_some_iff.mp hcreate
  obtain ⟨D, hpasses, hcreate⟩ := bind_eq_some_iff.mp hcreate
  cases hcreate
  have t := f.GetRPOTraversal_traversed h hrpo
  obtain ⟨rest, hrest⟩ := t.head
  obtain rfl : f.entryBlock = entry := by simpa [hrest] using hentry
  obtain ⟨happrox, hpass⟩ := passes_spec t order (approximation_start t) hpasses
  have hnone : Collected f rpo D [] fun _ => ∅ := fun d c => by simp
  have hcollected := collected_foldl happrox t (nil_append _).symm hnone
  refine ⟨Function.update_self _ _ _, fun b hb hne => ?_, fun b c => ?_⟩
  · have hbn := t.toNumbering.reachable_iff.mp hb
    obtain ⟨d, hd, -⟩ := hpass b hbn hne
    have hidom := happrox.immediatelyDominates t.toNumbering hpass hbn hne hd
    refine ⟨d, ?_, hidom, fun d' hd' => hd'.unique hidom (hidom.strict.2.reachable hb)⟩
    exact (Function.update_of_ne hne _ _).trans hd
  · rw [getBlocksDominatedBy, hcollected b c, t.toNumbering.reachable_iff]
    refine and_congr_right fun hc => ?_
    rw [← happrox.chain_iff_dominates t.toNumbering hpass hc]
    simp only [mem_reverse]
    constructor
    · rintro (⟨-, hchain⟩ | ⟨hb, a, -, hlink, -⟩)
      · exact hchain
      · exact absurd (happrox.mem (happrox.toTree.isSome (link_of_update happrox hlink).1)) hb
    · intro hchain
      exact Or.inl ⟨happrox.mem (happrox.toTree.isSome_of_chain hchain
        (hpass.isSome happrox.toTree hc)), hchain⟩

theorem create_isSome (h : f.Terminated) (order : f.EdgeOrder) :
    ∃ fuel a, create f order fuel = some a := by
  obtain ⟨N, hN⟩ : ∃ N, N = f.blocks.length := ⟨_, rfl⟩
  obtain ⟨rounds, hrounds⟩ : ∃ rounds, rounds = N * N + 2 * N + 1 := ⟨_, rfl⟩
  have hblocks : f.blocks.length ≤ rounds + 1 := by omega
  obtain ⟨rpo, hrpo⟩ := f.GetRPOTraversal_isSome h hblocks
  have t := f.GetRPOTraversal_traversed h hrpo
  have hlength : rpo.length ≤ N := hN ▸ t.length_le h
  have hbound : 2 * rpo.length < rounds + 1 := by omega
  have hstart := approximation_start t
  obtain ⟨s, hs⟩ := pass_isSome t order hstart hbound
  obtain ⟨hpass, happrox, -⟩ := pass_spec t order hstart hs
  have hheight : height (rpoIndex rpo) rpo s.1 < rounds := by
    have hle : height (rpoIndex rpo) rpo s.1 ≤ rpo.length * N := height_le fun {a b} hlink =>
      (rpoIndex_le (happrox.mem (happrox.toTree.isSome hlink))).trans hlength
    have hmul := Nat.mul_le_mul_right N hlength
    omega
  obtain ⟨D, hD⟩ := passes_isSome t order hstart hpass happrox hbound hheight
  obtain ⟨D', hD'⟩ : ∃ D', passes rpo order.in_edges (rounds + 1) (rounds + 1)
      (Function.update (fun _ => none) f.entryBlock (some f.entryBlock)) = some D' := by
    rw [passes, hs]
    by_cases hchanged : s.2 = true
    · exact ⟨D, by simp [hchanged, hD]⟩
    · exact ⟨s.1, by simp [hchanged]⟩
  obtain ⟨rest, hrest⟩ := t.head
  have hhead : rpo.head? = some f.entryBlock := by simp [hrest]
  have hcreate : create f order (rounds + 1) = some ⟨Function.update D' f.entryBlock none,
      rpo.reverse.foldl (addDominated (Function.update D' f.entryBlock none)) fun _ => ∅⟩ := by
    simp only [create, hrpo, hhead, bind_eq_bind, bind_some, hD', Option.pure_def]
  exact ⟨rounds + 1, _, hcreate⟩

/-- For every order of the edges, the analysis ends and says what dominates what. -/
theorem dominatorAnalysis_correct (h : f.Terminated) (order : f.EdgeOrder) :
    (∃ fuel a, create f order fuel = some a) ∧
      ∀ fuel a, create f order fuel = some a → Correct f a :=
  ⟨create_isSome h order, fun _ _ hcreate => correct_of_create h order hcreate⟩

def twoEntries : Function 0 := .ofObjects [⟨0, [{ opcode := .kCondBranch, successors := [1, 2] }]⟩,
    ⟨1, [{ opcode := .kBranch, successors := [2] }]⟩,
    ⟨2, [{ opcode := .kCondBranch, successors := [1, 3] }]⟩,
    ⟨3, [{ opcode := .kReturn }]⟩,
    ⟨4, [{ opcode := .kBranch, successors := [3] }]⟩] (by decide)

theorem terminated_twoEntries : twoEntries.Terminated := by
  have hmem : ∀ walked id, Walk twoEntries.Edge 0 walked id → id ∈ [0, 1, 2, 3] := by
    intro walked id hwalk
    induction hwalk with
    | entry => decide
    | @step walked pred succ _ hedge ih =>
      have hclosed : ∀ pred ∈ [0, 1, 2, 3], ∀ succ ∈ twoEntries.succs pred,
          succ ∈ [0, 1, 2, 3] := by decide
      exact hclosed pred ih succ hedge
  rintro id ⟨walked, hwalk⟩
  have hid := hmem walked id hwalk
  simp only [mem_cons, not_mem_nil, or_false] at hid
  rcases hid with rfl | rfl | rfl | rfl
  · exact ⟨_, rfl, [], _, rfl, by simp, by decide, by decide⟩
  · exact ⟨_, rfl, [], _, rfl, by simp, by decide, by decide⟩
  · exact ⟨_, rfl, [], _, rfl, by simp, by decide, by decide⟩
  · exact ⟨_, rfl, [], _, rfl, by simp, by decide, by decide⟩

theorem dominatorAnalysis_correct_twoEntries :
    (∃ fuel a, create twoEntries ⟨twoEntries.inEdges, fun _ => .refl _⟩ fuel = some a) ∧
      ∀ fuel a, create twoEntries ⟨twoEntries.inEdges, fun _ => .refl _⟩ fuel = some a →
        Correct twoEntries a :=
  dominatorAnalysis_correct terminated_twoEntries _

end DominatorAnalysis

end CinderX.Jit.Hir
