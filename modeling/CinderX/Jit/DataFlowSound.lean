import CinderX.Foundation.Worklist
import CinderX.Jit.DataFlowSetup

/-!
# The analysis finds the least solution

The loop of `RunAnalysis` solves the equations of all blocks but `entry_block_`.  So its result
is right if `SetExitBlock` has not changed the entry block and no bits have been forgotten.
-/

namespace CinderX.Jit.Optimizer

open BitVector Foundation List Option

variable {T : Type}

namespace Problem

variable (p : Problem T) (forward : Bool)

def Closed : Prop := ∀ b c, c ∈ p.succ b → b ∈ p.blocks ∧ c ∈ p.blocks

def boundary : Option Nat := if forward then p.entry else p.exit

def flowPred (b : Nat) : List Nat := if forward then p.pred b else p.succ b

def Solution (ins outs : Nat → Set T) : Prop :=
  ∀ b ∈ p.blocks, some b ≠ p.boundary forward →
    ins b = {o | ∃ q ∈ p.flowPred forward b, o ∈ outs q} ∧
      outs b = ↑(p.gen.bits b) ∪ (ins b \ ↑(p.kill.bits b))

structure LeastSolution (ins outs : Nat → Set T) : Prop where
  solution : p.Solution forward ins outs
  least : ∀ ins' outs', p.Solution forward ins' outs' →
    (∀ b, some b = p.boundary forward → ins b ⊆ ins' b ∧ outs b ⊆ outs' b) →
    ∀ b ∈ p.blocks, ins b ⊆ ins' b ∧ outs b ⊆ outs' b

def NothingForgotten : Prop := ∀ b, p.gen.forgotten b = ∅ ∧ p.kill.forgotten b = ∅

end Problem

variable [DecidableEq T]

namespace DataFlowAnalyzer

variable (a : DataFlowAnalyzer T)

def inSet (b : Nat) : Set T := {o | a.GetBlockInBit b o = some true}

def outSet (b : Nat) : Set T := {o | a.GetBlockOutBit b o = some true}

def flowInSet (forward : Bool) : Nat → Set T := if forward then a.inSet else a.outSet

def flowOutSet (forward : Bool) : Nat → Set T := if forward then a.outSet else a.inSet

/-- What the analyzer says of a problem: its entry block and the bits of its blocks. -/
structure Configured (p : Problem T) : Prop where
  entry : a.entry_block_ = p.entry
  gen : ∀ b ∈ p.blocks, ∀ o ∈ p.objects, ∃ i, a.obj_to_index_map_ o = some i ∧
    (a.block b).gen_.getBit i = some (decide (o ∈ p.gen.bits b))
  kill : ∀ b ∈ p.blocks, ∀ o ∈ p.objects, ∃ i, a.obj_to_index_map_ o = some i ∧
    (a.block b).kill_.getBit i = some (decide (o ∈ p.kill.bits b))

end DataFlowAnalyzer

namespace DataFlowBlock

variable (forward : Bool) (block : DataFlowBlock) (bv : BitVector)

@[simp]
theorem flowIn_setFlowIn : (block.setFlowIn forward bv).flowIn forward = bv := by
  cases forward <;> rfl

@[simp]
theorem flowOut_setFlowIn : (block.setFlowIn forward bv).flowOut forward =
    block.flowOut forward := by
  cases forward <;> rfl

@[simp]
theorem gen_setFlowIn : (block.setFlowIn forward bv).gen_ = block.gen_ := by cases forward <;> rfl

@[simp]
theorem kill_setFlowIn : (block.setFlowIn forward bv).kill_ = block.kill_ := by
  cases forward <;> rfl

@[simp]
theorem flowOut_setFlowOut : (block.setFlowOut forward bv).flowOut forward = bv := by
  cases forward <;> rfl

@[simp]
theorem flowIn_setFlowOut : (block.setFlowOut forward bv).flowIn forward =
    block.flowIn forward := by
  cases forward <;> rfl

@[simp]
theorem gen_setFlowOut : (block.setFlowOut forward bv).gen_ = block.gen_ := by cases forward <;> rfl

@[simp]
theorem kill_setFlowOut : (block.setFlowOut forward bv).kill_ = block.kill_ := by
  cases forward <;> rfl

end DataFlowBlock

/-- A block with the values `value.1` of `in` and `value.2` of `out`. -/
structure DataFlowBlock.HoldsFlow (block : DataFlowBlock) (forward : Bool) (width : Nat)
    (gen kill : Finset Nat) (value : Finset Nat × Finset Nat) : Prop where
  gen : HoldsSet block.gen_ width gen
  kill : HoldsSet block.kill_ width kill
  ins : HoldsSet (block.flowIn forward) width value.1
  outs : HoldsSet (block.flowOut forward) width value.2

section System

variable {a : DataFlowAnalyzer T} {p : Problem T} (h : Reflects a p) (hclosed : p.Closed)
  (it : a.Iteration) (forward : Bool)

def flow (ins gen kill : Finset Nat) : Finset Nat × Finset Nat := (ins, gen ∪ (ins \ kill))

def joined (width : Nat) (preds : List Nat) (values : Nat → Finset Nat × Finset Nat) : Finset Nat :=
  (Finset.range width).filter fun i => ∃ q ∈ preds, i ∈ (values q).2

include h

variable {b q i fuel : Nat} {block' : Nat → DataFlowBlock} {o : T} {objects : List T} {set : Set T}

theorem Reflects.mem_pred : q ∈ it.pred forward b ↔ q ∈ p.flowPred forward b := by
  unfold DataFlowAnalyzer.Iteration.pred Problem.flowPred
  split
  · rw [(it.preds_perm b).mem_iff, h.pred]
  · rw [(it.succs_perm b).mem_iff, h.succ]

theorem Reflects.mem_succ : q ∈ it.succ forward b ↔ b ∈ it.pred forward q := by
  unfold DataFlowAnalyzer.Iteration.pred DataFlowAnalyzer.Iteration.succ
  split
  · rw [(it.succs_perm b).mem_iff, (it.preds_perm q).mem_iff, h.pred, h.succ, h.edge]
  · rw [(it.preds_perm b).mem_iff, (it.succs_perm q).mem_iff, h.pred, h.succ, h.edge]

include hclosed

theorem Reflects.mem_blocks (hq : q ∈ it.pred forward b) :
    b ∈ p.blocks ∧ q ∈ p.blocks := by
  rw [h.mem_pred] at hq
  unfold Problem.flowPred at hq
  split at hq
  · have hedge := hclosed q b ((h.edge q b).mpr hq)
    exact ⟨hedge.2, hedge.1⟩
  · exact hclosed b q hq

omit h hclosed in
theorem joined_mono {width : Nat} {preds : List Nat} : Monotone (joined width preds) := by
  intro values values' hle i hi
  obtain ⟨hlt, q, hq, hmem⟩ := Finset.mem_filter.mp hi
  exact Finset.mem_filter.mpr ⟨hlt, q, hq, (hle q).2 hmem⟩

omit h hclosed in
theorem flow_mono {gen kill : Finset Nat} : Monotone fun ins => flow ins gen kill :=
  fun _ _ hle => ⟨hle, Finset.union_subset_union_right (Finset.sdiff_subset_sdiff hle subset_rfl)⟩

def Reflects.system : Equations Nat (Finset Nat × Finset Nat) where
  nodes := p.blocks
  eval b values := flow (joined p.objects.length (it.pred forward b) values)
    (p.gen.shown p.objects b) (p.kill.shown p.objects b)
  outputs := it.succ forward
  mono _ _ _ hle := flow_mono (joined_mono hle)
  outputs_mem hj := (h.mem_blocks hclosed it forward ((h.mem_succ it forward).mp hj)).1
  eval_update {i j} hj values v := by
    have hnot : i ∉ it.pred forward j := fun hi => hj ((h.mem_succ it forward).mpr hi)
    have hsame : joined p.objects.length (it.pred forward j) (Function.update values i v) =
        joined p.objects.length (it.pred forward j) values := by
      refine Finset.filter_congr fun x _ => exists_congr fun q => and_congr_right fun hq => ?_
      have hne : q ≠ i := fun heq => hnot (heq ▸ hq)
      rw [Function.update_of_ne hne]
    rw [hsame]

omit hclosed in
def Reflects.Simulates (_ : Reflects a p) (forward : Bool) (block : Nat → DataFlowBlock)
    (values : Nat → Finset Nat × Finset Nat) : Prop :=
  ∀ b ∈ p.blocks, (block b).HoldsFlow forward p.objects.length (p.gen.shown p.objects b)
    (p.kill.shown p.objects b) (values b)

variable {block : Nat → DataFlowBlock} {values : Nat → Finset Nat × Finset Nat}

omit hclosed in
theorem Reflects.join_preds (hsim : h.Simulates forward block values) :
    ∀ (preds : List Nat), (∀ q ∈ preds, q ∈ p.blocks) → ∀ {acc : BitVector} {s : Finset Nat},
      HoldsSet acc p.objects.length s →
      ∃ res, preds.foldlM (fun new_in q => new_in.binaryOpAssign .or ((block q).flowOut forward))
          acc = some res ∧
        HoldsSet res p.objects.length (s ∪ joined p.objects.length preds values) := by
  intro preds
  induction preds with
  | nil =>
    intro _ acc s hacc
    refine ⟨acc, rfl, ?_⟩
    have hempty : joined p.objects.length [] values = ∅ := by simp [joined]
    rwa [hempty, Finset.union_empty]
  | cons q preds ih =>
    intro hmem acc s hacc
    have hq := hsim q (hmem q mem_cons_self)
    obtain ⟨res, hres, -, hassign⟩ := binaryOp_holdsSet .or hacc hq.outs
    obtain ⟨res', hres', hholds⟩ := ih (fun c hc => hmem c (mem_cons_of_mem _ hc)) hres
    refine ⟨res', ?_, ?_⟩
    · rw [foldlM_cons, hassign]
      exact hres'
    · have hunion : setOp .or s (values q).2 ∪ joined p.objects.length preds values =
          s ∪ joined p.objects.length (q :: preds) values := by
        ext i
        have hlt : i ∈ (values q).2 → i < p.objects.length :=
          fun hi => Finset.mem_range.mp (hq.outs.subset hi)
        simp only [setOp, joined, Finset.mem_union, Finset.mem_filter, Finset.mem_range,
          mem_cons, exists_eq_or_imp]
        tauto
      rwa [hunion] at hholds

theorem Reflects.visit_spec (hsim : h.Simulates forward block values) (hb : b ∈ p.blocks) :
    ∃ block', DataFlowAnalyzer.visit it forward block b =
        some (block', decide ((h.system hclosed it forward).eval b values ≠ values b)) ∧
      h.Simulates forward block'
        (Function.update values b ((h.system hclosed it forward).eval b values)) := by
  have hblock := hsim b hb
  obtain ⟨new_in, hin, hins⟩ := h.join_preds forward hsim (it.pred forward b)
    (fun q hq => (h.mem_blocks hclosed it forward hq).2) (ofSize_holdsSet p.objects.length)
  rw [Finset.empty_union] at hins
  obtain ⟨kept, hkept, hsub, -⟩ := binaryOp_holdsSet .sub hins hblock.kill
  obtain ⟨new_out, hout, hor, -⟩ := binaryOp_holdsSet .or hblock.gen hkept
  refine ⟨Function.update block b
    (((block b).setFlowIn forward new_in).setFlowOut forward new_out), ?_, fun c hc => ?_⟩
  · have hsame : (!decide (joined p.objects.length (it.pred forward b) values = (values b).1) ||
        !decide (setOp .or (p.gen.shown p.objects b) (setOp .sub
          (joined p.objects.length (it.pred forward b) values) (p.kill.shown p.objects b)) =
            (values b).2)) = decide ((h.system hclosed it forward).eval b values ≠ values b) := by
      have hpair : (h.system hclosed it forward).eval b values ≠ values b ↔
          ¬ (joined p.objects.length (it.pred forward b) values = (values b).1 ∧
            setOp .or (p.gen.shown p.objects b) (setOp .sub
              (joined p.objects.length (it.pred forward b) values) (p.kill.shown p.objects b)) =
                (values b).2) := not_congr Prod.ext_iff
      rw [decide_eq_decide.mpr hpair, decide_not, Bool.decide_and, Bool.not_and]
    unfold DataFlowAnalyzer.visit
    rw [h.num_bits, hin]
    simp only [bind_eq_bind, bind_some, DataFlowBlock.flowIn_setFlowIn,
      DataFlowBlock.gen_setFlowIn, DataFlowBlock.kill_setFlowIn, DataFlowBlock.flowOut_setFlowIn,
      eq_of_holdsSet hins hblock.ins, hsub, hor, eq_of_holdsSet hout hblock.outs, Option.pure_def]
    rw [hsame]
  · by_cases hcb : c = b
    · subst hcb
      rw [Function.update_self, Function.update_self]
      refine ⟨by simpa using hblock.gen, by simpa using hblock.kill, ?_, ?_⟩
      · rw [DataFlowBlock.flowIn_setFlowOut, DataFlowBlock.flowIn_setFlowIn]
        exact hins
      · rw [DataFlowBlock.flowOut_setFlowOut]
        exact hout
    · rw [Function.update_of_ne hcb, Function.update_of_ne hcb]
      exact hsim c hc

theorem Reflects.runLoop_spec (fuel : Nat) : ∀ {block : Nat → DataFlowBlock}
    {s : Equations.State Nat (Finset Nat × Finset Nat)}, h.Simulates forward block s.values →
    (∀ b ∈ s.worklist, b ∈ p.blocks) →
    Option.Rel (fun block' s' => h.Simulates forward block' s'.values)
      (DataFlowAnalyzer.runLoop it forward fuel block s.worklist)
      ((h.system hclosed it forward).run fuel s) := by
  induction fuel with
  | zero =>
    intro block s hsim _
    unfold DataFlowAnalyzer.runLoop Equations.run
    cases s.worklist with
    | nil => exact .some hsim
    | cons b rest => exact .none
  | succ fuel ih =>
    intro block s hsim hwork
    unfold DataFlowAnalyzer.runLoop Equations.run
    cases hlist : s.worklist with
    | nil => exact .some hsim
    | cons b rest =>
      have hb : b ∈ p.blocks := hwork b (by simp [hlist])
      obtain ⟨block', hvisit, hsim'⟩ := h.visit_spec hclosed it forward hsim hb
      have hnext := @ih block' ((h.system hclosed it forward).visit s b rest) hsim' ?_
      · simp only [hvisit, bind_eq_bind, bind_some]
        simp only [Equations.visit, ne_eq, decide_not, Bool.not_eq_true',
          decide_eq_false_iff_not, ite_not] at hnext ⊢
        exact hnext
      · intro c hc
        simp only [Equations.visit] at hc
        split at hc
        · exact hwork c (by simp [hlist, hc])
        · rcases mem_append.mp hc with hc | hc
          · exact hwork c (by simp [hlist, hc])
          · exact (h.system hclosed it forward).outputs_mem hc

/-! ## The result -/

omit hclosed in
theorem Reflects.simulates_start : h.Simulates forward a.block fun _ => (∅, ∅) := by
  intro b hb
  have hblock := h.holds b
  rw [Problem.width, if_pos hb] at hblock
  refine ⟨hblock.gen, hblock.kill, ?_, ?_⟩
  · unfold DataFlowBlock.flowIn
    split
    · exact hblock.ins
    · exact hblock.outs
  · unfold DataFlowBlock.flowOut
    split
    · exact hblock.outs
    · exact hblock.ins

def Reflects.rank : (h.system hclosed it forward).Rank where
  rank value := value.1.card + value.2.card
  height := 2 * p.objects.length
  rank_lt {v w} hlt := by
    rcases Prod.lt_iff.mp hlt with ⟨hins, houts⟩ | ⟨hins, houts⟩
    · exact Nat.add_lt_add_of_lt_of_le (Finset.card_lt_card hins) (Finset.card_le_card houts)
    · exact Nat.add_lt_add_of_le_of_lt (Finset.card_le_card hins) (Finset.card_lt_card houts)
  rank_le b values := by
    have hins : joined p.objects.length (it.pred forward b) values ⊆
        Finset.range p.objects.length := Finset.filter_subset _ _
    have hgen : p.gen.shown p.objects b ⊆ Finset.range p.objects.length := by
      refine (h.holds b).gen.subset.trans (Finset.range_mono ?_)
      unfold Problem.width
      split
      · exact le_rfl
      · exact Nat.zero_le _
    have hcard := Finset.card_le_card hins
    have hcard' := Finset.card_le_card
      (Finset.union_subset hgen ((Finset.sdiff_subset (t := p.kill.shown p.objects b)).trans hins))
    rw [Finset.card_range] at hcard hcard'
    simp only [Reflects.system, flow]
    omega

omit hclosed in
theorem Reflects.getBit_iff {bv : BitVector} {s : Finset Nat}
    (hbv : HoldsSet bv p.objects.length s) (o : T) :
    ((a.obj_to_index_map_ o).bind bv.getBit = some true) ↔
      o ∈ p.objects ∧ p.objects.idxOf o ∈ s := by
  rw [h.index]
  by_cases ho : o ∈ p.objects
  · rw [if_pos ho, bind_some, getBit_of_holdsSet hbv (idxOf_lt_length_of_mem ho)]
    simp [ho]
  · simp [ho]

omit hclosed in
theorem Reflects.mem_flow (hsim : h.Simulates forward block' values) (hb : b ∈ p.blocks) (o : T) :
    (o ∈ ({ a with block := block' } : DataFlowAnalyzer T).flowInSet forward b ↔
        o ∈ p.objects ∧ p.objects.idxOf o ∈ (values b).1) ∧
      (o ∈ ({ a with block := block' } : DataFlowAnalyzer T).flowOutSet forward b ↔
        o ∈ p.objects ∧ p.objects.idxOf o ∈ (values b).2) := by
  have hblock := hsim b hb
  rw [← h.getBit_iff hblock.ins, ← h.getBit_iff hblock.outs]
  cases forward <;> exact ⟨Iff.rfl, Iff.rfl⟩

omit h hclosed in
theorem BitSets.Known.idxOf_mem {s : BitSets T} (hs : s.Known p.objects p.blocks)
    (hforgotten : s.forgotten b = ∅) (ho : o ∈ p.objects) :
    p.objects.idxOf o ∈ s.shown p.objects b ↔ o ∈ s.bits b := by
  rw [BitSets.idxOf_mem_shown hs ho, hforgotten, Finset.sdiff_empty]

open Classical in
noncomputable def objectIndices (objects : List T) (set : Set T) : Finset Nat :=
  (Finset.range objects.length).filter fun i => ∃ o ∈ objects, objects.idxOf o = i ∧ o ∈ set

omit h hclosed in
theorem mem_objectIndices :
    i ∈ objectIndices objects set ↔ ∃ o ∈ objects, objects.idxOf o = i ∧ o ∈ set := by
  classical
  unfold objectIndices
  rw [Finset.mem_filter, Finset.mem_range]
  exact ⟨And.right, fun ⟨o, ho, heq, hmem⟩ =>
    ⟨heq ▸ idxOf_lt_length_of_mem ho, o, ho, heq, hmem⟩⟩

omit h hclosed in
theorem idxOf_mem_objectIndices (ho : o ∈ objects) :
    objects.idxOf o ∈ objectIndices objects set ↔ o ∈ set := by
  rw [mem_objectIndices]
  exact ⟨fun ⟨_, ho', heq, hmem⟩ => (idxOf_inj ho').mp heq ▸ hmem,
    fun hmem => ⟨o, ho, rfl, hmem⟩⟩

omit hclosed in
theorem Reflects.exists_of_gen (hi : i ∈ p.gen.shown p.objects b) :
    ∃ o ∈ p.objects, p.objects.idxOf o = i ∧ o ∈ p.gen.bits b := by
  obtain ⟨o, ho, heq⟩ := BitSets.mem_indices.mp hi
  have hbits := (Finset.mem_sdiff.mp ho).1
  exact ⟨o, (h.gen.known hbits).2, heq, hbits⟩

theorem Reflects.values_live {s s' : Equations.State Nat (Finset Nat × Finset Nat)}
    (hstart : s.values = fun _ => (∅, ∅))
    (hrun : (h.system hclosed it forward).run fuel s = some s') (b : Nat) :
    (s'.values b).1 ⊆ objectIndices p.objects Set.univ ∧
      (s'.values b).2 ⊆ objectIndices p.objects Set.univ := by
  have hgrowing : (h.system hclosed it forward).Growing s.values := by
    rw [hstart]
    exact fun b => ⟨Finset.empty_subset _, Finset.empty_subset _⟩
  have hlive : s'.values ≤ fun _ =>
      (objectIndices p.objects Set.univ, objectIndices p.objects Set.univ) := by
    refine Equations.run_least (fun _ => True) hgrowing hrun ?_ (fun c _ => ?_)
      fun c hc => absurd trivial hc
    · rw [hstart]
      exact fun b => ⟨Finset.empty_subset _, Finset.empty_subset _⟩
    · have hjoined : joined p.objects.length (it.pred forward c) (fun _ =>
          (objectIndices p.objects Set.univ, objectIndices p.objects Set.univ)) ⊆
            objectIndices p.objects Set.univ := by
        intro i hi
        obtain ⟨-, q, -, hmem⟩ := Finset.mem_filter.mp hi
        exact hmem
      refine ⟨hjoined, Finset.union_subset (fun i hi => ?_) (Finset.sdiff_subset.trans hjoined)⟩
      obtain ⟨o, ho, heq, -⟩ := h.exists_of_gen hi
      exact mem_objectIndices.mpr ⟨o, ho, heq, trivial⟩
  exact hlive b

theorem Reflects.leastSolution (hentry : a.boundary forward = p.boundary forward ∨
      a.boundary forward = none) (hforgotten : p.NothingForgotten)
    {s : Equations.State Nat (Finset Nat × Finset Nat)}
    (hrun : (h.system hclosed it forward).run fuel
      ⟨fun _ => (∅, ∅), it.blocks.filter fun b => some b ≠ a.boundary forward⟩ = some s)
        (hsim : h.Simulates forward block' s.values) :
    p.LeastSolution forward (({ a with block := block' } : DataFlowAnalyzer T).flowInSet forward)
      (({ a with block := block' } : DataFlowAnalyzer T).flowOutSet forward) := by
  have hgrowing : (h.system hclosed it forward).Growing fun _ =>
    ((∅ : Finset Nat), (∅ : Finset Nat)) :=
    fun b => ⟨Finset.empty_subset _, Finset.empty_subset _⟩
  have hmem : ∀ b, b ∈ it.blocks ↔ b ∈ p.blocks := fun b => by
    rw [it.blocks_perm.mem_iff, h.blocks]
  -- the equations that are certain to hold
  have hrequired : ∀ b ∈ p.blocks, some b ≠ p.boundary forward →
      (h.system hclosed it forward).eval b s.values = s.values b := by
    intro b hb hne
    refine Equations.run_settled (fun b => b ∈ p.blocks ∧ some b ≠ p.boundary forward)
      (fun c hc => ?_) hrun b ⟨hb, hne⟩
    refine mem_filter.mpr ⟨(hmem c).mpr hc.1, ?_⟩
    rcases hentry with heq | hnone
    · simpa [heq] using hc.2
    · simp [hnone]
  refine ⟨fun b hb hne => ?_, fun ins' outs' hsolution hboundary b hb => ?_⟩
  · have heval := hrequired b hb hne
    have hins : (s.values b).1 = joined p.objects.length (it.pred forward b) s.values :=
      (congrArg Prod.fst heval).symm
    have houts : (s.values b).2 =
        p.gen.shown p.objects b ∪ ((s.values b).1 \ p.kill.shown p.objects b) := by
      rw [hins]
      exact (congrArg Prod.snd heval).symm
    constructor
    · ext o
      rw [(h.mem_flow forward hsim hb o).1, hins, joined, Finset.mem_filter, Finset.mem_range]
      constructor
      · rintro ⟨ho, -, q, hq, hbit⟩
        refine ⟨q, (h.mem_pred it forward).mp hq, ?_⟩
        exact (h.mem_flow forward hsim (h.mem_blocks hclosed it forward hq).2 o).2.mpr ⟨ho, hbit⟩
      · rintro ⟨q, hq, hout⟩
        have hq' := (h.mem_pred it forward).mpr hq
        obtain ⟨ho, hbit⟩ :=
          (h.mem_flow forward hsim (h.mem_blocks hclosed it forward hq').2 o).2.mp hout
        exact ⟨ho, idxOf_lt_length_of_mem ho, q, hq', hbit⟩
    · ext o
      rw [(h.mem_flow forward hsim hb o).2, houts, Finset.mem_union, Finset.mem_sdiff]
      constructor
      · rintro ⟨ho, hgen | ⟨hin, hkill⟩⟩
        · exact Or.inl ((h.gen.idxOf_mem (hforgotten b).1 ho).mp hgen)
        · refine Or.inr ⟨(h.mem_flow forward hsim hb o).1.mpr ⟨ho, hin⟩, fun hk => hkill ?_⟩
          exact (h.kill.idxOf_mem (hforgotten b).2 ho).mpr hk
      · rintro (hgen | ⟨hin, hkill⟩)
        · have ho := (h.gen.known hgen).2
          exact ⟨ho, Or.inl ((h.gen.idxOf_mem (hforgotten b).1 ho).mpr hgen)⟩
        · obtain ⟨ho, hin⟩ := (h.mem_flow forward hsim hb o).1.mp hin
          refine ⟨ho, Or.inr ⟨hin, fun hk => hkill ?_⟩⟩
          exact (h.kill.idxOf_mem (hforgotten b).2 ho).mp hk
  · have hbound : s.values ≤ fun b => if b ∈ p.blocks then
        (objectIndices p.objects (ins' b), objectIndices p.objects (outs' b)) else s.values b := by
      refine Equations.run_least (fun b => b ∈ p.blocks ∧ some b ≠ p.boundary forward)
        hgrowing hrun (fun c => ⟨Finset.empty_subset _, Finset.empty_subset _⟩) ?_ fun c hc => ?_
      · rintro c ⟨hc, hne⟩
        obtain ⟨hins, houts⟩ := hsolution c hc hne
        have hjoined : ∀ i ∈ joined p.objects.length (it.pred forward c) (fun b =>
            if b ∈ p.blocks then
              (objectIndices p.objects (ins' b), objectIndices p.objects (outs' b))
            else s.values b), i ∈ objectIndices p.objects (ins' c) := by
          intro i hi
          obtain ⟨-, q, hq, hmem⟩ := Finset.mem_filter.mp hi
          dsimp only at hmem
          rw [if_pos (h.mem_blocks hclosed it forward hq).2] at hmem
          obtain ⟨o, ho, heq, hout⟩ := mem_objectIndices.mp hmem
          refine mem_objectIndices.mpr ⟨o, ho, heq, ?_⟩
          rw [hins]
          exact ⟨q, (h.mem_pred it forward).mp hq, hout⟩
        rw [if_pos hc]
        refine ⟨hjoined, fun i hi => ?_⟩
        rcases Finset.mem_union.mp hi with hgen | hkept
        · obtain ⟨o, ho, heq, hbits⟩ := h.exists_of_gen hgen
          refine mem_objectIndices.mpr ⟨o, ho, heq, ?_⟩
          rw [houts]
          exact Or.inl hbits
        · obtain ⟨hin, hkill⟩ := Finset.mem_sdiff.mp hkept
          obtain ⟨o, ho, rfl, hin'⟩ := mem_objectIndices.mp (hjoined i hin)
          refine mem_objectIndices.mpr ⟨o, ho, rfl, ?_⟩
          rw [houts]
          exact Or.inr ⟨hin', fun hk => hkill ((h.kill.idxOf_mem (hforgotten c).2 ho).mpr hk)⟩
      · split
        next hblock =>
          have heq : some c = p.boundary forward := not_not.mp fun hne => hc ⟨hblock, hne⟩
          obtain ⟨hins, houts⟩ := hboundary c heq
          obtain ⟨hlive, hlive'⟩ := h.values_live hclosed it forward rfl hrun c
          constructor
          · intro i hi
            obtain ⟨o, ho, rfl, -⟩ := mem_objectIndices.mp (hlive hi)
            exact (idxOf_mem_objectIndices ho).mpr
              (hins ((h.mem_flow forward hsim hblock o).1.mpr ⟨ho, hi⟩))
          · intro i hi
            obtain ⟨o, ho, rfl, -⟩ := mem_objectIndices.mp (hlive' hi)
            exact (idxOf_mem_objectIndices ho).mpr
              (houts ((h.mem_flow forward hsim hblock o).2.mpr ⟨ho, hi⟩))
        next => exact le_rfl
    have hle := hbound b
    dsimp only at hle
    rw [if_pos hb] at hle
    constructor
    · intro o ho
      obtain ⟨hobject, hbit⟩ := (h.mem_flow forward hsim hb o).1.mp ho
      exact (idxOf_mem_objectIndices hobject).mp (hle.1 hbit)
    · intro o ho
      obtain ⟨hobject, hbit⟩ := (h.mem_flow forward hsim hb o).2.mp ho
      exact (idxOf_mem_objectIndices hobject).mp (hle.2 hbit)

end System

/-! ## The calls -/

/-- The last call that says where the boundary is sets the entry block, or makes the entry block
the exit block. -/
def EntryKept (calls : List (Call T)) : Prop :=
  ∀ before b after, calls = before ++ .setExitBlock b :: after →
    (∀ c ∈ after, (∀ b', c ≠ .setEntryBlock b') ∧ ∀ b', c ≠ .setExitBlock b') →
    (Problem.ofCalls before).entry = some b

section Entry

variable {a a' : DataFlowAnalyzer T} {b : Nat} {f : DataFlowBlock → Option DataFlowBlock} {bit : T}
  {c : Call T}

omit [DecidableEq T] in
theorem boundaries_modify (h : a.modify b f = some a') :
    a'.entry_block_ = a.entry_block_ ∧ a'.exit_block_ = a.exit_block_ := by
  obtain ⟨block, -, h⟩ := bind_eq_some_iff.mp h
  cases h
  exact ⟨rfl, rfl⟩

omit [DecidableEq T] in
theorem boundaries_foldlM {α : Type} {f : DataFlowAnalyzer T → α → Option (DataFlowAnalyzer T)}
    (hf : ∀ {a a' x}, f a x = some a' →
      a'.entry_block_ = a.entry_block_ ∧ a'.exit_block_ = a.exit_block_) (l : List α) :
    ∀ {a a' : DataFlowAnalyzer T}, l.foldlM f a = some a' →
      a'.entry_block_ = a.entry_block_ ∧ a'.exit_block_ = a.exit_block_ := by
  induction l with
  | nil =>
    intro a a' h
    cases h
    exact ⟨rfl, rfl⟩
  | cons x l ih =>
    intro a a' h
    obtain ⟨a₁, hstep, h⟩ := bind_eq_some_iff.mp h
    obtain ⟨hentry, hexit⟩ := hf hstep
    obtain ⟨hentry', hexit'⟩ := ih h
    exact ⟨hentry'.trans hentry, hexit'.trans hexit⟩

omit [DecidableEq T] in
theorem boundaries_modifyAll (h : a.modifyAll f = some a') :
    a'.entry_block_ = a.entry_block_ ∧ a'.exit_block_ = a.exit_block_ :=
  boundaries_foldlM boundaries_modify _ h

omit [DecidableEq T] in
theorem boundaries_setBlockGenBit (h : a.SetBlockGenBit b bit = some a') :
    a'.entry_block_ = a.entry_block_ ∧ a'.exit_block_ = a.exit_block_ := by
  obtain ⟨_, -, h⟩ := bind_eq_some_iff.mp h
  exact boundaries_modify h

omit [DecidableEq T] in
theorem boundaries_setBlockKillBit (h : a.SetBlockKillBit b bit = some a') :
    a'.entry_block_ = a.entry_block_ ∧ a'.exit_block_ = a.exit_block_ := by
  obtain ⟨_, -, h⟩ := bind_eq_some_iff.mp h
  exact boundaries_modify h

theorem boundaries_call (h : a.call c = some a') :
    a'.exit_block_ = a.exit_block_ ∧
      a'.entry_block_ = match c with
        | .setEntryBlock b => some b
        | .setExitBlock b => some b
        | _ => a.entry_block_ := by
  cases c with
  | addBlock b =>
    have hmodify : ({ a with blocks_ := a.blocks_.insert b } : DataFlowAnalyzer T).modify b
        (·.setBitWidth a.num_bits_) = some a' := h
    exact (boundaries_modify hmodify).symm
  | connectTo source target =>
    cases h
    exact ⟨rfl, rfl⟩
  | addObject obj =>
    exact (boundaries_modifyAll (a := a.intern obj) h).symm
  | addObjects objs =>
    obtain ⟨hentry, hexit⟩ := boundaries_modifyAll h
    have hintern : (objs.foldl DataFlowAnalyzer.intern a).exit_block_ = a.exit_block_ := by
      clear h hentry hexit
      induction objs generalizing a with
      | nil => rfl
      | cons obj objs ih => exact @ih (a.intern obj)
    exact ⟨hexit.trans hintern, hentry.trans (Reflects.foldl_intern_block objs a).2.2⟩
  | setBlockGenBit b bit => exact (boundaries_setBlockGenBit h).symm
  | setBlockGenBits b bits => exact (boundaries_foldlM boundaries_setBlockGenBit _ h).symm
  | setBlockKillBit b bit => exact (boundaries_setBlockKillBit h).symm
  | setBlockKillBits b bits => exact (boundaries_foldlM boundaries_setBlockKillBit _ h).symm
  | setEntryBlock b =>
    cases h
    exact ⟨rfl, rfl⟩
  | setExitBlock b =>
    cases h
    exact ⟨rfl, rfl⟩

theorem entry_call (p : Problem T) (c : Call T) :
    (p.call c).entry = match c with
      | .setEntryBlock b => some b
      | _ => p.entry := by
  have hadd : ∀ objs, (p.addObjects objs).entry = p.entry := by
    intro objs
    unfold Problem.addObjects
    split <;> rfl
  cases c with
  | addObject obj => exact hadd [obj]
  | addObjects objs => exact hadd objs
  | _ => rfl

theorem entryKept_concat {calls : List (Call T)}
    (hentry : ∀ b, c ≠ .setEntryBlock b) (hexit : ∀ b, c ≠ .setExitBlock b) :
    EntryKept (calls ++ [c]) ↔ EntryKept calls := by
  constructor
  · intro h before b after heq hafter
    refine h before b (after ++ [c]) (by simp [heq]) fun c' hc' => ?_
    rcases mem_append.mp hc' with hc' | hc'
    · exact hafter c' hc'
    · rw [mem_singleton.mp hc']
      exact ⟨hentry, hexit⟩
  · intro h before b after heq hafter
    rcases eq_nil_or_concat' after with rfl | ⟨init, last, rfl⟩
    · have hlast := (append_inj' heq rfl).2
      exact absurd (singleton_inj.mp hlast) (hexit b)
    · have heq' : calls ++ [c] = (before ++ .setExitBlock b :: init) ++ [last] := by simpa using heq
      exact h before b init (append_inj' heq' rfl).1 fun c' hc' =>
        hafter c' (mem_append_left _ hc')

theorem entry_build_iff (calls : List (Call T)) : ∀ {a : DataFlowAnalyzer T},
    DataFlowAnalyzer.build calls = some a →
      a.exit_block_ = none ∧ (a.entry_block_ = (Problem.ofCalls calls).entry ↔
        EntryKept calls) := by
  induction calls using reverseRecOn with
  | nil =>
    intro a h
    cases h
    refine ⟨rfl, fun _ before b after heq => ?_, fun _ => rfl⟩
    simp at heq
  | append_singleton calls c ih =>
    intro a h
    unfold DataFlowAnalyzer.build at h
    rw [foldlM_append] at h
    obtain ⟨a₁, hcalls, h⟩ := bind_eq_some_iff.mp h
    rw [foldlM_cons] at h
    obtain ⟨a₂, hcall, h⟩ := bind_eq_some_iff.mp h
    cases h
    obtain ⟨hexit, hiff⟩ := ih hcalls
    obtain ⟨hexit', hentry⟩ := boundaries_call hcall
    refine ⟨hexit'.trans hexit, ?_⟩
    have hproblem : (Problem.ofCalls (calls ++ [c])).entry =
        ((Problem.ofCalls calls).call c).entry := by
      rw [Problem.ofCalls, foldl_append]
      rfl
    rw [hproblem, entry_call, hentry]
    -- a decomposition at a boundary call that comes last is the one before it
    have hlast : ∀ {before b after}, calls ++ [c] = before ++ .setExitBlock b :: after →
        (∀ c ∈ after, (∀ b', c ≠ .setEntryBlock b') ∧ ∀ b', c ≠ .setExitBlock b') →
        ((∃ b, c = .setEntryBlock b) ∨ ∃ b, c = .setExitBlock b) →
        before = calls ∧ c = .setExitBlock b := by
      intro before b after heq hafter hboundary
      rcases eq_nil_or_concat' after with rfl | ⟨init, last, rfl⟩
      · obtain ⟨hcalls, hlast⟩ := append_inj' heq rfl
        exact ⟨hcalls.symm, singleton_inj.mp hlast⟩
      · have heq' : calls ++ [c] = (before ++ .setExitBlock b :: init) ++ [last] := by
          simpa using heq
        obtain rfl := singleton_inj.mp (append_inj' heq' rfl).2
        obtain ⟨hnot, hnot'⟩ := hafter c (by simp)
        rcases hboundary with ⟨b', rfl⟩ | ⟨b', rfl⟩
        · exact absurd rfl (hnot b')
        · exact absurd rfl (hnot' b')
    cases c with
    | setEntryBlock b =>
      refine ⟨fun _ before b' after heq hafter => ?_, fun _ => rfl⟩
      cases (hlast heq hafter (.inl ⟨b, rfl⟩)).2
    | setExitBlock b =>
      constructor
      · intro hb before b' after heq hafter
        obtain ⟨rfl, hb'⟩ := hlast heq hafter (.inr ⟨b, rfl⟩)
        cases hb'
        exact hb.symm
      · exact fun hkept => (hkept calls b [] rfl nofun).symm
    | _ => exact hiff.trans (entryKept_concat (by simp) (by simp)).symm

end Entry

/-- A vector shows all bits that have been set if none of them have been forgotten. -/
theorem Reflects.shows_iff {a : DataFlowAnalyzer T} {p : Problem T} (h : Reflects a p)
    {s : BitSets T} (hs : s.Known p.objects p.blocks) {b : Nat} {bv : BitVector}
    (hbv : HoldsSet bv p.objects.length (s.shown p.objects b)) :
    (∀ o ∈ p.objects, ∃ i, a.obj_to_index_map_ o = some i ∧
      bv.getBit i = some (decide (o ∈ s.bits b))) ↔ s.forgotten b = ∅ := by
  have hread : ∀ o ∈ p.objects, a.obj_to_index_map_ o = some (p.objects.idxOf o) ∧
      bv.getBit (p.objects.idxOf o) = some (decide (o ∈ s.bits b \ s.forgotten b)) := by
    intro o ho
    rw [h.index, if_pos ho, getBit_of_holdsSet hbv (idxOf_lt_length_of_mem ho)]
    simp only [BitSets.idxOf_mem_shown hs ho, and_self]
  constructor
  · intro hall
    refine Finset.eq_empty_of_forall_notMem fun o hlost => ?_
    have hbits := hs.forgotten b hlost
    have ho := (hs.known hbits).2
    obtain ⟨i, hi, hbit⟩ := hall o ho
    obtain ⟨hindex, hbit'⟩ := hread o ho
    obtain rfl := Option.some.inj (hi.symm.trans hindex)
    rw [hbit'] at hbit
    simp [hbits, hlost] at hbit
  · intro hforgotten o ho
    obtain ⟨hindex, hbit⟩ := hread o ho
    rw [hforgotten, Finset.sdiff_empty] at hbit
    exact ⟨_, hindex, hbit⟩

/-- For every graph and every order in which its sets are gone through: the analyzer holds what the
calls ask for, and the analysis ends with the least solution, if and only if `SetExitBlock` has
changed no entry block and no bits have been forgotten. -/
theorem runAnalysis_correct_iff {calls : List (Call T)} {a : DataFlowAnalyzer T}
    (hbuild : DataFlowAnalyzer.build calls = some a) (hclosed : (Problem.ofCalls calls).Closed)
    (hfew : (Problem.ofCalls calls).objects.length < 2 ^ 64) (it : a.Iteration) (forward : Bool) :
    (a.Configured (Problem.ofCalls calls) ∧
        (∃ fuel a', DataFlowAnalyzer.RunAnalysis it forward fuel = some a') ∧
        ∀ fuel a', DataFlowAnalyzer.RunAnalysis it forward fuel = some a' →
          (Problem.ofCalls calls).LeastSolution forward (a'.flowInSet forward)
            (a'.flowOutSet forward)) ↔
      EntryKept calls ∧ (Problem.ofCalls calls).NothingForgotten := by
  have h := Reflects.build hfew hbuild
  obtain ⟨hexit, hentry⟩ := entry_build_iff calls hbuild
  generalize Problem.ofCalls calls = p at *
  have hholds : ∀ b ∈ p.blocks,
      HoldsSet (a.block b).gen_ p.objects.length (p.gen.shown p.objects b) ∧
        HoldsSet (a.block b).kill_ p.objects.length (p.kill.shown p.objects b) := by
    intro b hb
    have hblock := h.holds b
    rw [Problem.width, if_pos hb] at hblock
    exact ⟨hblock.gen, hblock.kill⟩
  -- nothing can be forgotten of a block that has not been added
  have habsent : ∀ {s : BitSets T} {b : Nat}, s.Known p.objects p.blocks → b ∉ p.blocks →
      s.forgotten b = ∅ := fun hs hb =>
    Finset.eq_empty_of_forall_notMem fun o ho => hb (hs.known (hs.forgotten _ ho)).1
  constructor
  · rintro ⟨hconfigured, -⟩
    refine ⟨hentry.mp hconfigured.entry, fun b => ?_⟩
    by_cases hb : b ∈ p.blocks
    · exact ⟨(h.shows_iff h.gen (hholds b hb).1).mp (hconfigured.gen b hb),
        (h.shows_iff h.kill (hholds b hb).2).mp (hconfigured.kill b hb)⟩
    · exact ⟨habsent h.gen hb, habsent h.kill hb⟩
  · rintro ⟨hkept, hforgotten⟩
    have hboundary : a.boundary forward = p.boundary forward ∨ a.boundary forward = none := by
      cases forward with
      | true => exact Or.inl (hentry.mpr hkept)
      | false => exact Or.inr hexit
    have hwork : ∀ b ∈ it.blocks.filter fun b => some b ≠ a.boundary forward, b ∈ p.blocks := by
      intro b hb
      rw [← h.blocks, ← it.blocks_perm.mem_iff]
      exact (mem_filter.mp hb).1
    have hrel := fun fuel => h.runLoop_spec hclosed it forward fuel
      (s := ⟨fun _ => (∅, ∅), it.blocks.filter fun b => some b ≠ a.boundary forward⟩)
      (h.simulates_start forward) hwork
    refine ⟨⟨hentry.mpr hkept,
      fun b hb => (h.shows_iff h.gen (hholds b hb).1).mpr (hforgotten b).1,
      fun b hb => (h.shows_iff h.kill (hholds b hb).2).mpr (hforgotten b).2⟩, ?_, ?_⟩
    · obtain ⟨fuel, s', hs'⟩ : ∃ fuel s', (h.system hclosed it forward).run fuel
          ⟨fun _ => (∅, ∅), it.blocks.filter fun b => some b ≠ a.boundary forward⟩ = some s' :=
        ⟨_, Equations.run_isSome (h.rank hclosed it forward)
          (fun b => ⟨Finset.empty_subset _, Finset.empty_subset _⟩) hwork le_rfl⟩
      have hfuel := hrel fuel
      rw [hs'] at hfuel
      cases hloop : DataFlowAnalyzer.runLoop it forward fuel a.block
          (it.blocks.filter fun b => some b ≠ a.boundary forward) with
      | none =>
        rw [hloop] at hfuel
        cases hfuel
      | some block' =>
        refine ⟨fuel, { a with block := block' }, ?_⟩
        rw [DataFlowAnalyzer.RunAnalysis, hloop]
        rfl
    · intro fuel a' hrun
      obtain ⟨block', hloop, hrun⟩ := bind_eq_some_iff.mp hrun
      cases hrun
      have hfuel := hrel fuel
      rw [hloop] at hfuel
      cases hs' : (h.system hclosed it forward).run fuel
          ⟨fun _ => (∅, ∅), it.blocks.filter fun b => some b ≠ a.boundary forward⟩ with
      | none =>
        rw [hs'] at hfuel
        cases hfuel
      | some s' =>
        rw [hs'] at hfuel
        obtain ⟨hsim⟩ := hfuel
        exact h.leastSolution hclosed it forward hboundary hforgotten hs' hsim

section Samples

def DataFlowAnalyzer.Iteration.listed {T : Type} (a : DataFlowAnalyzer T) : a.Iteration where
  blocks := a.blocks_
  preds b := (a.block b).pred_
  succs b := (a.block b).succ_
  blocks_perm := .refl _
  preds_perm _ := .refl _
  succs_perm _ := .refl _

def twoBlocks (calls : List (Call Nat)) : List (Call Nat) :=
  [.addBlock 0, .addBlock 1, .connectTo 0 1, .addObject 5, .setBlockGenBit 1 5,
    .setEntryBlock 0] ++ calls

def twoBlocksAnalyzer (calls : List (Call Nat))
    (h : (DataFlowAnalyzer.build (twoBlocks calls)).isSome) : DataFlowAnalyzer Nat :=
  (DataFlowAnalyzer.build (twoBlocks calls)).get h

theorem closed_twoBlocks (calls : List (Call Nat))
    (h : (Problem.ofCalls (twoBlocks calls)).blocks = [1, 0])
    (h' : (Problem.ofCalls (twoBlocks calls)).succ = Function.update (fun _ => []) 0 [1]) :
    (Problem.ofCalls (twoBlocks calls)).Closed := by
  intro b c hc
  rw [h'] at hc
  by_cases hb : b = 0
  · subst hb
    obtain rfl : c = 1 := by simpa using hc
    simp [h]
  · simp [Function.update_of_ne hb] at hc

theorem runAnalysis_correct_iff_twoBlocks :
    ((twoBlocksAnalyzer [] (by decide)).Configured (Problem.ofCalls (twoBlocks [])) ∧
        (∃ fuel a', DataFlowAnalyzer.RunAnalysis
          (.listed (twoBlocksAnalyzer [] (by decide))) true fuel = some a') ∧
        ∀ fuel a', DataFlowAnalyzer.RunAnalysis
            (.listed (twoBlocksAnalyzer [] (by decide))) true fuel = some a' →
          (Problem.ofCalls (twoBlocks [])).LeastSolution true (a'.flowInSet true)
            (a'.flowOutSet true)) ↔
      EntryKept (twoBlocks []) ∧ (Problem.ofCalls (twoBlocks [])).NothingForgotten :=
  runAnalysis_correct_iff (some_get _).symm (closed_twoBlocks [] rfl rfl)
    (by decide) _ true

/-- `SetExitBlock` makes the exit the block whose equations are not solved. -/
theorem setExitBlock_skips_exit :
    ∃ a, DataFlowAnalyzer.build (twoBlocks [.setExitBlock 1]) = some a ∧
      a.entry_block_ = some 1 ∧ (Problem.ofCalls (twoBlocks [.setExitBlock 1])).entry = some 0 ∧
      ∃ it : a.Iteration, ∃ a', DataFlowAnalyzer.RunAnalysis it true 1 = some a' ∧
        a'.GetBlockOutBit 1 5 = some false ∧
        ¬ (Problem.ofCalls (twoBlocks [.setExitBlock 1])).LeastSolution true
          (a'.flowInSet true) (a'.flowOutSet true) := by
  have hout : ((DataFlowAnalyzer.RunAnalysis (.listed (twoBlocksAnalyzer [.setExitBlock 1]
      (by decide))) true 1).bind (·.GetBlockOutBit 1 5)) = some false := by decide
  obtain ⟨a', hrun, hout⟩ := bind_eq_some_iff.mp hout
  refine ⟨_, (some_get (by decide)).symm, by decide, by decide, _, a', hrun, hout, ?_⟩
  intro hleast
  have hgen : (5 : Nat) ∈ (Problem.ofCalls (twoBlocks [.setExitBlock 1])).gen.bits 1 := by decide
  have hsolution := (hleast.solution 1 (by decide) (by decide)).2
  have hmem : (5 : Nat) ∈ a'.flowOutSet true 1 := by
    rw [hsolution]
    exact Or.inl hgen
  have hbit : a'.GetBlockOutBit 1 5 = some true := hmem
  rw [hout] at hbit
  cases hbit

end Samples

end CinderX.Jit.Optimizer
