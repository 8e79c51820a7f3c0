import CinderX.Compiler.BorrowedLoadsSafe

/-!
# Borrowed loads in a whole graph

Executions go from block to block; no block hands a borrowed reference to the next.
-/

namespace CinderX.Compiler.LoadFast

open List

open Relation (ReflTransGen)

def State.New (s : State) : Prop := (∀ v ∈ s.stack, v.isNew) ∧ ∀ loc, (s.locals loc).isNew

/-- The execution of a graph is at instruction `i` of a block.  It leaves a block for
any other of the depth that the stack has then, with new entries above for a handler. -/
inductive Execution (cond : Block → Nat → State → Prop) (kept : List Inst → Nat → Nat → Prop)
    (entry : Nat) (blocks : List Block) : Block → Nat → State → Prop
  | start {b : Block} {s : State} (hb : b ∈ blocks) (hentry : b.bid = entry)
      (hdepth : s.stack.length = b.startdepth.toNat) (hnew : s.New) :
      Execution cond kept entry blocks b 0 s
  | step {b : Block} {i : Nat} {inst : Inst} {s s' : State} {writes : List Write}
      (h : Execution cond kept entry blocks b i s) (hinst : b.insts[i]? = some inst)
      (hcond : cond b i s) (hstep : Completes i inst.op s writes s') :
      Execution cond kept entry blocks b (i + 1) s'
  | enter {b b' : Block} {i : Nat} {s : State} {stack new : List Value}
      (h : Execution cond kept entry blocks b i s) (hleaves : Leaves kept b i s stack)
      (hb : b' ∈ blocks) (hnew : ∀ v ∈ new, v.isNew)
      (hdepth : (new ++ stack).length = b'.startdepth.toNat) :
      Execution cond kept entry blocks b' 0 ⟨new ++ stack, s.locals⟩

/-- In executions of the graph, a local is not overwritten while a reference borrowed
from it is on the stack or in a local, and a block is left with none. -/
structure GraphBorrowsSafely (cond : Block → Nat → State → Prop)
    (kept : List Inst → Nat → Nat → Prop) (entry : Nat) (blocks : List Block) : Prop where
  writes : ∀ b i s, Execution cond kept entry blocks b i s → cond b i s →
    ∀ inst, b.insts[i]? = some inst → ∀ writes s', Completes i inst.op s writes s' →
    ∀ w ∈ writes, ∀ k, .borrowed k w.loc ∉ w.frame.stack ∧
      ∀ loc, w.frame.locals loc ≠ .borrowed k w.loc
  leaves : ∀ b i s, Execution cond kept entry blocks b i s →
    ∀ stack, Leaves kept b i s stack → (∀ v ∈ stack, v.isNew) ∧ ∀ loc, (s.locals loc).isNew

section Executions

variable {cond : Block → Nat → State → Prop} {kept : List Inst → Nat → Nat → Prop}
  {entry : Nat} {blocks : List Block}

/-- Since blocks are left with nothing borrowed, each is executed as if alone. -/
theorem Execution.run (hsafe : ∀ b ∈ blocks, BorrowsSafely (cond b) kept b) {b : Block}
    {i : Nat} {s : State} (h : Execution cond kept entry blocks b i s) :
    b ∈ blocks ∧ Run (cond b) b i s := by
  induction h with
  | start hb _ hdepth hnew => exact ⟨hb, .start hdepth hnew.1 hnew.2⟩
  | step _ hinst hcond hstep ih => exact ⟨ih.1, .step ih.2 hinst hcond hstep⟩
  | enter _ hleaves hb hnew hdepth ih =>
    obtain ⟨hstack, hlocals⟩ := (hsafe _ ih.1).leaves _ _ ih.2 _ hleaves
    exact ⟨hb, .start hdepth (forall_mem_append.mpr ⟨hnew, hstack⟩) hlocals⟩

theorem graph_safe (hsafe : ∀ b ∈ blocks, BorrowsSafely (cond b) kept b) :
    GraphBorrowsSafely cond kept entry blocks where
  writes b i s h := (hsafe b (h.run hsafe).1).writes i s (h.run hsafe).2
  leaves b i s h := (hsafe b (h.run hsafe).1).leaves i s (h.run hsafe).2

end Executions

section NoBorrow

variable {cond : Nat → State → Prop} {kept : List Inst → Nat → Nat → Prop} {b : Block}

theorem isNew_of_selfOrNull {self v : Value} (h : selfOrNull self v) (hself : self.isNew) :
    v.isNew := by
  rcases h with rfl | rfl
  · exact hself
  · rfl

variable {i : Nat} {inst : Instr} {s : State}

theorem Completes.new {s s' : State} {writes : List Write}
    (h : Completes i inst s writes s') (hnone : inst.isBorrow = false) (hs : s.New) :
    s'.New ∧ ∀ w ∈ writes, w.frame.New := by
  cases h
  case LOAD_FAST_BORROW => cases hnone
  case LOAD_FAST_BORROW_LOAD_FAST_BORROW => cases hnone
  all_goals simp only [State.New, forall_mem_cons, forall_mem_append, not_mem_nil,
    false_imp_iff, implies_true, and_true] at hs ⊢
  case SWAP h => exact ⟨isNew_of_mem_swapTop h hs.1, hs.2⟩
  case COPY h => exact ⟨⟨hs.1 _ (mem_of_getElem? h), hs.1⟩, hs.2⟩
  case LOAD_ATTR_method hself => simp_all [isNew_of_selfOrNull hself]
  case LOAD_SUPER_ATTR_method hself => simp_all [isNew_of_selfOrNull hself]
  case LOAD_SPECIAL hself => simp_all [isNew_of_selfOrNull hself]
  case PRIMITIVE_BOX h =>
      rcases h with rfl | h
      · exact hs
      · exact ⟨⟨h, hs.1.2⟩, hs.2⟩
  case STORE_LOCAL isDouble _ _ _ =>
      refine ⟨⟨hs.1.2, isNew_update hs.2 ?_⟩, hs⟩
      cases isDouble
      · rfl
      · exact hs.1.1
  case DELETE_FAST => exact ⟨⟨hs.1, isNew_update hs.2 rfl⟩, hs⟩
  case LOAD_FAST_AND_CLEAR => exact ⟨⟨⟨hs.2 _, hs.1⟩, isNew_update hs.2 rfl⟩, hs⟩
  case MAKE_CELL => exact ⟨⟨hs.1, isNew_update hs.2 rfl⟩, hs⟩
  case LOAD_LOCAL_default => exact ⟨⟨⟨rfl, hs.1⟩, isNew_update hs.2 rfl⟩, hs⟩
  case COPY_FREE_VARS first count _ _ =>
      refine ⟨⟨hs.1, ?_⟩, ?_⟩
      · intro loc
        unfold copyFreeVars
        split
        · rfl
        · exact hs.2 loc
      · intro w hw
        obtain ⟨loc, -, rfl⟩ := List.mem_map.mp hw
        exact hs
  all_goals simp_all [isNew_update]

theorem JumpsWith.new {stack stack' : List Value} (h : JumpsWith inst stack stack')
    (hstack : ∀ v ∈ stack, v.isNew) : ∀ v ∈ stack', v.isNew := by
  cases h with
  | FOR_ITER => exact hstack
  | SEND hnew => exact forall_mem_cons.mpr ⟨hnew, (forall_mem_cons.mp hstack).2⟩
  | plain _ _ hnew =>
    exact forall_mem_append.mpr ⟨hnew, (forall_mem_append.mp hstack).2⟩

theorem Run.new (hnone : b.NoBorrow) (h : Run cond b i s) : s.New := by
  induction h with
  | start _ hstack hlocals => exact ⟨hstack, hlocals⟩
  | step _ hinst _ hstep ih => exact (hstep.new (hnone _ (mem_of_getElem? hinst)) ih).1

theorem State.New.not_borrowed (h : s.New) (k loc : Nat) :
    .borrowed k loc ∉ s.stack ∧ ∀ loc', s.locals loc' ≠ .borrowed k loc := by
  constructor
  · intro hmem
    exact Bool.noConfusion (h.1 _ hmem)
  · intro loc' heq
    have hnew := h.2 loc'
    rw [heq] at hnew
    exact Bool.noConfusion hnew

theorem Leaves.new {stack : List Value} (h : Leaves kept b i s stack)
    (hstack : ∀ v ∈ s.stack, v.isNew) : ∀ v ∈ stack, v.isNew := by
  cases h with
  | falls => exact hstack
  | jumps _ hjump _ => exact hjump.new hstack
  | raises _ _ _ _ => exact fun v hv => hstack v (mem_of_mem_drop hv)

theorem noBorrow_safe (hnone : b.NoBorrow) : BorrowsSafely cond kept b where
  writes _ _ hrun _ inst hinst _ _ hstep w hw k :=
    ((hstep.new (hnone inst (mem_of_getElem? hinst)) (hrun.new hnone)).2 w hw).not_borrowed
      k w.loc
  leaves _ _ hrun _ hleaves := ⟨hleaves.new (hrun.new hnone).1, (hrun.new hnone).2⟩

end NoBorrow

theorem pushTargets_spec {blocks : List Block} {pushes : List (Nat × Int)}
    {w w' : List Nat × List Nat} (h : pushes.foldlM (pushTarget blocks) w = some w')
    (hnodup : w.1.Nodup) (hvisited : w.1 ⊆ w.2) :
    w'.1.Nodup ∧ w'.1 ⊆ w'.2 ∧ w.2 ⊆ w'.2 ∧ ∀ bid ∈ w.2, bid ∈ w'.1 → bid ∈ w.1 := by
  induction pushes generalizing w with
  | nil =>
    cases h
    exact ⟨hnodup, hvisited, List.Subset.refl _, fun _ _ hmem => hmem⟩
  | cons push pushes ih =>
    rw [foldlM_cons] at h
    obtain ⟨w₁, hpush, h⟩ := Option.bind_eq_some_iff.mp h
    obtain ⟨target, -, hpush⟩ := Option.bind_eq_some_iff.mp hpush
    split at hpush
    · cases hpush
      split at h
      · exact ih h hnodup hvisited
      · rename_i hnot
        obtain ⟨hnodup', hvisited', hgrows, hold⟩ := ih h
          (nodup_cons.mpr ⟨fun hmem => hnot (hvisited hmem), hnodup⟩)
          (cons_subset_cons _ hvisited)
        refine ⟨hnodup', hvisited', List.Subset.trans (subset_cons_self _ _) hgrows, ?_⟩
        intro bid hbid hmem
        rcases mem_cons.mp (hold bid (mem_cons_of_mem _ hbid) hmem) with rfl | hmem
        · exact absurd hbid hnot
        · exact hmem
    · cases hpush

/-- A block is as it was, or it has been processed and borrows safely. -/
structure Worklist.Sound (w : Worklist) : Prop where
  nodup : w.stack.Nodup
  visited : w.stack.tail ⊆ w.visited
  blocks : ∀ b ∈ w.blocks, b.NoBorrow ∨
    (BorrowsSafely (Tracked b) kept b ∧ b.bid ∈ w.visited ∧ b.bid ∉ w.stack)

variable {w w' : Worklist}

theorem Worklist.Sound.step (hw : w.Sound) (h : w.step = some w') :
    w'.Sound := by
  obtain ⟨stack, visited, blocks⟩ := w
  cases stack with
  | nil => cases h
  | cons bid stack =>
    obtain ⟨block, hfind, h⟩ := Option.bind_eq_some_iff.mp h
    obtain ⟨a, ha, h⟩ := Option.bind_eq_some_iff.mp h
    obtain ⟨⟨stack', visited'⟩, hpushed, h⟩ := Option.bind_eq_some_iff.mp h
    cases h
    obtain ⟨hbid, hnodup⟩ := nodup_cons.mp hw.nodup
    obtain ⟨hnodup', hvisited', hgrows, hold⟩ := pushTargets_spec hpushed hnodup
      (List.Subset.trans hw.visited (subset_cons_self _ _))
    have hblock : block ∈ blocks := mem_of_find?_eq_some hfind
    have heq : block.bid = bid := by simpa using find?_some hfind
    -- the block is still on the stack, so nothing has been done to it
    have hnone : block.NoBorrow := by
      rcases hw.blocks block hblock with hnone | ⟨-, -, hnot⟩
      · exact hnone
      · exact absurd (heq ▸ mem_cons_self) hnot
    refine ⟨hnodup', fun _ hmem => hvisited' (mem_of_mem_tail hmem), ?_⟩
    intro b' hb'
    obtain ⟨b, hb, rfl⟩ := List.mem_map.mp hb'
    split
    · right
      have hvisitedBid : block.bid ∈ bid :: visited := heq ▸ mem_cons_self
      exact ⟨optimized_safe hnone ha, hgrows hvisitedBid,
        fun hmem => hbid (heq ▸ hold _ hvisitedBid hmem)⟩
    · rcases hw.blocks b hb with hnone | ⟨hsafe, hvisited, hnot⟩
      · exact .inl hnone
      · have hvisited : b.bid ∈ bid :: visited := mem_cons_of_mem _ hvisited
        exact .inr ⟨hsafe, hgrows hvisited,
          fun hmem => hnot (mem_cons_of_mem _ (hold _ hvisited hmem))⟩

theorem sound_initialWorklist {entry : Nat} {blocks : List Block}
    (hnone : ∀ b ∈ blocks, b.NoBorrow) : (initialWorklist entry blocks).Sound := by
  refine ⟨pairwise_singleton _ _, nil_subset _, ?_⟩
  intro b' hb'
  obtain ⟨b, hb, rfl⟩ := List.mem_map.mp hb'
  left
  split
  · exact hnone b hb
  · exact hnone b hb

theorem sound_of_steps (hw : w.Sound)
    (h : ReflTransGen (fun w w' => w.step = some w') w w') : w'.Sound := by
  induction h with
  | refl => exact hw
  | tail _ hstep ih => exact ih.step hstep

/-- In executions whose steps the simulation follows, the loads that
`optimize_load_fast` has made borrow are safe. -/
theorem optimize_load_fast_safe {entry : Nat} {blocks : List Block} {w : Worklist}
    (hnone : ∀ b ∈ blocks, b.NoBorrow)
    (hsteps : ReflTransGen (fun w w' => w.step = some w') (initialWorklist entry blocks) w) :
    GraphBorrowsSafely Tracked kept entry w.blocks := by
  apply graph_safe
  intro b hb
  rcases (sound_of_steps (sound_initialWorklist hnone) hsteps).blocks b hb with hnone | hsafe
  · exact noBorrow_safe hnone
  · exact hsafe.1

/-- `y = x; return y`, where only the second load may borrow. -/
def storesLocal (load : Instr) : List Block :=
  [⟨0, [⟨.LOAD_FAST 1, none⟩, ⟨.STORE_FAST 0, none⟩, ⟨load, none⟩,
    ⟨.plain .RETURN_VALUE 0 none, none⟩], 0, none, false⟩]

theorem optimize_load_fast_safe_sample :
    GraphBorrowsSafely Tracked kept 0 (storesLocal (.LOAD_FAST_BORROW 0)) :=
  @optimize_load_fast_safe 0 (storesLocal (.LOAD_FAST 0))
    ⟨[], [0], storesLocal (.LOAD_FAST_BORROW 0)⟩
    (by simp [storesLocal, Block.NoBorrow, Instr.isBorrow]) (.single rfl)

/-- `f(x, (x := None))`, in part, with `x` of a type that has been refined. -/
def refinesLocal (load : Instr) : List Block :=
  [⟨0, [⟨load, none⟩, ⟨.REFINE_TYPE, none⟩, ⟨.plain .LOAD_CONST 0 none, none⟩,
    ⟨.STORE_FAST 0, none⟩, ⟨.plain .RETURN_VALUE 0 none, none⟩], 0, none, false⟩]

/-- The reference that `REFINE_TYPE` leaves on the stack is borrowed from a local that
the block stores to. -/
theorem optimize_load_fast_refines :
    (initialWorklist 0 (refinesLocal (.LOAD_FAST 0))).step =
        some ⟨[], [0], refinesLocal (.LOAD_FAST_BORROW 0)⟩ ∧
      ¬ GraphBorrowsSafely (fun _ _ _ => True) (fun _ _ _ => True) 0
        (refinesLocal (.LOAD_FAST_BORROW 0)) := by
  refine ⟨rfl, ?_⟩
  intro h
  let locals : Nat → Value := fun _ => .owned
  have hstart : Execution (fun _ _ _ => True) (fun _ _ _ => True) 0
      (refinesLocal (.LOAD_FAST_BORROW 0)) _ 0 ⟨[], locals⟩ :=
    .start (mem_singleton_self _) rfl rfl ⟨nofun, fun _ => rfl⟩
  have hload := hstart.step rfl trivial (.LOAD_FAST_BORROW nofun)
  have hrefine := hload.step rfl trivial .REFINE_TYPE
  have hconst := hrefine.step rfl trivial
    (@Completes.plain 2 .LOAD_CONST 0 none [] [.owned] _ locals rfl rfl (by decide))
  exact (h.writes _ _ _ hconst trivial _ rfl _ _ .STORE_FAST _ mem_cons_self 0).1
    mem_cons_self

end CinderX.Compiler.LoadFast
