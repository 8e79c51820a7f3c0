import CinderX.Jit.Hir.CriticalEdgesForm

/-!
# Splitting critical edges keeps the meaning

The new function does what the old one does, with a branch wherever a split edge is taken, and no
critical edge is left.
-/

namespace CinderX.Jit.Hir

open List Hir.Function Instr

variable {n : Nat} {V W : Type}

def Request.branch : Request V where
  opcode := .kBranch
  immediate := 0
  operands := []
  deopt := none
  snapshotState := []
  yieldFromIter := none
  castsToFloat := false
  borrowed := false
  checksWaitHandle := false
  destructorKnown := false

inductive Interposed : List (Request V) → List (Request V) → Prop
  | nil : Interposed [] []
  | keep {request : Request V} {old new : List (Request V)} (h : Interposed old new) :
      Interposed (request :: old) (request :: new)
  | branch {old new : List (Request V)} (h : Interposed old new) :
      Interposed old (Request.branch :: new)

namespace Interposed

variable {old new old' new' : List (Request V)}

theorem refl (requests : List (Request V)) : Interposed requests requests := by
  induction requests with
  | nil => exact .nil
  | cons request rest ih => exact .keep ih

theorem append (h : Interposed old new) (h' : Interposed old' new') :
    Interposed (old ++ old') (new ++ new') := by
  induction h with
  | nil => exact h'
  | keep _ ih => exact .keep ih
  | branch _ ih => exact .branch ih

theorem trans {last : List (Request V)} (h : Interposed old new) (h' : Interposed new last) :
    Interposed old last := by
  induction h' generalizing old with
  | nil => exact h
  | keep h' ih =>
    cases h with
    | keep h => exact .keep (ih h)
    | branch h => exact .branch (ih h)
  | branch _ ih => exact .branch (ih h)

end Interposed

def InterposedRuns (exec : Request V → W → Outcome V W) (f g : Function n) (id : BlockId)
    (regs : Register n → V) (world : W) : Prop :=
  (∀ fuel, ∃ fuel', Interposed (requests (f.run exec fuel id regs world))
      (requests (g.run exec fuel' id regs world)) ∧
    (f.run exec fuel id regs world).2 = (g.run exec fuel' id regs world).2) ∧
  ∀ fuel', ∃ fuel, Interposed (requests (f.run exec fuel id regs world))
      (requests (g.run exec fuel' id regs world)) ∧
    (f.run exec fuel id regs world).2 = (g.run exec fuel' id regs world).2

theorem InterposedRuns.refl (exec : Request V → W → Outcome V W) (f : Function n) (id : BlockId)
    (regs : Register n → V) (world : W) : InterposedRuns exec f f id regs world :=
  ⟨fun fuel => ⟨fuel, .refl _, rfl⟩, fun fuel => ⟨fuel, .refl _, rfl⟩⟩

theorem InterposedRuns.trans {exec : Request V → W → Outcome V W} {f g k : Function n}
    {id : BlockId} {regs : Register n → V} {world : W} (h : InterposedRuns exec f g id regs world)
    (h' : InterposedRuns exec g k id regs world) : InterposedRuns exec f k id regs world := by
  constructor
  · intro fuel
    obtain ⟨fuel', hrequests, hresult⟩ := h.1 fuel
    obtain ⟨fuel'', hrequests', hresult'⟩ := h'.1 fuel'
    exact ⟨fuel'', hrequests.trans hrequests', hresult.trans hresult'⟩
  · intro fuel''
    obtain ⟨fuel', hrequests', hresult'⟩ := h'.2 fuel''
    obtain ⟨fuel, hrequests, hresult⟩ := h.2 fuel'
    exact ⟨fuel, hrequests.trans hrequests', hresult.trans hresult'⟩

namespace Function.Split

variable {f g : Function n} {pred : BlockId} {index : Nat} {succ split id : BlockId}
  (h : f.Split g pred index succ split)

def moved (pred succ split id target : BlockId) : BlockId :=
  if id = pred ∧ target = succ then split else target

include h

variable {block : BasicBlock n}

theorem getElem?_edited (hblock : f.block? id = some block) {instr : Instr n}
    (hinstr : instr ∈ block.instrs) (edge : Nat) :
    (instr.edited pred index succ split id).successors[edge]? =
      instr.successors[edge]?.map (moved pred succ split id) := by
  have hmem := mem_blocks_of_block? hblock
  obtain ⟨front, last, hends⟩ := h.wellFormed.ends h.formed.wellShaped hmem
  rw [successors_edited]
  rw [hends.split, mem_append, mem_singleton] at hinstr
  rcases hinstr with hinstr | rfl
  · have hplain := hends.plain instr hinstr
    rw [if_neg (by simp [hplain.1]), hplain.2]
    rfl
  · have hsuccs : f.succs id = instr.successors := by
      rw [succs, hblock]
      exact hends.outEdges_eq
    by_cases hid : id = pred
    · subst hid
      rw [if_pos ⟨hends.terminator, rfl⟩, ← hsuccs, getElem?_set]
      obtain ⟨hlt, hget⟩ := List.getElem?_eq_some_iff.mp h.edge
      split
      next hedge =>
        subst hedge
        rw [h.edge]
        simp [moved]
      next hedge =>
        cases htarget : (f.succs id)[edge]? with
        | none => rfl
        | some target =>
          have hne : target ≠ succ := by
            rintro rfl
            obtain ⟨hlt', hget'⟩ := List.getElem?_eq_some_iff.mp htarget
            exact hedge ((h.wellFormed.nodup_succs id).getElem_inj_iff.mp (hget.trans hget'.symm))
          simp [moved, hne]
    · rw [if_neg fun hboth => hid hboth.2]
      cases instr.successors[edge]? with
      | none => rfl
      | some target => simp [moved, hid]

theorem execInstrs_edited (exec : Request V → W → Outcome V W) (hblock : f.block? id = some block)
    {instrs : List (Instr n)}
    (hinstrs : ∀ instr ∈ instrs, instr ∈ block.instrs ∧ instr.isPhi = false)
    (regs : Register n → V) (world : W) :
    (execInstrs exec (instrs.map (Instr.edited pred index succ split id)) regs world).1.map
        Event.request = (execInstrs exec instrs regs world).1.map Event.request ∧
      (execInstrs exec (instrs.map (Instr.edited pred index succ split id)) regs world).2 =
        (execInstrs exec instrs regs world).2.rename (moved pred succ split id) := by
  induction instrs generalizing regs world with
  | nil => exact ⟨rfl, rfl⟩
  | cons instr rest ih =>
    obtain ⟨⟨hinstr, hphi⟩, hrest⟩ := forall_mem_cons.mp hinstrs
    simp only [map_cons, execInstrs, request_edited hphi]
    cases exec (instr.request regs) world with
    | next value world' =>
      have hassign : (instr.edited pred index succ split id).assign value regs =
          instr.assign value regs := by
        unfold assign
        rw [output_edited]
      obtain ⟨hevents, hexit⟩ := ih hrest (instr.assign value regs) world'
      simp only [hassign]
      exact ⟨by simpa using hevents, hexit⟩
    | jump edge world' =>
      refine ⟨rfl, ?_⟩
      simp only [h.getElem?_edited hblock hinstr]
      cases instr.successors[edge]? <;> rfl
    | leave world' => exact ⟨rfl, rfl⟩

variable {other : BlockId}

theorem phiOperand?_edited (hblock : block ∈ f.blocks) {phi : Instr n} (hphi : phi ∈ block.instrs)
    (hisPhi : phi.isPhi = true) (hother : other ∈ f.blockIds) :
    (phi.edited pred index succ split block.id).phiOperand?
        (if other = pred ∧ block.id = succ then split else other) = phi.phiOperand? other := by
  have hordered := h.formed.phis block hblock phi hphi hisPhi
  have hpreds := (h.wellFormed.phi block hblock phi hphi hisPhi).2
  refine Option.ext fun reg => ?_
  rw [(h.edited_phi hblock hphi hisPhi).1.phiOperand?_eq_some_iff,
    hordered.phiOperand?_eq_some_iff, h.mem_phi hblock hphi hisPhi]
  constructor
  · rintro ⟨⟨old, reg'⟩, harg, heq⟩
    obtain ⟨hsame, rfl⟩ := Prod.mk.inj heq
    have hold := mem_blockIds_of_mem_inEdges (hpreds _ (of_mem_zip harg).1)
    suffices old = other from this ▸ harg
    simp only at hsame
    split at hsame <;> split at hsame
    next hleft hright => exact hleft.1.trans hright.1.symm
    next => exact absurd hsame.symm (h.ne_split hother)
    next => exact absurd hsame (h.ne_split hold)
    next => exact hsame
  · exact fun harg => ⟨(other, reg), harg, rfl⟩

omit h in
theorem phis_edited (block : BasicBlock n) : BasicBlock.phis
    ⟨block.id, block.instrs.map (Instr.edited pred index succ split block.id)⟩ =
      block.phis.map (Instr.edited pred index succ split block.id) := by
  unfold BasicBlock.phis
  rw [takeWhile_map]
  congr 2
  funext instr
  exact isPhi_edited _ _ _ _ _ _

theorem takeEdge_edited (hblock : block ∈ f.blocks)
    (hother : other ∈ f.blockIds) (regs : Register n → V) :
    BasicBlock.takeEdge ⟨block.id, block.instrs.map (Instr.edited pred index succ split block.id)⟩
        (if other = pred ∧ block.id = succ then split else other) regs =
      block.takeEdge other regs := by
  funext reg
  unfold BasicBlock.takeEdge
  have hfind : (block.phis.map (edited pred index succ split block.id)).find?
      (fun phi => phi.output = some reg) = (block.phis.find? fun phi => phi.output = some reg).map
        (edited pred index succ split block.id) := by
    rw [find?_map]
    congr 2
    funext instr
    simp
  rw [phis_edited, hfind]
  cases hphi : block.phis.find? fun phi => phi.output = some reg with
  | none => rfl
  | some phi =>
    have hmem := mem_of_find?_eq_some hphi
    have hinstr : phi ∈ block.instrs := (takeWhile_sublist _).subset hmem
    have hoperand := h.phiOperand?_edited hblock hinstr (mem_takeWhile_imp hmem) hother
    simp [hoperand]

/-! ## Runs -/

section Runs

variable {exec : Request V → W → Outcome V W}
  (hexec : ∀ world, exec Request.branch world = .jump 0 world)

include hexec

theorem run_in_split {target : BasicBlock n} (htarget : f.block? succ = some target)
    (regs : Register n → V) (world : W) (fuel : Nat) :
    requests (g.run exec (fuel + 1) split regs world) =
        Request.branch ::
          requests (g.run exec fuel succ (target.takeEdge pred regs) world) ∧
      (g.run exec (fuel + 1) split regs world).2 =
        (g.run exec fuel succ (target.takeEdge pred regs) world).2 := by
  have hmem := mem_blocks_of_block? htarget
  obtain rfl := id_of_block? htarget
  have hbody : BasicBlock.body ⟨split, [(branchTo target.id : Instr n)]⟩ =
      [branchTo target.id] := rfl
  have hjump : execInstrs exec [(branchTo target.id : Instr n)] regs world =
      ([⟨branchTo target.id, Request.branch⟩], .jump target.id regs world) := by
    have hrequest : (branchTo target.id : Instr n).request regs = Request.branch := rfl
    simp only [execInstrs, hrequest, hexec]
    rfl
  have htarget' := h.block?_eq (h.ne_split h.succ_mem)
  rw [htarget, Option.map_some] at htarget'
  have htake := h.takeEdge_edited hmem h.pred_mem regs
  rw [if_pos ⟨rfl, rfl⟩] at htake
  rw [run_jump h.block?_split htarget' (by rw [hbody, hjump]) fuel, hbody, hjump, htake]
  exact ⟨rfl, rfl⟩

theorem run_step {block : BasicBlock n} (hblock : f.block? id = some block)
    (regs : Register n → V) (world : W) :
    (∃ events result, ∀ fuel, f.run exec (fuel + 1) id regs world = (events, result) ∧
      requests (g.run exec (fuel + 1) id regs world) = events.map Event.request ∧
        (g.run exec (fuel + 1) id regs world).2 = result) ∨
    ∃ (events : List (Event n V)) (target : BlockId) (regs' : Register n → V) (world' : W),
      target ∈ f.blockIds ∧
      (∀ fuel, requests (f.run exec (fuel + 1) id regs world) =
          events.map Event.request ++ requests (f.run exec fuel target regs' world') ∧
          (f.run exec (fuel + 1) id regs world).2 = (f.run exec fuel target regs' world').2) ∧
      ((∀ fuel, requests (g.run exec (fuel + 1) id regs world) =
          events.map Event.request ++ requests (g.run exec fuel target regs' world') ∧
          (g.run exec (fuel + 1) id regs world).2 = (g.run exec fuel target regs' world').2) ∨
        requests (g.run exec 1 id regs world) = events.map Event.request ∧
        (g.run exec 1 id regs world).2 = .running ∧
        ∀ fuel, requests (g.run exec (fuel + 2) id regs world) =
          events.map Event.request ++
            Request.branch :: requests (g.run exec fuel target regs' world') ∧
          (g.run exec (fuel + 2) id regs world).2 = (g.run exec fuel target regs' world').2) := by
  have hmem := mem_blocks_of_block? hblock
  have hid : id ∈ f.blockIds := block?_isSome.mp (by simp [hblock])
  have hne := h.ne_split hid
  have hnew := h.block?_eq hne
  rw [hblock, Option.map_some, id_of_block? hblock] at hnew
  have hbody : BasicBlock.body ⟨id, block.instrs.map (edited pred index succ split id)⟩ =
      block.body.map (edited pred index succ split id) := by
    unfold BasicBlock.body
    rw [dropWhile_map]
    congr 2
    funext instr
    exact isPhi_edited _ _ _ _ _ _
  have hall : ∀ instr ∈ block.body, instr ∈ block.instrs ∧ instr.isPhi = false :=
    fun instr hinstr => ⟨(dropWhile_sublist _).subset hinstr,
      h.wellFormed.not_isPhi_of_mem_body hmem hinstr⟩
  obtain ⟨hevents, hexit⟩ := h.execInstrs_edited exec hblock hall regs world
  rw [← hbody] at hevents hexit
  cases hrun : (execInstrs exec block.body regs world).2 with
  | leave world' =>
    rw [hrun] at hexit
    refine Or.inl ⟨(execInstrs exec block.body regs world).1, .leave world', fun fuel => ?_⟩
    rw [run_end hblock (by simp [hrun]), run_end hnew (by simp [hexit, Exit.rename]), hrun, hexit]
    exact ⟨rfl, hevents, rfl⟩
  | stuck =>
    rw [hrun] at hexit
    refine Or.inl ⟨(execInstrs exec block.body regs world).1, .stuck, fun fuel => ?_⟩
    rw [run_end hblock (by simp [hrun]), run_end hnew (by simp [hexit, Exit.rename]), hrun, hexit]
    exact ⟨rfl, hevents, rfl⟩
  | jump target regs' world' =>
    rw [hrun] at hexit
    obtain ⟨instr, hinstr, hsucc⟩ := mem_successors_of_jump hrun
    have hedge : target ∈ f.succs id := by
      rw [succs, hblock]
      exact mem_flatMap.mpr ⟨instr, (hall instr hinstr).1, hsucc⟩
    have htarget := mem_blockIds_of_linked h.wellFormed.cfg.linked hedge
    obtain ⟨block', hblock'⟩ := Option.isSome_iff_exists.mp (block?_isSome.mpr htarget)
    have hmem' := mem_blocks_of_block? hblock'
    refine Or.inr ⟨(execInstrs exec block.body regs world).1, target, block'.takeEdge id regs',
      world', htarget, fun fuel => ?_, ?_⟩
    · rw [run_jump hblock hblock' hrun fuel]
      exact ⟨map_append, rfl⟩
    by_cases hsplit : id = pred ∧ target = succ
    · right
      have hjump : ∀ fuel, requests (g.run exec (fuel + 1) id regs world) =
          (execInstrs exec block.body regs world).1.map Event.request ++
            requests (g.run exec fuel split regs' world') ∧
          (g.run exec (fuel + 1) id regs world).2 = (g.run exec fuel split regs' world').2 := by
        intro fuel
        have hmoved : Exit.rename (moved pred succ split id) (.jump target regs' world') =
            (.jump split regs' world' : Exit n V W) := by
          simp [Exit.rename, moved, hsplit]
        rw [run_jump hnew h.block?_split (hexit.trans hmoved) fuel, BasicBlock.takeEdge_of_nil rfl]
        simp only [requests, map_append, hevents, and_self]
      obtain ⟨rfl, rfl⟩ := hsplit
      refine ⟨(hjump 0).1.trans (append_nil _), (hjump 0).2, fun fuel => ?_⟩
      obtain ⟨hrequests, hresult⟩ := h.run_in_split hexec hblock' regs' world' fuel
      exact ⟨(hjump (fuel + 1)).1.trans (congrArg _ hrequests), (hjump (fuel + 1)).2.trans hresult⟩
    · left
      intro fuel
      have hmoved : Exit.rename (moved pred succ split id) (.jump target regs' world') =
          (.jump target regs' world' : Exit n V W) := by
        simp [Exit.rename, moved, hsplit]
      have hnew' := h.block?_eq (h.ne_split htarget)
      have htake := h.takeEdge_edited hmem' hid regs'
      rw [hblock', Option.map_some] at hnew'
      rw [id_of_block? hblock', if_neg hsplit] at htake
      rw [id_of_block? hblock'] at hnew'
      rw [run_jump hnew hnew' (hexit.trans hmoved) fuel, htake]
      simp only [requests, map_append, hevents, and_self]

theorem run_of_run (fuel : Nat) (hid : id ∈ f.blockIds) (regs : Register n → V) (world : W) :
    ∃ fuel', Interposed (requests (f.run exec fuel id regs world))
        (requests (g.run exec fuel' id regs world)) ∧
      (f.run exec fuel id regs world).2 = (g.run exec fuel' id regs world).2 := by
  induction fuel generalizing id regs world with
  | zero => exact ⟨0, .nil, rfl⟩
  | succ fuel ih =>
    obtain ⟨block, hblock⟩ := Option.isSome_iff_exists.mp (block?_isSome.mpr hid)
    rcases h.run_step hexec hblock regs world with
      ⟨events, result, hends⟩ | ⟨events, target, regs', world', htarget, hold, hnew⟩
    · obtain ⟨hf, hg, hresult⟩ := hends fuel
      refine ⟨fuel + 1, ?_, ?_⟩
      · rw [hg, hf]
        exact .refl _
      · rw [hf, hresult]
    · obtain ⟨fuel', hrequests, hresult⟩ := ih htarget regs' world'
      rcases hnew with hnew | ⟨-, -, hnew⟩
      · refine ⟨fuel' + 1, ?_, ?_⟩
        · rw [(hold fuel).1, (hnew fuel').1]
          exact (Interposed.refl _).append hrequests
        · rw [(hold fuel).2, (hnew fuel').2, hresult]
      · refine ⟨fuel' + 2, ?_, ?_⟩
        · rw [(hold fuel).1, (hnew fuel').1]
          exact (Interposed.refl _).append (.branch hrequests)
        · rw [(hold fuel).2, (hnew fuel').2, hresult]

theorem run_of_run_split (fuel' : Nat) (hid : id ∈ f.blockIds) (regs : Register n → V)
    (world : W) :
    ∃ fuel, Interposed (requests (f.run exec fuel id regs world))
        (requests (g.run exec fuel' id regs world)) ∧
      (f.run exec fuel id regs world).2 = (g.run exec fuel' id regs world).2 := by
  induction fuel' using Nat.strongRecOn generalizing id regs world with
  | ind fuel' ih =>
    obtain ⟨block, hblock⟩ := Option.isSome_iff_exists.mp (block?_isSome.mpr hid)
    rcases h.run_step hexec hblock regs world with
      ⟨events, result, hends⟩ | ⟨events, target, regs', world', htarget, hold, hnew⟩
    · cases fuel' with
      | zero => exact ⟨0, .nil, rfl⟩
      | succ fuel' =>
        obtain ⟨hf, hg, hresult⟩ := hends fuel'
        refine ⟨fuel' + 1, ?_, ?_⟩
        · rw [hg, hf]
          exact .refl _
        · rw [hf, hresult]
    · cases fuel' with
      | zero => exact ⟨0, .nil, rfl⟩
      | succ fuel' =>
        rcases hnew with hnew | ⟨hzero, hrunning, hnew⟩
        · obtain ⟨fuel, hrequests, hresult⟩ :=
            ih fuel' (Nat.lt_succ_self _) htarget regs' world'
          refine ⟨fuel + 1, ?_, ?_⟩
          · rw [(hold fuel).1, (hnew fuel').1]
            exact (Interposed.refl _).append hrequests
          · rw [(hold fuel).2, (hnew fuel').2, hresult]
        · cases fuel' with
          | zero =>
            refine ⟨1, ?_, ?_⟩
            · have hnone : requests (f.run exec 0 target regs' world') = [] := rfl
              rw [(hold 0).1, hzero, hnone, append_nil]
              exact .refl _
            · rw [(hold 0).2, hrunning]
              rfl
          | succ fuel' =>
            obtain ⟨fuel, hrequests, hresult⟩ := ih fuel' (by omega) htarget regs' world'
            refine ⟨fuel + 1, ?_, ?_⟩
            · rw [(hold fuel).1, (hnew fuel').1]
              exact (Interposed.refl _).append (.branch hrequests)
            · rw [(hold fuel).2, (hnew fuel').2, hresult]

theorem interposedRuns (hid : id ∈ f.blockIds) (regs : Register n → V) (world : W) :
    InterposedRuns exec f g id regs world :=
  ⟨fun fuel => h.run_of_run hexec fuel hid regs world,
    fun fuel => h.run_of_run_split hexec fuel hid regs world⟩

end Runs

theorem length_succs (hid : id ≠ split) : (g.succs id).length = (f.succs id).length := by
  rw [h.succs_eq hid]
  split
  · exact length_set
  · rfl

theorem critical_of_split {i : Nat} {target : BlockId} (hedge : (g.succs id)[i]? = some target)
    (hout : 1 < (g.succs id).length) (hin : 1 < (g.inEdges target).length) :
    (f.succs id)[i]? = some target ∧ 1 < (f.succs id).length ∧ 1 < (f.inEdges target).length ∧
      (id, i) ≠ (pred, index) := by
  have hid : id ≠ split := by
    rintro rfl
    simp [h.succs_split] at hout
  have htarget : target ≠ split := by
    rintro rfl
    simp [h.inEdges_split] at hin
  have hmem : target ∈ f.blockIds := by
    rcases (h.mem_succs hid).mp (mem_of_getElem? hedge) with ⟨-, hsplit⟩ | ⟨hmem, -⟩
    · exact absurd hsplit htarget
    · exact mem_blockIds_of_linked h.wellFormed.cfg.linked hmem
  have hlength := (h.inEdges_perm hmem).length_eq
  rw [length_map] at hlength
  rw [h.length_succs hid] at hout
  rw [h.succs_eq hid] at hedge
  by_cases hpred : id = pred
  · rw [if_pos hpred] at hedge
    have hne : index ≠ i := by
      rintro rfl
      obtain ⟨hlt, hget⟩ := List.getElem?_eq_some_iff.mp hedge
      exact htarget (hget.symm.trans (getElem_set_self hlt))
    rw [getElem?_set_ne hne] at hedge
    exact ⟨hedge, hout, hlength ▸ hin, fun hsame => hne (Prod.mk.inj hsame).2.symm⟩
  · rw [if_neg hpred] at hedge
    exact ⟨hedge, hout, hlength ▸ hin, fun hsame => hpred (Prod.mk.inj hsame).1⟩

end Function.Split

/-- Where the edges between the blocks of the first function come from in the second one: from
the same block, or from a new block on the edge.  Phis have their operands listed for these. -/
structure Function.Relocated (f g : Function n) (source : BlockId → BlockId → BlockId) : Prop where
  blockIds : ∀ id ∈ f.blockIds, id ∈ g.blockIds
  inEdges : ∀ id ∈ f.blockIds, (g.inEdges id).Perm ((f.inEdges id).map (source · id))
  origin : ∀ id succ, succ ∈ f.succs id → source id succ = id ∧ succ ∈ g.succs id ∨
    source id succ ∉ f.blockIds ∧ g.succs (source id succ) = [succ] ∧
      g.inEdges (source id succ) = [id]
  phis : ∀ block ∈ f.blocks, ∃ block', g.block? block.id = some block' ∧
    List.Forall₂ (fun phi phi' : Instr n => phi'.output = phi.output ∧
      ∀ pred ∈ f.inEdges block.id, phi'.phiOperand? (source pred block.id) = phi.phiOperand? pred)
      block.phis block'.phis

namespace Function.Relocated

variable {f₀ f g : Function n} {source : BlockId → BlockId → BlockId}

theorem refl (f : Function n) : f.Relocated f fun id _ => id where
  blockIds _ hid := hid
  inEdges _ _ := by simp
  origin _ _ hsucc := Or.inl ⟨rfl, hsucc⟩
  phis block hblock :=
    ⟨block, block?_of_mem hblock, forall₂_same.mpr fun _ _ => ⟨rfl, fun _ _ => rfl⟩⟩

theorem split (h : f₀.Relocated f source) (hlinked : f₀.linked = true) {pred : BlockId}
    {index : Nat} {succ split : BlockId} (hsplit : f.Split g pred index succ split)
    (hpred : pred ∈ f₀.blockIds) (hsucc : succ ∈ f₀.blockIds) :
    f₀.Relocated g fun id target =>
      if source id target = pred ∧ target = succ then split else source id target where
  blockIds id hid := hsplit.mem_blockIds.mpr (Or.inl (h.blockIds id hid))
  inEdges id hid := by
    refine (hsplit.inEdges_perm (h.blockIds id hid)).trans ?_
    have hmap := (h.inEdges id hid).map fun other =>
      if other = pred ∧ id = succ then split else other
    rwa [List.map_map] at hmap
  origin id target hedge := by
    have hid : id ∈ f₀.blockIds :=
      mem_blockIds_of_mem_inEdges (mem_inEdges.mpr hedge)
    have htarget := mem_blockIds_of_linked hlinked hedge
    rcases h.origin id target hedge with ⟨hsame, hmem⟩ | ⟨hnot, hsuccs, hinEdges⟩
    · rw [hsame]
      by_cases hboth : id = pred ∧ target = succ
      · rw [if_pos hboth]
        refine Or.inr ⟨fun hin => hsplit.fresh (h.blockIds _ hin), ?_, ?_⟩
        · rw [hsplit.succs_split, hboth.2]
        · rw [hsplit.inEdges_split, hboth.1]
      · rw [if_neg hboth]
        exact Or.inl ⟨rfl,
          (hsplit.mem_succs (hsplit.ne_split (h.blockIds id hid))).mpr (Or.inr ⟨hmem, hboth⟩)⟩
    · have hne : source id target ≠ pred := fun hsame => hnot (hsame ▸ hpred)
      have hin : source id target ∈ f.blockIds := mem_blockIds_of_mem_inEdges
        (mem_inEdges.mpr (hsuccs ▸ mem_cons_self : target ∈ f.succs _))
      rw [if_neg fun hboth => hne hboth.1]
      refine Or.inr ⟨hnot, ?_, ?_⟩
      · rw [hsplit.succs_eq (hsplit.ne_split hin), if_neg hne, hsuccs]
      · have hperm := hsplit.inEdges_perm hin
        have hne' : source id target ≠ succ := fun hsame => hnot (hsame ▸ hsucc)
        simp only [hne', and_false, if_false, List.map_id'] at hperm
        exact perm_singleton.mp (hinEdges ▸ hperm)
  phis block hblock := by
    obtain ⟨block', hblock', hphis⟩ := h.phis block hblock
    have hid : block.id ∈ f₀.blockIds := mem_blockIds.mpr ⟨block, hblock, rfl⟩
    have hnew := hsplit.block?_eq (hsplit.ne_split (h.blockIds _ hid))
    have hmem := mem_blocks_of_block? hblock'
    have hsame := id_of_block? hblock'
    rw [hblock', Option.map_some] at hnew
    refine ⟨_, hnew, ?_⟩
    rw [Function.Split.phis_edited, forall₂_map_right_iff]
    refine forall₂_iff_zip.mpr ⟨hphis.length_eq, fun {phi phi'} hzip => ?_⟩
    obtain ⟨houtput, hoperands⟩ := (forall₂_iff_zip.mp hphis).2 hzip
    have hin := (of_mem_zip hzip).2
    refine ⟨(output_edited _ _ _ _ _ _).trans houtput, fun other hother => ?_⟩
    have hsource : source other block.id ∈ f.blockIds :=
      mem_blockIds_of_mem_inEdges
        ((h.inEdges _ hid).mem_iff.mpr (List.mem_map.mpr ⟨other, hother, rfl⟩))
    have hoperand := hsplit.phiOperand?_edited hmem ((takeWhile_sublist _).subset hin)
      (mem_takeWhile_imp hin) hsource
    rw [hsame] at hoperand ⊢
    exact hoperand.trans (hoperands other hother)

end Function.Relocated

/-! ## The pass -/

variable {edge : BlockId × Nat}

theorem WellFormed.mem_criticalEdges {f : Function n} (hf : WellFormed f)
    (hformed : f.Formed) : edge ∈ f.criticalEdges ↔ 1 < (f.succs edge.1).length ∧
      ∃ succ, (f.succs edge.1)[edge.2]? = some succ ∧ 1 < (f.inEdges succ).length := by
  have hterm : ∀ block ∈ f.blocks, ∃ last, block.terminator? = some last ∧
      f.succs block.id = last.successors := by
    intro block hblock
    obtain ⟨front, last, hends⟩ := hf.ends hformed.wellShaped hblock
    exact ⟨last, by simp [BasicBlock.terminator?, hends.split],
      (succs_of_mem hblock).trans hends.outEdges_eq⟩
  rw [criticalEdges, mem_flatMap]
  constructor
  · rintro ⟨block, hblock, hmem⟩
    obtain ⟨last, hlast, hsuccs⟩ := hterm block hblock
    rw [hlast] at hmem
    simp only at hmem
    split at hmem
    next => cases hmem
    next hnot =>
      obtain ⟨i, hi, rfl⟩ := List.mem_map.mp hmem
      rw [hsuccs]
      have hany := (mem_filter.mp hi).2
      rw [Option.any_eq_true] at hany
      obtain ⟨succ, hsucc, hcount⟩ := hany
      exact ⟨Nat.lt_of_not_le fun hle => hnot (Nat.lt_succ_of_le hle), succ, hsucc,
        by simpa using hcount⟩
  · rintro ⟨hout, succ, hsucc, hin⟩
    obtain ⟨block, hblock⟩ : ∃ block, f.block? edge.1 = some block := by
      cases hfind : f.block? edge.1 with
      | none => simp [succs, hfind] at hout
      | some block => exact ⟨block, rfl⟩
    have hid := id_of_block? hblock
    obtain ⟨last, hlast, hsuccs⟩ := hterm block (mem_blocks_of_block? hblock)
    rw [hid] at hsuccs
    rw [hsuccs] at hout hsucc
    refine ⟨block, mem_blocks_of_block? hblock, ?_⟩
    rw [hlast]
    simp only
    rw [if_neg (Nat.not_lt.mpr hout : ¬last.numEdges < 2)]
    refine List.mem_map.mpr ⟨edge.2, mem_filter.mpr ⟨?_, ?_⟩, by rw [hid]⟩
    · obtain ⟨hlt, -⟩ := List.getElem?_eq_some_iff.mp hsucc
      exact mem_range.mpr hlt
    · simp [hsucc, hin]

/-- The edges that `criticalEdges` lists for one block. -/
def Function.edgesOut (f : Function n) (block : BasicBlock n) : List (BlockId × Nat) :=
  match block.terminator? with
  | none => []
  | some term =>
    if term.numEdges < 2 then []
    else ((range term.numEdges).filter fun i =>
      term.successors[i]?.any fun succ => 1 < (f.inEdges succ).length).map fun i => (block.id, i)

theorem fst_of_mem_edgesOut {f : Function n} {block : BasicBlock n} {edge : BlockId × Nat}
    (hmem : edge ∈ f.edgesOut block) : edge.1 = block.id := by
  rw [edgesOut] at hmem
  split at hmem
  next => cases hmem
  next =>
    split at hmem
    next => cases hmem
    next =>
      obtain ⟨i, -, rfl⟩ := List.mem_map.mp hmem
      rfl

theorem WellFormed.nodup_criticalEdges (f : Function n) : f.criticalEdges.Nodup := by
  change (f.blocks.flatMap f.edgesOut).Nodup
  refine nodup_flatMap.mpr ⟨fun block _ => ?_, ?_⟩
  · rw [edgesOut]
    split
    next => exact nodup_nil
    next =>
      split
      next => exact nodup_nil
      next => exact (nodup_range.filter _).map fun _ _ hsame => (Prod.mk.inj hsame).2
  · refine (pairwise_map.mp f.nodupIds).imp fun {block other} hne => ?_
    exact disjoint_left.mpr fun edge hedge hedge' =>
      hne ((fst_of_mem_edgesOut hedge).symm.trans (fst_of_mem_edgesOut hedge'))

structure Splitting (f : Function n) (cfg : CFG n) (remaining : List (BlockId × Nat)) : Prop where
  wellFormed : WellFormed cfg.toFunction
  formed : cfg.toFunction.Formed
  entryBlock : cfg.entryBlock = f.entryBlock
  relocated : ∃ source, f.Relocated cfg.toFunction source
  runs : ∀ {V W : Type} (exec : Request V → W → Outcome V W),
    (∀ world, exec Request.branch world = .jump 0 world) → ∀ id ∈ f.blockIds,
      ∀ regs world, InterposedRuns exec f cfg.toFunction id regs world
  nodup : remaining.Nodup
  edges : ∀ edge ∈ remaining, edge.1 ∈ f.blockIds ∧
    ∃ succ ∈ f.blockIds, (cfg.succs edge.1)[edge.2]? = some succ
  critical : ∀ id i succ, (cfg.succs id)[i]? = some succ → 1 < (cfg.succs id).length →
    1 < (cfg.inEdges succ).length → (id, i) ∈ remaining

theorem Splitting.splitEdge {f : Function n} {cfg : CFG n}
    {rest : List (BlockId × Nat)} (h : Splitting f cfg (edge :: rest)) (hlinked : f.linked = true) :
    Splitting f (cfg.splitEdge edge) rest := by
  obtain ⟨hpred, succ, hsucc, hedge⟩ := h.edges edge mem_cons_self
  obtain ⟨hnot, hnodup⟩ := nodup_cons.mp h.nodup
  have hto : cfg.edgeTo? edge = some succ := (h.wellFormed.edgeTo?_eq h.formed edge).trans hedge
  have hfunction : (cfg.splitEdge edge).toFunction =
      cfg.toFunction.splitEdge edge.1 edge.2 succ cfg.nextBlockId cfg.nextBlockId_not_mem := by
    unfold CFG.splitEdge
    split
    next hnone => simp [hto] at hnone
    next other hother =>
      obtain rfl := Option.some.inj (hto.symm.trans hother)
      rfl
  have hsplit := h.wellFormed.split h.formed hto cfg.nextBlockId_not_mem
  rw [← hfunction] at hsplit
  obtain ⟨source, hrelocated⟩ := h.relocated
  refine ⟨hsplit.wellFormed_split, hsplit.formed_split, hsplit.entryBlock.trans h.entryBlock,
    ⟨_, hrelocated.split hlinked hsplit hpred hsucc⟩, fun exec hexec id hid regs world =>
      ?_, hnodup,
    fun other hother => ?_, fun id i target hget hout hin => ?_⟩
  · exact (h.runs exec hexec id hid regs world).trans
      (hsplit.interposedRuns hexec (hrelocated.blockIds id hid) regs world)
  · obtain ⟨hmem, target, htarget, hget⟩ := h.edges other (mem_cons_of_mem _ hother)
    refine ⟨hmem, target, htarget, ?_⟩
    rw [hsplit.succs_eq (hsplit.ne_split (hrelocated.blockIds _ hmem))]
    split
    next hsame =>
      have hne : edge.2 ≠ other.2 := fun hindex => hnot (Prod.ext hsame.symm hindex ▸ hother)
      rwa [getElem?_set_ne hne]
    next => exact hget
  · obtain ⟨hget', hout', hin', hne⟩ := hsplit.critical_of_split hget hout hin
    exact (mem_cons.mp (h.critical id i target hget' hout' hin')).resolve_left hne

/-- The pass leaves no critical edge and a function that the verifier accepts, with the operands of
phis listed for the blocks that the edges come from now, and it only adds branches to runs. -/
theorem splitCriticalEdges_correct (cfg : CFG n) (hcheck : checkFunc cfg.toFunction = true)
    (hformed : cfg.toFunction.Formed) :
    (∀ id succ, succ ∈ cfg.splitCriticalEdges.succs id →
      1 < (cfg.splitCriticalEdges.succs id).length →
        (cfg.splitCriticalEdges.inEdges succ).length ≤ 1) ∧
    checkFunc cfg.splitCriticalEdges.toFunction = true ∧
    (∃ source, cfg.toFunction.Relocated cfg.splitCriticalEdges.toFunction source) ∧
    cfg.splitCriticalEdges.entryBlock = cfg.entryBlock ∧
    ∀ {V W : Type} (exec : Request V → W → Outcome V W),
      (∀ world, exec Request.branch world = .jump 0 world) → ∀ regs world,
        InterposedRuns exec cfg.toFunction cfg.splitCriticalEdges.toFunction cfg.entryBlock regs
          world := by
  have hf := checkFunc_iff.mp hcheck
  have hlinked := hf.cfg.linked
  have hstart : Splitting cfg.toFunction cfg cfg.criticalEdges := by
    refine ⟨hf, hformed, rfl, ⟨_, .refl _⟩, fun exec _ id _ regs world =>
      .refl exec _ id regs world,
      WellFormed.nodup_criticalEdges _, fun edge hedge => ?_, fun id i succ hget hout hin => ?_⟩
    · obtain ⟨-, succ, hget, -⟩ := (hf.mem_criticalEdges hformed).mp hedge
      have hsucc := mem_of_getElem? hget
      exact ⟨mem_blockIds_of_mem_inEdges (mem_inEdges.mpr hsucc), succ,
        mem_blockIds_of_linked hlinked hsucc, hget⟩
    · exact (hf.mem_criticalEdges hformed).mpr ⟨hout, succ, hget, hin⟩
  have hfold : ∀ (edges : List (BlockId × Nat)) (cfg' : CFG n),
      Splitting cfg.toFunction cfg' edges →
        Splitting cfg.toFunction (edges.foldl CFG.splitEdge cfg') [] := by
    intro edges
    induction edges with
    | nil => exact fun _ h => h
    | cons edge rest ih => exact fun cfg' h => ih _ (h.splitEdge hlinked)
  have hdone : Splitting cfg.toFunction cfg.splitCriticalEdges [] := hfold _ _ hstart
  refine ⟨fun id succ hsucc hout => ?_, checkFunc_iff.mpr hdone.wellFormed, hdone.relocated,
    hdone.entryBlock, fun exec hexec regs world => hdone.runs exec hexec _ hf.cfg.entry regs world⟩
  by_contra hin
  obtain ⟨i, hi⟩ := mem_iff_getElem?.mp hsucc
  simpa using hdone.critical id i succ hi hout (Nat.lt_of_not_le hin)

def shortcut : CFG 3 where
  toFunction := .ofObjects [
    ⟨0, [{ opcode := .kLoadConst, output := some 0 },
      { opcode := .kCondBranch, operands := [0], successors := [1, 2] }]⟩,
    ⟨1, [{ opcode := .kLoadConst, output := some 1 }, { opcode := .kBranch, successors := [2] }]⟩,
    ⟨2, [{ opcode := .kPhi, output := some 2, operands := [0, 1], basicBlocks := [0, 1] },
      { opcode := .kReturn, operands := [2] }]⟩] (by decide)
  nextBlockId := 3
  fresh := by decide

def takesSecond (request : Request Nat) (world : Nat) : Outcome Nat Nat :=
  match request.opcode with
  | .kBranch => .jump 0 world
  | .kCondBranch => .jump 1 world
  | .kReturn => .leave (request.operands.headD world)
  | _ => .next world world

theorem splitCriticalEdges_correct_shortcut :
    shortcut.criticalEdges = [(0, 1)] ∧ checkFunc shortcut.splitCriticalEdges.toFunction = true ∧
      InterposedRuns takesSecond shortcut.toFunction shortcut.splitCriticalEdges.toFunction 0
        (fun _ => 0) 7 := by
  have h := splitCriticalEdges_correct shortcut (by decide) ⟨by decide, by decide⟩
  exact ⟨by decide, h.2.1, h.2.2.2.2 takesSecond (fun _ => rfl) (fun _ => 0) 7⟩

end CinderX.Jit.Hir
