import CinderX.Jit.Hir.Trampolines

/-!
# Removing trampolines keeps the meaning

The two functions run in step except in the trampolines, which the new one does
not have.
-/

namespace CinderX.Jit.Hir

open List Hir.Function

variable {n : Nat} {f : Function n} {V W : Type} {id succ target : BlockId}

/-- Branches and snapshots only say where to go on and what the frame is there; a conditional
branch does nothing else either. -/
structure RunsBranches (exec : Request V → W → Outcome V W) : Prop where
  branch : ∀ (request : Request V) (world : W), request.opcode = .kBranch →
    exec request world = .jump 0 world
  condBranch : ∀ (request : Request V) (world : W), request.opcode.isCondBranch = true →
    ∃ edge < 2, exec request world = .jump edge world
  snapshot : ∀ (request : Request V) (world : W), request.opcode = .kSnapshot →
    ∃ value, exec request world = .next value world

def Opcode.isCfgOnly (opcode : Opcode) : Bool :=
  opcode = .kBranch || opcode = .kSnapshot || opcode.isCondBranch

/-- The requests of the second list are those of the first without some branches and snapshots,
and some conditional branches are branches. -/
inductive Trims : List (Request V) → List (Request V) → Prop
  | nil : Trims [] []
  | keep {request : Request V} {old new : List (Request V)} (h : Trims old new) :
      Trims (request :: old) (request :: new)
  | drop {request : Request V} {old new : List (Request V)}
      (hopcode : request.opcode.isCfgOnly = true) (h : Trims old new) :
      Trims (request :: old) new
  | branch {request request' : Request V} {old new : List (Request V)}
      (hopcode : request.opcode.isCondBranch = true) (hopcode' : request'.opcode = .kBranch)
      (h : Trims old new) : Trims (request :: old) (request' :: new)

namespace Trims

variable {old new old' new' : List (Request V)}

theorem refl (requests : List (Request V)) : Trims requests requests := by
  induction requests with
  | nil => exact .nil
  | cons request rest ih => exact .keep ih

theorem append (h : Trims old new) (h' : Trims old' new') : Trims (old ++ old') (new ++ new') := by
  induction h with
  | nil => exact h'
  | keep _ ih => exact .keep ih
  | drop hopcode _ ih => exact .drop hopcode ih
  | branch hopcode hopcode' _ ih => exact .branch hopcode hopcode' ih

theorem of_dropped {dropped : List (Request V)}
    (h : ∀ request ∈ dropped, request.opcode.isCfgOnly = true) (h' : Trims old new) :
    Trims (dropped ++ old) new := by
  induction dropped with
  | nil => exact h'
  | cons request rest ih =>
    exact .drop (h request mem_cons_self) (ih fun other hother =>
      h other (mem_cons_of_mem _ hother))

end Trims

def requests {n : Nat} (run : List (Event n V) × Result W) : List (Request V) :=
  run.1.map Event.request

/-! ## One block -/

def Exit.rename (rename : BlockId → BlockId) : Exit n V W → Exit n V W
  | .jump succ regs world => .jump (rename succ) regs world
  | .leave world => .leave world
  | .stuck => .stuck

section

variable {exec : Request V → W → Outcome V W} (hexec : RunsBranches exec)

include hexec

variable {last : Instr n}

theorem RunsBranches.execInstrs_redirected {rename : BlockId → BlockId}
    (hshape : last.WellShaped) (regs : Register n → V) (world : W) :
    Trims ((execInstrs exec [last] regs world).1.map Event.request)
        ((execInstrs exec [last.redirected rename] regs world).1.map Event.request) ∧
      (execInstrs exec [last.redirected rename] regs world).2 =
        (execInstrs exec [last] regs world).2.rename rename := by
  have hretarget : Trims ((execInstrs exec [last] regs world).1.map Event.request)
        ((execInstrs exec [last.retarget rename] regs world).1.map Event.request) ∧
      (execInstrs exec [last.retarget rename] regs world).2 =
        (execInstrs exec [last] regs world).2.rename rename := by
    simp only [execInstrs, show (last.retarget rename).request regs = last.request regs from rfl]
    cases exec (last.request regs) world with
    | next value world' => exact ⟨.refl _, rfl⟩
    | leave world' => exact ⟨.refl _, rfl⟩
    | jump edge world' =>
      refine ⟨.refl _, ?_⟩
      simp only [Instr.retarget, getElem?_map]
      cases last.successors[edge]? <;> rfl
  unfold Instr.redirected
  split
  case h_2 => exact hretarget
  case h_1 first second hsucc =>
    split
    case isFalse => exact hretarget
    case isTrue hsame =>
      have hopcode : last.opcode.isCondBranch = true := by
        have hedges := hshape.edges
        rw [hsucc] at hedges
        cases hopcode : last.opcode <;> simp_all [Opcode.numEdges, Opcode.isCondBranch]
      obtain ⟨edge, hedge, hjump⟩ := hexec.condBranch (last.request regs) world hopcode
      have hbranch := hexec.branch (Instr.request (n := n)
        { opcode := .kBranch, successors := [rename first] } regs) world rfl
      simp only [execInstrs, hjump, hbranch]
      refine ⟨.branch hopcode rfl .nil, ?_⟩
      obtain rfl | rfl : edge = 0 ∨ edge = 1 := by omega
      · simp [hsucc, Exit.rename]
      · simp [hsucc, Exit.rename, hsame]

theorem RunsBranches.execInstrs_trimmed {middle : List (Instr n)}
    (rename : BlockId → BlockId) (hmiddle : ∀ instr ∈ middle, instr.successors = [])
    (hshape : last.WellShaped) (regs : Register n → V) (world : W) :
    Trims ((execInstrs exec (middle ++ [last]) regs world).1.map Event.request)
        ((execInstrs exec (middle ++ [last.redirected rename]) regs world).1.map Event.request) ∧
      (execInstrs exec (middle ++ [last.redirected rename]) regs world).2 =
        (execInstrs exec (middle ++ [last]) regs world).2.rename rename := by
  induction middle generalizing regs world with
  | nil => exact hexec.execInstrs_redirected hshape regs world
  | cons instr rest ih =>
    obtain ⟨hfirst, hrest⟩ := forall_mem_cons.mp hmiddle
    simp only [cons_append, execInstrs]
    cases exec (instr.request regs) world with
    | next value world' =>
      obtain ⟨hevents, hexit⟩ := ih hrest (instr.assign value regs) world'
      exact ⟨.keep hevents, hexit⟩
    | jump edge world' =>
      refine ⟨.refl _, ?_⟩
      simp [hfirst, Exit.rename]
    | leave world' => exact ⟨.refl _, rfl⟩

theorem RunsBranches.execInstrs_trampoline {snapshots : List (Instr n)} {branch : Instr n}
    (hsnapshots : ∀ snapshot ∈ snapshots, snapshot.opcode = .kSnapshot ∧ snapshot.output = none)
    (hbranch : branch.opcode = .kBranch) (hsucc : branch.successors = [succ])
    (regs : Register n → V) (world : W) :
    (∀ event ∈ (execInstrs exec (snapshots ++ [branch]) regs world).1,
        event.request.opcode.isCfgOnly = true) ∧
      (execInstrs exec (snapshots ++ [branch]) regs world).2 = .jump succ regs world := by
  induction snapshots with
  | nil =>
    have hjump := hexec.branch (branch.request regs) world hbranch
    simp only [nil_append, execInstrs, hjump]
    refine ⟨fun event hevent => ?_, by simp [hsucc]⟩
    obtain rfl := mem_singleton.mp hevent
    simp [Instr.request, hbranch, Opcode.isCfgOnly]
  | cons snapshot rest ih =>
    obtain ⟨hopcode, houtput⟩ := hsnapshots snapshot mem_cons_self
    obtain ⟨value, hnext⟩ := hexec.snapshot (snapshot.request regs) world hopcode
    have hassign : snapshot.assign value regs = regs := by
      funext reg
      simp [Instr.assign, houtput]
    obtain ⟨hevents, hexit⟩ := ih fun other hother => hsnapshots other (mem_cons_of_mem _ hother)
    simp only [cons_append, execInstrs, hnext, hassign]
    refine ⟨fun event hevent => ?_, hexit⟩
    obtain rfl | hevent := mem_cons.mp hevent
    · simp [Instr.request, hopcode, Opcode.isCfgOnly]
    · exact hevents event hevent

end

theorem BasicBlock.phis_concat (id : BlockId) (front : List (Instr n)) {last : Instr n}
    (hlast : last.isPhi = false) : BasicBlock.phis ⟨id, front ++ [last]⟩ =
        front.takeWhile Instr.isPhi ∧
      BasicBlock.body ⟨id, front ++ [last]⟩ = front.dropWhile Instr.isPhi ++ [last] := by
  unfold phis body
  induction front with
  | nil => simp [hlast]
  | cons first rest ih =>
    obtain ⟨htake, hdrop⟩ := ih
    simp only at htake hdrop
    cases hfirst : first.isPhi <;> simp [hfirst, htake, hdrop]

variable {block : BasicBlock n}

theorem BasicBlock.takeEdge_of_phis {other : BasicBlock n} (h : block.phis = other.phis) :
    (block.takeEdge id : (Register n → V) → Register n → V) = other.takeEdge id := by
  unfold BasicBlock.takeEdge
  rw [h]

theorem BasicBlock.takeEdge_of_nil (h : block.phis = []) (regs : Register n → V) :
    block.takeEdge id regs = regs := by
  funext reg
  simp [BasicBlock.takeEdge, h]

variable {exec : Request V → W → Outcome V W} {regs : Register n → V} {world : W}
  {regs' : Register n → V} {world' : W}

theorem Function.run_jump {target : BasicBlock n} (hblock : f.block? id = some block)
    (htarget : f.block? succ = some target)
    (hexit : (execInstrs exec block.body regs world).2 = .jump succ regs' world') (fuel : Nat) :
    f.run exec (fuel + 1) id regs world =
      ((execInstrs exec block.body regs world).1 ++
          (f.run exec fuel succ (target.takeEdge id regs') world').1,
        (f.run exec fuel succ (target.takeEdge id regs') world').2) := by
  cases hrun : execInstrs exec block.body regs world with
  | mk events exit =>
    obtain rfl : exit = .jump succ regs' world' := by simpa [hrun] using hexit
    simp only [run, hblock, hrun, htarget]

theorem Function.run_end (hblock : f.block? id = some block)
    (hexit : ∀ succ regs' world', (execInstrs exec block.body regs world).2 ≠ .jump succ regs'
      world')
    (fuel : Nat) : f.run exec (fuel + 1) id regs world =
      ((execInstrs exec block.body regs world).1,
        match (execInstrs exec block.body regs world).2 with
        | .leave world => .leave world
        | _ => .stuck) := by
  cases hrun : execInstrs exec block.body regs world with
  | mk events exit =>
    cases exit with
    | jump succ regs' world' => exact absurd (by rw [hrun]) (hexit succ regs' world')
    | leave world' => simp only [run, hblock, hrun]
    | stuck => simp only [run, hblock, hrun]

theorem mem_successors_of_jump {instrs : List (Instr n)}
    (h : (execInstrs exec instrs regs world).2 = .jump succ regs' world') :
    ∃ instr ∈ instrs, succ ∈ instr.successors := by
  induction instrs generalizing regs world with
  | nil => simp [execInstrs] at h
  | cons instr rest ih =>
    simp only [execInstrs] at h
    cases hresult : exec (instr.request regs) world with
    | next value world' =>
      simp only [hresult] at h
      obtain ⟨other, hother, hsucc⟩ := ih h
      exact ⟨other, mem_cons_of_mem _ hother, hsucc⟩
    | jump edge world' =>
      simp only [hresult] at h
      cases hedge : instr.successors[edge]? with
      | none => simp [hedge] at h
      | some other =>
        obtain ⟨rfl, -⟩ : other = succ ∧ _ := by simpa [hedge] using h
        exact ⟨instr, mem_cons_self, mem_of_getElem? hedge⟩
    | leave world' => simp [hresult] at h

namespace InSsaForm

variable {removed : List BlockId} {rename : BlockId → BlockId}

theorem body_ends {block : BasicBlock n} {front : List (Instr n)} {last : Instr n}
    (hends : block.Ends front last) (rename : BlockId → BlockId) :
    block.body = front.dropWhile Instr.isPhi ++ [last] ∧
      BasicBlock.phis ⟨block.id, block.trimmed rename⟩ = block.phis ∧
      BasicBlock.body ⟨block.id, block.trimmed rename⟩ =
        front.dropWhile Instr.isPhi ++ [last.redirected rename] := by
  have hterm : (last.redirected rename).opcode.isTerminator = true := hends.redirected_isTerminator
  have hold := BasicBlock.phis_concat block.id front
    (Instr.not_isPhi_of_isTerminator hends.terminator)
  have hnew := BasicBlock.phis_concat block.id front (Instr.not_isPhi_of_isTerminator hterm)
  rw [← hends.split] at hold
  rw [← hends.trimmed_eq] at hnew
  exact ⟨hold.2, hnew.1.trans hold.1.symm, hnew.2⟩

variable (h : InSsaForm f) (hredirected : f.Redirected removed rename)
  {exec : Request V → W → Outcome V W} (hexec : RunsBranches exec)

include h hredirected hexec

theorem run_in_trampoline (hid : id ∈ removed) (hmem : id ∈ f.blockIds) (regs : Register n → V)
    (world : W) : ∃ succ events, f.succs id = [succ] ∧ rename id = rename succ ∧
      (∀ event ∈ events, event.request.opcode.isCfgOnly = true) ∧
      ∀ fuel, f.run exec (fuel + 1) id regs world =
        (events ++ (f.run exec fuel succ regs world).1, (f.run exec fuel succ regs world).2) := by
  obtain ⟨succ, block, hblock, htrampoline, hfree, hsuccs, hrename⟩ :=
    h.rename_trampoline hredirected hid hmem
  obtain ⟨snapshots, branch, hinstrs, hsnapshots, hbranch, hsucc⟩ := htrampoline.split
  have hin := mem_blocks_of_block? hblock
  have hbody : block.body = snapshots ++ [branch] := by
    rw [← hinstrs, block.instrs_eq, htrampoline.phis_eq_nil, nil_append]
  have hnothing : ∀ snapshot ∈ snapshots,
      snapshot.opcode = .kSnapshot ∧ snapshot.output = none := by
    intro snapshot hsnapshot
    have hopcode := hsnapshots snapshot hsnapshot
    exact ⟨hopcode,
      (h.wellShaped block hin snapshot (by simp [hinstrs, hsnapshot])).snapshot hopcode⟩
  obtain ⟨hevents, hexit⟩ := hexec.execInstrs_trampoline hnothing hbranch hsucc regs world
  rw [← hbody] at hevents hexit
  have hedge : succ ∈ f.succs id := by simp [hsuccs]
  have hsuccMem := mem_blockIds_of_linked h.wellFormed.cfg.linked hedge
  obtain ⟨target, htarget⟩ := Option.isSome_iff_exists.mp (block?_isSome.mpr hsuccMem)
  refine ⟨succ, _, hsuccs, hrename, hevents, fun fuel => ?_⟩
  rw [run_jump hblock htarget hexit, BasicBlock.takeEdge_of_nil (hfree target htarget)]

omit hexec in
theorem takeEdge_trimmed (hsucc : succ ∈ f.blockIds) {block target : BasicBlock n}
    (hblock : f.block? succ = some block)
    (htarget : (f.trimmed removed rename).block? (rename succ) = some target) :
    (target.takeEdge id : (Register n → V) → Register n → V) = block.takeEdge id := by
  refine BasicBlock.takeEdge_of_phis ?_
  obtain ⟨old, hold, hnot, rfl⟩ :=
    mem_trimmed.mp (mem_blocks_of_block? htarget)
  have hid : old.id = rename succ := by simpa using id_of_block? htarget
  obtain ⟨front, last, hends⟩ := h.ends hold
  rw [(body_ends hends rename).2.1]
  by_cases hremoved : succ ∈ removed
  · have hleads := hredirected.leads succ hsucc
    rw [hleads.phiFree hremoved block hblock]
    exact hleads.phiFree_target hremoved old (hid ▸ block?_of_mem hold)
  · rw [hredirected.rename_self succ hremoved] at hid
    rw [← hid, block?_of_mem hold] at hblock
    rw [Option.some.inj hblock]

theorem run_together (hid : id ∉ removed) (hmem : id ∈ f.blockIds) (regs : Register n → V)
    (world : W) : ∃ old new : List (Event n V),
      Trims (old.map Event.request) (new.map Event.request) ∧
      ((∃ result, ∀ fuel, f.run exec (fuel + 1) id regs world = (old, result) ∧
          (f.trimmed removed rename).run exec (fuel + 1) id regs world = (new, result)) ∨
        ∃ succ ∈ f.blockIds, ∃ regs' world', ∀ fuel,
          f.run exec (fuel + 1) id regs world =
            (old ++ (f.run exec fuel succ regs' world').1,
              (f.run exec fuel succ regs' world').2) ∧
          (f.trimmed removed rename).run exec (fuel + 1) id regs world =
            (new ++ ((f.trimmed removed rename).run exec fuel (rename succ) regs' world').1,
              ((f.trimmed removed rename).run exec fuel (rename succ) regs' world').2)) := by
  obtain ⟨block, hblock⟩ := Option.isSome_iff_exists.mp (block?_isSome.mpr hmem)
  have hin := mem_blocks_of_block? hblock
  obtain rfl := id_of_block? hblock
  obtain ⟨front, last, hends⟩ := h.ends hin
  obtain ⟨hbody, -, hbody'⟩ := body_ends hends rename
  have hblock' := block?_trimmed hin hid rename
  have hplain : ∀ instr ∈ front.dropWhile Instr.isPhi, instr.successors = [] :=
    fun instr hinstr => (hends.plain instr (dropWhile_subset _ hinstr)).2
  obtain ⟨htrims, hexit'⟩ := hexec.execInstrs_trimmed rename hplain hends.shape regs world
  rw [← hbody, ← hbody'] at htrims hexit'
  refine ⟨_, _, htrims, ?_⟩
  cases hexit : (execInstrs exec block.body regs world).2 with
  | jump succ regs' world' =>
    rw [hexit] at hexit'
    obtain ⟨instr, hinstr, hsuccInstr⟩ := mem_successors_of_jump hexit
    have hedge : succ ∈ f.succs block.id := by
      rw [succs_of_mem hin]
      exact mem_flatMap.mpr
        ⟨instr, block.instrs_eq ▸ mem_append_right _ hinstr, hsuccInstr⟩
    have hsucc := mem_blockIds_of_linked h.wellFormed.cfg.linked hedge
    obtain ⟨target, htarget⟩ := Option.isSome_iff_exists.mp (block?_isSome.mpr hsucc)
    have hleads := hredirected.leads succ hsucc
    obtain ⟨target', htarget'⟩ := Option.isSome_iff_exists.mp (block?_isSome.mpr
      (mem_blockIds_trimmed.mpr ⟨h.mem_blockIds_of_leads hleads hsucc, hleads.not_mem⟩))
    refine .inr ⟨succ, hsucc, target.takeEdge block.id regs', world', fun fuel => ?_⟩
    refine ⟨run_jump hblock htarget hexit fuel, ?_⟩
    rw [run_jump hblock' htarget' hexit' fuel,
      h.takeEdge_trimmed hredirected hsucc htarget htarget']
  | leave world' =>
    rw [hexit] at hexit'
    refine .inl ⟨.leave world', fun fuel => ⟨?_, ?_⟩⟩
    · rw [run_end hblock (by simp [hexit]), hexit]
    · rw [run_end hblock' (by simp [hexit', Exit.rename]), hexit']
      rfl
  | stuck =>
    rw [hexit] at hexit'
    refine .inl ⟨.stuck, fun fuel => ⟨?_, ?_⟩⟩
    · rw [run_end hblock (by simp [hexit]), hexit]
    · rw [run_end hblock' (by simp [hexit', Exit.rename]), hexit']
      rfl

end InSsaForm

/-- Every run of one function is matched by one of the other, in both directions. -/
def SameRuns {m : Nat} (exec : Request V → W → Outcome V W) (f : Function n) (g : Function m)
    (id id' : BlockId) (regs : Register n → V) (regs' : Register m → V) (world : W) : Prop :=
  (∀ fuel, ∃ fuel', Trims (requests (f.run exec fuel id regs world))
      (requests (g.run exec fuel' id' regs' world)) ∧
    (f.run exec fuel id regs world).2 = (g.run exec fuel' id' regs' world).2) ∧
  ∀ fuel', ∃ fuel, Trims (requests (f.run exec fuel id regs world))
      (requests (g.run exec fuel' id' regs' world)) ∧
    (f.run exec fuel id regs world).2 = (g.run exec fuel' id' regs' world).2

namespace InSsaForm

variable {removed : List BlockId} {rename : BlockId → BlockId} (h : InSsaForm f)
  (hredirected : f.Redirected removed rename) {exec : Request V → W → Outcome V W}
  (hexec : RunsBranches exec)

include h hredirected hexec

theorem run_trimmed_of_run (fuel : Nat) (hmem : id ∈ f.blockIds) (regs : Register n → V)
    (world : W) : ∃ fuel', Trims (requests (f.run exec fuel id regs world))
        (requests ((f.trimmed removed rename).run exec fuel' (rename id) regs world)) ∧
      (f.run exec fuel id regs world).2 =
        ((f.trimmed removed rename).run exec fuel' (rename id) regs world).2 := by
  induction fuel generalizing id regs world with
  | zero => exact ⟨0, .nil, rfl⟩
  | succ fuel ih =>
    by_cases hid : id ∈ removed
    · obtain ⟨succ, events, hsuccs, hrename, hevents, hrun⟩ :=
        h.run_in_trampoline hredirected hexec hid hmem regs world
      have hedge : succ ∈ f.succs id := by simp [hsuccs]
      have hsucc := mem_blockIds_of_linked h.wellFormed.cfg.linked hedge
      obtain ⟨fuel', htrims, hresult⟩ := ih hsucc regs world
      refine ⟨fuel', ?_, ?_⟩
      · rw [hrun, hrename, requests, map_append]
        refine .of_dropped (fun request hrequest => ?_) htrims
        obtain ⟨event, hevent, rfl⟩ := List.mem_map.mp hrequest
        exact hevents event hevent
      · rw [hrun, hrename]
        exact hresult
    · obtain ⟨old, new, htrims, ⟨result, hend⟩ | ⟨succ, hsucc, regs', world', hjump⟩⟩ :=
        h.run_together hredirected hexec hid hmem regs world
      · refine ⟨fuel + 1, ?_⟩
        rw [hredirected.rename_self id hid, (hend fuel).1, (hend fuel).2]
        exact ⟨htrims, rfl⟩
      · obtain ⟨fuel', hlater, hresult⟩ := ih hsucc regs' world'
        refine ⟨fuel' + 1, ?_⟩
        rw [hredirected.rename_self id hid, (hjump fuel).1, (hjump fuel').2, requests, requests,
          map_append, map_append]
        exact ⟨htrims.append hlater, hresult⟩

theorem run_of_run_trimmed (fuel : Nat) (hmem : id ∈ f.blockIds) (regs : Register n → V)
    (world : W) : ∃ fuel', Trims (requests (f.run exec fuel' id regs world))
        (requests ((f.trimmed removed rename).run exec fuel (rename id) regs world)) ∧
      (f.run exec fuel' id regs world).2 =
        ((f.trimmed removed rename).run exec fuel (rename id) regs world).2 := by
  induction fuel generalizing id regs world with
  | zero => exact ⟨0, .nil, rfl⟩
  | succ fuel ih =>
    -- the old function goes through the trampolines first
    have hleads := hredirected.leads id hmem
    generalize htarget : rename id = target at hleads ⊢
    induction hleads with
    | @refl id hid =>
      obtain ⟨old, new, htrims, ⟨result, hend⟩ | ⟨succ, hsucc, regs', world', hjump⟩⟩ :=
        h.run_together hredirected hexec hid hmem regs world
      · refine ⟨fuel + 1, ?_⟩
        rw [(hend fuel).1, (hend fuel).2]
        exact ⟨htrims, rfl⟩
      · obtain ⟨fuel', hlater, hresult⟩ := ih hsucc regs' world'
        refine ⟨fuel' + 1, ?_⟩
        rw [(hjump fuel').1, (hjump fuel).2, requests, requests, map_append,
          map_append]
        exact ⟨htrims.append hlater, hresult⟩
    | @step id next target block hid hblock htrampoline hphis hrest ihLeads =>
      obtain ⟨succ, events, hsuccs, hrename, hevents, hrun⟩ :=
        h.run_in_trampoline hredirected hexec hid hmem regs world
      obtain rfl : succ = next := by
        rw [(h.outputsOf_trampoline hblock htrampoline).2] at hsuccs
        simpa using hsuccs.symm
      have hedge : succ ∈ f.succs id := by simp [hsuccs]
      have hsucc := mem_blockIds_of_linked h.wellFormed.cfg.linked hedge
      obtain ⟨fuel', htrims, hresult⟩ := ihLeads hsucc (hrename.symm.trans htarget)
      refine ⟨fuel' + 1, ?_, ?_⟩
      · rw [hrun, requests, map_append]
        refine .of_dropped (fun request hrequest => ?_) htrims
        obtain ⟨event, hevent, rfl⟩ := List.mem_map.mp hrequest
        exact hevents event hevent
      · rw [hrun]
        exact hresult

theorem sameRuns_trimmed (hmem : id ∈ f.blockIds) (regs : Register n → V) (world : W) :
    SameRuns exec f (f.trimmed removed rename) id (rename id) regs regs world :=
  ⟨fun fuel => h.run_trimmed_of_run hredirected hexec fuel hmem regs world,
    fun fuel => h.run_of_run_trimmed hredirected hexec fuel hmem regs world⟩

end InSsaForm

end CinderX.Jit.Hir
