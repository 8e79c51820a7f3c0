import CinderX.Jit.Hir.DeadCodeSound

/-!
# Trampoline blocks

Blocks that only jump on are removed, and conditional branches both edges of
which then lead to one block become branches.
-/

namespace CinderX.Jit.Hir

open List Hir.Function Instr

variable {n : Nat} {f g : Function n} {id succ target : BlockId}

def Instr.retarget (rename : BlockId → BlockId) (instr : Instr n) : Instr n :=
  { instr with successors := instr.successors.map rename }

namespace Function

def redirect (f : Function n) (removed : List BlockId) (rename : BlockId → BlockId) :
    Function n where
  blocks := (f.blocks.filter fun block => block.id ∉ removed).map fun block =>
    ⟨block.id, block.instrs.map (Instr.retarget rename)⟩
  entryBlock := rename f.entryBlock
  nodupIds := by
    rw [List.map_map]
    exact (filter_sublist.map _).nodup f.nodupIds
  couldBeMortal := f.couldBeMortal
  isObject := f.isObject
  couldBeCPtr := f.couldBeCPtr

def startsWithPhi (f : Function n) (id : BlockId) : Bool :=
  (f.block? id).any fun block => block.instrs.head?.any Instr.isPhi

/-- `IsTrampoline` of a block with these instructions, and where it leads. -/
def trampolineTo (f : Function n) (id : BlockId) : List (Instr n) → Option BlockId
  | [] => none
  | instr :: rest =>
    if instr.opcode = .kBranch then
      instr.successors.head?.filter fun succ => succ ≠ id && !f.startsWithPhi succ
    else if instr.opcode = .kSnapshot then f.trampolineTo id rest
    else none

def removeTrampoline (f : Function n) (id : BlockId) : Function n :=
  match (f.block? id).bind fun block => f.trampolineTo id block.instrs with
  | none => f
  | some succ =>
    if id = f.entryBlock ∧ 1 < (f.inEdges succ).length then f
    else f.redirect [id] fun other => if other = id then succ else other

def removeTrampolines (f : Function n) : Function n :=
  f.blockIds.foldl removeTrampoline f

end Function

def Opcode.isCondBranch : Opcode → Bool
  | kCondBranch | kCondBranchIterNotDone | kCondBranchCheckType => true
  | _ => false

/-- `none` for a terminator of which it is not known that nothing but the branch is lost. -/
def BasicBlock.simplified (block : BasicBlock n) : Option (List (Instr n)) :=
  match block.terminator? with
  | none => some block.instrs
  | some term =>
    match term.successors with
    | [first, second] =>
      if first ≠ second then some block.instrs
      else if term.opcode.isCondBranch then
        some (block.instrs.dropLast ++ [{ opcode := .kBranch, successors := [first] }])
      else none
    | _ :: _ :: _ :: _ => none
    | _ => some block.instrs

def simplifyRedundantCondBranches (f : Function n) : Option (Function n) :=
  if f.blocks.all fun block => block.simplified.isSome then
    some (f.mapBlocks fun block => block.simplified.getD block.instrs)
  else none

def removeTrampolineBlocks (f : Function n) : Option (Function n) :=
  simplifyRedundantCondBranches f.removeTrampolines

/-! ## Where edges lead -/

structure BasicBlock.Trampoline (block : BasicBlock n) (succ : BlockId) : Prop where
  split : ∃ snapshots branch, block.instrs = snapshots ++ [branch] ∧
    (∀ snapshot ∈ snapshots, snapshot.opcode = .kSnapshot) ∧ branch.opcode = .kBranch ∧
      branch.successors = [succ]

namespace Function

def PhiFree (f : Function n) (id : BlockId) : Prop := ∀ block, f.block? id = some block →
  block.phis = []

inductive Leads (f : Function n) (removed : List BlockId) : BlockId → BlockId → Prop
  | refl {id : BlockId} (h : id ∉ removed) : Leads f removed id id
  | step {id succ target : BlockId} {block : BasicBlock n} (hid : id ∈ removed)
      (hblock : f.block? id = some block) (htrampoline : block.Trampoline succ)
      (hphis : f.PhiFree succ) (h : Leads f removed succ target) : Leads f removed id target

structure Redirected (f : Function n) (removed : List BlockId) (rename : BlockId → BlockId) :
    Prop where
  leads : ∀ id ∈ f.blockIds, f.Leads removed id (rename id)
  rename_self : ∀ id ∉ removed, rename id = id

variable {removed : List BlockId} {rename : BlockId → BlockId}

theorem Leads.not_mem (h : f.Leads removed id target) : target ∉ removed := by
  induction h with
  | refl h => exact h
  | step _ _ _ _ _ ih => exact ih

theorem Leads.cons (h : f.Leads removed id target) (hne : target ≠ succ) :
    f.Leads (succ :: removed) id target := by
  induction h with
  | refl h => exact .refl (by simp [h, hne])
  | step hid hblock htrampoline hphis _ ih =>
    exact .step (mem_cons_of_mem _ hid) hblock htrampoline hphis (ih hne)

theorem Leads.through (h : f.Leads removed id succ)
    (hsucc : f.Leads (succ :: removed) succ target) : f.Leads (succ :: removed) id target := by
  induction h with
  | refl => exact hsucc
  | step hid hblock htrampoline hphis _ ih =>
    exact .step (mem_cons_of_mem _ hid) hblock htrampoline hphis (ih hsucc)

theorem redirect_redirect (removed' : List BlockId) (rename' : BlockId → BlockId) :
    (f.redirect removed rename).redirect removed' rename' =
      f.redirect (removed' ++ removed) (rename' ∘ rename) := by
  simp only [redirect, mk.injEq, and_true, Function.comp_apply]
  rw [List.filter_map, List.map_map, List.filter_filter]
  have hfilter : (f.blocks.filter fun block =>
      (((fun block : BasicBlock n => decide (block.id ∉ removed')) ∘ fun block =>
        ⟨block.id, block.instrs.map (retarget rename)⟩) block && decide (block.id ∉ removed))) =
      f.blocks.filter fun block => block.id ∉ removed' ++ removed := by
    refine filter_congr fun block _ => ?_
    simp [Function.comp_apply]
  rw [hfilter]
  refine map_congr_left fun block _ => ?_
  simp [retarget, Function.comp_def]

theorem redirect_nil : f.redirect [] (fun id => id) = f := by
  have hinstrs : retarget (n := n) (fun id => id) = id := by
    funext instr
    simp [retarget]
  simp [redirect, hinstrs]

theorem block?_redirect (id : BlockId) : (f.redirect removed rename).block? id =
    if id ∈ removed then none
    else (f.block? id).map fun block => ⟨block.id, block.instrs.map (Instr.retarget rename)⟩ := by
  simp only [block?, redirect, find?_map, find?_filter, Function.comp_def]
  by_cases hid : id ∈ removed
  · rw [if_pos hid, Option.map_eq_none_iff, find?_eq_none]
    rintro block - h
    simp only [decide_eq_true_eq, Bool.decide_and, Bool.and_eq_true] at h
    exact h.1 (h.2 ▸ hid)
  · rw [if_neg hid]
    have hpred : (fun block : BasicBlock n => decide (decide (block.id ∉ removed) = true ∧
        decide (block.id = id) = true)) = fun block => decide (block.id = id) := by
      funext block
      by_cases hsame : block.id = id <;> simp [hsame, hid]
    rw [hpred]

end Function

namespace Function

theorem trampolineTo_eq_some {instrs : List (Instr n)} (h : f.trampolineTo id instrs = some succ) :
    ∃ snapshots branch rest, instrs = snapshots ++ branch :: rest ∧
      (∀ snapshot ∈ snapshots, snapshot.opcode = .kSnapshot) ∧ branch.opcode = .kBranch ∧
        branch.successors.head? = some succ ∧ succ ≠ id ∧ f.startsWithPhi succ = false := by
  induction instrs with
  | nil => simp [trampolineTo] at h
  | cons instr rest ih =>
    simp only [trampolineTo] at h
    by_cases hbranch : instr.opcode = .kBranch
    · rw [if_pos hbranch, Option.filter_eq_some_iff] at h
      obtain ⟨hhead, hkeep⟩ := h
      exact ⟨[], instr, rest, rfl, by simp, hbranch, hhead, by simpa using hkeep⟩
    · rw [if_neg hbranch] at h
      by_cases hsnapshot : instr.opcode = .kSnapshot
      · rw [if_pos hsnapshot] at h
        obtain ⟨snapshots, branch, rest, rfl, hall, hfound⟩ := ih h
        exact ⟨instr :: snapshots, branch, rest, rfl, by simpa [hsnapshot] using hall, hfound⟩
      · simp [hsnapshot] at h

theorem phiFree_of_startsWithPhi (h : f.startsWithPhi id = false) : f.PhiFree id := by
  intro block hblock
  unfold BasicBlock.phis
  cases hinstrs : block.instrs with
  | nil => rfl
  | cons first rest =>
    have hfirst : first.isPhi = false := by simpa [startsWithPhi, hblock, hinstrs] using h
    rw [takeWhile_cons_of_neg (by simp [hfirst])]

end Function

variable {block : BasicBlock n}

theorem BasicBlock.Trampoline.phis_eq_nil (h : block.Trampoline succ) : block.phis = [] := by
  obtain ⟨snapshots, branch, hinstrs, hsnapshots, hbranch, -⟩ := h.split
  unfold BasicBlock.phis
  rw [hinstrs]
  cases snapshots with
  | nil => simp [isPhi, hbranch]
  | cons first rest =>
    have hfirst := hsnapshots first mem_cons_self
    simp [isPhi, hfirst]

variable {removed : List BlockId}

theorem Function.Leads.phiFree (h : f.Leads removed id target) (hid : id ∈ removed) :
    f.PhiFree id := by
  cases h with
  | refl h => exact absurd hid h
  | step _ hblock htrampoline _ _ =>
    intro other hother
    obtain rfl := Option.some.inj (hblock.symm.trans hother)
    exact htrampoline.phis_eq_nil

theorem Function.Leads.phiFree_target (h : f.Leads removed id target) (hid : id ∈ removed) :
    f.PhiFree target := by
  induction h with
  | refl h => exact absurd hid h
  | @step id succ target _ _ _ _ hphis hrest ih =>
    by_cases hsucc : succ ∈ removed
    · exact ih hsucc
    · cases hrest with
      | refl => exact hphis
      | step hmem => exact absurd hmem hsucc

theorem BasicBlock.Trampoline.unique {succ' : BlockId} (h : block.Trampoline succ)
    (h' : block.Trampoline succ') : succ = succ' := by
  obtain ⟨snapshots, branch, hinstrs, -, -, hsucc⟩ := h.split
  obtain ⟨snapshots', branch', hinstrs', -, -, hsucc'⟩ := h'.split
  obtain ⟨-, hbranch⟩ := append_inj' (hinstrs.symm.trans hinstrs') rfl
  obtain rfl : branch = branch' := by simpa using hbranch
  simpa [hsucc] using hsucc'

theorem Function.Leads.unique {target' : BlockId} (h : f.Leads removed id target)
    (h' : f.Leads removed id target') : target = target' := by
  induction h with
  | refl hid =>
    cases h' with
    | refl => rfl
    | step hmem => exact absurd hmem hid
  | step hid hblock htrampoline _ _ ih =>
    cases h' with
    | refl hnot => exact absurd hid hnot
    | step _ hblock' htrampoline' _ hrest =>
      obtain rfl := Option.some.inj (hblock.symm.trans hblock')
      obtain rfl := htrampoline.unique htrampoline'
      exact ih hrest

theorem BasicBlock.phis_retarget (block : BasicBlock n) (rename : BlockId → BlockId) :
    BasicBlock.phis ⟨id, block.instrs.map (Instr.retarget rename)⟩ =
      block.phis.map (Instr.retarget rename) := by
  unfold BasicBlock.phis
  rw [takeWhile_map]
  rfl

namespace InSsaForm

variable (h : InSsaForm f) {removed : List BlockId} {rename : BlockId → BlockId}

include h

theorem trampoline_of_split {block : BasicBlock n} (hblock : block ∈ f.blocks)
    {snapshots rest : List (Instr n)} {branch : Instr n}
    (heq : block.instrs = snapshots ++ branch :: rest)
    (hsnapshots : ∀ snapshot ∈ snapshots, snapshot.opcode = .kSnapshot)
    (hbranch : branch.opcode = .kBranch) : ∃ succ, branch.successors = [succ] ∧
      block.Trampoline succ := by
  have hlength := (h.wellShaped block hblock branch (by simp [heq])).edges
  rw [hbranch] at hlength
  obtain ⟨succ, hsucc⟩ := length_eq_one_iff.mp hlength
  have hterm := (h.wellFormed.terminator block hblock snapshots branch rest heq).mp
    (by simp [hbranch, Opcode.isTerminator])
  exact ⟨succ, hsucc, ⟨snapshots, branch, by rw [heq, hterm], hsnapshots, hbranch, hsucc⟩⟩

theorem removeTrampoline_redirect (hredirected : f.Redirected removed rename) (id : BlockId) :
    ∃ removed' rename', (f.redirect removed rename).removeTrampoline id =
      f.redirect removed' rename' ∧ f.Redirected removed' rename' := by
  unfold removeTrampoline
  split
  case h_1 => exact ⟨removed, rename, rfl, hredirected⟩
  case h_2 succ hsucc =>
    split
    case isTrue => exact ⟨removed, rename, rfl, hredirected⟩
    case isFalse =>
      obtain ⟨block', hblock', htarget⟩ := Option.bind_eq_some_iff.mp hsucc
      rw [block?_redirect] at hblock'
      have hid : id ∉ removed := by
        intro hid
        simp [hid] at hblock'
      rw [if_neg hid] at hblock'
      obtain ⟨block, hblock, rfl⟩ := Option.map_eq_some_iff.mp hblock'
      obtain ⟨snapshots', branch', rest', heq, hsnapshots, hbranch, hhead, hne, hphi⟩ :=
        trampolineTo_eq_some htarget
      obtain ⟨snapshots, tail, hinstrs, rfl, htail⟩ := map_eq_append_iff.mp heq
      obtain ⟨branch, rest, rfl, rfl, rfl⟩ := map_eq_cons_iff.mp htail
      have hmem := mem_blocks_of_block? hblock
      obtain ⟨next, hnext, htrampoline⟩ := h.trampoline_of_split hmem hinstrs
        (fun snapshot hsnapshot =>
          hsnapshots (snapshot.retarget rename) (List.mem_map_of_mem hsnapshot)) hbranch
      obtain rfl : rename next = succ := by simpa [retarget, hnext] using hhead
      have hedge : next ∈ f.succs id := by
        rw [succs, hblock]
        exact mem_flatMap.mpr ⟨branch, by simp [hinstrs], by simp [hnext]⟩
      have hleads := hredirected.leads next (mem_blockIds_of_linked h.wellFormed.cfg.linked hedge)
      -- the block behind the trampoline is one as well, or it has been looked at
      have hfree : f.PhiFree next := by
        by_cases hremoved : next ∈ removed
        · exact hleads.phiFree hremoved
        · have hphis := phiFree_of_startsWithPhi hphi
          intro other hother
          have hnew := hphis ⟨other.id, other.instrs.map (retarget rename)⟩ (by
            rw [hredirected.rename_self next hremoved, block?_redirect, if_neg hremoved, hother]
            rfl)
          rwa [BasicBlock.phis_retarget, map_eq_nil_iff] at hnew
      refine ⟨id :: removed, fun other => if rename other = id then rename next else rename other,
        redirect_redirect _ _, ?_, ?_⟩
      · intro other hother
        have hself : f.Leads (id :: removed) id (rename next) :=
          .step mem_cons_self hblock htrampoline hfree (hleads.cons hne)
        by_cases hrename : rename other = id
        · simp only [hrename, if_true]
          exact (hrename ▸ hredirected.leads other hother).through hself
        · simp only [hrename, if_false]
          exact (hredirected.leads other hother).cons hrename
      · intro other hother
        rw [mem_cons, not_or] at hother
        rw [hredirected.rename_self other hother.2, if_neg hother.1]

theorem removeTrampolines_eq : ∃ removed rename,
    f.removeTrampolines = f.redirect removed rename ∧ f.Redirected removed rename := by
  have hfold : ∀ (ids removed : List BlockId) (rename : BlockId → BlockId),
      f.Redirected removed rename → ∃ removed' rename',
        ids.foldl removeTrampoline (f.redirect removed rename) =
          f.redirect removed' rename' ∧ f.Redirected removed' rename' := by
    intro ids
    induction ids with
    | nil => exact fun removed rename hredirected => ⟨removed, rename, rfl, hredirected⟩
    | cons id ids ih =>
      intro removed rename hredirected
      obtain ⟨removed', rename', heq, hnext⟩ := h.removeTrampoline_redirect hredirected id
      rw [foldl_cons, heq]
      exact ih removed' rename' hnext
  have hstart : f.Redirected [] fun id => id :=
    ⟨fun id _ => .refl not_mem_nil, fun _ _ => rfl⟩
  have hall := hfold f.blockIds [] _ hstart
  rwa [redirect_nil] at hall

end InSsaForm

/-! ## The function without the trampolines -/

/-- A terminator with its edges elsewhere, which may be one branch then. -/
def Instr.redirected (rename : BlockId → BlockId) (last : Instr n) : Instr n :=
  match last.successors with
  | [first, second] =>
    if rename first = rename second then { opcode := .kBranch, successors := [rename first] }
    else last.retarget rename
  | _ => last.retarget rename

def BasicBlock.trimmed (rename : BlockId → BlockId) (block : BasicBlock n) : List (Instr n) :=
  block.instrs.dropLast ++ (block.terminator?.map (Instr.redirected rename)).toList

def Function.trimmed (f : Function n) (removed : List BlockId) (rename : BlockId → BlockId) :
    Function n where
  blocks := (f.blocks.filter fun block => block.id ∉ removed).map fun block =>
    ⟨block.id, block.trimmed rename⟩
  entryBlock := rename f.entryBlock
  nodupIds := by
    rw [List.map_map]
    exact (filter_sublist.map _).nodup f.nodupIds
  couldBeMortal := f.couldBeMortal
  isObject := f.isObject
  couldBeCPtr := f.couldBeCPtr

structure BasicBlock.Ends (block : BasicBlock n) (front : List (Instr n)) (last : Instr n) :
    Prop where
  split : block.instrs = front ++ [last]
  plain : ∀ instr ∈ front, instr.opcode.isTerminator = false ∧ instr.successors = []
  terminator : last.opcode.isTerminator = true
  shape : last.WellShaped

namespace BasicBlock.Ends

variable {block : BasicBlock n} {front : List (Instr n)} {last : Instr n}
  {rename : BlockId → BlockId}

theorem outEdges_eq (h : block.Ends front last) : block.outEdges = last.successors := by
  have hfront : front.flatMap successors = [] :=
    flatMap_eq_nil_iff.mpr fun instr hinstr => (h.plain instr hinstr).2
  simp [BasicBlock.outEdges, h.split, hfront]

theorem trimmed_eq (h : block.Ends front last) :
    block.trimmed rename = front ++ [last.redirected rename] := by
  simp [BasicBlock.trimmed, BasicBlock.terminator?, h.split]

theorem retarget_eq (h : block.Ends front last) :
    block.instrs.map (Instr.retarget rename) = front ++ [last.retarget rename] := by
  have hfront : front.map (retarget rename) = front := by
    refine (map_congr_left fun instr hinstr => ?_).trans (List.map_id front)
    have hnil := (h.plain instr hinstr).2
    cases instr
    simp_all [retarget]
  rw [h.split, map_append, hfront]
  rfl

theorem length_successors (h : block.Ends front last) :
    last.successors.length ≤ 2 ∧
      (last.successors.length = 2 → last.opcode.isCondBranch = true) := by
  rw [h.shape.edges]
  cases last.opcode <;> simp [Opcode.numEdges, Opcode.isCondBranch]

theorem simplified_eq (h : block.Ends front last) :
    BasicBlock.simplified ⟨id, block.instrs.map (Instr.retarget rename)⟩ =
      some (block.trimmed rename) := by
  obtain ⟨hlength, hcond⟩ := h.length_successors
  rw [h.trimmed_eq, h.retarget_eq]
  unfold BasicBlock.simplified BasicBlock.terminator? redirected
  simp only [getLast?_concat, dropLast_concat]
  match hsucc : last.successors with
  | [] => simp [retarget, hsucc]
  | [first] => simp [retarget, hsucc]
  | [first, second] =>
    have hopcode := hcond (by simp [hsucc])
    by_cases hsame : rename first = rename second
    · simp [retarget, hsucc, hsame, hopcode]
    · simp [retarget, hsucc, hsame]
  | _ :: _ :: _ :: _ => simp [hsucc] at hlength

theorem redirected_isTerminator (h : block.Ends front last) :
    (last.redirected rename).opcode.isTerminator = true := by
  unfold redirected
  split
  case h_1 => split <;> [rfl; exact h.terminator]
  case h_2 => exact h.terminator

theorem redirected_output (h : block.Ends front last) :
    (last.redirected rename).output = none := by
  have hlast := h.shape.output h.terminator
  unfold redirected
  split
  case h_1 => split <;> [rfl; exact hlast]
  case h_2 => exact hlast

theorem redirected_wellShaped (h : block.Ends front last) :
    (last.redirected rename).WellShaped := by
  have hshape : (last.retarget rename).WellShaped := by
    obtain ⟨houtput, hedges, hphi, hphiOutput, hassign, hsnapshot⟩ := h.shape
    exact ⟨houtput, by simpa [retarget] using hedges, hphi, hphiOutput, hassign, hsnapshot⟩
  unfold redirected
  split
  case h_1 =>
    split
    case isTrue => constructor <;> simp [Opcode.numEdges, isPhi]
    case isFalse => exact hshape
  case h_2 => exact hshape

theorem redirected_visitUses {reg : Register n}
    (hreg : reg ∈ (last.redirected rename).visitUses) : reg ∈ last.visitUses := by
  unfold redirected at hreg
  split at hreg
  case h_1 => split at hreg <;> [simp [visitUses] at hreg; exact hreg]
  case h_2 => exact hreg

theorem mem_redirected_successors :
    target ∈ (last.redirected rename).successors ↔
      ∃ succ ∈ last.successors, rename succ = target := by
  unfold redirected
  split
  case h_1 first second hsucc =>
    split
    case isTrue hsame => simp [hsucc, ← hsame, eq_comm]
    case isFalse => simp [retarget, hsucc, eq_comm]
  case h_2 => simp [retarget]

theorem redirected_nodup (h : block.Ends front last) :
    (last.redirected rename).successors.Nodup := by
  obtain ⟨hlength, -⟩ := h.length_successors
  unfold redirected
  match hsucc : last.successors with
  | [] => simp [retarget, hsucc]
  | [first] => simp [retarget, hsucc]
  | [first, second] =>
    by_cases hsame : rename first = rename second
    · simp [hsame]
    · simp [hsame, retarget, hsucc]
  | _ :: _ :: _ :: _ => simp [hsucc] at hlength

end BasicBlock.Ends

theorem WellFormed.ends (h : WellFormed f)
    (hshape : ∀ block ∈ f.blocks, ∀ instr ∈ block.instrs, instr.WellShaped)
    (hblock : block ∈ f.blocks) : ∃ front last, block.Ends front last := by
  obtain ⟨front, last, heq⟩ : ∃ front last, block.instrs = front ++ [last] :=
    ⟨_, _, (dropLast_append_getLast (h.nonempty block hblock)).symm⟩
  refine ⟨front, last, heq, fun instr hinstr => ?_, ?_, ?_⟩
  · obtain ⟨pre, post, rfl⟩ := append_of_mem hinstr
    have hat : block.instrs = pre ++ instr :: (post ++ [last]) := by simp [heq]
    have hnot : instr.opcode.isTerminator = false := by
      by_contra hterm
      have hnil := (h.terminator block hblock _ _ _ hat).mp (by simpa using hterm)
      simp at hnil
    refine ⟨hnot, ?_⟩
    by_contra hedges
    have hterm := (hshape block hblock instr (by simp [hat])).successors hedges
    simp [hnot] at hterm
  · exact (h.terminator block hblock _ _ [] heq).mpr rfl
  · exact hshape block hblock last (by simp [heq])

theorem InSsaForm.ends (h : InSsaForm f) (hblock : block ∈ f.blocks) :
    ∃ front last, block.Ends front last :=
  h.wellFormed.ends h.wellShaped hblock

namespace Function

variable {removed : List BlockId} {rename : BlockId → BlockId}

theorem mem_trimmed {block : BasicBlock n} : block ∈ (f.trimmed removed rename).blocks ↔
    ∃ old ∈ f.blocks, old.id ∉ removed ∧ block = ⟨old.id, old.trimmed rename⟩ := by
  simp only [trimmed, List.mem_map, mem_filter, decide_eq_true_eq]
  constructor
  · rintro ⟨old, ⟨hold, hid⟩, rfl⟩
    exact ⟨old, hold, hid, rfl⟩
  · rintro ⟨old, hold, hid, rfl⟩
    exact ⟨old, ⟨hold, hid⟩, rfl⟩

theorem mem_blockIds_trimmed :
    id ∈ (f.trimmed removed rename).blockIds ↔ id ∈ f.blockIds ∧ id ∉ removed := by
  rw [mem_blockIds, mem_blockIds]
  constructor
  · rintro ⟨block, hblock, rfl⟩
    obtain ⟨old, hold, hid, rfl⟩ := mem_trimmed.mp hblock
    exact ⟨⟨old, hold, rfl⟩, hid⟩
  · rintro ⟨⟨old, hold, rfl⟩, hid⟩
    exact ⟨_, mem_trimmed.mpr ⟨old, hold, hid, rfl⟩, rfl⟩

theorem block?_trimmed {block : BasicBlock n} (hblock : block ∈ f.blocks)
    (hid : block.id ∉ removed) (rename : BlockId → BlockId) :
    (f.trimmed removed rename).block? block.id = some ⟨block.id, block.trimmed rename⟩ := by
  have hmem : (⟨block.id, block.trimmed rename⟩ : BasicBlock n) ∈
      (f.trimmed removed rename).blocks := mem_trimmed.mpr ⟨block, hblock, hid, rfl⟩
  exact block?_of_mem hmem

theorem nodup_inEdges_of_outEdges (h : ∀ block ∈ f.blocks, block.outEdges.Nodup) (id : BlockId) :
    (f.inEdges id).Nodup := by
  refine nodup_flatMap.mpr ⟨fun block hblock => ?_, ?_⟩
  · have hall : ∀ succ ∈ block.outEdges.filter fun succ => succ = id, succ = id :=
      fun succ hsucc => by simpa using (mem_filter.mp hsucc).2
    have hnodup := (h block hblock).filter fun succ => succ = id
    revert hall hnodup
    generalize block.outEdges.filter (fun succ => succ = id) = succs
    intro hall hnodup
    match succs with
    | [] => simp
    | [succ] => simp
    | first :: second :: rest =>
      have hsame := (hall first (by simp)).trans (hall second (by simp)).symm
      simp [hsame] at hnodup
  · have hpairwise := pairwise_map.mp f.nodupIds
    refine hpairwise.imp fun {block other} hne => ?_
    rw [Function.onFun, disjoint_left]
    intro id hid hid'
    obtain ⟨-, -, rfl⟩ := List.mem_map.mp hid
    obtain ⟨-, -, hsame⟩ := List.mem_map.mp hid'
    exact hne hsame.symm

end Function

namespace InSsaForm

variable {removed : List BlockId} {rename : BlockId → BlockId} (h : InSsaForm f)

include h

theorem outputsOf_trampoline {block : BasicBlock n} (hblock : f.block? id = some block)
    (htrampoline : block.Trampoline succ) : f.outputsOf id = [] ∧ f.succs id = [succ] := by
  obtain ⟨snapshots, branch, hinstrs, hsnapshots, hbranch, hsucc⟩ := htrampoline.split
  have hmem := mem_blocks_of_block? hblock
  have hshape : ∀ instr ∈ block.instrs, instr.WellShaped := h.wellShaped block hmem
  rw [outputsOf, succs, hblock]
  constructor
  · refine filterMap_eq_nil_iff.mpr fun instr hinstr => ?_
    rw [hinstrs] at hinstr
    obtain hinstr | hinstr := mem_append.mp hinstr
    · exact (hshape instr (by simp [hinstrs, hinstr])).snapshot (hsnapshots instr hinstr)
    · obtain rfl := mem_singleton.mp hinstr
      exact (hshape instr (by simp [hinstrs])).output (by simp [hbranch, Opcode.isTerminator])
  · have hnone : snapshots.flatMap successors = [] := by
      refine flatMap_eq_nil_iff.mpr fun instr hinstr => ?_
      have hedges := (hshape instr (by simp [hinstrs, hinstr])).edges
      rw [hsnapshots instr hinstr] at hedges
      exact length_eq_zero_iff.mp hedges
    simp only [BasicBlock.outEdges]
    rw [hinstrs, flatMap_append, hnone]
    simp [hsucc]

variable {walked : List BlockId}

theorem walk_leads (hleads : f.Leads removed id target) (hwalk : f.Walk walked id) :
    ∃ walked', f.Walk walked' target ∧
      ∀ reg, f.definesOn walked' reg → f.definesOn walked reg := by
  induction hleads generalizing walked with
  | refl => exact ⟨walked, hwalk, fun _ hreg => hreg⟩
  | @step id succ target block _ hblock htrampoline _ _ ih =>
    obtain ⟨houtputs, hsuccs⟩ := h.outputsOf_trampoline hblock htrampoline
    obtain ⟨walked', hwalk', hdefines⟩ := ih (.step hwalk (by simp [hsuccs]))
    refine ⟨walked', hwalk', fun reg hreg => ?_⟩
    obtain ⟨other, hother, hout⟩ := hdefines reg hreg
    obtain rfl | hother := mem_cons.mp hother
    · simp [houtputs] at hout
    · exact ⟨other, hother, hout⟩

omit h in
theorem block?_trimmed_none (hfind : f.block? id = none) :
    (f.trimmed removed rename).block? id = none := by
  by_contra hsome
  have hmem := block?_isSome.mp (Option.isSome_iff_ne_none.mpr hsome)
  have hold := block?_isSome.mpr (mem_blockIds_trimmed.mp hmem).1
  simp [hfind] at hold

theorem succs_trimmed (hid : id ∉ removed) : target ∈ (f.trimmed removed rename).succs id ↔
    ∃ succ ∈ f.succs id, rename succ = target := by
  cases hfind : f.block? id with
  | none => simp [succs, block?_trimmed_none hfind, hfind]
  | some block =>
    have hmem := mem_blocks_of_block? hfind
    obtain rfl := id_of_block? hfind
    obtain ⟨front, last, hends⟩ := h.ends hmem
    have hfront : front.flatMap successors = [] :=
      flatMap_eq_nil_iff.mpr fun instr hinstr => (hends.plain instr hinstr).2
    have hnew : (f.trimmed removed rename).succs block.id =
        (last.redirected rename).successors := by
      rw [succs, block?_trimmed hmem hid]
      simp [BasicBlock.outEdges, hends.trimmed_eq, hfront]
    rw [hnew, succs, hfind, BasicBlock.Ends.mem_redirected_successors]
    simp only [hends.outEdges_eq]

theorem outputsOf_trimmed (hid : id ∉ removed) :
    (f.trimmed removed rename).outputsOf id = f.outputsOf id := by
  cases hfind : f.block? id with
  | none => simp [outputsOf, block?_trimmed_none hfind, hfind]
  | some block =>
    have hmem := mem_blocks_of_block? hfind
    obtain rfl := id_of_block? hfind
    obtain ⟨front, last, hends⟩ := h.ends hmem
    rw [outputsOf, outputsOf, block?_trimmed hmem hid, hfind]
    simp [BasicBlock.outputs, hends.trimmed_eq, hends.split, hends.redirected_output,
      hends.shape.output hends.terminator]

theorem outEdges_trimmed_nodup :
    ∀ block ∈ (f.trimmed removed rename).blocks, block.outEdges.Nodup := by
  intro block hblock
  obtain ⟨old, hold, hid, rfl⟩ := mem_trimmed.mp hblock
  obtain ⟨front, last, hends⟩ := h.ends hold
  have hfront : front.flatMap successors = [] :=
    flatMap_eq_nil_iff.mpr fun instr hinstr => (hends.plain instr hinstr).2
  simpa [BasicBlock.outEdges, hends.trimmed_eq, hfront] using hends.redirected_nodup

theorem mem_blockIds_of_leads (hleads : f.Leads removed id target) (hid : id ∈ f.blockIds) :
    target ∈ f.blockIds := by
  induction hleads with
  | refl => exact hid
  | @step id succ _ _ _ hblock htrampoline _ _ ih =>
    have hedge : succ ∈ f.succs id := by simp [(h.outputsOf_trampoline hblock htrampoline).2]
    exact ih (mem_blockIds_of_linked h.wellFormed.cfg.linked hedge)

variable (hredirected : f.Redirected removed rename)

include hredirected

theorem walk_of_trimmed (hwalk : (f.trimmed removed rename).Walk walked id) :
    ∃ walked', f.Walk walked' id ∧
      ∀ reg, f.definesOn walked' reg → (f.trimmed removed rename).definesOn walked reg := by
  induction hwalk with
  | entry =>
    obtain ⟨walked', hwalk', hdefines⟩ := h.walk_leads
      (hredirected.leads f.entryBlock h.wellFormed.cfg.entry) .entry
    refine ⟨walked', hwalk', fun reg hreg => ?_⟩
    obtain ⟨other, hother, -⟩ := hdefines reg hreg
    simp at hother
  | @step walked id target hwalk hedge ih =>
    obtain ⟨walked', hwalk', hdefines⟩ := ih
    have hid : id ∉ removed := by
      have hmem : id ∈ (f.trimmed removed rename).blockIds :=
        mem_blockIds_of_mem_inEdges (mem_inEdges.mpr hedge)
      exact (mem_blockIds_trimmed.mp hmem).2
    obtain ⟨succ, hsucc, rfl⟩ := (h.succs_trimmed hid).mp hedge
    have hmem := mem_blockIds_of_linked h.wellFormed.cfg.linked hsucc
    obtain ⟨walked'', hwalk'', hdefines'⟩ :=
      h.walk_leads (hredirected.leads succ hmem) (.step hwalk' hsucc)
    refine ⟨walked'', hwalk'', fun reg hreg => ?_⟩
    obtain ⟨other, hother, hout⟩ := hdefines' reg hreg
    obtain rfl | hother := mem_cons.mp hother
    · exact ⟨other, mem_cons_self, (h.outputsOf_trimmed hid).symm ▸ hout⟩
    · obtain ⟨block, hblock, hreg⟩ := hdefines reg ⟨other, hother, hout⟩
      exact ⟨block, mem_cons_of_mem _ hblock, hreg⟩

theorem definedAt_trimmed {pre pre' : List (Instr n)} {reg : Register n}
    (hpre : reg ∈ definedBy pre → reg ∈ definedBy pre') (hreg : f.DefinedAt id pre reg) :
    (f.trimmed removed rename).DefinedAt id pre' reg := by
  intro walked hwalk
  obtain ⟨walked', hwalk', hdefines⟩ := h.walk_of_trimmed hredirected hwalk
  obtain hon | hmem := hreg walked' hwalk'
  · exact .inl (hdefines reg hon)
  · exact .inr (hpre hmem)

theorem rename_trampoline (hid : id ∈ removed) (hmem : id ∈ f.blockIds) :
    ∃ succ block, f.block? id = some block ∧ block.Trampoline succ ∧ f.PhiFree succ ∧
      f.succs id = [succ] ∧ rename id = rename succ := by
  have hleads := hredirected.leads id hmem
  generalize htarget : rename id = target at hleads
  cases hleads with
  | refl hnot => exact absurd hid hnot
  | @step _ succ _ block _ hblock htrampoline hphis hrest =>
    have hsuccs := (h.outputsOf_trampoline hblock htrampoline).2
    have hedge : succ ∈ f.succs id := by simp [hsuccs]
    have hsucc := mem_blockIds_of_linked h.wellFormed.cfg.linked hedge
    refine ⟨succ, block, hblock, htrampoline, hphis, hsuccs, ?_⟩
    exact hrest.unique (hredirected.leads succ hsucc)

theorem walk_trimmed (hwalk : f.Walk walked id) :
    ∃ walked', (f.trimmed removed rename).Walk walked' (rename id) := by
  induction hwalk with
  | entry => exact ⟨[], .entry⟩
  | @step walked id succ hwalk hedge ih =>
    obtain ⟨walked', hwalk'⟩ := ih
    by_cases hid : id ∈ removed
    · obtain ⟨next, block, -, -, -, hsuccs, hrename⟩ :=
        h.rename_trampoline hredirected hid (h.wellFormed.cfg.mem_blockIds hwalk)
      obtain rfl : succ = next := by simpa [hsuccs] using hedge
      exact ⟨walked', hrename ▸ hwalk'⟩
    · rw [hredirected.rename_self id hid] at hwalk'
      exact ⟨id :: walked', .step hwalk' ((h.succs_trimmed hid).mpr ⟨succ, hedge, rfl⟩)⟩

theorem inEdges_trimmed {block : BasicBlock n} (hblock : block ∈ f.blocks)
    (hphis : block.phis ≠ []) :
    ((f.trimmed removed rename).inEdges block.id).Perm (f.inEdges block.id) := by
  have hnotFree : ¬f.PhiFree block.id := fun hfree => hphis (hfree block (block?_of_mem hblock))
  refine (perm_ext_iff_of_nodup (nodup_inEdges_of_outEdges h.outEdges_trimmed_nodup block.id)
    (h.wellFormed.cfg.nodup_inEdges block.id
      (mem_blockIds.mpr ⟨block, hblock, rfl⟩))).mpr fun pred => ?_
  rw [mem_inEdges, mem_inEdges]
  constructor
  · intro hedge
    have hmem : pred ∈ (f.trimmed removed rename).blockIds :=
      mem_blockIds_of_mem_inEdges (mem_inEdges.mpr hedge)
    obtain ⟨succ, hsucc, hrename⟩ := (h.succs_trimmed (mem_blockIds_trimmed.mp hmem).2).mp hedge
    by_cases hremoved : succ ∈ removed
    · refine absurd ?_ hnotFree
      rw [← hrename]
      exact (hredirected.leads succ
        (mem_blockIds_of_linked h.wellFormed.cfg.linked hsucc)).phiFree_target hremoved
    · rwa [← hrename, hredirected.rename_self succ hremoved]
  · intro hedge
    have hmem : pred ∈ f.blockIds :=
      mem_blockIds_of_mem_inEdges (mem_inEdges.mpr hedge)
    have hpred : pred ∉ removed := by
      intro hpred
      obtain ⟨succ, -, -, -, hfree, hsuccs, -⟩ := h.rename_trampoline hredirected hpred hmem
      obtain rfl : block.id = succ := by simpa [hsuccs] using hedge
      exact hnotFree hfree
    have hself : block.id ∉ removed := fun hself => hnotFree
      ((hredirected.leads block.id (mem_blockIds.mpr ⟨block, hblock, rfl⟩)).phiFree hself)
    exact (h.succs_trimmed hpred).mpr ⟨block.id, hedge, hredirected.rename_self _ hself⟩

end InSsaForm

variable {block : BasicBlock n} {instr : Instr n}

theorem BasicBlock.Ends.trimmed_split {front pre post : List (Instr n)} {last : Instr n}
    {rename : BlockId → BlockId} (h : block.Ends front last)
    (heq : block.trimmed rename = pre ++ instr :: post) :
    ∃ old rest, block.instrs = pre ++ old :: rest ∧
      (instr = old ∨ old = last ∧ instr = last.redirected rename) := by
  rw [h.trimmed_eq] at heq
  obtain rfl | ⟨rest, final, rfl⟩ := post.eq_nil_or_concat'
  · obtain ⟨rfl, hlast⟩ := append_inj' heq rfl
    exact ⟨last, [], h.split, .inr ⟨rfl, by simpa using hlast.symm⟩⟩
  · have hfront : front ++ [last.redirected rename] = (pre ++ instr :: rest) ++ [final] := by
      rw [heq, append_assoc, cons_append]
    obtain ⟨rfl, -⟩ := append_inj' hfront rfl
    refine ⟨instr, rest ++ [last], ?_, .inl rfl⟩
    rw [h.split, append_assoc, cons_append]

theorem BasicBlock.Ends.shaped_trimmed {front : List (Instr n)} {last : Instr n}
    (h : block.Ends front last) (hshaped : Shaped block.instrs) (rename : BlockId → BlockId) :
    Shaped (block.trimmed rename) := by
  rw [h.trimmed_eq]
  generalize hinstrs : block.instrs = instrs at hshaped
  cases hshaped with
  | mk phis middle other hphis hmiddle _ =>
    obtain ⟨rfl, -⟩ := append_inj' (h.split.symm.trans hinstrs) rfl
    exact .mk phis middle _ hphis hmiddle h.redirected_isTerminator

theorem WellFormed.not_isPhi_of_phis_eq_nil (h : WellFormed f) (hblock : block ∈ f.blocks)
    (hphis : block.phis = []) (hinstr : instr ∈ block.instrs) : instr.isPhi = false := by
  rw [block.instrs_eq, hphis, nil_append] at hinstr
  exact h.not_isPhi_of_mem_body hblock hinstr

theorem Instr.not_isPhi_of_isTerminator (h : instr.opcode.isTerminator = true) :
    instr.isPhi = false := by
  by_contra hphi
  simp [not_isTerminator_of_isPhi (by simpa using hphi)] at h

namespace InSsaForm

variable {removed : List BlockId} {rename : BlockId → BlockId} (h : InSsaForm f)
  (hredirected : f.Redirected removed rename)

include h hredirected

theorem wellFormedCFG_trimmed : WellFormedCFG (f.trimmed removed rename) := by
  have hcfg := h.wellFormed.cfg
  refine ⟨?_, ?_, ?_, fun id _ => nodup_inEdges_of_outEdges h.outEdges_trimmed_nodup id⟩
  · simp only [linked, List.all_eq_true, decide_eq_true_eq]
    intro block hblock target htarget
    rw [← succs_of_mem hblock] at htarget
    obtain ⟨old, hold, hid, rfl⟩ := mem_trimmed.mp hblock
    obtain ⟨succ, hsucc, rfl⟩ := (h.succs_trimmed hid).mp htarget
    have hmem := mem_blockIds_of_linked hcfg.linked hsucc
    have hleads := hredirected.leads succ hmem
    exact mem_blockIds_trimmed.mpr ⟨h.mem_blockIds_of_leads hleads hmem, hleads.not_mem⟩
  · have hleads := hredirected.leads f.entryBlock hcfg.entry
    exact mem_blockIds_trimmed.mpr ⟨h.mem_blockIds_of_leads hleads hcfg.entry, hleads.not_mem⟩
  · intro id hid
    obtain ⟨hmem, hnot⟩ := mem_blockIds_trimmed.mp hid
    obtain ⟨walked, hwalk⟩ := hcfg.reachable id hmem
    obtain ⟨walked', hwalk'⟩ := h.walk_trimmed hredirected hwalk
    exact ⟨walked', hredirected.rename_self id hnot ▸ hwalk'⟩

theorem trimmed : InSsaForm (f.trimmed removed rename) := by
  have hf := h.wellFormed
  have houtputs : ∀ {front last} {block : BasicBlock n}, block.Ends front last →
      definedBy (block.trimmed rename) = block.outputs := by
    intro front last block hends
    simp [definedBy, BasicBlock.outputs, hends.trimmed_eq, hends.split, hends.redirected_output,
      hends.shape.output hends.terminator]
  refine .of_shaped (h.wellFormedCFG_trimmed hredirected) ?_ ?_ ?_ ?_ ?_ ?_ ?_
  · have hsub : ((f.trimmed removed rename).blocks.flatMap BasicBlock.outputs).Sublist
        (f.blocks.flatMap BasicBlock.outputs) := by
      have hsame : (f.trimmed removed rename).blocks.flatMap BasicBlock.outputs =
          (f.blocks.filter fun block => block.id ∉ removed).flatMap BasicBlock.outputs := by
        rw [Function.trimmed, flatMap_map]
        refine flatMap_congr fun block hblock => ?_
        obtain ⟨front, last, hends⟩ := h.ends (mem_filter.mp hblock).1
        exact houtputs hends
      rw [hsame]
      exact filter_sublist.flatMap _
    exact hsub.nodup hf.nodup_outputs
  · intro block hblock
    obtain ⟨old, hold, -, rfl⟩ := mem_trimmed.mp hblock
    obtain ⟨front, last, hends⟩ := h.ends hold
    exact hends.shaped_trimmed (hf.shaped hold) rename
  · intro block hblock instr hinstr
    obtain ⟨old, hold, -, rfl⟩ := mem_trimmed.mp hblock
    obtain ⟨front, last, hends⟩ := h.ends hold
    rw [hends.trimmed_eq] at hinstr
    obtain hinstr | hinstr := mem_append.mp hinstr
    · exact h.wellShaped old hold instr (by simp [hends.split, hinstr])
    · obtain rfl := mem_singleton.mp hinstr
      exact hends.redirected_wellShaped
  · intro block hblock pre instr post heq hload
    obtain ⟨old, hold, hid, rfl⟩ := mem_trimmed.mp hblock
    obtain ⟨front, last, hends⟩ := h.ends hold
    obtain ⟨other, rest, hinstrs, rfl | ⟨-, rfl⟩⟩ := hends.trimmed_split heq
    · obtain ⟨hentry, hall⟩ := hf.prologue old hold pre instr rest hinstrs hload
      refine ⟨?_, hall⟩
      rw [Function.trimmed, hredirected.rename_self f.entryBlock (hentry ▸ hid), hentry]
    · have hterm : (last.redirected rename).opcode.isTerminator = true :=
        hends.redirected_isTerminator
      cases hopcode : (last.redirected rename).opcode <;>
        simp_all [isPrologueLoad, Opcode.isTerminator]
  · intro block hblock pre instr post heq hphi reg hreg
    obtain ⟨old, hold, hid, rfl⟩ := mem_trimmed.mp hblock
    obtain ⟨front, last, hends⟩ := h.ends hold
    obtain ⟨other, rest, hinstrs, rfl | ⟨rfl, rfl⟩⟩ := hends.trimmed_split heq
    · exact h.definedAt_trimmed hredirected (fun hpre => hpre)
        (h.uses old hold pre instr rest hinstrs hphi reg hreg)
    · have hnotPhi := not_isPhi_of_isTerminator hends.terminator
      exact h.definedAt_trimmed hredirected (fun hpre => hpre)
        (h.uses old hold pre other rest hinstrs hnotPhi reg
          (BasicBlock.Ends.redirected_visitUses hreg))
  · intro block hblock phi hphi hisPhi
    obtain ⟨old, hold, hid, rfl⟩ := mem_trimmed.mp hblock
    obtain ⟨front, last, hends⟩ := h.ends hold
    have hin : phi ∈ old.instrs := by
      rw [hends.trimmed_eq] at hphi
      obtain hphi | hphi := mem_append.mp hphi
      · simp [hends.split, hphi]
      · obtain rfl := mem_singleton.mp hphi
        simp [not_isPhi_of_isTerminator hends.redirected_isTerminator] at hisPhi
    have hne : old.phis ≠ [] := by
      intro hnil
      simp [hf.not_isPhi_of_phis_eq_nil hold hnil hin] at hisPhi
    obtain ⟨hlength, hperm⟩ := h.phis old hold phi hin hisPhi
    have hedges := h.inEdges_trimmed hredirected hold hne
    refine ⟨(hf.phi old hold phi hin hisPhi).1, hlength, hperm.trans hedges.symm, ?_⟩
    intro pair hpair
    have hpred : pair.1 ∈ (f.trimmed removed rename).blockIds :=
      mem_blockIds_of_mem_inEdges (hedges.symm.subset (hperm.subset (of_mem_zip hpair).1))
    refine h.definedAt_trimmed hredirected (fun hpre => ?_)
      (hf.phi_operands old hold phi hin hisPhi pair hpair)
    rw [definedBy_instrsOf] at hpre ⊢
    rwa [h.outputsOf_trimmed (mem_blockIds_trimmed.mp hpred).2]
  · intro block hblock hid instr hinstr
    have hmemNew := hblock
    obtain ⟨old, hold, hnot, rfl⟩ := mem_trimmed.mp hblock
    obtain ⟨front, last, hends⟩ := h.ends hold
    rw [hends.trimmed_eq] at hinstr
    obtain hinstr | hinstr := mem_append.mp hinstr
    · have hin : instr ∈ old.instrs := by simp [hends.split, hinstr]
      by_cases hentry : f.entryBlock ∈ removed
      · have hfree := (hredirected.leads f.entryBlock hf.cfg.entry).phiFree_target hentry
        have hphis := hfree old (by rw [← show old.id = rename f.entryBlock from hid,
          block?_of_mem hold])
        exact hf.not_isPhi_of_phis_eq_nil hold hphis hin
      · refine h.entry old hold ?_ instr hin
        rw [← hredirected.rename_self f.entryBlock hentry]
        exact hid
    · obtain rfl := mem_singleton.mp hinstr
      exact not_isPhi_of_isTerminator hends.redirected_isTerminator

end InSsaForm

theorem InSsaForm.removeTrampolineBlocks_eq (h : InSsaForm f) : ∃ removed rename,
    removeTrampolineBlocks f = some (f.trimmed removed rename) ∧ f.Redirected removed rename := by
  obtain ⟨removed, rename, heq, hredirected⟩ := h.removeTrampolines_eq
  refine ⟨removed, rename, ?_, hredirected⟩
  have hsimplified : ∀ block ∈ f.blocks,
      BasicBlock.simplified ⟨block.id, block.instrs.map (retarget rename)⟩ =
        some (block.trimmed rename) := by
    intro block hblock
    obtain ⟨front, last, hends⟩ := h.ends hblock
    exact hends.simplified_eq
  rw [removeTrampolineBlocks, heq, simplifyRedundantCondBranches, if_pos]
  · simp only [Option.some.injEq, Function.mapBlocks, Function.trimmed, Function.redirect,
      Function.mk.injEq, and_true, List.map_map]
    refine map_congr_left fun block hblock => ?_
    simp [hsimplified block (mem_filter.mp hblock).1]
  · simp only [List.all_eq_true, Function.redirect, List.mem_map]
    rintro _ ⟨block, hblock, rfl⟩
    simp [hsimplified block (mem_filter.mp hblock).1]

end CinderX.Jit.Hir
