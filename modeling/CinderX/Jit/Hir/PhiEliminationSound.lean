import CinderX.Jit.Hir.PhiElimination
import CinderX.Jit.Hir.TrampolinesSound

/-!
# Phi elimination keeps the meaning

The rounds keep what is requested apart from copies, and the trampolines that
are left go at the end.
-/

namespace CinderX.Jit.Hir

variable {n : Nat} {f g : Function n} {V W : Type}

theorem filterMap_requestOf (h : ∀ instr ∈ f.instrs, instr.opcode ≠ .kAssign)
    (exec : Request V → W → Outcome V W) (fuel : Nat) (id : BlockId) (regs : Register n → V)
    (world : W) : (f.run exec fuel id regs world).1.filterMap requestOf =
      requests (f.run exec fuel id regs world) := by
  have hall := Function.forall_mem_run exec (f := f)
    (P := fun event => event.request.opcode ≠ .kAssign)
    (fun instr hinstr _ => h instr hinstr) fuel id regs world
  rw [requests, ← List.filterMap_eq_map]
  refine List.filterMap_congr fun event hevent => ?_
  simp [requestOf, hall event hevent]

variable {removed : List BlockId} {rename : BlockId → BlockId}

theorem InSsaForm.phi_of_mem_trimmed (h : InSsaForm f) {phi : Instr n}
    (hphi : phi ∈ (f.trimmed removed rename).instrs)
    (hisPhi : phi.isPhi = true) : ∃ block ∈ f.blocks, phi ∈ block.phis := by
  obtain ⟨block, hblock, hin⟩ := Function.mem_instrs.mp hphi
  obtain ⟨old, hold, hid, rfl⟩ := Function.mem_trimmed.mp hblock
  obtain ⟨front, last, hends⟩ := h.ends hold
  refine ⟨old, hold, ?_⟩
  rw [hends.trimmed_eq] at hin
  obtain hin | hin := List.mem_append.mp hin
  · have hmem : phi ∈ old.instrs := by simp [hends.split, hin]
    rw [old.instrs_eq] at hmem
    refine (List.mem_append.mp hmem).resolve_right fun hbody => ?_
    simp [h.wellFormed.not_isPhi_of_mem_body hold hbody] at hisPhi
  · obtain rfl := List.mem_singleton.mp hin
    simp [Instr.not_isPhi_of_isTerminator hends.redirected_isTerminator] at hisPhi

theorem InSsaForm.opcode_of_mem_trimmed (h : InSsaForm f)
    (hassign : ∀ instr ∈ f.instrs, instr.opcode ≠ .kAssign) :
    ∀ instr ∈ (f.trimmed removed rename).instrs, instr.opcode ≠ .kAssign := by
  intro instr hinstr
  obtain ⟨block, hblock, hin⟩ := Function.mem_instrs.mp hinstr
  obtain ⟨old, hold, hid, rfl⟩ := Function.mem_trimmed.mp hblock
  obtain ⟨front, last, hends⟩ := h.ends hold
  rw [hends.trimmed_eq] at hin
  obtain hin | hin := List.mem_append.mp hin
  · exact hassign instr (Function.mem_instrs.mpr ⟨old, hold, by simp [hends.split, hin]⟩)
  · obtain rfl := List.mem_singleton.mp hin
    intro hopcode
    have hterm : (last.redirected rename).opcode.isTerminator = true :=
      hends.redirected_isTerminator
    simp [hopcode, Opcode.isTerminator] at hterm

/-- The result of phi elimination is in SSA form and has no copies left, except that `Assign`s of
a function without trivial phis may leave some.  Its runs make the same requests, but for copies,
snapshots and branches. -/
theorem phiElimination_sound (h : InSsaForm f) : ∃ g, phiElimination f = some g ∧
    InSsaForm g ∧ checkFunc g = true ∧ (∀ instr ∈ g.instrs, instr.opcode ≠ .kAssign) ∧
    ((∀ instr ∈ f.instrs, instr.opcode ≠ .kAssign) ∨ f.hasTrivialPhi = true →
      ∀ phi ∈ g.instrs, phi.isPhi = true → ¬∃ value ∈ phi.operands, phi.output ≠ some value ∧
        ∀ reg ∈ phi.operands, phi.output = some reg ∨ reg = value) ∧
    ∀ (V W : Type) (exec : Request V → W → Outcome V W), RunsAssigns exec → RunsBranches exec →
      ∀ (regs : Register n → V) (world : W),
        (∀ fuel, ∃ fuel',
          Trims ((f.execute exec fuel regs world).1.filterMap requestOf)
              (requests (g.execute exec fuel' regs world)) ∧
            (f.execute exec fuel regs world).2 = (g.execute exec fuel' regs world).2) ∧
        ∀ fuel', ∃ fuel,
          Trims ((f.execute exec fuel regs world).1.filterMap requestOf)
              (requests (g.execute exec fuel' regs world)) ∧
            (f.execute exec fuel regs world).2 = (g.execute exec fuel' regs world).2 := by
  obtain ⟨g, hloop, hform, hsame, hassign, htrivial⟩ :=
    phiEliminationLoop_spec h (Nat.lt_succ_self f.phis.length)
  obtain ⟨removed, rename, hremove, hredirected⟩ := hform.removeTrampolineBlocks_eq
  have hresult := hform.trimmed hredirected
  refine ⟨g.trimmed removed rename, by simp [phiElimination, hloop, hremove], hresult,
    checkFunc_iff.mpr hresult.wellFormed, hform.opcode_of_mem_trimmed hassign, ?_, ?_⟩
  · rintro hcase phi hphi hisPhi ⟨value, hvalue, hne, hall⟩
    obtain ⟨block, hblock, hin⟩ := hform.phi_of_mem_trimmed hphi hisPhi
    have hsome := Instr.isTrivial_eq_some.mpr ⟨hne, hvalue, hall⟩
    have hhas := Function.hasTrivialPhi_iff.mpr ⟨block, hblock, phi, hin, by simp [hsome]⟩
    simp [htrivial hcase] at hhas
  · intro V W exec hassigns hbranches regs world
    obtain ⟨hforward, hbackward⟩ := hform.sameRuns_trimmed hredirected hbranches
      hform.wellFormed.cfg.entry regs world
    have hsteps : ∀ fuel, (f.execute exec fuel regs world).1.filterMap requestOf =
          requests (g.run exec fuel g.entryBlock regs world) ∧
        (f.execute exec fuel regs world).2 = (g.run exec fuel g.entryBlock regs world).2 := by
      intro fuel
      have hobserve := hsame V W exec hassigns fuel regs world
      simp only [observe, Prod.mk.injEq] at hobserve
      rw [← filterMap_requestOf hassign]
      exact hobserve
    refine ⟨fun fuel => ?_, fun fuel' => ?_⟩
    · obtain ⟨fuel', htrims, hend⟩ := hforward fuel
      refine ⟨fuel', ?_, ?_⟩
      · rw [(hsteps fuel).1]
        exact htrims
      · rw [(hsteps fuel).2]
        exact hend
    · obtain ⟨fuel, htrims, hend⟩ := hbackward fuel'
      refine ⟨fuel, ?_, ?_⟩
      · rw [(hsteps fuel).1]
        exact htrims
      · rw [(hsteps fuel).2]
        exact hend

/-- The phi of block 2 is trivial, then that of block 1, and then block 2 is a trampoline. -/
def nestedPhis : Function 3 := .ofObjects [
    ⟨0, [{ opcode := .kLoadConst, output := some 0 }, { opcode := .kBranch, successors := [1] }]⟩,
    ⟨1, [{ opcode := .kPhi, output := some 1, operands := [0, 2], basicBlocks := [0, 2] },
      { opcode := .kCondBranch, operands := [1], successors := [2, 3] }]⟩,
    ⟨2, [{ opcode := .kPhi, output := some 2, operands := [1], basicBlocks := [1] },
      { opcode := .kBranch, successors := [1] }]⟩,
    ⟨3, [{ opcode := .kReturn, operands := [1] }]⟩] (by decide)

def execNumbers (request : Request Nat) (_ : Unit) : Outcome Nat Unit :=
  if request.opcode = .kBranch then .jump 0 ()
  else if request.opcode.isCondBranch then .jump 1 ()
  else if request.opcode.isTerminator then .leave ()
  else .next (request.operands.headD 0) ()

theorem execNumbers_runsAssigns : RunsAssigns execNumbers := by
  refine ⟨fun request value world hopcode hoperands => ?_⟩
  simp [execNumbers, hopcode, hoperands, Opcode.isCondBranch, Opcode.isTerminator]

theorem execNumbers_runsBranches : RunsBranches execNumbers := by
  refine ⟨fun request world hopcode => ?_, fun request world hopcode => ⟨1, by omega, ?_⟩,
    fun request world hopcode => ⟨request.operands.headD 0, ?_⟩⟩
  · simp [execNumbers, hopcode]
  · have hne : request.opcode ≠ .kBranch := by
      intro hbranch
      simp [hbranch, Opcode.isCondBranch] at hopcode
    simp [execNumbers, hne, hopcode]
  · simp [execNumbers, hopcode, Opcode.isCondBranch, Opcode.isTerminator]

theorem nestedPhis_inSsaForm : InSsaForm nestedPhis := checkSsaForm_iff.mp (by decide)

theorem phiElimination_sound_nestedPhis : ∃ g, phiElimination nestedPhis = some g ∧
    checkFunc g = true ∧
    (∀ phi ∈ g.instrs, phi.isPhi = true → ¬∃ value ∈ phi.operands, phi.output ≠ some value ∧
      ∀ reg ∈ phi.operands, phi.output = some reg ∨ reg = value) ∧
    ∀ fuel, ∃ fuel',
      Trims ((nestedPhis.execute execNumbers fuel (fun _ => 0) ()).1.filterMap requestOf)
        (requests (g.execute execNumbers fuel' (fun _ => 0) ())) := by
  obtain ⟨g, hg, -, hcheck, -, htrivial, hruns⟩ := phiElimination_sound nestedPhis_inSsaForm
  refine ⟨g, hg, hcheck, htrivial (.inr (by decide)), fun fuel => ?_⟩
  obtain ⟨fuel', htrims, -⟩ := (hruns Nat Unit execNumbers execNumbers_runsAssigns
    execNumbers_runsBranches (fun _ => 0) ()).1 fuel
  exact ⟨fuel', htrims⟩

def lateOperand : Function 3 := .ofObjects [
    ⟨0, [{ opcode := .kLoadConst, output := some 0 },
      { opcode := .kCondBranch, operands := [0], successors := [1, 2] }]⟩,
    ⟨1, [{ opcode := .kPhi, output := some 2, operands := [1], basicBlocks := [2] },
      { opcode := .kReturn, operands := [2] }]⟩,
    ⟨2, [{ opcode := .kLoadConst, output := some 1 }, { opcode := .kBranch, successors := [1] }]⟩]
  (by decide)

/-- The phi becomes trivial in the round that is the last because there was no trivial phi. -/
def copiedPhi : Function 3 := .ofObjects [
    ⟨0, [{ opcode := .kLoadConst, output := some 0 },
      { opcode := .kAssign, output := some 1, operands := [0] },
      { opcode := .kCondBranch, operands := [0], successors := [1, 2] }]⟩,
    ⟨1, [{ opcode := .kBranch, successors := [2] }]⟩,
    ⟨2, [{ opcode := .kPhi, output := some 2, operands := [0, 1], basicBlocks := [0, 1] },
      { opcode := .kReturn, operands := [2] }]⟩] (by decide)

theorem phiElimination_of_lateOperand :
    (checkFunc lateOperand = true ∧ (phiElimination lateOperand).map checkFunc = some false) ∧
      checkFunc copiedPhi = true ∧
        (phiElimination copiedPhi).map Function.hasTrivialPhi = some true := by
  decide

end CinderX.Jit.Hir
