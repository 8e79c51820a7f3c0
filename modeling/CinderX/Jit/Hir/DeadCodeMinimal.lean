import CinderX.Jit.Hir.DeadCodeSound

/-!
# Dead code elimination leaves no dead code

What stays is what useful instructions use, directly or through others.
-/

namespace CinderX.Jit.Hir

open Foundation List Hir.Function

variable {n : Nat} {f : Function n} {freeThreaded : Bool} {live : List (Instr n)}

theorem InSsaForm.filterInstrs (h : InSsaForm f) (hlive : f.Marked freeThreaded live) :
    InSsaForm (f.filterInstrs fun instr => instr ∈ live) := by
  have hedges := h.keepsEdges_filter hlive
  refine ⟨h.wellFormed_filterInstrs hlive, ?_, ?_, ?_, ?_⟩
  · intro block hblock instr hinstr
    obtain ⟨old, hold, rfl⟩ := mem_mapBlocks.mp hblock
    exact h.wellShaped old hold instr (mem_filter.mp hinstr).1
  · intro block hblock pre instr post heq hphi reg hreg
    obtain ⟨old, hold, rfl⟩ := mem_mapBlocks.mp hblock
    obtain ⟨pre', post', heq', hkept, rfl, rfl⟩ := filter_eq_append_cons heq
    have hin : instr ∈ live := by simpa using hkept
    refine definedAt_filterInstrs hedges
      (fun d hd houtput => by simpa using h.mem_live hlive hin hreg hd houtput)
      (fun d hd => mem_instrs.mpr ⟨old, hold, by simp [heq', hd]⟩)
      (h.uses old hold pre' instr post' heq' hphi reg hreg)
  · intro block hblock phi hphi hisPhi
    obtain ⟨old, hold, rfl⟩ := mem_mapBlocks.mp hblock
    rw [Function.filterInstrs, Function.inEdges_mapBlocks hedges]
    exact h.phis old hold phi (mem_filter.mp hphi).1 hisPhi
  · intro block hblock hentry instr hinstr
    obtain ⟨old, hold, rfl⟩ := mem_mapBlocks.mp hblock
    exact h.entry old hold hentry instr (mem_filter.mp hinstr).1

inductive Needed (freeThreaded : Bool) (f : Function n) : Instr n → Prop
  | useful {instr : Instr n} (hinstr : instr ∈ f.instrs)
      (huseful : isUseful freeThreaded instr = true) : Needed freeThreaded f instr
  | used {instr d : Instr n} {reg : Register n} (h : Needed freeThreaded f instr)
      (hreg : reg ∈ instr.visitUses) (hd : f.instr? reg = some d) : Needed freeThreaded f d

variable {instr : Instr n}

theorem Function.needed_of_liveSet (h : f.liveSet freeThreaded = some live)
    (hinstr : instr ∈ live) : Needed freeThreaded f instr := by
  refine closure_subset (fun a found ha hfound b hb => ?_) h (fun a ha => ?_) (by simp) instr hinstr
  · obtain ⟨reg, hreg, hd⟩ := exists_of_mem_mapM hfound hb
    exact ha.used hreg hd
  · obtain ha | ha := mem_pushAll.mp ha
    · cases ha
    · exact .useful (mem_filter.mp ha).1 (mem_filter.mp ha).2

theorem Needed.mem_instrs (h : Needed freeThreaded f instr) : instr ∈ f.instrs := by
  cases h with
  | useful hinstr huseful => exact hinstr
  | used h hreg hd => exact (mem_instrs_of_instr? hd).1

theorem Function.Marked.mem_of_needed (hlive : f.Marked freeThreaded live)
    (h : Needed freeThreaded f instr) : instr ∈ live := by
  induction h with
  | useful hinstr huseful => exact hlive.useful _ hinstr huseful
  | used _ hreg hd ih =>
    obtain ⟨other, hother, hfind⟩ := hlive.closed _ ih _ hreg
    rw [hd] at hfind
    cases hfind
    exact hother

/-- An instruction stays if and only if it is needed, and a second pass changes nothing. -/
theorem deadCodeElimination_minimal (h : InSsaForm f) (freeThreaded : Bool) :
    ∃ g, deadCodeElimination freeThreaded f = some g ∧
      (∀ instr, instr ∈ g.instrs ↔ Needed freeThreaded f instr) ∧
      deadCodeElimination freeThreaded g = some g := by
  obtain ⟨live, hset⟩ := h.liveSet_isSome freeThreaded
  have hlive := marked_of_liveSet hset
  have hstays : ∀ instr, instr ∈ (f.filterInstrs fun instr => instr ∈ live).instrs ↔
      Needed freeThreaded f instr := by
    intro instr
    rw [instrs_filterInstrs, mem_filter, decide_eq_true_iff]
    exact ⟨fun hin => needed_of_liveSet hset hin.2,
      fun hneeded => ⟨hneeded.mem_instrs, hlive.mem_of_needed hneeded⟩⟩
  refine ⟨_, by simp [deadCodeElimination, hset], hstays, ?_⟩
  have hform := h.filterInstrs hlive
  obtain ⟨live', hset'⟩ := hform.liveSet_isSome freeThreaded
  have hlive' := marked_of_liveSet hset'
  have hneeded : ∀ instr, Needed freeThreaded f instr → instr ∈ live' := by
    intro instr hneeded
    induction hneeded with
    | useful hinstr huseful =>
      exact hlive'.useful _ ((hstays _).mpr (.useful hinstr huseful)) huseful
    | @used instr d reg hused hreg hd ih =>
      obtain ⟨other, hother, hfind⟩ := hlive'.closed instr ih reg hreg
      obtain ⟨hd, houtput⟩ := mem_instrs_of_instr? hd
      obtain ⟨hin, houtput'⟩ := mem_instrs_of_instr? hfind
      have hold := ((hstays other).mp hin).mem_instrs
      rwa [h.wellFormed.def_unique hd hold houtput houtput']
  rw [deadCodeElimination, hset', Option.map_some, Option.some.injEq]
  refine (mapBlocks_congr fun block hblock => ?_).trans mapBlocks_self
  refine filter_eq_self.mpr fun instr hinstr => decide_eq_true ?_
  exact hneeded instr ((hstays instr).mp (mem_instrs.mpr ⟨block, hblock, hinstr⟩))

theorem deadCodeElimination_minimal_deadCycle :
    ∃ g, deadCodeElimination false deadCycle = some g ∧
      (∀ instr, instr ∈ g.instrs ↔ Needed false deadCycle instr) ∧
      deadCodeElimination false g = some g :=
  deadCodeElimination_minimal deadCycle_inSsaForm false

end CinderX.Jit.Hir
