import CinderX.Jit.Hir.CopyPropagation
import CinderX.Jit.Hir.Trampolines

/-!
# Phi elimination

Trivial phis become `Assign`s behind the phis of their block, and copy
propagation removes these, until there are no trivial phis.
-/

namespace CinderX.Jit.Hir

open Foundation List Hir.Function Instr

variable {n : Nat} {f g : Function n} {x y : Register n}

def Instr.loadBottom (output : Option (Register n)) : Instr n :=
  { opcode := .kLoadConst, output }

def Instr.assignOf (output : Option (Register n)) (value : Register n) : Instr n :=
  { opcode := .kAssign, output, operands := [value] }

/-- A register belongs to the instruction that was created for it last. -/
def Function.assignOperandAfter (f : Function n) (created : List (Instr n)) (reg : Register n) :
    Option (Register n) :=
  match created.find? fun instr => instr.output = some reg with
  | some instr => if instr.opcode = .kAssign then instr.operands.head? else none
  | none => f.assignOperand? reg

def replaceTrivialPhis (f : Function n) :
    List (Instr n) → List (Instr n) → Option (List (Instr n) × List (Instr n))
  | [], created => some ([], created)
  | phi :: rest, created =>
    match phi.isTrivial with
    | none =>
      (replaceTrivialPhis f rest created).map fun replaced => (phi :: replaced.1, replaced.2)
    | some value =>
      match chase (f.assignOperandAfter created) n value with
      | none => none
      | some modelValue =>
        replaceTrivialPhis f rest (created ++
          [if some modelValue = phi.output then .loadBottom phi.output
            else .assignOf phi.output value])

/-- What is created is inserted when the first other instruction is met. -/
def eliminatePhisIn (f : Function n) (block : BasicBlock n) : Option (List (Instr n)) :=
  (replaceTrivialPhis f block.phis []).map fun replaced =>
    replaced.1 ++ (if block.body = [] then [] else replaced.2) ++ block.body

def eliminatePhis : List (BasicBlock n) → Function n → Option (Function n)
  | [], f => some f
  | block :: rest, f =>
    match eliminatePhisIn f block with
    | none => none
    | some instrs =>
      eliminatePhis rest
        (f.mapBlocks fun other => if other.id = block.id then instrs else other.instrs)

def Function.hasTrivialPhi (f : Function n) : Bool :=
  f.phis.any fun phi => phi.isTrivial.isSome

/-- `none` if the rounds do not end with the fuel. -/
def phiEliminationLoop : Nat → Function n → Option (Function n)
  | 0, _ => none
  | fuel + 1, f =>
    match (eliminatePhis f.blocks f).bind copyPropagation with
    | none => none
    | some g => if f.hasTrivialPhi then phiEliminationLoop fuel g else some g

def phiElimination (f : Function n) : Option (Function n) :=
  (phiEliminationLoop (f.phis.length + 1) f).bind removeTrampolineBlocks

/-! ## What a round does -/

def BasicBlock.withoutTrivialPhis (block : BasicBlock n) : List (Instr n) :=
  (block.phis.filter fun phi => phi.isTrivial.isNone) ++
    (block.phis.filterMap fun phi => phi.isTrivial.map (Instr.assignOf phi.output)) ++ block.body

def AssignsCopy (f : Function n) (instrs : List (Instr n)) : Prop :=
  ∀ instr ∈ instrs, instr.opcode = .kAssign → ∀ reg, instr.output = some reg →
    ∀ source, instr.operands.head? = some source → f.CopyOf reg source

theorem AssignsCopy.copyOf {created : List (Instr n)} (hg : AssignsCopy f g.instrs)
    (hcreated : AssignsCopy f created) {reg source : Register n}
    (h : g.assignOperandAfter created reg = some source) : f.CopyOf reg source := by
  unfold assignOperandAfter at h
  cases hfind : created.find? fun instr => instr.output = some reg with
  | some instr =>
    simp only [hfind] at h
    by_cases hassign : instr.opcode = .kAssign
    · exact hcreated instr (mem_of_find?_eq_some hfind) hassign reg
        (by simpa using find?_some hfind) source (by simpa [hassign] using h)
    · simp [hassign] at h
  | none =>
    simp only [hfind, assignOperand?] at h
    cases hinstr : g.instr? reg with
    | none => simp [hinstr] at h
    | some instr =>
      obtain ⟨hmem, houtput⟩ := mem_instrs_of_instr? hinstr
      by_cases hassign : instr.opcode = .kAssign
      · exact hg instr hmem hassign reg houtput source (by simpa [hinstr, hassign] using h)
      · simp [hinstr, hassign] at h

namespace InSsaForm

variable (h : InSsaForm f)

include h

theorem assignsCopy : AssignsCopy f f.instrs := by
  intro instr hinstr hassign reg houtput source hsource
  obtain ⟨block, hblock, hin⟩ := mem_instrs.mp hinstr
  obtain ⟨operand, hoperand⟩ := length_eq_one_iff.mp
    ((h.wellShaped block hblock instr hin).assign hassign).2
  refine ⟨instr, hinstr, houtput, .inl ⟨hassign, ?_⟩⟩
  simpa [hoperand] using hsource

theorem replaceTrivialPhis_eq (hg : AssignsCopy f g.instrs) {phis : List (Instr n)}
    (hphis : ∀ phi ∈ phis, phi ∈ f.instrs ∧ phi.isPhi = true) {created : List (Instr n)}
    (hcreated : AssignsCopy f created) :
    replaceTrivialPhis g phis created = some (phis.filter fun phi => phi.isTrivial.isNone,
      created ++ phis.filterMap fun phi => phi.isTrivial.map (Instr.assignOf phi.output)) := by
  induction phis generalizing created with
  | nil => simp [replaceTrivialPhis]
  | cons phi rest ih =>
    obtain ⟨⟨hmem, hisPhi⟩, hrest⟩ := forall_mem_cons.mp hphis
    cases htrivial : phi.isTrivial with
    | none => simp [replaceTrivialPhis, htrivial, ih hrest hcreated]
    | some value =>
      have hlinks : ∀ a b, Links (g.assignOperandAfter created) a b → f.CopyOf a b :=
        fun a b hlink => hg.copyOf hcreated hlink
      have hacyclic : ∀ a, ¬Relation.TransGen (Links (g.assignOperandAfter created)) a a :=
        fun a hcycle => h.copyOf_acyclic (Relation.TransGen.mono hlinks _ _ hcycle)
      obtain ⟨modelValue, hmodel⟩ := chase_isSome hacyclic value
      rw [Fintype.card_fin] at hmodel
      have hcopies : ∀ out, phi.output = some out → f.CopyOf out value :=
        fun out hout => ⟨phi, hmem, hout, .inr ⟨hisPhi, htrivial⟩⟩
      -- a phi that ended at itself would be a copy of itself
      have hne : some modelValue ≠ phi.output := by
        intro hself
        have hchain := Relation.ReflTransGen.mono hlinks _ _ (chase_spec hmodel).1
        exact h.copyOf_acyclic (.head' (hcopies modelValue hself.symm) hchain)
      have hcreated' : AssignsCopy f (created ++ [.assignOf phi.output value]) := by
        intro instr hinstr hassign reg houtput source hsource
        obtain hinstr | hinstr := mem_append.mp hinstr
        · exact hcreated instr hinstr hassign reg houtput source hsource
        · obtain rfl := mem_singleton.mp hinstr
          obtain rfl : value = source := by simpa [assignOf] using hsource
          exact hcopies reg houtput
      simp [replaceTrivialPhis, htrivial, hmodel, hne, ih hrest hcreated']

variable {block : BasicBlock n}

theorem body_ne_nil (hblock : block ∈ f.blocks) : block.body ≠ [] := by
  intro hnil
  have hphis : block.instrs = block.phis := by
    rw [block.instrs_eq, hnil, append_nil]
  have hne := h.wellFormed.nonempty block hblock
  have hlast := (dropLast_append_getLast hne).symm
  have hterm := (h.wellFormed.terminator block hblock _ (block.instrs.getLast hne) [] hlast).mpr rfl
  have hmem : block.instrs.getLast hne ∈ block.phis := hphis ▸ getLast_mem hne
  simp [not_isTerminator_of_isPhi (BasicBlock.isPhi_of_mem_phis hmem)] at hterm

theorem eliminatePhisIn_eq (hg : AssignsCopy f g.instrs) (hblock : block ∈ f.blocks) :
    eliminatePhisIn g block = some block.withoutTrivialPhis := by
  have hphis : ∀ phi ∈ block.phis, phi ∈ f.instrs ∧ phi.isPhi = true := by
    intro phi hphi
    refine ⟨mem_instrs.mpr ⟨block, hblock, ?_⟩, BasicBlock.isPhi_of_mem_phis hphi⟩
    exact block.instrs_eq ▸ mem_append_left _ hphi
  have hnone : AssignsCopy f [] := fun instr hinstr => absurd hinstr not_mem_nil
  simp [eliminatePhisIn, h.replaceTrivialPhis_eq hg hphis hnone, h.body_ne_nil hblock,
    BasicBlock.withoutTrivialPhis]

theorem assignsCopy_withoutTrivialPhis (hblock : block ∈ f.blocks) :
    AssignsCopy f block.withoutTrivialPhis := by
  intro instr hinstr hassign reg houtput source hsource
  have hold : ∀ old ∈ block.instrs, old ∈ f.instrs :=
    fun old hin => mem_instrs.mpr ⟨block, hblock, hin⟩
  simp only [BasicBlock.withoutTrivialPhis, mem_append, mem_filter,
    mem_filterMap, Option.map_eq_some_iff] at hinstr
  obtain (⟨hinstr, -⟩ | ⟨phi, hphi, value, htrivial, rfl⟩) | hinstr := hinstr
  · exact h.assignsCopy instr (hold instr (block.instrs_eq ▸ mem_append_left _ hinstr))
      hassign reg houtput source hsource
  · obtain rfl : value = source := by simpa [assignOf] using hsource
    exact ⟨phi, hold phi (block.instrs_eq ▸ mem_append_left _ hphi), houtput,
      .inr ⟨BasicBlock.isPhi_of_mem_phis hphi, htrivial⟩⟩
  · exact h.assignsCopy instr (hold instr (block.instrs_eq ▸ mem_append_right _ hinstr))
      hassign reg houtput source hsource

theorem eliminatePhis_from {rest gone : List (BasicBlock n)} (heq : f.blocks = gone ++ rest) :
    eliminatePhis rest (f.mapBlocks fun block =>
        if block ∈ gone then block.withoutTrivialPhis else block.instrs) =
      some (f.mapBlocks BasicBlock.withoutTrivialPhis) := by
  induction rest generalizing gone with
  | nil =>
    rw [eliminatePhis]
    refine congrArg some (mapBlocks_congr fun block hblock => ?_)
    rw [if_pos (by simpa [heq] using hblock)]
  | cons block rest ih =>
    have hblock : block ∈ f.blocks := by simp [heq]
    have hcopy : AssignsCopy f (f.mapBlocks fun block =>
        if block ∈ gone then block.withoutTrivialPhis else block.instrs).instrs := by
      intro instr hinstr
      obtain ⟨other, hother, hin⟩ := mem_instrs.mp hinstr
      obtain ⟨old, hold, rfl⟩ := mem_mapBlocks.mp hother
      by_cases hgone : old ∈ gone
      · exact h.assignsCopy_withoutTrivialPhis hold instr (by simpa [hgone] using hin)
      · refine h.assignsCopy instr (mem_instrs.mpr ⟨old, hold, ?_⟩)
        simpa [hgone] using hin
    rw [eliminatePhis, h.eliminatePhisIn_eq hcopy hblock]
    have hnext := ih (append_cons gone block rest ▸ heq)
    simp only
    rw [mapBlocks_mapBlocks, ← hnext]
    refine congrArg (eliminatePhis rest) (mapBlocks_congr fun other hother => ?_)
    by_cases hsame : other.id = block.id
    · obtain rfl := inj_on_of_nodup_map f.nodupIds hother hblock hsame
      simp
    · have hne : other ≠ block := fun heq => hsame (heq ▸ rfl)
      simp [hsame, hne]

theorem eliminatePhis_eq :
    eliminatePhis f.blocks f = some (f.mapBlocks BasicBlock.withoutTrivialPhis) := by
  have hstart := h.eliminatePhis_from (nil_append f.blocks).symm
  simpa [mapBlocks_self] using hstart

end InSsaForm

/-! ## The function without trivial phis -/

namespace BasicBlock

variable {block : BasicBlock n}

def keptPhis (block : BasicBlock n) : List (Instr n) :=
  block.phis.filter fun phi => phi.isTrivial.isNone

def phiAssigns (block : BasicBlock n) : List (Instr n) :=
  block.phis.filterMap fun phi => phi.isTrivial.map (Instr.assignOf phi.output)

theorem withoutTrivialPhis_eq :
    block.withoutTrivialPhis = block.keptPhis ++ block.phiAssigns ++ block.body := rfl

theorem mem_keptPhis {phi : Instr n} :
    phi ∈ block.keptPhis ↔ phi ∈ block.phis ∧ phi.isTrivial = none := by
  simp [keptPhis]

theorem mem_phiAssigns {instr : Instr n} : instr ∈ block.phiAssigns ↔
    ∃ phi ∈ block.phis, ∃ value, phi.isTrivial = some value ∧
      instr = .assignOf phi.output value := by
  simp [phiAssigns, eq_comm]

theorem definedBy_phiAssigns : definedBy block.phiAssigns =
    definedBy (block.phis.filter fun phi => !phi.isTrivial.isNone) := by
  unfold phiAssigns
  induction block.phis with
  | nil => rfl
  | cons phi rest ih =>
    cases htrivial : phi.isTrivial with
    | none =>
      rw [filterMap_cons_none (by simp [htrivial]), ih,
        filter_cons_of_neg (by simp [htrivial])]
    | some value =>
      rw [filterMap_cons_some (b := .assignOf phi.output value) (by simp [htrivial]),
        filter_cons_of_pos (by simp [htrivial])]
      simp only [definedBy, filterMap_cons] at ih ⊢
      rw [ih]
      rfl

theorem definedBy_keptPhis_append :
    (definedBy (block.keptPhis ++ block.phiAssigns)).Perm (definedBy block.phis) := by
  rw [definedBy, filterMap_append]
  rw [show block.phiAssigns.filterMap output = definedBy block.phiAssigns from rfl,
    definedBy_phiAssigns]
  rw [keptPhis, definedBy, ← filterMap_append]
  exact (filter_append_perm _ _).filterMap _

theorem definedBy_withoutTrivialPhis :
    (definedBy block.withoutTrivialPhis).Perm block.outputs := by
  have hperm : (definedBy (block.keptPhis ++ block.phiAssigns)).Perm (definedBy block.phis) :=
    definedBy_keptPhis_append
  have hnew : definedBy block.withoutTrivialPhis =
      definedBy (block.keptPhis ++ block.phiAssigns) ++ definedBy block.body :=
    filterMap_append
  have hold : block.outputs = definedBy block.phis ++ definedBy block.body := by
    rw [outputs, block.instrs_eq, filterMap_append]
    rfl
  rw [hnew, hold]
  exact hperm.append_right _

theorem withoutTrivialPhis_split {pre post : List (Instr n)} {instr : Instr n}
    (heq : block.withoutTrivialPhis = pre ++ instr :: post) (hphi : instr.isPhi = false) :
    instr ∈ block.phiAssigns ∨ ∃ front, block.body = front ++ instr :: post ∧
      pre = block.keptPhis ++ block.phiAssigns ++ front := by
  rw [withoutTrivialPhis_eq] at heq
  obtain ⟨front, rfl, hrest⟩ | ⟨front, hfront, hrest⟩ := append_eq_append_iff.mp heq
  · exact .inr ⟨front, hrest, rfl⟩
  · cases front with
    | nil => exact .inr ⟨[], by simpa using hrest.symm, by simpa using hfront.symm⟩
    | cons first front =>
      obtain ⟨rfl, -⟩ : instr = first ∧ post = front ++ block.body := by simpa using hrest
      have hmem : instr ∈ block.keptPhis ++ block.phiAssigns := by simp [hfront]
      obtain hmem | hmem := mem_append.mp hmem
      · simp [isPhi_of_mem_phis (mem_keptPhis.mp hmem).1] at hphi
      · exact .inl hmem

end BasicBlock

theorem Instr.wellShaped_assignOf {output : Option (Register n)} {value : Register n}
    (houtput : output.isSome = true) : (Instr.assignOf output value).WellShaped where
  output hterm := by simp [assignOf, Opcode.isTerminator] at hterm
  edges := rfl
  phi hphi := by simp [assignOf, isPhi] at hphi
  phi_output hphi := by simp [assignOf, isPhi] at hphi
  assign _ := ⟨houtput, rfl⟩
  snapshot hsnapshot := by simp [assignOf] at hsnapshot

namespace InSsaForm

variable (h : InSsaForm f)

include h

theorem keepsEdges_withoutTrivialPhis : f.KeepsEdges BasicBlock.withoutTrivialPhis := by
  intro block hblock
  have hnone : ∀ phi ∈ block.phis, phi.successors = [] := by
    intro phi hphi
    have hisPhi := BasicBlock.isPhi_of_mem_phis hphi
    by_contra hne
    have hterm := (h.wellShaped block hblock phi
      (block.instrs_eq ▸ mem_append_left _ hphi)).successors hne
    simp [not_isTerminator_of_isPhi hisPhi] at hterm
  have hphis : block.phis.flatMap successors = [] := flatMap_eq_nil_iff.mpr hnone
  have hkept : block.keptPhis.flatMap successors = [] :=
    flatMap_eq_nil_iff.mpr fun phi hphi => hnone phi (BasicBlock.mem_keptPhis.mp hphi).1
  have hassigns : block.phiAssigns.flatMap successors = [] := by
    refine flatMap_eq_nil_iff.mpr fun instr hinstr => ?_
    obtain ⟨phi, -, value, -, rfl⟩ := BasicBlock.mem_phiAssigns.mp hinstr
    rfl
  have hinstrs : block.outEdges = (block.phis ++ block.body).flatMap successors := by
    rw [← block.instrs_eq]
    rfl
  rw [BasicBlock.withoutTrivialPhis_eq, hinstrs]
  simp [flatMap_append, hphis, hkept, hassigns]

theorem definedAt_withoutTrivialPhis {id : BlockId} {pre pre' : List (Instr n)}
    {reg : Register n} (hpre : reg ∈ definedBy pre → reg ∈ definedBy pre')
    (hreg : f.DefinedAt id pre reg) :
    (f.mapBlocks BasicBlock.withoutTrivialPhis).DefinedAt id pre' reg :=
  definedAt_mapBlocks h.keepsEdges_withoutTrivialPhis
    (fun _ _ hout => BasicBlock.definedBy_withoutTrivialPhis.mem_iff.mpr hout) hpre hreg

theorem shaped_withoutTrivialPhis {block : BasicBlock n} (hblock : block ∈ f.blocks) :
    Shaped block.withoutTrivialPhis := by
  have hne := h.body_ne_nil hblock
  have hsplit := (dropLast_append_getLast hne).symm
  have hinstrs : block.instrs = block.phis ++ block.body.dropLast ++ [block.body.getLast hne] := by
    rw [append_assoc, ← hsplit, ← block.instrs_eq]
  have hshaped := h.wellFormed.shaped hblock
  rw [BasicBlock.withoutTrivialPhis_eq, hsplit, append_assoc, ← append_assoc _ _ [_],
    ← append_assoc]
  refine .mk _ _ _ (fun phi hphi => ?_) (fun instr hinstr => ?_) ?_
  · exact BasicBlock.isPhi_of_mem_phis (BasicBlock.mem_keptPhis.mp hphi).1
  · obtain hinstr | hinstr := mem_append.mp hinstr
    · obtain ⟨phi, -, value, -, rfl⟩ := BasicBlock.mem_phiAssigns.mp hinstr
      exact ⟨rfl, rfl⟩
    · have hbody : instr ∈ block.body := hsplit ▸ mem_append_left _ hinstr
      refine ⟨h.wellFormed.not_isPhi_of_mem_body hblock hbody, ?_⟩
      obtain ⟨front, back, hfront⟩ := append_of_mem hinstr
      by_contra hterm
      have hat : block.instrs =
          (block.phis ++ front) ++ instr :: (back ++ [block.body.getLast hne]) := by
        rw [hinstrs, hfront]
        simp
      have hnil := (hshaped.terminator hat).mp (by simpa using hterm)
      simp at hnil
  · exact (hshaped.terminator hinstrs).mpr rfl

theorem withoutTrivialPhis : InSsaForm (f.mapBlocks BasicBlock.withoutTrivialPhis) := by
  have hf := h.wellFormed
  have hedges := h.keepsEdges_withoutTrivialPhis
  have hphi : ∀ {block phi}, block ∈ f.blocks → phi ∈ block.phis → phi ∈ block.instrs ∧
      phi.isPhi = true := by
    intro block phi hblock hphi
    exact ⟨block.instrs_eq ▸ mem_append_left _ hphi, BasicBlock.isPhi_of_mem_phis hphi⟩
  refine h.of_mapBlocks id hedges ?_ (fun old hold => h.shaped_withoutTrivialPhis hold)
    ?_ ?_ ?_ ?_
  · refine (List.Perm.nodup_iff ?_).mpr hf.nodup_outputs
    rw [mapBlocks, flatMap_map]
    exact List.Perm.flatMap_left _ fun block _ => BasicBlock.definedBy_withoutTrivialPhis
  · intro old hold instr hinstr
    rw [BasicBlock.withoutTrivialPhis_eq, mem_append, mem_append] at hinstr
    obtain (hinstr | hinstr) | hinstr := hinstr
    · exact h.wellShaped old hold instr (hphi hold (BasicBlock.mem_keptPhis.mp hinstr).1).1
    · obtain ⟨phi, hin, value, -, rfl⟩ := BasicBlock.mem_phiAssigns.mp hinstr
      obtain ⟨hmem, hisPhi⟩ := hphi hold hin
      exact wellShaped_assignOf ((h.wellShaped old hold phi hmem).phi_output hisPhi)
    · exact h.wellShaped old hold instr (old.instrs_eq ▸ mem_append_right _ hinstr)
  · intro old hold pre instr post heq hload
    have hnotPhi : instr.isPhi = false := by
      cases hopcode : instr.opcode <;> simp_all [isPrologueLoad, isPhi]
    obtain hassign | ⟨front, hbody, rfl⟩ := BasicBlock.withoutTrivialPhis_split heq hnotPhi
    · obtain ⟨phi, -, value, -, rfl⟩ := BasicBlock.mem_phiAssigns.mp hassign
      simp [isPrologueLoad, assignOf] at hload
    · obtain ⟨hentry, hall⟩ := hf.prologue old hold (old.phis ++ front) instr post
        (by rw [append_assoc, ← hbody, ← old.instrs_eq]) hload
      -- the entry has no phis
      have hnil : old.phis = [] := by
        refine eq_nil_iff_forall_not_mem.mpr fun phi hin => ?_
        obtain ⟨hmem, hisPhi⟩ := hphi hold hin
        simp [h.entry old hold hentry phi hmem] at hisPhi
      refine ⟨hentry, fun other hother => hall other ?_⟩
      simpa [BasicBlock.keptPhis, BasicBlock.phiAssigns, hnil] using hother
  · intro old hold pre instr post heq hnotPhi reg hreg
    obtain hassign | ⟨front, hbody, rfl⟩ := BasicBlock.withoutTrivialPhis_split heq hnotPhi
    · obtain ⟨phi, hin, value, htrivial, rfl⟩ := BasicBlock.mem_phiAssigns.mp hassign
      obtain rfl : reg = value := by simpa [visitUses, assignOf] using hreg
      obtain ⟨hmem, hisPhi⟩ := hphi hold hin
      have hdefined : f.DefinedAt old.id [] reg := fun walked hwalk =>
        .inl (h.definesOn_of_isTrivial hold hmem hisPhi htrivial hwalk)
      exact h.definedAt_withoutTrivialPhis (fun hnil => by simp [definedBy] at hnil) hdefined
    · refine h.definedAt_withoutTrivialPhis (fun hpre => ?_)
        (h.uses old hold (old.phis ++ front) instr post
          (by rw [append_assoc, ← hbody, ← old.instrs_eq]) hnotPhi reg hreg)
      have hperm : (definedBy (old.keptPhis ++ old.phiAssigns)).Perm (definedBy old.phis) :=
        BasicBlock.definedBy_keptPhis_append
      unfold definedBy at hperm hpre ⊢
      rw [filterMap_append] at hpre ⊢
      exact (hperm.append_right _).mem_iff.mpr hpre
  · intro old hold phi hin hisPhi
    rw [BasicBlock.withoutTrivialPhis_eq, mem_append, mem_append] at hin
    have hmem : phi ∈ old.instrs := by
      obtain (hin | hin) | hin := hin
      · exact (hphi hold (BasicBlock.mem_keptPhis.mp hin).1).1
      · obtain ⟨other, -, value, -, rfl⟩ := BasicBlock.mem_phiAssigns.mp hin
        simp [assignOf, isPhi] at hisPhi
      · simp [hf.not_isPhi_of_mem_body hold hin] at hisPhi
    exact ⟨phi, hmem, hisPhi, rfl, (map_id _).symm, fun _ _ _ _ hdefined =>
      h.definedAt_withoutTrivialPhis BasicBlock.definedBy_withoutTrivialPhis.mem_iff.mpr hdefined⟩

end InSsaForm

/-! ## Its runs -/

section

variable {V W : Type} {exec : Request V → W → Outcome V W}

theorem Exit.Related.diagonal {exit exit' : Exit n V W}
    {R S : BlockId → (Register n → V) → (Register n → V) → Prop} (h : Exit.Related R exit exit')
    (himp : ∀ succ regs regs', R succ regs regs' → S succ regs regs) :
    Exit.Related S exit exit := by
  cases h with
  | jump h => exact .jump (himp _ _ _ h)
  | leave => exact .leave
  | stuck => exact .stuck

theorem RunsAssigns.execInstrs_append (hexec : RunsAssigns exec) {assigns : List (Instr n)}
    (body : List (Instr n))
    (hassigns : ∀ instr ∈ assigns, ∃ x y, instr = .assignOf (some x) y ∧ y ∉ definedBy assigns)
    (hnodup : (definedBy assigns).Nodup) (regs : Register n → V) (world : W) :
    ∃ events after, (∀ event ∈ events, requestOf event = none) ∧
      execInstrs exec (assigns ++ body) regs world =
        (events ++ (execInstrs exec body after world).1, (execInstrs exec body after world).2) ∧
      (∀ x ∉ definedBy assigns, after x = regs x) ∧
      ∀ x y, Instr.assignOf (some x) y ∈ assigns → after x = regs y := by
  induction assigns generalizing regs with
  | nil => exact ⟨[], regs, by simp, rfl, fun _ _ => rfl, by simp⟩
  | cons first rest ih =>
    obtain ⟨x, y, rfl, hy⟩ := hassigns first mem_cons_self
    have hcons : definedBy (.assignOf (some x) y :: rest) = x :: definedBy rest := rfl
    rw [hcons] at hnodup hy ⊢
    obtain ⟨hx, hnodup⟩ := nodup_cons.mp hnodup
    have hrest : ∀ instr ∈ rest, ∃ x y, instr = .assignOf (some x) y ∧ y ∉ definedBy rest := by
      intro instr hinstr
      obtain ⟨x', y', rfl, hy'⟩ := hassigns instr (mem_cons_of_mem _ hinstr)
      exact ⟨x', y', rfl, fun hmem => hy' (mem_cons_of_mem _ hmem)⟩
    obtain ⟨events, after, hevents, hrun, hkeep, hset⟩ :=
      ih hrest hnodup ((assignOf (some x) y).assign (regs y) regs)
    have hnext : exec ((assignOf (some x) y).request regs) world =
        .next (regs y) world := hexec.next _ _ _ rfl rfl
    have hother : ∀ z, z ≠ x → (assignOf (some x) y).assign (regs y) regs z = regs z := by
      intro z hz
      simp [assign, assignOf, hz.symm]
    refine ⟨⟨.assignOf (some x) y, (assignOf (some x) y).request regs⟩ :: events, after,
      ?_, ?_, ?_, ?_⟩
    · rintro event hevent
      obtain rfl | hevent := mem_cons.mp hevent
      · rfl
      · exact hevents event hevent
    · simp [execInstrs, hnext, hrun]
    · intro z hz
      rw [mem_cons, not_or] at hz
      rw [hkeep z hz.2, hother z hz.1]
    · intro x' y' hmem
      obtain heq | hmem := mem_cons.mp hmem
      · obtain ⟨rfl, rfl⟩ : x' = x ∧ y' = y := by simpa [assignOf] using heq
        rw [hkeep x' hx]
        simp [assign, assignOf]
      · obtain ⟨x'', y'', heq, hy''⟩ := hassigns _ (mem_cons_of_mem _ hmem)
        obtain ⟨rfl, rfl⟩ : x' = x'' ∧ y' = y'' := by simpa [assignOf] using heq
        rw [hset x' y' hmem, hother y' fun heq => hy'' (heq ▸ mem_cons_self)]

theorem BasicBlock.phis_withoutTrivialPhis (h : WellFormed f) {block : BasicBlock n}
    (hblock : block ∈ f.blocks) :
    BasicBlock.phis ⟨block.id, block.withoutTrivialPhis⟩ = block.keptPhis ∧
      BasicBlock.body ⟨block.id, block.withoutTrivialPhis⟩ = block.phiAssigns ++ block.body := by
  unfold phis body
  simp only [withoutTrivialPhis_eq, append_assoc]
  refine takeWhile_append_of_split (fun phi hphi => ?_) (fun instr hinstr => ?_)
  · exact isPhi_of_mem_phis (mem_keptPhis.mp hphi).1
  · obtain hinstr | hinstr := mem_append.mp hinstr
    · obtain ⟨phi, -, value, -, rfl⟩ := mem_phiAssigns.mp hinstr
      rfl
    · exact h.not_isPhi_of_mem_body hblock hinstr

namespace InSsaForm

variable (h : InSsaForm f)

include h

/-- The trivial phis of a block have been assigned in one of the functions only. -/
def AgreeBut (f : Function n) (id : BlockId) (regs regs' : Register n → V) : Prop :=
  ∀ block, f.block? id = some block →
    (∀ reg ∉ definedBy block.phiAssigns, regs reg = regs' reg) ∧ f.CopiesHold id block.phis regs

variable {block : BasicBlock n}

theorem definedBy_phiAssigns_nodup (hblock : block ∈ f.blocks) :
    (definedBy block.phiAssigns).Nodup := by
  rw [BasicBlock.definedBy_phiAssigns]
  have hsub : (block.phis.filter fun phi => !phi.isTrivial.isNone).Sublist block.instrs :=
    filter_sublist.trans (takeWhile_sublist _)
  exact (hsub.filterMap _).nodup (h.wellFormed.nodup_blockOutputs hblock)

theorem phiAssigns_spec (hblock : block ∈ f.blocks) {instr : Instr n}
    (hinstr : instr ∈ block.phiAssigns) : ∃ x y, instr = .assignOf (some x) y ∧
      y ∉ definedBy block.phiAssigns ∧ f.CopyOf x y ∧ f.DefinedAt block.id block.phis x := by
  obtain ⟨phi, hphi, value, htrivial, rfl⟩ := BasicBlock.mem_phiAssigns.mp hinstr
  have hisPhi := BasicBlock.isPhi_of_mem_phis hphi
  have hmem : phi ∈ block.instrs := block.instrs_eq ▸ mem_append_left _ hphi
  obtain ⟨x, houtput⟩ := Option.isSome_iff_exists.mp
    ((h.wellShaped block hblock phi hmem).phi_output hisPhi)
  refine ⟨x, value, by rw [houtput], fun hy => ?_, ?_, ?_⟩
  · refine h.isTrivial_not_mem_outputs hblock hmem hisPhi htrivial ?_
    rw [BasicBlock.definedBy_phiAssigns] at hy
    obtain ⟨other, hother, hout⟩ := mem_filterMap.mp hy
    refine BasicBlock.mem_outputs ?_ hout
    exact block.instrs_eq ▸ mem_append_left _ (mem_filter.mp hother).1
  · exact ⟨phi, mem_instrs.mpr ⟨block, hblock, hmem⟩, houtput, .inr ⟨hisPhi, htrivial⟩⟩
  · exact fun walked _ => .inr (mem_filterMap.mpr ⟨phi, hphi, houtput⟩)

theorem execInstrs_withoutTrivialPhis (hexec : RunsAssigns exec) (hblock : block ∈ f.blocks)
    {regs regs' : Register n → V} (world : W)
    (hregs : ∀ reg ∉ definedBy block.phiAssigns, regs reg = regs' reg)
    (hholds : f.CopiesHold block.id block.phis regs) :
    ∃ events, (∀ event ∈ events, requestOf event = none) ∧
      execInstrs exec (block.phiAssigns ++ block.body) regs' world =
        (events ++ (execInstrs exec block.body regs world).1,
          (execInstrs exec block.body regs world).2) := by
  have hassigns : ∀ instr ∈ block.phiAssigns, ∃ x y, instr = .assignOf (some x) y ∧
      y ∉ definedBy block.phiAssigns := by
    intro instr hinstr
    obtain ⟨x, y, heq, hy, -⟩ := h.phiAssigns_spec hblock hinstr
    exact ⟨x, y, heq, hy⟩
  obtain ⟨events, after, hevents, hrun, hkeep, hset⟩ :=
    hexec.execInstrs_append block.body hassigns (h.definedBy_phiAssigns_nodup hblock) regs' world
  have hafter : after = regs := by
    funext reg
    by_cases hreg : reg ∈ definedBy block.phiAssigns
    · obtain ⟨instr, hinstr, houtput⟩ := mem_filterMap.mp hreg
      obtain ⟨x, y, rfl, hy, hcopy, hdefined⟩ := h.phiAssigns_spec hblock hinstr
      obtain rfl : x = reg := by simpa [assignOf] using houtput
      rw [hset x y hinstr, ← hregs y hy, hholds x y hcopy hdefined]
    · rw [hkeep reg hreg, hregs reg hreg]
  exact ⟨events, hevents, hafter ▸ hrun⟩

theorem AgreeBut.takeEdge {pred : BlockId} {target : BasicBlock n} (htarget : target ∈ f.blocks)
    (hedge : target.id ∈ f.succs pred) {regs : Register n → V}
    (hholds : f.CopiesHold pred (f.instrsOf pred) regs) :
    AgreeBut f target.id (target.takeEdge pred regs)
      (BasicBlock.takeEdge ⟨target.id, target.withoutTrivialPhis⟩ pred regs) := by
  intro block hblock
  obtain rfl : target = block := by simpa [block?_of_mem htarget] using hblock
  refine ⟨fun reg hreg => ?_, h.copiesHold_takeEdge htarget hedge hholds⟩
  have hfind : target.keptPhis.find? (fun phi => phi.output = some reg) =
      target.phis.find? fun phi => phi.output = some reg := by
    refine find?_filter_of_imp fun phi hphi houtput => ?_
    by_contra htrivial
    rw [BasicBlock.definedBy_phiAssigns] at hreg
    refine hreg (mem_filterMap.mpr ⟨phi, mem_filter.mpr ⟨hphi, ?_⟩, ?_⟩)
    · simpa [Option.isSome_iff_ne_none] using htrivial
    · simpa using houtput
  unfold BasicBlock.takeEdge
  rw [(BasicBlock.phis_withoutTrivialPhis h.wellFormed htarget).1, hfind]

theorem run_withoutTrivialPhis (hexec : RunsAssigns exec) (fuel : Nat) (regs : Register n → V)
    (world : W) : observe requestOf (f.execute exec fuel regs world) = observe requestOf
      ((f.mapBlocks BasicBlock.withoutTrivialPhis).execute exec fuel regs world) := by
  refine execute_mapBlocks (P := fun _ => True) (R := fun block => AgreeBut f block.id)
    ?_ fuel world (fun block hblock => ?_) fun _ _ => trivial
  · intro block hmem regs regs' world hagree _
    obtain ⟨hregs, hholds⟩ := hagree block (block?_of_mem hmem)
    rw [(BasicBlock.phis_withoutTrivialPhis h.wellFormed hmem).2]
    obtain ⟨events, hevents, hrun⟩ := h.execInstrs_withoutTrivialPhis hexec hmem world hregs hholds
    rw [hrun]
    constructor
    · rw [filterMap_append, filterMap_eq_nil_iff.mpr hevents, nil_append]
    · have halike := h.execInstrs_propagateIn (ignoresCopies_requestOf _) hexec hmem block.instrs_eq
        (fun instr hinstr => h.wellFormed.not_isPhi_of_mem_body hmem hinstr) world hholds
        fun _ _ => rfl
      refine halike.exit.diagonal ?_
      rintro _ regs regs' hafter target htarget rfl
      exact AgreeBut.takeEdge h htarget hafter.2.2 hafter.2.1
  · rw [id_of_block? hblock]
    exact fun block hblock => ⟨fun _ _ => rfl, h.copiesHold_entry hblock regs⟩

end InSsaForm

end

theorem Function.hasTrivialPhi_iff : f.hasTrivialPhi = true ↔
    ∃ block ∈ f.blocks, ∃ phi ∈ block.phis, phi.isTrivial.isSome = true := by
  simp only [hasTrivialPhi, phis, List.any_eq_true, mem_flatMap]
  constructor
  · rintro ⟨phi, ⟨block, hblock, hphi⟩, htrivial⟩
    exact ⟨block, hblock, phi, hphi, htrivial⟩
  · rintro ⟨block, hblock, phi, hphi, htrivial⟩
    exact ⟨phi, ⟨block, hblock, hphi⟩, htrivial⟩

theorem Function.length_phis_lt (htrivial : f.hasTrivialPhi = true) :
    (f.phis.filter fun phi => phi.isTrivial.isNone).length < f.phis.length := by
  obtain ⟨phi, hphi, hsome⟩ := List.any_eq_true.mp htrivial
  refine length_filter_lt_length_iff_exists.mpr ⟨phi, hphi, ?_⟩
  simpa [Option.isSome_iff_ne_none] using hsome

theorem Function.withoutTrivialPhis_self (htrivial : f.hasTrivialPhi = false) :
    f.mapBlocks BasicBlock.withoutTrivialPhis = f := by
  conv_rhs => rw [← mapBlocks_self (f := f)]
  refine mapBlocks_congr fun block hblock => ?_
  have hnone : ∀ phi ∈ block.phis, phi.isTrivial = none := by
    intro phi hphi
    cases hsome : phi.isTrivial with
    | none => rfl
    | some value =>
      have := hasTrivialPhi_iff.mpr ⟨block, hblock, phi, hphi, by simp [hsome]⟩
      simp [htrivial] at this
  have hkept : block.keptPhis = block.phis :=
    filter_eq_self.mpr fun phi hphi => by simp [hnone phi hphi]
  have hassigns : block.phiAssigns = [] :=
    filterMap_eq_nil_iff.mpr fun phi hphi => by simp [hnone phi hphi]
  rw [BasicBlock.withoutTrivialPhis_eq, hkept, hassigns, append_nil, ← block.instrs_eq]

theorem Frame.mapUses_id (frame : Frame n) : frame.mapUses id = frame := by
  simp [mapUses]

theorem Instr.mapUses_id (instr : Instr n) : instr.mapUses id = instr := by
  have hframes : Frame.mapUses (id : Register n → Register n) = id := funext Frame.mapUses_id
  cases hdeopt : instr.deopt with
  | none => cases instr; simp_all [mapUses]
  | some info => cases instr; simp_all [mapUses]

namespace InSsaForm

variable (h : InSsaForm f)

include h

theorem eliminatePhis_propagates : (eliminatePhis f.blocks f).bind copyPropagation =
    some ((f.mapBlocks BasicBlock.withoutTrivialPhis).mapBlocks fun block =>
      propagateIn (f.mapBlocks BasicBlock.withoutTrivialPhis) block.instrs) := by
  rw [h.eliminatePhis_eq, Option.bind_some, h.withoutTrivialPhis.copyPropagation_eq]

theorem length_phis_propagated :
    ((f.mapBlocks BasicBlock.withoutTrivialPhis).mapBlocks fun block =>
        propagateIn (f.mapBlocks BasicBlock.withoutTrivialPhis) block.instrs).phis.length =
      (f.phis.filter fun phi => phi.isTrivial.isNone).length := by
  rw [Function.phis, Function.phis, filter_flatMap, length_flatMap, length_flatMap]
  rw [Function.mapBlocks_mapBlocks, Function.mapBlocks, List.map_map]
  refine congrArg sum (map_congr_left fun block hblock => ?_)
  have hmem : (⟨block.id, block.withoutTrivialPhis⟩ : BasicBlock n) ∈
      (f.mapBlocks BasicBlock.withoutTrivialPhis).blocks :=
    Function.mem_mapBlocks.mpr ⟨block, hblock, rfl⟩
  rw [Function.comp_apply, (phis_propagateIn h.withoutTrivialPhis hmem).1, length_map,
    (BasicBlock.phis_withoutTrivialPhis h.wellFormed hblock).1]
  rfl

theorem propagated_self (hassign : ∀ instr ∈ f.instrs, instr.opcode ≠ .kAssign) :
    (f.mapBlocks fun block => propagateIn f block.instrs) = f := by
  have hnone : ∀ reg, f.assignOperand? reg = none := by
    intro reg
    unfold assignOperand?
    cases hfind : f.instr? reg with
    | none => rfl
    | some instr => simp [hassign instr (mem_instrs_of_instr? hfind).1]
  have hid : f.propagatedTo = id := by
    funext reg
    have hroot : f.chaseAssignOperand reg = some reg := by
      unfold chaseAssignOperand
      cases n <;> simp [chase, hnone]
    simp [propagatedTo, hroot]
  conv_rhs => rw [← mapBlocks_self (f := f)]
  refine mapBlocks_congr fun block hblock => ?_
  have hkeep : (block.instrs.filter fun instr => instr.opcode ≠ .kAssign) = block.instrs :=
    filter_eq_self.mpr fun instr hinstr => by
      simpa using hassign instr (mem_instrs.mpr ⟨block, hblock, hinstr⟩)
  rw [propagateIn, hkeep, hid, funext mapUses_id, List.map_id']

end InSsaForm

def SameRequests (f g : Function n) : Prop :=
  ∀ (V W : Type) (exec : Request V → W → Outcome V W), RunsAssigns exec →
    ∀ (fuel : Nat) (regs : Register n → V) (world : W),
      observe requestOf (f.execute exec fuel regs world) =
        observe requestOf (g.execute exec fuel regs world)

theorem phiEliminationLoop_spec {fuel : Nat} (h : InSsaForm f) (hfuel : f.phis.length < fuel) :
    ∃ g, phiEliminationLoop fuel f = some g ∧ InSsaForm g ∧ SameRequests f g ∧
      (∀ instr ∈ g.instrs, instr.opcode ≠ .kAssign) ∧
      ((∀ instr ∈ f.instrs, instr.opcode ≠ .kAssign) ∨ f.hasTrivialPhi = true →
        g.hasTrivialPhi = false) := by
  induction fuel generalizing f with
  | zero => omega
  | succ fuel ih =>
    have hround := h.eliminatePhis_propagates
    have hphis := h.length_phis_propagated
    have hwithout := h.withoutTrivialPhis
    have hform := hwithout.propagated
    have hsame : SameRequests f _ := fun V W exec hexec fuel regs world =>
      (h.run_withoutTrivialPhis hexec fuel regs world).trans
        (hwithout.run_propagated hexec fuel regs world)
    have hnone : ∀ instr ∈ ((f.mapBlocks BasicBlock.withoutTrivialPhis).mapBlocks fun block =>
        propagateIn (f.mapBlocks BasicBlock.withoutTrivialPhis) block.instrs).instrs,
        instr.opcode ≠ .kAssign := by
      intro instr hinstr
      obtain ⟨block, hblock, hin⟩ := mem_instrs.mp hinstr
      obtain ⟨old, -, rfl⟩ := mem_mapBlocks.mp hblock
      obtain ⟨instr, -, hopcode, rfl⟩ := mem_propagateIn.mp hin
      exact hopcode
    rw [phiEliminationLoop, hround]
    cases htrivial : f.hasTrivialPhi with
    | true =>
      obtain ⟨g, hg, hgForm, hgSame, hgNone, hgTrivial⟩ := ih hform (by
        have := length_phis_lt htrivial
        omega)
      refine ⟨g, by simpa using hg, hgForm, fun V W exec hexec fuel regs world => ?_, hgNone,
        fun _ => hgTrivial (.inl hnone)⟩
      exact (hsame V W exec hexec fuel regs world).trans (hgSame V W exec hexec fuel regs world)
    | false =>
      refine ⟨_, rfl, hform, hsame, hnone, ?_⟩
      rintro (hassign | hfalse)
      · rw [withoutTrivialPhis_self htrivial, h.propagated_self hassign, htrivial]
      · simp at hfalse

end CinderX.Jit.Hir
