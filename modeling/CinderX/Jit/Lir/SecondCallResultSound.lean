import CinderX.Jit.Lir.SecondCallResult

/-!
# Second results go with their calls

What the rewrite leaves of a function: behind each call of a web one move of the second return
register, and a phi for each phi.  So on every path, the new register holds the second result of
the call whose first result the source holds.
-/

namespace CinderX.Jit.Lir.SecondCallResult

open List Instr

section Accepted

variable (blocks : List BasicBlock)

def values : List Input → List Input
  | _ :: value :: rest => value :: values rest
  | _ => []

def Feeds (w x : VReg) : Prop :=
  ∃ phi ∈ instrsOf blocks, Instr.defines phi w = true ∧ phi.isPhi = true ∧
    ∃ value ∈ values phi.inputs, define? value = some x

/-- The registers that a source takes its values from, through any number of phis. -/
def WebOf (src w : VReg) : Prop := Relation.ReflTransGen (Feeds blocks) src w

structure Loads (instr : Instruction) (out src : VReg) : Prop where
  opcode : Instr.isLoadSecondCallResult instr = true
  output : instr.output = .vreg out
  input : ∃ input rest, instr.inputs = input :: rest ∧ define? input = some src

def IsSource (w : VReg) : Prop :=
  ∃ instr ∈ instrsOf blocks, Instr.defines instr w = true ∧
    (Instr.isCallLike instr = true ∨ instr.isPhi = true ∧ Linked (fun _ => True) instr.inputs)

def Contributes (w : VReg) : Prop :=
  ∃ call ∈ instrsOf blocks, Instr.defines call w = true ∧ Instr.isCallLike call = true ∧
    ∃ load ∈ instrsOf blocks, ∃ out src, Loads load out src ∧ WebOf blocks src w

end Accepted

def withoutLoads (instrs : List Instruction) : List Instruction :=
  instrs.filter fun instr => !Instr.isLoadSecondCallResult instr

structure Accepted (second : Nat) (s : State) : Prop where
  unique : (outputsOf s.blocks).Nodup
  below : ∀ v ∈ outputsOf s.blocks, v < s.nextVReg
  /-- Nothing has been done for a call before. -/
  noSecond : ∀ w, Contributes s.blocks w → ∀ bb ∈ s.blocks, ∀ other,
    behind (withoutLoads bb.instrs) w = some other → Instr.movesSecond other second = false
  loads : ∀ instr ∈ instrsOf s.blocks, Instr.isLoadSecondCallResult instr = true →
    ∃ out src, Loads instr out src ∧ ∀ w, WebOf s.blocks src w → IsSource s.blocks w
  /-- No call is asked for its second result twice. -/
  unshared : ∀ instr ∈ instrsOf s.blocks, ∀ other ∈ instrsOf s.blocks, ∀ out src out' src',
    Loads instr out src → Loads other out' src' → out ≠ out' →
      ∀ w, WebOf s.blocks src w → WebOf s.blocks src' w →
        ∀ call ∈ instrsOf s.blocks, Instr.defines call w = true → Instr.isCallLike call = false

variable {second : Nat} {blocks : List BasicBlock} {s s' : State} {outs : List VReg}
  {v w x src out : VReg} {instr : Instruction}

theorem Loads.unique {out' src' : VReg} (h : Loads instr out src) (h' : Loads instr out' src') :
    out = out' ∧ src = src' := by
  obtain ⟨input, rest, hinputs, hsrc⟩ := h.input
  obtain ⟨input', rest', hinputs', hsrc'⟩ := h'.input
  obtain ⟨rfl, -⟩ := List.cons.inj (hinputs.symm.trans hinputs')
  have houtput := h.output.symm.trans h'.output
  exact ⟨by simpa using houtput, Option.some.inj (hsrc.symm.trans hsrc')⟩

def without (outs : List VReg) (blocks : List BasicBlock) : List BasicBlock :=
  blocks.map fun bb =>
    { bb with instrs := bb.instrs.filter fun instr => outs.all fun v => !Instr.defines instr v }

theorem instrsOf_without : instrsOf (without outs blocks) =
    (instrsOf blocks).filter fun instr => outs.all fun v => !Instr.defines instr v := by
  simp [instrsOf, without, flatMap_map, filter_flatMap]

theorem mem_without : instr ∈ instrsOf (without outs blocks) ↔
    instr ∈ instrsOf blocks ∧ ∀ v ∈ outs, Instr.defines instr v = false := by
  simp [instrsOf_without]

theorem outputsOf_without_sublist : (outputsOf (without outs blocks)).Sublist
    (outputsOf blocks) := by
  rw [outputsOf, instrsOf_without]
  exact filter_sublist.filterMap _

theorem without_cons : without (v :: outs) blocks =
    (without outs blocks).map fun bb =>
      { bb with instrs := bb.instrs.filter fun instr => !Instr.defines instr v } := by
  simp [without, List.map_map, Function.comp_def, List.filter_filter]

theorem without_nil : without [] blocks = blocks := by
  refine map_id'' (fun bb => ?_) blocks
  simp

theorem render_nil : render (fun _ => []) blocks = blocks := by
  have hinstrs : ∀ instrs : List Instruction, renderInstrs (fun _ => []) instrs = instrs := by
    intro instrs
    induction instrs with
    | nil => rfl
    | cons instr instrs ih =>
      rw [renderInstrs_cons, ih]
      unfold parallels
      split <;> rfl
  refine map_id'' (fun bb => ?_) blocks
  rw [hinstrs]

theorem not_mem_outputsOf_without (hv : v ∈ outs) : v ∉ outputsOf (without outs blocks) := by
  intro hmem
  obtain ⟨instr, hinstr, hdefines⟩ := mem_outputsOf.mp hmem
  simp [(mem_without.mp hinstr).2 v hv] at hdefines

theorem Linked.of_forall {web : VReg → Prop} {inputs : List Input}
    (h : Linked (fun _ => True) inputs)
    (hweb : ∀ value ∈ values inputs, ∀ x, define? value = some x → web x) : Linked web inputs := by
  induction h with
  | nil => exact .nil
  | cons hx _ _ ih =>
    exact .cons hx (hweb _ (by simp [values]) _ hx)
      (ih fun value hvalue => hweb value (by simp [values, hvalue]))

theorem not_load_of_source (h : Instr.isCallLike instr = true ∨ instr.isPhi = true) :
    Instr.isLoadSecondCallResult instr = false := by
  rcases h with h | h
  · simp only [isCallLike, Bool.or_eq_true, decide_eq_true_eq] at h
    rcases h with h | h <;> simp [isLoadSecondCallResult, h]
  · simp only [Instruction.isPhi, decide_eq_true_eq] at h
    simp [isLoadSecondCallResult, h]

variable {names : VReg → Option VReg} {instrs : List Instruction}

theorem Closed.of_without {p : Parallel}
    (h : Closed second (without outs blocks) names w p) : Closed second blocks names w p := by
  obtain ⟨instr, hinstr, hrest⟩ := h
  exact ⟨instr, (mem_without.mp hinstr).1, hrest⟩

theorem Mirrors.names_isSome {inputs inputs' : List Input}
    (h : Mirrors names inputs inputs') {value : Input} (hvalue : value ∈ values inputs)
    (hx : define? value = some x) : ∃ v, names x = some v := by
  induction h with
  | nil => cases hvalue
  | cons hx' hname _ _ ih =>
    rcases mem_cons.mp hvalue with rfl | hrest
    · obtain rfl := Option.some.inj (hx'.symm.trans hx)
      exact ⟨_, hname⟩
    · exact ih hrest

theorem sublist_renderInstrs {par : VReg → List Parallel} :
    instrs.Sublist (renderInstrs par instrs) := by
  induction instrs with
  | nil => exact .slnil
  | cons instr instrs ih =>
    rw [renderInstrs_cons]
    exact (ih.trans (sublist_append_right _ _)).cons_cons instr

/-! ## One load -/

/-- What has been done of the rewrite: the loads that define `outs` are gone. -/
structure Rewritten (second : Nat) (F : List BasicBlock) (outs : List VReg)
    (bg : VReg → List Parallel) (s : State) : Prop where
  rendered : s.blocks = render bg (without outs F)
  below : ∀ v ∈ outputsOf (without outs F), v < s.nextVReg
  bgBelow : ∀ w, ∀ p ∈ bg w, p.vreg < s.nextVReg
  apart : ∀ v ∈ outputsOf (without outs F), Apart bg v
  inj : ∀ w w' p p', p ∈ bg w → p' ∈ bg w' → p.vreg = p'.vreg → w = w'
  gone : ∀ v ∈ outs, ∃ load ∈ instrsOf F, ∃ src, Loads load v src
  /-- Everything new is for a load that is gone. -/
  owner : ∀ w, ∀ p ∈ bg w, ∃ load ∈ instrsOf F, ∃ out ∈ outs, ∃ src, Loads load out src ∧
    WebOf F src w ∧ ∃ names, Closed second F names w p
  /-- The whole web of a load that is gone has second results. -/
  handled : ∀ load ∈ instrsOf F, ∀ out ∈ outs, ∀ src, Loads load out src →
    ∃ names : VReg → Option VReg, names src = some out ∧ ∀ w, WebOf F src w →
      ∃ p ∈ bg w, names w = some p.vreg ∧ Closed second F names w p
  calls : ∀ w, ∀ call ∈ instrsOf F, Instr.defines call w = true →
    Instr.isCallLike call = true → (bg w).length ≤ 1

theorem behind_withoutLoads {other : Instruction}
    (hw : ∀ instr ∈ instrs, Instr.defines instr w = true → Instr.isLoadSecondCallResult instr =
      false)
    (hbehind : behind instrs w = some other) (hother : Instr.isLoadSecondCallResult other = false) :
    behind (withoutLoads instrs) w = some other := by
  induction instrs with
  | nil => cases hbehind
  | cons instr instrs ih =>
    obtain ⟨hinstr, hrest⟩ := forall_mem_cons.mp hw
    rw [behind_cons] at hbehind
    by_cases hdefines : defines instr w = true
    · rw [if_pos hdefines] at hbehind
      obtain ⟨rest, rfl⟩ := head?_eq_some_iff.mp hbehind
      simp [withoutLoads, hinstr hdefines, hother, behind_cons, hdefines]
    · rw [if_neg hdefines] at hbehind
      have ih := ih hrest hbehind
      cases hload : isLoadSecondCallResult instr with
      | true => simpa [withoutLoads, hload] using ih
      | false => simpa [withoutLoads, hload, behind_cons, hdefines] using ih

section Step

variable {s₀ : State} {bg : VReg → List Parallel} (ha : Accepted second s₀)
  (h : Rewritten second s₀.blocks outs bg s) (hload : instr ∈ instrsOf (without outs s₀.blocks))
  (hl : Loads instr out src)

include ha hload hl in
theorem mem_without_of_source {other : Instruction}
    (hother : other ∈ instrsOf s₀.blocks) (hgone : ∀ v ∈ outs, ∃ load ∈ instrsOf s₀.blocks, ∃ src,
      Loads load v src)
    (hsource : Instr.isCallLike other = true ∨ other.isPhi = true) :
    other ∈ instrsOf (without (out :: outs) s₀.blocks) := by
  have hno : ∀ load ∈ instrsOf s₀.blocks, ∀ v src, Loads load v src → defines other v = false := by
    intro load hmem v src' hv
    refine Bool.eq_false_iff.mpr fun hdefines => ?_
    have hsame := eq_of_defines ha.unique hother hmem hdefines (defines_iff.mpr hv.output)
    have hopcode := hv.opcode
    rw [← hsame, not_load_of_source hsource] at hopcode
    cases hopcode
  refine mem_without.mpr ⟨hother, fun v hv => ?_⟩
  rcases mem_cons.mp hv with rfl | hv'
  · exact hno instr (mem_without.mp hload).1 v src hl
  · obtain ⟨load, hmem, src', hsrc'⟩ := hgone v hv'
    exact hno load hmem v src' hsrc'

include ha in
theorem Accepted.noSecond_without (hgone : ∀ v ∈ outs, ∃ load ∈ instrsOf s₀.blocks, ∃ src,
      Loads load v src) (hmem : instr ∈ instrsOf s₀.blocks) (hl : Loads instr out src)
    (hw : WebOf s₀.blocks src w) : NoSecond second (without outs s₀.blocks) w := by
  intro call hcall hdefines hisCall bb hbb other hbehind
  obtain ⟨bb₀, hbb₀, rfl⟩ := List.mem_map.mp hbb
  have hcallMem := (mem_without.mp hcall).1
  cases hother : isLoadSecondCallResult other with
  | true =>
    simp only [isLoadSecondCallResult, decide_eq_true_eq] at hother
    simp [movesSecond, hother]
  | false =>
    refine ha.noSecond w ⟨call, hcallMem, hdefines, hisCall, instr, hmem, out, src, hl, hw⟩ bb₀ hbb₀
      other ?_
    have hinstrs : ∀ other ∈ bb₀.instrs, other ∈ instrsOf s₀.blocks := fun other hother =>
      mem_flatMap.mpr ⟨bb₀, hbb₀, hother⟩
    have hsame : withoutLoads (bb₀.instrs.filter fun instr =>
        outs.all fun v => !defines instr v) = withoutLoads bb₀.instrs := by
      rw [withoutLoads, withoutLoads, List.filter_filter]
      refine filter_congr fun other hmemOther => ?_
      cases hload : isLoadSecondCallResult other with
      | true => rfl
      | false =>
        refine (Bool.true_and _).trans (List.all_eq_true.mpr fun v hv => ?_)
        obtain ⟨load, hload', src', hl'⟩ := hgone v hv
        cases hdefines : defines other v with
        | false => rfl
        | true =>
          rw [eq_of_defines ha.unique (hinstrs other hmemOther) hload' hdefines
            (defines_iff.mpr hl'.output), hl'.opcode] at hload
          cases hload
    rw [← hsame]
    refine behind_withoutLoads (fun other hmemOther hdefines' => ?_) hbehind hother
    rw [eq_of_defines ha.unique (hinstrs other (mem_filter.mp hmemOther).1) hcallMem hdefines'
      hdefines]
    exact not_load_of_source (Or.inl hisCall)

include hload hl in
theorem out_not_mem : out ∉ outs := fun hmem => by
  have hdefines := (mem_without.mp hload).2 out hmem
  simp [defines_iff.mpr hl.output] at hdefines

include hload hl in
theorem out_mem_outputsOf : out ∈ outputsOf (without outs s₀.blocks) :=
  mem_outputsOf.mpr ⟨instr, hload, defines_iff.mpr hl.output⟩

include ha h hload hl in
theorem Rewritten.nil_of_load : bg out = [] := by
  refine eq_nil_iff_forall_not_mem.mpr fun p hp => ?_
  obtain ⟨-, -, -, -, -, -, -, names, other, hother, hdefines, hkind⟩ := h.owner out p hp
  have hsame := eq_of_defines ha.unique hother (mem_without.mp hload).1 hdefines
    (defines_iff.mpr hl.output)
  have hopcode := hl.opcode
  rw [← hsame, not_load_of_source (hkind.imp (·.1) (·.1))] at hopcode
  cases hopcode

include ha h hload hl in
theorem Rewritten.web : Web second (without (out :: outs) s₀.blocks) bg (WebOf s₀.blocks src) where
  unique := outputsOf_without_sublist.nodup ha.unique
  noSecond w hw := by
    refine ha.noSecond_without (fun v hv => ?_) (mem_without.mp hload).1 hl hw
    rcases mem_cons.mp hv with rfl | hv'
    · exact ⟨instr, (mem_without.mp hload).1, src, hl⟩
    · exact h.gone v hv'
  apart v hv := by
    obtain ⟨other, hother, hdefines⟩ := mem_outputsOf.mp hv
    refine h.apart v (mem_outputsOf.mpr ⟨other, mem_without.mpr ⟨(mem_without.mp hother).1,
      fun v hv => (mem_without.mp hother).2 v (mem_cons_of_mem _ hv)⟩, hdefines⟩)
  source w hw := by
    have hmem := (mem_without.mp hload).1
    obtain ⟨out', src', hl', hsources⟩ := ha.loads instr hmem hl.opcode
    obtain ⟨rfl, rfl⟩ := hl.unique hl'
    obtain ⟨other, hother, hdefines, hkind⟩ := hsources w hw
    refine ⟨other, mem_without_of_source ha hload hl hother h.gone (hkind.imp id (·.1)), hdefines,
      ?_⟩
    rcases hkind with hcall | ⟨hphi, hlinked⟩
    · refine Or.inl ⟨hcall, eq_nil_iff_forall_not_mem.mpr fun p hp => ?_⟩
      obtain ⟨load, hload', out', hout', src', hl', hw', -⟩ := h.owner w p hp
      have hne : out ≠ out' := fun hsame => out_not_mem hload hl (hsame ▸ hout')
      have hnot := ha.unshared instr hmem load hload' out src out' src' hl hl' hne w hw hw' other
        hother hdefines
      rw [hcall] at hnot
      cases hnot
    · exact Or.inr ⟨hphi, hlinked.of_forall fun value hvalue x hx =>
        hw.tail ⟨other, hother, hdefines, hphi, value, hvalue, hx⟩⟩

include ha h hload hl in
theorem Rewritten.get (fuel : Nat)
    (hfuel : (outputsOf (without (out :: outs) s₀.blocks)).length ≤ fuel)
    (data_type : DataType) : ∃ s' par,
      getSecondCallResult second data_type (fuel + 1) (some out) src { s with seen_srcs := [] } =
        some (out, s') ∧
      Progress (without (out :: outs) s₀.blocks) bg par s' ∧ namesOf par src = some out ∧
      ∀ w p, par w = some p → WebOf s₀.blocks src w ∧
        Closed second (without (out :: outs) s₀.blocks) (namesOf par) w p := by
  have hweb := h.web ha hload hl
  have hsub : ∀ other ∈ instrsOf (without (out :: outs) s₀.blocks),
      other ∈ instrsOf (without outs s₀.blocks) := by
    intro other hother
    rw [mem_without] at hother ⊢
    exact ⟨hother.1, fun v hv => hother.2 v (mem_cons_of_mem _ hv)⟩
  have hsubOut : ∀ v ∈ outputsOf (without (out :: outs) s₀.blocks),
      v ∈ outputsOf (without outs s₀.blocks) := by
    intro v hv
    obtain ⟨other, hother, hdefines⟩ := mem_outputsOf.mp hv
    exact mem_outputsOf.mpr ⟨other, hsub other hother, hdefines⟩
  obtain ⟨other, hother, hdefines, hkind⟩ := hweb.source src .refl
  have hsrcOut : src ∈ outputsOf (without (out :: outs) s₀.blocks) :=
    mem_outputsOf.mpr ⟨other, hother, hdefines⟩
  obtain ⟨src_instr, hmem, hdefines', hkind', heq⟩ :=
    getSecondCallResult_succ data_type (s := { s with seen_srcs := [] }) hweb .refl hsub
      (outputsOf_without_sublist.nodup ha.unique)
      (ha.noSecond_without h.gone (mem_without.mp hload).1 hl .refl) h.rendered
      (h.apart src (hsubOut src hsrcOut)) rfl rfl fuel (some out)
  have houtMem := out_mem_outputsOf hload hl
  have hremoved : (s.removeInstr out).blocks =
      render (fun w => (none : Option Parallel).toList ++ bg w)
        (without (out :: outs) s₀.blocks) := by
    rw [without_cons]
    simp only [State.removeInstr, State.mapInstrs, h.rendered, render, List.map_map]
    refine map_congr_left fun bb _ => ?_
    simp only [Function.comp_apply,
      removeInstr_renderInstrs (h.apart out houtMem) (h.nil_of_load ha hload hl)]
    rfl
  have hplaced := Progress.placed (s := { s.removeInstr out with seen_srcs := [] }) (v := out)
    (if isCallLike src_instr then .kMove else .kPhi) hremoved (fun _ => rfl)
    (fun _ _ hp => by cases hp) (fun _ _ _ _ hp => by cases hp)
    (fun u hu => h.below u (hsubOut u hu)) h.bgBelow (hweb.apart src hsrcOut) rfl
    ⟨h.below out houtMem, not_mem_outputsOf_without (mem_cons_self ..), h.apart out houtMem⟩
  have hless : remaining (without (out :: outs) s₀.blocks) (Function.update (fun _ => none) src
      (some ⟨out, if isCallLike src_instr then .kMove else .kPhi, []⟩)) <
        remaining (without (out :: outs) s₀.blocks) (fun _ => none) :=
    remaining_update_lt hsrcOut rfl _
  have hremaining : remaining (without (out :: outs) s₀.blocks) (fun _ => none) ≤
      (outputsOf (without (out :: outs) s₀.blocks)).length := countP_le_length
  obtain ⟨s', par', p', hfinish, h', hp', hname, hclosed, hkept, hnew⟩ :=
    finish_spec data_type (get_spec data_type hweb fuel) hmem hdefines' hkind' hplaced
      (Function.update_self _ _ _) (by omega)
  refine ⟨s', par', heq.trans hfinish, h', by simp [namesOf, hp', hname], fun w p hp => ?_⟩
  by_cases hw : w = src
  · subst hw
    obtain rfl := Option.some.inj (hp'.symm.trans hp)
    exact ⟨.refl, hclosed⟩
  · exact hnew w hw p (by rw [Function.update_of_ne hw]) hp

theorem names_of_webOf {F : List BasicBlock} (hunique : (outputsOf F).Nodup)
    {par : VReg → Option Parallel} (hout : namesOf par src = some out)
    (hclosed : ∀ w p, par w = some p → Closed second F (namesOf par) w p)
    (hw : WebOf F src w) : ∃ p, par w = some p := by
  induction hw with
  | refl =>
    obtain ⟨p, hp, -⟩ := Option.map_eq_some_iff.mp hout
    exact ⟨p, hp⟩
  | @tail y x _ hfeeds ih =>
    obtain ⟨p, hp⟩ := ih
    obtain ⟨phi, hphi, hdefines, hisPhi, value, hvalue, hx⟩ := hfeeds
    obtain ⟨other, hother, hdefines', ⟨hcall, -⟩ | ⟨-, -, hmirrors⟩⟩ := hclosed y p hp
    · obtain rfl := eq_of_defines hunique hphi hother hdefines hdefines'
      simp only [Instruction.isPhi, decide_eq_true_eq] at hisPhi
      simp [isCallLike, hisPhi] at hcall
    · obtain rfl := eq_of_defines hunique hphi hother hdefines hdefines'
      obtain ⟨v, hv⟩ := hmirrors.names_isSome hvalue hx
      obtain ⟨q, hq, -⟩ := Option.map_eq_some_iff.mp hv
      exact ⟨q, hq⟩

include ha h hload hl in
theorem Rewritten.load : ∃ s' bg', rewriteLoadSecondCallResult second instr s = some s' ∧
    Rewritten second s₀.blocks (out :: outs) bg' s' := by
  obtain ⟨input, rest, hinputs, hsrc⟩ := hl.input
  have hmem := (mem_without.mp hload).1
  have hlength : (outputsOf (without (out :: outs) s₀.blocks)).length ≤ s.instrs.length := by
    have hrendered : s.instrs = renderInstrs bg (instrsOf (without outs s₀.blocks)) := by
      rw [← instrsOf_render, ← h.rendered]
      rfl
    calc (outputsOf (without (out :: outs) s₀.blocks)).length
        ≤ (instrsOf (without (out :: outs) s₀.blocks)).length := length_filterMap_le _ _
      _ ≤ (instrsOf (without outs s₀.blocks)).length := by
          rw [instrsOf_without, instrsOf_without]
          refine (monotone_filter_right _ fun other hother => ?_).length_le
          simpa using fun v hv => List.all_eq_true.mp hother v (mem_cons_of_mem _ hv)
      _ ≤ s.instrs.length := by
          rw [hrendered]
          exact sublist_renderInstrs.length_le
  obtain ⟨s', par, hget, h', hout, hclosed⟩ :=
    h.get ha hload hl s.instrs.length hlength (s.dataType out)
  have hclosed' : ∀ w p, par w = some p → Closed second s₀.blocks (namesOf par) w p :=
    fun w p hp => (hclosed w p hp).2.of_without
  refine ⟨s', fun w => (par w).toList ++ bg w, ?_, h'.blocks, h'.below, fun w p hp => ?_,
    fun v hv => h'.apart hv ((h.web ha hload hl).apart v hv), fun w w' p p' hp hp' hsame => ?_,
    fun v hv => ?_, fun w p hp => ?_, fun load hload' out' hout' src' hl' => ?_,
    fun w call hcall hdefines hisCall => ?_⟩
  · simp only [rewriteLoadSecondCallResult, hl.output, hinputs, hsrc, Option.bind_eq_bind,
      Option.bind_some, hget, Option.pure_def]
  · rcases mem_append.mp hp with hp | hp
    · exact (h'.fresh w p (by simpa using hp)).1
    · exact h'.bgBelow w p hp
  · rcases mem_append.mp hp with hp | hp <;> rcases mem_append.mp hp' with hp' | hp'
    · exact h'.inj w w' p p' (by simpa using hp) (by simpa using hp') hsame
    · exact absurd hsame.symm ((h'.fresh w p (by simpa using hp)).2.2 w' p' hp')
    · exact absurd hsame ((h'.fresh w' p' (by simpa using hp')).2.2 w p hp)
    · exact h.inj w w' p p' hp hp' hsame
  · rcases mem_cons.mp hv with rfl | hv'
    · exact ⟨instr, hmem, src, hl⟩
    · exact h.gone v hv'
  · rcases mem_append.mp hp with hp | hp
    · exact ⟨instr, hmem, out, mem_cons_self .., src, hl,
        (hclosed w p (by simpa using hp)).1, namesOf par, hclosed' w p (by simpa using hp)⟩
    · obtain ⟨load, hload', out', hout', hrest⟩ := h.owner w p hp
      exact ⟨load, hload', out', mem_cons_of_mem _ hout', hrest⟩
  · rcases mem_cons.mp hout' with rfl | hout''
    · obtain rfl := eq_of_defines ha.unique hmem hload' (defines_iff.mpr hl.output)
        (defines_iff.mpr hl'.output)
      obtain ⟨-, rfl⟩ := hl.unique hl'
      refine ⟨namesOf par, hout, fun w hw => ?_⟩
      obtain ⟨p, hp⟩ := names_of_webOf ha.unique hout hclosed' hw
      exact ⟨p, by simp [hp], by simp [namesOf, hp], hclosed' w p hp⟩
    · obtain ⟨names, hname, hall⟩ := h.handled load hload' out' hout'' src' hl'
      refine ⟨names, hname, fun w hw => ?_⟩
      obtain ⟨p, hp, hrest⟩ := hall w hw
      exact ⟨p, mem_append_right _ hp, hrest⟩
  · cases hp : par w with
    | none => simpa using h.calls w call hcall hdefines hisCall
    | some p =>
      obtain ⟨other, hother, hdefines', ⟨-, hnil⟩ | ⟨hphi, -⟩⟩ :=
        (h.web ha hload hl).source w (hclosed w p hp).1
      · simp [hnil]
      · obtain rfl := eq_of_defines ha.unique hcall (mem_without.mp hother).1 hdefines hdefines'
        simp only [Instruction.isPhi, decide_eq_true_eq] at hphi
        simp [isCallLike, hphi] at hisCall

end Step

def loadsOf (blocks : List BasicBlock) : List Instruction :=
  (instrsOf blocks).filter Instr.isLoadSecondCallResult

theorem loadsOf_without_lt (hload : instr ∈ instrsOf (without outs blocks))
    (hl : Loads instr out src) :
    (loadsOf (without (out :: outs) blocks)).length < (loadsOf (without outs blocks)).length := by
  have hcomm : loadsOf (without (out :: outs) blocks) =
      (loadsOf (without outs blocks)).filter fun other => !defines other out := by
    simp only [loadsOf, instrsOf_without, List.filter_filter, List.all_cons]
    refine filter_congr fun other _ => ?_
    cases defines other out <;> simp
  rw [hcomm]
  refine length_filter_lt_length_iff_exists.mpr
    ⟨instr, mem_filter.mpr ⟨hload, hl.opcode⟩, ?_⟩
  simp [defines_iff.mpr hl.output]

section All

variable {s₀ : State} {bg : VReg → List Parallel}

theorem Rewritten.not_load (h : Rewritten second s₀.blocks outs bg s) {other : Instruction}
    (hother : other ∈ parallels bg instr) : Instr.isLoadSecondCallResult other = false := by
  obtain ⟨w, -, p, hp, rfl⟩ := exists_of_mem_parallels hother
  obtain ⟨-, -, -, -, -, -, -, names, -, -, -, ⟨-, hopcode, -⟩ | ⟨-, hopcode, -⟩⟩ :=
    h.owner w p hp <;>
    simp [isLoadSecondCallResult, Parallel.instr, hopcode]

theorem Rewritten.find? (h : Rewritten second s₀.blocks outs bg s) :
    s.instrs.find? Instr.isLoadSecondCallResult =
      (instrsOf (without outs s₀.blocks)).find? Instr.isLoadSecondCallResult := by
  have hrendered : s.instrs = renderInstrs bg (instrsOf (without outs s₀.blocks)) := by
    rw [← instrsOf_render, ← h.rendered]
    rfl
  rw [hrendered, find?_renderInstrs fun _ _ _ hother => h.not_load hother]

theorem Rewritten.start (ha : Accepted second s₀) : Rewritten second s₀.blocks []
    (fun _ => []) s₀ where
  rendered := by rw [without_nil, render_nil]
  below := by
    rw [without_nil]
    exact ha.below
  bgBelow _ _ hp := by cases hp
  apart _ _ _ _ hp := by cases hp
  inj _ _ _ _ hp := by cases hp
  gone _ hv := by cases hv
  owner _ _ hp := by cases hp
  handled _ _ _ hout := by cases hout
  calls _ _ _ _ _ := Nat.zero_le _

theorem Rewritten.all (ha : Accepted second s₀) (h : Rewritten second s₀.blocks outs bg s)
    (fuel : Nat)
    (hfuel : (loadsOf (without outs s₀.blocks)).length ≤ fuel) :
    ∃ s' outs' bg', rewriteAll second fuel s = some s' ∧
      Rewritten second s₀.blocks outs' bg' s' ∧ loadsOf (without outs' s₀.blocks) = [] := by
  induction fuel generalizing s outs bg with
  | zero =>
    have hnil : loadsOf (without outs s₀.blocks) = [] := length_eq_zero_iff.mp (by omega)
    have hnone : s.instrs.any isLoadSecondCallResult = false := by
      rw [← isSome_find?, h.find?, find?_eq_none.mpr fun instr hinstr hload => ?_]
      · rfl
      · have hmem : instr ∈ loadsOf (without outs s₀.blocks) :=
          mem_filter.mpr ⟨hinstr, hload⟩
        simp [hnil] at hmem
    exact ⟨s, outs, bg, by simp [rewriteAll, hnone], h, hnil⟩
  | succ fuel ih =>
    cases hfind : (instrsOf (without outs s₀.blocks)).find? isLoadSecondCallResult with
    | none =>
      refine ⟨s, outs, bg, by simp [rewriteAll, h.find?, hfind], h, ?_⟩
      exact filter_eq_nil_iff.mpr (find?_eq_none.mp hfind)
    | some instr =>
      have hmem := mem_of_find?_eq_some hfind
      obtain ⟨out, src, hl, -⟩ :=
        ha.loads instr (mem_without.mp hmem).1 (find?_some hfind)
      obtain ⟨s₁, bg₁, hstep, h₁⟩ := h.load ha hmem hl
      have hless := loadsOf_without_lt hmem hl
      obtain ⟨s', outs', bg', hrest, hdone⟩ := ih h₁ (by omega)
      refine ⟨s', outs', bg', ?_, hdone⟩
      simp only [rewriteAll, h.find?, hfind, hstep, Option.bind_eq_bind, Option.bind_some, hrest]

end All

end CinderX.Jit.Lir.SecondCallResult
