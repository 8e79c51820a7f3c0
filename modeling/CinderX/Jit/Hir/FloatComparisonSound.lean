import CinderX.Jit.Hir.FloatComparisonForm

/-!
# Float comparison simplification is sound

The instructions that the function before and the function after have in common
are executed in the same order with the same values.
-/

namespace CinderX.Jit.Hir

open Foundation List Instr Hir.Function

variable {n : Nat} {f : Function n} {allocated : Nat → Register n} {V W : Type}

structure FloatValues (V : Type) where
  ofBool : Bool → V
  ofCBool : Bool → V
  /-- What a `float` object contains. -/
  toDouble? : V → Option Double
  ofCDouble : Double → V

/-- What is documented of the instructions of the pass.  `True` and `False` are not counted. -/
structure RunsFloatComparisons (exec : Request V → W → Outcome V W) (values : FloatValues V) :
    Prop extends RunsAssigns exec where
  loadConst : ∀ (request : Request V) world b, request.opcode = .kLoadConst →
    boolConst? request.immediate = some b → exec request world = .next (values.ofBool b) world
  floatCompare : ∀ (request : Request V) world (op : CompareOp) comparison left right a b,
    request.opcode = .kFloatCompare → request.immediate = op.toNat →
    op.comparison? = some comparison → request.operands = [left, right] →
    values.toDouble? left = some a → values.toDouble? right = some b →
      exec request world = .next (values.ofBool (comparison.holds (a.compare b))) world
  primitiveUnbox : ∀ (request : Request V) world value a, request.opcode = .kPrimitiveUnbox →
    request.immediate = TCDouble → request.operands = [value] → values.toDouble? value = some a →
      exec request world = .next (values.ofCDouble a) world
  compareDoubles : ∀ (request : Request V) world (op : PrimitiveCompareOp) a b,
    request.opcode = .kPrimitiveCompare → request.immediate = op.toNat →
    request.operands = [values.ofCDouble a, values.ofCDouble b] →
      exec request world = .next (values.ofCBool (op.condCode.holds (fcmp a b))) world
  compareEqual : ∀ (request : Request V) world a b, request.opcode = .kPrimitiveCompare →
    request.immediate = PrimitiveCompareOp.kEqual.toNat →
    request.operands = [values.ofBool a, values.ofBool b] →
      exec request world = .next (values.ofCBool (a == b)) world
  compareNotEqual : ∀ (request : Request V) world a b, request.opcode = .kPrimitiveCompare →
    request.immediate = PrimitiveCompareOp.kNotEqual.toNat →
    request.operands = [values.ofBool a, values.ofBool b] →
      exec request world = .next (values.ofCBool (a != b)) world
  decref : ∀ (request : Request V) world b,
    request.opcode = .kDecref ∨ request.opcode = .kXDecref →
    request.operands = [values.ofBool b] → ∃ value, exec request world = .next value world

def comparesFloats (values : FloatValues V) (event : Event n V) : Prop :=
  event.instr.opcode = .kFloatCompare →
    ∀ value ∈ event.request.operands, (values.toDouble? value).isSome = true

structure FloatValues.Means (values : FloatValues V) (d : Instr n) (regs : Register n → V) :
    Prop where
  assign : ∀ x y, d.opcode = .kAssign → d.output = some x → d.operands = [y] → regs x = regs y
  loadConst : ∀ x constant b, d = .loadConst x constant → boolConst? constant = some b →
    regs x = values.ofBool b
  floatCompare : ∀ x op left right, d = .floatCompare x op left right → ∀ comparison,
    op.comparison? = some comparison → ∃ a b, values.toDouble? (regs left) = some a ∧
      values.toDouble? (regs right) = some b ∧
        regs x = values.ofBool (comparison.holds (a.compare b))

theorem FloatValues.means_isLocal (values : FloatValues V) :
    IsLocal (n := n) values.Means := by
  intro d regs regs' hsame hmeans
  constructor
  · intro x y hassign houtput hoperands
    rw [← hsame x (.inl houtput), ← hsame y (.inr (by simp [hoperands]))]
    exact hmeans.assign x y hassign houtput hoperands
  · rintro x constant b rfl hb
    rw [← hsame x (.inl rfl)]
    exact hmeans.loadConst x constant b rfl hb
  · rintro x op left right rfl comparison hcomparison
    rw [← hsame x (.inl rfl), ← hsame left (.inr (by simp [floatCompare])),
      ← hsame right (.inr (by simp [floatCompare]))]
    exact hmeans.floatCompare x op left right rfl comparison hcomparison

theorem FloatValues.means_of_next {exec : Request V → W → Outcome V W} {values : FloatValues V}
    (hexec : RunsFloatComparisons exec values) {instr : Instr n}
    (hoperands : ∀ reg ∈ instr.operands, instr.output ≠ some reg) {regs : Register n → V}
    {world world' : W} {value : V}
    (hfloats : comparesFloats values ⟨instr, instr.request regs⟩)
    (hnext : exec (instr.request regs) world = .next value world') :
    values.Means instr (instr.assign value regs) := by
  have hkeeps : ∀ reg ∈ instr.operands, instr.assign value regs reg = regs reg :=
    fun reg hreg => by simp [assign, hoperands reg hreg]
  constructor
  · intro x y hassign houtput hoperands
    have hcopy := hexec.next (instr.request regs) (regs y) world hassign
      (by simp [request, hoperands])
    rw [hcopy] at hnext
    obtain ⟨rfl, -⟩ := Outcome.next.inj hnext
    rw [hkeeps y (by simp [hoperands])]
    simp [assign, houtput]
  · rintro x constant b rfl hb
    have hload := hexec.loadConst ((loadConst x constant).request regs) world b rfl hb
    rw [hload] at hnext
    obtain ⟨rfl, -⟩ := Outcome.next.inj hnext
    simp [assign, loadConst]
  · rintro x op left right rfl comparison hcomparison
    have hboth : (floatCompare x op left right).operands = [left, right] := rfl
    have hleft := hfloats rfl (regs left) (by simp [request, hboth])
    have hright := hfloats rfl (regs right) (by simp [request, hboth])
    obtain ⟨a, ha⟩ := Option.isSome_iff_exists.mp hleft
    obtain ⟨b, hb⟩ := Option.isSome_iff_exists.mp hright
    have hcompare := hexec.floatCompare ((floatCompare x op left right).request regs) world op
      comparison (regs left) (regs right) a b rfl rfl hcomparison rfl ha hb
    rw [hcompare] at hnext
    obtain ⟨rfl, -⟩ := Outcome.next.inj hnext
    rw [hkeeps left (by simp [hboth]), hkeeps right (by simp [hboth])]
    exact ⟨a, b, ha, hb, by simp [assign, floatCompare]⟩

namespace Function.Fusable

variable (h : f.Fusable allocated) {values : FloatValues V}

include h

variable {pre : List (Instr n)} {regs : Register n → V} {id : BlockId}

theorem regs_propagatedTo {post : List (Instr n)}
    (hpre : f.instrsOf id = pre ++ post) (hmeans : f.DefinitionsHold values.Means id pre regs)
    {reg : Register n} (hreg : f.DefinedAt id pre reg) : regs reg = regs (f.propagatedTo reg) := by
  obtain ⟨root, hroot⟩ := h.wellFormed.chaseAssignOperand_isSome reg
  rw [propagatedTo, hroot, Option.getD_some]
  have hchain := (chase_spec hroot).1
  clear hroot
  suffices hboth : regs reg = regs root ∧ f.DefinedAt id pre root from hboth.1
  induction hchain with
  | refl => exact ⟨rfl, hreg⟩
  | @tail x y _ hlink ih =>
    obtain ⟨heq, hx⟩ := ih
    obtain ⟨d, hd, hphi, houtput, hassign, hy⟩ := assign_of_assignOperand? hlink
    obtain ⟨operand, hoperand⟩ := length_eq_one_iff.mp ((h.wellShaped d hd).assign hassign).2
    obtain rfl : y = operand := by simpa [hoperand] using hy
    refine ⟨heq.trans ((hmeans d hd hphi x houtput hx).assign x y hassign houtput hoperand), ?_⟩
    exact h.wellFormed.definedAt_of_dependsOn ⟨d, hd, hphi, houtput, hy⟩ hpre hx

theorem regs_removed {fusion : Fusion n} (hmem : fusion ∈ f.fusions)
    (hmeans : f.DefinitionsHold values.Means id pre regs)
    (hdefined : f.DefinedAt id pre fusion.removed) :
    ∃ b, regs fusion.removed = values.ofBool b := by
  have hfuses := (fuses_of_mem h.created hmem).2.2
  obtain ⟨op, hcompare, hnewOp⟩ := hfuses.compare_eq
  obtain ⟨comparison, hcomparison, -⟩ := condCode_mapToFloatPrimitiveCompareOp hnewOp
  obtain ⟨home, hhome, hin, -⟩ := hfuses.tests.sameBlock
  obtain ⟨a, b, -, -, hvalue⟩ := (hmeans fusion.compare (mem_instrs.mpr ⟨home, hhome, hin⟩)
    (by simp [hcompare, isPhi, floatCompare]) _ (by rw [hcompare]; rfl)
    hdefined).floatCompare _ _ _ _ hcompare comparison hcomparison
  exact ⟨_, hvalue⟩

theorem exec_test {exec : Request V → W → Outcome V W} (hexec : RunsFloatComparisons exec values)
    {fusion : Fusion n} (hmem : fusion ∈ f.fusions) {block : BasicBlock n}
    (hpos : f.Position block pre fusion.test)
    (hmeans : f.DefinitionsHold values.Means block.id pre regs) (world : W) :
    ∃ a b, values.toDouble? (regs fusion.left) = some a ∧
      values.toDouble? (regs fusion.right) = some b ∧
      exec (fusion.test.request regs) world =
        .next (values.ofCBool (fusion.newOp.condCode.holds (fcmp a b))) world := by
  have hfuses := (fuses_of_mem h.created hmem).2.2
  obtain ⟨output, op, left, right, htest, hleft, constant, bool, hload, hbool, htruth⟩ :=
    hfuses.tests.test_eq
  obtain ⟨cmp, hcompare, hnewOp⟩ := hfuses.compare_eq
  obtain ⟨home, hhome, hin, -⟩ := hfuses.tests.sameBlock
  obtain ⟨comparison, hcomparison, hcond⟩ := condCode_mapToFloatPrimitiveCompareOp hnewOp
  obtain ⟨post, heq⟩ := hpos.split
  have hpre := (instrsOf_of_mem hpos.mem).trans heq
  have hdefined : ∀ reg ∈ fusion.test.operands, f.DefinedAt block.id pre reg :=
    h.wellFormed.operands block hpos.mem pre _ post heq (by simp [htest, isPhi, primitiveCompare])
  have hdefinedLeft := hdefined left (by simp [htest, primitiveCompare])
  have hdefinedRight := hdefined right (by simp [htest, primitiveCompare])
  have hcompareMem : fusion.compare ∈ f.instrs := mem_instrs.mpr ⟨home, hhome, hin⟩
  obtain ⟨a, b, ha, hb, hvalue⟩ := (hmeans fusion.compare hcompareMem
    (by simp [hcompare, isPhi, floatCompare]) _ hleft
    (h.wellFormed.definedAt_of_dependsOn_chain (h.wellFormed.propagatedTo_chain left) hpre
      hdefinedLeft)).floatCompare _ _ _ _ hcompare comparison hcomparison
  have hconst : regs (f.propagatedTo right) = values.ofBool bool := (hmeans _ hload rfl _ rfl
    (h.wellFormed.definedAt_of_dependsOn_chain (h.wellFormed.propagatedTo_chain right) hpre
      hdefinedRight)).loadConst _ _ _ rfl hbool
  have hremoved : f.propagatedTo left = fusion.removed := by
    simpa [hcompare, floatCompare] using hleft.symm
  have hoperands : (fusion.test.request regs).operands =
      [values.ofBool (comparison.holds (a.compare b)), values.ofBool bool] := by
    rw [← hvalue, ← hconst, ← hremoved, ← h.regs_propagatedTo hpre hmeans hdefinedLeft,
      ← h.regs_propagatedTo hpre hmeans hdefinedRight]
    simp [htest, request, primitiveCompare]
  refine ⟨a, b, ha, hb, ?_⟩
  rw [hcond a b]
  simp only [testsTruth, Bool.or_eq_true, Bool.and_eq_true, decide_eq_true_eq] at htruth
  obtain ⟨rfl, rfl⟩ | ⟨rfl, hfalse⟩ := htruth
  · rw [hexec.compareEqual _ world _ _ (by rw [htest]; rfl) (by rw [htest]; rfl) hoperands]
    simp
  · obtain rfl : bool = false := by simpa using hfalse
    rw [hexec.compareNotEqual _ world _ _ (by rw [htest]; rfl) (by rw [htest]; rfl) hoperands]
    simp

end Function.Fusable

def commonEvent (g : Function n) (event : Event n V) : Option (Instr n × Request V) :=
  if event.instr ∈ g.instrs then some (event.instr, event.request) else none

theorem Function.mem_instrs_fuseIn {instr : Instr n} :
    instr ∈ (f.mapBlocks fun block => fuseIn f allocated block.instrs).instrs ↔
      ∃ source ∈ f.instrs, instr ∈ f.fuse allocated source := by
  simp only [mem_instrs, mem_mapBlocks, fuseIn]
  constructor
  · rintro ⟨_, ⟨old, hold, rfl⟩, hmem⟩
    obtain ⟨source, hsource, hin⟩ := mem_flatMap.mp hmem
    exact ⟨source, ⟨old, hold, hsource⟩, hin⟩
  · rintro ⟨source, ⟨old, hold, hsource⟩, hin⟩
    exact ⟨_, ⟨old, hold, rfl⟩, mem_flatMap.mpr ⟨source, hsource, hin⟩⟩

namespace Function.Fusable

variable (h : f.Fusable allocated)

include h

theorem not_mem_of_new {fusion : Fusion n} {index : Nat} (hindex : f.fusions[index]? = some fusion)
    {instr : Instr n} (hmem : instr ∈
      [Instr.primitiveUnbox (allocated (2 * index)) fusion.left TCDouble,
        .primitiveUnbox (allocated (2 * index + 1)) fusion.right TCDouble,
        .primitiveCompare fusion.output fusion.newOp (allocated (2 * index))
          (allocated (2 * index + 1))]) : instr ∉ f.instrs := by
  intro hinstr
  simp only [mem_cons, not_mem_nil, or_false] at hmem
  obtain rfl | rfl | rfl := hmem
  · exact (h.unused hindex (.inl rfl) hinstr).1 rfl
  · exact (h.unused hindex (.inr rfl) hinstr).1 rfl
  · refine (h.unused hindex (.inl rfl) hinstr).2 (operands_subset_visitUses ?_)
    simp [primitiveCompare]

theorem not_mem_of_fuse_ne {instr : Instr n} (hinstr : instr ∈ f.instrs)
    (hne : f.fuse allocated instr ≠ [instr]) :
    instr ∉ (f.mapBlocks fun block => fuseIn f allocated block.instrs).instrs := by
  intro hmem
  obtain ⟨source, hsource, hin⟩ := mem_instrs_fuseIn.mp hmem
  have hfused := h.fused hsource
  generalize hout : f.fuse allocated source = out at hfused hin
  cases hfused with
  | kept =>
    obtain rfl : instr = source := by simpa using hin
    exact hne hout
  | compare | decref => simp at hin
  | test fusion hmem heq index hindex => exact h.not_mem_of_new hindex hin hinstr

end Function.Fusable

/-! ## Executing a block -/

def Function.Stays (f : Function n) (allocated : Nat → Register n) (reg : Register n) : Prop :=
  (∀ fusion ∈ f.fusions, fusion.removed ≠ reg) ∧ ∀ i < 2 * f.fusions.length, allocated i ≠ reg

def Function.AgreeOnStaying (f : Function n) (allocated : Nat → Register n)
    (regs regs' : Register n → V) :
    Prop :=
  ∀ reg, f.Stays allocated reg → regs reg = regs' reg

variable {regs regs' : Register n → V} {instr : Instr n}

theorem Function.AgreeOnStaying.assign (hregs : f.AgreeOnStaying allocated regs regs')
    {instr' : Instr n} (houtput : instr.output = instr'.output) (value : V) :
    f.AgreeOnStaying allocated (instr.assign value regs) (instr'.assign value regs') :=
  fun reg hreg => assign_congr houtput (hregs reg hreg) value

theorem Function.AgreeOnStaying.assign_left (hregs : f.AgreeOnStaying allocated regs regs')
    (houtput : ∀ reg, instr.output = some reg → ¬f.Stays allocated reg) (value : V) :
    f.AgreeOnStaying allocated (instr.assign value regs) regs' := fun reg hreg =>
  (assign_of_ne (fun heq => houtput reg heq hreg) value regs).trans (hregs reg hreg)

theorem Function.AgreeOnStaying.assign_right (hregs : f.AgreeOnStaying allocated regs regs')
    (houtput : ∀ reg, instr.output = some reg → ¬f.Stays allocated reg) (value : V) :
    f.AgreeOnStaying allocated regs (instr.assign value regs') := fun reg hreg =>
  (hregs reg hreg).trans (assign_of_ne (fun heq => houtput reg heq hreg) value regs').symm

def Function.AfterFusion (f : Function n) (allocated : Nat → Register n) (values : FloatValues V)
    (id succ : BlockId) (regs regs' : Register n → V) : Prop :=
  f.AgreeOnStaying allocated regs regs' ∧ f.DefinitionsHold values.Means id (f.instrsOf id) regs ∧
    succ ∈ f.succs id

namespace Function.Fusable

variable (h : f.Fusable allocated)

include h

variable {fusion : Fusion n} {reg : Register n} {index : Nat} {block : BasicBlock n}

omit h in
theorem not_stays_of_index (hindex : f.fusions[index]? = some fusion)
    (hreg : reg = allocated (2 * index) ∨ reg = allocated (2 * index + 1)) :
    ¬f.Stays allocated reg := by
  intro hstays
  obtain ⟨hleft, hright⟩ := lt_of_getElem? hindex
  obtain rfl | rfl := hreg
  · exact hstays.2 _ hleft rfl
  · exact hstays.2 _ hright rfl

theorem stays_of_use (hcond : ∀ fusion ∈ f.fusions, f.UsedAsOperand fusion) {instr : Instr n}
    (hinstr : instr ∈ f.instrs) (htest : ∀ fusion ∈ f.fusions, instr ≠ fusion.test)
    (hdecref : ∀ fusion ∈ f.fusions, instr.isDecref = true → fusion.removed ∉ instr.operands)
    (hreg : reg ∈ instr.visitUses) : f.Stays allocated reg := by
  refine ⟨h.uses_kept hcond hinstr htest hdecref hreg, ?_⟩
  rintro i hi rfl
  exact (h.fresh.unused i hi instr hinstr).2 hreg

theorem stays_operand (hcond : ∀ fusion ∈ f.fusions, f.UsedAsOperand fusion)
    (hmem : fusion ∈ f.fusions) (hreg : reg = fusion.left ∨ reg = fusion.right) :
    f.Stays allocated reg := by
  have hfuses := (fuses_of_mem h.created hmem).2.2
  obtain ⟨op, hcompare, -⟩ := hfuses.compare_eq
  obtain ⟨block, hblock, hin, -⟩ := hfuses.tests.sameBlock
  refine ⟨h.ne_of_mem_operands hcond hmem hreg, ?_⟩
  rintro i hi rfl
  refine (h.fresh.unused i hi _ (mem_instrs.mpr ⟨block, hblock, hin⟩)).2 ?_
  exact operands_subset_visitUses (by simpa [hcompare, floatCompare] using hreg)

variable {values : FloatValues V} {exec : Request V → W → Outcome V W}

variable {regs regs' : Register n → V}

theorem execInstrs_test (hexec : RunsFloatComparisons exec values)
    (hindex : f.fusions[index]? = some fusion) (hregs : f.AgreeOnStaying allocated regs regs')
    (hleft : f.Stays allocated fusion.left) (hright : f.Stays allocated fusion.right)
    {a b : Double} (ha : values.toDouble? (regs fusion.left) = some a)
    (hb : values.toDouble? (regs fusion.right) = some b) (rest : List (Instr n)) (world : W) :
    ∃ events regs'', execInstrs exec
        ([.primitiveUnbox (allocated (2 * index)) fusion.left TCDouble,
          .primitiveUnbox (allocated (2 * index + 1)) fusion.right TCDouble,
          .primitiveCompare fusion.output fusion.newOp (allocated (2 * index))
            (allocated (2 * index + 1))] ++ rest) regs' world =
        (events ++ (execInstrs exec rest regs'' world).1, (execInstrs exec rest regs'' world).2) ∧
      events.filterMap (commonEvent f) = [] ∧
      f.AgreeOnStaying allocated (fusion.test.assign
        (values.ofCBool (fusion.newOp.condCode.holds (fcmp a b))) regs) regs'' := by
  obtain ⟨hltLeft, hltRight⟩ := lt_of_getElem? hindex
  have hmem := mem_of_getElem? hindex
  have hne : allocated (2 * index + 1) ≠ allocated (2 * index) := fun hsame => by
    have := h.fresh.injective _ hltRight _ hltLeft hsame
    omega
  have hneRight : allocated (2 * index) ≠ fusion.right := hright.2 _ hltLeft
  have houtput := (fuses_of_mem h.created hmem).2.2.output
  let unboxLeft := primitiveUnbox (allocated (2 * index)) fusion.left TCDouble
  let unboxRight := primitiveUnbox (allocated (2 * index + 1)) fusion.right TCDouble
  let compare := primitiveCompare fusion.output fusion.newOp (allocated (2 * index))
    (allocated (2 * index + 1))
  let first := unboxLeft.assign (values.ofCDouble a) regs'
  let second := unboxRight.assign (values.ofCDouble b) first
  have hfirst : first fusion.right = regs fusion.right := by
    simp [first, unboxLeft, assign, primitiveUnbox, hneRight, hregs _ hright]
  have hsecond : second (allocated (2 * index)) = values.ofCDouble a ∧
      second (allocated (2 * index + 1)) = values.ofCDouble b := by
    simp [second, first, unboxLeft, unboxRight, assign, primitiveUnbox, hne]
  have hnextLeft := hexec.primitiveUnbox (unboxLeft.request regs') world _ a rfl rfl rfl
    (hregs _ hleft ▸ ha)
  have hnextRight := hexec.primitiveUnbox (unboxRight.request first) world _ b rfl rfl rfl
    (hfirst ▸ hb)
  have hnextCompare := hexec.compareDoubles (compare.request second) world fusion.newOp a b rfl rfl
    (by simp [compare, request, primitiveCompare, hsecond])
  have hnew : ∀ instr ∈ [unboxLeft, unboxRight, compare], instr ∉ f.instrs :=
    fun instr hinstr => h.not_mem_of_new hindex hinstr
  refine ⟨[⟨unboxLeft, unboxLeft.request regs'⟩, ⟨unboxRight, unboxRight.request first⟩,
    ⟨compare, compare.request second⟩], compare.assign
    (values.ofCBool (fusion.newOp.condCode.holds (fcmp a b))) second, ?_, ?_, ?_⟩
  · change execInstrs exec (unboxLeft :: unboxRight :: compare :: rest) regs' world = _
    rw [execInstrs_next hnextLeft, execInstrs_next hnextRight, execInstrs_next hnextCompare]
    rfl
  · simp [commonEvent, hnew unboxLeft, hnew unboxRight, hnew compare]
  · refine Function.AgreeOnStaying.assign ?_ houtput _
    refine (hregs.assign_right (fun reg hreg => ?_) _).assign_right (fun reg hreg => ?_) _
    · exact not_stays_of_index hindex (.inl (Option.some.inj hreg).symm)
    · exact not_stays_of_index hindex (.inr (Option.some.inj hreg).symm)

theorem execInstrs_fuseIn (hcond : ∀ fusion ∈ f.fusions, f.UsedAsOperand fusion)
    (hexec : RunsFloatComparisons exec values) (hblock : block ∈ f.blocks)
    {pre rest : List (Instr n)} (heq : block.instrs = pre ++ rest)
    (hphi : ∀ instr ∈ rest, instr.isPhi = false) (world : W)
    (hmeans : f.DefinitionsHold values.Means block.id pre regs)
    (hregs : f.AgreeOnStaying allocated regs regs')
    (hfloats : ∀ event ∈ (execInstrs exec rest regs world).1, comparesFloats values event) :
    Alike (commonEvent (f.mapBlocks fun block => fuseIn f allocated block.instrs)) (commonEvent f)
      (f.AfterFusion allocated values block.id) (execInstrs exec rest regs world)
      (execInstrs exec (fuseIn f allocated rest) regs' world) := by
  induction rest generalizing pre regs regs' world with
  | nil => exact ⟨rfl, .stuck⟩
  | cons instr rest ih =>
    obtain ⟨hpos, hinstr, hrest, hrestPhi⟩ := Position.of_cons hblock heq hphi
    have hpre := (instrsOf_of_mem hblock).trans heq
    have hoperands : ∀ reg ∈ instr.operands, instr.output ≠ some reg := by
      intro reg hreg houtput
      exact h.wellFormed.not_definedAt hblock heq houtput
        (h.wellFormed.operands block hblock pre instr rest heq (hphi instr mem_cons_self)
          reg hreg)
    have hnow : comparesFloats values ⟨instr, instr.request regs⟩ := by
      refine hfloats _ ?_
      simp only [execInstrs]
      cases exec (instr.request regs) world <;> simp
    -- what an instruction says holds once it has been executed
    have hstep : ∀ {value world'}, exec (instr.request regs) world = .next value world' →
        f.DefinitionsHold values.Means block.id (pre ++ [instr]) (instr.assign value regs) ∧
          ∀ event ∈ (execInstrs exec rest (instr.assign value regs) world').1,
            comparesFloats values event := by
      intro value world' hnext
      refine ⟨h.wellFormed.definitionsHold_assign values.means_isLocal hpos hmeans value fun _ =>
        values.means_of_next hexec hoperands hnow hnext, fun event hevent => hfloats event ?_⟩
      rw [execInstrs_next hnext]
      exact mem_cons_of_mem _ hevent
    have hdropped : ∀ {value}, exec (instr.request regs) world = .next value world →
        (∀ reg, instr.output = some reg → ¬f.Stays allocated reg) →
        f.fuse allocated instr = [] →
          Alike (commonEvent (f.mapBlocks fun block => fuseIn f allocated block.instrs))
            (commonEvent f) (f.AfterFusion allocated values block.id)
            (execInstrs exec (instr :: rest) regs world)
            (execInstrs exec (fuseIn f allocated rest) regs' world) := by
      intro value hnext houtput hnil
      obtain ⟨hmeans', hfloats'⟩ := hstep hnext
      exact .cons_left hnext (if_neg (h.not_mem_of_fuse_ne hinstr (by simp [hnil])))
        (ih hrest hrestPhi world hmeans' (hregs.assign_left houtput value) hfloats')
    have hfuse : fuseIn f allocated (instr :: rest) =
        f.fuse allocated instr ++ fuseIn f allocated rest := flatMap_cons
    rw [hfuse]
    have hfused := h.fused hinstr
    generalize hout : f.fuse allocated instr = out at hfused
    cases hfused with
    | kept htest hcompare hdecref =>
      have hrequest : instr.request regs' = instr.request regs :=
        (request_congr fun reg hreg =>
          hregs reg (h.stays_of_use hcond hinstr htest hdecref hreg)).symm
      have hcommon : instr ∈ (f.mapBlocks fun block => fuseIn f allocated block.instrs).instrs :=
        mem_instrs_fuseIn.mpr ⟨instr, hinstr, by simp [hout]⟩
      rw [singleton_append]
      refine .cons (by rw [hrequest]) rfl
        ((if_pos hcommon).trans (by rw [hrequest]; exact (if_pos hinstr).symm))
        (fun value world' hrun => ?_) fun hsucc => ?_
      · obtain ⟨hmeans', hfloats'⟩ := hstep hrun
        exact ih hrest hrestPhi world' hmeans' (hregs.assign rfl value) hfloats'
      · obtain ⟨hend, hedge⟩ := h.wellFormed.definedAt_of_jump hpos
          (h.wellShaped instr hinstr) hsucc
        exact ⟨hregs, fun d hd hphi x houtput hx =>
          hmeans d hd hphi x houtput (hend x hx), hedge⟩
    | compare fusion hmem hcompare =>
      obtain ⟨op, heqCompare, hnewOp⟩ := (fuses_of_mem h.created hmem).2.2.compare_eq
      obtain ⟨comparison, hcomparison, -⟩ := condCode_mapToFloatPrimitiveCompareOp hnewOp
      have hinstrEq := hcompare.trans heqCompare
      have hleft := hnow (by rw [hinstrEq]; rfl) (regs fusion.left)
        (by simp [hinstrEq, request, floatCompare])
      have hright := hnow (by rw [hinstrEq]; rfl) (regs fusion.right)
        (by simp [hinstrEq, request, floatCompare])
      obtain ⟨a, ha⟩ := Option.isSome_iff_exists.mp hleft
      obtain ⟨b, hb⟩ := Option.isSome_iff_exists.mp hright
      have hnext := hexec.floatCompare (instr.request regs) world op comparison _ _ a b
        (by rw [hinstrEq]; rfl) (by rw [hinstrEq]; rfl) hcomparison (by rw [hinstrEq]; rfl) ha hb
      refine hdropped hnext (fun reg hreg hstays => ?_) hout
      refine hstays.1 fusion hmem ?_
      simpa [hinstrEq, floatCompare] using hreg
    | decref fusion hmem hdecref huse =>
      obtain ⟨houtput, -, hlength⟩ := (h.created instr hinstr).decref hdecref
      obtain ⟨b, hb⟩ := h.regs_removed hmem hmeans
        (h.wellFormed.operands block hblock pre instr rest heq (hphi instr mem_cons_self)
          _ huse)
      have honly : instr.operands = [fusion.removed] := by
        obtain ⟨reg, hreg⟩ := length_eq_one_iff.mp hlength
        simpa [hreg, eq_comm] using huse
      have hopcode : instr.opcode = .kDecref ∨ instr.opcode = .kXDecref := by
        simpa [isDecref] using hdecref
      obtain ⟨value, hnext⟩ := hexec.decref (instr.request regs) world b hopcode
        (by simp [request, honly, hb])
      exact hdropped hnext (fun reg hreg => by simp [houtput] at hreg) hout
    | test fusion hmem htest index hindex =>
      subst htest
      obtain ⟨a, b, ha, hb, hnext⟩ := h.exec_test hexec hmem hpos hmeans world
      obtain ⟨hmeans', hfloats'⟩ := hstep hnext
      obtain ⟨events, regs'', hrun, hnone, hregs''⟩ := h.execInstrs_test hexec hindex hregs
        (h.stays_operand hcond hmem (.inl rfl)) (h.stays_operand hcond hmem (.inr rfl)) ha hb
        (fuseIn f allocated rest) world
      have hcommon := h.not_mem_of_fuse_ne hinstr (by simp [hout])
      obtain ⟨hevents, hexit⟩ := ih hrest hrestPhi world hmeans' hregs'' hfloats'
      rw [execInstrs_next hnext, hrun]
      refine ⟨?_, hexit⟩
      rw [filterMap_append, hnone, nil_append, ← hevents]
      simp [commonEvent, hcommon]

theorem phis_fuseIn (hblock : block ∈ f.blocks) :
    BasicBlock.phis ⟨block.id, fuseIn f allocated block.instrs⟩ = block.phis ∧
      BasicBlock.body ⟨block.id, fuseIn f allocated block.instrs⟩ =
        fuseIn f allocated block.body := by
  have hall : ∀ instr ∈ block.instrs, instr ∈ f.instrs :=
    fun instr hinstr => mem_instrs.mpr ⟨block, hblock, hinstr⟩
  have heq : fuseIn f allocated block.instrs = block.phis ++ fuseIn f allocated block.body := by
    have hphis : fuseIn f allocated block.phis = block.phis :=
      h.fuseIn_phis (fun phi hphi => hall phi (block.instrs_eq ▸ mem_append_left _ hphi))
        fun phi hphi => BasicBlock.isPhi_of_mem_phis hphi
    nth_rewrite 1 [block.instrs_eq]
    rw [fuseIn_append, hphis]
  unfold BasicBlock.phis BasicBlock.body at heq ⊢
  simp only [heq]
  refine takeWhile_append_of_split (fun phi hphi => mem_takeWhile_imp hphi)
    fun instr hinstr => ?_
  obtain ⟨old, hold, hmem⟩ := mem_flatMap.mp hinstr
  have hbody : old ∈ block.instrs := block.instrs_eq ▸ mem_append_right _ hold
  obtain ⟨rfl, -⟩ | hop | hop := (h.fused (hall old hbody)).mem_cases hmem
  · exact h.wellFormed.not_isPhi_of_mem_body hblock hold
  · simp [isPhi, hop]
  · simp [isPhi, hop]

theorem agreeOnStaying_takeEdge (hcond : ∀ fusion ∈ f.fusions, f.UsedAsOperand fusion)
    {pred : BlockId} {target : BasicBlock n} (htarget : target ∈ f.blocks)
    (hregs : f.AgreeOnStaying allocated regs regs') :
    f.AgreeOnStaying allocated (target.takeEdge pred regs)
      (BasicBlock.takeEdge ⟨target.id, fuseIn f allocated target.instrs⟩ pred regs') := by
  intro reg hreg
  simp only [BasicBlock.takeEdge, (h.phis_fuseIn htarget).1]
  cases hfind : target.phis.find? fun phi => phi.output = some reg with
  | none => exact hregs reg hreg
  | some phi =>
    have hphi := mem_of_find?_eq_some hfind
    have hisPhi := BasicBlock.isPhi_of_mem_phis hphi
    have hin : phi ∈ f.instrs := mem_instrs.mpr
      ⟨target, htarget, target.instrs_eq ▸ mem_append_left _ hphi⟩
    simp only [Option.bind_some]
    cases hoperand : phi.phiOperand? pred with
    | none => exact hregs reg hreg
    | some operand =>
      have hmem := mem_operands_of_phiOperand? hoperand
      refine hregs operand ⟨h.uses_phi hcond hin hisPhi hmem, ?_⟩
      rintro i hi rfl
      exact (h.fresh.unused i hi phi hin).2 (operands_subset_visitUses hmem)

theorem run_fuseIn (hcond : ∀ fusion ∈ f.fusions, f.UsedAsOperand fusion)
    (hexec : RunsFloatComparisons exec values) (fuel : Nat) (regs : Register n → V) (world : W)
    (hfloats : ∀ event ∈ (f.execute exec fuel regs world).1, comparesFloats values event) :
    observe (commonEvent (f.mapBlocks fun block => fuseIn f allocated block.instrs))
        (f.execute exec fuel regs world) =
      observe (commonEvent f) ((f.mapBlocks fun block =>
        fuseIn f allocated block.instrs).execute exec fuel regs world) := by
  refine execute_mapBlocks (R := fun block regs regs' =>
      f.AgreeOnStaying allocated regs regs' ∧
        f.DefinitionsHold values.Means block.id block.phis regs)
    ?_ fuel world (fun block hblock => ⟨fun _ _ => rfl, ?_⟩) hfloats
  · rintro block hmem regs regs' world ⟨hregs, hmeans⟩ hall
    rw [(h.phis_fuseIn hmem).2]
    have halike := h.execInstrs_fuseIn hcond hexec hmem block.instrs_eq
      (fun instr hinstr => h.wellFormed.not_isPhi_of_mem_body hmem hinstr) world hmeans hregs hall
    refine ⟨halike.events, halike.exit.imp ?_⟩
    rintro _ regs regs' hafter target htarget rfl
    exact ⟨h.agreeOnStaying_takeEdge hcond htarget hafter.1,
      h.wellFormed.definitionsHold_takeEdge values.means_isLocal htarget hafter.2.2 hafter.2.1⟩
  · exact (id_of_block? hblock).symm ▸ h.wellFormed.definitionsHold_entry hblock regs

end Function.Fusable

/-- What the pass has to do: the verifier accepts the result, whatever it uses of the function has
still a definition, and it runs like the function.  Apart from comparisons, unboxings and reference
counting the two have the same instructions. -/
structure FusionSound (f g : Function n) : Prop where
  accepted : checkFunc g = true
  defined : ∀ instr ∈ g.instrs, ∀ reg ∈ instr.visitUses, (∃ d ∈ f.instrs, d.output = some reg) →
    ∃ d ∈ g.instrs, d.output = some reg
  kept : ∀ instr ∈ f.instrs, instr ∈ g.instrs ∨ instr.opcode = .kFloatCompare ∨
    instr.opcode = .kPrimitiveCompare ∨ instr.isDecref = true
  added : ∀ instr ∈ g.instrs, instr ∈ f.instrs ∨ instr.opcode = .kPrimitiveUnbox ∨
    instr.opcode = .kPrimitiveCompare
  runs : ∀ (V W : Type) (exec : Request V → W → Outcome V W) (values : FloatValues V),
    RunsFloatComparisons exec values → ∀ (fuel : Nat) (regs : Register n → V) (world : W),
      (∀ event ∈ (f.execute exec fuel regs world).1, comparesFloats values event) →
        observe (commonEvent g) (f.execute exec fuel regs world) =
          observe (commonEvent f) (g.execute exec fuel regs world)

namespace Function.Fusable

variable (h : f.Fusable allocated)

include h

theorem floatComparisonSimplification_eq : floatComparisonSimplification allocated f =
    some (f.mapBlocks fun block => fuseIn f allocated block.instrs) := by
  rw [floatComparisonSimplification, fusesAll_eq_true h.created h.wellFormed, if_pos rfl]

theorem fusionSound (hcond : ∀ fusion ∈ f.fusions, f.UsedAsOperand fusion) :
    FusionSound f (f.mapBlocks fun block => fuseIn f allocated block.instrs) where
  accepted := checkFunc_iff.mpr (h.wellFormed_fuseIn hcond)
  defined instr hinstr reg hreg := by
    rintro ⟨d, hd, houtput⟩
    obtain ⟨source, hsource, hin⟩ := mem_instrs_fuseIn.mp hinstr
    have hkept : ∀ fusion ∈ f.fusions, fusion.removed ≠ reg := by
      have hfused := h.fused hsource
      generalize f.fuse allocated source = out at hfused hin
      cases hfused with
      | kept htest hcompare hdecref =>
        obtain rfl : instr = source := by simpa using hin
        exact h.uses_kept hcond hsource htest hdecref hreg
      | compare | decref => simp at hin
      | test fusion hmem heq index hindex =>
        simp only [mem_cons, not_mem_nil, or_false] at hin
        obtain rfl | rfl | rfl := hin
        · have hleft : reg = fusion.left := by
            simpa [visitUses, primitiveUnbox] using hreg
          exact h.ne_of_mem_operands hcond hmem (.inl hleft)
        · have hright : reg = fusion.right := by
            simpa [visitUses, primitiveUnbox] using hreg
          exact h.ne_of_mem_operands hcond hmem (.inr hright)
        · have hnew : reg = allocated (2 * index) ∨ reg = allocated (2 * index + 1) := by
            simpa [visitUses, primitiveCompare] using hreg
          exact absurd houtput (h.unused hindex hnew hd).1
    have hdefined := h.mem_definedBy_fuseIn (fun _ hmem => hmem) hkept
      (mem_filterMap.mpr ⟨d, hd, houtput⟩)
    obtain ⟨d', hd', houtput'⟩ := mem_filterMap.mp hdefined
    obtain ⟨source', hsource', hin'⟩ := mem_flatMap.mp hd'
    exact ⟨d', mem_instrs_fuseIn.mpr ⟨source', hsource', hin'⟩, houtput'⟩
  kept instr hinstr := by
    obtain heq | hop := (h.fused hinstr).opcode_cases h.created
    · exact .inl (mem_instrs_fuseIn.mpr ⟨instr, hinstr, by simp [heq]⟩)
    · exact .inr hop
  added instr hinstr := by
    obtain ⟨source, hsource, hin⟩ := mem_instrs_fuseIn.mp hinstr
    obtain ⟨rfl, -⟩ | hop := (h.fused hsource).mem_cases hin
    · exact .inl hsource
    · exact .inr hop
  runs V W exec values hexec fuel regs world hfloats :=
    h.run_fuseIn hcond hexec fuel regs world hfloats

variable {fusion : Fusion n}

theorem compare_mem (hmem : fusion ∈ f.fusions) :
    fusion.compare ∈ f.instrs ∧ fusion.compare.output = some fusion.removed := by
  have hfuses := (fuses_of_mem h.created hmem).2.2
  obtain ⟨op, hcompare, -⟩ := hfuses.compare_eq
  obtain ⟨home, hhome, hin, -⟩ := hfuses.tests.sameBlock
  exact ⟨mem_instrs.mpr ⟨home, hhome, hin⟩, by rw [hcompare]; rfl⟩

theorem visitUses_eq_operands {instr : Instr n} (hinstr : instr ∈ f.instrs)
    (hop : instr.opcode = .kFloatCompare ∨ instr.opcode = .kPrimitiveCompare ∨
      instr.isDecref = true) : instr.visitUses = instr.operands := by
  obtain hop | hop | hop := hop
  · obtain ⟨dst, op, left, right, rfl, -⟩ := (h.created instr hinstr).floatCompare hop
    simp [visitUses, floatCompare]
  · obtain ⟨dst, op, left, right, rfl⟩ := (h.created instr hinstr).primitiveCompare hop
    simp [visitUses, primitiveCompare]
  · exact ((h.created instr hinstr).decref hop).2.1

theorem output_ne_removed (hmem : fusion ∈ f.fusions) {instr : Instr n}
    (hinstr : instr ∈ (f.mapBlocks fun block => fuseIn f allocated block.instrs).instrs) :
    instr.output ≠ some fusion.removed := by
  intro houtput
  obtain ⟨hcompareMem, hremoved⟩ := h.compare_mem hmem
  obtain ⟨source, hsource, hin⟩ := mem_instrs_fuseIn.mp hinstr
  have hfused := h.fused hsource
  generalize f.fuse allocated source = out at hfused hin
  cases hfused with
  | kept htest hcompare hdecref =>
    obtain rfl : instr = source := by simpa using hin
    exact hcompare fusion hmem (h.wellFormed.def_unique hsource hcompareMem houtput hremoved)
  | compare | decref => simp at hin
  | test fusion' hmem' heq index hindex =>
    simp only [mem_cons, not_mem_nil, or_false] at hin
    obtain rfl | rfl | rfl := hin
    · exact (h.unused hindex (.inl (Option.some.inj houtput).symm) hcompareMem).1 hremoved
    · exact (h.unused hindex (.inr (Option.some.inj houtput).symm) hcompareMem).1 hremoved
    · have hout := (fuses_of_mem h.created hmem').2.2.output
      rw [← heq, Option.some.inj houtput] at hout
      have hsame := h.wellFormed.def_unique hsource hcompareMem hout hremoved
      obtain ⟨_, _, _, _, htest, -⟩ := (fuses_of_mem h.created hmem').2.2.tests.test_eq
      obtain ⟨_, hcompare, -⟩ := (fuses_of_mem h.created hmem).2.2.compare_eq
      have hopcode := congrArg opcode (htest.symm.trans (heq.symm.trans (hsame.trans hcompare)))
      simp [primitiveCompare, floatCompare] at hopcode

theorem usedAsOperand_of_fusionSound
    (hsound : FusionSound f (f.mapBlocks fun block => fuseIn f allocated block.instrs))
    (hmem : fusion ∈ f.fusions) : f.UsedAsOperand fusion := by
  intro instr hinstr huse
  by_contra hnot
  obtain ⟨hcompareMem, hremoved⟩ := h.compare_mem hmem
  have hin : instr ∈ (f.mapBlocks fun block => fuseIn f allocated block.instrs).instrs := by
    obtain hin | hop := hsound.kept instr hinstr
    · exact hin
    · refine absurd ⟨?_, ?_⟩ hnot
      · exact h.visitUses_eq_operands hinstr hop ▸ huse
      · rintro hassign
        simp [isDecref, hassign] at hop
  obtain ⟨d, hd, houtput⟩ := hsound.defined instr hin _ huse ⟨_, hcompareMem, hremoved⟩
  exact h.output_ne_removed hmem hd houtput

end Function.Fusable

theorem floatComparisonSimplification_sound_iff (hcheck : checkFunc f = true)
    (hwell : ∀ instr ∈ f.instrs, instr.WellShaped) (hcreated : ∀ instr ∈ f.instrs, instr.Created)
    (hfresh : f.Fresh allocated) :
    (∃ g, floatComparisonSimplification allocated f = some g ∧ FusionSound f g) ↔
      ∀ fusion ∈ f.fusions, f.UsedAsOperand fusion := by
  have h : f.Fusable allocated := ⟨checkFunc_iff.mp hcheck, hwell, hcreated, hfresh⟩
  constructor
  · rintro ⟨g, hg, hsound⟩ fusion hmem
    rw [h.floatComparisonSimplification_eq] at hg
    exact h.usedAsOperand_of_fusionSound (Option.some.inj hg ▸ hsound) hmem
  · exact fun hcond => ⟨_, h.floatComparisonSimplification_eq, h.fusionSound hcond⟩

/-- `return a if a > b else b`, with more instructions behind the comparison. -/
def greater (behind : List (Instr 7)) : Function 7 := .ofObjects [
    ⟨0, [{ opcode := .kLoadArg, output := some 0 },
      { opcode := .kLoadArg, immediate := 1, output := some 1 },
      .floatCompare 2 .kGreaterThan 0 1] ++ behind ++ [.loadConst 3 1,
      .primitiveCompare 4 .kEqual 2 3,
      { opcode := .kCondBranch, operands := [4], successors := [1, 2] }]⟩,
    ⟨1, [{ opcode := .kReturn, operands := [0] }]⟩, ⟨2, [{ opcode := .kReturn, operands := [1] }]⟩]
  (by simp)

def unusedRegister (i : Nat) : Register 7 := if i = 0 then 5 else 6

theorem fresh_greater : (greater []).Fresh unusedRegister where
  injective := by decide
  unused := by decide

theorem created_greater {instr : Instr 7} (hinstr : instr ∈ (greater []).instrs) :
    instr.Created := by
  simp only [greater, ofObjects, instrs, flatMap_cons, flatMap_nil, cons_append,
    nil_append, append_nil, mem_cons, not_mem_nil, or_false] at hinstr
  obtain rfl | rfl | rfl | rfl | rfl | rfl | rfl | rfl := hinstr
  case inr.inr.inl =>
    refine ⟨fun _ => ⟨2, .kGreaterThan, 0, 1, rfl, rfl⟩, ?_, ?_, ?_⟩ <;> rintro ⟨⟩
  case inr.inr.inr.inl =>
    refine ⟨?_, ?_, fun _ => ⟨3, 1, rfl⟩, ?_⟩ <;> rintro ⟨⟩
  case inr.inr.inr.inr.inl =>
    refine ⟨?_, fun _ => ⟨4, .kEqual, 2, 3, rfl⟩, ?_, ?_⟩ <;> rintro ⟨⟩
  all_goals constructor <;> rintro ⟨⟩

theorem floatComparisonSimplification_sound_greater :
    ∃ g, floatComparisonSimplification unusedRegister (greater []) = some g ∧
      FusionSound (greater []) g :=
  (floatComparisonSimplification_sound_iff (by decide) (by decide)
    (fun _ hinstr => created_greater hinstr) fresh_greater).mpr (by decide)

def greaterOnStack : Function 7 :=
    greater [{ opcode := .kSnapshot, snapshotState := [⟨[], [2], 0⟩] }]

theorem floatComparisonSimplification_greaterOnStack : checkFunc greaterOnStack = true ∧
    ¬∃ g, floatComparisonSimplification unusedRegister greaterOnStack = some g ∧
      FusionSound greaterOnStack g := by
  refine ⟨by decide, ?_⟩
  rintro ⟨g, hg, hsound⟩
  rw [floatComparisonSimplification, if_pos (by decide)] at hg
  cases hg
  have hnone : ∀ d ∈ (greaterOnStack.mapBlocks fun block =>
      fuseIn greaterOnStack unusedRegister block.instrs).instrs, d.output ≠ some 2 := by
    decide
  obtain ⟨d, hd, houtput⟩ := hsound.defined
    { opcode := .kSnapshot, snapshotState := [⟨[], [2], 0⟩] } (by decide) 2
    (by decide) (by decide)
  exact hnone d hd houtput

end CinderX.Jit.Hir
