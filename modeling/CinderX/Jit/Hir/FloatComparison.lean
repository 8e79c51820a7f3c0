import CinderX.Foundation.Ieee754
import CinderX.Jit.Hir.CopyPropagation

/-!
# Float comparison simplification

`PrimitiveCompare` of the result of a `FloatCompare` with `True` or `False` only
asks for that result.  The pass compares the unboxed doubles instead and removes
the `FloatCompare`, if the truth test is the one instruction that has its output
as an operand, apart from reference counting and from `Assign`s whose outputs
nothing else uses.

No decision of the pass depends on what it has rewritten before, so that all of
them are made in the function as it was.
-/

namespace CinderX.Jit.Hir

open Foundation

variable {n : Nat} {f : Function n}

inductive CompareOp where
  | kLessThan | kLessThanEqual | kEqual | kNotEqual | kGreaterThan | kGreaterThanEqual | kIn
  | kNotIn | kExcMatch | kGreaterThanUnsigned | kGreaterThanEqualUnsigned | kLessThanUnsigned
  | kLessThanEqualUnsigned
  deriving DecidableEq

namespace CompareOp

def all : List CompareOp :=
  [kLessThan, kLessThanEqual, kEqual, kNotEqual, kGreaterThan, kGreaterThanEqual, kIn, kNotIn,
    kExcMatch, kGreaterThanUnsigned, kGreaterThanEqualUnsigned, kLessThanUnsigned,
    kLessThanEqualUnsigned]

def toNat (op : CompareOp) : Nat := all.idxOf op

@[simp] theorem all_toNat (op : CompareOp) : all[op.toNat]? = some op := by cases op <;> rfl

def comparison? : CompareOp → Option Comparison
  | kLessThan => some .lt
  | kLessThanEqual => some .le
  | kEqual => some .eq
  | kNotEqual => some .ne
  | kGreaterThan => some .gt
  | kGreaterThanEqual => some .ge
  | _ => none

end CompareOp

inductive PrimitiveCompareOp where
  | kLessThan | kLessThanEqual | kEqual | kNotEqual | kGreaterThan | kGreaterThanEqual
  | kGreaterThanUnsigned | kGreaterThanEqualUnsigned | kLessThanUnsigned | kLessThanEqualUnsigned
  deriving DecidableEq

namespace PrimitiveCompareOp

def all : List PrimitiveCompareOp :=
  [kLessThan, kLessThanEqual, kEqual, kNotEqual, kGreaterThan, kGreaterThanEqual,
    kGreaterThanUnsigned, kGreaterThanEqualUnsigned, kLessThanUnsigned, kLessThanEqualUnsigned]

def toNat (op : PrimitiveCompareOp) : Nat := all.idxOf op

@[simp] theorem all_toNat (op : PrimitiveCompareOp) : all[op.toNat]? = some op := by
  cases op <;> rfl

def condCode : PrimitiveCompareOp → CondCode
  | kEqual => .kEQ
  | kNotEqual => .kNE
  | kGreaterThan => .kGT
  | kGreaterThanEqual => .kGE
  | kLessThan => .kLT
  | kLessThanEqual => .kLE
  | kGreaterThanUnsigned => .kHI
  | kGreaterThanEqualUnsigned => .kHS
  | kLessThanUnsigned => .kLO
  | kLessThanEqualUnsigned => .kLS

end PrimitiveCompareOp

/-- `none` for the operators on which the pass aborts. -/
def mapToFloatPrimitiveCompareOp : CompareOp → Option PrimitiveCompareOp
  | .kLessThan => some .kLessThanUnsigned
  | .kLessThanEqual => some .kLessThanEqualUnsigned
  | .kEqual => some .kEqual
  | .kNotEqual => some .kNotEqual
  | .kGreaterThan => some .kGreaterThan
  | .kGreaterThanEqual => some .kGreaterThanEqual
  | _ => none

theorem condCode_mapToFloatPrimitiveCompareOp {op : CompareOp} {newOp : PrimitiveCompareOp}
    (h : mapToFloatPrimitiveCompareOp op = some newOp) : ∃ comparison,
      op.comparison? = some comparison ∧ ∀ a b,
        newOp.condCode.holds (fcmp a b) = comparison.holds (a.compare b) := by
  cases op with
  | kLessThan => cases h; exact ⟨.lt, rfl, Comparison.lt.condCode_holds⟩
  | kLessThanEqual => cases h; exact ⟨.le, rfl, Comparison.le.condCode_holds⟩
  | kEqual => cases h; exact ⟨.eq, rfl, Comparison.eq.condCode_holds⟩
  | kNotEqual => cases h; exact ⟨.ne, rfl, Comparison.ne.condCode_holds⟩
  | kGreaterThan => cases h; exact ⟨.gt, rfl, Comparison.gt.condCode_holds⟩
  | kGreaterThanEqual => cases h; exact ⟨.ge, rfl, Comparison.ge.condCode_holds⟩
  | _ => cases h

def boolConst? : Nat → Option Bool
  | 0 => some false
  | 1 => some true
  | _ => none

/-- The number of the type that a `PrimitiveUnbox` is created with. -/
def TCDouble : Nat := 0

/-- The number of the type that a `GuardType` or a `CondBranchCheckType` is created with. -/
def TFloatExact : Nat := 0

namespace Instr

def floatCompare (dst : Register n) (op : CompareOp) (left right : Register n) : Instr n :=
  { opcode := .kFloatCompare, immediate := op.toNat, output := some dst,
    operands := [left, right] }

def primitiveCompare (dst : Register n) (op : PrimitiveCompareOp) (left right : Register n) :
    Instr n :=
  { opcode := .kPrimitiveCompare, immediate := op.toNat, output := some dst,
    operands := [left, right] }

def primitiveUnbox (dst value : Register n) (type : Nat) : Instr n :=
  { opcode := .kPrimitiveUnbox, immediate := type, output := some dst, operands := [value] }

def loadConst (dst : Register n) (constant : Nat) : Instr n :=
  { opcode := .kLoadConst, immediate := constant, output := some dst }

def isDecref (instr : Instr n) : Bool := instr.opcode = .kDecref || instr.opcode = .kXDecref

/-- What is known of the instructions of some classes from the way they are created.  Only the six
comparisons of floats are made a `FloatCompare`. -/
structure Created (instr : Instr n) : Prop where
  floatCompare : instr.opcode = .kFloatCompare → ∃ dst op left right,
    instr = .floatCompare dst op left right ∧ (mapToFloatPrimitiveCompareOp op).isSome = true
  primitiveCompare : instr.opcode = .kPrimitiveCompare → ∃ dst op left right,
    instr = .primitiveCompare dst op left right
  loadConst : instr.opcode = .kLoadConst → ∃ dst constant, instr = .loadConst dst constant
  decref : instr.isDecref = true → instr.output = none ∧ instr.visitUses = instr.operands ∧
    instr.operands.length = 1

end Instr

namespace Function

/-- `collectDirectRegUses`: the instructions that have a register as an operand. -/
def directRegUses (f : Function n) (reg : Register n) : List (Instr n) :=
  f.instrs.filter fun instr => reg ∈ instr.operands

/-- `none` if the `Assign`s form longer chains than the fuel allows. -/
def hasOtherRealUsers (f : Function n) (excluded : Instr n) : Nat → Register n → Option Bool
  | 0, _ => none
  | fuel + 1, reg => (f.directRegUses reg).anyM fun user =>
    if user.isDecref then some false
    else if user = excluded then some false
    else if user.opcode = .kAssign then
      match user.output with
      | some output => f.hasOtherRealUsers excluded fuel output
      | none => some false
    else some true

/-- The cases that do not invert: a comparison with `True`, or unequal to `False`. -/
def testsTruth (op : PrimitiveCompareOp) (constant : Bool) : Bool :=
  op = .kEqual && constant || op = .kNotEqual && !constant

/-- The `FloatCompare` in its block that a `PrimitiveCompare` tests. -/
def testedCompare? (f : Function n) (test : Instr n) : Option (Instr n) :=
  match PrimitiveCompareOp.all[test.immediate]?, test.operands with
  | some op, [left, right] =>
    match f.instr? (f.propagatedTo left), f.instr? (f.propagatedTo right) with
    | some leftDef, some rightDef =>
      if test.opcode = .kPrimitiveCompare ∧ leftDef.opcode = .kFloatCompare ∧
          rightDef.opcode = .kLoadConst ∧ (boolConst? rightDef.immediate).any (testsTruth op) ∧
          ∃ block ∈ f.blocks, leftDef ∈ block.instrs ∧ test ∈ block.instrs then
        some leftDef
      else none
    | _, _ => none
  | _, _ => none

def fusedCompare? (f : Function n) (test : Instr n) : Option (Instr n) :=
  (f.testedCompare? test).filter fun compare =>
    compare.output.any fun reg => f.hasOtherRealUsers test n reg = some false

end Function

structure Fusion (n : Nat) where
  test : Instr n
  compare : Instr n
  /-- The output of the `FloatCompare`, which is removed. -/
  removed : Register n
  newOp : PrimitiveCompareOp
  left : Register n
  right : Register n
  output : Register n
  deriving DecidableEq

namespace Function

def fusion? (f : Function n) (test : Instr n) : Option (Fusion n) :=
  match f.fusedCompare? test, test.output with
  | some compare, some output =>
    match CompareOp.all[compare.immediate]?.bind mapToFloatPrimitiveCompareOp,
      compare.output, compare.operands with
    | some newOp, some removed, [left, right] =>
      some ⟨test, compare, removed, newOp, left, right, output⟩
    | _, _, _ => none
  | _, _ => none

def fusions (f : Function n) : List (Fusion n) := f.instrs.filterMap f.fusion?

/-- Whether `Run` gets through: the chains of `Assign`s end, and every operator is supported. -/
def fusesAll (f : Function n) : Bool :=
  f.instrs.all fun test =>
    (test.opcode ≠ .kPrimitiveCompare || test.operands.all fun reg =>
        (f.chaseAssignOperand reg).isSome) &&
      ((f.testedCompare? test).all fun compare => compare.output.all fun reg =>
        (f.hasOtherRealUsers test n reg).isSome) &&
      ((f.fusedCompare? test).isNone || (f.fusion? test).isSome)

/-- The registers that `AllocateRegister` returns are a parameter; each fusion takes two. -/
def fuse (f : Function n) (allocated : Nat → Register n) (instr : Instr n) : List (Instr n) :=
  match f.fusion? instr with
  | some fusion =>
    let index := f.fusions.idxOf fusion
    let unboxLeft := allocated (2 * index)
    let unboxRight := allocated (2 * index + 1)
    [.primitiveUnbox unboxLeft fusion.left TCDouble,
      .primitiveUnbox unboxRight fusion.right TCDouble,
      .primitiveCompare fusion.output fusion.newOp unboxLeft unboxRight]
  | none =>
    if ∃ fusion ∈ f.fusions,
        instr = fusion.compare ∨ instr.isDecref = true ∧ fusion.removed ∈ instr.operands then []
    else [instr]

end Function

def fuseIn (f : Function n) (allocated : Nat → Register n) (instrs : List (Instr n)) :
    List (Instr n) :=
  instrs.flatMap (f.fuse allocated)

def floatComparisonSimplification (allocated : Nat → Register n) (f : Function n) :
    Option (Function n) :=
  if f.fusesAll then some (f.mapBlocks fun block => fuseIn f allocated block.instrs) else none

variable {α : Type} {p : α → Option Bool} {as : List α} {fuel : Nat} {reg : Register n}

theorem anyM_eq_some_false :
    as.anyM p = some false ↔ ∀ a ∈ as, p a = some false := by
  induction as with
  | nil => simp [List.anyM]
  | cons a as ih =>
    simp only [List.anyM, List.forall_mem_cons, ← ih]
    cases p a with
    | none => simp
    | some b => cases b <;> simp

theorem anyM_isSome (h : ∀ a ∈ as, (p a).isSome = true) : (as.anyM p).isSome = true := by
  induction as with
  | nil => rfl
  | cons a as ih =>
    obtain ⟨b, hb⟩ := Option.isSome_iff_exists.mp (h a List.mem_cons_self)
    have hrest := ih fun other hother => h other (List.mem_cons_of_mem _ hother)
    cases b with
    | true => simp [List.anyM, hb]
    | false => simpa [List.anyM, hb] using hrest

theorem WellFormed.hasOtherRealUsers_isSome (h : WellFormed f) (excluded : Instr n)
    (hfuel : rank (fun a b => f.DependsOn b a) reg < fuel) :
    (f.hasOtherRealUsers excluded fuel reg).isSome = true := by
  have hacyclic : ∀ reg, ¬Relation.TransGen (fun a b => f.DependsOn b a) reg reg :=
    fun reg hcycle => h.dependsOn_acyclic (Relation.transGen_swap.mp hcycle)
  induction fuel generalizing reg with
  | zero => omega
  | succ fuel ih =>
    refine anyM_isSome fun user huser => ?_
    obtain ⟨hmem, hreg⟩ : user ∈ f.instrs ∧ reg ∈ user.operands := by
      simpa [Function.directRegUses] using huser
    split
    case isTrue => rfl
    case isFalse =>
      split
      case isTrue => rfl
      case isFalse =>
        split
        case isFalse => rfl
        case isTrue hassign =>
          split
          case h_2 => rfl
          case h_1 output houtput =>
            have hlt := rank_lt hacyclic (a := reg) (b := output)
              ⟨user, hmem, by simp [Instr.isPhi, hassign], houtput, hreg⟩
            exact ih (by omega)

theorem Function.users_of_hasOtherRealUsers {excluded : Instr n}
    (h : f.hasOtherRealUsers excluded fuel reg = some false) {user : Instr n}
    (huser : user ∈ f.instrs) (hreg : reg ∈ user.operands) :
    user.isDecref = true ∨ user = excluded ∨ user.opcode = .kAssign := by
  cases fuel with
  | zero => simp [hasOtherRealUsers] at h
  | succ fuel =>
    have hmem : user ∈ f.directRegUses reg := by simp [directRegUses, huser, hreg]
    have hall := anyM_eq_some_false.mp h user hmem
    by_contra hnot
    simp only [not_or] at hnot
    simp [hnot.1, hnot.2.1, hnot.2.2] at hall

structure Function.Tests (f : Function n) (test compare : Instr n) : Prop where
  test_eq : ∃ output op left right, test = .primitiveCompare output op left right ∧
    compare.output = some (f.propagatedTo left) ∧
    ∃ constant b, .loadConst (f.propagatedTo right) constant ∈ f.instrs ∧
      boolConst? constant = some b ∧ Function.testsTruth op b = true
  compare_eq : ∃ removed op left right, compare = .floatCompare removed op left right ∧
    (mapToFloatPrimitiveCompareOp op).isSome = true
  sameBlock : ∃ block ∈ f.blocks, compare ∈ block.instrs ∧ test ∈ block.instrs

structure Function.Fuses (f : Function n) (fusion : Fusion n) : Prop where
  tests : f.Tests fusion.test fusion.compare
  output : fusion.test.output = some fusion.output
  compare_eq : ∃ op, fusion.compare = .floatCompare fusion.removed op fusion.left fusion.right ∧
    mapToFloatPrimitiveCompareOp op = some fusion.newOp
  users : ∀ user ∈ f.instrs, fusion.removed ∈ user.operands →
    user.isDecref = true ∨ user = fusion.test ∨ user.opcode = .kAssign

namespace Function

section

variable (hcreated : ∀ instr ∈ f.instrs, instr.Created)

include hcreated

theorem tests_of_testedCompare? {test compare : Instr n} (htest : test ∈ f.instrs)
    (h : f.testedCompare? test = some compare) : f.Tests test compare := by
  unfold testedCompare? at h
  split at h
  case h_2 => simp at h
  case h_1 op left right hop hoperands =>
    split at h
    case h_2 => simp at h
    case h_1 leftDef rightDef hleft hright =>
      split at h
      case isFalse => simp at h
      case isTrue hall =>
        cases h
        obtain ⟨hopcode, hleftOpcode, hrightOpcode, hconst, hblock⟩ := hall
        obtain ⟨hleftMem, hleftOutput⟩ := mem_instrs_of_instr? hleft
        obtain ⟨hrightMem, hrightOutput⟩ := mem_instrs_of_instr? hright
        obtain ⟨b, hb, htruth⟩ := (Option.any_eq_true _ _).mp hconst
        obtain ⟨output, op', left', right', rfl⟩ := (hcreated test htest).primitiveCompare hopcode
        obtain ⟨dst, constant, rfl⟩ := (hcreated _ hrightMem).loadConst hrightOpcode
        obtain ⟨rfl, rfl⟩ : left' = left ∧ right' = right := by
          simpa [Instr.primitiveCompare] using hoperands
        obtain rfl : op' = op := by simpa [Instr.primitiveCompare] using hop
        obtain rfl : dst = f.propagatedTo right' := by simpa [Instr.loadConst] using hrightOutput
        exact ⟨⟨output, op', left', right', rfl, hleftOutput, constant, b, hrightMem, hb, htruth⟩,
          (hcreated _ hleftMem).floatCompare hleftOpcode, hblock⟩

variable {fusion : Fusion n}

theorem fuses_of_fusion? {test : Instr n} (htest : test ∈ f.instrs)
    (h : f.fusion? test = some fusion) : fusion.test = test ∧ f.Fuses fusion := by
  unfold fusion? at h
  split at h
  case h_2 => simp at h
  case h_1 compare output hfused houtput =>
    obtain ⟨htested, husers⟩ := Option.filter_eq_some_iff.mp hfused
    have htests := tests_of_testedCompare? hcreated htest htested
    obtain ⟨removed, op, left, right, rfl, -⟩ := htests.compare_eq
    split at h
    case h_2 => simp at h
    case h_1 newOp removed' left' right' hop hremoved hoperands =>
      cases h
      obtain ⟨rfl, rfl⟩ : left = left' ∧ right = right' := by
        simpa [Instr.floatCompare] using hoperands
      obtain rfl : removed = removed' := by simpa [Instr.floatCompare] using hremoved
      refine ⟨rfl, htests, houtput, ⟨op, rfl, ?_⟩, fun user huser hreg => ?_⟩
      · simpa [Instr.floatCompare] using hop
      · exact users_of_hasOtherRealUsers (by simpa [Instr.floatCompare] using husers) huser hreg

theorem fuses_of_mem (h : fusion ∈ f.fusions) :
    fusion.test ∈ f.instrs ∧ f.fusion? fusion.test = some fusion ∧ f.Fuses fusion := by
  obtain ⟨test, htest, hfusion⟩ := List.mem_filterMap.mp h
  obtain ⟨rfl, hfuses⟩ := fuses_of_fusion? hcreated htest hfusion
  exact ⟨htest, hfusion, hfuses⟩

theorem fusesAll_eq_true (h : WellFormed f) : f.fusesAll = true := by
  have hchase : ∀ reg, (f.chaseAssignOperand reg).isSome = true := by
    intro reg
    obtain ⟨root, hroot⟩ := h.chaseAssignOperand_isSome reg
    simp [hroot]
  have hacyclic : ∀ reg, ¬Relation.TransGen (fun a b => f.DependsOn b a) reg reg :=
    fun reg hcycle => h.dependsOn_acyclic (Relation.transGen_swap.mp hcycle)
  have husers : ∀ test reg, (f.hasOtherRealUsers test n reg).isSome = true := fun test reg =>
    h.hasOtherRealUsers_isSome test ((rank_lt_card hacyclic reg).trans_eq (Fintype.card_fin n))
  simp only [fusesAll, List.all_eq_true, Bool.and_eq_true]
  refine fun test htest => ⟨⟨?_, ?_⟩, ?_⟩
  · simp [hchase]
  · cases f.testedCompare? test with
    | none => rfl
    | some compare => cases compare.output <;> simp [husers]
  · cases hfused : f.fusedCompare? test with
    | none => rfl
    | some compare =>
      obtain ⟨htested, -⟩ := Option.filter_eq_some_iff.mp hfused
      obtain ⟨⟨output, op, left, right, rfl, -⟩, ⟨removed, cmp, l, r, rfl, hcmp⟩, -⟩ :=
        tests_of_testedCompare? hcreated htest htested
      obtain ⟨newOp, hnewOp⟩ := Option.isSome_iff_exists.mp hcmp
      simp only [fusion?, hfused]
      simp [Instr.primitiveCompare, Instr.floatCompare, hnewOp]

end

end Function

end CinderX.Jit.Hir
