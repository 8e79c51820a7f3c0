import CinderX.Compiler.FormattedMeaning

/-!
# Optimized expressions mean the same

Each method of the optimizer is followed once.  No node gets deeper, so fuel for the depth
of an expression is enough, also where the parts of an iterable are visited a second time,
and a node keeps its meaning where a rewriting of a part of it cannot be observed.
-/

namespace CinderX.Compiler.Optimizer

open List

/-- The two newer classes read formats, and past the end of one that `%` does not take. -/
def Raised (cls : OptimizerClass) (e : Failure) : Prop :=
  cls ≠ .AstOptimizer ∧ ∃ format, e = .IndexError format ∧ printfPieces format = none

/-- What is returned has the property, and the fuel is not what fails. -/
def Ends {α : Type} (cls : OptimizerClass) (r : Result α) (p : α → Prop) : Prop :=
  match r with
  | .ok a => p a
  | .error e => Raised cls e

section Ends

variable {α β : Type} {p : α → Prop} {q : β → Prop} {cls : OptimizerClass}

theorem Ends.pure {a : α} (h : p a) : Ends cls (pure a) p := h

variable {r : Result α}

theorem Ends.bind {f : α → Result β} (hr : Ends cls r p)
    (hf : ∀ a, r = .ok a → p a → Ends cls (f a) q) : Ends cls (r >>= f) q := by
  cases r with
  | error e => exact hr
  | ok a => exact hf a rfl hr

theorem Ends.imp {p' : α → Prop} (hr : Ends cls r p) (h : ∀ a, p a → p' a) :
    Ends cls r p' := by
  cases r with
  | error e => exact hr
  | ok a => exact h a hr

end Ends

/-- The nodes that become an f-string: `%` between a string constant and a tuple display
without starred elements. -/
def FormatRewritten (cls : OptimizerClass) (visit : Expr → Result Expr) (e : Expr) : Prop :=
  cls ≠ .AstOptimizer ∧ ∃ left right val elts ctx, e = .BinOp left .Mod right ∧
    visit left = .ok (.Constant (.str val)) ∧ visit right = .ok (.Tuple elts ctx) ∧
    ∀ elt ∈ elts, elt.isStarred = false

/-- The nodes that become a comparison: `not` of a single `is` or `in`. -/
def NotRewritten (visit : Expr → Result Expr) (e left : Expr) (ops : List CmpOp)
    (comparators : List Expr) : Prop :=
  ∃ operand op newOp, e = .UnaryOp .Not operand ∧
    visit operand = .ok (.Compare left [op] comparators) ∧
    inverseOp op = some newOp ∧ ops = [newOp]

theorem makeConstTuple_spec {elts : List Expr} {cs : List Const}
    (h : makeConstTuple elts = some cs) : elts = cs.map .Constant := by
  induction elts generalizing cs with
  | nil =>
    cases h
    rfl
  | cons e es ih =>
    rw [makeConstTuple, mapM_cons] at h
    obtain ⟨c, hc, h⟩ := Option.bind_eq_some_iff.mp h
    obtain ⟨cs', hcs, h⟩ := Option.bind_eq_some_iff.mp h
    cases h
    rw [ih hcs, map_cons]
    cases e <;> simp only [Expr.constant?, reduceCtorEq, Option.some.injEq] at hc
    rw [hc]

section Folding

variable {ops : ConstOps} {limits : Limits} {left right c : Const}

theorem mult_of_safeRepeat {n : Int} (h : safeRepeat ops limits n left right = some c) :
    ops.binary .Mult left right = some c := by
  unfold safeRepeat at h
  split at h
  case h_5 => exact h
  all_goals
    split at h
    · cases h
    · exact h

theorem mult_of_safeMultiply
    (hcomm : ∀ c n, n.asInt.isSome → ops.binary .Mult n c = ops.binary .Mult c n)
    (h : safeMultiply ops limits left right = some c) : ops.binary .Mult left right = some c := by
  unfold safeMultiply at h
  split at h
  · split at h
    · cases h
    · exact h
  · exact mult_of_safeRepeat h
  · next r _ hr =>
      have hright : right.asInt.isSome := by rw [hr]; rfl
      split at h
      case h_5 => exact h
      all_goals exact (hcomm _ right hright).symm.trans (mult_of_safeRepeat h)
  · exact h

theorem binary_of_binOps {op : Operator}
    (hcomm : ∀ c n, n.asInt.isSome → ops.binary .Mult n c = ops.binary .Mult c n)
    (h : binOps ops op left right = some c) : ops.binary op left right = some c := by
  unfold binOps at h
  split at h
  · exact mult_of_safeMultiply hcomm h
  · unfold safeMod at h
    split at h
    · cases h
    · cases h
    · exact h
  · unfold safePower at h
    split at h
    · split at h
      · cases h
      · exact h
    · exact h
  · unfold safeLshift at h
    split at h
    · split at h
      · cases h
      · exact h
    · exact h
  · cases h
  · exact h

end Folding

theorem not_starred_of_any {elts : List Expr} (h : ¬ elts.any Expr.isStarred) :
    ∀ elt ∈ elts, elt.isStarred = false := by
  intro elt helt
  by_contra hnot
  exact h (List.any_eq_true.mpr ⟨elt, helt, by simpa using hnot⟩)

namespace Interpreter

variable {M : Type → Type} {V : Type} [Monad M] {py : Interpreter M V} {cls : OptimizerClass}
  {visit inner genericVisit : Expr → Result Expr}

def optimizer (py : Interpreter M V) (cls : OptimizerClass) : Instance :=
  ⟨cls, py.optimize, py.ops⟩

/-! ## What a visit keeps -/

variable (py) in
def tupleItems : Expr → Option (List (Meaning M V))
  | .Tuple elts _ => some (py.denoteList elts)
  | _ => none

variable (py) (cls) in
/-- The class may rewrite the node: no `~` of a `bool` warns, and a format converts each
element when it has been evaluated as well as at the end.  (`AstOptimizer314` takes
literals only, and does not look at the operator.) -/
def Permits : Expr → Prop
  | .UnaryOp op operand => cls ≠ .AstOptimizer314 → py.invertWarns = true → op = .Invert →
      ∀ b, (py.denote operand).value ≠ pure (py.const (.bool b))
  | .BinOp left op right => cls ≠ .AstOptimizer → ∀ val ms,
      (py.denote left).value = pure (py.const (.str val)) →
      (cls = .AstOptimizer314 → left = .Constant (.str val)) →
      py.tupleItems right = some ms → (∀ m ∈ ms, m.starred = false) →
      (cls = .AstOptimizer314 → op = .Mod) ∧
        (op = .Mod → ∀ pieces, printfPieces val = some pieces → py.InOrder pieces ms)
  | _ => True

structure Kept {α β : Type} (size : α → Nat) (p : α → Prop) (meaning : α → β)
    (a a' : α) : Prop where
  depth_le : size a' ≤ size a
  permits : p a → p a'
  denote : p a → meaning a' = meaning a

variable (py) (cls) in
def KeptExpr : Expr → Expr → Prop :=
  Kept Expr.depth (Expr.Everywhere (py.Permits cls)) py.denote

variable (py) (cls) in
def KeptList : List Expr → List Expr → Prop :=
  Kept depthList (EverywhereList (py.Permits cls)) py.denoteList

variable (py) (cls) in
def KeptGenerators : List Comprehension → List Comprehension → Prop :=
  Kept depthGenerators (EverywhereGenerators (py.Permits cls)) py.denoteGenerators

variable (py) (cls) in
def KeptComprehension : Comprehension → Comprehension → Prop :=
  Kept Comprehension.depth (Comprehension.Everywhere (py.Permits cls)) py.denoteComprehension

variable (py) (cls) (visit) in
/-- What a node has been before, where something is promised of it. -/
def Origin (e : Expr) : Expr → Prop
  | .Tuple elts _ => py.tupleItems e = some (py.denoteList elts)
  | .Constant c => cls = .AstOptimizer314 → ∀ s, c = .str s → e = .Constant c
  | .JoinedStr _ => (∃ values, e = .JoinedStr values) ∨ FormatRewritten cls visit e
  | .Compare left ops comparators =>
    (∃ left' comparators', e = .Compare left' ops comparators') ∨
      NotRewritten visit e left ops comparators
  | _ => True

variable (py) (cls) (visit) in
structure Visited (e e' : Expr) : Prop where
  kept : py.KeptExpr cls e e'
  origin : e.Everywhere (py.Permits cls) → py.Origin cls visit e e'

variable (py) (cls) in
def Visits (n : Nat) (visit inner : Expr → Result Expr) : Prop :=
  ∀ e, e.depth < n → Ends cls (visit e) (py.Visited cls inner e)

variable {n : Nat} {e e' operand operand' left left' right right' : Expr} {op : UnaryOp}
  {binop : Operator} {ctx : Ctx} {elts elts' : List Expr}

theorem Origin.items (h : py.Origin cls visit e e') {ms : List (Meaning M V)}
    (hitems : py.tupleItems e' = some ms) : py.tupleItems e = some ms := by
  cases e' with
  | Tuple => exact h.trans hitems
  | _ => cases hitems

theorem Visited.folded (h : py.Visited cls visit e e') (hcls : cls ≠ .AstOptimizer314) {c : Const}
    (hc : e.Everywhere (py.Permits cls) → py.denote (.Constant c) = py.denote e') :
    py.Visited cls visit e (.Constant c) where
  kept := ⟨Nat.zero_le _, fun _ => trivial, fun hp => (hc hp).trans (h.kept.denote hp)⟩
  origin _ h := absurd h hcls

theorem Visited.unaryOp (h : py.Visited cls inner operand operand') :
    py.Visited cls visit (.UnaryOp op operand) (.UnaryOp op operand') where
  kept := {
    depth_le := Nat.succ_le_succ h.kept.depth_le
    permits hp := ⟨by
      rw [Permits, h.kept.denote hp.2]
      exact hp.1, h.kept.permits hp.2⟩
    denote hp := by simp only [Interpreter.denote, h.kept.denote hp.2] }
  origin _ := trivial

theorem Visited.binOp (hleft : py.Visited cls inner left left')
    (hright : py.Visited cls inner right right') :
    py.Visited cls visit (.BinOp left binop right) (.BinOp left' binop right') where
  kept := {
    depth_le := by
      have hl := hleft.kept.depth_le
      have hr := hright.kept.depth_le
      simp only [Expr.depth]
      omega
    permits := by
      intro ⟨hpermits, hl, hr⟩
      refine ⟨?_, hleft.kept.permits hl, hright.kept.permits hr⟩
      intro hcls val ms hvalue hliteral hitems
      rw [hleft.kept.denote hl] at hvalue
      exact hpermits hcls val ms hvalue
        (fun h => by
          have horigin := hleft.origin hl
          rw [hliteral h] at horigin
          exact horigin h val rfl)
        ((hright.origin hr).items hitems)
    denote hp := by
      simp only [Interpreter.denote, hleft.kept.denote hp.2.1, hright.kept.denote hp.2.2] }
  origin _ := trivial

theorem Visited.tuple (h : py.KeptList cls elts elts') :
    py.Visited cls visit (.Tuple elts ctx) (.Tuple elts' ctx) where
  kept := {
    depth_le := Nat.succ_le_succ h.depth_le
    permits hp := ⟨trivial, h.permits hp.2⟩
    denote hp := by simp only [Interpreter.denote, h.denote hp.2] }
  origin hp := congrArg some (h.denote hp.2).symm

theorem Visited.subscript {value value' slice slice' : Expr} (hvalue : py.KeptExpr cls value value')
    (hslice : py.KeptExpr cls slice slice') :
    py.Visited cls visit (.Subscript value slice ctx) (.Subscript value' slice' ctx) where
  kept := {
    depth_le := by
      have hv := hvalue.depth_le
      have hs := hslice.depth_le
      simp only [Expr.depth]
      omega
    permits hp := ⟨trivial, hvalue.permits hp.2.1, hslice.permits hp.2.2⟩
    denote hp := by
      simp only [Interpreter.denote, hvalue.denote hp.2.1, hslice.denote hp.2.2] }
  origin _ := trivial

variable {ops : List CmpOp} {comparators comparators' : List Expr}

theorem Visited.compare (hleft : py.KeptExpr cls left left')
    (hcomparators : py.KeptList cls comparators comparators') :
    py.Visited cls visit (.Compare left ops comparators) (.Compare left' ops comparators') where
  kept := {
    depth_le := by
      have hl := hleft.depth_le
      have hc := hcomparators.depth_le
      simp only [Expr.depth]
      omega
    permits hp := ⟨trivial, hleft.permits hp.2.1, hcomparators.permits hp.2.2⟩
    denote hp := by
      simp only [Interpreter.denote, hleft.denote hp.2.1, hcomparators.denote hp.2.2] }
  origin _ := .inl ⟨left, comparators, rfl⟩

theorem walkList_ends (hvisit : py.Visits cls n visit inner) {es : List Expr}
    (h : depthList es < n) : Ends cls (walkList visit es) (py.KeptList cls es) := by
  induction es with
  | nil => exact Ends.pure ⟨Nat.le_refl _, id, fun _ => rfl⟩
  | cons e es ih =>
    rw [depthList] at h
    rw [walkList, mapM_cons]
    refine (hvisit e (by omega)).bind fun e' _ he => ?_
    refine (ih (by omega)).bind fun es' _ hes => ?_
    refine Ends.pure ⟨?_, fun hp => ⟨he.kept.permits hp.1, hes.permits hp.2⟩, fun hp => ?_⟩
    · have hdepth := he.kept.depth_le
      have hdepths := hes.depth_le
      rw [depthList, depthList]
      omega
    · rw [denoteList, denoteList, he.kept.denote hp.1, hes.denote hp.2]

theorem mapM_ends {visitcomprehension : Comprehension → Result Comprehension}
    (hvisit : ∀ g, g.depth < n → Ends cls (visitcomprehension g) (py.KeptComprehension cls g))
    {gs : List Comprehension} (h : depthGenerators gs < n) :
    Ends cls (gs.mapM visitcomprehension) (py.KeptGenerators cls gs) := by
  induction gs with
  | nil => exact Ends.pure ⟨Nat.le_refl _, id, fun _ => rfl⟩
  | cons g gs ih =>
    rw [depthGenerators] at h
    rw [mapM_cons]
    refine (hvisit g (by omega)).bind fun g' _ hg => ?_
    refine (ih (by omega)).bind fun gs' _ hgs => ?_
    refine Ends.pure ⟨?_, fun hp => ⟨hg.permits hp.1, hgs.permits hp.2⟩, fun hp => ?_⟩
    · have hdepth := hg.depth_le
      have hdepths := hgs.depth_le
      rw [depthGenerators, depthGenerators]
      omega
    · rw [denoteGenerators, denoteGenerators, hg.denote hp.1, hgs.denote hp.2]

theorem genericVisit_ends (hvisit : py.Visits cls n visit inner)
    {visitcomprehension : Comprehension → Result Comprehension}
    (hcomprehension : ∀ g, g.depth < n →
      Ends cls (visitcomprehension g) (py.KeptComprehension cls g)) :
    py.Visits cls (n + 1) (Optimizer.genericVisit visit visitcomprehension) visit := by
  intro e h
  cases e with
  | Constant c =>
    exact Ends.pure ⟨⟨Nat.le_refl _, id, fun _ => rfl⟩, fun _ _ _ _ => rfl⟩
  | Name id ctx => exact Ends.pure ⟨⟨Nat.le_refl _, fun hp => hp, fun _ => rfl⟩, fun _ => trivial⟩
  | UnaryOp op operand =>
    exact (hvisit operand (Nat.lt_of_succ_lt_succ h)).bind fun _ _ h₁ => Ends.pure h₁.unaryOp
  | BinOp left op right =>
    simp only [Expr.depth] at h
    refine (hvisit left (by omega)).bind fun _ _ h₁ => ?_
    exact (hvisit right (by omega)).bind fun _ _ h₂ => Ends.pure (h₁.binOp h₂)
  | Compare left ops comparators =>
    simp only [Expr.depth] at h
    refine (hvisit left (by omega)).bind fun _ _ h₁ => ?_
    exact (walkList_ends hvisit (by omega)).bind fun _ _ h₂ => Ends.pure (.compare h₁.kept h₂)
  | Tuple elts ctx =>
    exact (walkList_ends hvisit (Nat.lt_of_succ_lt_succ h)).bind fun _ _ h₁ => Ends.pure (.tuple h₁)
  | Subscript value slice ctx =>
    simp only [Expr.depth] at h
    refine (hvisit value (by omega)).bind fun _ _ h₁ => ?_
    exact (hvisit slice (by omega)).bind fun _ _ h₂ => Ends.pure (.subscript h₁.kept h₂.kept)
  | List elts ctx | Set elts | form form elts =>
    refine (walkList_ends hvisit (Nat.lt_of_succ_lt_succ h)).bind fun elts' _ h₁ => ?_
    refine Ends.pure ⟨⟨Nat.succ_le_succ h₁.depth_le, fun hp => ⟨trivial, h₁.permits hp.2⟩,
      fun hp => ?_⟩, fun _ => trivial⟩
    simp only [denote, h₁.denote hp.2]
  | JoinedStr values =>
    refine (walkList_ends hvisit (Nat.lt_of_succ_lt_succ h)).bind fun values' _ h₁ => ?_
    refine Ends.pure ⟨⟨Nat.succ_le_succ h₁.depth_le, fun hp => ⟨trivial, h₁.permits hp.2⟩,
      fun hp => ?_⟩, fun _ => .inl ⟨values, rfl⟩⟩
    simp only [denote, h₁.denote hp.2]
  | Starred value ctx | Attribute value attr ctx =>
    refine (hvisit value (Nat.lt_of_succ_lt_succ h)).bind fun value' _ h₁ => ?_
    refine Ends.pure ⟨⟨Nat.succ_le_succ h₁.kept.depth_le,
      fun hp => ⟨trivial, h₁.kept.permits hp.2⟩, fun hp => ?_⟩, fun _ => trivial⟩
    simp only [denote, h₁.kept.denote hp.2]
  | FormattedValue value conversion formatSpec =>
    simp only [Expr.depth] at h
    cases formatSpec with
    | none =>
      refine (hvisit value (by omega)).bind fun value' _ h₁ => ?_
      refine Ends.pure ⟨⟨?_, fun hp => ⟨trivial, h₁.kept.permits hp.2.1, trivial⟩,
        fun hp => ?_⟩, fun _ => trivial⟩
      · have hdepth := h₁.kept.depth_le
        simp only [Expr.depth]
        omega
      · simp only [denote, h₁.kept.denote hp.2.1]
    | some spec =>
      rw [depthOption] at h
      refine (hvisit value (by omega)).bind fun value' _ h₁ => ?_
      refine (hvisit spec (by omega)).bind fun spec' _ h₂ => ?_
      refine Ends.pure ⟨⟨?_, fun hp => ⟨trivial, h₁.kept.permits hp.2.1, h₂.kept.permits hp.2.2⟩,
        fun hp => ?_⟩, fun _ => trivial⟩
      · have hdepth := h₁.kept.depth_le
        have hspec := h₂.kept.depth_le
        simp only [Expr.depth, depthOption]
        omega
      · simp only [denote, denoteSpec, h₁.kept.denote hp.2.1, h₂.kept.denote hp.2.2]
  | comp kind elts generators =>
    simp only [Expr.depth] at h
    refine (walkList_ends hvisit (by omega)).bind fun elts' _ h₁ => ?_
    refine (mapM_ends hcomprehension (by omega)).bind fun generators' _ h₂ => ?_
    refine Ends.pure ⟨⟨?_, fun hp => ⟨trivial, h₁.permits hp.2.1, h₂.permits hp.2.2⟩,
      fun hp => ?_⟩, fun _ => trivial⟩
    · have hdepth := h₁.depth_le
      have hdepths := h₂.depth_le
      simp only [Expr.depth]
      omega
    · simp only [denote, h₁.denote hp.2.1, h₂.denote hp.2.2]

variable [LawfulMonad M]

theorem displayItems_constants (cs : List Const) :
    displayItems (py.denoteList (cs.map .Constant)) = pure (cs.map py.const) := by
  induction cs with
  | nil => rfl
  | cons c cs ih => simp [denoteList, displayItems, denote, ofValue, ih]

/-! ## Operators -/

theorem compareOp_inverse (hpy : py.Documented) {op op' : CmpOp} (hop : inverseOp op = some op')
    (left right : V) :
    py.compareOp op' left right = (do py.unary .Not (← py.compareOp op left right)) := by
  cases op <;> cases hop <;> simp [compareOp, unary, hpy.truth_bool]

theorem denote_not_compare (hpy : py.Documented) {op op' : CmpOp} (hop : inverseOp op = some op')
    (left : Expr) (comparators : List Expr) :
    py.denote (.Compare left [op'] comparators) =
      py.denote (.UnaryOp .Not (.Compare left [op] comparators)) := by
  have hcompare : py.compare (py.denote left) [op'] (py.denoteList comparators) =
      (do py.unary .Not (← py.compare (py.denote left) [op] (py.denoteList comparators))) := by
    simp only [Interpreter.compare, length_singleton]
    split
    · next hlength =>
        obtain ⟨m, hm⟩ := length_eq_one_iff.mp hlength.symm
        simp only [hm, compareChain, bind_assoc, compareOp_inverse hpy hop]
    · exact (hpy.fail_bind V V _).symm
  simp only [denote, hcompare]
  rfl

theorem visitUnaryOp_ends (hpy : py.Documented) (hcls : cls ≠ .AstOptimizer314)
    (hvisit : py.Visits cls n visit inner) (h : operand.depth < n) :
    Ends cls (AstOptimizer.visitUnaryOp (py.optimizer cls) visit op operand)
      (py.Visited cls visit (.UnaryOp op operand)) := by
  refine (hvisit operand h).bind fun operand' hoperand hvisited => ?_
  have hsame : py.Visited cls visit (.UnaryOp op operand) (.UnaryOp op operand') :=
    hvisited.unaryOp
  split
  · next c =>
    split
    · next c' hc =>
      refine Ends.pure (hsame.folded hcls fun hp => ?_)
      have hquiet : ¬(py.invertWarns = true ∧ op = .Invert ∧ ∃ b, c = .bool b) := by
        rintro ⟨hwarns, rfl, b, rfl⟩
        apply hp.1 hcls hwarns rfl b
        rw [← hvisited.kept.denote hp.2]
        rfl
      simp [denote, ofValue, hpy.unary_const op c c' hc hquiet]
    · exact Ends.pure hsame
  · next left cmpOp comparators =>
    split
    · next newOp hop =>
      split
      · next hnot =>
        subst hnot
        refine Ends.pure ⟨⟨Nat.le_succ_of_le hvisited.kept.depth_le, fun hp => ?_, fun hp => ?_⟩,
          fun _ => .inr ⟨operand, cmpOp, newOp, rfl, hoperand, hop, rfl⟩⟩
        · exact hvisited.kept.permits hp.2
        · rw [denote_not_compare hpy hop left comparators]
          exact hsame.kept.denote hp
      · exact Ends.pure hsame
    · exact Ends.pure hsame
  · exact Ends.pure hsame

/-- A fold, or the operator of the visited operands. -/
theorem visitBinOp_ends (hpy : py.Documented) (hcls : cls ≠ .AstOptimizer314)
    (hvisit : py.Visits cls n visit inner) (hl : left.depth < n) (hr : right.depth < n) :
    Ends cls (AstOptimizer.visitBinOp (py.optimizer cls) visit left binop right) fun e' =>
      py.Visited cls visit (.BinOp left binop right) e' ∧ ∀ left' op' right',
        e' = .BinOp left' op' right' →
          op' = binop ∧ visit left = .ok left' ∧ visit right = .ok right' := by
  refine (hvisit left hl).bind fun left' hleft hvisitedLeft => ?_
  refine (hvisit right hr).bind fun right' hright hvisitedRight => ?_
  have hsame : py.Visited cls visit (.BinOp left binop right) (.BinOp left' binop right') :=
    hvisitedLeft.binOp hvisitedRight
  have hvisited : ∀ left₁ op' right₁, Expr.BinOp left' binop right' = .BinOp left₁ op' right₁ →
      op' = binop ∧ visit left = .ok left₁ ∧ visit right = .ok right₁ := by
    rintro left₁ op' right₁ heq
    cases heq
    exact ⟨rfl, hleft, hright⟩
  split
  · next l r =>
    split
    · next c hc =>
      refine Ends.pure ⟨hsame.folded hcls fun _ => ?_, by simp⟩
      simp [denote, ofValue, hpy.binary_const binop l r c (binary_of_binOps hpy.mult_comm hc)]
    · exact Ends.pure ⟨hsame, hvisited⟩
  · exact Ends.pure ⟨hsame, hvisited⟩

theorem everywhereList_of_joined {p : Expr → Prop} {pieces : List Piece} {values : List Expr}
    (hconst : ∀ c, p (.Constant c)) (hformatted : ∀ e c s, p (.FormattedValue e c s))
    (h : Joined pieces elts values) (helts : EverywhereList p elts) :
    EverywhereList p values := by
  induction h with
  | nil => exact helts
  | text h ih => exact ⟨hconst _, ih helts⟩
  | @conv info c pieces elt elts values hwidth h ih =>
    refine ⟨⟨hformatted _ _ _, helts.1, ?_⟩, ih helts.2⟩
    split
    · trivial
    · exact hconst _

theorem depth_of_joined {pieces : List Piece} {values : List Expr}
    (h : Joined pieces elts values) : depthList values ≤ depthList elts + 1 := by
  induction h with
  | nil => exact Nat.zero_le _
  | text h ih =>
    rw [depthList, Expr.depth, Nat.zero_max]
    exact ih
  | @conv info c pieces elt elts values hwidth h ih =>
    have hspec : depthOption
        (if info.res = [] then none else some (.Constant (.str info.res))) = 0 := by
      split <;> rfl
    rw [depthList, Expr.depth, hspec, depthList]
    omega

omit [LawfulMonad M] in
theorem starred_denote (e : Expr) : (py.denote e).starred = e.isStarred := by
  cases e <;> first | rfl | skip
  case Name id ctx =>
    rw [denote]
    split <;> rfl

theorem optimizeFormat_ends (hpy : py.Documented) (hcls : cls ≠ .AstOptimizer)
    {val : List Char} (hleft : visit left = .ok (.Constant (.str val)))
    (hright : visit right = .ok (.Tuple elts ctx)) (hstarred : ¬ elts.any Expr.isStarred)
    (hop : cls ≠ .AstOptimizer314 → binop = .Mod)
    (hsame : py.Visited cls visit (.BinOp left binop right)
      (.BinOp (.Constant (.str val)) binop (.Tuple elts ctx))) :
    Ends cls (optimizeFormat (.Constant (.str val)) binop val elts ctx)
      (py.Visited cls visit (.BinOp left binop right)) := by
  have hstarred := not_starred_of_any hstarred
  unfold optimizeFormat
  split
  · next seq hseq =>
    obtain ⟨pieces, values, hpieces, rfl, hjoined⟩ := formatValues_spec hseq
    have hformat : (Expr.BinOp left binop right).Everywhere (py.Permits cls) →
        binop = .Mod ∧ ∀ pieces, printfPieces val = some pieces →
          py.InOrder pieces (py.denoteList elts) := by
      intro hp
      obtain ⟨hmod, horder⟩ := (hsame.kept.permits hp).1 hcls val _ rfl (fun _ => rfl) rfl (by
        intro m hm
        rw [denoteList_eq_map] at hm
        obtain ⟨e, he, rfl⟩ := List.mem_map.mp hm
        exact (starred_denote e).trans (hstarred e he))
      by_cases h314 : cls = .AstOptimizer314
      · exact ⟨hmod h314, horder (hmod h314)⟩
      · exact ⟨hop h314, horder (hop h314)⟩
    refine Ends.pure ⟨⟨?_, fun hp => ?_, fun hp => ?_⟩, fun hp => .inr ?_⟩
    · have hdepth := depth_of_joined hjoined
      have hdepth' := hsame.kept.depth_le
      simp only [Expr.depth] at hdepth' ⊢
      omega
    · exact ⟨trivial, everywhereList_of_joined (fun _ => trivial) (fun _ _ _ => trivial) hjoined
        (hsame.kept.permits hp).2.2.2⟩
    · obtain ⟨rfl, horder⟩ := hformat hp
      rw [← hsame.kept.denote hp]
      exact denote_joinedStr hpy hseq hstarred horder
    · obtain ⟨rfl, -⟩ := hformat hp
      exact ⟨hcls, left, right, val, elts, ctx, rfl, hleft, hright, hstarred⟩
  · exact Ends.pure hsame
  · exact Ends.pure hsame
  · next herror => exact ⟨hcls, val, rfl, printfPieces_of_indexError herror⟩

theorem visitBinOp312_ends (hpy : py.Documented) (hcls : cls = .AstOptimizer312)
    (hvisit : py.Visits cls n visit inner) (hl : left.depth < n) (hr : right.depth < n) :
    Ends cls (AstOptimizer312.visitBinOp (py.optimizer cls) visit left binop right)
      (py.Visited cls visit (.BinOp left binop right)) := by
  have h314 : cls ≠ .AstOptimizer314 := by
    rw [hcls]
    decide
  refine (visitBinOp_ends hpy h314 hvisit hl hr).bind fun res _ ⟨hsame, hvisited⟩ => ?_
  split
  · next val elts ctx =>
    obtain ⟨rfl, hleft, hright⟩ := hvisited _ _ _ rfl
    split
    · exact Ends.pure hsame
    · next hstarred =>
      exact optimizeFormat_ends hpy (by rw [hcls]; decide) hleft hright hstarred
        (fun _ => rfl) hsame
  · exact Ends.pure hsame

theorem visitBinOp314_ends (hpy : py.Documented) (hcls : cls = .AstOptimizer314)
    (hvisit : py.Visits cls n visit inner) (hl : left.depth < n) (hr : right.depth < n) :
    Ends cls (AstOptimizer314.visitBinOp visit left binop right)
      (py.Visited cls visit (.BinOp left binop right)) := by
  refine (hvisit left hl).bind fun left' hleft hvisitedLeft => ?_
  refine (hvisit right hr).bind fun right' hright hvisitedRight => ?_
  have hsame : py.Visited cls visit (.BinOp left binop right) (.BinOp left' binop right') :=
    hvisitedLeft.binOp hvisitedRight
  split
  · next val elts ctx =>
    split
    · exact Ends.pure hsame
    · next hstarred =>
      exact optimizeFormat_ends hpy (by rw [hcls]; decide) hleft hright hstarred
        (fun h => absurd hcls h) hsame
  · exact Ends.pure hsame

theorem denote_constant_tuple (hpy : py.Documented) (cs : List Const) :
    py.denote (.Constant (.tuple cs)) = py.denote (.Tuple (cs.map .Constant) .Load) := by
  simp [denote, ofValue, ofTarget, displayItems_constants, hpy.tuple_const]

theorem visitTuple_ends (hpy : py.Documented) (hcls : cls ≠ .AstOptimizer314)
    (hvisit : py.Visits cls n visit inner) (h : depthList elts < n) :
    Ends cls (AstOptimizer.visitTuple visit elts ctx) (py.Visited cls visit (.Tuple elts ctx)) := by
  refine (walkList_ends hvisit h).bind fun elts' _ helts => ?_
  have hsame : py.Visited cls visit (.Tuple elts ctx) (.Tuple elts' ctx) := .tuple helts
  split
  · next cs hcs =>
    refine Ends.pure (hsame.folded hcls fun _ => ?_)
    rw [makeConstTuple_spec hcs]
    exact denote_constant_tuple hpy cs
  · exact Ends.pure hsame

theorem visitSubscript_ends (hpy : py.Documented) (hcls : cls ≠ .AstOptimizer314)
    (hvisit : py.Visits cls n visit inner) {value slice : Expr} (hv : value.depth < n)
    (hs : slice.depth < n) :
    Ends cls (AstOptimizer.visitSubscript (py.optimizer cls) visit value slice ctx)
      (py.Visited cls visit (.Subscript value slice ctx)) := by
  refine (hvisit value hv).bind fun value' _ hvalue => ?_
  refine (hvisit slice hs).bind fun slice' _ hslice => ?_
  have hsame : py.Visited cls visit (.Subscript value slice ctx) (.Subscript value' slice' ctx) :=
    .subscript hvalue.kept hslice.kept
  split
  · next v s _ _ =>
    split
    · next c hc =>
      refine Ends.pure (hsame.folded hcls fun _ => ?_)
      simp [denote, ofValue, ofTarget, hpy.getItem_const v s c hc]
    · exact Ends.pure hsame
  · exact Ends.pure hsame

/-! ## Iterables -/

/-- As an iterable, and as a container, one does for the other. -/
structure SameItems (py : Interpreter M V) (m m' : Meaning M V) : Prop where
  contains : ∀ v, (do py.contains (← m.value) v) = (do py.contains (← m'.value) v)
  iter : ∀ isAsync, (do py.iter isAsync (← m.value)) = (do py.iter isAsync (← m'.value))

omit [LawfulMonad M] in
theorem SameItems.rfl {m : Meaning M V} : py.SameItems m m :=
  ⟨fun _ => Eq.refl _, fun _ => Eq.refl _⟩

theorem sameItems_list (hpy : py.Documented) {elts : List Expr} (ctx : Ctx) :
    py.SameItems (py.denote (.Tuple elts ctx)) (py.denote (.List elts ctx)) := by
  constructor
  · intro v
    simp [denote, ofTarget, hpy.contains_list]
  · intro isAsync
    simp [denote, ofTarget, hpy.iter_list]

theorem sameItems_set (hpy : py.Documented) (cs : List Const) :
    py.SameItems (py.denote (.Constant (.frozenset (py.ops.frozenset cs))))
      (py.denote (.Set (cs.map .Constant))) := by
  constructor
  · intro v
    simp [denote, ofValue, displayItems_constants, hpy.contains_set]
  · intro isAsync
    simp [denote, ofValue, displayItems_constants, hpy.iter_set]

variable (py) (cls) in
structure KeptItems (e e' : Expr) : Prop where
  depth_le : e'.depth ≤ e.depth
  permits : e.Everywhere (py.Permits cls) → e'.Everywhere (py.Permits cls)
  same : e.Everywhere (py.Permits cls) → py.SameItems (py.denote e') (py.denote e)

theorem visitIter_ends (hpy : py.Documented) (hvisit : py.Visits cls n visit inner)
    (hgeneric : ∀ e, e.depth < n → Ends cls (genericVisit e) (py.KeptExpr cls e)) {node : Expr}
    (h : node.depth < n) :
    Ends cls (visitIter (py.optimizer cls) visit genericVisit node) (py.KeptItems cls node) := by
  unfold visitIter
  split
  · exact Ends.pure ⟨Nat.le_refl _, id, fun _ => .rfl⟩
  split
  · next elts ctx =>
    refine (walkList_ends hvisit (Nat.lt_of_succ_lt h)).bind fun elts' _ helts => ?_
    have hdenote : EverywhereList (py.Permits cls) elts →
        py.denote (.List elts' ctx) = py.denote (.List elts ctx) := fun hp => by
      simp only [denote, helts.denote hp]
    split
    · next cs hcs =>
      obtain rfl := makeConstTuple_spec hcs
      refine Ends.pure ⟨Nat.zero_le _, fun _ => trivial, fun hp => ?_⟩
      have hvalue : (py.denote (.Constant (.tuple cs))).value =
          (py.denote (.Tuple (cs.map .Constant) ctx)).value := by
        rw [denote_constant_tuple hpy]
        rfl
      obtain ⟨hcontains, hiter⟩ := @sameItems_list _ _ _ py _ hpy (cs.map .Constant) ctx
      rw [← hdenote hp.2]
      exact ⟨hvalue ▸ hcontains, hvalue ▸ hiter⟩
    · split
      · refine Ends.pure ⟨Nat.succ_le_succ helts.depth_le,
          fun hp => ⟨trivial, helts.permits hp.2⟩, fun hp => ?_⟩
        rw [hdenote hp.2]
        exact .rfl
      · refine Ends.pure ⟨Nat.succ_le_succ helts.depth_le,
          fun hp => ⟨trivial, helts.permits hp.2⟩, fun hp => ?_⟩
        rw [← hdenote hp.2]
        exact sameItems_list hpy ctx
  · next elts =>
    refine (walkList_ends hvisit (Nat.lt_of_succ_lt h)).bind fun elts' _ helts => ?_
    have hdenote : EverywhereList (py.Permits cls) elts →
        py.denote (.Set elts') = py.denote (.Set elts) := fun hp => by
      simp only [denote, helts.denote hp]
    split
    · next cs hcs =>
      obtain rfl := makeConstTuple_spec hcs
      refine Ends.pure ⟨Nat.zero_le _, fun _ => trivial, fun hp => ?_⟩
      rw [← hdenote hp.2]
      exact sameItems_set hpy cs
    · refine Ends.pure ⟨Nat.succ_le_succ helts.depth_le,
        fun hp => ⟨trivial, helts.permits hp.2⟩, fun hp => ?_⟩
      rw [hdenote hp.2]
      exact .rfl
  · refine (hgeneric node h).imp fun node' hnode => ⟨hnode.depth_le, hnode.permits, fun hp => ?_⟩
    rw [hnode.denote hp]
    exact .rfl

omit [LawfulMonad M] in
theorem compareChain_cons (hops : ops ≠ []) (op : CmpOp) (left : V) (m : Meaning M V)
    (ms : List (Meaning M V)) :
    py.compareChain left (op :: ops) (m :: ms) =
      (do
        let right ← m.value
        let v ← py.compareOp op left right
        if ← py.truth v then py.compareChain right ops ms else return v) := by
  cases ops with
  | nil => exact absurd rfl hops
  | cons => rfl

theorem compareChain_last {op : CmpOp} (hop : op = .In ∨ op = .NotIn) {m m' : Meaning M V}
    (hsame : py.SameItems m m') {ms : List (Meaning M V)} (hlength : ops.length = ms.length)
    (left : V) :
    py.compareChain left (ops ++ [op]) (ms ++ [m]) =
      py.compareChain left (ops ++ [op]) (ms ++ [m']) := by
  induction ops generalizing ms left with
  | nil =>
    obtain rfl := length_eq_zero_iff.mp hlength.symm
    have hcontains := hsame.contains left
    have hmap : ∀ f : Bool → V, (do return f (← py.contains (← m.value) left)) =
        (do return f (← py.contains (← m'.value) left)) := by
      intro f
      have hbind := congrArg (fun x : M Bool => do return f (← x)) hcontains
      simpa only [bind_assoc] using hbind
    rcases hop with rfl | rfl
    · exact hmap fun b => py.const (.bool b)
    · exact hmap fun b => py.const (.bool !b)
  | cons op' ops ih =>
    cases ms with
    | nil => cases hlength
    | cons m₀ ms =>
      have hops : ops ++ [op] ≠ [] := append_ne_nil_of_right_ne_nil _ (cons_ne_nil _ _)
      rw [cons_append, cons_append, cons_append, compareChain_cons hops,
        compareChain_cons hops]
      simp only [ih (Nat.succ.inj hlength)]

theorem compare_last {op : CmpOp} (hop : op = .In ∨ op = .NotIn) {init : List Expr}
    {iter iter' : Expr} (hsame : py.SameItems (py.denote iter') (py.denote iter)) :
    py.denote (.Compare left (ops ++ [op]) (init ++ [iter'])) =
      py.denote (.Compare left (ops ++ [op]) (init ++ [iter])) := by
  simp only [denote, Interpreter.compare, denoteList_eq_map, map_append, map_cons, map_nil,
    length_append, length_map, length_singleton, Nat.add_right_cancel_iff]
  congr 1
  split
  · next hlength =>
    apply bind_congr
    intro l
    exact compareChain_last hop hsame (by rw [hlength, length_map]) l
  · rfl

theorem visitCompare_ends (hpy : py.Documented) (hvisit : py.Visits cls n visit inner)
    (hgeneric : ∀ e, e.depth < n → Ends cls (genericVisit e) (py.KeptExpr cls e))
    (hl : left.depth < n) (hc : depthList comparators < n) :
    Ends cls (visitCompare (py.optimizer cls) visit genericVisit left ops comparators)
      (py.Visited cls visit (.Compare left ops comparators)) := by
  refine (hvisit left hl).bind fun left' _ hleft => ?_
  refine (walkList_ends hvisit hc).bind fun comparators' _ hcomparators => ?_
  have hsame : py.Visited cls visit (.Compare left ops comparators)
      (.Compare left' ops comparators') := .compare hleft.kept hcomparators
  have hlast : ∀ op iter, op = .In ∨ op = .NotIn → ops.getLast? = some op →
      comparators'.getLast? = some iter →
      Ends cls (do
        let iter ← visitIter (py.optimizer cls) visit genericVisit iter
        return .Compare left' ops (comparators'.dropLast ++ [iter]))
        (py.Visited cls visit (.Compare left ops comparators)) := by
    intro op iter hop hops hiter
    obtain ⟨ops, rfl⟩ := getLast?_eq_some_iff.mp hops
    obtain ⟨init, rfl⟩ := getLast?_eq_some_iff.mp hiter
    have hdepth := hcomparators.depth_le
    have hdepths := depthList_le_iff.mp (Nat.le_refl (depthList (init ++ [iter])))
    have hdepthIter := hdepths iter (mem_append_right _ (mem_singleton_self _))
    refine (visitIter_ends hpy hvisit hgeneric (by omega)).bind fun iter' _ hiter' => ?_
    have hnew : depthList (init ++ [iter']) ≤ depthList (init ++ [iter]) := by
      rw [depthList_le_iff]
      intro e he
      rcases mem_append.mp he with he | he
      · exact hdepths e (mem_append_left _ he)
      · rw [mem_singleton.mp he]
        exact Nat.le_trans hiter'.depth_le hdepthIter
    rw [dropLast_concat]
    have hparts : ∀ hp : (Expr.Compare left (ops ++ [op]) comparators).Everywhere
        (py.Permits cls), EverywhereList (py.Permits cls) init ∧
          iter.Everywhere (py.Permits cls) := by
      intro hp
      have hall := everywhereList_iff.mp (hcomparators.permits hp.2.2)
      exact ⟨everywhereList_iff.mpr fun e he => hall e (mem_append_left _ he),
        hall iter (mem_append_right _ (mem_singleton_self _))⟩
    refine Ends.pure ⟨⟨?_, fun hp => ⟨trivial, hleft.kept.permits hp.2.1, ?_⟩, fun hp => ?_⟩,
      fun _ => .inl ⟨left, comparators, rfl⟩⟩
    · have hdepthLeft := hleft.kept.depth_le
      simp only [Expr.depth]
      omega
    · obtain ⟨hinit, hiterPermits⟩ := hparts hp
      refine everywhereList_iff.mpr fun e he => ?_
      rcases mem_append.mp he with he | he
      · exact everywhereList_iff.mp hinit e he
      · rw [mem_singleton.mp he]
        exact hiter'.permits hiterPermits
    · rw [compare_last hop (hiter'.same (hparts hp).2)]
      exact hsame.kept.denote hp
  split
  · next iter hops hiter => exact hlast .In iter (.inl rfl) hops hiter
  · next iter hops hiter => exact hlast .NotIn iter (.inr rfl) hops hiter
  · exact Ends.pure hsame

theorem visitcomprehension_ends (hpy : py.Documented) (hvisit : py.Visits cls n visit inner)
    (hgeneric : ∀ e, e.depth < n → Ends cls (genericVisit e) (py.KeptExpr cls e))
    {g : Comprehension} (h : g.depth < n) :
    Ends cls (visitcomprehension (py.optimizer cls) visit genericVisit g)
      (py.KeptComprehension cls g) := by
  obtain ⟨target, iter, ifs, isAsync⟩ := g
  simp only [Comprehension.depth] at h
  refine (hvisit target (by omega)).bind fun target' _ htarget => ?_
  refine (hvisit iter (by omega)).bind fun iter₁ _ hiter₁ => ?_
  refine (walkList_ends hvisit (by omega)).bind fun ifs' _ hifs => ?_
  have hdepth := hiter₁.kept.depth_le
  refine (visitIter_ends hpy hvisit hgeneric (by omega)).bind fun iter' _ hiter' => ?_
  refine Ends.pure ⟨?_, fun hp => ?_, fun hp => ?_⟩
  · have htargetDepth := htarget.kept.depth_le
    have hifsDepth := hifs.depth_le
    have hiterDepth := hiter'.depth_le
    simp only [Comprehension.depth]
    omega
  · exact ⟨htarget.kept.permits hp.1, hiter'.permits (hiter₁.kept.permits hp.2.1),
      hifs.permits hp.2.2⟩
  · rw [denoteComprehension, denoteComprehension, Generator.mk.injEq, htarget.kept.denote hp.1,
      (hiter'.same (hiter₁.kept.permits hp.2.1)).iter, hiter₁.kept.denote hp.2.1,
      hifs.denote hp.2.2]
    exact ⟨rfl, rfl, rfl⟩

end Interpreter

end CinderX.Compiler.Optimizer
