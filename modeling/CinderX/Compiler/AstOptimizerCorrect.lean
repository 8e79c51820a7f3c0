import CinderX.Compiler.AstOptimizerSound
import CinderX.Compiler.FormatExact

/-!
# The optimizer is correct

Expressions keep their meaning under each of the three classes, and only the nodes that
are meant to be rewritten are.
-/

namespace CinderX.Compiler.Optimizer.Interpreter

variable {M : Type → Type} {V : Type}

section Runs

variable [Monad M] [LawfulMonad M] {py : Interpreter M V} {cls : OptimizerClass}
  {visit inner genericVisit defaultVisit : Expr → Result Expr} {n : Nat}

theorem visitNode_ends (hpy : py.Documented) (hvisit : py.Visits cls n visit inner)
    (hgeneric : ∀ e, e.depth < n → Ends cls (genericVisit e) (py.KeptExpr cls e))
    (hdefault : py.Visits cls (n + 1) defaultVisit visit) :
    py.Visits cls (n + 1) (visitNode (py.optimizer cls) visit genericVisit defaultVisit)
      visit := by
  intro e h
  unfold visitNode
  split
  · next op operand =>
      have hoperand : operand.depth < n := Nat.lt_of_succ_lt_succ h
      split
      · exact (hvisit operand hoperand).bind fun _ _ h₁ => Ends.pure h₁.unaryOp
      · next hcls => exact visitUnaryOp_ends hpy hcls hvisit hoperand
  · next left op right =>
      simp only [Expr.depth] at h
      split
      · next hcls =>
          have hcls : cls = .AstOptimizer := hcls
          exact (visitBinOp_ends hpy (by rw [hcls]; decide) hvisit (by omega) (by omega)).imp
            fun _ h => h.1
      · next hcls => exact visitBinOp312_ends hpy hcls hvisit (by omega) (by omega)
      · next hcls => exact visitBinOp314_ends hpy hcls hvisit (by omega) (by omega)
  · next elts ctx =>
      have helts : depthList elts < n := Nat.lt_of_succ_lt_succ h
      split
      · exact (walkList_ends hvisit helts).bind fun _ _ h₁ => Ends.pure (.tuple h₁)
      · next hcls => exact visitTuple_ends hpy hcls hvisit helts
  · next value slice ctx =>
      simp only [Expr.depth] at h
      split
      · refine (hvisit value (by omega)).bind fun _ _ h₁ => ?_
        exact (hvisit slice (by omega)).bind fun _ _ h₂ => Ends.pure (.subscript h₁.kept h₂.kept)
      · next hcls => exact visitSubscript_ends hpy hcls hvisit (by omega) (by omega)
  · next left ops comparators =>
      simp only [Expr.depth] at h
      exact visitCompare_ends hpy hvisit hgeneric (by omega) (by omega)
  · next id ctx =>
      unfold visitName
      split
      · next hid =>
          exact Ends.pure ⟨⟨Nat.le_refl _, fun _ => trivial,
            fun _ => by simp [denote, hid, optimizer]⟩, fun _ _ _ hstr => nomatch hstr⟩
      · exact Ends.pure ⟨⟨Nat.le_refl _, fun hp => hp, fun _ => rfl⟩, fun _ => trivial⟩
  · exact hdefault e h

theorem visit_ends (hpy : py.Documented) (cls : OptimizerClass) (fuel : Nat) :
    py.Visits cls (fuel + 1) ((py.optimizer cls).visit (fuel + 1)) ((py.optimizer cls).visit fuel) ∧
      ∀ e, e.depth < fuel + 1 →
        Ends cls ((py.optimizer cls).genericVisit (fuel + 1) e) (py.KeptExpr cls e) := by
  have hnext : ∀ n inner, py.Visits cls n ((py.optimizer cls).visit n) inner →
      (∀ e, e.depth < n →
        Ends cls ((py.optimizer cls).genericVisit n e) (py.KeptExpr cls e)) →
      py.Visits cls (n + 1) ((py.optimizer cls).visit (n + 1)) ((py.optimizer cls).visit n) ∧
        ∀ e, e.depth < n + 1 →
          Ends cls ((py.optimizer cls).genericVisit (n + 1) e) (py.KeptExpr cls e) := by
    intro n inner hvisit hgeneric
    have hdefault := genericVisit_ends hvisit fun g hg =>
      visitcomprehension_ends hpy hvisit hgeneric hg
    exact ⟨visitNode_ends hpy hvisit hgeneric hdefault,
      fun e h => (hdefault e h).imp fun _ h => h.kept⟩
  induction fuel with
  | zero =>
    exact hnext 0 ((py.optimizer cls).visit 0) (fun e h => absurd h (Nat.not_lt_zero _))
      fun e h => absurd h (Nat.not_lt_zero _)
  | succ fuel ih => exact hnext (fuel + 1) _ ih.1 ih.2

end Runs

section Sample

def loggedText (_ : Conversion) : Const → Log (List Char)
  | .str s => do
      modify (· ++ ['$' :: s])
      return s
  | _ => pure []

def twoCalls : Expr :=
  .BinOp (.Constant (.str ['%', 's', '%', '5', 's'])) .Mod
    (.Tuple [.form (.Call 0 []) [.Name "f" .Load], .form (.Call 0 []) [.Name "g" .Load]] .Load)

/-- Conversions without effects do not mind when they come. -/
theorem inOrder_of_pure {text : Conversion → Const → List Char} {pieces : List Piece}
    {ms : List (Meaning Log Const)} :
    (sample fun c v => pure (text c v)).InOrder pieces ms := by
  induction pieces generalizing ms with
  | nil => trivial
  | cons piece pieces ih =>
    cases piece with
    | char ch => exact ih
    | conv ljust width prec c =>
      cases ms with
      | nil => trivial
      | cons m ms =>
        refine ⟨⟨do return ⟨← m.value, sample_plain _ _ _⟩, by simp⟩, fun β k => ?_, ih⟩
        simp [sample_convertText]

theorem quietText_eq : quietText = fun c v =>
    pure ((quietText c v).run [] |>.elim [] Prod.fst) := by
  funext c v
  cases v <;> rfl

theorem permits_twoCalls :
    twoCalls.Everywhere ((sample quietText).Permits .AstOptimizer312) := by
  refine ⟨fun _ val ms _ _ _ _ =>
    ⟨fun h => absurd h (by decide), fun _ pieces _ => ?_⟩, trivial, trivial,
    ⟨trivial, trivial, trivial⟩, ⟨trivial, trivial, trivial⟩, trivial⟩
  rw [quietText_eq]
  exact inOrder_of_pure

end Sample

end CinderX.Compiler.Optimizer.Interpreter
