import CinderX.StaticPython.DefiniteAssignment

/-!
# The checker's sets

What a visit can add to the assigned set, for one local `x`, and that the set of
recorded nodes only grows.
-/

namespace CinderX.StaticPython

open Finset

namespace DefiniteAssignmentVisitor

variable {scope : Scope} {x : Identifier}

theorem mem_setAssigned (hx : scope.isLocal x) (name : Identifier)
    (v : DefiniteAssignmentVisitor) :
    x ∈ (setAssigned scope name v).assigned ↔ x ∈ v.assigned ∨ name = x := by
  unfold setAssigned
  split
  next => simp [or_comm, eq_comm]
  next hlocal =>
    have hne : name ≠ x := by
      rintro rfl
      exact hlocal hx
    simp [hne]

@[simp] theorem setAssigned_unassigned (name : Identifier)
    (v : DefiniteAssignmentVisitor) :
    (setAssigned scope name v).unassigned = v.unassigned := by
  unfold setAssigned
  split <;> rfl

theorem mem_visitName (hx : scope.isLocal x) (node : Nat) (id : Identifier)
    (ctx : ExprContext) (v : DefiniteAssignmentVisitor) :
    x ∈ (visitName scope node id ctx v).assigned ↔
      x ∈ v.assigned ∨ (id = x ∧ ctx = .store) := by
  cases ctx with
  | load =>
    simp only [visitName]
    split
    · split <;> simp
    · simp
  | store =>
    have h := mem_setAssigned hx id v
    simpa [visitName, setAssigned] using h

theorem unassigned_visitName (scope : Scope) (node : Nat) (id : Identifier) (ctx : ExprContext)
    (v : DefiniteAssignmentVisitor) :
    v.unassigned ⊆ (visitName scope node id ctx v).unassigned := by
  unfold visitName
  split
  · cases ctx with
    | load =>
      dsimp only
      split
      · exact subset_rfl
      · exact subset_insert _ _
    | store => exact subset_rfl
  · exact subset_rfl

mutual

theorem mem_visitExpr (hx : scope.isLocal x) :
    ∀ (e : Expr) (v : DefiniteAssignmentVisitor),
      x ∈ (visitExpr scope e v).assigned ↔ x ∈ v.assigned ∨ e.binds x = true
  | .name node id ctx, v => by
      simp [visitExpr, Expr.binds, mem_visitName hx]
  | .namedExpr target value, v => by
      simp [visitExpr, Expr.binds, mem_visitExpr hx value, mem_setAssigned hx, or_assoc]
  | .boolOp left values, v => by
      simp [visitExpr, Expr.binds, mem_visitExprs hx values, mem_visitExpr hx left,
        or_assoc]
  | .ifExp test body orelse, v => by
      simp [visitExpr, Expr.binds, mem_visitExpr hx test, mem_visitExpr hx body,
        mem_visitExpr hx orelse, or_assoc]
  | .compare left right comparators, v => by
      simp [visitExpr, Expr.binds, mem_visitExpr hx left, mem_visitExpr hx right,
        mem_visitExprs hx comparators, or_assoc]
  | .lambda args body, v => by
      simp [visitExpr, Expr.binds, mem_visitExprs hx args]
  | .comprehension elts target iter rest, v => by
      simp [visitExpr, Expr.binds, mem_visitExprs hx elts, mem_visitExpr hx target,
        mem_visitExpr hx iter, mem_visitExprs hx rest, or_assoc]
  | .other operands, v => by
      simp [visitExpr, Expr.binds, mem_visitExprs hx operands]

theorem mem_visitExprs (hx : scope.isLocal x) :
    ∀ (es : List Expr) (v : DefiniteAssignmentVisitor),
      x ∈ (visitExprs scope es v).assigned ↔ x ∈ v.assigned ∨ anyBinds x es = true
  | [], v => by simp [visitExprs, anyBinds]
  | e :: es, v => by
      simp [visitExprs, anyBinds, mem_visitExprs hx es, mem_visitExpr hx e, or_assoc]

end

mutual

theorem unassigned_visitExpr (scope : Scope) :
    ∀ (e : Expr) (v : DefiniteAssignmentVisitor),
      v.unassigned ⊆ (visitExpr scope e v).unassigned
  | .name node id ctx, v => unassigned_visitName scope node id ctx v
  | .namedExpr target value, v =>
    (setAssigned_unassigned target v).ge.trans (unassigned_visitExpr scope value _)
  | .boolOp left values, v =>
    (unassigned_visitExpr scope left v).trans (unassigned_visitExprs scope values _)
  | .ifExp test body orelse, v =>
    (unassigned_visitExpr scope test v).trans
      ((unassigned_visitExpr scope body _).trans (unassigned_visitExpr scope orelse _))
  | .compare left right comparators, v =>
    (unassigned_visitExpr scope left v).trans
      ((unassigned_visitExpr scope right _).trans (unassigned_visitExprs scope comparators _))
  | .lambda args _, v => unassigned_visitExprs scope args v
  | .comprehension elts target iter rest, v =>
    (unassigned_visitExprs scope elts v).trans
      ((unassigned_visitExpr scope target _).trans
        ((unassigned_visitExpr scope iter _).trans (unassigned_visitExprs scope rest _)))
  | .other operands, v => unassigned_visitExprs scope operands v

theorem unassigned_visitExprs (scope : Scope) :
    ∀ (es : List Expr) (v : DefiniteAssignmentVisitor),
      v.unassigned ⊆ (visitExprs scope es v).unassigned
  | [], _ => subset_rfl
  | e :: es, v => (unassigned_visitExpr scope e v).trans (unassigned_visitExprs scope es _)

end

/-! ## Statements -/

theorem unassigned_genericVisit (scope : Scope) (e : Expr) (v : DefiniteAssignmentVisitor) :
    v.unassigned ⊆ (genericVisit scope e v).unassigned := by
  cases e with
  | name node id ctx => exact subset_rfl
  | lambda args body =>
    exact (unassigned_visitExprs scope args v).trans (unassigned_visitExpr scope body _)
  | _ => exact unassigned_visitExpr scope _ v

theorem unassigned_visitAugAssign (scope : Scope) (target value : Expr)
    (v : DefiniteAssignmentVisitor) :
    v.unassigned ⊆ (visitAugAssign scope target value v).unassigned := by
  cases target with
  | name node id ctx =>
    have hnode : v.unassigned ⊆
        (if id ∈ v.assigned then v
          else { v with unassigned := insert node v.unassigned }).unassigned := by
      split
      · exact subset_rfl
      · exact subset_insert node _
    exact hnode.trans (unassigned_genericVisit scope value _)
  | _ => exact (unassigned_visitExpr scope _ v).trans (unassigned_visitExpr scope value _)

theorem unassigned_visitAnnAssign (scope : Scope) (target ann : Expr) (value : Option Expr)
    (v : DefiniteAssignmentVisitor) :
    v.unassigned ⊆ (visitAnnAssign scope target ann value v).unassigned := by
  cases value with
  | none => exact subset_rfl
  | some value => exact unassigned_visitExprs scope _ v

theorem unassigned_visitDelTarget (scope : Scope) (target : DelTarget)
    (v : DefiniteAssignmentVisitor) :
    v.unassigned ⊆ (visitDelTarget scope target v).unassigned := by
  cases target with
  | name node id =>
    simp only [visitDelTarget, visitDelName]
    split
    · split
      · exact subset_rfl
      · exact subset_insert _ _
    · exact subset_rfl
  | other target => exact unassigned_visitExpr scope target v

theorem unassigned_visitDelTargets (scope : Scope) : ∀ (targets : List DelTarget)
    (v : DefiniteAssignmentVisitor),
    v.unassigned ⊆ (visitDelTargets scope targets v).unassigned
  | [], _ => subset_rfl
  | target :: targets, v =>
    (unassigned_visitDelTarget scope target v).trans (unassigned_visitDelTargets scope targets _)

theorem unassigned_setAllAssigned (scope : Scope) : ∀ (names : List Identifier)
    (v : DefiniteAssignmentVisitor),
    (setAllAssigned scope names v).unassigned = v.unassigned
  | [], _ => rfl
  | name :: names, v => by
      rw [setAllAssigned, unassigned_setAllAssigned scope names, setAssigned_unassigned]

theorem visitLoopEnd_walk (entry : Finset Identifier) (orelse : List Stmt)
    (v : DefiniteAssignmentVisitor) :
    visitLoopEnd entry
        (if orelse.isEmpty then none else some (walkStmts scope true orelse)) v =
      { walkStmts scope true orelse { v with assigned := entry ∩ v.assigned } with
        assigned := (entry ∩ v.assigned) ∩
          (walkStmts scope true orelse { v with assigned := entry ∩ v.assigned }).assigned } := by
  cases orelse with
  | nil => simp [visitLoopEnd, walkStmts]
  | cons s ss => rfl

theorem visitStmt_ifStmt (test : Expr) (body orelse : List Stmt)
    (v : DefiniteAssignmentVisitor) :
    visitStmt scope (.ifStmt test body orelse) v =
      let entry := visitExpr scope test v
      let postIf := walkStmts scope true body entry
      let postElse := walkStmts scope true orelse { postIf with assigned := entry.assigned }
      { postElse with assigned := postElse.assigned ∩ postIf.assigned } := by
  cases orelse with
  | nil => simp [visitStmt, walkStmts]
  | cons s ss => simp [visitStmt]

/-! The recorded nodes only grow. -/

mutual

variable {u : Finset Nat}

theorem recorded_visitStmt (scope : Scope) :
    ∀ (s : Stmt) (v : DefiniteAssignmentVisitor), u ⊆ v.unassigned →
      u ⊆ (visitStmt scope s v).unassigned
  | .expr value, v, h => by
      unfold visitStmt
      exact h.trans (unassigned_visitExpr scope value v)
  | .assign targets value, v, h => by
      unfold visitStmt
      exact h.trans ((unassigned_visitExpr scope value v).trans
        (unassigned_visitExprs scope targets _))
  | .augAssign target value, v, h => by
      unfold visitStmt
      exact h.trans (unassigned_visitAugAssign scope target value v)
  | .annAssign target ann value, v, h => by
      unfold visitStmt
      exact h.trans (unassigned_visitAnnAssign scope target ann value v)
  | .delete targets, v, h => by
      unfold visitStmt
      exact h.trans (unassigned_visitDelTargets scope targets v)
  | .importNames names, v, h | .importFrom names, v, h => by
      unfold visitStmt
      rwa [unassigned_setAllAssigned scope]
  | .functionDef name args returns decorators, v, h
  | .classDef name bases keywords decorators, v, h => by
      unfold visitStmt
      rw [setAssigned_unassigned]
      exact h.trans (unassigned_visitExprs scope _ v)
  | .ifStmt test body orelse, v, h => by
      rw [visitStmt_ifStmt]
      dsimp only
      exact recorded_walkStmts scope true orelse _ (recorded_walkStmts scope true body _
        (h.trans (unassigned_visitExpr scope test v)))
  | .whileStmt test body orelse, v, h => by
      unfold visitStmt
      rw [visitLoopEnd_walk]
      dsimp only
      exact recorded_walkStmts scope true orelse _ (recorded_walkStmts scope true body _
        (h.trans (unassigned_visitExpr scope test v)))
  | .forStmt target iter body orelse, v, h => by
      unfold visitStmt
      rw [visitLoopEnd_walk]
      dsimp only
      exact recorded_walkStmts scope true orelse _ (recorded_walkStmts scope true body _
        (h.trans ((unassigned_visitExpr scope iter v).trans (unassigned_visitExpr scope target _))))
  | .withStmt items body, v, h => by
      unfold visitStmt
      exact recorded_walkStmts scope true body _ (h.trans (unassigned_visitExprs scope _ v))
  | .tryStmt body handlers orelse finalbody, v, h => by
      have hbody := recorded_walkStmts scope true body v h
      unfold visitStmt
      dsimp only
      split
      · exact recorded_walkStmts scope true finalbody _ hbody
      · split
        · exact recorded_walkStmts scope true finalbody _
            (recorded_visitHandlers scope _ handlers _ hbody)
        · exact recorded_walkStmts scope true finalbody _ (recorded_walkStmts scope true orelse _
            (recorded_visitHandlers scope _ handlers _ hbody))
  | .raiseStmt parts, v, h => by
      unfold visitStmt
      exact h.trans (unassigned_visitExprs scope parts v)
  | .returnStmt value, v, h => by
      unfold visitStmt
      exact h.trans (unassigned_visitExprs scope _ v)
  | .breakStmt, v, h => by
      unfold visitStmt
      exact h
  | .continueStmt, v, h => by
      unfold visitStmt
      exact h
  | .pass, v, h => by
      unfold visitStmt
      exact h

theorem recorded_walkStmts (scope : Scope) (untilRaise : Bool) :
    ∀ (ss : List Stmt) (v : DefiniteAssignmentVisitor), u ⊆ v.unassigned →
      u ⊆ (walkStmts scope untilRaise ss v).unassigned
  | [], v, h => by
      unfold walkStmts
      exact h
  | s :: ss, v, h => by
      unfold walkStmts
      have hs := recorded_visitStmt scope s v h
      split
      · exact hs
      · exact recorded_walkStmts scope untilRaise ss _ hs

theorem recorded_visitHandlers (scope : Scope) (entry : Finset Identifier) :
    ∀ (handlers : List ExceptHandler) (v : DefiniteAssignmentVisitor),
      u ⊆ v.unassigned → u ⊆ (visitHandlers scope entry handlers v).unassigned
  | [], v, h => by
      unfold visitHandlers
      exact h
  | .mk type name body :: handlers, v, h => by
      unfold visitHandlers
      apply recorded_visitHandlers scope entry handlers
      apply recorded_walkStmts scope true body
      cases name with
      | none => exact h
      | some name =>
        unfold setHandlerName
        rwa [setAssigned_unassigned]

end

theorem assigned_visitHandlers (scope : Scope) (entry : Finset Identifier) :
    ∀ (handlers : List ExceptHandler) (v : DefiniteAssignmentVisitor),
      (visitHandlers scope entry handlers v).assigned ⊆ v.assigned
  | [], v => by
      unfold visitHandlers
      exact subset_rfl
  | .mk type name body :: handlers, v => by
      unfold visitHandlers
      exact (assigned_visitHandlers scope entry handlers _).trans inter_subset_left

/-! ### Where an assigned name comes from -/

theorem mem_genericVisit (hx : scope.isLocal x) (e : Expr)
    (v : DefiniteAssignmentVisitor) (h : x ∈ (genericVisit scope e v).assigned) :
    x ∈ v.assigned ∨ (Stmt.augAssign (.other []) e).binds x = true := by
  cases e with
  | name node id ctx => exact .inl h
  | lambda args body =>
    simpa [genericVisit, mem_visitExpr hx, mem_visitExprs hx, Stmt.binds, Expr.binds,
      anyBinds, or_assoc] using h
  | _ =>
    rw [genericVisit, mem_visitExpr hx] at h
    simpa [Stmt.binds, anyBinds, Expr.binds] using h
    all_goals simp

theorem mem_visitDelTarget (hx : scope.isLocal x) (target : DelTarget)
    (v : DefiniteAssignmentVisitor) (h : x ∈ (visitDelTarget scope target v).assigned) :
    x ∈ v.assigned ∨ target.binds x = true := by
  cases target with
  | name node id =>
    left
    simp only [visitDelTarget, visitDelName] at h
    split at h
    · split at h
      · exact mem_of_mem_erase h
      · exact h
    · exact h
  | other target =>
    exact (mem_visitExpr hx target v).mp h

theorem mem_visitDelTargets (hx : scope.isLocal x) : ∀ (targets : List DelTarget)
    (v : DefiniteAssignmentVisitor), x ∈ (visitDelTargets scope targets v).assigned →
    x ∈ v.assigned ∨ targets.any (·.binds x) = true
  | [], _, h => .inl h
  | target :: targets, v, h => by
      cases mem_visitDelTargets hx targets _ h with
      | inl h =>
        cases mem_visitDelTarget hx target v h with
        | inl h => exact .inl h
        | inr h => simp [h]
      | inr h =>
        right
        rw [List.any_cons, h, Bool.or_true]

theorem mem_setAllAssigned (hx : scope.isLocal x) : ∀ (names : List Identifier)
    (v : DefiniteAssignmentVisitor),
    x ∈ (setAllAssigned scope names v).assigned ↔ x ∈ v.assigned ∨ x ∈ names
  | [], v => by simp [setAllAssigned]
  | name :: names, v => by
      simp [setAllAssigned, mem_setAllAssigned hx names, mem_setAssigned hx, or_assoc,
        eq_comm]

mutual

theorem mem_visitStmt (hx : scope.isLocal x) :
    ∀ (s : Stmt) (v : DefiniteAssignmentVisitor),
      x ∈ (visitStmt scope s v).assigned → x ∈ v.assigned ∨ s.binds x = true
  | .expr value, v, h => by
      unfold visitStmt at h
      simpa [Stmt.binds, mem_visitExpr hx] using h
  | .assign targets value, v, h => by
      unfold visitStmt at h
      simpa [Stmt.binds, mem_visitExpr hx, mem_visitExprs hx, or_assoc] using h
  | .augAssign target value, v, h => by
      unfold visitStmt at h
      have hvalue : ∀ v' : DefiniteAssignmentVisitor,
          x ∈ (genericVisit scope value v').assigned →
          x ∈ v'.assigned ∨ (Stmt.augAssign target value).binds x = true := by
        intro v' h'
        refine (mem_genericVisit hx value v' h').imp_right fun hb => ?_
        simp only [Stmt.binds, Expr.binds, anyBinds, Bool.false_or, Bool.or_eq_true] at hb ⊢
        tauto
      cases target with
      | name node id ctx =>
        refine (hvalue _ h).imp_left fun h' => ?_
        split at h' <;> exact h'
      | _ =>
        simp only [visitAugAssign, mem_visitExpr hx] at h
        simp only [Stmt.binds, Bool.or_eq_true]
        tauto
  | .annAssign target ann value, v, h => by
      unfold visitStmt at h
      cases value with
      | none => exact .inl h
      | some value =>
        simp only [visitAnnAssign, mem_visitExprs hx, anyBinds, Bool.or_eq_true] at h
        simp only [Stmt.binds, Option.toList, anyBinds, Bool.or_eq_true]
        tauto
  | .delete targets, v, h => by
      unfold visitStmt at h
      simpa only [Stmt.binds] using mem_visitDelTargets hx targets v h
  | .importNames names, v, h | .importFrom names, v, h => by
      unfold visitStmt at h
      simpa [Stmt.binds, mem_setAllAssigned hx] using h
  | .functionDef name args returns decorators, v, h
  | .classDef name bases keywords decorators, v, h => by
      unfold visitStmt at h
      simp only [mem_setAssigned hx, mem_visitExprs hx] at h
      simp only [Stmt.binds, Bool.or_eq_true, beq_iff_eq]
      tauto
  | .ifStmt test body orelse, v, h => by
      rw [visitStmt_ifStmt] at h
      have hbody := mem_walkStmts hx true body (visitExpr scope test v)
        (mem_of_mem_inter_right h)
      simp only [mem_visitExpr hx] at hbody
      simp only [Stmt.binds, Bool.or_eq_true]
      tauto
  | .whileStmt test body orelse, v, h | .forStmt target iter body orelse, v, h => by
      unfold visitStmt at h
      rw [visitLoopEnd_walk] at h
      have hentry := mem_of_mem_inter_left (mem_of_mem_inter_left h)
      simp only [mem_visitExpr hx] at hentry
      simp only [Stmt.binds, Bool.or_eq_true]
      tauto
  | .withStmt items body, v, h => by
      unfold visitStmt at h
      have hentry := mem_of_mem_inter_left h
      simp only [mem_visitExprs hx] at hentry
      simp only [Stmt.binds, Bool.or_eq_true]
      tauto
  | .tryStmt body handlers orelse finalbody, v, h => by
      have hbody := mem_walkStmts hx true body v
      unfold visitStmt at h
      dsimp only at h
      simp only [Stmt.binds, Bool.or_eq_true]
      split at h
      · cases mem_union.mp h with
        | inl h =>
          have := hbody (mem_sdiff.mp h).1
          tauto
        | inr h =>
          have hfinal := mem_walkStmts hx true finalbody _ h
          simp only [mem_inter] at hfinal
          tauto
      · have hfinally : ∀ v' : DefiniteAssignmentVisitor, v'.assigned ⊆ v.assigned →
            x ∈ (walkStmts scope true finalbody v').assigned →
            x ∈ v.assigned ∨ bodyBinds x finalbody = true := by
          intro v' hsub h'
          exact (mem_walkStmts hx true finalbody v' h').imp_left fun hmem => hsub hmem
        have hhandled := (assigned_visitHandlers scope
          (v.assigned ∩ (walkStmts scope true body v).assigned) handlers
          { walkStmts scope true body v with
            assigned := v.assigned ∩ (walkStmts scope true body v).assigned }).trans
          inter_subset_left
        split at h
        · have := hfinally _ hhandled h
          tauto
        · have := hfinally _ (inter_subset_left.trans hhandled) h
          tauto
  | .raiseStmt parts, v, h | .returnStmt value, v, h => by
      unfold visitStmt at h
      simpa [Stmt.binds, mem_visitExprs hx] using h
  | .breakStmt, v, h => by
      unfold visitStmt at h
      exact .inl h
  | .continueStmt, v, h => by
      unfold visitStmt at h
      exact .inl h
  | .pass, v, h => by
      unfold visitStmt at h
      exact .inl h

theorem mem_walkStmts (hx : scope.isLocal x) (untilRaise : Bool) :
    ∀ (ss : List Stmt) (v : DefiniteAssignmentVisitor),
      x ∈ (walkStmts scope untilRaise ss v).assigned →
      x ∈ v.assigned ∨ bodyBinds x ss = true
  | [], v, h => by
      unfold walkStmts at h
      exact .inl h
  | s :: ss, v, h => by
      have hs := mem_visitStmt hx s v
      unfold walkStmts at h
      simp only [bodyBinds, Bool.or_eq_true]
      split at h
      · have := hs h
        tauto
      · have := mem_walkStmts hx untilRaise ss _ h
        tauto

end

end DefiniteAssignmentVisitor

end CinderX.StaticPython
