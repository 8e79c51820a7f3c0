import CinderX.StaticPython.ExpressionSound

/-!
# The definite assignment checker is sound where its steps keep a name

The checker walks each body once and reads a deletion off the set at the body's
end only.  A name is safe in the runs that, for this name, never leave or repeat
a body with the name deleted (`Event.keeps`).
-/

namespace CinderX.StaticPython

open Foundation Foundation.Behaviour Run DefiniteAssignmentVisitor Finset

variable {scope : Scope} {x : Identifier} {v v₁ v' : DefiniteAssignmentVisitor}
  {a b : Run} {unassigned : Finset Nat}

/-! ## Statements without a load of the name -/

namespace LoadsChecked

theorem seq (ha : LoadsChecked x unassigned a) (hb : LoadsChecked x unassigned b) :
    LoadsChecked x unassigned (a.seq b) :=
  ha.seq_invariant hb

theorem choice (ha : LoadsChecked x unassigned a) (hb : LoadsChecked x unassigned b) :
    LoadsChecked x unassigned (a.choice b) :=
  Meets.choice ha hb

theorem bind {next : Completion → Run} (ha : LoadsChecked x unassigned a)
    (hnext : ∀ o, LoadsChecked x unassigned (next o)) :
    LoadsChecked x unassigned (a.bind next) :=
  Meets.bind ha fun o => (hnext o).strengthen fun _ _ => trivial

theorem loop (ha : LoadsChecked x unassigned a) (hb : LoadsChecked x unassigned b) :
    LoadsChecked x unassigned (loop a b) :=
  ha.loop_invariant trivial hb

theorem withEntry {next : Bound → Run}
    (h : ∀ entry, LoadsChecked x unassigned (next entry)) :
    LoadsChecked x unassigned (withEntry next) :=
  meets_withEntry fun entry _ => (h entry).strengthen fun _ _ => trivial

theorem ends (o : Completion) : LoadsChecked x unassigned (ends o) :=
  meets_ends fun _ hs => ⟨trivial, hs⟩

theorem skip : LoadsChecked x unassigned skip := ends .normal

theorem update (f : Bound → Bound) : LoadsChecked x unassigned (update f) :=
  meets_update fun _ hs => ⟨trivial, hs⟩

theorem emit {event : Bound → Event}
    (hevent : ∀ s node id bound, event s ≠ .load node id bound) :
    LoadsChecked x unassigned (emit event) :=
  meets_emit fun s hs _ => ⟨silent_checked _ (hevent s), trivial, hs⟩

theorem of_evaluated (h : Meets (Event.keeps x) (fun _ => True) a
    (Event.checked x unassigned) (within Evaluated fun _ => True)) :
    LoadsChecked x unassigned a :=
  h.weaken (fun _ hs => hs) (fun _ he => he) fun _ _ hs => ⟨trivial, hs.2⟩

theorem hazard : LoadsChecked x unassigned hazard :=
  of_evaluated carried_anywhere.hazard

theorem evalExpr {e : Expr} (h : e.loads x = false) :
    LoadsChecked x unassigned (evalExpr [] e) :=
  of_evaluated (carried_anywhere.evalExpr e [] (loadsGood_other h))

variable {es : List Expr} {entry : Bound}

theorem evalExprs (h : anyLoads x es = false) :
    LoadsChecked x unassigned (evalExprs [] es) :=
  of_evaluated (carried_anywhere.evalExprs es [] (loadsGood_other h))

theorem evalParts (h : anyLoads x es = false) :
    LoadsChecked x unassigned (evalParts es) :=
  of_evaluated (carried_anywhere.evalParts es (loadsGood_other h))

theorem evalUnvisited (h : anyLoads x es = false) :
    LoadsChecked x unassigned (evalUnvisited es) :=
  (emit (by simp)).seq (evalExprs h)

theorem bindName (id : Identifier) : LoadsChecked x unassigned (bindName id) :=
  hazard.seq (update _)

theorem bindNames : ∀ names : List Identifier, LoadsChecked x unassigned (bindNames names)
  | [] => skip
  | name :: names => (bindName name).seq (bindNames names)

theorem deleteTargets : ∀ targets : List DelTarget,
    targets.any (·.loads x) = false → LoadsChecked x unassigned (deleteTargets targets)
  | [], _ => skip
  | .name _ id :: targets, h => by
      simp only [List.any_cons, Bool.or_eq_false_iff] at h
      refine seq (withEntry fun entry => ?_) (deleteTargets targets h.2)
      split
      · exact hazard.seq (update _)
      · exact ends _
  | .other target :: targets, h => by
      simp only [List.any_cons, Bool.or_eq_false_iff] at h
      exact (evalExpr h.1).seq (hazard.seq (deleteTargets targets h.2))

theorem endRound (head : Expr) (body : List Stmt) (start entry : Bound)
    (o : Completion) : LoadsChecked x unassigned (endRound head body start entry o) := by
  cases o with
  | normal => exact emit (by simp)
  | continued => exact (emit (by simp)).seq (emit (by simp))
  | broken => exact (emit (by simp)).seq (ends _)
  | _ => exact ends _

theorem finish {plain : Bool} {body finalbody : List Stmt}
    {runFinal : Run} (h : LoadsChecked x unassigned runFinal) (o : Completion) :
    LoadsChecked x unassigned (finish plain body finalbody entry runFinal o) := by
  cases o with
  | normal =>
    unfold Run.finish
    refine withEntry fun before => h.seq ?_
    split
    · exact emit (by simp)
    · exact skip
  | stopped => exact ends _
  | _ => exact (emit (by simp)).seq (h.seq (ends _))

theorem runHandler {name : Option Identifier} (h : LoadsChecked x unassigned a) :
    LoadsChecked x unassigned (runHandler name entry a) := by
  cases name with
  | none => exact (emit (by simp)).seq h
  | some name =>
    refine (emit (by simp)).seq ((bindName name).seq (h.bind fun o => ?_))
    cases o with
    | stopped => exact ends _
    | _ => exact (emit (by simp)).seq ((update _).seq (ends _))

theorem runWith {parts : List Expr} (hparts : anyLoads x parts = false)
    (h : LoadsChecked x unassigned a) : LoadsChecked x unassigned (runWith parts a) := by
  cases parts with
  | nil => exact h
  | cons context rest =>
    unfold Run.runWith
    simp only [anyLoads, Bool.or_eq_false_iff] at hparts
    refine withEntry fun entry => (evalExpr hparts.1).seq (hazard.seq
      (((evalExprs hparts.2).seq (hazard.seq h)).bind fun o => ?_))
    cases o with
    | raised => exact hazard.seq ((ends _).choice (emit (by simp)))
    | _ => exact hazard.seq (ends _)

theorem augmentedAssign {target value : Expr}
    (h : (Stmt.augAssign target value).loads x = false) :
    LoadsChecked x unassigned (augmentedAssign target value) := by
  simp only [Stmt.loads, Bool.or_eq_false_iff] at h
  cases target with
  | name node id ctx =>
    have hid : id ≠ x := by simpa using h.1
    refine seq (meets_emit fun s hs _ => ⟨fun heq => absurd heq hid, trivial, hs⟩) ?_
    exact hazard.seq (((emit (by simp)).seq (evalExpr h.2)).seq (bindName id))
  | _ => exact (evalExpr h.1).seq ((evalExpr h.2).seq hazard)

theorem annotatedAssign {target ann : Expr} {value : Option Expr}
    (h : (Stmt.annAssign target ann value).loads x = false) :
    LoadsChecked x unassigned (annotatedAssign target ann value) := by
  simp only [Stmt.loads, Bool.or_eq_false_iff] at h
  cases value with
  | none =>
    have hann : LoadsChecked x unassigned (Run.evalUnvisited [ann]) :=
      evalUnvisited (by simp [anyLoads, h.1.2])
    have htarget : LoadsChecked x unassigned (Run.evalUnvisited [target]) :=
      evalUnvisited (by simp [anyLoads, h.1.1])
    cases target with
    | name node id ctx => exact skip.choice hann
    | _ => exact htarget.seq (skip.choice hann)
  | some value =>
    have hvalue : value.loads x = false := by simpa [anyLoads] using h.2
    exact (emit (by simp)).seq ((evalExpr hvalue).seq
      ((evalExpr h.1.1).seq (skip.choice (evalExpr h.1.2))))

mutual

theorem execStmt : ∀ s : Stmt, s.loads x = false →
    LoadsChecked x unassigned (execStmt s)
  | .expr value, h => by
      unfold Run.execStmt
      exact evalExpr (by simpa [Stmt.loads] using h)
  | .assign targets value, h => by
      unfold Run.execStmt
      simp only [Stmt.loads, Bool.or_eq_false_iff] at h
      exact (evalExpr h.1).seq (evalExprs h.2)
  | .augAssign target value, h => by
      unfold Run.execStmt
      exact augmentedAssign h
  | .annAssign target ann value, h => by
      unfold Run.execStmt
      exact annotatedAssign h
  | .delete targets, h => by
      unfold Run.execStmt
      exact deleteTargets targets (by simpa only [Stmt.loads] using h)
  | .importNames names, _ => by
      unfold Run.execStmt
      exact bindNames _
  | .importFrom names, _ => by
      unfold Run.execStmt
      exact bindNames _
  | .functionDef name args returns decorators, h | .classDef name bases keywords decorators, h => by
      unfold Run.execStmt
      exact (evalParts (by simpa only [Stmt.loads] using h)).seq (bindName name)
  | .ifStmt test body orelse, h => by
      unfold Run.execStmt
      simp only [Stmt.loads, Bool.or_eq_false_iff] at h
      exact (evalExpr h.1.1).seq (hazard.seq
        ((execBody body h.1.2).choice (execBody orelse h.2)))
  | .whileStmt test body orelse, h => by
      unfold Run.execStmt
      simp only [Stmt.loads, Bool.or_eq_false_iff] at h
      exact withEntry fun start => loop
        ((evalExpr h.1.1).seq (hazard.seq (withEntry fun entry =>
          (execBody body h.1.2).bind (endRound test body start entry))))
        ((evalExpr h.1.1).seq (hazard.seq (execBody orelse h.2)))
  | .forStmt target iter body orelse, h => by
      unfold Run.execStmt
      simp only [Stmt.loads, Bool.or_eq_false_iff] at h
      exact (evalExpr h.1.1.1).seq (hazard.seq (withEntry fun start => loop
        (withEntry fun entry => hazard.seq ((evalExpr h.1.1.2).seq
          ((execBody body h.1.2).bind (endRound target body start entry))))
        (hazard.seq (execBody orelse h.2))))
  | .withStmt items body, h => by
      unfold Run.execStmt
      simp only [Stmt.loads, Bool.or_eq_false_iff] at h
      exact runWith h.1 (execBody body h.2)
  | .tryStmt body handlers orelse finalbody, h => by
      unfold Run.execStmt
      simp only [Stmt.loads, Bool.or_eq_false_iff] at h
      refine withEntry fun entry =>
        ((execBody body h.1.1.1).bind fun o => ?_).bind (finish (execBody finalbody h.2))
      cases o with
      | normal =>
        dsimp only
        split
        · exact skip
        · exact execBody orelse h.1.2
      | raised => exact execHandlers entry handlers h.1.1.2
      | _ => exact ends _
  | .raiseStmt parts, h | .returnStmt value, h => by
      unfold Run.execStmt
      exact (evalExprs (by simpa only [Stmt.loads] using h)).seq (ends _)
  | .breakStmt, _ => by
      unfold Run.execStmt
      exact ends _
  | .continueStmt, _ => by
      unfold Run.execStmt
      exact ends _
  | .pass, _ => by
      unfold Run.execStmt
      exact skip

theorem execBody : ∀ ss : List Stmt, bodyLoads x ss = false →
    LoadsChecked x unassigned (execBody ss)
  | [], _ => by
      unfold Run.execBody
      exact skip
  | s :: ss, h => by
      unfold Run.execBody
      simp only [bodyLoads, Bool.or_eq_false_iff] at h
      exact (execStmt s h.1).seq (execBody ss h.2)

theorem execHandlers (entry : Bound) : ∀ handlers : List ExceptHandler,
    handlersLoad x handlers = false →
    LoadsChecked x unassigned (execHandlers entry handlers)
  | [], _ => by
      unfold Run.execHandlers
      exact ends _
  | .mk type name body :: handlers, h => by
      unfold Run.execHandlers
      simp only [handlersLoad, Bool.or_eq_false_iff] at h
      exact (evalUnvisited h.1.1).seq (hazard.seq
        ((runHandler (execBody body h.1.2)).choice (execHandlers entry handlers h.2)))

end

end LoadsChecked

theorem evaluated_evalExpr (e : Expr) :
    Meets (Event.keeps x) (fun _ => True) (evalExpr [] e) (fun _ => True)
      (within Evaluated fun _ => True) :=
  Carried.evalExpr ⟨fun _ _ _ => trivial, fun _ _ _ _ => trivial, fun _ _ => trivial⟩ e []
    fun _ _ _ _ _ => trivial

theorem evaluated_hazard :
    Meets (Event.keeps x) (fun _ => True) hazard (fun _ => True)
      (within Evaluated fun _ => True) :=
  Carried.hazard ⟨fun _ _ _ => trivial, fun _ _ _ _ => trivial, fun _ _ => trivial⟩

theorem Follows.andThen {Q : Completion → Bound → Prop} (ha : Follows x v a v₁)
    (heval : Meets (Event.keeps x) (fun _ => True) a (fun _ => True)
      (within Evaluated fun _ => True))
    (hsub : v₁.unassigned ⊆ unassigned)
    (hb : Meets (Event.keeps x) (Covers x v₁) b (Event.checked x unassigned) Q)
    (hQ : ∀ o bound, o ≠ .normal → Evaluated o → Q o bound) :
    Meets (Event.keeps x) (Covers x v) (a.seq b) (Event.checked x unassigned) Q := by
  refine Meets.seq (R := Covers x v₁) ?_ hb
  refine (ha.and heval).weaken (fun _ hs => ⟨hs, trivial⟩) (Event.checked_mono hsub) ?_
  intro o s hs
  split
  next ho => exact hs.1 ho
  next ho => exact hQ o s ho hs.2.1

theorem follows_exprs (hx : scope.isLocal x) (es : List Expr)
    (v : DefiniteAssignmentVisitor) :
    Follows x v (evalExprs [] es) (visitExprs scope es v) :=
  follows_evalExprs hx es [] v (by simp)

theorem follows_expr (hx : scope.isLocal x) (e : Expr) (v : DefiniteAssignmentVisitor) :
    Follows x v (evalExpr [] e) (visitExpr scope e v) :=
  follows_evalExpr hx e [] v (by simp)

theorem loadsChecked_evalUnvisited (parts : List Expr) :
    LoadsChecked x unassigned (evalUnvisited parts) := by
  by_cases hloads : anyLoads x parts
  · refine Meets.seq (R := fun bound => x ∈ bound) ?_ ?_
    · exact meets_emit fun s _ hkeeps => ⟨silent_checked _ (by simp), hkeeps hloads⟩
    · exact (carried_bound.evalExprs parts [] (loadsGood_bound _)).weaken
        (fun _ hs => hs) (fun _ he => he) fun _ _ _ => ⟨trivial, trivial⟩
  · exact LoadsChecked.evalUnvisited (by simpa using hloads)

theorem follows_evalUnvisited (parts : List Expr) :
    Follows x v (evalUnvisited parts) v :=
  (loadsChecked_evalUnvisited parts).follows
    ((carried_bound.emit (by simp)).seq_invariant
      (carried_bound.evalExprs parts [] (loadsGood_bound _)))

/-! ## Binding and deleting -/

theorem follows_bindName (hx : scope.isLocal x) (name : Identifier)
    (v : DefiniteAssignmentVisitor) :
    Follows x v (bindName name) (setAssigned scope name v) := by
  refine follows_hazard.seq (follows_update fun bound hs hmem => ?_) (by simp)
  rw [mem_setAssigned hx] at hmem
  cases hmem with
  | inl hmem => exact mem_insert_of_mem (hs hmem)
  | inr hname =>
    rw [hname]
    exact mem_insert_self x bound

theorem follows_bindNames (hx : scope.isLocal x) : ∀ (names : List Identifier)
    (v : DefiniteAssignmentVisitor),
    Follows x v (bindNames names) (setAllAssigned scope names v)
  | [], _ => follows_skip
  | name :: names, v =>
    (follows_bindName hx name v).seq (follows_bindNames hx names _)
      (unassigned_setAllAssigned scope names _).ge

theorem follows_deleteName (hx : scope.isLocal x) (node : Nat) (id : Identifier)
    (v : DefiniteAssignmentVisitor) :
    Follows x v (deleteName id) (visitDelName scope node id v) := by
  have hsub := unassigned_visitDelTarget scope (.name node id) v
  refine meets_withEntry fun bound _ => ?_
  split
  · refine Meets.strengthen (follows_hazard.seq (follows_update ?_) hsub) ?_ (P := Covers x v)
    · intro b hs hmem
      unfold visitDelName at hmem
      by_cases hid : id = x
      · -- the checker has dropped the name too
        subst hid
        simp only [hx, if_true] at hmem
        split at hmem
        · simp at hmem
        next hnot => exact absurd hmem hnot
      · refine mem_erase.mpr ⟨Ne.symm hid, hs ?_⟩
        split at hmem
        · split at hmem
          · exact mem_of_mem_erase hmem
          · exact hmem
        · exact hmem
    · rintro s rfl
      assumption
  · exact meets_ends fun _ _ h => nomatch h

theorem follows_deleteTargets (hx : scope.isLocal x) : ∀ (targets : List DelTarget)
    (v : DefiniteAssignmentVisitor),
    Follows x v (deleteTargets targets) (visitDelTargets scope targets v)
  | [], _ => follows_skip
  | .name node id :: targets, v =>
    (follows_deleteName hx node id v).seq (follows_deleteTargets hx targets _)
      (unassigned_visitDelTargets scope targets _)
  | .other target :: targets, v =>
    (follows_expr hx target v).seq
      (follows_hazard.seq (follows_deleteTargets hx targets _)
        (unassigned_visitDelTargets scope targets _))
      (unassigned_visitDelTargets scope targets _)

theorem follows_augmentedValue (hx : scope.isLocal x) (value : Expr)
    (v : DefiniteAssignmentVisitor) :
    Follows x v ((emit (.augmented value)).seq (evalExpr [] value))
      (genericVisit scope value v) := by
  cases value with
  | name node id ctx =>
    apply follows_of_unbound
    · exact (carried_bound.emit (by simp)).seq_invariant
        (carried_bound.evalExpr _ _ (loadsGood_bound _))
    · refine meets_emit_unbound (p := id = x) (by simp) (fun _ h => h) fun hid hv => ?_
      have hloads : (Expr.name node id ctx).loads x = false := by simp [Expr.loads, hid]
      exact (carried_anywhere.evalExpr _ [] (loadsGood_other hloads)).weaken
        (fun _ hs => hs) (fun _ he => he) fun _ _ _ _ hmem => absurd hmem hv
  | lambda args body =>
    apply follows_of_unbound
    · exact (carried_bound.emit (by simp)).seq_invariant
        (carried_bound.evalExpr _ _ (loadsGood_bound _))
    · refine meets_emit_unbound (p := body.binds x) (by simp) (fun _ h => h)
        fun hbinds hv => ?_
      have hargs : Follows x v (evalExpr [] (.lambda args body))
          (genericVisit scope (.lambda args body) v) :=
        (follows_expr hx (.lambda args body) v).weaken_end
        (by simp [genericVisit, mem_visitExpr hx, visitExpr, hbinds])
        (unassigned_visitExpr scope body _)
      exact hargs.strengthen fun _ _ hmem => absurd hmem hv
  | _ =>
    exact (follows_emit (by simp) fun _ hs _ => hs).seq (follows_expr hx _ v)
      (unassigned_visitExpr scope _ v)

theorem follows_augmentedAssign (hx : scope.isLocal x) (target value : Expr)
    (v : DefiniteAssignmentVisitor) :
    Follows x v (augmentedAssign target value) (visitAugAssign scope target value v) := by
  cases target with
  | name node id ctx =>
    have hvalue := follows_augmentedValue hx value
      (if id ∈ v.assigned then v else { v with unassigned := insert node v.unassigned })
    have hsub := unassigned_genericVisit scope value
      (if id ∈ v.assigned then v else { v with unassigned := insert node v.unassigned })
    refine Follows.seq ?_ ?_ hsub
    · refine meets_emit fun s hs _ => ⟨?_, fun _ => ?_⟩
      · rintro rfl
        by_cases hid : id ∈ v.assigned
        · exact .inr (hs hid)
        · left
          simp [hid]
      · intro hmem
        split at hmem <;> exact hs hmem
    · refine follows_hazard.seq (hvalue.seq ?_ subset_rfl) hsub
      refine follows_hazard.seq (follows_update fun bound hs hmem => ?_) subset_rfl
      exact mem_insert_of_mem (hs hmem)
  | _ =>
    refine (follows_expr hx _ v).seq
      ((follows_expr hx value _).seq follows_hazard subset_rfl) ?_
    exact unassigned_visitExpr scope value _

theorem follows_annotatedAssign (hx : scope.isLocal x) (target ann : Expr)
    (value : Option Expr) (v : DefiniteAssignmentVisitor) :
    Follows x v (annotatedAssign target ann value)
      (visitAnnAssign scope target ann value v) := by
  cases value with
  | none =>
    have hann : Follows x v (choice skip (evalUnvisited [ann])) v :=
      follows_skip.choice (follows_evalUnvisited [ann])
    cases target with
    | name node id ctx => exact hann
    | _ => exact (follows_evalUnvisited _).seq hann subset_rfl
  | some value =>
    have hcarried : ∀ e : Expr, Meets (Event.keeps x) (fun bound => x ∈ bound)
        (evalExpr [] e) (Event.checked x
          (visitAnnAssign scope target ann (some value) v).unassigned)
        (within Evaluated fun bound => x ∈ bound) :=
      fun e => carried_bound.evalExpr e [] (loadsGood_bound _)
    have hsubValue := unassigned_visitExpr scope value
      (visitExpr scope ann (visitExpr scope target v))
    have hsubAnnotation := (unassigned_visitExpr scope ann
      (visitExpr scope target v)).trans hsubValue
    apply follows_of_unbound
    · exact (carried_bound.emit (by simp)).seq_invariant
        ((hcarried value).seq_invariant ((hcarried target).seq_invariant
          (Meets.choice (meets_skip fun _ hs => ⟨evaluated_normal, hs⟩)
            (hcarried ann))))
    · refine meets_emit_unbound
        (p := ann.binds x ∨ (target.binds x ∧ value.loads x)) (by simp)
        (fun _ h hp => hp.elim h.1 fun hp => h.2 hp.1 hp.2) fun hp hv => ?_
      obtain ⟨hann, hearly⟩ := not_or.mp hp
      by_cases htarget : target.binds x
      · -- the value does not load the name, and the target binds it
        have hloads : value.loads x = false := by simpa [htarget] using hearly
        have hbinds : x ∈ (visitExpr scope target v).assigned :=
          (mem_visitExpr hx target v).mpr (.inr htarget)
        refine Meets.seq (R := fun _ => True)
          ((LoadsChecked.evalExpr hloads).weaken (fun _ hs => hs) (fun _ he => he) ?_) ?_
        · intro o s _
          split
          · trivial
          next ho => exact fun h => absurd h ho
        · have hrun := (follows_expr hx target v).seq
            ((follows_skip.weaken_end (by simp [mem_visitExpr hx ann, hann])
              (unassigned_visitExpr scope ann _)).choice
              (follows_expr hx ann (visitExpr scope target v)))
            (unassigned_visitExpr scope ann _)
          refine hrun.weaken (fun _ _ hmem => absurd hmem hv)
            (Event.checked_mono hsubValue) fun o s hs ho _ => hs ho ?_
          exact (mem_visitExpr hx ann _).mpr (.inl hbinds)
      · have hv₁ : x ∉ (visitExpr scope target v).assigned := by
          simp [mem_visitExpr hx, hv, htarget]
        have hv₂ : x ∉ (visitExpr scope ann
            (visitExpr scope target v)).assigned := by
          rw [mem_visitExpr hx]
          exact not_or.mpr ⟨hv₁, hann⟩
        have htargetRun := (((follows_expr hx target v).anywhere hv).mono
          hsubAnnotation).follows (v := visitAnnAssign scope target ann (some value) v)
          (hcarried target)
        have hannRun := (((follows_expr hx ann _).anywhere hv₁).mono
          hsubValue).follows (v := visitAnnAssign scope target ann (some value) v)
          (hcarried ann)
        have hrun := (follows_expr hx value _).seq
          (htargetRun.seq (follows_skip.choice hannRun) subset_rfl) subset_rfl
        exact hrun.strengthen fun _ _ hmem => absurd hmem hv₂

/-! ## Loops -/

/-- What the end of a round leaves: `counted` has the names the checker counts on
after the loop. -/
def RoundEnd (x : Identifier) (counted : Finset Identifier) (loaded : Prop)
    (start : Bound) : Completion → Bound → Prop
  | .normal, now => (x ∈ counted → x ∈ now) ∧ (loaded → x ∈ start → x ∈ now)
  | .broken, now => x ∈ counted → x ∈ now
  | _, _ => True

variable {counted : Finset Identifier} {start : Bound}

theorem roundEnd_evaluated {loaded : Prop}
    (o : Completion) (bound : Bound) (ho : o ≠ .normal) (heval : Evaluated o) :
    RoundEnd x counted loaded start o bound := by
  rcases heval with rfl | rfl | rfl
  · exact absurd rfl ho
  · trivial
  · trivial

theorem meets_endRound {head : Expr} {body : List Stmt} {start entry : Bound}
    {post : DefiniteAssignmentVisitor}
    (hpost : x ∈ counted → x ∈ post.assigned) (hentry : x ∈ counted → x ∈ entry) (o : Completion) :
    Meets (Event.keeps x) (fun bound => o = .normal → Covers x post bound)
      (endRound head body start entry o) (Event.checked x unassigned)
      (RoundEnd x counted (head.loads x ∨ bodyLoads x body) start) := by
  cases o with
  | normal =>
    refine meets_emit fun s hs hkeeps => ⟨silent_checked _ (by simp), ?_, hkeeps⟩
    exact fun hcounted => hs rfl (hpost hcounted)
  | continued =>
    refine meets_emit_seq (R := fun bound => x ∈ counted → x ∈ bound) ?_ ?_
    · intro s _ hkeeps
      exact ⟨silent_checked _ (by simp), fun hcounted => hkeeps (hentry hcounted)⟩
    · exact meets_emit fun s hs hkeeps => ⟨silent_checked _ (by simp), hs, hkeeps⟩
  | broken =>
    refine meets_emit_seq (R := fun bound => x ∈ counted → x ∈ bound) ?_ ?_
    · intro s _ hkeeps
      exact ⟨silent_checked _ (by simp), fun hcounted => hkeeps (hentry hcounted)⟩
    · exact meets_ends fun _ hs => hs
  | _ => exact meets_ends fun _ _ => trivial

/-- The invariant of a loop: the name is covered at each head, unless the checker
does not count on it afterwards and the loop does not load it. -/
theorem meets_rounds {round leave : Run} (counted : Finset Identifier) (loaded : Prop)
    (hstart : Covers x v start)
    (hend : x ∈ v'.assigned → x ∈ counted)
    (hround : Meets (Event.keeps x) (Covers x v) round (Event.checked x v'.unassigned)
      (RoundEnd x counted loaded start)) (hleave : Follows x v leave v')
    (hroundFree : ¬ loaded → LoadsChecked x v'.unassigned round)
    (hleaveFree : ¬ loaded → x ∉ counted → LoadsChecked x v'.unassigned leave) :
    Follows x v (loop round leave) v' := by
  by_cases hfree : x ∉ counted ∧ ¬ loaded
  · have hrun := (hroundFree hfree.2).loop (hleaveFree hfree.2 hfree.1)
    exact hrun.weaken (fun _ _ => trivial) (fun _ he => he)
      fun _ _ _ _ hmem => absurd (hend hmem) hfree.1
  · refine meets_loop (hround.weaken (fun _ hs => hs) (fun _ he => he) ?_) hleave
    intro o bound hs
    cases o with
    | normal =>
      intro hmem
      by_cases hcounted : x ∈ counted
      · exact hs.1 hcounted
      · by_cases hloaded : loaded
        · exact hs.2 hloaded (hstart hmem)
        · exact absurd ⟨hcounted, hloaded⟩ hfree
    | broken => exact fun _ hmem => hs (hend hmem)
    | _ => exact fun h => nomatch h

section Statements

variable {body orelse finalbody : List Stmt}

variable (x) (scope) in
def FollowsBody (body : List Stmt) : Prop :=
  ∀ v, Follows x v (execBody body) (walkStmts scope true body v)

theorem follows_loopElse (h : FollowsBody scope x orelse)
    (v : DefiniteAssignmentVisitor) :
    Follows x v (execBody orelse) { walkStmts scope true orelse v with
        assigned := v.assigned ∩ (walkStmts scope true orelse v).assigned } ∧
      v.unassigned ⊆ (walkStmts scope true orelse v).unassigned :=
  ⟨(h v).weaken_end mem_of_mem_inter_right subset_rfl,
    recorded_walkStmts scope true orelse v subset_rfl⟩

theorem follows_whileStmt (hx : scope.isLocal x) (test : Expr)
    (hbody : FollowsBody scope x body) (horelse : FollowsBody scope x orelse)
    (v : DefiniteAssignmentVisitor) :
    Follows x v (execStmt (.whileStmt test body orelse))
      (visitStmt scope (.whileStmt test body orelse) v) := by
  unfold execStmt visitStmt
  rw [visitLoopEnd_walk]
  dsimp only
  have htest := follows_expr hx test v
  generalize visitExpr scope test v = entry at htest
  have hrun := hbody entry
  have hsubBody := recorded_walkStmts scope true body entry subset_rfl
  generalize walkStmts scope true body entry = post at hrun hsubBody
  obtain ⟨hend, hsubLast⟩ := follows_loopElse horelse
    { post with assigned := entry.assigned ∩ post.assigned }
  generalize walkStmts scope true orelse
    { post with assigned := entry.assigned ∩ post.assigned } = last at hend hsubLast
  have hsub := hsubBody.trans hsubLast
  refine meets_withEntry fun start hstart => ?_
  refine Meets.strengthen (P := Covers x v) ?_ (by rintro s rfl; exact hstart)
  refine meets_rounds (entry.assigned ∩ post.assigned) (test.loads x ∨ bodyLoads x body)
    hstart mem_of_mem_inter_left ?_ ?_ ?_ ?_
  · refine htest.andThen (evaluated_evalExpr test) hsub ?_ roundEnd_evaluated
    refine follows_hazard.andThen evaluated_hazard hsub ?_ roundEnd_evaluated
    refine meets_withEntry fun bound hbound => ?_
    refine Meets.bind ((hrun.strengthen (by rintro s rfl; exact hbound)).weaken
      (fun _ hs => hs) (Event.checked_mono hsubLast) fun _ _ hs => hs) fun o => ?_
    exact meets_endRound mem_of_mem_inter_right
      (fun hmem => hbound (mem_of_mem_inter_left hmem)) o
  · exact htest.seq
      (follows_hazard.seq (hend.weaken_start mem_of_mem_inter_left) hsub) hsub
  · intro hloaded
    obtain ⟨htestFree, hbodyFree⟩ := not_or.mp hloaded
    exact (LoadsChecked.evalExpr (by simpa using htestFree)).seq (LoadsChecked.hazard.seq
      (LoadsChecked.withEntry fun bound =>
        (LoadsChecked.execBody body (by simpa using hbodyFree)).bind
          (LoadsChecked.endRound test body start bound)))
  · intro hloaded hcounted
    exact (LoadsChecked.evalExpr (by simpa using (not_or.mp hloaded).1)).seq
      (LoadsChecked.hazard.seq (hend.anywhere hcounted))

theorem follows_forStmt (hx : scope.isLocal x) (target iter : Expr)
    (hbody : FollowsBody scope x body) (horelse : FollowsBody scope x orelse)
    (v : DefiniteAssignmentVisitor) :
    Follows x v (execStmt (.forStmt target iter body orelse))
      (visitStmt scope (.forStmt target iter body orelse) v) := by
  unfold execStmt visitStmt
  rw [visitLoopEnd_walk]
  dsimp only
  have hiter := follows_expr hx iter v
  generalize visitExpr scope iter v = entry at hiter
  have htarget := follows_expr hx target entry
  have hsubTarget := unassigned_visitExpr scope target entry
  generalize visitExpr scope target entry = bind at htarget hsubTarget
  have hrun := hbody bind
  have hsubBody := recorded_walkStmts scope true body bind subset_rfl
  generalize walkStmts scope true body bind = post at hrun hsubBody
  obtain ⟨hend, hsubLast⟩ := follows_loopElse horelse
    { post with assigned := entry.assigned ∩ post.assigned }
  generalize walkStmts scope true orelse
    { post with assigned := entry.assigned ∩ post.assigned } = last at hend hsubLast
  have hsubBind := hsubBody.trans hsubLast
  have hsub := hsubTarget.trans hsubBind
  refine hiter.seq (follows_hazard.seq ?_ hsub) hsub
  refine meets_withEntry fun start hstart => ?_
  refine Meets.strengthen (P := Covers x entry) ?_ (by rintro s rfl; exact hstart)
  refine meets_rounds (entry.assigned ∩ post.assigned) (target.loads x ∨ bodyLoads x body)
    hstart mem_of_mem_inter_left ?_ ?_ ?_ ?_
  · refine meets_withEntry fun bound hbound => ?_
    refine Meets.strengthen (P := Covers x entry) ?_ (by rintro s rfl; exact hbound)
    refine follows_hazard.andThen evaluated_hazard hsub ?_ roundEnd_evaluated
    refine htarget.andThen (evaluated_evalExpr target) hsubBind ?_ roundEnd_evaluated
    refine Meets.bind (hrun.weaken (fun _ hs => hs) (Event.checked_mono hsubLast)
      fun _ _ hs => hs) fun o => ?_
    exact meets_endRound mem_of_mem_inter_right
      (fun hmem => hbound (mem_of_mem_inter_left hmem)) o
  · exact follows_hazard.seq (hend.weaken_start mem_of_mem_inter_left) hsub
  · intro hloaded
    obtain ⟨htargetFree, hbodyFree⟩ := not_or.mp hloaded
    exact LoadsChecked.withEntry fun bound => LoadsChecked.hazard.seq
      ((LoadsChecked.evalExpr (by simpa using htargetFree)).seq
        ((LoadsChecked.execBody body (by simpa using hbodyFree)).bind
          (LoadsChecked.endRound target body start bound)))
  · intro _ hcounted
    exact LoadsChecked.hazard.seq (hend.anywhere hcounted)

/-! ## `with` and `try` -/

variable {P R : Bound → Prop}

theorem meets_then {Q : Completion → Bound → Prop}
    (ha : Meets (Event.keeps x) P a (Event.checked x unassigned) Q)
    (hb : Meets (Event.keeps x) (fun _ => True) b (Event.checked x unassigned) fun o bound => o =
      .normal → R bound) :
    Meets (Event.keeps x) P (a.seq b) (Event.checked x unassigned)
      fun o bound => o = .normal → R bound := by
  refine Meets.seq (R := fun _ => True)
    (ha.weaken (fun _ hs => hs) (fun _ he => he) fun o _ _ => ?_) hb
  split
  · trivial
  next ho => exact fun h => absurd h ho

variable {o : Completion} {entry : Bound}

theorem meets_ends_abrupt (ho : o ≠ .normal) :
    Meets (Event.keeps x) P (ends o) (Event.checked x unassigned)
      fun o bound => o = .normal → R bound :=
  meets_ends fun _ _ h => absurd h ho

variable {before : DefiniteAssignmentVisitor}

theorem meets_unwound (hentry : x ∈ before.assigned → x ∈ entry)
    (hfinal : Follows x before (execBody finalbody) (walkStmts scope true finalbody before))
    (ho : o ≠ .normal) :
    Meets (Event.keeps x) P
      ((emit (.unwound finalbody entry)).seq ((execBody finalbody).seq (ends o)))
      (Event.checked x (walkStmts scope true finalbody before).unassigned)
      fun o bound => o = .normal → R bound := by
  by_cases hloads : bodyLoads x finalbody
  · refine meets_emit_seq (R := Covers x before) ?_ ?_
    · intro s _ hkeeps
      exact ⟨silent_checked _ (by simp), fun hmem => hkeeps hloads (hentry hmem)⟩
    · exact meets_then hfinal (meets_ends_abrupt ho)
  · exact meets_emit_seq (R := fun _ => True)
      (fun s _ _ => ⟨silent_checked _ (by simp), trivial⟩)
      (meets_then (LoadsChecked.execBody finalbody (by simpa using hloads))
        (meets_ends_abrupt ho))

theorem follows_withStmt (hx : scope.isLocal x) (items : List WithItem)
    (hbody : FollowsBody scope x body)
    (v : DefiniteAssignmentVisitor) :
    Follows x v (execStmt (.withStmt items body))
      (visitStmt scope (.withStmt items body) v) := by
  unfold execStmt visitStmt
  dsimp only
  generalize items.flatMap (·.parts) = parts
  have hmem := mem_visitExprs hx parts v
  have hrun : Follows x (visitExprs scope parts v) (execBody body)
      { walkStmts scope true body (visitExprs scope parts v) with
        assigned := (visitExprs scope parts v).assigned ∩
          (walkStmts scope true body (visitExprs scope parts v)).assigned } :=
    (hbody (visitExprs scope parts v)).weaken_end mem_of_mem_inter_right subset_rfl
  have hsub := recorded_walkStmts scope true body
    (visitExprs scope parts v) subset_rfl
  cases parts with
  | nil => exact hrun
  | cons context rest =>
    unfold runWith
    have hcontext := follows_expr hx context v
    have hrest := follows_exprs hx rest (visitExpr scope context v)
    have hsubRest := (unassigned_visitExprs scope rest
      (visitExpr scope context v)).trans hsub
    have hinner := hrest.seq (follows_hazard.seq hrun hsub) hsub
    refine meets_withEntry fun entry hentry => ?_
    refine Meets.strengthen (P := Covers x v) ?_ (by rintro s rfl; exact hentry)
    refine hcontext.seq (follows_hazard.seq (Meets.bind hinner fun o => ?_) hsubRest) hsubRest
    cases o with
    | normal =>
      refine Meets.strengthen (follows_hazard.seq ?_ subset_rfl) fun _ hs => hs rfl
      exact meets_ends fun _ hs _ => hs
    | raised =>
      refine meets_then (LoadsChecked.hazard.strengthen fun _ _ => trivial)
        (Meets.choice (meets_ends_abrupt (by simp)) ?_)
      refine meets_emit fun s _ hkeeps => ⟨silent_checked _ (by simp), fun _ hcounted => ?_⟩
      have hassigned := hmem.mp (mem_of_mem_inter_left hcounted)
      exact hkeeps (hassigned.imp_left fun h => hentry h)
    | _ =>
      exact meets_then (LoadsChecked.hazard.strengthen fun _ _ => trivial)
        (meets_ends_abrupt (by simp))

theorem follows_finish_false (hentry : x ∈ before.assigned → x ∈ entry)
    (hfinal : Follows x before (execBody finalbody) (walkStmts scope true finalbody before))
    (o : Completion) :
    Meets (Event.keeps x) (fun bound => o = .normal → Covers x before bound)
      (finish false body finalbody entry (execBody finalbody) o)
      (Event.checked x (walkStmts scope true finalbody before).unassigned)
      fun o bound => o = .normal → Covers x (walkStmts scope true finalbody before) bound := by
  cases o with
  | normal =>
    simp only [finish, Bool.false_eq_true, if_false]
    refine meets_withEntry fun bound hbound => ?_
    refine (Follows.seq hfinal follows_skip subset_rfl).strengthen ?_
    rintro s rfl
    exact hbound trivial
  | stopped => exact meets_ends_abrupt (by simp)
  | _ => exact meets_unwound hentry hfinal (by simp)

theorem follows_tryFinally (hx : scope.isLocal x)
    (hbody : FollowsBody scope x body) (hfinal : FollowsBody scope x finalbody)
    (v : DefiniteAssignmentVisitor) :
    Follows x v (execStmt (.tryStmt body [] orelse finalbody))
      (visitStmt scope (.tryStmt body [] orelse finalbody) v) := by
  unfold execStmt visitStmt
  simp only [List.isEmpty_nil, if_true]
  have hrun := hbody v
  have hbinds := mem_walkStmts hx true body v
  generalize walkStmts scope true body v = post at hrun hbinds
  have hlast := hfinal { post with assigned := v.assigned ∩ post.assigned }
  have hsub := recorded_walkStmts scope true finalbody
    { post with assigned := v.assigned ∩ post.assigned } subset_rfl
  refine meets_withEntry fun entry hentry => ?_
  refine Meets.bind (Q := fun o bound => o = .normal → Covers x post bound) ?_ fun o => ?_
  · refine Meets.bind ((hrun.strengthen (by rintro s rfl; exact hentry)).weaken
      (fun _ hs => hs) (Event.checked_mono hsub) fun _ _ hs => hs) fun o => ?_
    cases o with
    | normal => exact meets_skip fun _ hs _ => hs rfl
    | raised =>
      unfold execHandlers
      exact meets_ends_abrupt (by simp)
    | _ => exact meets_ends_abrupt (by simp)
  · cases o with
    | normal =>
      simp only [finish, if_true]
      refine meets_withEntry fun bound hbound => ?_
      refine Meets.strengthen (P := fun s => s = bound) ?_ (fun _ hs => hs)
      refine Meets.seq ((hlast.strengthen ?_).weaken (fun _ hs => hs) (fun _ he => he) ?_)
        (meets_emit (P := Covers x (walkStmts scope true finalbody
          { post with assigned := v.assigned ∩ post.assigned })) ?_)
      · rintro s rfl hmem
        exact hbound trivial (mem_of_mem_inter_right hmem)
      · intro o s hs
        split
        next ho => exact hs ho
        next ho => exact fun h => absurd h ho
      · intro s hs hkeeps
        refine ⟨silent_checked _ (by simp), fun _ hmem => ?_⟩
        cases mem_union.mp hmem with
        | inr hfinally => exact hs hfinally
        | inl htried =>
          obtain ⟨hpost, hkept⟩ := mem_sdiff.mp htried
          by_cases hfinally : x ∈ (walkStmts scope true finalbody
              { post with assigned := v.assigned ∩ post.assigned }).assigned
          · exact hs hfinally
          · -- assigned in the body only, so the body binds it
            have hnew : x ∉ v.assigned := fun hv =>
              hkept (mem_sdiff.mpr ⟨hv, hfinally⟩)
            exact hkeeps ((hbinds hpost).resolve_left hnew) (hbound trivial hpost)
    | stopped => exact meets_ends_abrupt (by simp)
    | _ =>
      exact meets_unwound (fun hmem => hentry (mem_of_mem_inter_left hmem)) hlast
        (by simp)

theorem meets_runHandler (hx : scope.isLocal x) (name : Option Identifier)
    {head final : DefiniteAssignmentVisitor}
    (hhead : x ∈ head.assigned → x ∈ entry) (hfinal : x ∈ final.assigned → x ∈ entry)
    (hbody : FollowsBody scope x body)
    (hpost : x ∈ final.assigned →
      x ∈ (walkStmts scope true body (setHandlerName scope name head)).assigned)
    (hsub : (walkStmts scope true body (setHandlerName scope name head)).unassigned ⊆
      final.unassigned) :
    Meets (Event.keeps x) (fun _ => True) (runHandler name entry (execBody body))
      (Event.checked x final.unassigned) fun o bound => o = .normal → Covers x final bound := by
  have hjumped : ∀ s : Bound, True → (Event.jumped entry s).keeps x →
      (Event.jumped entry s).checked x final.unassigned ∧ Covers x head s := fun s _ hkeeps =>
    ⟨silent_checked _ (by simp), fun hmem => hkeeps (hhead hmem)⟩
  cases name with
  | none => exact meets_emit_seq hjumped ((hbody head).weaken_end hpost hsub)
  | some name =>
    have hbind := follows_bindName hx name head
    have hsubBind := (recorded_walkStmts scope true body
      (setAssigned scope name head) subset_rfl).trans hsub
    refine meets_emit_seq hjumped ?_
    refine Meets.seq (R := Covers x (setAssigned scope name head))
      (hbind.weaken (fun _ hs => hs) (Event.checked_mono hsubBind) ?_) ?_
    · intro o s hs
      split
      next ho => exact hs ho
      next ho => exact fun h => absurd h ho
    · refine Meets.bind ((hbody (setAssigned scope name head)).weaken_end
        hpost hsub) fun o => ?_
      cases o with
      | stopped => exact meets_ends_abrupt (by simp)
      | normal =>
        refine meets_emit_seq (R := fun bound => (x ∈ final.assigned → name ≠ x) ∧
          Covers x final bound) ?_ ?_
        · intro s hs hkeeps
          exact ⟨silent_checked _ (by simp),
            fun hmem hname => hkeeps hname (hfinal hmem), hs rfl⟩
        · refine meets_update_seq (R := Covers x final) ?_ (meets_ends fun _ hs _ => hs)
          intro s hs hmem
          exact mem_erase.mpr ⟨(hs.1 hmem).symm, hs.2 hmem⟩
      | _ =>
        exact meets_emit_seq (R := fun _ => True)
          (fun s _ _ => ⟨silent_checked _ (by simp), trivial⟩)
          (meets_update_seq (R := fun _ => True) (fun _ _ => trivial)
            (meets_ends_abrupt (by simp)))

def HandlersFollow (scope : Scope) (x : Identifier) (handlers : List ExceptHandler) :
    Prop :=
  ∀ (head : Finset Identifier) (v : DefiniteAssignmentVisitor) (entry : Bound),
    (x ∈ head → x ∈ entry) → (x ∈ v.assigned → x ∈ entry) →
    Meets (Event.keeps x) (fun _ => True) (execHandlers entry handlers)
      (Event.checked x (visitHandlers scope head handlers v).unassigned)
      fun o bound => o = .normal → Covers x (visitHandlers scope head handlers v) bound

theorem follows_tryExcept {handler : ExceptHandler} {handlers : List ExceptHandler}
    (hbody : FollowsBody scope x body) (horelse : FollowsBody scope x orelse)
    (hfinal : FollowsBody scope x finalbody)
    (hhandlers : HandlersFollow scope x (handler :: handlers))
    (v : DefiniteAssignmentVisitor) :
    Follows x v (execStmt (.tryStmt body (handler :: handlers) orelse finalbody))
      (visitStmt scope (.tryStmt body (handler :: handlers) orelse finalbody) v) := by
  unfold visitStmt
  simp only [List.isEmpty_cons, Bool.false_eq_true, if_false]
  have hrun := hbody v
  generalize walkStmts scope true body v = post at hrun
  have hcaught := hhandlers (v.assigned ∩ post.assigned)
    { post with assigned := v.assigned ∩ post.assigned }
  have hsubCaught := recorded_visitHandlers scope (v.assigned ∩ post.assigned)
    (handler :: handlers) { post with assigned := v.assigned ∩ post.assigned } subset_rfl
  have hfewer := assigned_visitHandlers scope (v.assigned ∩ post.assigned)
    (handler :: handlers) { post with assigned := v.assigned ∩ post.assigned }
  generalize visitHandlers scope (v.assigned ∩ post.assigned) (handler :: handlers)
    { post with assigned := v.assigned ∩ post.assigned } = handled at hcaught hsubCaught hfewer
  -- the walk reaches the finally block in `before`
  have hend : ∀ before : DefiniteAssignmentVisitor,
      (x ∈ before.assigned → x ∈ handled.assigned) →
      handled.unassigned ⊆ before.unassigned →
      Follows x post (execBody orelse) before →
      Follows x v (execStmt (.tryStmt body (handler :: handlers) orelse finalbody))
        (walkStmts scope true finalbody before) := by
    intro before hmem hsub helse
    unfold execStmt
    simp only [List.isEmpty_cons]
    have hsubFinal := recorded_walkStmts scope true finalbody before subset_rfl
    refine meets_withEntry fun entry hentry => ?_
    have hcounted : x ∈ v.assigned ∩ post.assigned → x ∈ entry :=
      fun h => hentry (mem_of_mem_inter_left h)
    refine Meets.bind (Q := fun o bound => o = .normal → Covers x before bound) ?_
      (follows_finish_false (fun h => hcounted (hfewer (hmem h))) (hfinal before))
    refine Meets.bind ((hrun.strengthen (by rintro s rfl; exact hentry)).weaken
      (fun _ hs => hs) (Event.checked_mono (hsubCaught.trans (hsub.trans hsubFinal)))
      fun _ _ hs => hs) fun o => ?_
    cases o with
    | normal =>
      exact (helse.strengthen fun _ hs => hs rfl).weaken (fun _ hs => hs)
        (Event.checked_mono hsubFinal) fun _ _ hs => hs
    | raised =>
      exact (hcaught entry hcounted hcounted).weaken (fun _ _ => trivial)
        (Event.checked_mono (hsub.trans hsubFinal))
        fun _ _ hs ho h => hs ho (hmem h)
    | _ => exact meets_ends_abrupt (by simp)
  cases orelse with
  | nil =>
    refine hend handled id subset_rfl ?_
    unfold execBody
    exact follows_skip.weaken_end
      (fun h => mem_of_mem_inter_right (hfewer h)) hsubCaught
  | cons s ss =>
    simp only [List.isEmpty_cons, Bool.false_eq_true, if_false]
    have helse := horelse { handled with assigned := post.assigned }
    have hsubElse := recorded_walkStmts scope true (s :: ss)
      { handled with assigned := post.assigned } subset_rfl
    exact hend _ mem_of_mem_inter_left hsubElse
      ((helse.weaken_start (fun h => h)).weaken_end mem_of_mem_inter_right subset_rfl)

end Statements

theorem meets_raiseStmt (hx : scope.isLocal x) (parts : List Expr)
    (v : DefiniteAssignmentVisitor) (R : Bound → Prop) :
    Meets (Event.keeps x) (Covers x v) (execStmt (.raiseStmt parts))
      (Event.checked x (visitStmt scope (.raiseStmt parts) v).unassigned)
      fun o bound => o = .normal → R bound := by
  unfold execStmt visitStmt
  exact meets_then (follows_exprs hx parts v) (meets_ends_abrupt (by simp))

mutual

theorem follows_execStmt (hx : scope.isLocal x) :
    ∀ (s : Stmt) (v : DefiniteAssignmentVisitor),
      Follows x v (execStmt s) (visitStmt scope s v)
  | .expr value, v => by
      unfold execStmt visitStmt
      exact follows_expr hx value v
  | .assign targets value, v => by
      unfold execStmt visitStmt
      exact (follows_expr hx value v).seq (follows_exprs hx targets _)
        (unassigned_visitExprs scope targets _)
  | .augAssign target value, v => by
      unfold execStmt visitStmt
      exact follows_augmentedAssign hx target value v
  | .annAssign target ann value, v => by
      unfold execStmt visitStmt
      exact follows_annotatedAssign hx target ann value v
  | .delete targets, v => by
      unfold execStmt visitStmt
      exact follows_deleteTargets hx targets v
  | .importNames names, v | .importFrom names, v => by
      unfold execStmt visitStmt
      exact follows_bindNames hx _ v
  | .functionDef name args returns decorators, v | .classDef name bases keywords decorators, v => by
      unfold execStmt visitStmt
      exact (follows_evalParts hx _ v).seq (follows_bindName hx name _) (by simp)
  | .ifStmt test body orelse, v => by
      rw [visitStmt_ifStmt]
      unfold execStmt
      dsimp only
      have htest := follows_expr hx test v
      generalize visitExpr scope test v = entry at htest
      have hbody := follows_execBody hx true body entry
      have hsubBody := recorded_walkStmts scope true body entry subset_rfl
      generalize walkStmts scope true body entry = post at hbody hsubBody
      have horelse := (follows_execBody hx true orelse
        { post with assigned := entry.assigned }).weaken_start (v := entry) id
      have hsubElse := recorded_walkStmts scope true orelse
        { post with assigned := entry.assigned } subset_rfl
      refine htest.seq (follows_hazard.seq (Follows.choice ?_ ?_)
        (hsubBody.trans hsubElse)) (hsubBody.trans hsubElse)
      · exact hbody.weaken_end mem_of_mem_inter_right hsubElse
      · exact horelse.weaken_end mem_of_mem_inter_left subset_rfl
  | .whileStmt test body orelse, v =>
    follows_whileStmt hx test (follows_execBody hx true body)
      (follows_execBody hx true orelse) v
  | .forStmt target iter body orelse, v =>
    follows_forStmt hx target iter (follows_execBody hx true body)
      (follows_execBody hx true orelse) v
  | .withStmt items body, v =>
    follows_withStmt hx items (follows_execBody hx true body) v
  | .tryStmt body [] orelse finalbody, v =>
    follows_tryFinally hx (follows_execBody hx true body)
      (follows_execBody hx true finalbody) v
  | .tryStmt body (handler :: handlers) orelse finalbody, v =>
    follows_tryExcept (follows_execBody hx true body) (follows_execBody hx true orelse)
      (follows_execBody hx true finalbody) (handlersFollow hx (handler :: handlers)) v
  | .raiseStmt parts, v => meets_raiseStmt hx parts v _
  | .returnStmt value, v => by
      unfold execStmt visitStmt
      exact meets_then (follows_exprs hx value.toList v) (meets_ends_abrupt (by simp))
  | .breakStmt, v | .continueStmt, v => by
      unfold execStmt visitStmt
      exact meets_ends_abrupt (by simp)
  | .pass, v => by
      unfold execStmt visitStmt
      exact follows_skip

theorem follows_execBody (hx : scope.isLocal x) (untilRaise : Bool) :
    ∀ (ss : List Stmt) (v : DefiniteAssignmentVisitor),
      Follows x v (execBody ss) (walkStmts scope untilRaise ss v)
  | [], v => by
      unfold execBody walkStmts
      exact follows_skip
  | s :: ss, v => by
      have hs := follows_execStmt hx s v
      unfold execBody walkStmts
      split
      next hraise =>
        -- nothing after a `raise` runs
        cases s with
        | raiseStmt parts =>
          refine Meets.seq (R := fun _ => False)
            ((meets_raiseStmt hx parts v fun _ => False).weaken (fun _ hs => hs)
              (fun _ he => he) fun o _ h => ?_) meets_of_false
          split
          next ho => exact h ho
          next ho => exact fun h => absurd h ho
        | _ => simp [Stmt.isRaise] at hraise
      · exact hs.seq (follows_execBody hx untilRaise ss _)
          (recorded_walkStmts scope untilRaise ss _ subset_rfl)

theorem handlersFollow (hx : scope.isLocal x) :
    ∀ handlers : List ExceptHandler, HandlersFollow scope x handlers
  | [] => by
      intro head v entry _ _
      unfold execHandlers
      exact meets_ends_abrupt (by simp)
  | .mk type name body :: handlers => by
      intro head v entry hhead hv
      unfold execHandlers visitHandlers
      dsimp only
      have hcounted : ∀ post : DefiniteAssignmentVisitor,
          x ∈ (visitHandlers scope head handlers
            { post with assigned := v.assigned ∩ post.assigned }).assigned →
          x ∈ v.assigned ∩ post.assigned := fun post h =>
        assigned_visitHandlers scope head handlers _ h
      have hrecorded : ∀ post : DefiniteAssignmentVisitor,
          post.unassigned ⊆ (visitHandlers scope head handlers
            { post with assigned := v.assigned ∩ post.assigned }).unassigned := fun post =>
        recorded_visitHandlers scope head handlers
          { post with assigned := v.assigned ∩ post.assigned } subset_rfl
      refine meets_then (loadsChecked_evalUnvisited type.toList)
        (meets_then LoadsChecked.hazard (Meets.choice ?_ ?_))
      · exact meets_runHandler hx name hhead
          (fun h => hv (mem_of_mem_inter_left (hcounted _ h)))
          (follows_execBody hx true body)
          (fun h => mem_of_mem_inter_right (hcounted _ h)) (hrecorded _)
      · exact handlersFollow hx handlers head _ entry hhead
          fun h => hv (mem_of_mem_inter_left h)

end

theorem hazard_quiet (bound : Bound) : hazard bound [.called bound bound] .normal bound :=
  ⟨rfl, .inl rfl⟩

theorem eval_constant (bound : Bound) :
    evalExpr [] (.other []) bound [.called bound bound] .normal bound := by
  unfold evalExpr evalExprs
  exact ⟨[], .normal, bound, _, .inl ⟨rfl, rfl, rfl⟩, hazard_quiet bound, rfl⟩

theorem eval_name (node : Nat) (id : Identifier) (bound : Bound) :
    evalExpr [] (.name node id .load) bound
      [.load node id bound, .called bound bound] .normal bound := by
  unfold evalExpr
  exact ⟨_, .normal, bound, _, ⟨rfl, rfl, rfl⟩, hazard_quiet bound, rfl⟩

def assignX (node : Nat) : Stmt := .assign [.name node "x" .store] (.other [])

theorem exec_assignX (node : Nat) :
    execStmt (assignX node) ∅ [.called ∅ ∅, .called ∅ ∅] .normal {"x"} := by
  unfold assignX execStmt evalExprs evalExpr evalExprs
  have hstore := seq_normal (seq_normal (hazard_quiet ∅)
    (b := update fun bound => if "x" ∈ ([] : List Identifier) then bound
      else insert "x" bound) ⟨rfl, rfl, rfl⟩) (b := skip) ⟨rfl, rfl, rfl⟩
  exact seq_normal (eval_constant ∅) hstore

/-- `x` is assigned in both branches and loaded behind them. -/
def assignInBranches : CodeUnit where
  parameters := ∅
  body := [.ifStmt (.other []) [assignX 0] [assignX 1], .expr (.name 2 "x" .load)]

def deleteInLoop : CodeUnit where
  parameters := {"x"}
  body := [.whileStmt (.other [])
    [.expr (.name 0 "x" .load), .delete [.name 1 "x"]] []]

theorem deleteInLoop_run : ∃ trace final,
    execBody deleteInLoop.body {"x"} trace .raised final ∧
      Event.load 0 "x" ∅ ∈ trace := by
  have hdelete : deleteName "x" {"x"} [.called {"x"} {"x"}] .normal ∅ := by
    change (if "x" ∈ ({"x"} : Bound) then hazard.seq (update fun b => b.erase "x")
      else ends .raised) {"x"} _ _ _
    rw [if_pos (by simp)]
    exact ⟨_, .normal, {"x"}, [], hazard_quiet _, ⟨rfl, rfl, by decide⟩, rfl⟩
  have hfirst : execBody [.expr (.name 0 "x" .load), .delete [.name 1 "x"]] {"x"}
      [.load 0 "x" {"x"}, .called {"x"} {"x"}, .called {"x"} {"x"}] .normal ∅ := by
    unfold execBody execStmt execBody execStmt execBody deleteTargets deleteTargets
    exact seq_normal (eval_name 0 "x" {"x"}) (seq_normal (seq_normal hdelete
      (b := skip) ⟨rfl, rfl, rfl⟩) (b := skip) ⟨rfl, rfl, rfl⟩)
  have hsecond : execBody [.expr (.name 0 "x" .load), .delete [.name 1 "x"]] ∅
      [.load 0 "x" ∅, .called ∅ ∅] .raised ∅ := by
    unfold execBody execStmt evalExpr
    exact ⟨_, .raised, ∅, [],
      ⟨_, .normal, ∅, _, ⟨rfl, rfl, rfl⟩, ⟨rfl, .inr (.inl rfl)⟩, rfl⟩,
      ⟨rfl, rfl, rfl⟩, rfl⟩
  have hround : ∀ (body : List Stmt) (start bound now : Bound) (t t' : List Event)
      (o o' : Completion), execBody body bound t o now →
      endRound (.other []) body start bound o now t' o' now →
      (evalExpr [] (.other [])).seq (hazard.seq (withEntry fun entry =>
        (execBody body).bind (endRound (.other []) body start entry))) bound
        ([.called bound bound] ++ ([.called bound bound] ++ (t ++ t'))) o' now := by
    intro body start bound now t t' o o' hbody hend
    exact seq_normal (eval_constant bound) (seq_normal (hazard_quiet bound)
      ⟨t, o, now, t', hbody, hend, rfl⟩)
  have hloop := @loop.again _ _ _ ((evalExpr [] (.other [])).seq (hazard.seq (execBody [])))
    _ _ _ _ _ _ (hround _ {"x"} {"x"} ∅ _ _ .normal .normal hfirst ⟨rfl, rfl, rfl⟩)
    (loop.out (hround _ {"x"} ∅ ∅ _ _ .raised .raised hsecond ⟨rfl, rfl, rfl⟩) (by simp)
      (by simp))
  obtain ⟨trace, hrun, hload⟩ : ∃ trace, execStmt (.whileStmt (.other [])
      [.expr (.name 0 "x" .load), .delete [.name 1 "x"]] []) {"x"} trace .raised ∅ ∧
      Event.load 0 "x" ∅ ∈ trace := by
    unfold execStmt
    exact ⟨_, hloop, by simp⟩
  refine ⟨trace, ∅, ?_, hload⟩
  unfold deleteInLoop execBody
  exact ⟨trace, .raised, ∅, [], hrun, ⟨rfl, rfl, rfl⟩, by simp⟩

end CinderX.StaticPython
