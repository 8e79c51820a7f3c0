import CinderX.StaticPython.DefiniteAssignmentSets
import CinderX.StaticPython.Execution

/-!
# Expressions under the definite assignment checker

Everything is about one local `x`.  `Event.keeps` is the condition on a run's
steps, `Covers` the invariant: where the checker has `x` in its set, `x` is
bound.
-/

namespace CinderX.StaticPython

open Foundation Foundation.Behaviour

/-- What a step must leave alone for the checker's set to be right about `x`. -/
def Event.keeps (x : Identifier) : Event → Prop
  | .load _ _ _ => True
  | .called before after => x ∈ before → x ∈ after
  | .disorder parts bound => anyBinds x parts → x ∈ bound
  | .named target value bound => target = x → value.loads x → x ∈ bound
  | .annotated target ann value bound =>
    (ann.binds x → x ∈ bound) ∧ (target.binds x → value.loads x → x ∈ bound)
  | .augmented (.name _ id _) bound => id = x → x ∈ bound
  | .augmented (.lambda _ body) bound => body.binds x → x ∈ bound
  | .augmented _ _ => True
  | .unvisited parts bound => anyLoads x parts → x ∈ bound
  | .again head body entry now =>
    head.loads x ∨ bodyLoads x body → x ∈ entry → x ∈ now
  | .jumped entry now => x ∈ entry → x ∈ now
  | .unwound finalbody entry now => bodyLoads x finalbody → x ∈ entry → x ∈ now
  | .finished body before after => bodyBinds x body → x ∈ before → x ∈ after
  | .suppressed parts entry now => x ∈ entry ∨ anyBinds x parts → x ∈ now
  | .unbound name entry => name = x → x ∉ entry

def Event.checked (x : Identifier) (unassigned : Finset Nat) : Event → Prop
  | .load node id bound => id = x → node ∈ unassigned ∨ x ∈ bound
  | _ => True

theorem Event.checked_mono {x : Identifier} {u u' : Finset Nat} (h : u ⊆ u')
    (e : Event) (he : e.checked x u) : e.checked x u' := by
  cases e with
  | load node id bound =>
    intro hid
    exact (he hid).imp_left fun hmem => h hmem
  | _ => trivial

def Covers (x : Identifier) (v : DefiniteAssignmentVisitor) (bound : Bound) : Prop :=
  x ∈ v.assigned → x ∈ bound

/-! ## What an expression leaves alone -/

/-- `I` holds through whatever an expression may do, and only its loads can emit
an event that is not good. -/
structure Carried (assumed good : Event → Prop) (I : Bound → Prop) : Prop where
  bind : ∀ id bound, I bound → I (insert id bound)
  called : ∀ before after, assumed (.called before after) → I before → I after
  silent : ∀ e : Event, (∀ node id bound, e ≠ .load node id bound) → good e

def Evaluated (o : Completion) : Prop :=
  o = .normal ∨ o = .raised ∨ o = .stopped

theorem evaluated_normal : Evaluated .normal := .inl rfl

/-- Loads of the names in `loaded`, made where `I` holds, are good. -/
def LoadsGood (good : Event → Prop) (I : Bound → Prop) (loaded : Identifier → Bool) :
    Prop :=
  ∀ node id bound, loaded id → I bound → good (.load node id bound)

theorem LoadsGood.mono {good : Event → Prop} {I : Bound → Prop}
    {loaded loaded' : Identifier → Bool} (h : LoadsGood good I loaded)
    (hsub : ∀ id, loaded' id → loaded id) : LoadsGood good I loaded' := by
  intro node id bound hid
  exact h node id bound (hsub id hid)

namespace Carried

open Run

variable {assumed good : Event → Prop} {I : Bound → Prop}

theorem hazard (h : Carried assumed good I) :
    Meets assumed I hazard good (within Evaluated I) := by
  intro s t o s' hrun hassumed hs
  obtain ⟨rfl, hend⟩ := hrun
  constructor
  · intro e he
    rw [List.mem_singleton.mp he]
    exact h.silent _ (by simp)
  · exact ⟨hend, h.called s s' (hassumed _ (by simp)) hs⟩

theorem emit (h : Carried assumed good I) {event : Bound → Event}
    (hevent : ∀ s node id bound, event s ≠ .load node id bound) :
    Meets assumed I (emit event) good (within Evaluated I) :=
  meets_emit fun s hs _ => ⟨h.silent _ (hevent s), evaluated_normal, hs⟩

theorem inAnyOrder (h : Carried assumed good I) {parts : List Expr}
    {inOrder drawn : Run} (hinOrder : Meets assumed I inOrder good (within Evaluated I))
    (hdrawn : Meets assumed I drawn good (within Evaluated I)) :
    Meets assumed I (inAnyOrder parts inOrder drawn) good (within Evaluated I) :=
  hinOrder.choice
    ((h.emit (by simp)).seq_invariant (hdrawn.loop_invariant evaluated_normal
      (meets_skip fun _ hs => ⟨evaluated_normal, hs⟩)))

mutual

theorem evalExpr (h : Carried assumed good I) :
    ∀ (e : Expr) (shadow : List Identifier),
      LoadsGood good I (fun id => e.loads id) →
      Meets assumed I (evalExpr shadow e) good (within Evaluated I)
  | .name node id .load, shadow, hload => by
      unfold Run.evalExpr
      split
      · exact h.hazard
      · refine Meets.seq_invariant (meets_emit fun s hs _ => ⟨?_, evaluated_normal, hs⟩) h.hazard
        exact hload node id s (by simp [Expr.loads]) hs
  | .name node id .store, shadow, _ => by
      unfold Run.evalExpr
      refine h.hazard.seq_invariant (meets_update fun s hs => ⟨evaluated_normal, ?_⟩)
      split
      · exact hs
      · exact h.bind id s hs
  | .namedExpr target value, shadow, hload => by
      unfold Run.evalExpr
      refine (h.emit (by simp)).seq_invariant
        ((evalExpr h value shadow ?_).seq_invariant
          (meets_update fun s hs => ⟨evaluated_normal, h.bind target s hs⟩))
      exact hload.mono (by simp [Expr.loads])
  | .boolOp left values, shadow, hload => by
      unfold Run.evalExpr
      refine (evalExpr h left shadow ?_).seq_invariant
        (h.hazard.seq_invariant (evalOperands h values shadow ?_))
      · exact hload.mono (by simp +contextual [Expr.loads])
      · exact hload.mono (by simp +contextual [Expr.loads])
  | .ifExp test body orelse, shadow, hload => by
      unfold Run.evalExpr
      refine (evalExpr h test shadow ?_).seq_invariant (h.hazard.seq_invariant
        (((evalExpr h body shadow ?_).seq_invariant (h.emit (by simp))).choice
          ((h.emit (by simp)).seq_invariant (evalExpr h orelse shadow ?_))))
      · exact hload.mono (by simp +contextual [Expr.loads])
      · exact hload.mono (by simp +contextual [Expr.loads])
      · exact hload.mono (by simp +contextual [Expr.loads])
  | .compare left right comparators, shadow, hload => by
      unfold Run.evalExpr
      refine (evalExpr h left shadow ?_).seq_invariant
        ((evalExpr h right shadow ?_).seq_invariant
          (h.hazard.seq_invariant (evalOperands h comparators shadow ?_)))
      · exact hload.mono (by simp +contextual [Expr.loads])
      · exact hload.mono (by simp +contextual [Expr.loads])
      · exact hload.mono (by simp +contextual [Expr.loads])
  | .lambda args _, shadow, hload => by
      unfold Run.evalExpr
      have hargs : LoadsGood good I fun id => anyLoads id args :=
        hload.mono (by simp [Expr.loads])
      exact h.inAnyOrder (evalExprs h args shadow hargs) (evalAny h args shadow hargs)
  | .comprehension elts target iter rest, shadow, hload => by
      unfold Run.evalExpr
      refine (h.emit (by simp)).seq_invariant
        ((evalExpr h iter shadow ?_).seq_invariant
          (((evalAny h elts _ ?_).choice
            ((evalExpr h target _ ?_).choice (evalAny h rest _ ?_))).loop_invariant
              evaluated_normal (meets_skip fun _ hs => ⟨evaluated_normal, hs⟩)))
      · exact hload.mono (by simp +contextual [Expr.loads])
      · exact hload.mono (by simp +contextual [Expr.loads])
      · exact hload.mono (by simp +contextual [Expr.loads])
      · exact hload.mono (by simp +contextual [Expr.loads])
  | .other operands, shadow, hload => by
      unfold Run.evalExpr
      have hoperands : LoadsGood good I fun id => anyLoads id operands :=
        hload.mono (by simp [Expr.loads])
      exact (h.inAnyOrder (evalExprs h operands shadow hoperands)
        (evalAny h operands shadow hoperands)).seq_invariant h.hazard

theorem evalExprs (h : Carried assumed good I) :
    ∀ (es : List Expr) (shadow : List Identifier),
      LoadsGood good I (fun id => anyLoads id es) →
      Meets assumed I (evalExprs shadow es) good (within Evaluated I)
  | [], shadow, _ => by
      unfold Run.evalExprs
      exact meets_skip fun _ hs => ⟨evaluated_normal, hs⟩
  | e :: es, shadow, hload => by
      unfold Run.evalExprs
      refine (evalExpr h e shadow ?_).seq_invariant (evalExprs h es shadow ?_)
      · exact hload.mono (by simp +contextual [anyLoads])
      · exact hload.mono (by simp +contextual [anyLoads])

theorem evalAny (h : Carried assumed good I) :
    ∀ (es : List Expr) (shadow : List Identifier),
      LoadsGood good I (fun id => anyLoads id es) →
      Meets assumed I (evalAny shadow es) good (within Evaluated I)
  | [], shadow, _ => by
      unfold Run.evalAny
      exact meets_skip fun _ hs => ⟨evaluated_normal, hs⟩
  | e :: es, shadow, hload => by
      unfold Run.evalAny
      refine (evalExpr h e shadow ?_).choice (evalAny h es shadow ?_)
      · exact hload.mono (by simp +contextual [anyLoads])
      · exact hload.mono (by simp +contextual [anyLoads])

theorem evalOperands (h : Carried assumed good I) :
    ∀ (es : List Expr) (shadow : List Identifier),
      LoadsGood good I (fun id => anyLoads id es) →
      Meets assumed I (evalOperands shadow es) good (within Evaluated I)
  | [], shadow, _ => by
      unfold Run.evalOperands
      exact meets_skip fun _ hs => ⟨evaluated_normal, hs⟩
  | e :: es, shadow, hload => by
      unfold Run.evalOperands
      refine (h.emit (by simp)).choice
        ((evalExpr h e shadow ?_).seq_invariant
          (h.hazard.seq_invariant (evalOperands h es shadow ?_)))
      · exact hload.mono (by simp +contextual [anyLoads])
      · exact hload.mono (by simp +contextual [anyLoads])

end

theorem evalParts (h : Carried assumed good I) (parts : List Expr)
    (hload : LoadsGood good I fun id => anyLoads id parts) :
    Meets assumed I (evalParts parts) good (within Evaluated I) :=
  h.inAnyOrder (h.evalExprs parts [] hload) (h.evalAny parts [] hload)

end Carried

/-! ## Following the checker -/

/-- From a state that `v` covers, `a` makes only loads that `v'` has recorded or
that find the name bound, and it ends in a state that `v'` covers. -/
def Follows (x : Identifier) (v : DefiniteAssignmentVisitor) (a : Run)
    (v' : DefiniteAssignmentVisitor) : Prop :=
  Meets (Event.keeps x) (Covers x v) a (Event.checked x v'.unassigned)
    fun o bound => o = .normal → Covers x v' bound

/-- Wherever `a` starts, the loads it makes are recorded or find `x` bound. -/
def LoadsChecked (x : Identifier) (unassigned : Finset Nat) (a : Run) : Prop :=
  Meets (Event.keeps x) (fun _ => True) a (Event.checked x unassigned)
    (within (fun _ => True) fun _ => True)

section Follows

open Run DefiniteAssignmentVisitor

variable {scope : Scope} {x : Identifier} {v v₁ v' : DefiniteAssignmentVisitor}
  {a b : Run} {unassigned : Finset Nat}

theorem silent_checked (e : Event) (he : ∀ node id bound, e ≠ .load node id bound) :
    e.checked x unassigned := by
  cases e with
  | load node id bound => exact absurd rfl (he node id bound)
  | _ => trivial

theorem carried_bound :
    Carried (Event.keeps x) (Event.checked x unassigned) fun bound => x ∈ bound where
  bind := fun _ _ hb => Finset.mem_insert_of_mem hb
  called := fun _ _ hkeeps => hkeeps
  silent := silent_checked

theorem carried_anywhere :
    Carried (Event.keeps x) (Event.checked x unassigned) fun _ => True where
  bind := fun _ _ _ => trivial
  called := fun _ _ _ _ => trivial
  silent := silent_checked

theorem loadsGood_bound (loaded : Identifier → Bool) :
    LoadsGood (Event.checked x unassigned) (fun bound => x ∈ bound) loaded :=
  fun _ _ _ _ hb _ => .inr hb

theorem loadsGood_other {loaded : Identifier → Bool} (hx : loaded x = false) :
    LoadsGood (Event.checked x unassigned) (fun _ => True) loaded := by
  intro node id bound hid _ heq
  rw [heq, hx] at hid
  cases hid

theorem LoadsChecked.mono {unassigned' : Finset Nat} (h : LoadsChecked x unassigned a)
    (hsub : unassigned ⊆ unassigned') : LoadsChecked x unassigned' a :=
  h.weaken (fun _ hs => hs) (Event.checked_mono hsub) fun _ _ hs => hs

theorem Follows.seq (ha : Follows x v a v₁) (hb : Follows x v₁ b v')
    (hsub : v₁.unassigned ⊆ v'.unassigned) : Follows x v (a.seq b) v' :=
  Meets.seq
    (ha.weaken (fun _ hs => hs) (Event.checked_mono hsub) fun o s hs => by
      split
      next ho => exact hs ho
      next ho => exact fun h => absurd h ho)
    hb

theorem Follows.choice (ha : Follows x v a v') (hb : Follows x v b v') :
    Follows x v (a.choice b) v' :=
  Meets.choice ha hb

theorem follows_hazard : Follows x v hazard v := by
  intro s t o s' hrun hkeeps hs
  obtain ⟨rfl, -⟩ := hrun
  constructor
  · intro e he
    rw [List.mem_singleton.mp he]
    trivial
  · intro _ hmem
    have hcalled : (Event.called s s').keeps x := hkeeps _ (by simp)
    exact hcalled (hs hmem)

theorem follows_skip : Follows x v skip v :=
  meets_skip fun _ hs _ => hs

theorem follows_update {f : Bound → Bound}
    (h : ∀ bound, Covers x v bound → Covers x v' (f bound)) :
    Follows x v (update f) v' :=
  meets_update fun s hs _ => h s hs

variable {event : Bound → Event}

theorem follows_emit (hevent : ∀ s node id bound, event s ≠ .load node id bound)
    (h : ∀ bound, Covers x v bound → (event bound).keeps x → Covers x v' bound) :
    Follows x v (emit event) v' :=
  meets_emit fun s hs hkeeps => ⟨silent_checked _ (hevent s), fun _ => h s hs hkeeps⟩

theorem follows_of_unbound
    (hbound : Meets (Event.keeps x) (fun bound => x ∈ bound) a
      (Event.checked x v'.unassigned) (within Evaluated fun bound => x ∈ bound))
    (hunbound : Meets (Event.keeps x) (fun bound => Covers x v bound ∧ x ∉ bound) a
      (Event.checked x v'.unassigned) fun o bound => o = .normal → Covers x v' bound) :
    Follows x v a v' := by
  apply Meets.by_cases fun bound => x ∈ bound
  · exact hbound.weaken (fun _ hs => hs.2) (fun _ he => he) fun _ _ hs _ _ => hs.2
  · exact hunbound

theorem meets_emit_unbound {p : Prop} {R : Completion → Bound → Prop}
    (hevent : ∀ s node id bound, event s ≠ .load node id bound)
    (hkeeps : ∀ bound, (event bound).keeps x → p → x ∈ bound) (hnext : ¬ p → x ∉ v.assigned →
      Meets (Event.keeps x) (fun _ => True) a (Event.checked x unassigned) R) :
    Meets (Event.keeps x) (fun bound => Covers x v bound ∧ x ∉ bound)
      ((emit event).seq a) (Event.checked x unassigned) R := by
  by_cases hp : p
  · exact meets_emit_seq
      (fun s hs he => ⟨silent_checked _ (hevent s), hs.2 (hkeeps s he hp)⟩) meets_of_false
  · by_cases hv : x ∈ v.assigned
    · exact meets_of_false.strengthen fun s hs => hs.2 (hs.1 hv)
    · exact meets_emit_seq (fun s _ _ => ⟨silent_checked _ (hevent s), trivial⟩)
        (hnext hp hv)

theorem LoadsChecked.follows (h : LoadsChecked x v.unassigned a)
    (hbound : Meets (Event.keeps x) (fun bound => x ∈ bound) a
      (Event.checked x v.unassigned) (within Evaluated fun bound => x ∈ bound)) :
    Follows x v a v := by
  apply follows_of_unbound hbound
  by_cases hv : x ∈ v.assigned
  · exact meets_of_false.strengthen fun s hs => hs.2 (hs.1 hv)
  · exact h.weaken (fun _ _ => trivial) (fun _ he => he)
      fun _ _ _ _ hmem => absurd hmem hv

theorem follows_inAnyOrder {parts : List Expr} {inOrder drawn : Run}
    (hinOrder : Follows x v inOrder v')
    (hbound : Meets (Event.keeps x) (fun bound => x ∈ bound) drawn
      (Event.checked x v'.unassigned) (within Evaluated fun bound => x ∈ bound))
    (hdrawn : ¬ anyBinds x parts → x ∉ v.assigned →
      LoadsChecked x v'.unassigned drawn)
    (hv' : x ∈ v'.assigned ↔ x ∈ v.assigned ∨ anyBinds x parts) :
    Follows x v (inAnyOrder parts inOrder drawn) v' := by
  apply hinOrder.choice
  apply follows_of_unbound
  · exact (carried_bound.emit (by simp)).seq_invariant
      (hbound.loop_invariant evaluated_normal
        (meets_skip fun _ hs => ⟨evaluated_normal, hs⟩))
  · refine meets_emit_unbound (p := anyBinds x parts) (by simp) (fun _ h => h) ?_
    intro hbinds hv
    have hend : x ∉ v'.assigned := by
      rw [hv']
      exact not_or.mpr ⟨hv, hbinds⟩
    exact ((hdrawn hbinds hv).loop_invariant trivial
      (meets_skip fun _ hs => ⟨trivial, hs⟩)).weaken
      (fun _ hs => hs) (fun _ he => he) fun _ _ _ _ hmem => absurd hmem hend

theorem Follows.anywhere (h : Follows x v a v') (hv : x ∉ v.assigned) :
    LoadsChecked x v'.unassigned a :=
  h.weaken (fun _ _ hmem => absurd hmem hv) (fun _ he => he)
    fun _ _ _ => ⟨trivial, trivial⟩

theorem Follows.weaken_end (h : Follows x v a v₁)
    (hmem : x ∈ v'.assigned → x ∈ v₁.assigned) (hsub : v₁.unassigned ⊆ v'.unassigned) :
    Follows x v a v' :=
  h.weaken (fun _ hs => hs) (Event.checked_mono hsub)
    fun _ _ hs ho hv' => hs ho (hmem hv')

theorem Follows.weaken_start (h : Follows x v₁ a v')
    (hmem : x ∈ v₁.assigned → x ∈ v.assigned) : Follows x v a v' :=
  h.strengthen fun _ hs hv => hs (hmem hv)

theorem anyBinds_append (es es' : List Expr) :
    anyBinds x (es ++ es') = (anyBinds x es || anyBinds x es') := by
  induction es with
  | nil => rfl
  | cons e es ih => simp [anyBinds, ih, Bool.or_assoc]

mutual

theorem follows_evalExpr (hx : scope.isLocal x) :
    ∀ (e : Expr) (shadow : List Identifier) (v : DefiniteAssignmentVisitor),
      (e.binds x → x ∉ shadow) →
      Follows x v (evalExpr shadow e) (visitExpr scope e v)
  | .name node id .load, shadow, v, _ => by
      unfold evalExpr visitExpr
      have hsub := unassigned_visitName scope node id .load v
      have hmem := mem_visitName hx node id .load v
      have hhazard : Follows x v hazard (visitName scope node id .load v) :=
        follows_hazard.weaken_end (by simp [hmem]) hsub
      split
      · exact hhazard
      · refine Meets.seq (R := Covers x v) (meets_emit fun s hs _ => ⟨?_, by simpa⟩) hhazard
        rintro rfl
        by_cases hv : id ∈ v.assigned
        · exact .inr (hs hv)
        · left
          simp [visitName, hx, hv]
  | .name node id .store, shadow, v, hshadow => by
      unfold evalExpr visitExpr
      refine follows_hazard.seq (follows_update fun bound hs hmem => ?_)
        (unassigned_visitName scope node id .store v)
      rw [mem_visitName hx] at hmem
      cases hmem with
      | inl hmem =>
        split
        · exact hs hmem
        · exact Finset.mem_insert_of_mem (hs hmem)
      | inr hid =>
        have hid : id = x := hid.1
        have hnot : id ∉ shadow := by
          rw [hid]
          exact hshadow (by simp [Expr.binds, hid])
        rw [if_neg hnot, hid]
        exact Finset.mem_insert_self x bound
  | .namedExpr target value, shadow, v, hshadow => by
      have hvalue := follows_evalExpr hx value shadow (setAssigned scope target v)
        fun h => hshadow (by simp [Expr.binds, h])
      apply follows_of_unbound
      · exact carried_bound.evalExpr _ _ (loadsGood_bound _)
      · unfold evalExpr visitExpr
        refine meets_emit_unbound (p := target = x ∧ value.loads x) (by simp)
          (fun _ h hp => h hp.1 hp.2) ?_
        intro hearly hv
        by_cases htarget : target = x
        · have hloads : value.loads x = false := by simpa [htarget] using hearly
          refine Meets.seq (R := fun _ => True)
            ((carried_anywhere.evalExpr value shadow (loadsGood_other hloads)).weaken
              (fun _ hs => hs) (fun _ he => he) fun o s _ => ?_) ?_
          · split
            next => trivial
            next ho => exact fun h => absurd h ho
          · refine meets_update fun s _ _ _ => ?_
            simp [htarget]
        · have hv₁ : x ∉ (setAssigned scope target v).assigned := by
            simp [mem_setAssigned hx, hv, htarget]
          refine Meets.strengthen
            (hvalue.seq (follows_update fun bound hs hmem => ?_) subset_rfl)
            fun _ _ hmem => absurd hmem hv₁
          exact Finset.mem_insert_of_mem (hs hmem)
  | .boolOp left values, shadow, v, hshadow => by
      unfold evalExpr visitExpr
      have hleft := follows_evalExpr hx left shadow v
        fun h => hshadow (by simp [Expr.binds, h])
      have hvalues := follows_evalOperands hx values shadow (visitExpr scope left v)
        fun h => hshadow (by simp [Expr.binds, h])
      have hsub := unassigned_visitExprs scope values (visitExpr scope left v)
      exact hleft.seq (follows_hazard.seq hvalues hsub) hsub
  | .ifExp test body orelse, shadow, v, hshadow => by
      unfold evalExpr visitExpr
      have htest := follows_evalExpr hx test shadow v
        fun h => hshadow (by simp [Expr.binds, h])
      have hbody := follows_evalExpr hx body shadow (visitExpr scope test v)
        fun h => hshadow (by simp [Expr.binds, h])
      have horelse := follows_evalExpr hx orelse shadow
        (visitExpr scope body (visitExpr scope test v))
        fun h => hshadow (by simp [Expr.binds, h])
      have hsubBody := unassigned_visitExpr scope body (visitExpr scope test v)
      have hsubElse := unassigned_visitExpr scope orelse
        (visitExpr scope body (visitExpr scope test v))
      have hsub := hsubBody.trans hsubElse
      refine htest.seq (follows_hazard.seq (Follows.choice (hbody.seq ?_ hsubElse)
        (Follows.seq ?_ horelse hsubElse)) hsub) hsub
      -- the walk goes on through the branch that is not taken
      all_goals
        refine follows_emit (by simp) fun bound hs hkeeps hmem => ?_
        rw [mem_visitExpr hx] at hmem
        cases hmem with
        | inl hmem => exact hs hmem
        | inr hbinds => exact hkeeps (by simp [anyBinds, hbinds])
  | .compare left right comparators, shadow, v, hshadow => by
      unfold evalExpr visitExpr
      have hleft := follows_evalExpr hx left shadow v
        fun h => hshadow (by simp [Expr.binds, h])
      have hright := follows_evalExpr hx right shadow (visitExpr scope left v)
        fun h => hshadow (by simp [Expr.binds, h])
      have hrest := follows_evalOperands hx comparators shadow
        (visitExpr scope right (visitExpr scope left v))
        fun h => hshadow (by simp [Expr.binds, h])
      have hsubRight := unassigned_visitExpr scope right
        (visitExpr scope left v)
      have hsubRest := unassigned_visitExprs scope comparators
        (visitExpr scope right (visitExpr scope left v))
      exact hleft.seq (hright.seq (follows_hazard.seq hrest hsubRest) hsubRest)
        (hsubRight.trans hsubRest)
  | .lambda args _, shadow, v, hshadow => by
      unfold evalExpr visitExpr
      exact follows_inAnyOrder
        (follows_evalExprs hx args shadow v fun h => hshadow (by simpa [Expr.binds] using h))
        (carried_bound.evalAny args shadow (loadsGood_bound _))
        (meets_evalAny hx args shadow v)
        (mem_visitExprs hx args v)
  | .comprehension elts target iter rest, shadow, v, _ => by
      apply follows_of_unbound
      · exact carried_bound.evalExpr _ _ (loadsGood_bound _)
      · unfold evalExpr visitExpr
        refine meets_emit_unbound (p := anyBinds x (elts ++ target :: iter :: rest))
          (by simp) (fun _ h => h) ?_
        intro hbinds hv
        simp only [anyBinds_append, anyBinds, Bool.or_eq_true, not_or] at hbinds
        obtain ⟨helts, htarget, hiter, hrest⟩ := hbinds
        have hv₁ : x ∉ (visitExprs scope elts v).assigned := by
          simp [mem_visitExprs hx, hv, helts]
        have hv₂ : x ∉ (visitExpr scope target (visitExprs scope elts v)).assigned := by
          simp [mem_visitExpr hx, hv₁, htarget]
        have hv₃ : x ∉ (visitExpr scope iter
            (visitExpr scope target (visitExprs scope elts v))).assigned := by
          rw [mem_visitExpr hx]
          exact not_or.mpr ⟨hv₂, hiter⟩
        have hv₄ : x ∉ (visitExprs scope rest (visitExpr scope iter
            (visitExpr scope target (visitExprs scope elts v)))).assigned := by
          rw [mem_visitExprs hx]
          exact not_or.mpr ⟨hv₃, hrest⟩
        have hsubRest := unassigned_visitExprs scope rest
          (visitExpr scope iter (visitExpr scope target (visitExprs scope elts v)))
        have hsubIter := (unassigned_visitExpr scope iter
          (visitExpr scope target (visitExprs scope elts v))).trans hsubRest
        have hsubTarget := (unassigned_visitExpr scope target
          (visitExprs scope elts v)).trans hsubIter
        have hiterRun := (follows_evalExpr hx iter shadow
          (visitExpr scope target (visitExprs scope elts v))
          fun h => absurd h hiter).anywhere hv₂
        have heltsRun := meets_evalAny hx elts
          (shadow ++ targetNames target ++ allTargetNames rest) v helts hv
        have htargetRun := (follows_evalExpr hx target
          (shadow ++ targetNames target ++ allTargetNames rest)
          (visitExprs scope elts v) fun h => absurd h htarget).anywhere hv₁
        have hrestRun := meets_evalAny hx rest
          (shadow ++ targetNames target ++ allTargetNames rest) _ hrest hv₃
        refine Meets.weaken (Meets.seq_invariant
          (hiterRun.mono hsubRest)
          (Meets.loop_invariant trivial
            ((heltsRun.mono hsubTarget).choice
              ((htargetRun.mono hsubIter).choice hrestRun))
            (meets_skip fun _ hs => ⟨trivial, hs⟩)))
          (fun _ hs => hs) (fun _ he => he) fun _ _ _ _ hmem => absurd hmem hv₄
  | .other operands, shadow, v, hshadow => by
      unfold evalExpr visitExpr
      have hparts := follows_inAnyOrder
        (follows_evalExprs hx operands shadow v
          fun h => hshadow (by simpa [Expr.binds] using h))
        (carried_bound.evalAny operands shadow (loadsGood_bound _))
        (meets_evalAny hx operands shadow v)
        (mem_visitExprs hx operands v)
      exact hparts.seq follows_hazard subset_rfl

theorem follows_evalExprs (hx : scope.isLocal x) :
    ∀ (es : List Expr) (shadow : List Identifier) (v : DefiniteAssignmentVisitor),
      (anyBinds x es → x ∉ shadow) →
      Follows x v (evalExprs shadow es) (visitExprs scope es v)
  | [], shadow, v, _ => by
      unfold evalExprs visitExprs
      exact follows_skip
  | e :: es, shadow, v, hshadow => by
      unfold evalExprs visitExprs
      exact (follows_evalExpr hx e shadow v fun h => hshadow (by simp [anyBinds, h])).seq
        (follows_evalExprs hx es shadow _ fun h => hshadow (by simp [anyBinds, h]))
        (unassigned_visitExprs scope es _)

theorem meets_evalAny (hx : scope.isLocal x) :
    ∀ (es : List Expr) (shadow : List Identifier) (v : DefiniteAssignmentVisitor),
      ¬ anyBinds x es → x ∉ v.assigned →
      LoadsChecked x (visitExprs scope es v).unassigned (evalAny shadow es)
  | [], shadow, v, _, _ => by
      unfold evalAny
      exact meets_skip fun _ hs => ⟨trivial, hs⟩
  | e :: es, shadow, v, hbinds, hv => by
      unfold evalAny visitExprs
      simp only [anyBinds, Bool.or_eq_true, not_or] at hbinds
      have hv₁ : x ∉ (visitExpr scope e v).assigned := by
        simp [mem_visitExpr hx, hv, hbinds.1]
      have hfirst := (follows_evalExpr hx e shadow v fun h => absurd h hbinds.1).anywhere hv
      exact (hfirst.mono (unassigned_visitExprs scope es _)).choice
        (meets_evalAny hx es shadow _ hbinds.2 hv₁)

theorem follows_evalOperands (hx : scope.isLocal x) :
    ∀ (es : List Expr) (shadow : List Identifier) (v : DefiniteAssignmentVisitor),
      (anyBinds x es → x ∉ shadow) →
      Follows x v (evalOperands shadow es) (visitExprs scope es v)
  | [], shadow, v, _ => by
      unfold evalOperands visitExprs
      exact follows_skip
  | e :: es, shadow, v, hshadow => by
      unfold evalOperands
      apply Follows.choice
      · refine follows_emit (by simp) fun bound hs hkeeps hmem => ?_
        rw [mem_visitExprs hx] at hmem
        cases hmem with
        | inl hmem => exact hs hmem
        | inr hbinds => exact hkeeps hbinds
      · unfold visitExprs
        have hsub := unassigned_visitExprs scope es (visitExpr scope e v)
        exact (follows_evalExpr hx e shadow v
            fun h => hshadow (by simp [anyBinds, h])).seq
          (follows_hazard.seq (follows_evalOperands hx es shadow _
            fun h => hshadow (by simp [anyBinds, h])) hsub) hsub

end

theorem follows_evalParts (hx : scope.isLocal x) (parts : List Expr)
    (v : DefiniteAssignmentVisitor) :
    Follows x v (evalParts parts) (visitExprs scope parts v) :=
  follows_inAnyOrder (follows_evalExprs hx parts [] v (by simp))
    (carried_bound.evalAny parts [] (loadsGood_bound _))
    (meets_evalAny hx parts [] v) (mem_visitExprs hx parts v)

end Follows

end CinderX.StaticPython
