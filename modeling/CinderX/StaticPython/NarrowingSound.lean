import CinderX.StaticPython.Narrowing

/-!
# The effects of the binder are the narrowing of their condition

An effect writes its refinements in order.  What the binder composes with `and_`,
`or_` and `not_` writes exactly the narrowing of the condition, and visiting a
settled condition leaves the local types as they were.
-/

namespace CinderX.StaticPython

variable {C : Type}

namespace Effect

mutual

def applied : Effect C → Refinements C
  | .noEffect => []
  | .isInstance path _ inst _ => [(path, inst)]
  | .and effects => appliedAll effects
  | .or _ => []
  | .negation negated => reversed negated

def undone : Effect C → Refinements C
  | .noEffect => []
  | .isInstance path prev _ _ => [(path, prev)]
  | .and effects => undoneAll effects
  | .or effects => undoneAll effects
  | .negation negated => undone negated

def reversed : Effect C → Refinements C
  | .noEffect => []
  | .isInstance path _ _ rev => [(path, rev)]
  | .and effects => undoneAll effects
  | .or effects => reversedAll effects
  | .negation negated => applied negated

def appliedAll : List (Effect C) → Refinements C
  | [] => []
  | e :: es => applied e ++ appliedAll es

def undoneAll : List (Effect C) → Refinements C
  | [] => []
  | e :: es => undone e ++ undoneAll es

def reversedAll : List (Effect C) → Refinements C
  | [] => []
  | e :: es => reversed e ++ reversedAll es

end

mutual

theorem apply_eq : ∀ (e : Effect C) (s : TypeState C), e.apply s = s.refineAll e.applied
  | .noEffect, _ => rfl
  | .isInstance _ _ _ _, _ => rfl
  | .and effects, s => applyAll_eq effects s
  | .or _, _ => rfl
  | .negation negated, s => reverse_eq negated s

theorem undo_eq : ∀ (e : Effect C) (s : TypeState C), e.undo s = s.refineAll e.undone
  | .noEffect, _ => rfl
  | .isInstance _ _ _ _, _ => rfl
  | .and effects, s => undoAll_eq effects s
  | .or effects, s => undoAll_eq effects s
  | .negation negated, s => undo_eq negated s

theorem reverse_eq :
    ∀ (e : Effect C) (s : TypeState C), e.reverse s = s.refineAll e.reversed
  | .noEffect, _ => rfl
  | .isInstance _ _ _ _, _ => rfl
  | .and effects, s => undoAll_eq effects s
  | .or effects, s => reverseAll_eq effects s
  | .negation negated, s => apply_eq negated s

theorem applyAll_eq : ∀ (es : List (Effect C)) (s : TypeState C),
    applyAll es s = s.refineAll (appliedAll es)
  | [], _ => rfl
  | e :: es, s => by
      simp only [applyAll, appliedAll, TypeState.refineAll_append]
      rw [apply_eq e s, applyAll_eq es]

theorem undoAll_eq : ∀ (es : List (Effect C)) (s : TypeState C),
    undoAll es s = s.refineAll (undoneAll es)
  | [], _ => rfl
  | e :: es, s => by
      simp only [undoAll, undoneAll, TypeState.refineAll_append]
      rw [undo_eq e s, undoAll_eq es]

theorem reverseAll_eq : ∀ (es : List (Effect C)) (s : TypeState C),
    reverseAll es s = s.refineAll (reversedAll es)
  | [], _ => rfl
  | e :: es, s => by
      simp only [reverseAll, reversedAll, TypeState.refineAll_append]
      rw [reverse_eq e s, reverseAll_eq es]

end

theorem appliedAll_append (es fs : List (Effect C)) :
    appliedAll (es ++ fs) = appliedAll es ++ appliedAll fs := by
  induction es with
  | nil => rfl
  | cons e es ih => simp [appliedAll, ih]

theorem undoneAll_append (es fs : List (Effect C)) :
    undoneAll (es ++ fs) = undoneAll es ++ undoneAll fs := by
  induction es with
  | nil => rfl
  | cons e es ih => simp [undoneAll, ih]

def IsChain : Effect C → Prop
  | .noEffect => True
  | .and _ => True
  | _ => False

structure Describes (e : Effect C) (n : Narrowing C) : Prop where
  applied : e.applied = n.whenTrue
  reversed : e.reversed = n.whenFalse
  undone : e.undone = n.seen

variable {e : Effect C}

theorem IsChain.reversed_eq_undone (h : IsChain e) :
    e.reversed = e.undone := by
  cases e with
  | noEffect => rfl
  | and effects => rfl
  | _ => exact h.elim

theorem IsChain.andWith (h : IsChain e) (e' : Effect C) :
    IsChain (e.andWith e') ∧ (e.andWith e').applied = e.applied ++ e'.applied ∧
      (e.andWith e').undone = e.undone ++ e'.undone := by
  cases e with
  | noEffect =>
    cases e' <;> simp [Effect.andWith, IsChain, Effect.applied, Effect.undone, appliedAll,
      undoneAll]
  | and effects =>
    cases e' <;> simp [Effect.andWith, IsChain, Effect.applied, Effect.undone, appliedAll,
      undoneAll, appliedAll_append, undoneAll_append]
  | _ => exact h.elim

theorem orWith_reversed (e e' : Effect C) :
    (e.orWith e').reversed = e.reversed ++ e'.reversed := by
  cases e' <;> simp [orWith, reversed, reversedAll]

theorem orWith_undone (e e' : Effect C) :
    (e.orWith e').undone = e.undone ++ e'.undone := by
  cases e' <;> simp [orWith, undone, undoneAll]

theorem orWith_applied (h : e.applied = []) (e' : Effect C) :
    (e.orWith e').applied = [] := by
  cases e' with
  | noEffect => exact h
  | _ => rfl

variable {n : Narrowing C}

theorem Describes.apply (h : Describes e n) (s : TypeState C) :
    e.apply s = s.refineAll n.whenTrue := by
  rw [apply_eq, h.applied]

theorem Describes.reverse (h : Describes e n) (s : TypeState C) :
    e.reverse s = s.refineAll n.whenFalse := by
  rw [reverse_eq, h.reversed]

theorem Describes.undo (h : Describes e n) (s : TypeState C) : e.undo s = s.refineAll n.seen := by
  rw [undo_eq, h.undone]

theorem Describes.noEffect : Describes (.noEffect : Effect C) .nothing :=
  ⟨rfl, rfl, rfl⟩

theorem Describes.negate (h : Describes e n) :
    Describes e.negate n.swap := by
  cases e with
  | negation negated => exact ⟨h.reversed, h.applied, h.undone⟩
  | _ => exact ⟨h.reversed, h.applied, h.undone⟩

theorem Describes.not (h : Describes e n) :
    Describes (match e with | .noEffect => .noEffect | effect => effect.negate) n.swap := by
  cases e with
  | noEffect => exact ⟨h.reversed, h.applied, h.undone⟩
  | _ => exact h.negate

end Effect

open Effect

variable [DecidableEq C] {program : Program C}

theorem describes_isInstanceEffect (path : List Identifier) (prev inst : Value C) :
    Describes (isInstanceEffect program path prev inst)
      ⟨[(path, inst)], [(path, reverseType program prev inst)], [(path, prev)]⟩ :=
  ⟨rfl, rfl, rfl⟩

theorem describes_testEffect (s : TypeState C) (target : Target) (kind : TestKind C) :
    Describes (testEffect program s target kind) (testNarrowing program s target kind) := by
  unfold testEffect testNarrowing
  cases htype : refinableType program s target with
  | none => cases target <;> cases kind <;> exact .noEffect
  | some type =>
    cases kind with
    | isInstance arg =>
      cases harg : arg.classType program with
      | none => cases target <;> simp [TestKind.effect, TestKind.narrow, harg, Describes.noEffect]
      | some inst =>
        cases target <;>
          simpa [TestKind.effect, TestKind.narrow, harg] using
            describes_isInstanceEffect _ type inst
    | _ =>
      cases target <;> cases type <;>
        first
          | exact .noEffect
          | exact ⟨rfl, rfl, rfl⟩

/-! ## What a chain leaves alone -/

omit [DecidableEq C] in
mutual

theorem visited_localTypes : ∀ (c : Cond C) (s : TypeState C),
    (visited program c s).localTypes = s.localTypes
  | .test _ _, s => s.clearUnless_localTypes _
  | .other _ _ operands, s => by
      unfold visited
      rw [TypeState.clearUnless_localTypes]
      exact visitedOperands_localTypes operands s
  | .ifExp _ _ _ _, s => s.clearUnless_localTypes _
  | .not _, s => s.clearUnless_localTypes _
  | .and _, s => s.clearUnless_localTypes _
  | .or _ _, s => s.clearUnless_localTypes _

theorem visitedOperands_localTypes : ∀ (cs : List (Cond C)) (s : TypeState C),
    (visitedOperands program cs s).localTypes = s.localTypes
  | [], _ => rfl
  | c :: cs, s => by
      unfold visitedOperands
      rw [visitedOperands_localTypes cs, visited_localTypes c]

end

omit [DecidableEq C] in
mutual

theorem visited_refinedFields : ∀ (c : Cond C) {s : TypeState C} {base attr : Identifier}
    {type : Value C}, (visited program c s).refinedFields base attr = some type →
      s.refinedFields base attr = some type
  | .test _ _, _, _, _, _, h => TypeState.clearUnless_refinedFields h
  | .other _ _ operands, _, _, _, _, h =>
    visitedOperands_refinedFields operands (TypeState.clearUnless_refinedFields h)
  | .ifExp _ _ _ _, _, _, _, _, h => TypeState.clearUnless_refinedFields h
  | .not _, _, _, _, _, h => TypeState.clearUnless_refinedFields h
  | .and _, _, _, _, _, h => TypeState.clearUnless_refinedFields h
  | .or _ _, _, _, _, _, h => TypeState.clearUnless_refinedFields h

theorem visitedOperands_refinedFields : ∀ (cs : List (Cond C)) {s : TypeState C}
    {base attr : Identifier} {type : Value C},
    (visitedOperands program cs s).refinedFields base attr = some type →
      s.refinedFields base attr = some type
  | [], _, _, _, _, h => h
  | c :: cs, _, _, _, _, h => visited_refinedFields c (visitedOperands_refinedFields cs h)

end

def Narrowing.IsCovered (n : Narrowing C) : Prop :=
  ∀ path, lastType path n.seen = none →
    lastType path n.whenTrue = none ∧ lastType path n.whenFalse = none

omit [DecidableEq C] in
theorem Narrowing.IsCovered.append {n m : Narrowing C} (hn : n.IsCovered)
    (hm : m.IsCovered) : (n.append m).IsCovered := by
  intro path hpath
  have hseen := lastType_append_eq_none.mp hpath
  have hn := hn path hseen.1
  have hm := hm path hseen.2
  exact ⟨lastType_append_eq_none.mpr ⟨hn.1, hm.1⟩,
    lastType_append_eq_none.mpr ⟨hn.2, hm.2⟩⟩

theorem testNarrowing_cases (s : TypeState C) (target : Target) (kind : TestKind C) :
    testNarrowing program s target kind = .nothing ∨
      ∃ type whenTrue whenFalse, refinableType program s target = some type ∧
        kind.narrow program type true = some whenTrue ∧
        kind.narrow program type false = some whenFalse ∧
        (∀ base attr, target = .attribute base attr → kind ≠ .truthy) ∧
        testNarrowing program s target kind =
          ⟨[(target.accessPath, whenTrue)], [(target.accessPath, whenFalse)],
            [(target.accessPath, type)]⟩ := by
  unfold testNarrowing
  split
  · exact .inl rfl
  next hattr htype =>
    split
    next htrue hfalse => exact .inr ⟨_, _, _, htype, htrue, hfalse, hattr, rfl⟩
    · exact .inl rfl
  · exact .inl rfl

theorem testNarrowing_isCovered (s : TypeState C) (target : Target) (kind : TestKind C) :
    (testNarrowing program s target kind).IsCovered := by
  intro path hpath
  cases testNarrowing_cases s target kind with
  | inl hnone =>
    rw [hnone]
    exact ⟨rfl, rfl⟩
  | inr hsome =>
    obtain ⟨type, whenTrue, whenFalse, -, -, -, -, heq⟩ := hsome
    rw [heq] at hpath ⊢
    have hne : target.accessPath ≠ path := by simpa [lastType] using hpath
    simp [lastType, hne]

mutual

theorem narrowing_isCovered : ∀ (c : Cond C) (s : TypeState C),
    (narrowing program c s).IsCovered
  | .test target kind, s => testNarrowing_isCovered s target kind
  | .other _ _ _, _ => fun _ _ => ⟨rfl, rfl⟩
  | .ifExp _ _ _ _, _ => fun _ _ => ⟨rfl, rfl⟩
  | .not operand, s => fun path h => (narrowing_isCovered operand s path h).symm
  | .and values, s => fun path h => ⟨(narrowingAnd_isCovered values s path h).1, h⟩
  | .or values last, s => fun path h => by
      have hseen := lastType_append_eq_none.mp h
      exact ⟨rfl, lastType_append_eq_none.mpr
        ⟨(narrowingOr_isCovered values s path hseen.1).2,
          (narrowing_isCovered last _ path hseen.2).2⟩⟩

theorem narrowingAnd_isCovered : ∀ (cs : List (Cond C)) (s : TypeState C),
    (narrowingAnd program cs s).1.IsCovered
  | [], _ => fun _ _ => ⟨rfl, rfl⟩
  | c :: cs, s => (narrowing_isCovered c s).append (narrowingAnd_isCovered cs _)

theorem narrowingOr_isCovered : ∀ (cs : List (Cond C)) (s : TypeState C),
    (narrowingOr program cs s).1.IsCovered
  | [], _ => fun _ _ => ⟨rfl, rfl⟩
  | c :: cs, s => (narrowing_isCovered c s).append (narrowingOr_isCovered cs _)

end

/-- The states have the same types for the locals that were not seen. -/
def AgreesOff (seen : Refinements C) (s s' : TypeState C) : Prop :=
  ∀ x, lastType [x] seen = none → s'.localTypes x = s.localTypes x

variable {w : Refinements C} {w' seen : Refinements C}

omit [DecidableEq C] in
theorem AgreesOff.trans {s₁ s₂ s₃ : TypeState C} (h : AgreesOff w s₁ s₂)
    (h' : AgreesOff w' s₂ s₃) : AgreesOff (w ++ w') s₁ s₃ := by
  intro x hx
  have hseen := lastType_append_eq_none.mp hx
  rw [h' x hseen.2, h x hseen.1]

variable {s s' : TypeState C}

omit [DecidableEq C] in
theorem AgreesOff.refineAll (h : AgreesOff w s s')
    (hw : ∀ path, lastType path w = none → lastType path w' = none) :
    AgreesOff w s (s'.refineAll w') := by
  intro x hx
  rw [TypeState.refineAll_localTypes, hw _ hx]
  exact h x hx

omit [DecidableEq C] in
theorem AgreesOff.visited {w : Refinements C} {s s' : TypeState C} (h : AgreesOff w s s')
    (program : Program C) (c : Cond C) : AgreesOff w s (visited program c s') := by
  intro x hx
  rw [visited_localTypes]
  exact h x hx

omit [DecidableEq C] in
theorem AgreesOff.rfl : AgreesOff w s s :=
  fun _ _ => Eq.refl _

theorem agreesOff_afterAnd (c : Cond C) (s : TypeState C) :
    AgreesOff (narrowing program c s).seen s
      ((narrowing program c s).afterAnd program c s) :=
  (AgreesOff.rfl.visited program c).refineAll fun path h => (narrowing_isCovered c s path h).1

theorem agreesOff_afterOr (c : Cond C) (s : TypeState C) :
    AgreesOff (narrowing program c s).seen s
      ((narrowing program c s).afterOr program c s) :=
  (((agreesOff_afterAnd c s).visited program c).refineAll fun _ h => h).refineAll
    fun path h => (narrowing_isCovered c s path h).2

theorem agreesOff_narrowingAnd (cs : List (Cond C)) :
    ∀ s, AgreesOff (narrowingAnd program cs s).1.seen s (narrowingAnd program cs s).2 := by
  induction cs with
  | nil => exact fun _ => .rfl
  | cons c cs ih => exact fun s => (agreesOff_afterAnd c s).trans (ih _)

theorem agreesOff_narrowingOr (cs : List (Cond C)) :
    ∀ s, AgreesOff (narrowingOr program cs s).1.seen s (narrowingOr program cs s).2 := by
  induction cs with
  | nil => exact fun _ => .rfl
  | cons c cs ih => exact fun s => (agreesOff_afterOr c s).trans (ih _)

omit [DecidableEq C] in
theorem RestoresLocals.refineAll (h : RestoresLocals s seen) (hs : AgreesOff seen s s') :
    (s'.refineAll seen).localTypes = s.localTypes := by
  funext x
  rw [TypeState.refineAll_localTypes]
  cases hx : lastType [x] seen with
  | none => exact hs x hx
  | some type => exact h x type hx

omit [DecidableEq C] in
theorem Restores.locals (h : Restores program s seen) :
    RestoresLocals s seen := by
  intro x type hx
  have hseen := h (.name x) type hx
  exact (Option.some.inj hseen).symm

theorem accessPath_inj {target target' : Target}
    (h : target.accessPath = target'.accessPath) : target = target' := by
  cases target <;> cases target' <;> simp_all [Target.accessPath]

theorem testNarrowing_restores (s : TypeState C) (target : Target) (kind : TestKind C) :
    Restores program s (testNarrowing program s target kind).seen := by
  intro target' type h
  cases testNarrowing_cases s target kind with
  | inl hnone =>
    rw [hnone] at h
    cases h
  | inr hsome =>
    obtain ⟨type', whenTrue, whenFalse, htype, -, -, -, heq⟩ := hsome
    rw [heq] at h
    simp only [lastType, Option.none_or, Option.ite_none_right_eq_some] at h
    rw [← accessPath_inj h.1, htype]
    exact h.2

theorem restores_of_settled : ∀ {c : Cond C} {s : TypeState C}, Settled program c s →
    Restores program s (narrowing program c s).seen
  | .test target kind, s, _ => testNarrowing_restores s target kind
  | .other _ _ _, _, _ => nofun
  | .ifExp _ _ _ _, _, _ => nofun
  | .not operand, _, h => restores_of_settled (c := operand) h
  | .and _, _, h => h.2
  | .or _ _, _, h => h.2.2.2

omit [DecidableEq C] in
theorem clearUnless_false_congr (h : s.localTypes = s'.localTypes) :
    s.clearUnless false = s'.clearUnless false := by
  simp [TypeState.clearUnless, h]

mutual

theorem visit_eq : ∀ (c : Cond C) (s : TypeState C), Settled program c s →
    (visit program c s).2 = visited program c s ∧
      Describes (visit program c s).1 (narrowing program c s)
  | .test target kind, s, _ => ⟨rfl, describes_testEffect s target kind⟩
  | .other _ _ operands, s, h => by
      unfold visit visited
      rw [visitOperands_eq operands s h]
      exact ⟨rfl, .noEffect⟩
  | .ifExp test isBool body orelse, s, h => by
      unfold visit visited
      obtain ⟨htest, hbody, horelse⟩ := h
      obtain ⟨hs, heffect⟩ := visit_eq test s htest
      have hbody := (visit_eq body _ hbody).1
      have horelse := (visit_eq orelse _ horelse).1
      dsimp only [Narrowing.afterAnd] at hbody horelse ⊢
      rw [hs, heffect.apply, hbody, heffect.reverse, horelse, heffect.undo]
      refine ⟨clearUnless_false_congr ?_, .noEffect⟩
      apply (restores_of_settled htest).locals.refineAll
      -- the body and the other branch only move what the test has seen
      have htested : AgreesOff (narrowing program test s).seen s
          (((narrowing program test s).afterAnd program test s).clearUnless isBool) := by
        intro x hx
        rw [TypeState.clearUnless_localTypes]
        exact agreesOff_afterAnd test s x hx
      exact ((htested.visited program body).refineAll
        fun path hpath => (narrowing_isCovered test s path hpath).2).visited program orelse
  | .not operand, s, h => by
      unfold visit visited
      obtain ⟨hs, heffect⟩ := visit_eq operand s h
      dsimp only
      rw [hs]
      exact ⟨clearUnless_false_congr (visited_localTypes operand s), heffect.not⟩
  | .and values, s, h => by
      unfold visit visited
      obtain ⟨hchain, happlied, hundone, hs⟩ := visitAnd_eq values .noEffect s h.1 trivial
      dsimp only
      rw [undo_eq, hundone, hs]
      have hlocals := h.2.locals.refineAll (agreesOff_narrowingAnd values s)
      exact ⟨clearUnless_false_congr hlocals,
        happlied, hchain.reversed_eq_undone.trans hundone, hundone⟩
  | .or values last, s, h => by
      unfold visit visited
      obtain ⟨hvalues, hlast, hlocals, -⟩ := h
      obtain ⟨happlied, hreversed, hundone, hs⟩ :=
        visitOr_eq values .noEffect s hvalues rfl
      dsimp only
      rw [hs]
      obtain ⟨hs', heffect⟩ := visit_eq last _ hlast
      rw [hs', undo_eq, hundone]
      have hrestored := hlocals.refineAll ((agreesOff_narrowingOr values s).visited program last)
      refine ⟨clearUnless_false_congr hrestored, orWith_applied happlied _, ?_, ?_⟩
      · rw [orWith_reversed, hreversed, heffect.reversed]
        rfl
      · rw [orWith_undone, hundone, heffect.undone]
        rfl

theorem visitOperands_eq : ∀ (cs : List (Cond C)) (s : TypeState C),
    SettledOperands program cs s →
      visitOperands program cs s = visitedOperands program cs s
  | [], _, _ => rfl
  | c :: cs, s, h => by
      unfold visitOperands visitedOperands
      rw [(visit_eq c s h.1).1]
      exact visitOperands_eq cs _ h.2

theorem visitAnd_eq : ∀ (cs : List (Cond C)) (e : Effect C) (s : TypeState C),
    SettledAnd program cs s → IsChain e →
      IsChain (visitAnd program cs e s).1 ∧
      (visitAnd program cs e s).1.applied =
        e.applied ++ (narrowingAnd program cs s).1.whenTrue ∧
      (visitAnd program cs e s).1.undone =
        e.undone ++ (narrowingAnd program cs s).1.seen ∧
      (visitAnd program cs e s).2 = (narrowingAnd program cs s).2
  | [], e, _, _, he => by simpa [visitAnd, narrowingAnd, Narrowing.nothing] using he
  | c :: cs, e, s, h, he => by
      unfold visitAnd narrowingAnd
      obtain ⟨hs, heffect⟩ := visit_eq c s h.1
      obtain ⟨hchain, happlied, hundone⟩ := he.andWith (visit program c s).1
      dsimp only
      rw [hs, heffect.apply, ← Narrowing.afterAnd]
      obtain ⟨hchain', happlied', hundone', hs'⟩ := visitAnd_eq cs _ _ h.2 hchain
      refine ⟨hchain', ?_, ?_, hs'⟩
      · rw [happlied', happlied, heffect.applied, List.append_assoc]
        rfl
      · rw [hundone', hundone, heffect.undone, List.append_assoc]
        rfl

theorem visitOr_eq : ∀ (cs : List (Cond C)) (e : Effect C) (s : TypeState C),
    SettledOr program cs s → e.applied = [] →
      (visitOr program cs e s).1.applied = [] ∧
      (visitOr program cs e s).1.reversed =
        e.reversed ++ (narrowingOr program cs s).1.whenFalse ∧
      (visitOr program cs e s).1.undone =
        e.undone ++ (narrowingOr program cs s).1.seen ∧
      (visitOr program cs e s).2 = (narrowingOr program cs s).2
  | [], e, _, _, he => by simpa [visitOr, narrowingOr, Narrowing.nothing] using he
  | c :: cs, e, s, h, he => by
      unfold visitOr narrowingOr
      obtain ⟨hc, hagain, hcs⟩ := h
      obtain ⟨hs, heffect⟩ := visit_eq c s hc
      have hagain := (visit_eq c _ hagain).1
      dsimp only [Narrowing.afterAnd] at hagain ⊢
      rw [hs, heffect.apply, hagain, heffect.undo, heffect.reverse, ← Narrowing.afterAnd,
        ← Narrowing.afterOr]
      obtain ⟨happlied', hreversed', hundone', hs'⟩ :=
        visitOr_eq cs (e.orWith (visit program c s).1) _ hcs (orWith_applied he _)
      refine ⟨happlied', ?_, ?_, hs'⟩
      · rw [hreversed', orWith_reversed, heffect.reversed, List.append_assoc]
        rfl
      · rw [hundone', orWith_undone, heffect.undone, List.append_assoc]
        rfl

end

end CinderX.StaticPython
