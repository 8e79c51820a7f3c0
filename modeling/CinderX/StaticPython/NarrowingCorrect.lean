import CinderX.StaticPython.ConditionMeaning

/-!
# Narrowing effects denote their condition

What a settled condition stands for fits every environment in which it has the
outcome, so applying its effect is sound where it is true and reversing it where it
is false, and undoing restores the local types.
-/

namespace CinderX.StaticPython

open Option

variable {C : Type} [DecidableEq C] {program : Program C} {world : World program.table}
  {env : Environment program world}

namespace Environment

omit [DecidableEq C] in
theorem Fits.append {w w' : Refinements C} (h : env.Fits w) (h' : env.Fits w') :
    env.Fits (w ++ w') := by
  intro target o type ho hlast
  rw [lastType_append, or_eq_some_iff] at hlast
  cases hlast with
  | inl hlast => exact h' target o type ho hlast
  | inr hlast => exact h target o type ho hlast.2

omit [DecidableEq C] in
theorem Fits.nil : env.Fits [] := nofun

omit [DecidableEq C] in
theorem Fits.one {target : Target} {type : Value C}
    (h : ∀ o, env.object target = some o → type.has program.table (world.classOf o)) :
    env.Fits [(target.accessPath, type)] := by
  intro target' o type' ho hlast
  simp only [lastType, none_or, ite_none_right_eq_some] at hlast
  obtain ⟨hpath, htype⟩ := hlast
  obtain rfl := accessPath_inj hpath
  cases htype
  exact h o ho

omit [DecidableEq C] in
theorem Sound.refineAll {s : TypeState C} {w : Refinements C} (hs : env.Sound s)
    (hw : env.Fits w) : env.Sound (s.refineAll w) where
  locals x := by
    rw [TypeState.refineAll_localTypes]
    cases hx : lastType [x] w with
    | none => exact hs.locals x
    | some type => exact hw (.name x) _ type rfl hx
  fields base attr type o htype ho := by
    rw [TypeState.refineAll_refinedFields, or_eq_some_iff] at htype
    cases htype with
    | inl htype => exact hw (.attribute base attr) o type ho htype
    | inr htype => exact hs.fields base attr type o htype.2 ho

omit [DecidableEq C] in
theorem Sound.clearUnless {s : TypeState C} (hs : env.Sound s) (preserve : Bool) :
    env.Sound (s.clearUnless preserve) where
  locals x := by
    rw [TypeState.clearUnless_localTypes]
    exact hs.locals x
  fields base attr type o htype ho :=
    hs.fields base attr type o (TypeState.clearUnless_refinedFields htype) ho

omit [DecidableEq C] in
mutual

theorem Sound.visited : ∀ (c : Cond C) {s : TypeState C}, env.Sound s →
    env.Sound (visited program c s)
  | .test _ _, _, hs => hs.clearUnless _
  | .other _ _ operands, _, hs => (Sound.visitedOperands operands hs).clearUnless _
  | .ifExp _ _ _ _, _, hs => hs.clearUnless _
  | .not _, _, hs => hs.clearUnless _
  | .and _, _, hs => hs.clearUnless _
  | .or _ _, _, hs => hs.clearUnless _

theorem Sound.visitedOperands : ∀ (cs : List (Cond C)) {s : TypeState C}, env.Sound s →
    env.Sound (visitedOperands program cs s)
  | [], _, hs => hs
  | c :: cs, _, hs => Sound.visitedOperands cs (Sound.visited c hs)

end

variable {s : TypeState C} {target : Target} {type : Value C} {o : world.Obj}

omit [DecidableEq C] in
theorem Sound.has_refinableType (hs : env.Sound s)
    (htype : refinableType program s target = some type) (ho : env.object target = some o) :
    type.has program.table (world.classOf o) := by
  cases target with
  | name id =>
    cases htype
    cases ho
    exact hs.locals id
  | _ base attr =>
    obtain ⟨slot, hslot, htype⟩ := map_eq_some_iff.mp htype
    cases hfield : s.refinedFields base attr with
    | none =>
      rw [hfield, getD_none] at htype
      rw [← htype]
      exact env.slots base attr _ slot o hslot (hs.locals base) ho
    | some refined =>
      rw [hfield, getD_some] at htype
      rw [← htype]
      exact hs.fields base attr refined o hfield ho

omit [DecidableEq C] in
theorem Sound.fits_seen (hs : env.Sound s) {seen : Refinements C} (h : Restores program s seen) :
    env.Fits seen :=
  fun target _ type ho hlast => hs.has_refinableType (h target type hlast) ho

variable {outcome : Bool}

variable (env) in
theorem isInstance_eq_some {arg : ClassArg C} (hknown : arg.IsKnown) {inst : Value C}
    (harg : arg.classType program = some inst) (h : env.isInstance o arg = some outcome) :
    outcome = true ↔ ∃ name ∈ arg.names, name ∈ program.table.mro (world.classOf o) := by
  cases arg with
  | one name =>
    cases h
    simp [ClassArg.names]
  | tuple names =>
    cases h
    simp [ClassArg.names]
  | unknown id => exact hknown.elim
  | unresolved id => cases harg

theorem has_narrow_none {narrowed : Value C} (isNone : Bool)
    (hnarrow : (match type with
      | .inst _ => none
      | .union _ => some (if isNone then noneInstance program
          else reverseType program type (noneInstance program))) = some narrowed)
    (htype : type.has program.table (world.classOf o))
    (h : isNone = true ↔ world.classOf o = program.table.noneType) :
    narrowed.has program.table (world.classOf o) := by
  cases type with
  | inst klass => cases hnarrow
  | union typeArgs =>
    cases hnarrow
    cases isNone with
    | true =>
      have hself := program.table.mro_self (world.classOf o)
      rw [h.mp rfl] at hself ⊢
      exact Klass.has_named hself
    | false => exact has_reverse_none htype (mt h.mpr Bool.false_ne_true)

theorem has_narrow {kind : TestKind C} {narrowed : Value C}
    (hattr : ∀ base attr, target = .attribute base attr → kind ≠ .truthy)
    (hnarrow : kind.narrow program type outcome = some narrowed)
    (htype : type.has program.table (world.classOf o)) (hholds : env.holds o kind = some outcome)
    (hreversible : outcome = false → Reversible world type target kind) :
    narrowed.has program.table (world.classOf o) := by
  cases kind with
  | isInstance arg =>
    obtain ⟨inst, harg, rfl⟩ := map_eq_some_iff.mp hnarrow
    cases arg with
    | unknown id =>
      cases outcome with
      | true =>
        cases harg
        trivial
      | false =>
        have hinst := hreversible rfl
        cases type with
        | inst klass => exact htype
        | union typeArgs => cases target <;> exact hinst.elim
    | _ =>
      have hiff := isInstance_eq_some env (by trivial) harg hholds
      cases outcome with
      | true => exact has_classType harg (hiff.mp rfl)
      | false =>
        apply has_reverseType htype
        intro src hassign hsrc
        have hmem := (namedBy_classType (by trivial) harg).mem_mro hassign hsrc
        exact Bool.false_ne_true (hiff.mpr hmem)
  | isNone =>
    have hclass := Option.some.inj hholds
    apply has_narrow_none outcome _ htype
    · simp [← hclass]
    · cases type <;> simp_all [TestKind.narrow]
  | isNotNone =>
    have hclass := Option.some.inj hholds
    apply has_narrow_none (!outcome) _ htype
    · simp [← hclass]
    · cases type <;> cases outcome <;> simp_all [TestKind.narrow]
  | truthy =>
    have htruthy := Option.some.inj hholds
    cases target with
    | name id =>
      cases type with
      | inst klass => cases hnarrow
      | union typeArgs =>
        apply has_narrow_none (!outcome) _ htype
        · cases outcome with
          | true =>
            have hne : world.classOf o ≠ program.table.noneType := fun hnone =>
              Bool.false_ne_true ((world.none_falsy o hnone).symm.trans htruthy)
            simpa using hne
          | false => simpa using hreversible rfl o htype htruthy
        · cases outcome <;> simp_all [TestKind.narrow]
    | _ base attr => exact absurd rfl (hattr base attr rfl)

theorem Sound.fits_testNarrowing (hs : env.Sound s) {kind : TestKind C}
    (hreversible : AllReversible program world outcome (.test target kind) s)
    (heval : env.eval (.test target kind) = some outcome) :
    env.Fits ((testNarrowing program s target kind).when outcome) := by
  cases testNarrowing_cases s target kind with
  | inl hnone =>
    rw [hnone]
    cases outcome <;> exact Fits.nil
  | inr hsome =>
    obtain ⟨type, whenTrue, whenFalse, htype, htrue, hfalse, hattr, heq⟩ := hsome
    obtain ⟨o, ho, hholds⟩ := bind_eq_some_iff.mp heval
    rw [heq]
    have hfits : ∀ narrowed, kind.narrow program type outcome = some narrowed →
        env.Fits [(target.accessPath, narrowed)] := by
      intro narrowed hnarrow
      apply Fits.one
      intro o' ho'
      obtain rfl := Option.some.inj (ho.symm.trans ho')
      exact has_narrow hattr hnarrow (hs.has_refinableType htype ho) hholds
        fun houtcome => hreversible houtcome type htype
    cases outcome with
    | true => exact hfits whenTrue htrue
    | false => exact hfits whenFalse hfalse

omit [DecidableEq C] in
theorem Sound.refineAll_seen {s' : TypeState C} {seen : Refinements C} (hs : env.Sound s)
    (hseen : Restores program s seen) (hlocals : AgreesOff seen s s')
    (hfields : ∀ base attr type, lastType [base, attr] seen = none →
      s'.refinedFields base attr = some type → s.refinedFields base attr = some type) :
    env.Sound (s'.refineAll seen) where
  locals x := by
    rw [hseen.locals.refineAll hlocals]
    exact hs.locals x
  fields base attr type o htype ho := by
    rw [TypeState.refineAll_refinedFields] at htype
    cases hlast : lastType [base, attr] seen with
    | none =>
      rw [hlast, none_or] at htype
      exact hs.fields base attr type o (hfields base attr type hlast htype) ho
    | some seenType =>
      rw [hlast, some_or] at htype
      obtain rfl := Option.some.inj htype
      exact hs.fits_seen hseen (.attribute base attr) o seenType ho hlast

theorem Sound.afterOr {c : Cond C} (hs : env.Sound s) (hsettled : Settled program c s)
    (hfalse : env.Fits (narrowing program c s).whenFalse) :
    env.Sound ((narrowing program c s).afterOr program c s) := by
  apply Sound.refineAll _ hfalse
  apply hs.refineAll_seen (restores_of_settled hsettled)
  · exact (agreesOff_afterAnd c s).visited program c
  · intro base attr type hseen htype
    have htype := visited_refinedFields c htype
    rw [Narrowing.afterAnd, TypeState.refineAll_refinedFields,
      (narrowing_isCovered c s _ hseen).1, none_or] at htype
    exact visited_refinedFields c htype

mutual

theorem Sound.fits_narrowing : ∀ (c : Cond C) {s : TypeState C} {outcome : Bool},
    env.Sound s → Settled program c s → AllReversible program world outcome c s →
    env.eval c = some outcome → env.Fits ((narrowing program c s).when outcome)
  | .test _ _, _, _, hs, _, hreversible, heval => hs.fits_testNarrowing hreversible heval
  | .other _ _ _, _, outcome, _, _, _, _ => by cases outcome <;> exact Fits.nil
  | .ifExp _ _ _ _, _, outcome, _, _, _, _ => by cases outcome <;> exact Fits.nil
  | .not operand, s, outcome, hs, hsettled, hreversible, heval => by
      obtain ⟨negated, hoperand, rfl⟩ := map_eq_some_iff.mp heval
      have hoperand' : env.eval operand = some (!!negated) := by
        rw [Bool.not_not]
        exact hoperand
      have hfits := Sound.fits_narrowing operand hs hsettled hreversible hoperand'
      cases negated <;> exact hfits
  | .and values, s, outcome, hs, hsettled, hreversible, heval => by
      cases outcome with
      | true => exact Sound.fits_narrowingAnd values hs hsettled.1 (hreversible rfl) heval
      | false => exact hs.fits_seen hsettled.2
  | .or values last, s, outcome, hs, hsettled, hreversible, heval => by
      cases outcome with
      | true => exact Fits.nil
      | false =>
        obtain ⟨hvalues, hlast, -, -⟩ := hsettled
        obtain ⟨hrevValues, hrevLast⟩ := hreversible rfl
        obtain ⟨valuesOutcome, hvaluesEval, hlastEval⟩ := bind_eq_some_iff.mp heval
        cases valuesOutcome with
        | true => cases hlastEval
        | false =>
          obtain ⟨hfits, hs'⟩ :=
            Sound.fits_narrowingOr values hs hvalues hrevValues hvaluesEval
          exact hfits.append (Sound.fits_narrowing last hs' hlast hrevLast hlastEval)

theorem Sound.fits_narrowingAnd : ∀ (cs : List (Cond C)) {s : TypeState C},
    env.Sound s → SettledAnd program cs s → AllReversibleAnd program world cs s →
    env.evalAnd cs = some true → env.Fits (narrowingAnd program cs s).1.whenTrue
  | [], _, _, _, _, _ => Fits.nil
  | c :: cs, s, hs, hsettled, hreversible, heval => by
      obtain ⟨outcome, hc, hcs⟩ := bind_eq_some_iff.mp heval
      cases outcome with
      | false => cases hcs
      | true =>
        have hfits := Sound.fits_narrowing c hs hsettled.1 hreversible.1 hc
        have hnext := (Sound.visited c hs).refineAll hfits
        exact hfits.append
          (Sound.fits_narrowingAnd cs hnext hsettled.2 hreversible.2 hcs)

theorem Sound.fits_narrowingOr : ∀ (cs : List (Cond C)) {s : TypeState C},
    env.Sound s → SettledOr program cs s → AllReversibleOr program world cs s →
    env.evalOr cs = some false →
    env.Fits (narrowingOr program cs s).1.whenFalse ∧
      env.Sound (narrowingOr program cs s).2
  | [], _, hs, _, _, _ => ⟨Fits.nil, hs⟩
  | c :: cs, s, hs, hsettled, hreversible, heval => by
      obtain ⟨outcome, hc, hcs⟩ := bind_eq_some_iff.mp heval
      cases outcome with
      | true => cases hcs
      | false =>
        have hfits := Sound.fits_narrowing c hs hsettled.1 hreversible.1 hc
        have hnext := hs.afterOr hsettled.1 hfits
        obtain ⟨hfits', hs'⟩ :=
          Sound.fits_narrowingOr cs hnext hsettled.2.2 hreversible.2 hcs
        exact ⟨hfits.append hfits', hs'⟩

end

end Environment

def Effect.applyOrReverse (e : Effect C) (moves : List Bool) (s : TypeState C) :
    TypeState C :=
  moves.foldl (fun s move => if move then e.apply s else e.reverse s) s

theorem Effect.Describes.agreesOff_applyOrReverse {e : Effect C} {c : Cond C}
    {s : TypeState C} (h : e.Describes (narrowing program c s)) (moves : List Bool) :
    ∀ {s' : TypeState C}, AgreesOff (narrowing program c s).seen s s' →
      AgreesOff (narrowing program c s).seen s (e.applyOrReverse moves s') := by
  induction moves with
  | nil => exact fun hs => hs
  | cons move moves ih =>
    intro s' hs
    apply ih
    cases move with
    | true =>
      dsimp only
      rw [if_pos rfl, h.apply]
      exact hs.refineAll fun path hpath => (narrowing_isCovered c s path hpath).1
    | false =>
      dsimp only
      rw [if_neg Bool.false_ne_true, h.reverse]
      exact hs.refineAll fun path hpath => (narrowing_isCovered c s path hpath).2

structure EffectsDenote (program : Program C) (world : World program.table) (c : Cond C)
    (s : TypeState C) : Prop where
  visit_localTypes : (visit program c s).2.localTypes = s.localTypes
  visit_sound : ∀ env : Environment program world, env.Sound s →
    env.Sound (visit program c s).2
  apply_sound : ∀ env : Environment program world, env.Sound s → env.eval c = some true →
    env.Sound ((visit program c s).1.apply (visit program c s).2)
  reverse_sound : ∀ env : Environment program world, env.Sound s →
    env.eval c = some false →
    env.Sound ((visit program c s).1.reverse (visit program c s).2)
  undo_localTypes : ∀ moves, ((visit program c s).1.undo
    ((visit program c s).1.applyOrReverse moves (visit program c s).2)).localTypes =
      s.localTypes

def sampleTable : ClassTable (Fin 4) where
  mro c := if c = 0 then [0] else [c, 0]
  alwaysExact c := c = 1
  object := 0
  noneType := 1
  mro_self := by decide
  mro_object := by decide
  mro_trans := by decide
  alwaysExact_final := by decide
  alwaysExact_noneType := by decide

def sampleOptional : Value (Fin 4) := .union [.nominal 2 false, .nominal 1 true]

theorem sampleOptional_has : sampleOptional.has sampleTable 2 :=
  ⟨.nominal 2 false, .head _, show (2 : Fin 4) ∈ sampleTable.mro 2 by decide⟩

def sampleProgram : Program (Fin 4) :=
  ⟨sampleTable, fun _ attr => if attr = "a" then some sampleOptional else none⟩

def sampleWorld : World sampleTable where
  Obj := Fin 4
  classOf o := o
  truthy o := o ≠ 1
  none_falsy := by decide

def sampleState : TypeState (Fin 4) where
  localTypes x := if x = "x" then sampleOptional else .inst (.nominal 0 false)
  refinedFields _ _ := none

def sampleEnvironment : Environment sampleProgram sampleWorld where
  locals _ := (2 : Fin 4)
  field _ attr := if attr = "a" then some (2 : Fin 4) else none
  slots base attr type slot o hslot _ ho := by
    by_cases hattr : attr = "a"
    · cases (if_pos hattr).symm.trans hslot
      cases (if_pos hattr).symm.trans ho
      exact sampleOptional_has
    · cases (if_neg hattr).symm.trans hslot
  other _ := none
  isUnknown _ _ := none
  isUnresolved _ _ := none

def sampleCondition : Cond (Fin 4) :=
  .and [.test (.name "x") .isNotNone, .test (.attribute "y" "a") .isNotNone,
    .not (.test (.name "y") (.isInstance (.one 3)))]

end CinderX.StaticPython
