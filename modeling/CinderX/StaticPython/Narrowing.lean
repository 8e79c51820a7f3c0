import CinderX.StaticPython.NarrowingEffects

/-!
# The narrowing a condition stands for

`narrowing` says, without effects, which types a condition gives to the paths it
tests when it is true and when it is false, and the types it saw them at.  Where
the last test of every path in a chain saw it at the type it has at the chain's
beginning (`Settled`), undoing a chain restores the locals.
-/

namespace CinderX.StaticPython

abbrev Refinements (C : Type) := List (List Identifier × Value C)

section Refinements

variable {C : Type}

def TypeState.refineAll (s : TypeState C) (w : Refinements C) : TypeState C :=
  w.foldl (fun s r => s.refineType r.1 r.2) s

def lastType (path : List Identifier) : Refinements C → Option (Value C)
  | [] => none
  | r :: w => (lastType path w).or (if r.1 = path then some r.2 else none)

@[simp] theorem lastType_nil (path : List Identifier) :
    lastType path ([] : Refinements C) = none := rfl

theorem lastType_append (path : List Identifier) (w w' : Refinements C) :
    lastType path (w ++ w') = (lastType path w').or (lastType path w) := by
  induction w with
  | nil => simp
  | cons r w ih =>
    simp only [List.cons_append, lastType]
    rw [ih, Option.or_assoc]

theorem lastType_append_eq_none {path : List Identifier} {w w' : Refinements C} :
    lastType path (w ++ w') = none ↔ lastType path w = none ∧ lastType path w' = none := by
  rw [lastType_append, Option.or_eq_none_iff]
  exact And.comm

theorem TypeState.refineAll_append (s : TypeState C) (w w' : Refinements C) :
    s.refineAll (w ++ w') = (s.refineAll w).refineAll w' :=
  List.foldl_append

theorem TypeState.refineType_localTypes (s : TypeState C) (path : List Identifier)
    (type : Value C) (x : Identifier) :
    (s.refineType path type).localTypes x =
      (if path = [x] then some type else none).getD (s.localTypes x) := by
  unfold refineType
  split
  next y =>
    by_cases hy : y = x
    · simp [hy]
    · simp [hy, Function.update_of_ne (Ne.symm hy)]
  · simp
  next hone _ =>
    have hpath : path ≠ [x] := fun h => hone x h
    simp [hpath]

theorem TypeState.refineType_refinedFields (s : TypeState C) (path : List Identifier)
    (type : Value C) (base attr : Identifier) :
    (s.refineType path type).refinedFields base attr =
      (if path = [base, attr] then some type else none).or (s.refinedFields base attr) := by
  unfold refineType
  split
  · simp
  next b a =>
    by_cases hsame : base = b ∧ attr = a
    · obtain ⟨rfl, rfl⟩ := hsame
      simp
    · have hpath : ¬(b = base ∧ a = attr) := fun h => hsame ⟨h.1.symm, h.2.symm⟩
      simp [hsame, hpath]
  next _ htwo =>
    have hpath : path ≠ [base, attr] := fun h => htwo base attr h
    simp [hpath]

theorem TypeState.refineAll_localTypes (w : Refinements C) (x : Identifier) :
    ∀ s : TypeState C,
      (s.refineAll w).localTypes x = (lastType [x] w).getD (s.localTypes x) := by
  induction w with
  | nil => exact fun _ => rfl
  | cons r w ih =>
    intro s
    have htail := ih (s.refineType r.1 r.2)
    rw [refineType_localTypes] at htail
    simp only [lastType]
    cases hw : lastType [x] w with
    | none => simpa [hw, refineAll] using htail
    | some type => simpa [hw, refineAll] using htail

theorem TypeState.refineAll_refinedFields (w : Refinements C) (base attr : Identifier) :
    ∀ s : TypeState C, (s.refineAll w).refinedFields base attr =
      (lastType [base, attr] w).or (s.refinedFields base attr) := by
  induction w with
  | nil => exact fun _ => rfl
  | cons r w ih =>
    intro s
    have htail := ih (s.refineType r.1 r.2)
    rw [refineType_refinedFields, ← Option.or_assoc] at htail
    exact htail

@[simp] theorem TypeState.clearUnless_localTypes (s : TypeState C) (preserve : Bool) :
    (s.clearUnless preserve).localTypes = s.localTypes := by
  cases preserve <;> rfl

theorem TypeState.clearUnless_refinedFields {s : TypeState C} {preserve : Bool}
    {base attr : Identifier} {type : Value C}
    (h : (s.clearUnless preserve).refinedFields base attr = some type) :
    s.refinedFields base attr = some type := by
  cases preserve with
  | true => exact h
  | false => simp [clearUnless] at h

end Refinements

variable {C : Type} [DecidableEq C] (program : Program C)

/-- The type after a test came out as `outcome`, where the test narrows. -/
def TestKind.narrow (type : Value C) (outcome : Bool) : TestKind C → Option (Value C)
  | .isInstance arg =>
    (arg.classType program).map fun inst =>
      if outcome then inst else reverseType program type inst
  | kind =>
    match type with
    | .inst _ => none
    | .union _ =>
      some <|
        if outcome = (kind matches .isNone) then noneInstance program
        else reverseType program type (noneInstance program)

structure Narrowing (C : Type) where
  whenTrue : Refinements C
  whenFalse : Refinements C
  seen : Refinements C

namespace Narrowing

def nothing : Narrowing C := ⟨[], [], []⟩

def swap (n : Narrowing C) : Narrowing C := ⟨n.whenFalse, n.whenTrue, n.seen⟩

def append (n m : Narrowing C) : Narrowing C :=
  ⟨n.whenTrue ++ m.whenTrue, n.whenFalse ++ m.whenFalse, n.seen ++ m.seen⟩

def when (n : Narrowing C) (outcome : Bool) : Refinements C :=
  if outcome then n.whenTrue else n.whenFalse

end Narrowing

def testNarrowing (s : TypeState C) (target : Target) (kind : TestKind C) : Narrowing C :=
  match target, kind, refinableType program s target with
  | .attribute _ _, .truthy, _ => .nothing
  | target, kind, some type =>
    match kind.narrow program type true, kind.narrow program type false with
    | some whenTrue, some whenFalse =>
      ⟨[(target.accessPath, whenTrue)], [(target.accessPath, whenFalse)],
        [(target.accessPath, type)]⟩
    | _, _ => .nothing
  | _, _, none => .nothing

mutual

def visited : Cond C → TypeState C → TypeState C
  | .test target kind, s => s.clearUnless (testPreserves program s target kind)
  | .other _ preserve operands, s => (visitedOperands operands s).clearUnless preserve
  | _, s => s.clearUnless false

def visitedOperands : List (Cond C) → TypeState C → TypeState C
  | [], s => s
  | c :: cs, s => visitedOperands cs (visited c s)

end

def Narrowing.afterAnd (n : Narrowing C) (c : Cond C) (s : TypeState C) : TypeState C :=
  (visited program c s).refineAll n.whenTrue

def Narrowing.afterOr (n : Narrowing C) (c : Cond C) (s : TypeState C) : TypeState C :=
  ((visited program c (n.afterAnd program c s)).refineAll n.seen).refineAll n.whenFalse

mutual

def narrowing : Cond C → TypeState C → Narrowing C
  | .test target kind, s => testNarrowing program s target kind
  | .other _ _ _, _ => .nothing
  | .ifExp _ _ _ _, _ => .nothing
  | .not operand, s => (narrowing operand s).swap
  | .and values, s =>
    let n := (narrowingAnd values s).1
    ⟨n.whenTrue, n.seen, n.seen⟩
  | .or values last, s =>
    let n := narrowingOr values s
    let m := narrowing last n.2
    ⟨[], n.1.whenFalse ++ m.whenFalse, n.1.seen ++ m.seen⟩

def narrowingAnd : List (Cond C) → TypeState C → Narrowing C × TypeState C
  | [], s => (.nothing, s)
  | c :: cs, s =>
    let n := narrowing c s
    let m := narrowingAnd cs (n.afterAnd program c s)
    (n.append m.1, m.2)

def narrowingOr : List (Cond C) → TypeState C → Narrowing C × TypeState C
  | [], s => (.nothing, s)
  | c :: cs, s =>
    let n := narrowing c s
    let m := narrowingOr cs (n.afterOr program c s)
    (n.append m.1, m.2)

end

/-- The last type seen of each local is the one it has in `s`. -/
def RestoresLocals (s : TypeState C) (seen : Refinements C) : Prop :=
  ∀ x type, lastType [x] seen = some type → type = s.localTypes x

/-- The last type seen of each target is the one it has in `s`. -/
def Restores (s : TypeState C) (seen : Refinements C) : Prop :=
  ∀ target type, lastType target.accessPath seen = some type →
    refinableType program s target = some type

mutual

/-- In every `and` and every `or`, wherever it is visited, the last test of each
target is made at the type the target has at the chain's beginning. -/
def Settled : Cond C → TypeState C → Prop
  | .test _ _, _ => True
  | .other _ _ operands, s => SettledOperands operands s
  | .ifExp test isBool body orelse, s =>
    let n := narrowing program test s
    let s₁ := (n.afterAnd program test s).clearUnless isBool
    Settled test s ∧ Settled body s₁ ∧
      Settled orelse ((visited program body s₁).refineAll n.whenFalse)
  | .not operand, s => Settled operand s
  | .and values, s =>
    SettledAnd values s ∧ Restores program s (narrowingAnd program values s).1.seen
  | .or values last, s =>
    let n := narrowingOr program values s
    SettledOr values s ∧ Settled last n.2 ∧ RestoresLocals s n.1.seen ∧
      Restores program s (n.1.seen ++ (narrowing program last n.2).seen)

def SettledOperands : List (Cond C) → TypeState C → Prop
  | [], _ => True
  | c :: cs, s => Settled c s ∧ SettledOperands cs (visited program c s)

def SettledAnd : List (Cond C) → TypeState C → Prop
  | [], _ => True
  | c :: cs, s =>
    Settled c s ∧ SettledAnd cs ((narrowing program c s).afterAnd program c s)

def SettledOr : List (Cond C) → TypeState C → Prop
  | [], _ => True
  | c :: cs, s =>
    let n := narrowing program c s
    Settled c s ∧ Settled c (n.afterAnd program c s) ∧
      SettledOr cs (n.afterOr program c s)

end

end CinderX.StaticPython
