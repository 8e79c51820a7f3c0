import CinderX.StaticPython.ClassTypes
import CinderX.StaticPython.PythonAst

/-!
# Narrowing effects and the conditions they are built for

`Effect` is `effects.py` with `IsInstanceEffect`; `visit` is what `TypeBinder`
does to its type state while it binds a condition, and the effect it returns.
-/

namespace CinderX.StaticPython

structure TypeState (C : Type) where
  localTypes : Identifier → Value C
  refinedFields : Identifier → Identifier → Option (Value C)

namespace TypeState

variable {C : Type}

/-- `_refine_type`: a path of one name is a local, one of two an attribute of a
local. -/
def refineType (path : List Identifier) (type : Value C) (s : TypeState C) : TypeState C :=
  match path with
  | [x] => { s with localTypes := Function.update s.localTypes x type }
  | [base, attr] =>
    { s with refinedFields := fun b a =>
        if b = base ∧ a = attr then some type else s.refinedFields b a }
  | _ => s

def clearUnless (preserve : Bool) (s : TypeState C) : TypeState C :=
  if preserve then s else { s with refinedFields := fun _ _ => none }

end TypeState

inductive Effect (C : Type) where
  | noEffect
  | isInstance (path : List Identifier) (prev inst rev : Value C)
  | and (effects : List (Effect C))
  | or (effects : List (Effect C))
  | negation (negated : Effect C)

namespace Effect

variable {C : Type}

/-- `and_`: an `AndEffect` takes the effects of another one in; `OrEffect` has a
method of this name too. -/
def andWith : Effect C → Effect C → Effect C
  | e, .noEffect => e
  | .and effects, .and others => .and (effects ++ others)
  | .and effects, other => .and (effects ++ [other])
  | .or effects, .or others => .or (effects ++ others)
  | .or effects, other => .or (effects ++ [other])
  | e, other => .and [e, other]

def orWith : Effect C → Effect C → Effect C
  | e, .noEffect => e
  | e, other => .or [e, other]

def negate : Effect C → Effect C
  | .negation negated => negated
  | e => .negation e

mutual

def apply : Effect C → TypeState C → TypeState C
  | .noEffect, s => s
  | .isInstance path _ inst _, s => s.refineType path inst
  | .and effects, s => applyAll effects s
  | .or _, s => s
  | .negation negated, s => reverse negated s

def undo : Effect C → TypeState C → TypeState C
  | .noEffect, s => s
  | .isInstance path prev _ _, s => s.refineType path prev
  | .and effects, s => undoAll effects s
  | .or effects, s => undoAll effects s
  | .negation negated, s => undo negated s

def reverse : Effect C → TypeState C → TypeState C
  | .noEffect, s => s
  | .isInstance path _ _ rev, s => s.refineType path rev
  | .and effects, s => undoAll effects s
  | .or effects, s => reverseAll effects s
  | .negation negated, s => apply negated s

def applyAll : List (Effect C) → TypeState C → TypeState C
  | [], s => s
  | e :: es, s => applyAll es (apply e s)

def undoAll : List (Effect C) → TypeState C → TypeState C
  | [], s => s
  | e :: es, s => undoAll es (undo e s)

def reverseAll : List (Effect C) → TypeState C → TypeState C
  | [], s => s
  | e :: es, s => reverseAll es (reverse e s)

end

end Effect

/-! ## Conditions -/

inductive Target where
  | name (id : Identifier)
  | attribute (base attr : Identifier)

def Target.accessPath : Target → List Identifier
  | .name id => [id]
  | .attribute base attr => [base, attr]

/-- The second argument of `isinstance`: a class, a tuple of classes, a name of
unknown (dynamic) type, or something that has no class type. -/
inductive ClassArg (C : Type) where
  | one (name : C)
  | tuple (names : List C)
  | unknown (id : Nat)
  | unresolved (id : Nat)

inductive TestKind (C : Type) where
  | isInstance (arg : ClassArg C)
  | isNone
  | isNotNone
  | truthy

/-- `other` is any other expression, with the expressions that are bound along with
it; `preserve` tells whether its node keeps refined fields, and `isBool` whether the
type of an `ifExp`'s test is `bool`. -/
inductive Cond (C : Type) where
  | test (target : Target) (kind : TestKind C)
  | other (id : Nat) (preserve : Bool) (operands : List (Cond C))
  | ifExp (test : Cond C) (isBool : Bool) (body orelse : Cond C)
  | not (operand : Cond C)
  | and (values : List (Cond C))
  | or (values : List (Cond C)) (last : Cond C)

/-- The class table and the types of the slots, from the type of the object. -/
structure Program (C : Type) where
  table : ClassTable C
  findSlot : Value C → Identifier → Option (Value C)

section Binder

variable {C : Type} [DecidableEq C] (program : Program C)

/-- The type recorded for a refinable node, `none` where it is not refinable. -/
def refinableType (s : TypeState C) : Target → Option (Value C)
  | .name id => some (s.localTypes id)
  | .attribute base attr =>
    (program.findSlot (s.localTypes base) attr).map (s.refinedFields base attr).getD

def reverseType (prev inst : Value C) : Value C :=
  match prev with
  | .union typeArgs =>
    getUnion program.table (typeArgs.filter (!inst.canAssignFrom program.table ·))
  | prev => prev

def isInstanceEffect (path : List Identifier) (prev inst : Value C) : Effect C :=
  .isInstance path prev inst (reverseType program prev inst)

/-- `klass_type.inexact_type().instance` of `IsInstanceFunction.bind_call`. -/
def ClassArg.classType : ClassArg C → Option (Value C)
  | .one name => some ((Value.inst (.named program.table name)).inexactType program.table)
  | .tuple names =>
    some ((getUnion program.table (names.map (.named program.table))).inexactType
      program.table)
  | .unknown _ => some ((Value.inst .dynamic).inexactType program.table)
  | .unresolved _ => none

def noneInstance : Value C := .inst (.named program.table program.table.noneType)

def refineTruthy (path : List Identifier) (type : Value C) : Option (Effect C) :=
  match type with
  | .union _ => some (isInstanceEffect program path type (noneInstance program)).negate
  | .inst _ => none

/-- `bind_call` of `isinstance`, `visitCompare` with `is` and `is not`, and
`visitName`. -/
def TestKind.effect (path : List Identifier) (type : Value C) : TestKind C → Effect C
  | .isInstance arg =>
    match arg.classType program with
    | some inst => isInstanceEffect program path type inst
    | none => .noEffect
  | .isNone => ((refineTruthy program path type).map (·.negate)).getD .noEffect
  | .isNotNone => (refineTruthy program path type).getD .noEffect
  | .truthy => (refineTruthy program path type).getD .noEffect

/-- `visitAttribute` has no effect of its own, so the truth of an attribute does not
refine it. -/
def testEffect (s : TypeState C) (target : Target) (kind : TestKind C) : Effect C :=
  match target, kind, refinableType program s target with
  | .attribute _ _, .truthy, _ => .noEffect
  | target, kind, some type => kind.effect program target.accessPath type
  | _, _, none => .noEffect

def testPreserves (s : TypeState C) (target : Target) : TestKind C → Bool
  | .isInstance _ => false
  | _ => (refinableType program s target).isSome

mutual

/-- What `TypeBinder` does to the type state while it visits a condition, with the
effect that it returns. -/
def visit : Cond C → TypeState C → Effect C × TypeState C
  | .test target kind, s =>
    (testEffect program s target kind,
      s.clearUnless (testPreserves program s target kind))
  | .other _ preserve operands, s =>
    (.noEffect, (visitOperands operands s).clearUnless preserve)
  | .ifExp test isBool body orelse, s =>
    let tested := visit test s
    let s := (visit body ((tested.1.apply tested.2).clearUnless isBool)).2
    let s := (visit orelse (tested.1.reverse s)).2
    (.noEffect, (tested.1.undo s).clearUnless false)
  | .not operand, s =>
    let visited := visit operand s
    (match visited.1 with
      | .noEffect => .noEffect
      | effect => effect.negate,
      visited.2.clearUnless false)
  | .and values, s =>
    let visited := visitAnd values .noEffect s
    (visited.1, (visited.1.undo visited.2).clearUnless false)
  | .or values last, s =>
    let visited := visitOr values .noEffect s
    let lastVisited := visit last visited.2
    (visited.1.orWith lastVisited.1, (visited.1.undo lastVisited.2).clearUnless false)

def visitOperands : List (Cond C) → TypeState C → TypeState C
  | [], s => s
  | c :: cs, s => visitOperands cs (visit c s).2

def visitAnd : List (Cond C) → Effect C → TypeState C → Effect C × TypeState C
  | [], effect, s => (effect, s)
  | c :: cs, effect, s =>
    let visited := visit c s
    visitAnd cs (effect.andWith visited.1) (visited.1.apply visited.2)

/-- All operands of an `or` but the last: each is visited once more with its effect
applied. -/
def visitOr : List (Cond C) → Effect C → TypeState C → Effect C × TypeState C
  | [], effect, s => (effect, s)
  | c :: cs, effect, s =>
    let visited := visit c s
    let s := (visit c (visited.1.apply visited.2)).2
    visitOr cs (effect.orWith visited.1) (visited.1.reverse (visited.1.undo s))

end

end Binder

end CinderX.StaticPython
