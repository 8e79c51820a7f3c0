import CinderX.Foundation.Behaviour
import CinderX.StaticPython.DefiniteAssignment

/-!
# Running a body

The state is the set of the scope's names that are bound.  Every expression may
raise, control may go either way at every test, and code that is called may bind
and delete the names it shares with the scope.  A run may be observed only up to
some moment (`stopped`), so the runs of a body include every prefix of its
infinite runs.

The events record each load of a name and, besides, the steps in which the run
does not follow the text once from top to bottom.
-/

namespace CinderX.StaticPython

open Foundation

abbrev Bound := Finset Identifier

/-- * `called`: other code ran.
* `disorder`: the parts are not evaluated once each in the order of the text.
* `named`, `annotated`: the value of an assignment expression or an annotated
  assignment is about to be evaluated; the text has its target first.
* `augmented`: the value of an augmented assignment to a name is about to be
  evaluated.
* `unvisited`: the type of an `except` clause, or an annotated target without a
  value, is about to be evaluated.
* `again`: a loop that was begun in `entry` goes round.
* `jumped`: an exception, a `break` or a `continue` leaves a body that was begun
  in `entry`.
* `unwound`: a `finally` block is entered by an exception or a jump.
* `finished`: a `finally` block without handlers, entered from the end of the
  `try` body in `before`, ends.
* `suppressed`: a `with` statement begun in `entry` swallows an exception.
* `unbound`: an `except` clause deletes its name; the `try` was begun in
  `entry`. -/
inductive Event where
  | load (node : Nat) (id : Identifier) (bound : Bound)
  | called (before after : Bound)
  | disorder (parts : List Expr) (bound : Bound)
  | named (target : Identifier) (value : Expr) (bound : Bound)
  | annotated (target ann value : Expr) (bound : Bound)
  | augmented (value : Expr) (bound : Bound)
  | unvisited (parts : List Expr) (bound : Bound)
  | again (head : Expr) (body : List Stmt) (entry now : Bound)
  | jumped (entry now : Bound)
  | unwound (finalbody : List Stmt) (entry now : Bound)
  | finished (body : List Stmt) (before after : Bound)
  | suppressed (parts : List Expr) (entry now : Bound)
  | unbound (name : Identifier) (entry : Bound)

abbrev Run := Behaviour Bound Event

namespace Run

open Behaviour

/-- What may happen wherever the interpreter does something on its own: other
code runs, an exception is raised, the observation ends. -/
def hazard : Run := fun s t o s' =>
  t = [.called s s'] ∧ (o = .normal ∨ o = .raised ∨ o = .stopped)

mutual

def targetNames : Expr → List Identifier
  | .name _ id .store => [id]
  | .other operands => allTargetNames operands
  | _ => []

def allTargetNames : List Expr → List Identifier
  | [] => []
  | e :: es => targetNames e ++ allTargetNames es

end

def inAnyOrder (parts : List Expr) (inOrder drawn : Run) : Run :=
  choice inOrder ((emit (.disorder parts)).seq (loop drawn skip))

mutual

/-- `shadow` has the names of the comprehensions around the expression, which
are names of other scopes. -/
def evalExpr (shadow : List Identifier) : Expr → Run
  | .name node id .load =>
    if id ∈ shadow then hazard else (emit (.load node id)).seq hazard
  | .name _ id .store =>
    hazard.seq (update fun bound => if id ∈ shadow then bound else insert id bound)
  | .namedExpr target value =>
    (emit (.named target value)).seq
      ((evalExpr shadow value).seq (update (insert target)))
  | .boolOp left values =>
    (evalExpr shadow left).seq (hazard.seq (evalOperands shadow values))
  | .ifExp test body orelse =>
    (evalExpr shadow test).seq (hazard.seq
      (choice ((evalExpr shadow body).seq (emit (.disorder [orelse])))
        ((emit (.disorder [body])).seq (evalExpr shadow orelse))))
  | .compare left right comparators =>
    (evalExpr shadow left).seq ((evalExpr shadow right).seq
      (hazard.seq (evalOperands shadow comparators)))
  | .lambda args _ => inAnyOrder args (evalExprs shadow args) (evalAny shadow args)
  | .comprehension elts target iter rest =>
    let inner := shadow ++ targetNames target ++ allTargetNames rest
    (emit (.disorder (elts ++ target :: iter :: rest))).seq
      ((evalExpr shadow iter).seq
        (loop (choice (evalAny inner elts)
          (choice (evalExpr inner target) (evalAny inner rest))) skip))
  | .other operands =>
    (inAnyOrder operands (evalExprs shadow operands) (evalAny shadow operands)).seq
      hazard

def evalExprs (shadow : List Identifier) : List Expr → Run
  | [] => skip
  | e :: es => (evalExpr shadow e).seq (evalExprs shadow es)

def evalAny (shadow : List Identifier) : List Expr → Run
  | [] => skip
  | e :: es => choice (evalExpr shadow e) (evalAny shadow es)

/-- Further operands of `and`, `or` or a chained comparison: evaluation may stop
before each of them. -/
def evalOperands (shadow : List Identifier) : List Expr → Run
  | [] => skip
  | e :: es =>
    choice (emit (.disorder (e :: es)))
      ((evalExpr shadow e).seq (hazard.seq (evalOperands shadow es)))

end

def evalParts (parts : List Expr) : Run :=
  inAnyOrder parts (evalExprs [] parts) (evalAny [] parts)

def evalUnvisited (parts : List Expr) : Run :=
  (emit (.unvisited parts)).seq (evalExprs [] parts)

def bindName (id : Identifier) : Run := hazard.seq (update (insert id))

def bindNames : List Identifier → Run
  | [] => skip
  | name :: names => (bindName name).seq (bindNames names)

def deleteName (id : Identifier) : Run :=
  withEntry fun bound =>
    if id ∈ bound then hazard.seq (update fun b => b.erase id) else ends .raised

def deleteTargets : List DelTarget → Run
  | [] => skip
  | .name _ id :: targets => (deleteName id).seq (deleteTargets targets)
  | .other target :: targets =>
    (evalExpr [] target).seq (hazard.seq (deleteTargets targets))

def augmentedAssign (target value : Expr) : Run :=
  match target with
  | .name node id _ =>
    (emit (.load node id)).seq (hazard.seq
      (((emit (.augmented value)).seq (evalExpr [] value)).seq (bindName id)))
  | target => (evalExpr [] target).seq ((evalExpr [] value).seq hazard)

/-- The annotation is evaluated in a module or a class, not for the name of a
local; without a value the target's operands are evaluated and nothing is
bound. -/
def annotatedAssign (target ann : Expr) (value : Option Expr) : Run :=
  match value with
  | some value =>
    (emit (.annotated target ann value)).seq
      ((evalExpr [] value).seq ((evalExpr [] target).seq
        (choice skip (evalExpr [] ann))))
  | none =>
    let evalAnnotation := choice skip (evalUnvisited [ann])
    match target with
    | .name _ _ _ => evalAnnotation
    | target => (evalUnvisited [target]).seq evalAnnotation

def endRound (head : Expr) (body : List Stmt) (start entry : Bound) :
    Completion → Run
  | .normal => emit (.again head body start)
  | .continued => (emit (.jumped entry)).seq (emit (.again head body start))
  | .broken => (emit (.jumped entry)).seq (ends .broken)
  | o => ends o

/-- A `finally` block after the rest of the statement completed with `o`. -/
def finish (plain : Bool) (body finalbody : List Stmt) (entry : Bound)
    (runFinal : Run) (o : Completion) : Run :=
  match o with
  | .normal =>
    withEntry fun before =>
      runFinal.seq (if plain then emit (.finished body before) else skip)
  | .stopped => ends .stopped
  | o => (emit (.unwound finalbody entry)).seq (runFinal.seq (ends o))

/-- An `except` clause: its name is bound before the body and deleted after it,
however the body ends. -/
def runHandler (name : Option Identifier) (entry : Bound) (body : Run) : Run :=
  match name with
  | none => (emit (.jumped entry)).seq body
  | some name =>
    (emit (.jumped entry)).seq ((bindName name).seq
      (body.bind fun o =>
        match o with
        | .stopped => ends .stopped
        | o =>
          (emit fun _ => .unbound name entry).seq
            ((update fun b => b.erase name).seq (ends o))))

/-- The managers are entered one after the other; once the first is entered an
exception may be swallowed. -/
def runWith (parts : List Expr) (body : Run) : Run :=
  match parts with
  | [] => body
  | context :: rest =>
    withEntry fun entry =>
      (evalExpr [] context).seq (hazard.seq
        (((evalExprs [] rest).seq (hazard.seq body)).bind fun o =>
          match o with
          | .raised => hazard.seq (choice (ends .raised) (emit (.suppressed parts entry)))
          | o => hazard.seq (ends o)))

mutual

def execStmt : Stmt → Run
  | .expr value => evalExpr [] value
  | .assign targets value => (evalExpr [] value).seq (evalExprs [] targets)
  | .augAssign target value => augmentedAssign target value
  | .annAssign target ann value => annotatedAssign target ann value
  | .delete targets => deleteTargets targets
  | .importNames names => bindNames (names.map (·.importedName))
  | .importFrom names => bindNames (names.map (·.fromName))
  | .functionDef name args returns decorators =>
    (evalParts (args ++ returns.toList ++ decorators)).seq (bindName name)
  | .classDef name bases keywords decorators =>
    (evalParts (bases ++ keywords ++ decorators)).seq (bindName name)
  | .ifStmt test body orelse =>
    (evalExpr [] test).seq (hazard.seq (choice (execBody body) (execBody orelse)))
  | .whileStmt test body orelse =>
    withEntry fun start =>
      loop
        ((evalExpr [] test).seq (hazard.seq (withEntry fun entry =>
          (execBody body).bind (endRound test body start entry))))
        ((evalExpr [] test).seq (hazard.seq (execBody orelse)))
  | .forStmt target iter body orelse =>
    (evalExpr [] iter).seq (hazard.seq (withEntry fun start =>
      loop
        (withEntry fun entry =>
          hazard.seq ((evalExpr [] target).seq
            ((execBody body).bind (endRound target body start entry))))
        (hazard.seq (execBody orelse))))
  | .withStmt items body => runWith (items.flatMap (·.parts)) (execBody body)
  | .tryStmt body handlers orelse finalbody =>
    withEntry fun entry =>
      ((execBody body).bind fun o =>
        match o with
        | .normal => if handlers.isEmpty then skip else execBody orelse
        | .raised => execHandlers entry handlers
        | o => ends o).bind
      (finish handlers.isEmpty body finalbody entry (execBody finalbody))
  | .raiseStmt parts => (evalExprs [] parts).seq (ends .raised)
  | .returnStmt value => (evalExprs [] value.toList).seq (ends .returned)
  | .breakStmt => ends .broken
  | .continueStmt => ends .continued
  | .pass => skip

def execBody : List Stmt → Run
  | [] => skip
  | s :: ss => (execStmt s).seq (execBody ss)

/-- The handlers in turn: the clause's type is evaluated, and either it is
entered or the next is tried. -/
def execHandlers (entry : Bound) : List ExceptHandler → Run
  | [] => ends .raised
  | .mk type name body :: handlers =>
    (evalUnvisited type.toList).seq (hazard.seq
      (choice (runHandler name entry (execBody body))
        (execHandlers entry handlers)))

end

end Run

end CinderX.StaticPython
