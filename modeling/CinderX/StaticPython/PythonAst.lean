import CinderX.Foundation.Basic

/-!
# The syntax the definite assignment checker walks

The fields keep the order of the `ast` classes' `_fields`, which is the order
`NodeVisitor.generic_visit` visits them in.  A `Name` in `Load` context carries
the node's identity, since the checker collects nodes.
-/

namespace CinderX.StaticPython

abbrev Identifier := String

inductive ExprContext where
  | load | store
  deriving DecidableEq, Repr

/-- `comprehension` is a list, set or dict comprehension or a generator
expression: its elements, the target and the iterable of its first generator,
and what follows of its generators.  `lambda` has the expressions of its
arguments (annotations and defaults).  `other` is every expression that evaluates
its operands (calls, attributes, subscripts, displays, constants) and, in a
target, the tuple, list or starred form. -/
inductive Expr where
  | name (node : Nat) (id : Identifier) (ctx : ExprContext)
  | namedExpr (target : Identifier) (value : Expr)
  | boolOp (left : Expr) (values : List Expr)
  | ifExp (test body orelse : Expr)
  | compare (left right : Expr) (comparators : List Expr)
  | lambda (args : List Expr) (body : Expr)
  | comprehension (elts : List Expr) (target iter : Expr) (rest : List Expr)
  | other (operands : List Expr)

inductive DelTarget where
  | name (node : Nat) (id : Identifier)
  | other (target : Expr)

structure WithItem where
  contextExpr : Expr
  optionalVars : Option Expr

structure Alias where
  name : Identifier
  asname : Option Identifier

mutual

inductive Stmt where
  | expr (value : Expr)
  | assign (targets : List Expr) (value : Expr)
  | augAssign (target value : Expr)
  | annAssign (target ann : Expr) (value : Option Expr)
  | delete (targets : List DelTarget)
  | importNames (names : List Alias)
  | importFrom (names : List Alias)
  | functionDef (name : Identifier) (args : List Expr) (returns : Option Expr)
      (decorators : List Expr)
  | classDef (name : Identifier) (bases keywords decorators : List Expr)
  | ifStmt (test : Expr) (body orelse : List Stmt)
  | whileStmt (test : Expr) (body orelse : List Stmt)
  | forStmt (target iter : Expr) (body orelse : List Stmt)
  | withStmt (items : List WithItem) (body : List Stmt)
  | tryStmt (body : List Stmt) (handlers : List ExceptHandler)
      (orelse finalbody : List Stmt)
  | raiseStmt (parts : List Expr)
  | returnStmt (value : Option Expr)
  | breakStmt
  | continueStmt
  | pass

inductive ExceptHandler where
  | mk (type : Option Expr) (name : Option Identifier) (body : List Stmt)

end

def WithItem.parts (item : WithItem) : List Expr :=
  item.contextExpr :: item.optionalVars.toList

/-- The name `import a.b` binds: its `as` name, else what stands before the
first dot. -/
def Alias.importedName (node : Alias) : Identifier :=
  node.asname.getD (String.ofList (node.name.toList.takeWhile (· != '.')))

def Alias.fromName (node : Alias) : Identifier :=
  node.asname.getD node.name

def Stmt.isRaise : Stmt → Bool
  | .raiseStmt _ => true
  | _ => false

/-! ## Which names the syntax loads and binds

The names of a comprehension's own targets count as its names. -/

section Names

variable (x : Identifier)

mutual

def Expr.loads : Expr → Bool
  | .name _ id ctx => id == x && ctx == .load
  | .namedExpr _ value => value.loads
  | .boolOp left values => left.loads || anyLoads values
  | .ifExp test body orelse => test.loads || body.loads || orelse.loads
  | .compare left right comparators =>
    left.loads || right.loads || anyLoads comparators
  | .lambda args _ => anyLoads args
  | .comprehension elts target iter rest =>
    anyLoads elts || target.loads || iter.loads || anyLoads rest
  | .other operands => anyLoads operands

def anyLoads : List Expr → Bool
  | [] => false
  | e :: es => e.loads || anyLoads es

end

mutual

def Expr.binds : Expr → Bool
  | .name _ id ctx => id == x && ctx == .store
  | .namedExpr target value => target == x || value.binds
  | .boolOp left values => left.binds || anyBinds values
  | .ifExp test body orelse => test.binds || body.binds || orelse.binds
  | .compare left right comparators =>
    left.binds || right.binds || anyBinds comparators
  | .lambda args _ => anyBinds args
  | .comprehension elts target iter rest =>
    anyBinds elts || target.binds || iter.binds || anyBinds rest
  | .other operands => anyBinds operands

def anyBinds : List Expr → Bool
  | [] => false
  | e :: es => e.binds || anyBinds es

end

def DelTarget.loads : DelTarget → Bool
  | .name _ _ => false
  | .other target => target.loads x

def DelTarget.binds : DelTarget → Bool
  | .name _ _ => false
  | .other target => target.binds x

mutual

def Stmt.loads : Stmt → Bool
  | .expr value => value.loads x
  | .assign targets value => value.loads x || anyLoads x targets
  | .augAssign target value =>
    (match target with
      | .name _ id _ => id == x
      | target => target.loads x) || value.loads x
  | .annAssign target ann value =>
    target.loads x || ann.loads x || anyLoads x value.toList
  | .delete targets => targets.any (·.loads x)
  | .importNames _ | .importFrom _ => false
  | .functionDef _ args returns decorators =>
    anyLoads x (args ++ returns.toList ++ decorators)
  | .classDef _ bases keywords decorators =>
    anyLoads x (bases ++ keywords ++ decorators)
  | .ifStmt test body orelse => test.loads x || bodyLoads body || bodyLoads orelse
  | .whileStmt test body orelse => test.loads x || bodyLoads body || bodyLoads orelse
  | .forStmt target iter body orelse =>
    iter.loads x || target.loads x || bodyLoads body || bodyLoads orelse
  | .withStmt items body => anyLoads x (items.flatMap (·.parts)) || bodyLoads body
  | .tryStmt body handlers orelse finalbody =>
    bodyLoads body || handlersLoad handlers || bodyLoads orelse || bodyLoads finalbody
  | .raiseStmt parts => anyLoads x parts
  | .returnStmt value => anyLoads x value.toList
  | .breakStmt | .continueStmt | .pass => false

def bodyLoads : List Stmt → Bool
  | [] => false
  | s :: ss => s.loads || bodyLoads ss

def handlersLoad : List ExceptHandler → Bool
  | [] => false
  | .mk type _ body :: handlers =>
    anyLoads x type.toList || bodyLoads body || handlersLoad handlers

end

mutual

/-- An assignment, an import, a definition, a loop, a `with` or an `except`
clause binds the name, or an assignment expression does. -/
def Stmt.binds : Stmt → Bool
  | .expr value => value.binds x
  | .assign targets value => value.binds x || anyBinds x targets
  | .augAssign target value =>
    target.binds x || value.binds x ||
      (match value with
        | .lambda _ body => body.binds x
        | _ => false)
  | .annAssign target ann value =>
    target.binds x || ann.binds x || anyBinds x value.toList
  | .delete targets => targets.any (·.binds x)
  | .importNames names => names.any (·.importedName == x)
  | .importFrom names => names.any (·.fromName == x)
  | .functionDef name args returns decorators =>
    name == x || anyBinds x (args ++ returns.toList ++ decorators)
  | .classDef name bases keywords decorators =>
    name == x || anyBinds x (bases ++ keywords ++ decorators)
  | .ifStmt test body orelse => test.binds x || bodyBinds body || bodyBinds orelse
  | .whileStmt test body orelse => test.binds x || bodyBinds body || bodyBinds orelse
  | .forStmt target iter body orelse =>
    iter.binds x || target.binds x || bodyBinds body || bodyBinds orelse
  | .withStmt items body => anyBinds x (items.flatMap (·.parts)) || bodyBinds body
  | .tryStmt body handlers orelse finalbody =>
    bodyBinds body || handlersBind handlers || bodyBinds orelse || bodyBinds finalbody
  | .raiseStmt parts => anyBinds x parts
  | .returnStmt value => anyBinds x value.toList
  | .breakStmt | .continueStmt | .pass => false

def bodyBinds : List Stmt → Bool
  | [] => false
  | s :: ss => s.binds || bodyBinds ss

def handlersBind : List ExceptHandler → Bool
  | [] => false
  | .mk type name body :: handlers =>
    anyBinds x type.toList || name == some x || bodyBinds body || handlersBind handlers

end

end Names

end CinderX.StaticPython
