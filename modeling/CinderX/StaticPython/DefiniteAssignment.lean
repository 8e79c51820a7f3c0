import CinderX.StaticPython.PythonAst

/-!
# The definite assignment checker

`DefiniteAssignmentVisitor` walks a body once, with the set of names that are
assigned at the point it has reached, and collects the `Name` nodes that load
or delete a local not in that set.
-/

namespace CinderX.StaticPython

inductive NameScope where
  | unknown | «local» | cell | free | globalExplicit | globalImplicit
  deriving DecidableEq, Repr

structure Scope where
  explicitGlobals : Finset Identifier := ∅
  globals : Finset Identifier := ∅
  cells : Finset Identifier := ∅
  frees : Finset Identifier := ∅
  defs : Finset Identifier := ∅
  uses : Finset Identifier := ∅
  nested : Bool := false
  isClassScope : Bool := false

namespace Scope

def checkName (scope : Scope) (name : Identifier) : NameScope :=
  if name ∈ scope.explicitGlobals then .globalExplicit
  else if name ∈ scope.globals then .globalImplicit
  else if name ∈ scope.cells then .cell
  else if name ∈ scope.frees then
    if scope.isClassScope ∧ name ∈ scope.defs then .local else .free
  else if name ∈ scope.defs then .local
  else if scope.nested ∧ name ∈ scope.uses then .free
  else if scope.nested then .unknown
  else .globalImplicit

def isLocal (scope : Scope) (name : Identifier) : Bool :=
  scope.checkName name = .local || scope.checkName name = .cell

end Scope

structure DefiniteAssignmentVisitor where
  assigned : Finset Identifier
  unassigned : Finset Nat

namespace DefiniteAssignmentVisitor

variable (scope : Scope)

def setAssigned (name : Identifier) (v : DefiniteAssignmentVisitor) :
    DefiniteAssignmentVisitor :=
  if scope.isLocal name then { v with assigned := insert name v.assigned } else v

def visitName (node : Nat) (id : Identifier) (ctx : ExprContext)
    (v : DefiniteAssignmentVisitor) : DefiniteAssignmentVisitor :=
  if scope.isLocal id then
    match ctx with
    | .load =>
      if id ∈ v.assigned then v
      else { v with unassigned := insert node v.unassigned }
    | .store => { v with assigned := insert id v.assigned }
  else v

def visitDelName (node : Nat) (id : Identifier) (v : DefiniteAssignmentVisitor) :
    DefiniteAssignmentVisitor :=
  if scope.isLocal id then
    if id ∈ v.assigned then { v with assigned := v.assigned.erase id }
    else { v with unassigned := insert node v.unassigned }
  else v

mutual

/-- `generic_visit` of an expression's fields; `visit_Lambda` visits the
arguments only. -/
def visitExpr : Expr → DefiniteAssignmentVisitor → DefiniteAssignmentVisitor
  | .name node id ctx, v => visitName scope node id ctx v
  | .namedExpr target value, v => visitExpr value (setAssigned scope target v)
  | .boolOp left values, v => visitExprs values (visitExpr left v)
  | .ifExp test body orelse, v => visitExpr orelse (visitExpr body (visitExpr test v))
  | .compare left right comparators, v =>
    visitExprs comparators (visitExpr right (visitExpr left v))
  | .lambda args _, v => visitExprs args v
  | .comprehension elts target iter rest, v =>
    visitExprs rest (visitExpr iter (visitExpr target (visitExprs elts v)))
  | .other operands, v => visitExprs operands v

def visitExprs : List Expr → DefiniteAssignmentVisitor → DefiniteAssignmentVisitor
  | [], v => v
  | e :: es, v => visitExprs es (visitExpr e v)

end

/-- `generic_visit` called on the expression itself: a `Name` has no child that
is visited, and a lambda's body is one of its fields. -/
def genericVisit : Expr → DefiniteAssignmentVisitor → DefiniteAssignmentVisitor
  | .name _ _ _, v => v
  | .lambda args body, v => visitExpr scope body (visitExprs scope args v)
  | e, v => visitExpr scope e v

def visitAugAssign (target value : Expr) (v : DefiniteAssignmentVisitor) :
    DefiniteAssignmentVisitor :=
  match target with
  | .name node id _ =>
    genericVisit scope value
      (if id ∈ v.assigned then v
        else { v with unassigned := insert node v.unassigned })
  | target => visitExpr scope value (visitExpr scope target v)

def visitAnnAssign (target ann : Expr) (value : Option Expr)
    (v : DefiniteAssignmentVisitor) : DefiniteAssignmentVisitor :=
  match value with
  | some value => visitExprs scope [target, ann, value] v
  | none => v

def visitDelTarget (target : DelTarget) (v : DefiniteAssignmentVisitor) :
    DefiniteAssignmentVisitor :=
  match target with
  | .name node id => visitDelName scope node id v
  | .other target => visitExpr scope target v

def visitDelTargets : List DelTarget → DefiniteAssignmentVisitor →
    DefiniteAssignmentVisitor
  | [], v => v
  | target :: targets, v => visitDelTargets targets (visitDelTarget scope target v)

def setAllAssigned : List Identifier → DefiniteAssignmentVisitor →
    DefiniteAssignmentVisitor
  | [], v => v
  | name :: names, v => setAllAssigned names (setAssigned scope name v)

def setHandlerName (name : Option Identifier) (v : DefiniteAssignmentVisitor) :
    DefiniteAssignmentVisitor :=
  match name with
  | some name => setAssigned scope name v
  | none => v

/-- The end of `visit_For` and `visit_While`, from the set after the body. -/
def visitLoopEnd (entry : Finset Identifier)
    (orelse : Option (DefiniteAssignmentVisitor → DefiniteAssignmentVisitor))
    (v : DefiniteAssignmentVisitor) : DefiniteAssignmentVisitor :=
  let entry := entry ∩ v.assigned
  match orelse with
  | none => { v with assigned := entry }
  | some walkElse =>
    let postElse := walkElse { v with assigned := entry }
    { postElse with assigned := entry ∩ postElse.assigned }

mutual

def visitStmt : Stmt → DefiniteAssignmentVisitor → DefiniteAssignmentVisitor
  | .expr value, v => visitExpr scope value v
  | .assign targets value, v => visitExprs scope targets (visitExpr scope value v)
  | .augAssign target value, v => visitAugAssign scope target value v
  | .annAssign target ann value, v =>
    visitAnnAssign scope target ann value v
  | .delete targets, v => visitDelTargets scope targets v
  | .importNames names, v => setAllAssigned scope (names.map (·.importedName)) v
  | .importFrom names, v => setAllAssigned scope (names.map (·.fromName)) v
  | .functionDef name args returns decorators, v =>
    setAssigned scope name
      (visitExprs scope (args ++ returns.toList ++ decorators) v)
  | .classDef name bases keywords decorators, v =>
    setAssigned scope name
      (visitExprs scope (bases ++ keywords ++ decorators) v)
  | .ifStmt test body orelse, v =>
    let entry := visitExpr scope test v
    let postIf := walkStmts true body entry
    if orelse.isEmpty then
      { postIf with assigned := entry.assigned ∩ postIf.assigned }
    else
      let postElse := walkStmts true orelse { postIf with assigned := entry.assigned }
      { postElse with assigned := postElse.assigned ∩ postIf.assigned }
  | .whileStmt test body orelse, v =>
    let entry := visitExpr scope test v
    visitLoopEnd entry.assigned
      (if orelse.isEmpty then none else some (walkStmts true orelse))
      (walkStmts true body entry)
  | .forStmt target iter body orelse, v =>
    let entry := visitExpr scope iter v
    visitLoopEnd entry.assigned
      (if orelse.isEmpty then none else some (walkStmts true orelse))
      (walkStmts true body (visitExpr scope target entry))
  | .withStmt items body, v =>
    let entry := visitExprs scope (items.flatMap (·.parts)) v
    let post := walkStmts true body entry
    { post with assigned := entry.assigned ∩ post.assigned }
  | .tryStmt body handlers orelse finalbody, v =>
    let entry := v.assigned
    let postTry := walkStmts true body v
    if handlers.isEmpty then
      let postFinal := walkStmts true finalbody
        { postTry with assigned := entry ∩ postTry.assigned }
      { postFinal with
        assigned :=
          (postTry.assigned \ (entry \ postFinal.assigned)) ∪ postFinal.assigned }
    else
      let handled := visitHandlers (entry ∩ postTry.assigned) handlers
        { postTry with assigned := entry ∩ postTry.assigned }
      if orelse.isEmpty then
        walkStmts true finalbody handled
      else
        let postElse := walkStmts true orelse
          { handled with assigned := postTry.assigned }
        walkStmts true finalbody
          { postElse with assigned := handled.assigned ∩ postElse.assigned }
  | .raiseStmt parts, v => visitExprs scope parts v
  | .returnStmt value, v => visitExprs scope value.toList v
  | .breakStmt, v => v
  | .continueStmt, v => v
  | .pass, v => v

/-- The walk over a body; `walk_stmts` stops at a `raise`, the walk over the
outermost body does not. -/
def walkStmts (untilRaise : Bool) :
    List Stmt → DefiniteAssignmentVisitor → DefiniteAssignmentVisitor
  | [], v => v
  | s :: ss, v =>
    if untilRaise && s.isRaise then visitStmt s v
    else walkStmts untilRaise ss (visitStmt s v)

/-- The loop over the handlers: each is walked from `entry`, and the set of the
state is `finalentry`. -/
def visitHandlers (entry : Finset Identifier) :
    List ExceptHandler → DefiniteAssignmentVisitor → DefiniteAssignmentVisitor
  | [], v => v
  | .mk _ name body :: handlers, v =>
    let bound : DefiniteAssignmentVisitor := { v with assigned := entry }
    let post := walkStmts true body (setHandlerName scope name bound)
    visitHandlers entry handlers
      { post with assigned := v.assigned ∩ post.assigned }

end

end DefiniteAssignmentVisitor

/-- A function's parameters and its body, or a module's body with no
parameters. -/
structure CodeUnit where
  parameters : Finset Identifier
  body : List Stmt

def CodeUnit.analyze (scope : Scope) (unit : CodeUnit) : DefiniteAssignmentVisitor :=
  DefiniteAssignmentVisitor.walkStmts scope false unit.body
    { assigned := unit.parameters, unassigned := ∅ }

end CinderX.StaticPython
