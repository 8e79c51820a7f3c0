import CinderX.Compiler.FormatParser

/-!
# The optimizer of expressions

`AstOptimizer` with what `AstOptimizer312` and `AstOptimizer314` override.  The methods
take `self.visit` as an argument.
-/

namespace CinderX.Compiler.Optimizer

/-- Python's operators on constants, `none` where they raise an exception, and the items
of a `frozenset` of constants. -/
structure ConstOps where
  unary : UnaryOp → Const → Option Const
  binary : Operator → Const → Const → Option Const
  subscript : Const → Const → Option Const
  frozenset : List Const → List Const

structure Limits where
  MAX_INT_SIZE : Nat
  MAX_COLLECTION_SIZE : Nat
  MAX_STR_SIZE : Nat
  MAX_TOTAL_ITEMS : Nat

def PyLimits : Limits := ⟨128, 256, 4096, 1024⟩

/-- `isinstance(left, int)`, which a `bool` is too. -/
def Const.asInt : Const → Option Int
  | .int n => some n
  | .bool b => some b.toNat
  | _ => none

def bitLength (n : Int) : Nat := n.natAbs.size

mutual

def checkComplexity (limit : Int) : Const → Int
  | .tuple items | .frozenset items => checkItems (limit - items.length) items
  | _ => limit

def checkItems (limit : Int) : List Const → Int
  | [] => limit
  | item :: items =>
    let limit := checkComplexity limit item
    if limit < 0 then limit else checkItems limit items

end

section SafeOps

variable (ops : ConstOps) (limits : Limits)

def safeLshift (left right : Const) : Option Const :=
  match left.asInt, right.asInt with
  | some l, some r =>
    if l ≠ 0 ∧ r ≠ 0 ∧
        (r < 0 ∨ r > limits.MAX_INT_SIZE ∨ bitLength l > limits.MAX_INT_SIZE - r) then none
    else ops.binary .LShift left right
  | _, _ => ops.binary .LShift left right

/-- A number times a collection or a string; the quotients of the limits are compared as
products. -/
def safeRepeat (n : Int) (left right : Const) : Option Const :=
  match right with
  | .tuple items | .frozenset items =>
    if items ≠ [] ∧ (n < 0 ∨ n * items.length > limits.MAX_COLLECTION_SIZE ∨
        n ≠ 0 ∧ checkComplexity (limits.MAX_TOTAL_ITEMS / n) right < 0) then none
    else ops.binary .Mult left right
  | .str s =>
    if s ≠ [] ∧ (n < 0 ∨ n * s.length > limits.MAX_STR_SIZE) then none
    else ops.binary .Mult left right
  | .bytes s =>
    if s ≠ [] ∧ (n < 0 ∨ n * s.length > limits.MAX_STR_SIZE) then none
    else ops.binary .Mult left right
  | _ => ops.binary .Mult left right

def safeMultiply (left right : Const) : Option Const :=
  match left.asInt, right.asInt with
  | some l, some r =>
    if l ≠ 0 ∧ r ≠ 0 ∧ bitLength l + bitLength r > limits.MAX_INT_SIZE then none
    else ops.binary .Mult left right
  | some l, none => safeRepeat ops limits l left right
  | none, some r =>
    match left with
    | .tuple _ | .frozenset _ | .str _ | .bytes _ => safeRepeat ops limits r right left
    | _ => ops.binary .Mult left right
  | none, none => ops.binary .Mult left right

def safePower (left right : Const) : Option Const :=
  match left.asInt, right.asInt with
  | some l, some r =>
    if l ≠ 0 ∧ 0 < r ∧ bitLength l * r > limits.MAX_INT_SIZE then none
    else ops.binary .Pow left right
  | _, _ => ops.binary .Pow left right

def safeMod (left right : Const) : Option Const :=
  match left with
  | .str _ | .bytes _ => none
  | _ => ops.binary .Mod left right

/-- `BIN_OPS`, in which `MatMult` is not. -/
def binOps (op : Operator) (left right : Const) : Option Const :=
  match op with
  | .Mult => safeMultiply ops PyLimits left right
  | .Mod => safeMod ops left right
  | .Pow => safePower ops PyLimits left right
  | .LShift => safeLshift ops PyLimits left right
  | .MatMult => none
  | op => ops.binary op left right

end SafeOps

def inverseOp : CmpOp → Option CmpOp
  | .Is => some .IsNot
  | .IsNot => some .Is
  | .In => some .NotIn
  | .NotIn => some .In
  | _ => none

/-! ## The visitors -/

inductive OptimizerClass
  | AstOptimizer
  | AstOptimizer312
  | AstOptimizer314
  deriving DecidableEq

structure Instance where
  cls : OptimizerClass
  optimize : Bool
  ops : ConstOps

inductive Failure
  | outOfFuel
  | IndexError (format : List Char)
  deriving DecidableEq

abbrev Result := Except Failure

def Expr.constant? : Expr → Option Const
  | .Constant c => some c
  | _ => none

def Expr.isStarred : Expr → Bool
  | .Starred .. => true
  | _ => false

def walkList (visit : Expr → Result Expr) (values : List Expr) : Result (List Expr) :=
  values.mapM visit

def makeConstTuple (elts : List Expr) : Option (List Const) := elts.mapM Expr.constant?

def optimizeFormat (left : Expr) (op : Operator) (val : List Char) (elts : List Expr)
    (ctx : Ctx) : Result Expr :=
  match formatValues val elts [] with
  | .ok (some seq) => return .JoinedStr seq
  | .ok none | .error .UnsupportedFormat => return .BinOp left op (.Tuple elts ctx)
  | .error .IndexError => .error (.IndexError val)

section Visitors

variable (self : Instance) (visit : Expr → Result Expr)

def AstOptimizer.visitUnaryOp (op : UnaryOp) (operand : Expr) : Result Expr := do
  let operand ← visit operand
  match operand with
  | .Constant c =>
    match self.ops.unary op c with
    | some c' => return .Constant c'
    | none => return .UnaryOp op operand
  | .Compare left [cmpOp] comparators =>
    match inverseOp cmpOp with
    | some newOp =>
      if op = .Not then return .Compare left [newOp] comparators
      else return .UnaryOp op operand
    | none => return .UnaryOp op operand
  | _ => return .UnaryOp op operand

def AstOptimizer.visitBinOp (left : Expr) (op : Operator) (right : Expr) : Result Expr := do
  let left ← visit left
  let right ← visit right
  match left, right with
  | .Constant l, .Constant r =>
    match binOps self.ops op l r with
    | some c => return .Constant c
    | none => return .BinOp left op right
  | _, _ => return .BinOp left op right

def AstOptimizer.visitTuple (elts : List Expr) (ctx : Ctx) : Result Expr := do
  let elts ← walkList visit elts
  match ctx, makeConstTuple elts with
  | .Load, some items => return .Constant (.tuple items)
  | _, _ => return .Tuple elts ctx

def AstOptimizer.visitSubscript (value slice : Expr) (ctx : Ctx) : Result Expr := do
  let value ← visit value
  let slice ← visit slice
  match ctx, value, slice with
  | .Load, .Constant v, .Constant s =>
    match self.ops.subscript v s with
    | some c => return .Constant c
    | none => return .Subscript value slice ctx
  | _, _, _ => return .Subscript value slice ctx

def AstOptimizer312.visitBinOp (left : Expr) (op : Operator) (right : Expr) : Result Expr := do
  let res ← AstOptimizer.visitBinOp self visit left op right
  match res with
  | .BinOp (.Constant (.str val)) .Mod (.Tuple elts ctx) =>
    if elts.any Expr.isStarred then return res
    else optimizeFormat (.Constant (.str val)) .Mod val elts ctx
  | _ => return res

def AstOptimizer314.visitUnaryOp (op : UnaryOp) (operand : Expr) : Result Expr := do
  let operand ← visit operand
  return .UnaryOp op operand

def AstOptimizer314.visitBinOp (left : Expr) (op : Operator) (right : Expr) : Result Expr := do
  let left ← visit left
  let right ← visit right
  match left, right with
  | .Constant (.str val), .Tuple elts ctx =>
    if elts.any Expr.isStarred then return .BinOp left op right
    else optimizeFormat left op val elts ctx
  | _, _ => return .BinOp left op right

def AstOptimizer314.visitSubscript (value slice : Expr) (ctx : Ctx) : Result Expr := do
  let value ← visit value
  let slice ← visit slice
  return .Subscript value slice ctx

def AstOptimizer314.visitTuple (elts : List Expr) (ctx : Ctx) : Result Expr := do
  let elts ← walkList visit elts
  return .Tuple elts ctx

def visitName (id : String) (ctx : Ctx) : Expr :=
  if id = "__debug__" then .Constant (.bool (!self.optimize)) else .Name id ctx

/-- `generic_visit`, where a comprehension's generators have their own method. -/
def genericVisit (visitcomprehension : Comprehension → Result Comprehension) :
    Expr → Result Expr
  | .Constant c => return .Constant c
  | .Name id ctx => return .Name id ctx
  | .UnaryOp op operand => return .UnaryOp op (← visit operand)
  | .BinOp left op right => return .BinOp (← visit left) op (← visit right)
  | .Compare left ops comparators =>
    return .Compare (← visit left) ops (← walkList visit comparators)
  | .Tuple elts ctx => return .Tuple (← walkList visit elts) ctx
  | .List elts ctx => return .List (← walkList visit elts) ctx
  | .Set elts => return .Set (← walkList visit elts)
  | .Starred value ctx => return .Starred (← visit value) ctx
  | .Subscript value slice ctx => return .Subscript (← visit value) (← visit slice) ctx
  | .Attribute value attr ctx => return .Attribute (← visit value) attr ctx
  | .FormattedValue value conversion none =>
    return .FormattedValue (← visit value) conversion none
  | .FormattedValue value conversion (some formatSpec) =>
    return .FormattedValue (← visit value) conversion (some (← visit formatSpec))
  | .JoinedStr values => return .JoinedStr (← walkList visit values)
  | .comp kind elts generators =>
    return .comp kind (← walkList visit elts) (← generators.mapM visitcomprehension)
  | .form form children => return .form form (← walkList visit children)

def visitIter (genericVisit : Expr → Result Expr) (node : Expr) : Result Expr :=
  if self.cls = .AstOptimizer314 then return node
  else match node with
  | .List elts ctx => do
      let elts ← walkList visit elts
      match makeConstTuple elts with
      | some items => return .Constant (.tuple items)
      | none =>
        if elts.any Expr.isStarred then return .List elts ctx else return .Tuple elts ctx
  | .Set elts => do
      let elts ← walkList visit elts
      match makeConstTuple elts with
      | some items => return .Constant (.frozenset (self.ops.frozenset items))
      | none => return .Set elts
  | _ => genericVisit node

def visitCompare (genericVisit : Expr → Result Expr) (left : Expr) (ops : List CmpOp)
    (comparators : List Expr) : Result Expr := do
  let left ← visit left
  let comparators ← walkList visit comparators
  -- a `Compare` has as many comparators as operators, and at least one
  match ops.getLast?, comparators.getLast? with
  | some .In, some iter | some .NotIn, some iter =>
    let iter ← visitIter self visit genericVisit iter
    return .Compare left ops (comparators.dropLast ++ [iter])
  | _, _ => return .Compare left ops comparators

def visitcomprehension (genericVisit : Expr → Result Expr) :
    Comprehension → Result Comprehension
  | .mk target iter ifs isAsync => do
      let target ← visit target
      let iter ← visit iter
      let ifs ← walkList visit ifs
      let iter ← visitIter self visit genericVisit iter
      return .mk target iter ifs isAsync

/-- The method for a node, where `generic_visit` is for an iterable that has been
visited, and `defaultVisit` for the nodes without a method. -/
def visitNode (genericVisit defaultVisit : Expr → Result Expr) : Expr → Result Expr
  | .UnaryOp op operand =>
    match self.cls with
    | .AstOptimizer314 => AstOptimizer314.visitUnaryOp visit op operand
    | _ => AstOptimizer.visitUnaryOp self visit op operand
  | .BinOp left op right =>
    match self.cls with
    | .AstOptimizer => AstOptimizer.visitBinOp self visit left op right
    | .AstOptimizer312 => AstOptimizer312.visitBinOp self visit left op right
    | .AstOptimizer314 => AstOptimizer314.visitBinOp visit left op right
  | .Tuple elts ctx =>
    match self.cls with
    | .AstOptimizer314 => AstOptimizer314.visitTuple visit elts ctx
    | _ => AstOptimizer.visitTuple visit elts ctx
  | .Subscript value slice ctx =>
    match self.cls with
    | .AstOptimizer314 => AstOptimizer314.visitSubscript visit value slice ctx
    | _ => AstOptimizer.visitSubscript self visit value slice ctx
  | .Compare left ops comparators => visitCompare self visit genericVisit left ops comparators
  | .Name id ctx => return visitName self id ctx
  | e => defaultVisit e

end Visitors

mutual

/-- `visit`; fuel more than the depth of the node is enough. -/
def Instance.visit (self : Instance) : Nat → Expr → Result Expr
  | 0, _ => .error .outOfFuel
  | fuel + 1, e =>
    visitNode self (self.visit fuel) (self.genericVisit fuel)
      (Optimizer.genericVisit (self.visit fuel)
        (visitcomprehension self (self.visit fuel) (self.genericVisit fuel))) e

def Instance.genericVisit (self : Instance) : Nat → Expr → Result Expr
  | 0, _ => .error .outOfFuel
  | fuel + 1, e =>
    Optimizer.genericVisit (self.visit fuel)
      (visitcomprehension self (self.visit fuel) (self.genericVisit fuel)) e

end

end CinderX.Compiler.Optimizer
