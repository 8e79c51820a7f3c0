import CinderX.Foundation.Basic

/-!
# Python expressions

The expression nodes of `ast`.  The nodes that the optimizer only walks through are one
constructor, with their expressions in the order of the fields.
-/

namespace CinderX.Compiler.Optimizer

inductive Const
  | None
  | Ellipsis
  | bool (b : Bool)
  | int (n : Int)
  | float (bits : BitVec 64)
  | complex (real imag : BitVec 64)
  | str (s : List Char)
  | bytes (s : List UInt8)
  | tuple (items : List Const)
  | frozenset (items : List Const)

inductive Ctx
  | Load
  | Store
  deriving DecidableEq

inductive UnaryOp
  | Invert
  | Not
  | UAdd
  | USub
  deriving DecidableEq

inductive Operator
  | Add
  | Sub
  | Mult
  | MatMult
  | Div
  | Mod
  | Pow
  | LShift
  | RShift
  | BitOr
  | BitXor
  | BitAnd
  | FloorDiv
  deriving DecidableEq

inductive CmpOp
  | Eq
  | NotEq
  | Lt
  | LtE
  | Gt
  | GtE
  | Is
  | IsNot
  | In
  | NotIn
  deriving DecidableEq

inductive Conversion
  | str
  | repr
  | ascii
  deriving DecidableEq

inductive CompKind
  | ListComp
  | SetComp
  | DictComp
  | GeneratorExp
  deriving DecidableEq

inductive BoolOp
  | And
  | Or
  deriving DecidableEq

/-- The nodes that the optimizer has no method for, with what their fields hold besides
expressions; a `Bool` says that an optional expression is there. -/
inductive Form
  | BoolOp (op : BoolOp)
  | NamedExpr
  | Lambda (posonlyargs args : List String) (vararg : Option String) (kwonlyargs : List String)
      (kwDefaults : List Bool) (kwarg : Option String)
  | IfExp
  | Dict (keys : List Bool)
  | Await
  | Yield (value : Bool)
  | YieldFrom
  | Call (args : Nat) (keywords : List (Option String))
  | Slice (lower upper step : Bool)
  | TemplateStr
  | Interpolation (str : List Char) (conversion : Option Conversion) (formatSpec : Bool)
  deriving DecidableEq

mutual

inductive Expr
  | Constant (value : Const)
  | Name (id : String) (ctx : Ctx)
  | UnaryOp (op : UnaryOp) (operand : Expr)
  | BinOp (left : Expr) (op : Operator) (right : Expr)
  | Compare (left : Expr) (ops : List CmpOp) (comparators : List Expr)
  | Tuple (elts : List Expr) (ctx : Ctx)
  | List (elts : List Expr) (ctx : Ctx)
  | Set (elts : List Expr)
  | Starred (value : Expr) (ctx : Ctx)
  | Subscript (value slice : Expr) (ctx : Ctx)
  | Attribute (value : Expr) (attr : String) (ctx : Ctx)
  | FormattedValue (value : Expr) (conversion : Option Conversion) (formatSpec : Option Expr)
  | JoinedStr (values : List Expr)
  -- the element, or the key and the value, and the generators
  | comp (kind : CompKind) (elts : List Expr) (generators : List Comprehension)
  | form (form : Form) (children : List Expr)

inductive Comprehension
  | mk (target iter : Expr) (ifs : List Expr) (isAsync : Bool)

end

mutual

def Expr.depth : Expr → Nat
  | .Constant _ | .Name _ _ => 0
  | .UnaryOp _ operand => operand.depth + 1
  | .BinOp left _ right => max left.depth right.depth + 1
  | .Compare left _ comparators => max left.depth (depthList comparators) + 1
  | .Tuple elts _ | .List elts _ | .Set elts | .JoinedStr elts | .form _ elts =>
    depthList elts + 1
  | .Starred value _ | .Attribute value _ _ => value.depth + 1
  | .Subscript value slice _ => max value.depth slice.depth + 1
  | .FormattedValue value _ formatSpec => max value.depth (depthOption formatSpec) + 1
  | .comp _ elts generators => max (depthList elts) (depthGenerators generators) + 1

def depthList : List Expr → Nat
  | [] => 0
  | e :: es => max e.depth (depthList es)

def depthOption : Option Expr → Nat
  | none => 0
  | some e => e.depth

def depthGenerators : List Comprehension → Nat
  | [] => 0
  | g :: gs => max g.depth (depthGenerators gs)

def Comprehension.depth : Comprehension → Nat
  | .mk target iter ifs _ => max (max target.depth iter.depth) (depthList ifs)

end

mutual

def Expr.Everywhere (p : Expr → Prop) : Expr → Prop
  | .Constant value => p (.Constant value)
  | .Name id ctx => p (.Name id ctx)
  | .UnaryOp op operand => p (.UnaryOp op operand) ∧ operand.Everywhere p
  | .BinOp left op right => p (.BinOp left op right) ∧ left.Everywhere p ∧ right.Everywhere p
  | .Compare left ops comparators =>
    p (.Compare left ops comparators) ∧ left.Everywhere p ∧ EverywhereList p comparators
  | .Tuple elts ctx => p (.Tuple elts ctx) ∧ EverywhereList p elts
  | .List elts ctx => p (.List elts ctx) ∧ EverywhereList p elts
  | .Set elts => p (.Set elts) ∧ EverywhereList p elts
  | .Starred value ctx => p (.Starred value ctx) ∧ value.Everywhere p
  | .Subscript value slice ctx =>
    p (.Subscript value slice ctx) ∧ value.Everywhere p ∧ slice.Everywhere p
  | .Attribute value attr ctx => p (.Attribute value attr ctx) ∧ value.Everywhere p
  | .FormattedValue value conversion formatSpec =>
    p (.FormattedValue value conversion formatSpec) ∧ value.Everywhere p ∧
      EverywhereOption p formatSpec
  | .JoinedStr values => p (.JoinedStr values) ∧ EverywhereList p values
  | .comp kind elts generators =>
    p (.comp kind elts generators) ∧ EverywhereList p elts ∧ EverywhereGenerators p generators
  | .form form children => p (.form form children) ∧ EverywhereList p children

def EverywhereList (p : Expr → Prop) : List Expr → Prop
  | [] => True
  | e :: es => e.Everywhere p ∧ EverywhereList p es

def EverywhereOption (p : Expr → Prop) : Option Expr → Prop
  | none => True
  | some e => e.Everywhere p

def EverywhereGenerators (p : Expr → Prop) : List Comprehension → Prop
  | [] => True
  | g :: gs => g.Everywhere p ∧ EverywhereGenerators p gs

def Comprehension.Everywhere (p : Expr → Prop) : Comprehension → Prop
  | .mk target iter ifs _ => target.Everywhere p ∧ iter.Everywhere p ∧ EverywhereList p ifs

end

attribute [local simp] Expr.depth depthList depthOption depthGenerators Comprehension.depth
  Expr.Everywhere EverywhereList EverywhereOption EverywhereGenerators Comprehension.Everywhere

variable {p : Expr → Prop} {es : List Expr}

theorem everywhereList_iff :
    EverywhereList p es ↔ ∀ e ∈ es, e.Everywhere p := by
  induction es with
  | nil => simp
  | cons e es ih => rw [EverywhereList, ih, List.forall_mem_cons]

theorem everywhereGenerators_iff {gs : List Comprehension} :
    EverywhereGenerators p gs ↔ ∀ g ∈ gs, g.Everywhere p := by
  induction gs with
  | nil => simp
  | cons g gs ih => rw [EverywhereGenerators, ih, List.forall_mem_cons]

theorem depthList_le_iff {n : Nat} :
    depthList es ≤ n ↔ ∀ e ∈ es, e.depth ≤ n := by
  induction es with
  | nil => simp
  | cons e es ih => rw [depthList, Nat.max_le, ih, List.forall_mem_cons]

end CinderX.Compiler.Optimizer
