import CinderX.Compiler.AstOptimizer
import CinderX.Compiler.FormatParser

/-!
# What expressions mean

Expressions are computations in any monad; the objects and the operations of the
interpreter are its parameters.
-/

namespace CinderX.Compiler.Optimizer

variable {M : Type → Type} {V : Type}

/-- An expression as a value, as the items of a display (which are more than one when it
is starred), and as a target. -/
structure Meaning (M : Type → Type) (V : Type) where
  value : M V
  items : M (List V)
  starred : Bool
  assign : V → M Unit

structure Generator (M : Type → Type) (V : Type) where
  assign : V → M Unit
  iter : M V
  ifs : List (M V)

/-- The interpreter.  `fail` is for what is no expression of the language, and for the
`ValueError` of a format specification.  `convert` and `format` give the objects that `str`,
`repr`, `ascii` and `format` return.  From 3.12 on `~` of a `bool` warns. -/
structure Interpreter (M : Type → Type) (V : Type) where
  optimize : Bool
  ops : ConstOps
  fail : (α : Type) → M α
  const : Const → V
  tuple : List V → V
  newList : List V → M V
  newSet : List V → M V
  load : String → M V
  store : String → V → M Unit
  getAttr : V → String → M V
  setAttr : V → String → V → M Unit
  getItem : V → V → M V
  setItem : V → V → V → M Unit
  invertWarns : Bool
  unaryOp : UnaryOp → V → M V
  binaryOp : Operator → V → V → M V
  truth : V → M Bool
  isSame : V → V → Bool
  contains : V → V → M Bool
  richCompare : CmpOp → V → V → M V
  starItems : V → M (List V)
  unpack : List Bool → V → M (List V)
  iter : Bool → V → M V
  convert : Conversion → V → M V
  format : V → List Char → M V
  text? : V → Option (List Char)
  comprehension : CompKind → List (M V) → List (Generator M V) → M V
  form : Form → List (Meaning M V) → M V

namespace Interpreter

variable [Monad M] (py : Interpreter M V)

def ofValue (m : M V) : Meaning M V where
  value := m
  items := return [← m]
  starred := false
  assign _ := py.fail Unit

def ofTarget (ctx : Ctx) (m : M V) (assign : V → M Unit) : Meaning M V where
  value := m
  items := return [← m]
  starred := false
  assign := match ctx with
    | .Load => fun _ => py.fail Unit
    | .Store => assign

def unary (op : UnaryOp) (v : V) : M V :=
  match op with
  | .Not => do return py.const (.bool (!(← py.truth v)))
  | op => py.unaryOp op v

def displayItems : List (Meaning M V) → M (List V)
  | [] => return []
  | m :: ms => do
      let items ← m.items
      return items ++ (← displayItems ms)

def assignAll : List (Meaning M V) → List V → M Unit
  | m :: ms, v :: vs => do
      m.assign v
      assignAll ms vs
  | _, _ => return ()

def assignTargets (ms : List (Meaning M V)) (v : V) : M Unit := do
  assignAll ms (← py.unpack (ms.map (·.starred)) v)

def compareOp (op : CmpOp) (left right : V) : M V :=
  match op with
  | .Is => return py.const (.bool (py.isSame left right))
  | .IsNot => return py.const (.bool (!py.isSame left right))
  | .In => do return py.const (.bool (← py.contains right left))
  | .NotIn => do return py.const (.bool (!(← py.contains right left)))
  | op => py.richCompare op left right

def compareChain (left : V) : List CmpOp → List (Meaning M V) → M V
  | [op], [m] => do py.compareOp op left (← m.value)
  | op :: ops, m :: ms => do
      let right ← m.value
      let v ← py.compareOp op left right
      if ← py.truth v then compareChain right ops ms else return v
  | _, _ => py.fail V

def compare (left : Meaning M V) (ops : List CmpOp) (comparators : List (Meaning M V)) : M V :=
  if ops.length = comparators.length then do
    py.compareChain (← left.value) ops comparators
  else py.fail V

def text (v : V) : M (List Char) :=
  match py.text? v with
  | some s => return s
  | none => py.fail _

def specText : Option (Meaning M V) → M (List Char)
  | none => return []
  | some m => do py.text (← m.value)

def formattedValue (m : Meaning M V) (conversion : Option Conversion)
    (formatSpec : Option (Meaning M V)) : M V := do
  let v ← m.value
  let v ← match conversion with
    | some c => py.convert c v
    | none => pure v
  py.format v (← py.specText formatSpec)

def joinTexts : List (Meaning M V) → M (List Char)
  | [] => return []
  | m :: ms => do
      let s ← py.text (← m.value)
      return s ++ (← joinTexts ms)

/-- A single part is left as it is. -/
def joinedStr : List (Meaning M V) → M V
  | [m] => m.value
  | ms => do return py.const (.str (← py.joinTexts ms))

mutual

def denote : Expr → Meaning M V
  | .Constant c => py.ofValue (pure (py.const c))
  | .Name id ctx =>
    if id = "__debug__" then py.ofValue (pure (py.const (.bool (!py.optimize))))
    else py.ofTarget ctx (py.load id) (py.store id)
  | .UnaryOp op operand => py.ofValue (do py.unary op (← (denote operand).value))
  | .BinOp left op right =>
    py.ofValue (do
      let l ← (denote left).value
      py.binaryOp op l (← (denote right).value))
  | .Compare left ops comparators =>
    py.ofValue (py.compare (denote left) ops (denoteList comparators))
  | .Tuple elts ctx =>
    py.ofTarget ctx (do return py.tuple (← displayItems (denoteList elts)))
      (py.assignTargets (denoteList elts))
  | .List elts ctx =>
    py.ofTarget ctx (do py.newList (← displayItems (denoteList elts)))
      (py.assignTargets (denoteList elts))
  | .Set elts => py.ofValue (do py.newSet (← displayItems (denoteList elts)))
  | .Starred value _ =>
    { value := py.fail V
      items := do py.starItems (← (denote value).value)
      starred := true
      assign := (denote value).assign }
  | .Subscript value slice ctx =>
    py.ofTarget ctx
      (do
        let v ← (denote value).value
        py.getItem v (← (denote slice).value))
      fun item => do
        let v ← (denote value).value
        py.setItem v (← (denote slice).value) item
  | .Attribute value attr ctx =>
    py.ofTarget ctx (do py.getAttr (← (denote value).value) attr)
      fun item => do py.setAttr (← (denote value).value) attr item
  | .FormattedValue value conversion formatSpec =>
    py.ofValue (py.formattedValue (denote value) conversion (denoteSpec formatSpec))
  | .JoinedStr values =>
    py.ofValue (py.joinedStr (denoteList values))
  | .comp kind elts generators =>
    py.ofValue (py.comprehension kind ((denoteList elts).map (·.value))
      (denoteGenerators generators))
  | .form form children => py.ofValue (py.form form (denoteList children))

def denoteList : List Expr → List (Meaning M V)
  | [] => []
  | e :: es => denote e :: denoteList es

def denoteSpec : Option Expr → Option (Meaning M V)
  | none => none
  | some e => some (denote e)

def denoteGenerators : List Comprehension → List (Generator M V)
  | [] => []
  | g :: gs => denoteComprehension g :: denoteGenerators gs

def denoteComprehension : Comprehension → Generator M V
  | .mk target iter ifs isAsync =>
    { assign := (denote target).assign
      iter := do py.iter isAsync (← (denote iter).value)
      ifs := (denoteList ifs).map (·.value) }

end

/-- `%` with conversions of the types `s`, `r` and `a` only. -/
def formatWith (convert : Conversion → V → M (List Char)) (fail : M (List Char)) :
    List Piece → List V → M (List Char)
  | [], _ => return []
  | .char ch :: pieces, vs => do return ch :: (← formatWith convert fail pieces vs)
  | .conv ljust width prec c :: pieces, v :: vs => do
      let s ← convert c v
      return pad ljust width (truncate prec s) ++ (← formatWith convert fail pieces vs)
  | .conv .. :: _, [] => fail

def convertText (c : Conversion) (v : V) : M (List Char) := do py.text (← py.convert c v)

def formatPieces (pieces : List Piece) (vs : List V) : M (List Char) :=
  formatWith py.convertText (py.fail _) pieces vs

/-- The conversion gives a string of the class `str` itself. -/
def Plain (c : Conversion) (v : V) : Prop :=
  ∃ text : M (List Char), py.convert c v = (do return py.const (.str (← text)))

def PlainArguments : List Piece → List V → Prop
  | .char _ :: pieces, vs => PlainArguments pieces vs
  | .conv _ _ _ c :: pieces, v :: vs => py.Plain c v ∧ PlainArguments pieces vs
  | _, _ => True

/-- A number times anything is as the other way round, and the operators give on constants
what `ops` says, where they do not warn; a list or a set that is only looked through or
iterated over is as good as the tuple or the `frozenset` of its items. -/
structure Documented : Prop where
  mult_comm : ∀ c n, n.asInt.isSome → py.ops.binary .Mult n c = py.ops.binary .Mult c n
  fail_bind : ∀ (α β : Type) (f : α → M β), (do f (← py.fail α)) = py.fail β
  tuple_const : ∀ cs, py.tuple (cs.map py.const) = py.const (.tuple cs)
  truth_bool : ∀ b, py.truth (py.const (.bool b)) = pure b
  text_str : ∀ s, py.text? (py.const (.str s)) = some s
  unary_const : ∀ op c c', py.ops.unary op c = some c' →
    ¬(py.invertWarns = true ∧ op = .Invert ∧ ∃ b, c = .bool b) →
    py.unary op (py.const c) = pure (py.const c')
  binary_const : ∀ op c₁ c₂ c', py.ops.binary op c₁ c₂ = some c' →
    py.binaryOp op (py.const c₁) (py.const c₂) = pure (py.const c')
  getItem_const : ∀ c₁ c₂ c', py.ops.subscript c₁ c₂ = some c' →
    py.getItem (py.const c₁) (py.const c₂) = pure (py.const c')
  contains_list : ∀ vs v, (do py.contains (← py.newList vs) v) = py.contains (py.tuple vs) v
  iter_list : ∀ isAsync vs,
    (do py.iter isAsync (← py.newList vs)) = py.iter isAsync (py.tuple vs)
  contains_set : ∀ cs v, (do py.contains (← py.newSet (cs.map py.const)) v) =
    py.contains (py.const (.frozenset (py.ops.frozenset cs))) v
  iter_set : ∀ isAsync cs, (do py.iter isAsync (← py.newSet (cs.map py.const))) =
    py.iter isAsync (py.const (.frozenset (py.ops.frozenset cs)))
  format_const : ∀ s spec text, formatText spec s = some text →
    py.format (py.const (.str s)) spec = pure (py.const (.str text))
  format_str : ∀ s pieces vs, printfPieces s = some pieces →
    pieces.countP Piece.isConv = vs.length → py.PlainArguments pieces vs →
    py.binaryOp .Mod (py.const (.str s)) (py.tuple vs) =
      (do return py.const (.str (← py.formatPieces pieces vs)))

end Interpreter

end CinderX.Compiler.Optimizer
