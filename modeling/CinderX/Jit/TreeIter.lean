import CinderX.Foundation.Basic

/-!
# The tree iterator

The phase machine that `buildTreeIterStateMachine` emits, with its runtime
helpers.  A configuration is the machine in front of the dispatch on the phase,
or suspended at a yield.  The machine counts the references that it owns: those
of its state and those of the registers of the block that is executed.
-/

namespace CinderX.Jit.TreeIter

inductive TreeIterPhase where
  | kLeft
  | kYield
  | kRight
  | kBacktrack
  | kExit
  deriving DecidableEq, Repr

structure TreeIterStackEntry (Node : Type) where
  node : Option Node
  phase : TreeIterPhase

/-- The state of a generator; `stack` is its memory, of as many entries as the capacity. -/
structure TreeIterState (Node : Type) where
  currentNode : Option Node
  currentPhase : TreeIterPhase
  stack : List (TreeIterStackEntry Node)
  stackTop : Nat
  depth : Nat
  depthBudget : Int
  poppedPhase : TreeIterPhase
  activePath : Option (Finset Node)

/-- The fields of a node; a child is `none` for `None`. -/
structure NodeFields (Node Value : Type) where
  left : Option Node
  value : Value
  right : Option Node

/-- The objects, their types, and which allocations succeed: of a stack with a capacity, and of an
active path with given nodes. -/
structure Env (Node Value : Type) where
  fields : Node → NodeFields Node Value
  typeOf : Node → Nat
  grows : Nat → Bool
  hashes : Finset Node → Bool

inductive TreeIterError where
  | noMemory
  | typeMismatch
  | depthExceeded
  | cycle
  deriving DecidableEq, Repr

structure Machine (Node : Type) where
  state : TreeIterState Node
  refs : Node → Int

def kTreeIterActivePathHashThreshold : Nat := 128

def kTreeIterInitialStackCapacity : Nat := 16

variable {Node Value : Type}

def emptyEntry : TreeIterStackEntry Node := ⟨none, .kLeft⟩

namespace TreeIterState

def entries (state : TreeIterState Node) : List (TreeIterStackEntry Node) :=
  state.stack.take state.stackTop

def path (state : TreeIterState Node) : List Node :=
  state.currentNode.toList ++ state.entries.filterMap TreeIterStackEntry.node

def allocate (recursionLimit : Int) : TreeIterState Node where
  currentNode := none
  currentPhase := .kLeft
  stack := List.replicate kTreeIterInitialStackCapacity emptyEntry
  stackTop := 0
  depth := 0
  depthBudget := recursionLimit
  poppedPhase := .kLeft
  activePath := none

section Check

variable [DecidableEq Node] (env : Env Node Value)

def treeIterMaterializeActivePath (state : TreeIterState Node) :
    Except TreeIterError (Finset Node) :=
  if env.hashes state.path.toFinset then .ok state.path.toFinset else .error .noMemory

def treeIterActivePathInsert (nodes : Finset Node) (node : Node) :
    Except TreeIterError (Finset Node) :=
  if node ∈ nodes then .ok nodes
  else if env.hashes (insert node nodes) then .ok (insert node nodes)
  else .error .noMemory

def checkActivePath (state : TreeIterState Node) (current child : Node) (nodes : Finset Node) :
    Except TreeIterError (TreeIterState Node) := do
  let nodes ← treeIterActivePathInsert env nodes current
  if child ∈ nodes then .error .cycle
  else
    let nodes ← treeIterActivePathInsert env nodes child
    return { state with activePath := some nodes }

def checkTreeIterChildEntry (state : TreeIterState Node) (child : Node) :
    Except TreeIterError (TreeIterState Node) :=
  match state.currentNode with
  | none => .error .typeMismatch
  | some current =>
    if env.typeOf child ≠ env.typeOf current then .error .typeMismatch
    else if state.depthBudget > 0 ∧ state.stackTop + 1 ≥ state.depthBudget then
      .error .depthExceeded
    else
      match state.activePath with
      | some nodes => state.checkActivePath env current child nodes
      | none =>
        if state.stackTop + 1 ≤ kTreeIterActivePathHashThreshold then
          if child = current then .error .cycle
          else if ∃ entry ∈ state.entries, entry.node = some child then .error .cycle
          else .ok state
        else do
          let nodes ← state.treeIterMaterializeActivePath env
          state.checkActivePath env current child nodes

def treeIterEnterChild (state : TreeIterState Node) : TreeIterState Node :=
  { state with depth := state.depth + 1 }

def treeIterLeaveCurrentNode (state : TreeIterState Node) : TreeIterState Node :=
  if state.depth > 0 then
    { state with
      activePath := state.activePath.map fun nodes => nodes \ state.currentNode.toFinset
      depth := state.depth - 1 }
  else state

end Check

end TreeIterState

namespace Machine

section Refs

variable [DecidableEq Node]

def incref (m : Machine Node) (node : Node) : Machine Node :=
  { m with refs := Function.update m.refs node (m.refs node + 1) }

def decref (m : Machine Node) (node : Node) : Machine Node :=
  { m with refs := Function.update m.refs node (m.refs node - 1) }

def xdecref (m : Machine Node) : Option Node → Machine Node
  | some node => m.decref node
  | none => m

def saveCurrentNode (m : Machine Node) (node : Node) : Machine Node :=
  let old := m.state.currentNode
  let m := m.incref node
  { m with state := { m.state with currentNode := some node } }.xdecref old

/-- The register gets a reference of its own; a null node has no result. -/
def loadCurrentNode (m : Machine Node) : Option (Machine Node × Node) :=
  m.state.currentNode.map fun node => (m.incref node, node)

def savePhase (m : Machine Node) (phase : TreeIterPhase) : Machine Node :=
  { m with state := { m.state with currentPhase := phase } }

def leaveCurrentNode (m : Machine Node) : Machine Node :=
  { m with state := m.state.treeIterLeaveCurrentNode }

def grownStack (env : Env Node Value) (state : TreeIterState Node) :
    Option (List (TreeIterStackEntry Node)) :=
  if state.stackTop ≥ state.stack.length then
    if state.stack.length > 1073741823 then none
    else if env.grows (state.stack.length * 2) then
      some (state.stack ++ List.replicate state.stack.length emptyEntry)
    else none
  else some state.stack

def stateStackPush (env : Env Node Value) (m : Machine Node) (node : Node)
    (phase : TreeIterPhase) : Option (Machine Node) := do
  let stack ← grownStack env m.state
  let m := m.incref node
  return { m with state := { m.state with
    stack := stack.set m.state.stackTop ⟨some node, phase⟩
    stackTop := m.state.stackTop + 1 } }

/-- The reference of the entry passes to the register; an empty stack has no result. -/
def stateStackPop (m : Machine Node) : Option (Machine Node × Option Node) :=
  match m.state.stackTop with
  | 0 => none
  | top + 1 => do
      let entry ← m.state.stack[top]?
      return ({ m with state := { m.state with
        stackTop := top
        poppedPhase := entry.phase
        stack := m.state.stack.set top emptyEntry } }, entry.node)

def clear (m : Machine Node) : Node → Int :=
  (m.state.path.foldl decref m).refs

end Refs

end Machine

inductive Config (Node Value : Type) where
  | running (m : Machine Node)
  | suspended (m : Machine Node) (value : Value)
  | returned (refs : Node → Int)
  | raised (refs : Node → Int) (error : TreeIterError)

namespace Config

section Step

variable [DecidableEq Node] (env : Env Node Value)

def pushedPhase (node child : Node) (m : Machine Node) : Machine Node :=
  let m := m.decref node
  let m := { m with state := m.state.treeIterEnterChild }
  (m.saveCurrentNode child).savePhase .kLeft

/-- `bb_left` and `bb_right`: without a child to the next phase, else into the child. -/
def childPhase (child : NodeFields Node Value → Option Node) (ifNone resume : TreeIterPhase)
    (m : Machine Node) : Option (Config Node Value) := do
  let (m, node) ← m.loadCurrentNode
  match child (env.fields node) with
  | none => some (.running ((m.decref node).savePhase ifNone))
  | some child =>
    match m.state.checkTreeIterChildEntry env child with
    | .error error => some (.raised (m.decref node).clear error)
    | .ok state =>
      match Machine.stateStackPush env { m with state := state } node resume with
      | none => some (.raised (m.decref node).clear .noMemory)
      | some m => some (.running (pushedPhase node child m))

def leftPhase (m : Machine Node) : Option (Config Node Value) :=
  childPhase env NodeFields.left .kYield .kYield m

def yieldPhase (m : Machine Node) : Option (Config Node Value) := do
  let (m, node) ← m.loadCurrentNode
  return .suspended (m.decref node) (env.fields node).value

def rightPhase (m : Machine Node) : Option (Config Node Value) :=
  childPhase env NodeFields.right .kBacktrack .kExit m

def popPhase (m : Machine Node) : Option (Config Node Value) := do
  let (m, node) ← m.leaveCurrentNode.stateStackPop
  let node ← node
  let m := (m.saveCurrentNode node).decref node
  return .running (m.savePhase m.state.poppedPhase)

def donePhase (m : Machine Node) : Config Node Value :=
  .returned m.leaveCurrentNode.clear

def backtrackPhase (m : Machine Node) : Option (Config Node Value) :=
  if m.state.stackTop = 0 then some (donePhase m) else popPhase m

def exitPhase (m : Machine Node) : Config Node Value :=
  .running (m.leaveCurrentNode.savePhase .kBacktrack)

/-- The dispatch of `bb_loop`, and the resumption after a yield.  A null node and an empty stack
where there must be none have no result. -/
def step : Config Node Value → Option (Config Node Value)
  | .running m =>
    match m.state.currentPhase with
    | .kLeft => leftPhase env m
    | .kYield => yieldPhase env m
    | .kRight => rightPhase env m
    | .kBacktrack => backtrackPhase m
    | .kExit => some (exitPhase m)
  | .suspended m _ => some (.running (m.savePhase .kRight))
  | .returned _ => none
  | .raised .. => none

end Step

def output : Config Node Value → List Value
  | .suspended _ value => [value]
  | _ => []

def Live : Config Node Value → Prop
  | .running _ => True
  | .suspended .. => True
  | _ => False

def start [DecidableEq Node] (recursionLimit : Int) (root : Node) : Config Node Value :=
  let m : Machine Node := ⟨.allocate recursionLimit, fun _ => 0⟩
  .running ((m.saveCurrentNode root).savePhase .kLeft)

inductive Run [DecidableEq Node] (env : Env Node Value) :
    Config Node Value → List Value → Config Node Value → Prop
  | refl (c : Config Node Value) : Run env c [] c
  | step {c c' c'' : Config Node Value} {values : List Value} (h : c.step env = some c')
      (rest : Run env c' values c'') : Run env c (c'.output ++ values) c''

end Config

end CinderX.Jit.TreeIter
