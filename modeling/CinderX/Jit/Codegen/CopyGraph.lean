import CinderX.Jit.Lir.DataType

/-!
# The copy graph

`CopyGraph` turns a set of simultaneous copies between registers (non-negative
locations) and memory (negative locations) into a sequence of copies and
exchanges.  The nodes of the source live in an ordered map keyed by location
and are threaded on intrusive lists; here the map is the ascending list of its
keys, and the fields of a node are functions of its location.  Destroying a
node unlinks it from the lists it is on.

The three loops take fuel and return `none` when it runs out, when a check of
the source fails, or when the source would follow a null pointer.
-/

namespace CinderX.Jit.Codegen

abbrev Loc := Int

/-- The temporary location of the source, `std::numeric_limits<int>::max()`. -/
def kTempLoc : Loc := 2147483647

inductive OpKind where
  | kCopy
  | kExchange
  deriving DecidableEq, Repr

structure Op where
  kind : OpKind
  fromLoc : Loc
  toLoc : Loc
  deriving DecidableEq, Repr

structure CopyGraph where
  nodes : List Loc
  parent : Loc → Option Loc
  children : Loc → List Loc
  leafNodes : List Loc

namespace CopyGraph

def empty : CopyGraph := ⟨[], fun _ => none, fun _ => [], []⟩

def isEmpty (g : CopyGraph) : Bool := g.nodes.isEmpty

def unlinkChild (g : CopyGraph) (loc : Loc) : CopyGraph :=
  match g.parent loc with
  | none => g
  | some p =>
    { g with
      children := Function.update g.children p ((g.children p).erase loc) }

def getNode (g : CopyGraph) (loc : Loc) : CopyGraph :=
  if loc ∈ g.nodes then g
  else
    { nodes := g.nodes.orderedInsert (· ≤ ·) loc
      parent := Function.update g.parent loc none
      children := Function.update g.children loc []
      leafNodes := g.leafNodes ++ [loc] }

def setParent (g : CopyGraph) (child : Loc) (parent : Option Loc) : CopyGraph :=
  let g := g.unlinkChild child
  let g := { g with parent := Function.update g.parent child parent }
  match parent with
  | none => g
  | some p =>
    { g with
      children := Function.update g.children p (g.children p ++ [child])
      leafNodes := g.leafNodes.erase p }

def eraseNode (g : CopyGraph) (loc : Loc) : CopyGraph :=
  let g := g.unlinkChild loc
  { nodes := g.nodes.erase loc
    parent := Function.update g.parent loc none
    children := Function.update g.children loc []
    leafNodes := g.leafNodes.erase loc }

def addEdge (g : CopyGraph) (fromLoc toLoc : Loc) : Option CopyGraph :=
  let g := (g.getNode fromLoc).getNode toLoc
  match g.parent toLoc with
  | none => some (g.setParent toLoc (some fromLoc))
  | some _ => none

def addEdges (g : CopyGraph) : List (Loc × Loc) → Option CopyGraph
  | [] => some g
  | (fromLoc, toLoc) :: edges => do
      let g ← g.addEdge fromLoc toLoc
      g.addEdges edges

def inRegisterCycleFrom (g : CopyGraph) (node : Loc) : Nat → Loc → Option Bool
  | 0, _ => none
  | fuel + 1, cursor =>
    if cursor < 0 then some false
    else
      match g.parent cursor with
      | none => none
      | some next =>
        if next = node then some true
        else g.inRegisterCycleFrom node fuel next

def inRegisterCycle (fuel : Nat) (g : CopyGraph) (node : Loc) : Option Bool :=
  g.inRegisterCycleFrom node fuel node

/--
Erase a copied leaf.  A parent left without children goes to the front of the
worklist, or is erased as well when it is the source of the chain.
-/
def retireLeaf (g : CopyGraph) (node parent : Loc) : CopyGraph :=
  let g := g.eraseNode node
  if g.children parent = [] then
    match g.parent parent with
    | none => g.eraseNode parent
    | some _ => { g with leafNodes := parent :: g.leafNodes }
  else g

def processLeafNodes : Nat → CopyGraph → Option (CopyGraph × List Op)
  | 0, _ => none
  | fuel + 1, g =>
    match g.leafNodes with
    | [] => some (g, [])
    | node :: leaves =>
      match g.parent node with
      | none => none
      | some parent => do
          let g := { g with leafNodes := leaves }.retireLeaf node parent
          let (g, ops) ← processLeafNodes fuel g
          some (g, ⟨.kCopy, parent, node⟩ :: ops)

/-- The loop that walks a broken register cycle up to its root. -/
def exchangeChain : Nat → CopyGraph → Loc → Option (CopyGraph × List Op)
  | 0, _, _ => none
  | fuel + 1, g, node =>
    match g.parent node with
    | none => some (g.eraseNode node, [])
    | some parent => do
        let (g, ops) ← exchangeChain fuel (g.eraseNode node) parent
        some (g, ⟨.kExchange, node, parent⟩ :: ops)

def saveToTemp (g : CopyGraph) (node child : Loc) : CopyGraph :=
  let g := (g.getNode kTempLoc).setParent child (some kTempLoc)
  { g with leafNodes := g.leafNodes ++ [node] }

def processCycle (fuel : Nat) (g : CopyGraph) (node : Loc) :
    Option (CopyGraph × List Op) := do
  let registers ← inRegisterCycle fuel g node
  let child ← (g.children node).head?
  if registers then
    exchangeChain fuel (g.setParent child none) node
  else
    let (g, ops) ← processLeafNodes fuel (g.saveToTemp node child)
    some (g, ⟨.kCopy, node, kTempLoc⟩ :: ops)

def processCycles : Nat → CopyGraph → Option (CopyGraph × List Op)
  | 0, _ => none
  | fuel + 1, g =>
    match g.nodes with
    | [] => some (g, [])
    | node :: _ => do
        let (g, ops) ← processCycle (fuel + 1) g node
        let (g, rest) ← processCycles fuel g
        some (g, ops ++ rest)

def process (fuel : Nat) (g : CopyGraph) : Option (CopyGraph × List Op) := do
  let (g, ops) ← processLeafNodes fuel g
  let (g, rest) ← processCycles fuel g
  some (g, ops ++ rest)

end CopyGraph

end CinderX.Jit.Codegen

/-!
## Copy graphs with data types

`CopyGraphWithType` remembers the data type each source location was added
with, and gives every operation of the plain copy graph a type.
-/

namespace CinderX.Jit.Codegen

open Lir (DataType bitSize resolveDataType)

structure TypedEdge where
  fromLoc : Loc
  toLoc : Loc
  type : DataType
  deriving DecidableEq, Repr

def TypedEdge.endpoints (e : TypedEdge) : Loc × Loc := (e.fromLoc, e.toLoc)

structure TypedOp where
  op : Op
  type : DataType
  deriving DecidableEq, Repr

abbrev FromTypes := Loc → Option DataType

structure CopyGraphWithType where
  graph : CopyGraph
  fromTypes : FromTypes

namespace CopyGraphWithType

def empty : CopyGraphWithType := ⟨CopyGraph.empty, fun _ => none⟩

def addEdge (g : CopyGraphWithType) (e : TypedEdge) : Option CopyGraphWithType := do
  let type := (g.fromTypes e.fromLoc).getD e.type
  if type = e.type then
    let graph ← g.graph.addEdge e.fromLoc e.toLoc
    some ⟨graph, Function.update g.fromTypes e.fromLoc (some type)⟩
  else none

def addEdges (g : CopyGraphWithType) : List TypedEdge → Option CopyGraphWithType
  | [] => some g
  | e :: edges => do
      let g ← g.addEdge e
      g.addEdges edges

def opType (fromTypes : FromTypes) (op : Op) : Option DataType := do
  let fromType ← fromTypes op.fromLoc
  match op.kind with
  | .kCopy => some fromType
  | .kExchange => do
      let toType ← fromTypes op.toLoc
      resolveDataType fromType toType

def typeOps : FromTypes → List Op → Option (List TypedOp)
  | _, [] => some []
  | fromTypes, op :: ops => do
      let type ← opType fromTypes op
      let fromTypes :=
        if op.toLoc = kTempLoc then Function.update fromTypes kTempLoc (some type)
        else fromTypes
      let rest ← typeOps fromTypes ops
      some (⟨op, type⟩ :: rest)

def process (fuel : Nat) (g : CopyGraphWithType) : Option (List TypedOp) := do
  let (_, ops) ← g.graph.process fuel
  typeOps g.fromTypes ops

end CopyGraphWithType

end CinderX.Jit.Codegen
