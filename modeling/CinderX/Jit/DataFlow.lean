import CinderX.Jit.BitVector

/-!
# The data flow analyzer

`Jit/dataflow.h`.  Blocks are numbered.  The functions are `none` where a `JIT_CHECK` of a
bit vector fails, and where `at` does not find its key.
-/

namespace CinderX.Jit.Optimizer

/-- `pred_` and `succ_` are sets; the order of a list means nothing. -/
structure DataFlowBlock where
  gen_ : BitVector := .empty
  kill_ : BitVector := .empty
  in_ : BitVector := .empty
  out_ : BitVector := .empty
  pred_ : List Nat := []
  succ_ : List Nat := []

namespace DataFlowBlock

def setBitWidth (b : DataFlowBlock) (size : Nat) : Option DataFlowBlock := do
  return { b with
    gen_ := ← b.gen_.setBitWidth size
    kill_ := ← b.kill_.setBitWidth size
    in_ := ← b.in_.setBitWidth size
    out_ := ← b.out_.setBitWidth size }

def addBits (b : DataFlowBlock) (i : Nat) : Option DataFlowBlock := do
  return { b with
    gen_ := (← b.gen_.addBits i).2
    kill_ := (← b.kill_.addBits i).2
    in_ := (← b.in_.addBits i).2
    out_ := (← b.out_.addBits i).2 }

end DataFlowBlock

structure DataFlowAnalyzer (T : Type) where
  obj_to_index_map_ : T → Option Nat := fun _ => none
  index_to_obj_map_ : List T := []
  blocks_ : List Nat := []
  num_bits_ : Nat := 0
  entry_block_ : Option Nat := none
  exit_block_ : Option Nat := none
  block : Nat → DataFlowBlock := fun _ => {}

namespace DataFlowAnalyzer

variable {T : Type} [DecidableEq T] (a : DataFlowAnalyzer T)

def modify (b : Nat) (f : DataFlowBlock → Option DataFlowBlock) : Option (DataFlowAnalyzer T) := do
  let updated ← f (a.block b)
  return { a with block := Function.update a.block b updated }

def modifyAll (f : DataFlowBlock → Option DataFlowBlock) : Option (DataFlowAnalyzer T) :=
  a.blocks_.foldlM (fun a b => a.modify b f) a

def ConnectTo (source target : Nat) : Option (DataFlowAnalyzer T) := do
  let a ← a.modify source fun b => some { b with succ_ := b.succ_.insert target }
  a.modify target fun b => some { b with pred_ := b.pred_.insert source }

def AddBlock (b : Nat) : Option (DataFlowAnalyzer T) :=
  { a with blocks_ := a.blocks_.insert b }.modify b (·.setBitWidth a.num_bits_)

/-- `obj_to_index_map_.emplace`, `index_to_obj_map_.emplace_back` and `num_bits_++`. -/
def intern (obj : T) : DataFlowAnalyzer T :=
  { a with
    obj_to_index_map_ :=
      if (a.obj_to_index_map_ obj).isSome then a.obj_to_index_map_
      else Function.update a.obj_to_index_map_ obj (some a.num_bits_)
    index_to_obj_map_ := a.index_to_obj_map_ ++ [obj]
    num_bits_ := (a.num_bits_ + 1) % 2 ^ 64 }

def AddObject (obj : T) : Option (DataFlowAnalyzer T) := (a.intern obj).modifyAll (·.addBits 1)

def AddObjects (objs : List T) : Option (DataFlowAnalyzer T) :=
  (objs.foldl intern a).modifyAll (·.addBits objs.length)

def SetBlockGenBit (b : Nat) (bit : T) : Option (DataFlowAnalyzer T) := do
  let pos ← a.obj_to_index_map_ bit
  a.modify b fun block => do return { block with gen_ := ← block.gen_.setBit pos true }

def SetBlockGenBits (b : Nat) (bits : List T) : Option (DataFlowAnalyzer T) :=
  bits.foldlM (fun a bit => a.SetBlockGenBit b bit) a

def SetBlockKillBit (b : Nat) (bit : T) : Option (DataFlowAnalyzer T) := do
  let pos ← a.obj_to_index_map_ bit
  a.modify b fun block => do return { block with kill_ := ← block.kill_.setBit pos true }

def SetBlockKillBits (b : Nat) (bits : List T) : Option (DataFlowAnalyzer T) :=
  bits.foldlM (fun a bit => a.SetBlockKillBit b bit) a

def SetEntryBlock (b : Nat) : DataFlowAnalyzer T := { a with entry_block_ := some b }

def SetExitBlock (b : Nat) : DataFlowAnalyzer T := { a with entry_block_ := some b }

def GetBlockInBit (b : Nat) (bit : T) : Option Bool := do
  (a.block b).in_.getBit (← a.obj_to_index_map_ bit)

def GetBlockOutBit (b : Nat) (bit : T) : Option Bool := do
  (a.block b).out_.getBit (← a.obj_to_index_map_ bit)

structure Iteration (a : DataFlowAnalyzer T) where
  blocks : List Nat
  preds : Nat → List Nat
  succs : Nat → List Nat
  blocks_perm : blocks.Perm a.blocks_
  preds_perm : ∀ b, (preds b).Perm (a.block b).pred_
  succs_perm : ∀ b, (succs b).Perm (a.block b).succ_

variable {a} (it : a.Iteration) (forward : Bool)

def Iteration.pred (b : Nat) : List Nat := if forward then it.preds b else it.succs b

def Iteration.succ (b : Nat) : List Nat := if forward then it.succs b else it.preds b

end DataFlowAnalyzer

namespace DataFlowBlock

variable (forward : Bool) (b : DataFlowBlock)

def flowIn : BitVector := if forward then b.in_ else b.out_

def flowOut : BitVector := if forward then b.out_ else b.in_

def setFlowIn (new_in : BitVector) : DataFlowBlock :=
  if forward then { b with in_ := new_in.moveAssign.1 } else { b with out_ := new_in.moveAssign.1 }

def setFlowOut (new_out : BitVector) : DataFlowBlock :=
  if forward then { b with out_ := new_out.moveAssign.1 }
  else { b with in_ := new_out.moveAssign.1 }

end DataFlowBlock

namespace DataFlowAnalyzer

variable {T : Type} {a : DataFlowAnalyzer T} (it : a.Iteration) (forward : Bool)

def visit (block : Nat → DataFlowBlock) (b : Nat) : Option ((Nat → DataFlowBlock) × Bool) := do
  let new_in ← (it.pred forward b).foldlM
    (fun new_in p => new_in.binaryOpAssign .or ((block p).flowOut forward))
    (BitVector.ofSize a.num_bits_)
  let same_in ← new_in.eq ((block b).flowIn forward)
  let updated := (block b).setFlowIn forward new_in
  let new_out ← updated.gen_.binaryOp .or (← (updated.flowIn forward).binaryOp .sub updated.kill_)
  let same_out ← new_out.eq (updated.flowOut forward)
  return (Function.update block b (updated.setFlowOut forward new_out), !same_in || !same_out)

def runLoop : Nat → (Nat → DataFlowBlock) → List Nat → Option (Nat → DataFlowBlock)
  | _, block, [] => some block
  | 0, _, _ :: _ => none
  | fuel + 1, block, b :: blocks => do
      let (block, changed) ← visit it forward block b
      runLoop fuel block (if changed then blocks ++ it.succ forward b else blocks)

def boundary (a : DataFlowAnalyzer T) (forward : Bool) : Option Nat :=
  if forward then a.entry_block_ else a.exit_block_

def RunAnalysis (fuel : Nat) : Option (DataFlowAnalyzer T) := do
  let blocks := it.blocks.filter fun b => some b ≠ a.boundary forward
  return { a with block := ← runLoop it forward fuel a.block blocks }

end DataFlowAnalyzer

inductive Call (T : Type) where
  | addBlock (b : Nat)
  | connectTo (source target : Nat)
  | addObject (obj : T)
  | addObjects (objs : List T)
  | setBlockGenBit (b : Nat) (bit : T)
  | setBlockGenBits (b : Nat) (bits : List T)
  | setBlockKillBit (b : Nat) (bit : T)
  | setBlockKillBits (b : Nat) (bits : List T)
  | setEntryBlock (b : Nat)
  | setExitBlock (b : Nat)

namespace DataFlowAnalyzer

variable {T : Type} [DecidableEq T]

def call (a : DataFlowAnalyzer T) : Call T → Option (DataFlowAnalyzer T)
  | .addBlock b => a.AddBlock b
  | .connectTo source target => a.ConnectTo source target
  | .addObject obj => a.AddObject obj
  | .addObjects objs => a.AddObjects objs
  | .setBlockGenBit b bit => a.SetBlockGenBit b bit
  | .setBlockGenBits b bits => a.SetBlockGenBits b bits
  | .setBlockKillBit b bit => a.SetBlockKillBit b bit
  | .setBlockKillBits b bits => a.SetBlockKillBits b bits
  | .setEntryBlock b => some (a.SetEntryBlock b)
  | .setExitBlock b => some (a.SetExitBlock b)

def build (calls : List (Call T)) : Option (DataFlowAnalyzer T) :=
  calls.foldlM call ({} : DataFlowAnalyzer T)

end DataFlowAnalyzer

structure BitSets (T : Type) where
  bits : Nat → Finset T := fun _ => ∅
  forgotten : Nat → Finset T := fun _ => ∅

namespace BitSets

variable {T : Type} [DecidableEq T] (s : BitSets T)

def set (b : Nat) (bit : T) : BitSets T where
  bits := Function.update s.bits b (insert bit (s.bits b))
  forgotten := Function.update s.forgotten b ((s.forgotten b).erase bit)

/-- The last chunk is forgotten where the width becomes a multiple of 64. -/
def widen (objects : List T) (width : Nat) : BitSets T where
  bits := s.bits
  forgotten b := s.forgotten b ∪
    (s.bits b).filter fun bit => width % 64 = 0 ∧ width ≤ objects.idxOf bit + 64

end BitSets

structure Problem (T : Type) where
  objects : List T := []
  blocks : List Nat := []
  pred : Nat → List Nat := fun _ => []
  succ : Nat → List Nat := fun _ => []
  gen : BitSets T := {}
  kill : BitSets T := {}
  entry : Option Nat := none
  exit : Option Nat := none

namespace Problem

variable {T : Type} [DecidableEq T] (p : Problem T)

def addObjects (objs : List T) : Problem T :=
  if objs = [] then p
  else
    let objects := p.objects ++ objs
    { p with
      objects := objects
      gen := p.gen.widen objects objects.length
      kill := p.kill.widen objects objects.length }

def call : Call T → Problem T
  | .addBlock b => { p with blocks := p.blocks.insert b }
  | .connectTo source target =>
    { p with
      succ := Function.update p.succ source ((p.succ source).insert target)
      pred := Function.update p.pred target ((p.pred target).insert source) }
  | .addObject obj => p.addObjects [obj]
  | .addObjects objs => p.addObjects objs
  | .setBlockGenBit b bit => { p with gen := p.gen.set b bit }
  | .setBlockGenBits b bits => { p with gen := bits.foldl (·.set b) p.gen }
  | .setBlockKillBit b bit => { p with kill := p.kill.set b bit }
  | .setBlockKillBits b bits => { p with kill := bits.foldl (·.set b) p.kill }
  | .setEntryBlock b => { p with entry := some b }
  | .setExitBlock b => { p with exit := some b }

def ofCalls (calls : List (Call T)) : Problem T := calls.foldl call {}

end Problem

end CinderX.Jit.Optimizer
