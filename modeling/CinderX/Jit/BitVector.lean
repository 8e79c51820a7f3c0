import CinderX.Foundation.Words

/-!
# Bit vectors

`BitVector` keeps up to 64 bits in a word and more of them in chunks of 64 bits behind
a pointer.  The functions are `none` where a `JIT_CHECK` fails, and where the word of
the union is a pointer.
-/

namespace CinderX.Jit

open Foundation.Words

/-- The union of `bits` and `bit_vec`. -/
inductive Bits where
  | bits (word : BitVec 64)
  | bit_vec (chunks : List (BitVec 64))
  deriving DecidableEq

namespace Bits

def word : Bits → Option (BitVec 64)
  | bits word => some word
  | bit_vec _ => none

def chunks : Bits → Option (List (BitVec 64))
  | bits _ => none
  | bit_vec chunks => some chunks

end Bits

structure BitVector where
  num_bits : Nat
  bits : Bits
  deriving DecidableEq

inductive BitOp where
  | and
  | or
  | sub

def BitOp.word : BitOp → BitVec 64 → BitVec 64 → BitVec 64
  | and, a, b => a &&& b
  | or, a, b => a ||| b
  | sub, a, b => a &&& ~~~b

abbrev PTR_WIDTH : Nat := 64

def numChunks (num_bits : Nat) : Nat :=
  num_bits / PTR_WIDTH + if num_bits % PTR_WIDTH = 0 then 0 else 1

def lowMask (n : Nat) : BitVec 64 := (1#64 <<< n) - 1

def setWordBit (bit : Nat) (v : Bool) (val : BitVec 64) : BitVec 64 :=
  if v then val ||| 1#64 <<< bit else val &&& ~~~(1#64 <<< bit)

def resize (chunks : List (BitVec 64)) (size : Nat) : List (BitVec 64) :=
  chunks.take size ++ List.replicate (size - chunks.length) 0

def forEachBitInChunk (chunk : BitVec 64) (base : Nat) : List Nat :=
  if _h : chunk = 0 then []
  else (chunk.ctz.toNat + base) :: forEachBitInChunk (chunk ^^^ (chunk &&& -chunk)) base
  termination_by chunk.toNat
  decreasing_by exact toNat_clearLowest_lt _h

def forEachChunk (base : Nat) : List (BitVec 64) → List Nat
  | [] => []
  | chunk :: chunks => forEachBitInChunk chunk base ++ forEachChunk (base + PTR_WIDTH) chunks

namespace BitVector

def isShortVector (bv : BitVector) : Bool := decide (bv.num_bits ≤ PTR_WIDTH)

def empty : BitVector := ⟨0, .bits 0⟩

def ofSize (nb : Nat) : BitVector :=
  if nb ≤ PTR_WIDTH then ⟨nb, .bits 0⟩
  else ⟨nb, .bit_vec (List.replicate (numChunks nb) 0)⟩

def ofValue (nb : Nat) (val : BitVec 64) : Option BitVector :=
  if nb ≤ 64 ∧ (nb = 64 ∨ val &&& ~~~lowMask nb = 0) then some ⟨nb, .bits val⟩ else none

def copyAssign (self bv : BitVector) : Option BitVector :=
  match self.isShortVector, bv.isShortVector with
  | _, true => some ⟨bv.num_bits, bv.bits⟩
  | true, false => do return ⟨bv.num_bits, .bit_vec (← bv.bits.chunks)⟩
  | false, false => do
      let _ ← self.bits.chunks
      return ⟨bv.num_bits, .bit_vec (← bv.bits.chunks)⟩

/-- `operator=(BitVector&&)` with another vector, and what is left of that one. -/
def moveAssign (bv : BitVector) : BitVector × BitVector :=
  (⟨bv.num_bits, bv.bits⟩, ⟨0, bv.bits⟩)

def eq (self rhs : BitVector) : Option Bool :=
  if self.num_bits ≠ rhs.num_bits then none
  else if self.isShortVector then do return (← self.bits.word) = (← rhs.bits.word)
  else do return (← self.bits.chunks) = (← rhs.bits.chunks)

def binaryOp (op : BitOp) (self rhs : BitVector) : Option BitVector :=
  if self.num_bits ≠ rhs.num_bits then none
  else if self.isShortVector then do
    ofValue self.num_bits (op.word (← self.bits.word) (← rhs.bits.word))
  else do
    return ⟨self.num_bits, .bit_vec (List.zipWith op.word (← self.bits.chunks) (← rhs.bits.chunks))⟩

def binaryOpAssign (op : BitOp) (self rhs : BitVector) : Option BitVector :=
  if self.num_bits ≠ rhs.num_bits then none
  else if self.isShortVector then do
    return { self with bits := .bits (op.word (← self.bits.word) (← rhs.bits.word)) }
  else do
    let chunks := List.zipWith op.word (← self.bits.chunks) (← rhs.bits.chunks)
    return { self with bits := .bit_vec chunks }

def resetAll (bv : BitVector) : Option BitVector :=
  if bv.isShortVector then some { bv with bits := .bits 0 }
  else do return { bv with bits := .bit_vec ((← bv.bits.chunks).map fun _ => 0) }

def fill (bv : BitVector) (v : Bool) : Option BitVector :=
  if !v then bv.resetAll
  else if bv.isShortVector then
    if bv.num_bits = PTR_WIDTH then some { bv with bits := .bits (-1) }
    else some { bv with bits := .bits (lowMask bv.num_bits) }
  else do
    let chunks ← bv.bits.chunks
    let remainder := bv.num_bits % PTR_WIDTH
    let back := if remainder = 0 then -1 else lowMask remainder
    return { bv with bits := .bit_vec ((chunks.dropLast.map fun _ => -1) ++ [back]) }

def setBit (bv : BitVector) (bit : Nat) (v : Bool) : Option BitVector :=
  if ¬ bit < bv.num_bits then none
  else if bv.isShortVector then do
    return { bv with bits := .bits (setWordBit bit v (← bv.bits.word)) }
  else do
    let chunks ← bv.bits.chunks
    if bit / PTR_WIDTH < chunks.length then
      let chunks := chunks.modify (bit / PTR_WIDTH) (setWordBit (bit % PTR_WIDTH) v)
      return { bv with bits := .bit_vec chunks }
    else none

def setBitChunk (bv : BitVector) (chunk : Nat) (bits : BitVec 64) : Option BitVector :=
  let num_chunks := (bv.num_bits + PTR_WIDTH - 1) / PTR_WIDTH
  let remainder := bv.num_bits % PTR_WIDTH
  if ¬ chunk < num_chunks then none
  else if chunk = num_chunks - 1 ∧ remainder ≠ 0 ∧ ~~~lowMask remainder &&& bits ≠ 0 then none
  else if bv.isShortVector then some { bv with bits := .bits bits }
  else do return { bv with bits := .bit_vec ((← bv.bits.chunks).set chunk bits) }

def setBitWidth (bv : BitVector) (size : Nat) : Option BitVector :=
  if bv.num_bits = size then some bv
  else do
    let bits ← match bv.isShortVector, decide (size ≤ PTR_WIDTH) with
      | true, false => do
          let old_bits ← bv.bits.word
          pure (.bit_vec (old_bits :: List.replicate (numChunks size - 1) 0))
      | false, false => do pure (.bit_vec (resize (← bv.bits.chunks) (numChunks size)))
      | false, true => do pure (.bits (← (← bv.bits.chunks)[0]?))
      | true, true => pure bv.bits
    -- the mask is `0` for a multiple of `PTR_WIDTH`
    let high_mask := lowMask (size % PTR_WIDTH)
    match bits with
    | .bits word => some ⟨size, .bits (word &&& high_mask)⟩
    | .bit_vec chunks =>
      if size ≤ PTR_WIDTH then none
      else some ⟨size, .bit_vec (chunks.modify (chunks.length - 1) (· &&& high_mask))⟩

def addBits (bv : BitVector) (i : Nat) : Option (Nat × BitVector) := do
  let new_num_bits := (bv.num_bits + i) % 2 ^ 64
  return (new_num_bits, ← bv.setBitWidth new_num_bits)

def getBit (bv : BitVector) (bit : Nat) : Option Bool :=
  if ¬ bit < bv.num_bits then none
  else if bv.isShortVector then do return (← bv.bits.word) &&& 1#64 <<< bit ≠ 0
  else do
    let chunk ← (← bv.bits.chunks)[bit / PTR_WIDTH]?
    return chunk &&& 1#64 <<< (bit % PTR_WIDTH) ≠ 0

def forEachSetBit (bv : BitVector) : Option (List Nat) :=
  if bv.isShortVector then do return forEachBitInChunk (← bv.bits.word) 0
  else do return forEachChunk 0 (← bv.bits.chunks)

def getBitChunk (bv : BitVector) (chunk : Nat) : Option (BitVec 64) :=
  if bv.isShortVector then if chunk = 0 then bv.bits.word else none
  else do (← bv.bits.chunks)[chunk]?

def getPopCount (bv : BitVector) : Option Nat :=
  if bv.isShortVector then do return (← bv.bits.word).cpop.toNat
  else do return ((← bv.bits.chunks).map fun b => b.cpop.toNat).sum

def isEmpty (bv : BitVector) : Option Bool :=
  if bv.isShortVector then do return (← bv.bits.word) = 0
  else do return (← bv.bits.chunks).all (· = 0)

def words (bv : BitVector) : Option (List (BitVec 64)) :=
  if bv.isShortVector then do return [← bv.bits.word] else bv.bits.chunks

end BitVector

inductive Operation (Var : Type) where
  | construct (x : Var) (nb : Nat)
  | constructValue (x : Var) (nb : Nat) (val : BitVec 64)
  | copyAssign (x y : Var)
  | moveAssign (x y : Var)
  | setBit (x : Var) (bit : Nat) (v : Bool)
  | fill (x : Var) (v : Bool)
  | resetAll (x : Var)
  | setBitChunk (x : Var) (chunk : Nat) (bits : BitVec 64)
  | binaryOp (op : BitOp) (x y z : Var)
  | binaryOpAssign (op : BitOp) (x y : Var)
  | addBits (x : Var) (i : Nat)
  | setBitWidth (x : Var) (size : Nat)

variable {Var : Type} [DecidableEq Var]

def step (s : Var → BitVector) : Operation Var → Option (Var → BitVector)
  | .construct x nb => some (Function.update s x (.ofSize nb))
  | .constructValue x nb val => do return Function.update s x (← BitVector.ofValue nb val)
  | .copyAssign x y =>
    if x = y then some s else do return Function.update s x (← (s x).copyAssign (s y))
  | .moveAssign x y =>
    if x = y then some s
    else some (Function.update (Function.update s x (s y).moveAssign.1) y (s y).moveAssign.2)
  | .setBit x bit v => do return Function.update s x (← (s x).setBit bit v)
  | .fill x v => do return Function.update s x (← (s x).fill v)
  | .resetAll x => do return Function.update s x (← (s x).resetAll)
  | .setBitChunk x chunk bits => do return Function.update s x (← (s x).setBitChunk chunk bits)
  | .binaryOp op x y z => do return Function.update s x (← (s y).binaryOp op (s z))
  | .binaryOpAssign op x y => do return Function.update s x (← (s x).binaryOpAssign op (s y))
  | .addBits x i => do return Function.update s x (← (s x).addBits i).2
  | .setBitWidth x size => do return Function.update s x (← (s x).setBitWidth size)

def run (s : Var → BitVector) (ops : List (Operation Var)) : Option (Var → BitVector) :=
  ops.foldlM step s

end CinderX.Jit

/-!
## Bit vectors as sequences of bits

What the operations of a bit vector are for: the value of a vector is a list of booleans.
-/

namespace CinderX.Jit

open Foundation.Words

def BitOp.bool : BitOp → Bool → Bool → Bool
  | and, a, b => a && b
  | or, a, b => a || b
  | sub, a, b => a && !b

namespace BitSequence

def setWidth (l : List Bool) (n : Nat) : List Bool :=
    l.take n ++ List.replicate (n - l.length) false

def setChunk (l : List Bool) (chunk : Nat) (bits : BitVec 64) : List Bool :=
  l.mapIdx fun i b => if i / PTR_WIDTH = chunk then bits.getLsbD (i % PTR_WIDTH) else b

variable {Var : Type} [DecidableEq Var]

def step (s : Var → List Bool) : Operation Var → Option (Var → List Bool)
  | .construct x nb => some (Function.update s x (List.replicate nb false))
  | .constructValue x nb val =>
    if nb ≤ PTR_WIDTH ∧ val.toNat < 2 ^ nb then
      some (Function.update s x ((List.range nb).map val.getLsbD))
    else none
  | .copyAssign x y => some (Function.update s x (s y))
  | .moveAssign x y =>
    if x = y then some s else some (Function.update (Function.update s x (s y)) y [])
  | .setBit x bit v =>
    if bit < (s x).length then some (Function.update s x ((s x).set bit v)) else none
  | .fill x v => some (Function.update s x (List.replicate (s x).length v))
  | .resetAll x => some (Function.update s x (List.replicate (s x).length false))
  | .setBitChunk x chunk bits =>
    if PTR_WIDTH * chunk < (s x).length ∧
        ∀ i < PTR_WIDTH, bits.getLsbD i → PTR_WIDTH * chunk + i < (s x).length then
      some (Function.update s x (setChunk (s x) chunk bits))
    else none
  | .binaryOp op x y z =>
    if (s y).length = (s z).length then
      some (Function.update s x (List.zipWith op.bool (s y) (s z)))
    else none
  | .binaryOpAssign op x y =>
    if (s x).length = (s y).length then
      some (Function.update s x (List.zipWith op.bool (s x) (s y)))
    else none
  | .addBits x i => some (Function.update s x (setWidth (s x) (((s x).length + i) % 2 ^ 64)))
  | .setBitWidth x size => some (Function.update s x (setWidth (s x) size))

def run (s : Var → List Bool) (ops : List (Operation Var)) : Option (Var → List Bool) :=
  ops.foldlM step s

end BitSequence

/-- The vector shows the bits of the list, and no other bit is set in it. -/
structure Represents (bv : BitVector) (l : List Bool) : Prop where
  num_bits : bv.num_bits = l.length
  getBit : ∀ i, bv.getBit i = l[i]?
  getPopCount : bv.getPopCount = some (l.count true)
  isEmpty : bv.isEmpty = some (!l.contains true)
  getBitChunk : ∀ chunk < max 1 (numChunks l.length), ∃ bits, bv.getBitChunk chunk = some bits ∧
    ∀ i < PTR_WIDTH, bits.getLsbD i = l.getD (PTR_WIDTH * chunk + i) false
  noBitChunk : ∀ chunk, max 1 (numChunks l.length) ≤ chunk → bv.getBitChunk chunk = none
  forEachSetBit : bv.forEachSetBit = some ((List.range l.length).filter (l.getD · false))
  clean : ∃ ws, bv.words = some ws ∧ ∀ i, l.length ≤ i → wordBit ws i = false

variable {Var : Type}

/-- Every vector shows the bits of its list, and two vectors of one width are equal if their
lists are. -/
structure Agrees (s : Var → BitVector) (l : Var → List Bool) : Prop where
  represents : ∀ x, Represents (s x) (l x)
  eq : ∀ x y, (s x).eq (s y) =
    if (l x).length = (l y).length then some (decide (l x = l y)) else none

/-- The width that a change of the width leaves alone, or cuts without a loss. -/
def KeepsBits (l : List Bool) (n : Nat) : Prop :=
  n = l.length ∨ n % PTR_WIDTH ≠ 0 ∨ ∀ i < n, n - PTR_WIDTH ≤ i → l[i]? ≠ some true

/-- An operation that sets no width to a multiple of 64 while a bit of the last chunk is set,
and moves from no vector that has a bit set or has chunks. -/
def Operation.Faithful (l : Var → List Bool) : Operation Var → Prop
  | .moveAssign x y => x = y ∨ (l y).length ≤ PTR_WIDTH ∧ true ∉ l y
  | .addBits x i => KeepsBits (l x) (((l x).length + i) % 2 ^ 64)
  | .setBitWidth x size => KeepsBits (l x) size
  | _ => True

def Faithful [DecidableEq Var] : (Var → List Bool) → List (Operation Var) → Prop
  | _, [] => True
  | l, op :: ops => op.Faithful l ∧ ∀ l', BitSequence.step l op = some l' → Faithful l' ops

end CinderX.Jit
