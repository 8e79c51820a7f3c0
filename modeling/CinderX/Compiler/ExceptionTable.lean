import CinderX.Foundation.Basic

/-!
# The exception table and the JIT's decoder

`emitItem` is `ExceptionTable.emit_item` of the bytecode compiler, with one branch for
each group of six bits; `parseExceptionTable` is the reader of the JIT's behaviour
classifier.  The reader gives an entry back exactly when none of its numbers is `2 ^ 24`.
-/

namespace CinderX.Compiler

def continuedByte (value shift msb : Nat) : Nat := (value >>> shift) &&& 63 ||| 64 ||| msb

/-- `for i in (18, 12, 6)`, with the bytes written and `msb`. -/
def emitGroup (value : Nat) (s : List Nat × Nat) (i : Nat) : List Nat × Nat :=
  if value ≥ 1 <<< i then (s.1 ++ [continuedByte value i s.2], 0) else s

def emitItem (value msb : Nat) : Option (List Nat) :=
  if msb ||| 128 = 128 ∧ value < 1 <<< 30 then
    let s := if value > 1 <<< 24 then ([value >>> 24 ||| 64 ||| msb], 0) else ([], msb)
    let s := [18, 12, 6].foldl (emitGroup value) s
    some (s.1 ++ [value &&& 63 ||| s.2])
  else none

structure Handler where
  offset : Nat
  startdepth : Nat
  preserveLasti : Bool
  deriving DecidableEq, Repr

structure TableEntry where
  start : Nat
  stop : Nat
  handler : Handler
  deriving DecidableEq, Repr

namespace TableEntry

def size (e : TableEntry) : Nat := e.stop - e.start

def depth (e : TableEntry) : Int :=
  if e.handler.preserveLasti then (e.handler.startdepth - 1 : Int) - 1
  else e.handler.startdepth - 1

def depthLasti (e : TableEntry) : Nat :=
  e.depth.toNat <<< 1 ||| e.handler.preserveLasti.toNat

def values (e : TableEntry) : List Nat := [e.start, e.size, e.handler.offset, e.depthLasti]

end TableEntry

def emitEntry (e : TableEntry) : Option (List Nat) :=
  if e.stop > e.start ∧ e.depth ≥ 0 then do
    let start ← emitItem e.start (1 <<< 7)
    let size ← emitItem e.size 0
    let target ← emitItem e.handler.offset 0
    let depthLasti ← emitItem e.depthLasti 0
    return start ++ size ++ target ++ depthLasti
  else none

def emitEntries (entries : List TableEntry) : Option (List (List Nat)) :=
  entries.mapM emitEntry

def uint32Max : Nat := 2 ^ 32 - 1

/-- The `while` loop of `parse_varint`, after a byte with the continuation bit. -/
def parseContinued (value : Nat) : List Nat → Option (Nat × List Nat)
  | [] => none
  | byte :: data =>
    if value > uint32Max >>> 6 then none
    else
      let value := (value <<< 6 ||| (byte &&& 63)) % 2 ^ 32
      if byte &&& 64 ≠ 0 then parseContinued value data else some (value, data)

def parseVarint : List Nat → Option (Nat × List Nat)
  | [] => none
  | byte :: data =>
    if byte &&& 64 ≠ 0 then parseContinued (byte &&& 63) data else some (byte &&& 63, data)

structure RawEntry where
  start : Nat
  length : Nat
  target : Nat
  depthLasti : Nat
  deriving DecidableEq, Repr

def kMaxOffset : Nat := uint32Max / 2

def parseEntry (data : List Nat) : Option (RawEntry × List Nat) := do
  let (start, data) ← parseVarint data
  let (length, data) ← parseVarint data
  let (target, data) ← parseVarint data
  let (depthLasti, data) ← parseVarint data
  if start > kMaxOffset ∨ target > kMaxOffset ∨ length > kMaxOffset - start then none
  else some (⟨start, length, target, depthLasti⟩, data)

theorem length_parseContinued (data : List Nat) : ∀ {value : Nat} {r : Nat × List Nat},
    parseContinued value data = some r → r.2.length < data.length := by
  induction data with
  | nil => exact nofun
  | cons byte data ih =>
    intro value r h
    unfold parseContinued at h
    split at h
    · cases h
    · dsimp only at h
      split at h
      · have hlt := ih h
        simp only [List.length_cons]
        omega
      · cases h
        simp

theorem length_parseVarint {data : List Nat} {r : Nat × List Nat}
    (h : parseVarint data = some r) : r.2.length < data.length := by
  cases data with
  | nil => cases h
  | cons byte data =>
    simp only [parseVarint] at h
    split at h
    · have hlt := length_parseContinued data h
      simp only [List.length_cons]
      omega
    · cases h
      simp

theorem length_parseEntry {data : List Nat} {r : RawEntry × List Nat}
    (h : parseEntry data = some r) : r.2.length < data.length := by
  unfold parseEntry at h
  simp only [Option.bind_eq_bind, Option.bind_eq_some_iff] at h
  obtain ⟨s₁, h₁, s₂, h₂, s₃, h₃, s₄, h₄, h⟩ := h
  have hlt₁ := length_parseVarint h₁
  have hlt₂ := length_parseVarint h₂
  have hlt₃ := length_parseVarint h₃
  have hlt₄ := length_parseVarint h₄
  split at h
  · cases h
  · cases h
    dsimp only
    omega

def parseEntries (data : List Nat) : Option (List RawEntry) :=
  if data = [] then some []
  else
    match _h : parseEntry data with
    | none => none
    | some (entry, rest) => (parseEntries rest).map (entry :: ·)
termination_by data.length
decreasing_by exact length_parseEntry _h

structure ExceptionTableEntry where
  start : Nat
  stop : Nat
  target : Nat
  deriving DecidableEq, Repr

def RawEntry.toEntry (e : RawEntry) : ExceptionTableEntry :=
  ⟨e.start * 2 % 2 ^ 32, (e.start + e.length) * 2 % 2 ^ 32, e.target * 2 % 2 ^ 32⟩

def parseExceptionTable (table : List Nat) : Option (List ExceptionTableEntry) :=
  (parseEntries table).map (·.map RawEntry.toEntry)

end CinderX.Compiler
