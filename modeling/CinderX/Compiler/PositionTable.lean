import CinderX.Foundation.Varint

/-!
# The position table

`LinePositionTable` with `make_line_table`, which writes the position of every code
unit, and `decodePositions`, the published format of these tables.
-/

namespace CinderX.Compiler

open CinderX.Foundation Option

/-- A `SrcLocation`, or the AST node `node`, which is equal to no other node. -/
structure Location where
  lineno : Int
  endLineno : Int
  colOffset : Int
  endColOffset : Int
  node : Option Nat
  deriving DecidableEq, Repr

def NO_LOCATION : Location := ⟨-1, -1, -1, -1, none⟩

def NEXT_LOCATION : Location := ⟨-2, -2, -2, -2, none⟩

namespace CodeLocationInfoKind

def SHORT0 : Nat := 0
def ONE_LINE0 : Nat := 10
def NO_COLUMNS : Nat := 13
def LONG : Nat := 14
def NONE : Nat := 15

end CodeLocationInfoKind

structure LinePositionTable where
  linetable : List Nat
  lineno : Int
  deriving DecidableEq, Repr

namespace LinePositionTable

def firstByte (code length : Nat) : Option Nat :=
  if code &&& 15 = code then some (128 ||| code <<< 3 ||| (length - 1)) else none

def writeEntryNoLocation (size : Nat) : Option (List Nat) := do
  let first ← firstByte CodeLocationInfoKind.NONE size
  return [first]

def writeNoColumn (size : Nat) (lineDelta : Int) : Option (List Nat) := do
  let first ← firstByte CodeLocationInfoKind.NO_COLUMNS size
  return first :: writeSignedVarint lineDelta

def writeShortForm (size : Nat) (column endColumn : Int) : Option (List Nat) :=
  if size > 0 ∧ size ≤ 8 ∧ column < 80 ∧ endColumn ≥ column ∧ endColumn - column < 16 then do
    let columnLowBits := column.toNat &&& 7
    let columnGroup := column.toNat >>> 3
    let first ← firstByte (CodeLocationInfoKind.SHORT0 + columnGroup) size
    return [first, (columnLowBits <<< 4 ||| (endColumn - column).toNat) &&& 255]
  else none

def writeOneLineForm (size : Nat) (lineDelta column endColumn : Int) : Option (List Nat) :=
  if size > 0 ∧ size ≤ 8 ∧ lineDelta ≥ 0 ∧ lineDelta < 3 ∧ column < 128 ∧
      endColumn < 128 then do
    let first ← firstByte (CodeLocationInfoKind.ONE_LINE0 + lineDelta.toNat) size
    return [first, column.toNat &&& 255, endColumn.toNat &&& 255]
  else none

def writeLongForm (loc : Location) (size : Nat) (lineno : Int) : Option (List Nat) :=
  if size > 0 ∧ size ≤ 8 ∧ loc.endLineno ≥ loc.lineno then do
    let first ← firstByte CodeLocationInfoKind.LONG size
    return first :: (writeSignedVarint (loc.lineno - lineno) ++
      writeVarint (loc.endLineno - loc.lineno).toNat ++
      writeVarint (loc.colOffset + 1).toNat ++ writeVarint (loc.endColOffset + 1).toNat)
  else none

def entryBytes (loc : Location) (size : Nat) (lineno : Int) : Option (List Nat × Int) :=
  if loc.lineno < 0 then (writeEntryNoLocation size).map (·, lineno)
  else
    let lineDelta := loc.lineno - lineno
    let column := loc.colOffset
    let endColumn := loc.endColOffset
    if column ≥ -1 ∧ endColumn ≥ -1 then
      if column < 0 ∨ endColumn < 0 then
        if loc.endLineno = loc.lineno ∨ loc.endLineno = -1 then
          (writeNoColumn size lineDelta).map (·, loc.lineno)
        else (writeLongForm loc size lineno).map (·, loc.lineno)
      else if loc.endLineno = loc.lineno then
        if lineDelta = 0 ∧ column < 80 ∧ endColumn - column < 16 ∧ endColumn ≥ column then
          (writeShortForm size column endColumn).map (·, lineno)
        else if 0 ≤ lineDelta ∧ lineDelta < 3 ∧ column < 128 ∧ endColumn < 128 then
          (writeOneLineForm size lineDelta column endColumn).map (·, loc.lineno)
        else (writeLongForm loc size lineno).map (·, loc.lineno)
      else (writeLongForm loc size lineno).map (·, loc.lineno)
    else none

def writeEntry (loc : Location) (size : Nat) (t : LinePositionTable) :
    Option LinePositionTable :=
  (entryBytes loc size t.lineno).map fun r => ⟨t.linetable ++ r.1, r.2⟩

def writeEntries (loc : Location) (size : Nat) (t : LinePositionTable) :
    Option LinePositionTable :=
  if size > 8 then (writeEntry loc 8 t).bind (writeEntries loc (size - 8))
  else writeEntry loc size t
termination_by size
decreasing_by omega

def emitLocation (loc : Location) (size : Nat) (t : LinePositionTable) :
    Option LinePositionTable :=
  if size = 0 then some t else writeEntries loc size t

end LinePositionTable

/-- What `make_line_table` reads of an instruction; `size` is `instrsize`. -/
structure LocatedInst where
  loc : Location
  size : Nat
  isJump : Bool
  isScopeExit : Bool
  deriving DecidableEq, Repr

/-- `NEXT_LOCATION` becomes the location of the next instruction, or none for a jump or
an exit; `none` is the failed assertion that there is a next instruction. -/
def resolveLocations : List LocatedInst → Option (List LocatedInst)
  | [] => some []
  | t :: ts => do
      let ts ← resolveLocations ts
      if t.loc = NEXT_LOCATION then
        if t.isJump ∨ t.isScopeExit then return { t with loc := NO_LOCATION } :: ts
        else
          let prev ← ts.head?
          return { t with loc := prev.loc } :: ts
      else return t :: ts

def emitLocations : List LocatedInst → Location → Nat → LinePositionTable →
    Option LinePositionTable
  | [], loc, size, t => t.emitLocation loc size
  | inst :: insts, loc, size, t =>
    if inst.loc ≠ loc then do
      let t ← t.emitLocation loc size
      emitLocations insts inst.loc inst.size t
    else emitLocations insts loc (size + inst.size) t

def makeLineTable (firstline : Int) (insts : List LocatedInst) : Option (List Nat) := do
  let insts ← resolveLocations insts
  let t ← emitLocations insts NO_LOCATION 0 ⟨[], firstline⟩
  return t.linetable

structure Position where
  line : Int
  endLine : Int
  column : Option Nat
  endColumn : Option Nat
  deriving DecidableEq, Repr

def readColumn (bytes : List Nat) : Option (Option Nat × List Nat) :=
  (readVarint bytes).map fun r => (if r.1 = 0 then none else some (r.1 - 1), r.2)

def readByte : List Nat → Option (Nat × List Nat)
  | [] => none
  | byte :: rest => some (byte, rest)

def decodeBody (code : Nat) (line : Int) (bytes : List Nat) :
    Option (Option Position × Int × List Nat) :=
  if code = 15 then some (none, line, bytes)
  else if code = 14 then do
    let (delta, bytes) ← readSignedVarint bytes
    let (endDelta, bytes) ← readVarint bytes
    let (column, bytes) ← readColumn bytes
    let (endColumn, bytes) ← readColumn bytes
    return (some ⟨line + delta, line + delta + endDelta, column, endColumn⟩, line + delta, bytes)
  else if code = 13 then do
    let (delta, bytes) ← readSignedVarint bytes
    return (some ⟨line + delta, line + delta, none, none⟩, line + delta, bytes)
  else if code ≥ 10 then do
    let line := line + (code - 10 : Nat)
    let (column, bytes) ← readByte bytes
    let (endColumn, bytes) ← readByte bytes
    return (some ⟨line, line, some column, some endColumn⟩, line, bytes)
  else do
    let (columns, bytes) ← readByte bytes
    let column := code * 8 + (columns / 16) % 8
    return (some ⟨line, line, some column, some (column + columns % 16)⟩, line, bytes)

def decodeEntry (line : Int) : List Nat → Option (Option Position × Nat × Int × List Nat)
  | [] => none
  | first :: bytes =>
    if 128 ≤ first ∧ first < 256 then
      (decodeBody (first / 8 % 16) line bytes).map fun r =>
        (r.1, first % 8 + 1, r.2.1, r.2.2)
    else none

variable {bytes : List Nat} {line : Int}

theorem length_readColumn {r : Option Nat × List Nat}
    (h : readColumn bytes = some r) : r.2.length < bytes.length := by
  obtain ⟨r', h', rfl⟩ := map_eq_some_iff.mp h
  exact length_readVarint h'

theorem length_readByte {r : Nat × List Nat}
    (h : readByte bytes = some r) : r.2.length < bytes.length := by
  cases bytes with
  | nil => cases h
  | cons byte rest =>
    cases h
    exact Nat.lt_succ_self _

theorem length_decodeBody {code : Nat}
    {r : Option Position × Int × List Nat} (h : decodeBody code line bytes = some r) :
    r.2.2.length ≤ bytes.length := by
  unfold decodeBody at h
  simp only [bind_eq_bind] at h
  split at h
  · cases h
    exact Nat.le_refl _
  split at h
  · obtain ⟨r₁, h₁, h⟩ := bind_eq_some_iff.mp h
    obtain ⟨r₂, h₂, h⟩ := bind_eq_some_iff.mp h
    obtain ⟨r₃, h₃, h⟩ := bind_eq_some_iff.mp h
    obtain ⟨r₄, h₄, h⟩ := bind_eq_some_iff.mp h
    cases h
    have hlt₁ := length_readSignedVarint h₁
    have hlt₂ := length_readVarint h₂
    have hlt₃ := length_readColumn h₃
    have hlt₄ := length_readColumn h₄
    dsimp only at hlt₁ hlt₂ hlt₃ hlt₄ ⊢
    omega
  split at h
  · obtain ⟨r₁, h₁, h⟩ := bind_eq_some_iff.mp h
    cases h
    have hlt₁ := length_readSignedVarint h₁
    exact Nat.le_of_lt hlt₁
  split at h
  · obtain ⟨r₁, h₁, h⟩ := bind_eq_some_iff.mp h
    obtain ⟨r₂, h₂, h⟩ := bind_eq_some_iff.mp h
    cases h
    have hlt₁ := length_readByte h₁
    have hlt₂ := length_readByte h₂
    dsimp only at hlt₁ hlt₂ ⊢
    omega
  · obtain ⟨r₁, h₁, h⟩ := bind_eq_some_iff.mp h
    cases h
    have hlt₁ := length_readByte h₁
    exact Nat.le_of_lt hlt₁

theorem length_decodeEntry
    {r : Option Position × Nat × Int × List Nat} (h : decodeEntry line bytes = some r) :
    r.2.2.2.length < bytes.length := by
  cases bytes with
  | nil => cases h
  | cons first bytes =>
    simp only [decodeEntry] at h
    split at h
    · obtain ⟨r', h', rfl⟩ := map_eq_some_iff.mp h
      exact Nat.lt_succ_of_le (length_decodeBody h')
    · cases h

def decodePositions (line : Int) (table : List Nat) : Option (List (Option Position)) :=
  if table = [] then some []
  else
    match _h : decodeEntry line table with
    | none => none
    | some (position, length, line, rest) =>
      (decodePositions line rest).map (List.replicate length position ++ ·)
termination_by table.length
decreasing_by exact length_decodeEntry _h

end CinderX.Compiler
