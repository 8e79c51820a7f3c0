import CinderX.Foundation.LittleEndian

/-!
# ELF objects

The headers and tables of `Jit/elf`, with the bytes that they are written as.  A failed
check gives `none`.
-/

namespace CinderX.Jit.Elf

open Foundation

/-- What differs between builds: the `e_machine` value, the name of the Python library, and
whether `char` is signed. -/
structure Build where
  machine : Nat
  libpython : List UInt8
  charIsSigned : Bool

def roundDown (x n : Nat) : Nat := if n = 0 then 0 else x &&& (2 ^ 64 - n)

def roundUp (x n : Nat) : Nat := if n = 0 then 0 else roundDown (x + n - 1) n

def isAligned (n align : Nat) : Bool := n == roundUp n align

structure SectionHeader where
  nameOffset : Nat := 0
  type : Nat := 0
  flags : Nat := 0
  address : Nat := 0
  offset : Nat := 0
  size : Nat := 0
  link : Nat := 0
  info : Nat := 0
  align : Nat := 0
  entrySize : Nat := 0

def SectionHeader.fields (h : SectionHeader) : Fields :=
  [(4, h.nameOffset), (4, h.type), (8, h.flags), (8, h.address), (8, h.offset), (8, h.size),
    (4, h.link), (4, h.info), (8, h.align), (8, h.entrySize)]

structure SegmentHeader where
  type : Nat := 0
  flags : Nat := 0
  offset : Nat := 0
  address : Nat := 0
  physicalAddress : Nat := 0
  fileSize : Nat := 0
  memSize : Nat := 0
  align : Nat := 0

def SegmentHeader.fields (h : SegmentHeader) : Fields :=
  [(4, h.type), (4, h.flags), (8, h.offset), (8, h.address), (8, h.physicalAddress),
    (8, h.fileSize), (8, h.memSize), (8, h.align)]

structure FileHeader where
  elfClass : Nat := 2
  endian : Nat := 1
  elfVersion : Nat := 1
  osabi : Nat := 3
  abiVersion : Nat := 0
  type : Nat := 3
  machine : Nat
  version : Nat := 1
  entryAddress : Nat := 0
  segmentHeaderOffset : Nat := 0
  sectionHeaderOffset : Nat := 0
  flags : Nat := 0
  headerSize : Nat := 64
  segmentHeaderSize : Nat := 56
  segmentHeaderCount : Nat := 0
  sectionHeaderSize : Nat := 64
  sectionHeaderCount : Nat := 0
  sectionNameIndex : Nat := 0

def FileHeader.fields (h : FileHeader) : Fields :=
  [(1, 0x7f), (1, 'E'.toNat), (1, 'L'.toNat), (1, 'F'.toNat), (1, h.elfClass), (1, h.endian),
    (1, h.elfVersion), (1, h.osabi), (1, h.abiVersion), (7, 0), (2, h.type), (2, h.machine),
    (4, h.version), (8, h.entryAddress), (8, h.segmentHeaderOffset), (8, h.sectionHeaderOffset),
    (4, h.flags), (2, h.headerSize), (2, h.segmentHeaderSize), (2, h.segmentHeaderCount),
    (2, h.sectionHeaderSize), (2, h.sectionHeaderCount), (2, h.sectionNameIndex)]

structure Symbol where
  nameOffset : Nat := 0
  info : Nat := 0
  other : Nat := 0
  sectionIndex : Nat := 0
  address : Nat := 0
  size : Nat := 0

def Symbol.fields (s : Symbol) : Fields :=
  [(4, s.nameOffset), (1, s.info), (1, s.other), (2, s.sectionIndex), (8, s.address), (8, s.size)]

def symbolBytes (symbols : List Symbol) : List UInt8 := symbols.flatMap fun s => s.fields.bytes

inductive DynTag
  | kNull
  | kNeeded
  | kHash
  | kStrtab
  | kSymtab
  | kStrSz
  | kSymEnt

def DynTag.toNat : DynTag → Nat
  | kNull => 0
  | kNeeded => 1
  | kHash => 4
  | kStrtab => 5
  | kSymtab => 6
  | kStrSz => 10
  | kSymEnt => 11

structure Dyn where
  tag : DynTag := .kNull
  val : Nat := 0

def Dyn.fields (d : Dyn) : Fields := [(8, d.tag.toNat), (8, d.val)]

def dynBytes (dyns : List Dyn) : List UInt8 := dyns.flatMap fun d => d.fields.bytes

/-- `DynamicTable::insert`: the null item is swapped back to the end. -/
def insertDyn (dyns : List Dyn) (tag : DynTag) (val : Nat) : List Dyn :=
  dyns.take (dyns.length - 1) ++ ⟨tag, val⟩ :: dyns.drop (dyns.length - 1)

def insertString (table : List UInt8) (s : List UInt8) : Option (Nat × List UInt8) :=
  if table.length < 2 ^ 31 then some (table.length, table ++ s ++ [0]) else none

def cString (bytes : List UInt8) : List UInt8 := bytes.takeWhile (· ≠ 0)

structure HashTable where
  buckets : List Nat := []
  chains : List Nat := []

def charValue (b : Build) (c : UInt8) : UInt32 :=
  if b.charIsSigned ∧ 128 ≤ c then c.toUInt32 - 256 else c.toUInt32

def hash (b : Build) (name : List UInt8) : UInt32 :=
  name.foldl (fun h c =>
    let h := (h <<< 4) + charValue b c
    let g := h &&& 0xf0000000
    let h := if g ≠ 0 then h ^^^ (g >>> 24) else h
    h &&& ~~~g) 0

namespace HashTable

/-- The loop of `chaseChainIdx` with so many rounds to go before its limit. -/
def chaseChainIdx (chains : List Nat) : Nat → Nat → Option Nat
  | 0, _ => none
  | left + 1, idx => if chains.getD idx 0 ≠ 0 then chaseChainIdx chains left (chains.getD idx 0)
      else some idx

def insert (table : HashTable) (bucketIdx i : Nat) : Option HashTable :=
  let firstChainIdx := table.buckets.getD bucketIdx 0
  if firstChainIdx = 0 then some { table with buckets := table.buckets.set bucketIdx i }
  else do
    let idx ← chaseChainIdx table.chains table.chains.length firstChainIdx
    some { table with chains := table.chains.set idx i }

def insertAll (b : Build) (strings : List UInt8) :
    HashTable → Nat → List Symbol → Option HashTable
  | table, _, [] => some table
  | table, i, sym :: syms => do
      let bucketIdx :=
        (hash b (cString (strings.drop sym.nameOffset))).toNat % table.buckets.length
      let table ← table.insert bucketIdx i
      insertAll b strings table (i + 1) syms

def build (b : Build) (syms : List Symbol) (strings : List UInt8) : Option HashTable :=
  insertAll b strings
    ⟨List.replicate (syms.length / 2) 0, List.replicate syms.length 0⟩ 1 (syms.drop 1)

def sizeBytes (table : HashTable) : Nat :=
  4 * 2 + 4 * table.buckets.length + 4 * table.chains.length

end HashTable

structure Note where
  name : List UInt8
  desc : List UInt8
  type : Nat := 0
  deriving DecidableEq

def Note.sizeBytes (note : Note) : Nat :=
  4 * 3 + roundUp (note.name.length + 1) 4 +
    if note.desc ≠ [] then roundUp (note.desc.length + 1) 4 else 0

def notesSizeBytes (notes : List Note) : Nat := (notes.map Note.sizeBytes).sum

structure CodeNoteData where
  fileName : List UInt8
  lineno : Nat
  hash : Nat
  size : Nat
  normalEntryOffset : Nat
  staticEntryOffset : Option Nat
  deriving DecidableEq

def kInvalidStaticOffset : Nat := 0xffffffff

def ascii (s : String) : List UInt8 := s.toList.map fun c => UInt8.ofNat c.toNat

def kFuncNoteSectionName : List UInt8 := ascii ".note.pyfunc"

inductive SectionIdx
  | null
  | kText
  | kDynsym
  | kDynstr
  | kHash
  | kFuncNote
  | kDynamic
  | kShstrtab
  deriving DecidableEq

def SectionIdx.raw : SectionIdx → Nat
  | null => 0
  | kText => 1
  | kDynsym => 2
  | kDynstr => 3
  | kHash => 4
  | kFuncNote => 5
  | kDynamic => 6
  | kShstrtab => 7

def SectionIdx.all : List SectionIdx :=
  [null, kText, kDynsym, kDynstr, kHash, kFuncNote, kDynamic, kShstrtab]

inductive SegmentIdx
  | kText
  | kReadonly
  | kReadwrite
  | kFuncNote
  | kDynamic
  deriving DecidableEq

def SegmentIdx.all : List SegmentIdx := [kText, kReadonly, kReadwrite, kFuncNote, kDynamic]

structure Object where
  fileHeader : FileHeader
  sectionHeaders : SectionIdx → SectionHeader := fun _ => {}
  segmentHeaders : SegmentIdx → SegmentHeader := fun _ => {}
  headerPadding : Nat := 0
  textPadding : Nat := 0
  dynsym : List Symbol := [{}]
  dynstr : List UInt8 := [0]
  dynsymPadding : Nat := 0
  hash : HashTable := {}
  hashPadding : Nat := 0
  funcNotes : List Note := []
  funcNotesPadding : Nat := 0
  dynamic : List Dyn := [{}]
  dynamicPadding : Nat := 0
  shstrtab : List UInt8 := [0]
  sectionOffset : Nat := 0
  libpythonName : Nat := 0

/-- A compiled function: `code` is the code object, `compiledCode` lies at `codeStart`. -/
structure CodeEntry (Code : Type) where
  code : Code
  compiledCode : List UInt8
  codeStart : UInt64
  normalEntry : UInt64
  staticEntry : UInt64
  funcName : List UInt8
  fileName : List UInt8
  lineno : UInt64

end CinderX.Jit.Elf
