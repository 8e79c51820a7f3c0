import CinderX.Jit.Elf.Object

/-!
# The ELF writer

`Jit/elf/writer.cpp`.  Offsets and paddings are computed first, in `uint32_t`, and the
bytes are written afterwards.
-/

namespace CinderX.Jit.Elf

open Foundation

def kPageSize : Nat := 0x1000

def kTextStartAddress : Nat := kPageSize

/-- Where `header_padding` stands in `Object`: after all the headers. -/
def headersSize : Nat := 64 + 8 * 64 + 5 * 56

def alignOffset (elf : Object) (align : Nat) : Nat × Object :=
  let newOffset := roundUp elf.sectionOffset align % 2 ^ 32
  ((newOffset + 2 ^ 64 - elf.sectionOffset) % 2 ^ 32, { elf with sectionOffset := newOffset })

def checkAlignedSegment (header : SegmentHeader) : Bool :=
  isAligned ((header.address + 2 ^ 64 - header.offset) % 2 ^ 64) header.align

def initFileHeader (b : Build) : FileHeader :=
  { machine := b.machine
    segmentHeaderOffset := 64 + 8 * 64
    segmentHeaderCount := 5
    sectionHeaderOffset := 64
    sectionHeaderCount := 8
    sectionNameIndex := SectionIdx.kShstrtab.raw }

/-- A section starts at the current offset, which has to be `checked`-aligned. -/
def initSection (elf : Object) (idx : SectionIdx) (name : String) (checked : Nat)
    (header : SectionHeader) : Option Object :=
  if isAligned elf.sectionOffset checked then do
    let (nameOffset, shstrtab) ← insertString elf.shstrtab (ascii name)
    some { elf with
      sectionHeaders := Function.update elf.sectionHeaders idx
        { header with nameOffset := nameOffset, offset := elf.sectionOffset }
      shstrtab := shstrtab
      sectionOffset := (elf.sectionOffset + header.size) % 2 ^ 32 }
  else none

def initTextSection (elf : Object) (textSize : Nat) : Option Object :=
  initSection elf .kText ".text" 0x10
    { type := 1, flags := 0x02 ||| 0x04, address := elf.sectionOffset, size := textSize
      align := 0x10 }

def initDynsymSection (elf : Object) : Option Object :=
  initSection elf .kDynsym ".dynsym" 0x8
    { type := 2, flags := 0x02 ||| 0x40, address := elf.sectionOffset
      size := (symbolBytes elf.dynsym).length, link := SectionIdx.kDynstr.raw, info := 1
      align := 0x8, entrySize := 24 }

def initDynstrSection (elf : Object) : Option Object :=
  initSection elf .kDynstr ".dynstr" 0x1
    { type := 3, flags := 0x02, address := elf.sectionOffset, size := elf.dynstr.length
      align := 0x1 }

def initHashSection (elf : Object) : Option Object :=
  initSection elf .kHash ".hash" 0x8
    { type := 5, flags := 0x02, address := elf.sectionOffset, size := elf.hash.sizeBytes
      link := SectionIdx.kDynsym.raw, align := 0x8 }

def initFuncNoteSection (elf : Object) : Option Object :=
  initSection elf .kFuncNote ".note.pyfunc" 0x4
    { type := 7, flags := 0x02, address := elf.sectionOffset
      size := notesSizeBytes elf.funcNotes, align := 0x4 }

def initDynamicSection (elf : Object) : Option Object :=
  initSection elf .kDynamic ".dynamic" kPageSize
    { type := 6, flags := 0x02 ||| 0x01, address := elf.sectionOffset
      size := (dynBytes elf.dynamic).length, link := SectionIdx.kDynstr.raw, entrySize := 16
      align := 0x8 }

def initShstrtabSection (elf : Object) : Option Object :=
  if isAligned elf.sectionOffset 0x1 then do
    let (nameOffset, shstrtab) ← insertString elf.shstrtab (ascii ".shstrtab")
    some { elf with
      sectionHeaders := Function.update elf.sectionHeaders .kShstrtab
        { nameOffset := nameOffset, type := 3, offset := elf.sectionOffset
          size := shstrtab.length, align := 0x1 }
      shstrtab := shstrtab
      sectionOffset := (elf.sectionOffset + shstrtab.length) % 2 ^ 32 }
  else none

def initTextSegment (elf : Object) : Option Object :=
  let text := elf.sectionHeaders .kText
  let header : SegmentHeader :=
    { type := 1, flags := 1 ||| 4, offset := text.offset, address := text.address
      fileSize := text.size, memSize := text.size, align := 0x1000 }
  if checkAlignedSegment header then
    some { elf with segmentHeaders := Function.update elf.segmentHeaders .kText header }
  else none

def initReadonlySegment (elf : Object) : Option Object :=
  let dynsym := elf.sectionHeaders .kDynsym
  let dynamic := elf.sectionHeaders .kDynamic
  let fileSize := dynamic.offset - dynsym.offset
  let header : SegmentHeader :=
    { type := 1, flags := 4, offset := dynsym.offset, address := dynsym.address
      fileSize := fileSize, memSize := fileSize, align := 0x1000 }
  if dynsym.address < dynamic.address ∧ checkAlignedSegment header then
    some { elf with segmentHeaders := Function.update elf.segmentHeaders .kReadonly header }
  else none

def initReadwriteSegment (elf : Object) : Option Object :=
  let dynamic := elf.sectionHeaders .kDynamic
  let header : SegmentHeader :=
    { type := 1, flags := 4 ||| 2, offset := dynamic.offset, address := dynamic.address
      fileSize := dynamic.size, memSize := dynamic.size, align := 0x1000 }
  if checkAlignedSegment header then
    some { elf with segmentHeaders := Function.update elf.segmentHeaders .kReadwrite header }
  else none

def initFuncNoteSegment (elf : Object) : Object :=
  let note := elf.sectionHeaders .kFuncNote
  let header : SegmentHeader :=
    { type := 4, flags := 4, offset := note.offset, address := note.address
      fileSize := note.size, memSize := note.size, align := note.align }
  { elf with segmentHeaders := Function.update elf.segmentHeaders .kFuncNote header }

def initDynamicSegment (elf : Object) : Object :=
  let dynamic := elf.sectionHeaders .kDynamic
  let header : SegmentHeader :=
    { type := 2, flags := 4 ||| 2, offset := dynamic.offset, address := dynamic.address
      fileSize := dynamic.size, memSize := dynamic.size, align := 0x1000 }
  { elf with segmentHeaders := Function.update elf.segmentHeaders .kDynamic header }

def initDynamics (elf : Object) : Object :=
  let dynsym := elf.sectionHeaders .kDynsym
  let dynstr := elf.sectionHeaders .kDynstr
  let hash := elf.sectionHeaders .kHash
  let dyns := insertDyn elf.dynamic .kNeeded elf.libpythonName
  let dyns := insertDyn dyns .kHash hash.address
  let dyns := insertDyn dyns .kStrtab dynstr.address
  let dyns := insertDyn dyns .kStrSz dynstr.size
  let dyns := insertDyn dyns .kSymtab dynsym.address
  { elf with dynamic := insertDyn dyns .kSymEnt 24 }

variable {Code : Type} (hashBytecode : Code → UInt32)

def writeFuncNote (entry : CodeEntry Code) : List UInt8 :=
  let normalOffset := entry.normalEntry - entry.codeStart
  let staticOffset :=
    if entry.staticEntry ≠ 0 then (entry.staticEntry - entry.codeStart).toNat
    else kInvalidStaticOffset
  leBytes 4 entry.fileName.length ++ entry.fileName ++ leBytes 4 entry.lineno.toNat ++
    leBytes 4 (hashBytecode entry.code).toNat ++ leBytes 4 entry.compiledCode.length ++
    leBytes 4 normalOffset.toNat ++ leBytes 4 staticOffset

def funcNote (entry : CodeEntry Code) : Note :=
  { name := entry.funcName, desc := writeFuncNote hashBytecode entry, type := 0x30a05f0 }

def initFuncNotes (elf : Object) (entries : List (CodeEntry Code)) : Object :=
  { elf with funcNotes := elf.funcNotes ++ entries.map (funcNote hashBytecode) }

def padString (size : Nat) : List UInt8 :=
  List.replicate ((roundUp size 4 % 2 ^ 32 + 2 ^ 32 - size) % 2 ^ 32) 0

def writeNote (note : Note) : List UInt8 :=
  let nameSize := (note.name.length + 1) % 2 ^ 32
  let descSize := (note.desc.length + 1) % 2 ^ 32
  leBytes 4 nameSize ++ leBytes 4 descSize ++ leBytes 4 note.type ++
    (note.name ++ [0]) ++ padString nameSize ++
    if 0 < descSize then (note.desc ++ [0]) ++ padString descSize else []

def writeNotes (notes : List Note) : List UInt8 := notes.flatMap writeNote

def writeHash (table : HashTable) : List UInt8 :=
  leBytes 4 table.buckets.length ++ leBytes 4 table.chains.length ++
    table.buckets.flatMap (leBytes 4) ++ table.chains.flatMap (leBytes 4)

def pad (size : Nat) : List UInt8 := List.replicate size 0

def headerBytes (elf : Object) : List UInt8 :=
  elf.fileHeader.fields.bytes ++
    (SectionIdx.all.flatMap fun idx => (elf.sectionHeaders idx).fields.bytes) ++
    SegmentIdx.all.flatMap fun idx => (elf.segmentHeaders idx).fields.bytes

def textBytes (entries : List (CodeEntry Code)) : List UInt8 :=
  entries.flatMap CodeEntry.compiledCode

def writeElf (elf : Object) (entries : List (CodeEntry Code)) : List UInt8 :=
  headerBytes elf ++ pad elf.headerPadding ++
    textBytes entries ++ pad elf.textPadding ++
    symbolBytes elf.dynsym ++ elf.dynstr ++ pad elf.dynsymPadding ++
    writeHash elf.hash ++ pad elf.hashPadding ++
    writeNotes elf.funcNotes ++ pad elf.funcNotesPadding ++
    dynBytes elf.dynamic ++ pad elf.dynamicPadding ++
    elf.shstrtab

def initSymbols (elf : Object) (textEndAddress : Nat) :
    List (CodeEntry Code) → Option (Object × Nat)
  | [] => some (elf, textEndAddress)
  | entry :: entries => do
      let (nameOffset, dynstr) ← insertString elf.dynstr entry.funcName
      let sym : Symbol :=
        { nameOffset := nameOffset, info := 0x10 ||| 0x02, sectionIndex := SectionIdx.kText.raw
          address := textEndAddress, size := entry.compiledCode.length }
      initSymbols { elf with dynstr := dynstr, dynsym := elf.dynsym ++ [sym] }
        (textEndAddress + entry.compiledCode.length) entries

def initTables (b : Build) (elf : Object) (textSize : Nat) : Option Object := do
  let elf ← initTextSection elf textSize
  let (textPadding, elf) := alignOffset elf kPageSize
  let elf := { elf with textPadding := textPadding }
  let elf ← initDynsymSection elf
  let elf ← initDynstrSection elf
  let (dynsymPadding, elf) := alignOffset elf 0x8
  let elf := { elf with dynsymPadding := dynsymPadding }
  let hash ← HashTable.build b elf.dynsym elf.dynstr
  let elf ← initHashSection { elf with hash := hash }
  let (hashPadding, elf) := alignOffset elf 4
  some { elf with hashPadding := hashPadding }

def initNotes (elf : Object) (entries : List (CodeEntry Code)) : Option Object := do
  let elf ← initFuncNoteSection (initFuncNotes hashBytecode elf entries)
  let (funcNotesPadding, elf) := alignOffset elf kPageSize
  let elf ← initDynamicSection (initDynamics { elf with funcNotesPadding := funcNotesPadding })
  let (dynamicPadding, elf) := alignOffset elf 0x8
  initShstrtabSection { elf with dynamicPadding := dynamicPadding }

def initSegments (elf : Object) : Option Object := do
  let elf ← initTextSegment elf
  let elf ← initReadonlySegment elf
  let elf ← initReadwriteSegment elf
  some (initDynamicSegment (initFuncNoteSegment elf))

def initObject (b : Build) (entries : List (CodeEntry Code)) : Option Object := do
  let elf : Object := { fileHeader := initFileHeader b }
  let (elf, textEndAddress) ← initSymbols elf kTextStartAddress entries
  let textSize := textEndAddress - kTextStartAddress
  let (libpythonName, dynstr) ← insertString elf.dynstr b.libpython
  let elf := { elf with
    libpythonName := libpythonName, dynstr := dynstr, sectionOffset := headersSize }
  let (headerPadding, elf) := alignOffset elf kPageSize
  let elf := { elf with headerPadding := headerPadding }
  if elf.sectionOffset = kTextStartAddress then do
    let elf ← initTables b elf textSize
    let elf ← initNotes hashBytecode elf entries
    initSegments elf
  else none

def writeEntries (b : Build) (entries : List (CodeEntry Code)) : Option (List UInt8) := do
  let elf ← initObject hashBytecode b entries
  some (writeElf elf entries)

end CinderX.Jit.Elf
