import CinderX.Jit.Elf.Object

/-!
# The ELF reader

`Jit/elf/reader.cpp`.  An exception, and a read outside the file, give `none`.
-/

namespace CinderX.Jit.Elf

open Foundation

def readField (elf : List UInt8) (offset size : Nat) : Option Nat :=
  if offset + size ≤ elf.length then some (ofLeBytes (slice elf offset size)) else none

def stringAt (elf : List UInt8) (offset : Nat) : Option (List UInt8) :=
  if 0 ∈ elf.drop offset then some (cString (elf.drop offset)) else none

/-- The section headers with the given indices are searched for the name. -/
def findNamed (elf : List UInt8) (headers shstrtab : Nat) (name : List UInt8) :
    List Nat → Option (List UInt8)
  | [] => some []
  | i :: is => do
      let shName ← readField elf (headers + 64 * i) 4
      let sectionName ← stringAt elf (shstrtab + shName)
      if sectionName = name then do
        let shOffset ← readField elf (headers + 64 * i + 24) 8
        let shSize ← readField elf (headers + 64 * i + 32) 8
        if shOffset + shSize ≤ elf.length then some (slice elf shOffset shSize) else none
      else findNamed elf headers shstrtab name is

def findSection (elf : List UInt8) (name : List UInt8) : Option (List UInt8) := do
  let eShoff ← readField elf 40 8
  let eShnum ← readField elf 60 2
  if eShoff + 64 * eShnum ≤ elf.length then do
    let eShstrndx ← readField elf 62 2
    let shOffset ← readField elf (eShoff + 64 * eShstrndx + 24) 8
    let shSize ← readField elf (eShoff + 64 * eShstrndx + 32) 8
    if shOffset + shSize ≤ elf.length then
      findNamed elf eShoff shOffset name (List.range eShnum)
    else none
  else none

/-- An input stream: the bytes to come, its position, the size of the last unformatted
read, and the two error bits. -/
structure IStream where
  rest : List UInt8
  tellg : Nat := 0
  gcount : Nat := 0
  eof : Bool := false
  fail : Bool := false

namespace IStream

def good (is : IStream) : Bool := !is.eof && !is.fail

def advance (is : IStream) (n : Nat) : IStream :=
  { is with rest := is.rest.drop n, tellg := is.tellg + n, gcount := n }

def read (is : IStream) (n : Nat) : List UInt8 × IStream :=
  if is.good then
    if n ≤ is.rest.length then (is.rest.take n, is.advance n)
    else (is.rest, { is.advance is.rest.length with eof := true, fail := true })
  else ([], { is with gcount := 0, fail := true })

def ignore (is : IStream) (n : Nat) : IStream :=
  if is.good then
    if n ≤ is.rest.length then is.advance n
    else { is.advance is.rest.length with eof := true }
  else { is with gcount := 0, fail := true }

end IStream

def unpad (is : IStream) (padding : Nat) : IStream :=
  let ignore := padding - is.gcount % padding
  is.ignore (if ignore = padding then 0 else ignore)

def readInt (size : Nat) (is : IStream) : Option (Nat × IStream) :=
  let (bytes, is) := is.read size
  if is.gcount = size then some (ofLeBytes bytes, is) else none

def readStr (hasNulTerminator : Bool) (is : IStream) (size : Nat) :
    Option (List UInt8 × IStream) :=
  if size > 100000 then none
  else
    let readSize := if hasNulTerminator then size + 1 else size
    let (bytes, is) := is.read readSize
    if is.gcount = readSize then some (bytes.take size, is) else none

def withoutNul (size : Nat) : Nat := (size + 2 ^ 32 - 1) % 2 ^ 32

def readNote (is : IStream) : Option (Note × IStream) := do
  let (nameSize, is) ← readInt 4 is
  let (descSize, is) ← readInt 4 is
  let (noteType, is) ← readInt 4 is
  let (name, is) ← readStr true is (withoutNul nameSize)
  let is := unpad is 4
  let (desc, is) ← readStr true is (withoutNul descSize)
  some (⟨name, desc, noteType⟩, unpad is 4)

/-- The loop of `readNoteSection`.  Each round reads at least one byte, so more rounds than
there are bytes are enough. -/
def readNotes : Nat → IStream → Nat → Option (List Note)
  | 0, _, _ => none
  | rounds + 1, is, size =>
    if is.good && is.tellg < size then do
      let (note, is) ← readNote is
      let notes ← readNotes rounds is size
      some (note :: notes)
    else some []

def readNoteSection (bytes : List UInt8) : Option (List Note) :=
  readNotes (bytes.length + 1) ⟨bytes, 0, 0, false, false⟩ bytes.length

def parseCodeNote (note : Note) : Option CodeNoteData := do
  let is : IStream := ⟨note.desc, 0, 0, false, false⟩
  let (fileNameSize, is) ← readInt 4 is
  let (fileName, is) ← readStr false is fileNameSize
  let (lineno, is) ← readInt 4 is
  let (hash, is) ← readInt 4 is
  let (compiledCodeSize, is) ← readInt 4 is
  let (normalEntryOffset, is) ← readInt 4 is
  let (staticEntryOffset, _) ← readInt 4 is
  some
    { fileName := fileName, lineno := lineno, hash := hash, size := compiledCodeSize
      normalEntryOffset := normalEntryOffset
      staticEntryOffset :=
        if staticEntryOffset ≠ kInvalidStaticOffset then some staticEntryOffset else none }

end CinderX.Jit.Elf
