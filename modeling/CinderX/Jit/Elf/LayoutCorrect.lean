import CinderX.Jit.Elf.WriterCorrect

/-!
# The object is laid out without overlaps

`initObject` succeeds below 4 GiB, and every section starts where the layout of the parts
of the file puts it.
-/

namespace CinderX.Jit.Elf

open Foundation Layout List

variable {Code : Type} (hashBytecode : Code → UInt32) (b : Build)

def entrySymbol (nameOffset address : Nat) (entry : CodeEntry Code) : Symbol :=
  { nameOffset := nameOffset, info := 0x10 ||| 0x02, sectionIndex := SectionIdx.kText.raw
    address := address, size := entry.compiledCode.length }

/-- The symbols of the entries, the first with its name at `nameOffset` and its code at
`address`. -/
def symbolsFrom (nameOffset address : Nat) : List (CodeEntry Code) → List Symbol
  | [] => []
  | entry :: entries =>
    entrySymbol nameOffset address entry :: symbolsFrom (nameOffset + (entry.funcName.length + 1))
      (address + entry.compiledCode.length) entries

def nameBytes (entries : List (CodeEntry Code)) : List UInt8 :=
  entries.flatMap fun entry => entry.funcName ++ [0]

@[simp]
theorem length_symbolsFrom (nameOffset address : Nat) (entries : List (CodeEntry Code)) :
    (symbolsFrom nameOffset address entries).length = entries.length := by
  induction entries generalizing nameOffset address with
  | nil => rfl
  | cons entry entries ih => simp [symbolsFrom, ih]

theorem initSymbols_eq {entries : List (CodeEntry Code)} :
    ∀ (elf : Object) (address : Nat), elf.dynstr.length + (nameBytes entries).length < 2 ^ 31 →
      initSymbols elf address entries = some
        ({ elf with
            dynstr := elf.dynstr ++ nameBytes entries
            dynsym := elf.dynsym ++ symbolsFrom elf.dynstr.length address entries },
          address + (textBytes entries).length) := by
  induction entries with
  | nil =>
    intro elf address _
    simp [initSymbols, nameBytes, symbolsFrom, textBytes]
  | cons entry entries ih =>
    intro elf address h
    have hnames : nameBytes (entry :: entries) = entry.funcName ++ [0] ++ nameBytes entries := rfl
    rw [hnames, length_append, length_append, length_singleton] at h
    have hinsert : insertString elf.dynstr entry.funcName =
        some (elf.dynstr.length, elf.dynstr ++ entry.funcName ++ [0]) :=
      if_pos (by omega)
    have hlen : (elf.dynstr ++ entry.funcName ++ [0]).length =
        elf.dynstr.length + (entry.funcName.length + 1) := by
      simp only [length_append, length_singleton]
      omega
    have hrest := ih { elf with
      dynstr := elf.dynstr ++ entry.funcName ++ [0]
      dynsym := elf.dynsym ++ [entrySymbol elf.dynstr.length address entry] }
      (address + entry.compiledCode.length)
      (by simp only [hlen]; omega)
    simp only [initSymbols, hinsert, Option.bind_eq_bind, Option.bind_some]
    refine hrest.trans ?_
    simp only [hnames, symbolsFrom, textBytes, flatMap_cons, append_assoc,
      length_append, length_singleton, Nat.add_assoc, cons_append,
      nil_append]

theorem isAligned_of_dvd {x align k : Nat} (ha : align = 2 ^ k) (hk : k ≤ 12)
    (hdvd : align ∣ x) (hx : x < 2 ^ 32) : isAligned x align = true := by
  subst ha
  have hpow : 2 ^ k ≤ 2 ^ 12 := Nat.pow_le_pow_right (by decide) hk
  have hup := alignUp_of_dvd (Nat.two_pow_pos k) hdvd
  rw [isAligned, roundUp_two_pow (by omega) (by omega), beq_iff_eq]
  exact hup.symm

theorem alignOffset_eq {elf : Object} {align k start offset : Nat} (ha : align = 2 ^ k)
    (hk : k ≤ 12) (hoffset : alignUp align start = offset) (hfit : offset < 2 ^ 32)
    (hstart : elf.sectionOffset = start) :
    alignOffset elf align = (offset - start, { elf with sectionOffset := offset }) := by
  subst ha hoffset hstart
  have hpow : 2 ^ k ≤ 2 ^ 12 := Nat.pow_le_pow_right (by decide) hk
  have hle := le_alignUp (Nat.two_pow_pos k) elf.sectionOffset
  have hround : roundUp elf.sectionOffset (2 ^ k) = alignUp (2 ^ k) elf.sectionOffset :=
    roundUp_two_pow (by omega) (by omega)
  rw [alignOffset, hround, Nat.mod_eq_of_lt hfit]
  congr 1
  omega

def shstrtabAfter (names : List String) : List UInt8 :=
  0 :: names.flatMap fun name => ascii name ++ [0]

theorem initSection_eq {elf : Object} {idx : SectionIdx} {name : String} {align k offset : Nat}
    {header : SectionHeader} {names : List String} {nameOffset : Nat} (ha : align = 2 ^ k)
    (hk : k ≤ 12) (hoffset : elf.sectionOffset = offset) (hdvd : align ∣ offset)
    (hnames : elf.shstrtab = shstrtabAfter names)
    (hname : (shstrtabAfter names).length = nameOffset) (hlt : nameOffset < 2 ^ 31)
    (hfit : offset + header.size < 2 ^ 32) :
    initSection elf idx name align header = some
      { elf with
        sectionHeaders := Function.update elf.sectionHeaders idx
          { header with nameOffset := nameOffset, offset := offset }
        shstrtab := shstrtabAfter (names ++ [name])
        sectionOffset := offset + header.size } := by
  subst hoffset hname
  have happend : shstrtabAfter names ++ ascii name ++ [0] = shstrtabAfter (names ++ [name]) := by
    simp [shstrtabAfter]
  rw [initSection, if_pos (isAligned_of_dvd ha hk hdvd (by omega)), hnames, insertString,
    if_pos hlt]
  simp only [Option.bind_eq_bind, Option.bind_some, Nat.mod_eq_of_lt hfit, happend]

theorem bind_of_some {α β : Type} {x : Option α} {a : α} (h : x = some a) (f : α → Option β) :
    x >>= f = f a := by
  rw [h]
  rfl

/-! ## The sections in order -/

def textHeader (offset size : Nat) : SectionHeader :=
  { nameOffset := 1, type := 1, flags := 0x02 ||| 0x04, address := offset, offset := offset
    size := size, align := 0x10 }

def dynsymHeader (offset size : Nat) : SectionHeader :=
  { nameOffset := 7, type := 2, flags := 0x02 ||| 0x40, address := offset, offset := offset
    size := size, link := SectionIdx.kDynstr.raw, info := 1, align := 0x8, entrySize := 24 }

def dynstrHeader (offset size : Nat) : SectionHeader :=
  { nameOffset := 15, type := 3, flags := 0x02, address := offset, offset := offset
    size := size, align := 0x1 }

def hashHeader (offset size : Nat) : SectionHeader :=
  { nameOffset := 23, type := 5, flags := 0x02, address := offset, offset := offset
    size := size, link := SectionIdx.kDynsym.raw, align := 0x8 }

def funcNoteHeader (offset size : Nat) : SectionHeader :=
  { nameOffset := 29, type := 7, flags := 0x02, address := offset, offset := offset
    size := size, align := 0x4 }

def dynamicHeader (offset size : Nat) : SectionHeader :=
  { nameOffset := 42, type := 6, flags := 0x02 ||| 0x01, address := offset, offset := offset
    size := size, link := SectionIdx.kDynstr.raw, entrySize := 16, align := 0x8 }

def shstrtabHeader (offset : Nat) : SectionHeader :=
  { nameOffset := 51, type := 3, offset := offset, size := 61, align := 0x1 }

variable {elf : Object} {table : HashTable}

section Sections

variable {offset size : Nat} (hfit : offset + size < 2 ^ 32)
  (hoffset : elf.sectionOffset = offset)
include hfit hoffset

theorem initTextSection_eq (hdvd : 0x10 ∣ offset) (hnames : elf.shstrtab = shstrtabAfter []) :
    initTextSection elf size = some
      { elf with
        sectionHeaders := Function.update elf.sectionHeaders .kText (textHeader offset size)
        shstrtab := shstrtabAfter [".text"]
        sectionOffset := offset + size } := by
  rw [initTextSection, initSection_eq (show 0x10 = 2 ^ 4 from rfl) (by decide) hoffset hdvd
    hnames rfl (by decide) hfit, hoffset]
  rfl

theorem initDynsymSection_eq (hdvd : 0x8 ∣ offset) (hnames : elf.shstrtab = shstrtabAfter [".text"])
    (hsize : (symbolBytes elf.dynsym).length = size) :
    initDynsymSection elf = some
      { elf with
        sectionHeaders := Function.update elf.sectionHeaders .kDynsym (dynsymHeader offset size)
        shstrtab := shstrtabAfter [".text", ".dynsym"]
        sectionOffset := offset + size } := by
  rw [initDynsymSection, hsize, initSection_eq (show 0x8 = 2 ^ 3 from rfl) (by decide) hoffset hdvd
    hnames rfl (by decide) hfit, hoffset]
  rfl

theorem initDynstrSection_eq (hnames : elf.shstrtab = shstrtabAfter [".text", ".dynsym"])
    (hsize : elf.dynstr.length = size) :
    initDynstrSection elf = some
      { elf with
        sectionHeaders := Function.update elf.sectionHeaders .kDynstr (dynstrHeader offset size)
        shstrtab := shstrtabAfter [".text", ".dynsym", ".dynstr"]
        sectionOffset := offset + size } := by
  rw [initDynstrSection, hsize, initSection_eq (show 0x1 = 2 ^ 0 from rfl) (by decide) hoffset
    (Nat.one_dvd offset) hnames rfl (by decide) hfit, hoffset]
  rfl

theorem initHashSection_eq (hdvd : 0x8 ∣ offset)
    (hnames : elf.shstrtab = shstrtabAfter [".text", ".dynsym", ".dynstr"])
    (hsize : elf.hash.sizeBytes = size) :
    initHashSection elf = some
      { elf with
        sectionHeaders := Function.update elf.sectionHeaders .kHash (hashHeader offset size)
        shstrtab := shstrtabAfter [".text", ".dynsym", ".dynstr", ".hash"]
        sectionOffset := offset + size } := by
  rw [initHashSection, hsize, initSection_eq (show 0x8 = 2 ^ 3 from rfl) (by decide) hoffset hdvd
    hnames rfl (by decide) hfit, hoffset]
  rfl

theorem initFuncNoteSection_eq (hdvd : 0x4 ∣ offset)
    (hnames : elf.shstrtab = shstrtabAfter [".text", ".dynsym", ".dynstr", ".hash"])
    (hsize : notesSizeBytes elf.funcNotes = size) :
    initFuncNoteSection elf = some
      { elf with
        sectionHeaders := Function.update elf.sectionHeaders .kFuncNote (funcNoteHeader offset size)
        shstrtab := shstrtabAfter [".text", ".dynsym", ".dynstr", ".hash", ".note.pyfunc"]
        sectionOffset := offset + size } := by
  rw [initFuncNoteSection, hsize, initSection_eq (show 0x4 = 2 ^ 2 from rfl) (by decide) hoffset
    hdvd hnames rfl (by decide) hfit, hoffset]
  rfl

theorem initDynamicSection_eq (hdvd : kPageSize ∣ offset)
    (hnames : elf.shstrtab =
      shstrtabAfter [".text", ".dynsym", ".dynstr", ".hash", ".note.pyfunc"])
    (hsize : (dynBytes elf.dynamic).length = size) :
    initDynamicSection elf = some
      { elf with
        sectionHeaders := Function.update elf.sectionHeaders .kDynamic (dynamicHeader offset size)
        shstrtab :=
          shstrtabAfter [".text", ".dynsym", ".dynstr", ".hash", ".note.pyfunc", ".dynamic"]
        sectionOffset := offset + size } := by
  rw [initDynamicSection, hsize, initSection_eq (show kPageSize = 2 ^ 12 from rfl) (by decide)
    hoffset hdvd hnames rfl (by decide) hfit, hoffset]
  rfl

end Sections

def sectionNames : List String :=
  [".text", ".dynsym", ".dynstr", ".hash", ".note.pyfunc", ".dynamic", ".shstrtab"]

theorem initShstrtabSection_eq {offset : Nat} (hfit : offset + 61 < 2 ^ 32)
    (hoffset : elf.sectionOffset = offset)
    (hnames : elf.shstrtab =
      shstrtabAfter [".text", ".dynsym", ".dynstr", ".hash", ".note.pyfunc", ".dynamic"]) :
    initShstrtabSection elf = some
      { elf with
        sectionHeaders := Function.update elf.sectionHeaders .kShstrtab (shstrtabHeader offset)
        shstrtab := shstrtabAfter sectionNames
        sectionOffset := offset + 61 } := by
  subst hoffset
  have hinsert : insertString elf.shstrtab (ascii ".shstrtab") =
      some (51, shstrtabAfter sectionNames) := by
    rw [hnames]
    rfl
  have hlen : (shstrtabAfter sectionNames).length = 61 := rfl
  rw [initShstrtabSection, if_pos (isAligned_of_dvd (show 0x1 = 2 ^ 0 from rfl) (by decide)
    (Nat.one_dvd _) (by omega)), hinsert]
  simp only [Option.bind_eq_bind, Option.bind_some, hlen, Nat.mod_eq_of_lt hfit]
  rfl

theorem initTables_eq {textSize symSize strSize hashSize o₂ o₄ o₅ : Nat}
    (hstart : elf.sectionOffset = 4096) (hnames : elf.shstrtab = shstrtabAfter [])
    (hsym : (symbolBytes elf.dynsym).length = symSize) (hstr : elf.dynstr.length = strSize)
    (hbuild : HashTable.build b elf.dynsym elf.dynstr = some table)
    (hhash : table.sizeBytes = hashSize) (h₂ : alignUp 4096 (4096 + textSize) = o₂)
    (h₄ : alignUp 8 (o₂ + symSize + strSize) = o₄) (h₅ : alignUp 4 (o₄ + hashSize) = o₅)
    (hfit : o₅ < 2 ^ 32) :
    initTables b elf textSize = some
      { elf with
        sectionHeaders := Function.update (Function.update (Function.update (Function.update
          elf.sectionHeaders .kText (textHeader 4096 textSize))
          .kDynsym (dynsymHeader o₂ symSize)) .kDynstr (dynstrHeader (o₂ + symSize) strSize))
          .kHash (hashHeader o₄ hashSize)
        textPadding := o₂ - (4096 + textSize)
        dynsymPadding := o₄ - (o₂ + symSize + strSize)
        hash := table
        hashPadding := o₅ - (o₄ + hashSize)
        shstrtab := shstrtabAfter [".text", ".dynsym", ".dynstr", ".hash"]
        sectionOffset := o₅ } := by
  have hle₂ := @le_alignUp 4096 (by decide) (4096 + textSize)
  have hle₄ := @le_alignUp 8 (by decide) (o₂ + symSize + strSize)
  have hle₅ := @le_alignUp 4 (by decide) (o₄ + hashSize)
  have hdvd₂ : 8 ∣ o₂ := Nat.dvd_trans (by decide) (h₂ ▸ dvd_alignUp 4096 (4096 + textSize))
  have hdvd₄ : 8 ∣ o₄ := h₄ ▸ dvd_alignUp 8 (o₂ + symSize + strSize)
  rw [h₂] at hle₂
  rw [h₄] at hle₄
  rw [h₅] at hle₅
  have hfit₁ : 4096 + textSize < 2 ^ 32 := by omega
  have hfit₂ : o₂ + symSize < 2 ^ 32 := by omega
  have hfit₃ : o₂ + symSize + strSize < 2 ^ 32 := by omega
  have hfit₄ : o₄ + hashSize < 2 ^ 32 := by omega
  have hpage : kPageSize = 2 ^ 12 := rfl
  have height : 8 = 2 ^ 3 := rfl
  have hfour : 4 = 2 ^ 2 := rfl
  unfold initTables
  refine Eq.trans (bind_of_some (initTextSection_eq hfit₁ hstart (by decide) hnames) _) ?_
  rw [alignOffset_eq hpage (by decide) h₂ (by omega) rfl]
  dsimp only
  refine Eq.trans (bind_of_some (initDynsymSection_eq hfit₂ rfl hdvd₂ rfl ?_) _) ?_
  · exact hsym
  refine Eq.trans (bind_of_some (initDynstrSection_eq hfit₃ rfl rfl ?_) _) ?_
  · exact hstr
  rw [alignOffset_eq height (by decide) h₄ (by omega) rfl]
  dsimp only
  refine Eq.trans (bind_of_some hbuild _) ?_
  refine Eq.trans (bind_of_some (initHashSection_eq hfit₄ rfl hdvd₄ rfl ?_) _) ?_
  · exact hhash
  rw [alignOffset_eq hfour (by decide) h₅ hfit rfl]

theorem initDynamics_spec (helf : elf.dynamic = [{}]) :
    ∃ dynamic, initDynamics elf = { elf with dynamic := dynamic } ∧
      (dynBytes dynamic).length = 112 := by
  refine ⟨(initDynamics elf).dynamic, rfl, ?_⟩
  rw [length_dynBytes]
  simp [initDynamics, helf, insertDyn]

theorem initNotes_spec {entries : List (CodeEntry Code)} {notesSize o₅ o₆ o₇ : Nat}
    (hstart : elf.sectionOffset = o₅) (hdvd : 4 ∣ o₅) (hnotes : elf.funcNotes = [])
    (hdynamic : elf.dynamic = [{}])
    (hnames : elf.shstrtab = shstrtabAfter [".text", ".dynsym", ".dynstr", ".hash"])
    (hsize : notesSizeBytes (entries.map (funcNote hashBytecode)) = notesSize)
    (h₆ : alignUp 4096 (o₅ + notesSize) = o₆) (h₇ : alignUp 8 (o₆ + 112) = o₇)
    (hfit : o₇ + 61 < 2 ^ 32) :
    ∃ dynamic, (dynBytes dynamic).length = 112 ∧ initNotes hashBytecode elf entries = some
      { elf with
        sectionHeaders := Function.update (Function.update (Function.update
          elf.sectionHeaders .kFuncNote (funcNoteHeader o₅ notesSize))
          .kDynamic (dynamicHeader o₆ 112)) .kShstrtab (shstrtabHeader o₇)
        funcNotes := entries.map (funcNote hashBytecode)
        funcNotesPadding := o₆ - (o₅ + notesSize)
        dynamic := dynamic
        dynamicPadding := o₇ - (o₆ + 112)
        shstrtab := shstrtabAfter sectionNames
        sectionOffset := o₇ + 61 } := by
  have hle₆ := @le_alignUp 4096 (by decide) (o₅ + notesSize)
  have hle₇ := @le_alignUp 8 (by decide) (o₆ + 112)
  have hdvd₆ : kPageSize ∣ o₆ := h₆ ▸ dvd_alignUp 4096 (o₅ + notesSize)
  rw [h₆] at hle₆
  rw [h₇] at hle₇
  have hfit₅ : o₅ + notesSize < 2 ^ 32 := by omega
  have hfit₆ : o₆ + 112 < 2 ^ 32 := by omega
  have hpage : kPageSize = 2 ^ 12 := rfl
  have height : 8 = 2 ^ 3 := rfl
  have hinsert : initFuncNotes hashBytecode elf entries =
      { elf with funcNotes := entries.map (funcNote hashBytecode) } := by
    rw [initFuncNotes, hnotes, nil_append]
  obtain ⟨dynamic, hdynamics, hlen⟩ := @initDynamics_spec
    { elf with
      funcNotes := entries.map (funcNote hashBytecode)
      sectionHeaders := Function.update elf.sectionHeaders .kFuncNote (funcNoteHeader o₅ notesSize)
      shstrtab := shstrtabAfter [".text", ".dynsym", ".dynstr", ".hash", ".note.pyfunc"]
      sectionOffset := o₆
      funcNotesPadding := o₆ - (o₅ + notesSize) } hdynamic
  refine ⟨dynamic, hlen, ?_⟩
  unfold initNotes
  rw [hinsert]
  refine Eq.trans (bind_of_some (initFuncNoteSection_eq hfit₅ ?_ hdvd ?_ ?_) _) ?_
  · exact hstart
  · exact hnames
  · exact hsize
  rw [alignOffset_eq hpage (by decide) h₆ (by omega) rfl]
  dsimp only
  rw [hdynamics]
  refine Eq.trans (bind_of_some (initDynamicSection_eq hfit₆ rfl hdvd₆ rfl ?_) _) ?_
  · exact hlen
  rw [alignOffset_eq height (by decide) h₇ (by omega) rfl]
  dsimp only
  exact initShstrtabSection_eq hfit rfl rfl

theorem checkAlignedSegment_of_eq {header : SegmentHeader} (h : header.address = header.offset)
    (halign : header.align = 0x1000) : checkAlignedSegment header = true := by
  have hzero : (header.offset + 2 ^ 64 - header.offset) % 2 ^ 64 = 0 := by
    rw [Nat.add_sub_cancel_left, Nat.mod_self]
  rw [checkAlignedSegment, h, halign, hzero]
  decide

theorem initSegments_spec (htext : (elf.sectionHeaders .kText).address =
      (elf.sectionHeaders .kText).offset)
    (hdynsym : (elf.sectionHeaders .kDynsym).address = (elf.sectionHeaders .kDynsym).offset)
    (hdynamic : (elf.sectionHeaders .kDynamic).address = (elf.sectionHeaders .kDynamic).offset)
    (hlt : (elf.sectionHeaders .kDynsym).address < (elf.sectionHeaders .kDynamic).address) :
    ∃ segmentHeaders, initSegments elf = some { elf with segmentHeaders := segmentHeaders } := by
  apply Exists.intro
  unfold initSegments
  refine Eq.trans (bind_of_some (if_pos (checkAlignedSegment_of_eq htext rfl)) _) ?_
  refine Eq.trans (bind_of_some (if_pos ⟨hlt, checkAlignedSegment_of_eq hdynsym rfl⟩) _) ?_
  refine Eq.trans (bind_of_some (if_pos (checkAlignedSegment_of_eq hdynamic rfl)) _) ?_
  rfl

/-! ## The parts of the file -/

def dynstrSize (entries : List (CodeEntry Code)) : Nat :=
  1 + (nameBytes entries).length + (b.libpython.length + 1)

def hashSize (entries : List (CodeEntry Code)) : Nat :=
  4 * 2 + 4 * ((entries.length + 1) / 2) + 4 * (entries.length + 1)

/-- Alignments and sizes: the headers, then the sections in the order of their indices. -/
def fileParts (entries : List (CodeEntry Code)) : List (Nat × Nat) :=
  [(1, headersSize), (4096, (textBytes entries).length), (4096, 24 * (entries.length + 1)),
    (1, dynstrSize b entries), (8, hashSize entries),
    (4, notesSizeBytes (entries.map (funcNote hashBytecode))), (4096, 16 * 7), (8, 61)]

def fileSize (entries : List (CodeEntry Code)) : Nat :=
  endOffset 0 (fileParts hashBytecode b entries)

def sectionStart (entries : List (CodeEntry Code)) (idx : SectionIdx) : Nat :=
  (offsets 0 (fileParts hashBytecode b entries)).getD idx.raw 0

section Starts

variable (entries : List (CodeEntry Code))

theorem sectionStart_kText : sectionStart hashBytecode b entries .kText = 4096 := rfl

theorem sectionStart_kDynsym : sectionStart hashBytecode b entries .kDynsym =
    alignUp 4096 (4096 + (textBytes entries).length) := rfl

theorem sectionStart_kDynstr : sectionStart hashBytecode b entries .kDynstr =
    sectionStart hashBytecode b entries .kDynsym + 24 * (entries.length + 1) :=
  alignUp_one _

theorem sectionStart_kHash : sectionStart hashBytecode b entries .kHash =
    alignUp 8 (sectionStart hashBytecode b entries .kDynstr + dynstrSize b entries) := rfl

theorem sectionStart_kFuncNote : sectionStart hashBytecode b entries .kFuncNote =
    alignUp 4 (sectionStart hashBytecode b entries .kHash + hashSize entries) := rfl

theorem sectionStart_kDynamic : sectionStart hashBytecode b entries .kDynamic =
    alignUp 4096 (sectionStart hashBytecode b entries .kFuncNote +
      notesSizeBytes (entries.map (funcNote hashBytecode))) := rfl

theorem sectionStart_kShstrtab : sectionStart hashBytecode b entries .kShstrtab =
    alignUp 8 (sectionStart hashBytecode b entries .kDynamic + 112) := rfl

theorem fileSize_eq : fileSize hashBytecode b entries =
    sectionStart hashBytecode b entries .kShstrtab + 61 := rfl

def headerOf : SectionIdx → SectionHeader
  | .null => {}
  | .kText => textHeader (sectionStart hashBytecode b entries .kText) (textBytes entries).length
  | .kDynsym =>
    dynsymHeader (sectionStart hashBytecode b entries .kDynsym) (24 * (entries.length + 1))
  | .kDynstr =>
    dynstrHeader (sectionStart hashBytecode b entries .kDynstr) (dynstrSize b entries)
  | .kHash => hashHeader (sectionStart hashBytecode b entries .kHash) (hashSize entries)
  | .kFuncNote => funcNoteHeader (sectionStart hashBytecode b entries .kFuncNote)
      (notesSizeBytes (entries.map (funcNote hashBytecode)))
  | .kDynamic => dynamicHeader (sectionStart hashBytecode b entries .kDynamic) 112
  | .kShstrtab => shstrtabHeader (sectionStart hashBytecode b entries .kShstrtab)

structure LaidOut (elf : Object) : Prop where
  fileHeader : elf.fileHeader = initFileHeader b
  sectionHeaders : ∀ idx, elf.sectionHeaders idx = headerOf hashBytecode b entries idx
  dynsym : elf.dynsym = {} :: symbolsFrom 1 kTextStartAddress entries
  dynstr : elf.dynstr = 0 :: nameBytes entries ++ b.libpython ++ [0]
  hash : elf.hash.sizeBytes = hashSize entries
  funcNotes : elf.funcNotes = entries.map (funcNote hashBytecode)
  dynamic : (dynBytes elf.dynamic).length = 112
  shstrtab : elf.shstrtab = shstrtabAfter sectionNames
  headerPadding : elf.headerPadding = 4096 - headersSize
  textPadding : elf.textPadding = sectionStart hashBytecode b entries .kDynsym -
    (4096 + (textBytes entries).length)
  dynsymPadding : elf.dynsymPadding = sectionStart hashBytecode b entries .kHash -
    (sectionStart hashBytecode b entries .kDynstr + dynstrSize b entries)
  hashPadding : elf.hashPadding = sectionStart hashBytecode b entries .kFuncNote -
    (sectionStart hashBytecode b entries .kHash + hashSize entries)
  funcNotesPadding : elf.funcNotesPadding = sectionStart hashBytecode b entries .kDynamic -
    (sectionStart hashBytecode b entries .kFuncNote +
      notesSizeBytes (entries.map (funcNote hashBytecode)))
  dynamicPadding : elf.dynamicPadding = sectionStart hashBytecode b entries .kShstrtab -
    (sectionStart hashBytecode b entries .kDynamic + 112)

end Starts

variable {hashBytecode b} {entries : List (CodeEntry Code)}

theorem length_nameBytes_le (hnames : ∀ entry ∈ entries, entry.funcName.length ≤ 100000) :
    (nameBytes entries).length ≤ notesSizeBytes (entries.map (funcNote hashBytecode)) := by
  induction entries with
  | nil => exact Nat.le_refl 0
  | cons entry entries ih =>
    have hrest := ih fun e he => hnames e (mem_cons_of_mem entry he)
    have hname := hnames entry mem_cons_self
    have hround : roundUp (entry.funcName.length + 1) 4 = (entry.funcName.length + 1 + 3) / 4 * 4 :=
      roundUp_four (by omega)
    simp only [nameBytes, flatMap_cons, length_append, length_singleton,
      notesSizeBytes, map_cons, sum_cons, Note.sizeBytes, funcNote, hround] at hrest ⊢
    omega

theorem initObject_spec (hnames : ∀ entry ∈ entries, entry.funcName.length ≤ 100000)
    (hsize : fileSize hashBytecode b entries < 2 ^ 32) :
    ∃ elf, initObject hashBytecode b entries = some elf ∧ LaidOut hashBytecode b entries elf := by
  have hle₂ := @le_alignUp 4096 (by decide) (4096 + (textBytes entries).length)
  have hle₄ := @le_alignUp 8 (by decide)
    (sectionStart hashBytecode b entries .kDynstr + dynstrSize b entries)
  have hle₅ := @le_alignUp 4 (by decide)
    (sectionStart hashBytecode b entries .kHash + hashSize entries)
  have hle₆ := @le_alignUp 4096 (by decide) (sectionStart hashBytecode b entries .kFuncNote +
    notesSizeBytes (entries.map (funcNote hashBytecode)))
  have hle₇ := @le_alignUp 8 (by decide) (sectionStart hashBytecode b entries .kDynamic + 112)
  have hstart₃ := sectionStart_kDynstr hashBytecode b entries
  rw [← sectionStart_kDynsym hashBytecode b] at hle₂
  rw [← sectionStart_kHash] at hle₄
  rw [← sectionStart_kFuncNote] at hle₅
  rw [← sectionStart_kDynamic] at hle₆
  rw [← sectionStart_kShstrtab] at hle₇
  rw [fileSize_eq] at hsize
  have hbytes : (nameBytes entries).length ≤
      notesSizeBytes (entries.map (funcNote hashBytecode)) := length_nameBytes_le hnames
  have hstr : dynstrSize b entries = 1 + (nameBytes entries).length + (b.libpython.length + 1) :=
    rfl
  -- Symbols and names.
  let elf₀ : Object := { fileHeader := initFileHeader b }
  have hsymbols : initSymbols elf₀ kTextStartAddress entries = some
      ({ elf₀ with
          dynstr := [0] ++ nameBytes entries
          dynsym := [{}] ++ symbolsFrom 1 kTextStartAddress entries },
        kTextStartAddress + (textBytes entries).length) :=
    initSymbols_eq elf₀ kTextStartAddress (show 1 + (nameBytes entries).length < 2 ^ 31 by omega)
  have hlib : insertString ([0] ++ nameBytes entries) b.libpython = some
      (([0] ++ nameBytes entries).length, [0] ++ nameBytes entries ++ b.libpython ++ [0]) := by
    refine if_pos ?_
    rw [length_append, length_singleton]
    omega
  -- The object before the first section.
  let elf₁ : Object :=
    { elf₀ with
      dynstr := [0] ++ nameBytes entries ++ b.libpython ++ [0]
      dynsym := [{}] ++ symbolsFrom 1 kTextStartAddress entries
      libpythonName := ([0] ++ nameBytes entries).length
      headerPadding := 4096 - headersSize
      sectionOffset := 4096 }
  have hsym₁ : (symbolBytes elf₁.dynsym).length = 24 * (entries.length + 1) := by
    rw [length_symbolBytes]
    simp [elf₁]
  have hstr₁ : elf₁.dynstr.length = dynstrSize b entries := by
    simp only [elf₁, length_append, length_singleton, hstr]
    omega
  obtain ⟨table, hbuild, hhash⟩ := HashTable.build_spec b (show elf₁.dynsym ≠ [] from nofun)
    elf₁.dynstr
  have hhash₁ : table.sizeBytes = hashSize entries := by
    rw [hhash]
    simp [elf₁, hashSize]
  have hdvd₅ : 4 ∣ sectionStart hashBytecode b entries .kFuncNote := by
    rw [sectionStart_kFuncNote]
    exact dvd_alignUp 4 _
  have hstart₄ : alignUp 8 (sectionStart hashBytecode b entries .kDynsym +
      24 * (entries.length + 1) + dynstrSize b entries) =
      sectionStart hashBytecode b entries .kHash := by
    rw [sectionStart_kHash, hstart₃]
  have htables := initTables_eq b (show elf₁.sectionOffset = 4096 from rfl) rfl hsym₁ hstr₁ hbuild
    hhash₁ (sectionStart_kDynsym hashBytecode b entries).symm hstart₄
    (sectionStart_kFuncNote hashBytecode b entries).symm (by omega)
  -- The object before the notes.
  obtain ⟨elf₂, htables, helf₂⟩ : ∃ elf₂, initTables b elf₁ (textBytes entries).length = some elf₂ ∧
      elf₂ = _ := ⟨_, htables, rfl⟩
  have hoffset₂ : elf₂.sectionOffset = sectionStart hashBytecode b entries .kFuncNote := by
    rw [helf₂]
  obtain ⟨dynamic, hdynamic, hnotes⟩ := initNotes_spec hashBytecode hoffset₂ hdvd₅
    (by rw [helf₂]) (by rw [helf₂]) (by rw [helf₂]) rfl
    (sectionStart_kDynamic hashBytecode b entries).symm
    (sectionStart_kShstrtab hashBytecode b entries).symm hsize
  obtain ⟨elf₃, hnotes, helf₃⟩ : ∃ elf₃, initNotes hashBytecode elf₂ entries = some elf₃ ∧
      elf₃ = _ := ⟨_, hnotes, rfl⟩
  have hheaders : ∀ idx, elf₃.sectionHeaders idx = headerOf hashBytecode b entries idx := by
    intro idx
    rw [helf₃, helf₂]
    cases idx <;> simp [Function.update, headerOf, hstart₃, sectionStart_kText, elf₁, elf₀]
  obtain ⟨segmentHeaders, hsegments⟩ := @initSegments_spec elf₃ (by rw [hheaders]; rfl)
    (by rw [hheaders]; rfl) (by rw [hheaders]; rfl) (by
      rw [hheaders, hheaders]
      simp only [headerOf, dynsymHeader, dynamicHeader]
      omega)
  refine ⟨{ elf₃ with segmentHeaders := segmentHeaders }, ?_, ?_⟩
  · have hpage : kPageSize = 2 ^ 12 := rfl
    have hheader : alignUp kPageSize headersSize = 4096 := rfl
    unfold initObject
    refine Eq.trans (bind_of_some hsymbols _) ?_
    refine Eq.trans (bind_of_some hlib _) ?_
    dsimp only
    rw [alignOffset_eq hpage (by decide) hheader (by decide) rfl]
    refine Eq.trans (if_pos rfl) ?_
    rw [Nat.add_sub_cancel_left]
    refine Eq.trans (bind_of_some htables _) ?_
    refine Eq.trans (bind_of_some hnotes _) ?_
    exact hsegments
  · have h₃ := helf₃
    rw [helf₂] at h₃
    constructor
    · rw [h₃]
    · exact hheaders
    · rw [h₃]
      rfl
    · rw [h₃]
      rfl
    · rw [h₃]
      exact hhash₁
    · rw [h₃]
    · rw [h₃]
      exact hdynamic
    · rw [h₃]
    · rw [h₃]
    · rw [h₃]
    · rw [h₃, hstart₃]
    · rw [h₃]
    · rw [h₃]
    · rw [h₃]

end CinderX.Jit.Elf
