import CinderX.Jit.Elf.SectionsFound

/-!
# The reader finds what the writer wrote

The notes section gives back the entries, as long as the reader accepts the lengths of
their names and the numbers fit into 32 bits.
-/

namespace CinderX.Jit.Elf

open Foundation Layout List

variable {Code : Type} {hashBytecode : Code → UInt32} {b : Build}
  {entries : List (CodeEntry Code)} {elf : Object}

structure Describes (elf : Object) (entries : List (CodeEntry Code)) (out : List UInt8) : Prop where
  fileHeader : slice out 0 64 = elf.fileHeader.fields.bytes
  sectionHeader : ∀ idx, slice out (64 + 64 * idx.raw) 64 = (elf.sectionHeaders idx).fields.bytes
  inside : ∀ idx, (elf.sectionHeaders idx).offset + (elf.sectionHeaders idx).size ≤ out.length
  delimited : ∀ idx, slice out (elf.sectionHeaders idx).offset (elf.sectionHeaders idx).size =
    sectionBytes elf entries idx
  disjoint : ∀ idx idx', idx.raw < idx'.raw →
    (elf.sectionHeaders idx).offset + (elf.sectionHeaders idx).size ≤
      (elf.sectionHeaders idx').offset
  aligned : ∀ idx, (elf.sectionHeaders idx).align ∣ (elf.sectionHeaders idx).offset
  symbol : ∀ i entry, entries[i]? = some entry →
    ∃ sym, elf.dynsym[i + 1]? = some sym ∧ sym.size = entry.compiledCode.length ∧
      slice out sym.address sym.size = entry.compiledCode

theorem LaidOut.describes (h : LaidOut hashBytecode b entries elf) (hnames : NamesFit entries) :
    Describes elf entries (writeElf elf entries) where
  fileHeader := by
    rw [← slice_fileHeader elf entries, width_fileHeader]
  sectionHeader idx := by
    rw [← slice_sectionHeader elf entries, width_sectionHeader]
  inside idx := h.offset_add_size_le idx hnames
  delimited idx := h.slice_section idx hnames
  disjoint idx _ := h.offset_add_size_le_offset idx hnames
  aligned idx := h.align_dvd_offset idx hnames
  symbol _ _ := h.slice_symbol hnames

theorem LaidOut.compiledCode_le (h : LaidOut hashBytecode b entries elf)
    (hnames : NamesFit entries) {entry : CodeEntry Code} (hmem : entry ∈ entries) :
    entry.compiledCode.length ≤ fileSize hashBytecode b entries := by
  obtain ⟨i, hi⟩ := mem_iff_getElem?.mp hmem
  obtain ⟨sym, before, -, -, hsize, hle, -⟩ := slice_textBytes hi 0 0
  have htext := h.offset_add_size_le .kText hnames
  rw [h.size_eq _ hnames, h.length_writeElf hnames, sectionBytes] at htext
  omega

def readFuncNotes (out : List UInt8) : Option (List Note) :=
  (findSection out kFuncNoteSectionName).bind readNoteSection

theorem LaidOut.readFuncNotes_eq (h : LaidOut hashBytecode b entries elf)
    (hnames : NamesFit entries) (hsize : fileSize hashBytecode b entries < 2 ^ 32) :
    readFuncNotes (writeElf elf entries) =
      readNoteSection (writeNotes (entries.map (funcNote hashBytecode))) := by
  rw [readFuncNotes, ← sectionName, h.findSection_eq hnames hsize .kFuncNote, Option.bind_some,
    sectionBytes, h.funcNotes]

theorem LaidOut.readFuncNotes_writeElf (h : LaidOut hashBytecode b entries elf)
    (hnames : NamesFit entries) (hfile : ∀ entry ∈ entries, entry.fileName.length ≤ 99976)
    (hsize : fileSize hashBytecode b entries < 2 ^ 32) :
    readFuncNotes (writeElf elf entries) = some (entries.map (funcNote hashBytecode)) := by
  rw [h.readFuncNotes_eq hnames hsize]
  refine readNoteSection_writeNotes fun note hnote => ?_
  obtain ⟨entry, hmem, rfl⟩ := List.mem_map.mp hnote
  exact readable_funcNote hashBytecode (hnames entry hmem).1 (hfile entry hmem)

def exampleBuild : Build := ⟨62, ascii "libpython3.12.so", true⟩

def exampleEntry (fileNameLength : Nat) (lineno : UInt64) (normalOffset staticOffset : UInt64) :
    CodeEntry Unit :=
  { code := (), compiledCode := [0xc3], codeStart := 0x1000, normalEntry := 0x1000 + normalOffset
    staticEntry := 0x1000 + staticOffset, funcName := ascii "f"
    fileName := replicate fileNameLength 0x61, lineno := lineno }

theorem fileSize_exampleEntry {n : Nat} (h : n ≤ 100000)
    (lineno normalOffset staticOffset : UInt64) :
    fileSize (fun _ => 0) exampleBuild
      [exampleEntry n lineno normalOffset staticOffset] < 2 ^ 32 := by
  have hdesc : (funcNote (fun _ => 0)
      (exampleEntry n lineno normalOffset staticOffset)).desc.length =
      n + 24 := by
    rw [funcNote, length_writeFuncNote, exampleEntry, length_replicate]
  have hne : (funcNote (fun _ => 0) (exampleEntry n lineno normalOffset staticOffset)).desc ≠ [] :=
    length_pos_iff.mp (by omega)
  have hfunc : (funcNote (fun _ => 0)
      (exampleEntry n lineno normalOffset staticOffset)).name.length =
      1 := rfl
  have hnote : notesSizeBytes ([exampleEntry n lineno normalOffset staticOffset].map
      (funcNote fun _ => 0)) = 4 * 3 + (1 + 1 + 3) / 4 * 4 + (n + 24 + 1 + 3) / 4 * 4 := by
    rw [map_singleton, notesSizeBytes, map_singleton, sum_singleton, Note.sizeBytes,
      if_pos hne, hdesc, hfunc, roundUp_four (by decide), roundUp_four (by omega)]
  have hpython : dynstrSize exampleBuild [exampleEntry n lineno normalOffset staticOffset] = 20 :=
    rfl
  rw [fileSize, fileParts, hnote, hpython]
  simp only [endOffset, alignUp, headersSize, textBytes, hashSize, exampleEntry, flatMap_cons,
    flatMap_nil, length_append, length_cons, length_nil]
  omega

/-- Below 4 GiB the writer succeeds, its headers describe the file, and the reader finds
the entries again. -/
theorem readFuncNotes_writeEntries
    (hfunc : ∀ entry ∈ entries, entry.funcName.length ≤ 100000)
    (hfile : ∀ entry ∈ entries, entry.fileName.length ≤ 99976)
    (hfits : ∀ entry ∈ entries, entry.Fits) (hsize : fileSize hashBytecode b entries < 2 ^ 32) :
    ∃ elf out notes, initObject hashBytecode b entries = some elf ∧
      writeEntries hashBytecode b entries = some out ∧
      out.length = fileSize hashBytecode b entries ∧ Describes elf entries out ∧
      readFuncNotes out = some notes ∧ notes.map Note.name = entries.map CodeEntry.funcName ∧
      notes.map parseCodeNote = entries.map fun entry => some (entry.data hashBytecode) := by
  have hnames : NamesFit entries := fun entry hmem =>
    ⟨hfunc entry hmem, Nat.le_trans (hfile entry hmem) (by decide)⟩
  obtain ⟨elf, helf, h⟩ := initObject_spec hfunc hsize
  refine ⟨elf, writeElf elf entries, entries.map (funcNote hashBytecode), helf,
    bind_of_some helf _, h.length_writeElf hnames, h.describes hnames,
    h.readFuncNotes_writeElf hnames hfile hsize, ?_, ?_⟩
  · rw [List.map_map]
    rfl
  · rw [List.map_map]
    refine map_congr_left fun entry hmem => ?_
    have hcode := Nat.lt_of_le_of_lt (h.compiledCode_le hnames hmem) hsize
    exact parseCodeNote_eq_data hashBytecode (hnames entry hmem).2 hcode (hfits entry hmem)

/-- Two entries that meet the bounds. -/
def exampleEntries : List (CodeEntry Unit) := [exampleEntry 4 7 0 0, exampleEntry 6 9 16 32]

theorem readFuncNotes_exampleEntry : ∃ elf out notes,
    initObject (fun _ => 0) exampleBuild exampleEntries = some elf ∧
      writeEntries (fun _ => 0) exampleBuild exampleEntries = some out ∧
      out.length = fileSize (fun _ => 0) exampleBuild exampleEntries ∧
      Describes elf exampleEntries out ∧ readFuncNotes out = some notes ∧
      notes.map Note.name = [ascii "f", ascii "f"] ∧
      notes.map parseCodeNote = [some ⟨ascii "aaaa", 7, 0, 1, 0, some 0⟩,
        some ⟨ascii "aaaaaa", 9, 0, 1, 16, some 32⟩] := by
  have hall : ∀ {P : CodeEntry Unit → Prop}, P (exampleEntry 4 7 0 0) →
      P (exampleEntry 6 9 16 32) → ∀ entry ∈ exampleEntries, P entry :=
    fun h h' => forall_mem_cons.mpr ⟨h, forall_mem_singleton.mpr h'⟩
  exact readFuncNotes_writeEntries (hall (by decide) (by decide)) (hall (by decide) (by decide))
    (hall ⟨by decide, by decide, fun _ => by decide⟩ ⟨by decide, by decide, fun _ => by decide⟩)
    (by decide +kernel)

theorem readNoteSection_of_long {note : Note} {notes : List Note}
    (hname : note.name.length ≤ 100000) (hdesc : 100000 < note.desc.length)
    (hfit : note.desc.length + 5 ≤ 2 ^ 32) : readNoteSection (writeNotes (note :: notes)) =
      none := by
  have hwrite : writeNotes (note :: notes) = writeNote note ++ writeNotes notes := rfl
  have hpos : 0 < (writeNotes (note :: notes)).length :=
    Nat.lt_of_lt_of_le (Nat.succ_pos _) (length_le_writeNotes (note :: notes))
  have hread : readNote (.ready (writeNotes (note :: notes)) 0 0) = none := by
    rw [hwrite, readNote_of_long _ _ _ hname hdesc hfit]
  rw [readNoteSection, readNotes]
  refine Eq.trans (if_pos (by rw [decide_eq_true hpos]; rfl)) ?_
  exact congrArg (fun note => note >>= _) hread

section Example

variable (lineno normalOffset staticOffset : UInt64)

theorem writeEntries_exampleEntry {n : Nat} (h : n ≤ 100000) :
    ∃ out, writeEntries (fun _ => 0) exampleBuild
        [exampleEntry n lineno normalOffset staticOffset] = some out ∧ out.length < 2 ^ 32 ∧
      readFuncNotes out = readNoteSection (writeNotes
        [funcNote (fun _ => 0) (exampleEntry n lineno normalOffset staticOffset)]) := by
  have hnames : NamesFit [exampleEntry n lineno normalOffset staticOffset] := by
    simpa [NamesFit, exampleEntry, ascii] using h
  have hsize := fileSize_exampleEntry h lineno normalOffset staticOffset
  obtain ⟨elf, helf, hlaid⟩ := initObject_spec (fun entry hmem => (hnames entry hmem).1) hsize
  exact ⟨_, bind_of_some helf _, (hlaid.length_writeElf hnames).symm ▸ hsize,
    hlaid.readFuncNotes_eq hnames hsize⟩

theorem parse_exampleEntry :
    ∃ out, writeEntries (fun _ => 0) exampleBuild
        [exampleEntry 4 lineno normalOffset staticOffset] = some out ∧
      (readFuncNotes out).map (List.map parseCodeNote) =
        some [parseCodeNote
          (funcNote (fun _ => 0) (exampleEntry 4 lineno normalOffset staticOffset))] := by
  obtain ⟨out, hout, -, hread⟩ :=
    writeEntries_exampleEntry lineno normalOffset staticOffset (show 4 ≤ 100000 by decide)
  have hreadable := readable_funcNote (fun _ => 0)
    (show (exampleEntry 4 lineno normalOffset staticOffset).funcName.length ≤ 100000 by
      simp [exampleEntry, ascii])
    (show (exampleEntry 4 lineno normalOffset staticOffset).fileName.length ≤ 99976 by
      simp [exampleEntry])
  refine ⟨out, hout, ?_⟩
  rw [hread, readNoteSection_writeNotes (by simpa using hreadable)]
  rfl

end Example

/-- Long file names do not come back, and numbers come back in 32 bits. -/
theorem entries_not_readBack :
    ((exampleEntry 99977 1 0 0).fileName.length ≤ 100000 ∧
      ∃ out, writeEntries (fun _ => 0) exampleBuild [exampleEntry 99977 1 0 0] = some out ∧
        out.length < 2 ^ 32 ∧ readFuncNotes out = none) ∧
    (∃ out, writeEntries (fun _ => 0) exampleBuild [exampleEntry 4 0x100000000 0 0] = some out ∧
      (readFuncNotes out).map (List.map parseCodeNote) =
        some [some ⟨ascii "aaaa", 0, 0, 1, 0, some 0⟩]) ∧
    (∃ out, writeEntries (fun _ => 0) exampleBuild [exampleEntry 4 1 0x100000000 0] = some out ∧
      (readFuncNotes out).map (List.map parseCodeNote) =
        some [some ⟨ascii "aaaa", 1, 0, 1, 0, some 0⟩]) ∧
    ∃ out, writeEntries (fun _ => 0) exampleBuild [exampleEntry 4 1 0 0xffffffff] = some out ∧
      (readFuncNotes out).map (List.map parseCodeNote) =
        some [some ⟨ascii "aaaa", 1, 0, 1, 0, none⟩] := by
  refine ⟨⟨?_, ?_⟩, ?_, ?_, ?_⟩
  · rw [exampleEntry, length_replicate]
    decide
  · obtain ⟨out, hout, hlen, hread⟩ :=
      writeEntries_exampleEntry 1 0 0 (show 99977 ≤ 100000 by decide)
    have hdesc : (funcNote (fun _ => 0) (exampleEntry 99977 1 0 0)).desc.length = 100001 := by
      rw [funcNote, length_writeFuncNote, exampleEntry, length_replicate]
    have hname : (funcNote (fun _ => 0) (exampleEntry 99977 1 0 0)).name.length = 1 := rfl
    refine ⟨out, hout, hlen, ?_⟩
    rw [hread]
    exact readNoteSection_of_long (by omega) (by omega) (by omega)
  · obtain ⟨out, hout, hread⟩ := parse_exampleEntry 0x100000000 0 0
    refine ⟨out, hout, hread.trans ?_⟩
    rw [parseCodeNote_funcNote _ (by simp [exampleEntry])]
    decide
  · obtain ⟨out, hout, hread⟩ := parse_exampleEntry 1 0x100000000 0
    refine ⟨out, hout, hread.trans ?_⟩
    rw [parseCodeNote_funcNote _ (by simp [exampleEntry])]
    decide
  · obtain ⟨out, hout, hread⟩ := parse_exampleEntry 1 0 0xffffffff
    refine ⟨out, hout, hread.trans ?_⟩
    rw [parseCodeNote_funcNote _ (by simp [exampleEntry])]
    decide

end CinderX.Jit.Elf
