import CinderX.Jit.Elf.LayoutCorrect

/-!
# Sections are found in the file

The file is the layout of its parts, so that each header delimits its section and each
symbol its code, and the reader finds a section under its name.
-/

namespace CinderX.Jit.Elf

open Foundation Layout List

variable {Code : Type} {hashBytecode : Code → UInt32} {b : Build}
  {entries : List (CodeEntry Code)} {elf : Object}

def sectionBytes (elf : Object) (entries : List (CodeEntry Code)) : SectionIdx → List UInt8
  | .null => []
  | .kText => textBytes entries
  | .kDynsym => symbolBytes elf.dynsym
  | .kDynstr => elf.dynstr
  | .kHash => writeHash elf.hash
  | .kFuncNote => writeNotes elf.funcNotes
  | .kDynamic => dynBytes elf.dynamic
  | .kShstrtab => elf.shstrtab

def parts (elf : Object) (entries : List (CodeEntry Code)) : List (Nat × List UInt8) :=
  [(1, headerBytes elf), (4096, sectionBytes elf entries .kText),
    (4096, sectionBytes elf entries .kDynsym), (1, sectionBytes elf entries .kDynstr),
    (8, sectionBytes elf entries .kHash), (4, sectionBytes elf entries .kFuncNote),
    (4096, sectionBytes elf entries .kDynamic), (8, sectionBytes elf entries .kShstrtab)]

def NamesFit (entries : List (CodeEntry Code)) : Prop :=
  ∀ entry ∈ entries, entry.funcName.length ≤ 100000 ∧ entry.fileName.length ≤ 100000

theorem length_writeNotes (hnames : NamesFit entries) :
    (writeNotes (entries.map (funcNote hashBytecode))).length =
      notesSizeBytes (entries.map (funcNote hashBytecode)) := by
  induction entries with
  | nil => rfl
  | cons entry entries ih =>
    have hrest := ih fun e he => hnames e (mem_cons_of_mem entry he)
    obtain ⟨hname, hfile⟩ := hnames entry mem_cons_self
    have hdesc : (funcNote hashBytecode entry).desc.length = entry.fileName.length + 24 :=
      length_writeFuncNote hashBytecode entry
    have hne : (funcNote hashBytecode entry).desc ≠ [] :=
      length_pos_iff.mp (by omega)
    have hnote := @length_writeNote (funcNote hashBytecode entry) hname (by omega) hne
    simp only [writeNotes, map_cons, flatMap_cons, length_append, notesSizeBytes,
      sum_cons, hnote] at hrest ⊢
    omega

theorem LaidOut.length_sectionBytes (h : LaidOut hashBytecode b entries elf)
    (hnames : NamesFit entries) (idx : SectionIdx) :
    (sectionBytes elf entries idx).length = (headerOf hashBytecode b entries idx).size := by
  cases idx with
  | null => rfl
  | kText => rfl
  | kDynsym =>
    rw [sectionBytes, h.dynsym, length_symbolBytes, length_cons, length_symbolsFrom]
    rfl
  | kDynstr =>
    simp only [sectionBytes, h.dynstr, headerOf, dynstrHeader, dynstrSize, length_append,
      length_cons, length_nil]
    omega
  | kHash => rw [sectionBytes, length_writeHash, h.hash]; rfl
  | kFuncNote => rw [sectionBytes, h.funcNotes, length_writeNotes hnames]; rfl
  | kDynamic => exact h.dynamic
  | kShstrtab => rw [sectionBytes, h.shstrtab]; rfl

theorem LaidOut.sizes_parts (h : LaidOut hashBytecode b entries elf) (hnames : NamesFit entries) :
    sizes (parts elf entries) = fileParts hashBytecode b entries := by
  simp only [sizes, parts, map_cons, map_nil, length_headerBytes,
    h.length_sectionBytes hnames]
  rfl

theorem LaidOut.writeElf_eq (h : LaidOut hashBytecode b entries elf) (hnames : NamesFit entries) :
    writeElf elf entries = emit 0 0 (parts elf entries) := by
  have hlen := h.length_sectionBytes hnames
  have htext : alignUp 4096 headersSize = 4096 := rfl
  simp only [parts, emit, hlen, length_headerBytes, headerOf, textHeader, dynsymHeader,
    dynstrHeader, hashHeader, funcNoteHeader, dynamicHeader, alignUp_one, Nat.zero_add, htext,
    Nat.sub_self, ← sectionStart_kDynsym hashBytecode b, ← sectionStart_kDynstr]
  simp only [← sectionStart_kHash, ← sectionStart_kFuncNote, ← sectionStart_kDynamic,
    ← sectionStart_kShstrtab]
  simp only [writeElf, h.headerPadding, h.textPadding, h.dynsymPadding, h.hashPadding,
    h.funcNotesPadding, h.dynamicPadding, sectionBytes, pad, append_assoc, append_nil,
    replicate_zero, nil_append]

theorem LaidOut.length_writeElf (h : LaidOut hashBytecode b entries elf)
    (hnames : NamesFit entries) : (writeElf elf entries).length =
      fileSize hashBytecode b entries := by
  have hpos : ∀ part ∈ parts elf entries, 0 < part.1 := by simp [parts]
  have hlen := @length_emit _ (0 : UInt8) _ 0 hpos
  rwa [Nat.zero_add, h.sizes_parts hnames, ← h.writeElf_eq hnames] at hlen

def partAlign : SectionIdx → Nat
  | .null | .kDynstr => 1
  | .kText | .kDynsym | .kDynamic => 4096
  | .kHash | .kShstrtab => 8
  | .kFuncNote => 4

theorem getElem?_parts {idx : SectionIdx} (hne : idx ≠ .null) :
    (parts elf entries)[idx.raw]? = some (partAlign idx, sectionBytes elf entries idx) := by
  cases idx with
  | null => exact absurd rfl hne
  | _ => rfl

namespace LaidOut

variable (h : LaidOut hashBytecode b entries elf) (idx : SectionIdx)
include h

theorem getElem?_offsets : (offsets 0 (fileParts hashBytecode b entries))[idx.raw]? =
    some (elf.sectionHeaders idx).offset := by
  rw [h.sectionHeaders]
  cases idx <;> rfl

theorem dvd_partAlign (hne : idx ≠ .null) : (elf.sectionHeaders idx).align ∣ partAlign idx := by
  rw [h.sectionHeaders]
  cases idx with
  | null => exact absurd rfl hne
  | kText => exact (by decide : 16 ∣ 4096)
  | kDynsym | kDynamic => exact (by decide : 8 ∣ 4096)
  | kShstrtab => exact Nat.one_dvd 8
  | kDynstr | kHash | kFuncNote => exact Nat.dvd_refl _

theorem size_eq (hnames : NamesFit entries) :
    (elf.sectionHeaders idx).size = (sectionBytes elf entries idx).length := by
  rw [h.sectionHeaders, h.length_sectionBytes hnames]

theorem getElem?_fileParts (hnames : NamesFit entries) (hne : idx ≠ .null) :
    (fileParts hashBytecode b entries)[idx.raw]? =
      some (partAlign idx, (elf.sectionHeaders idx).size) := by
  rw [← h.sizes_parts hnames, sizes, getElem?_map, getElem?_parts hne, h.size_eq _ hnames]
  rfl

theorem section_null : elf.sectionHeaders .null = {} := by
  rw [h.sectionHeaders]
  rfl

theorem slice_section (hnames : NamesFit entries) :
    slice (writeElf elf entries) (elf.sectionHeaders idx).offset (elf.sectionHeaders idx).size =
      sectionBytes elf entries idx := by
  by_cases hne : idx = .null
  · rw [hne, h.section_null]
    rfl
  · have hoffset := h.getElem?_offsets idx
    rw [← h.sizes_parts hnames] at hoffset
    have hslice := slice_emit (0 : UInt8) (by simp [parts]) (getElem?_parts hne) hoffset
    rwa [← h.writeElf_eq hnames, ← h.size_eq _ hnames, Nat.sub_zero] at hslice

theorem align_dvd_offset (hnames : NamesFit entries) :
    (elf.sectionHeaders idx).align ∣ (elf.sectionHeaders idx).offset := by
  by_cases hne : idx = .null
  · have hzero : (elf.sectionHeaders idx).offset = 0 := by rw [hne, h.section_null]
    rw [hzero]
    exact Nat.dvd_zero _
  · exact Nat.dvd_trans (h.dvd_partAlign idx hne)
      (dvd_offset (h.getElem?_fileParts idx hnames hne) (h.getElem?_offsets idx))

theorem offset_add_size_le (hnames : NamesFit entries) :
    (elf.sectionHeaders idx).offset + (elf.sectionHeaders idx).size ≤
      (writeElf elf entries).length := by
  rw [h.length_writeElf hnames]
  by_cases hne : idx = .null
  · rw [hne, h.section_null]
    exact Nat.zero_le _
  · exact (offset_add_le (by simp [fileParts]) (h.getElem?_fileParts idx hnames hne)
      (h.getElem?_offsets idx)).2

theorem offset_add_size_le_offset (hnames : NamesFit entries) {idx' : SectionIdx}
    (hlt : idx.raw < idx'.raw) : (elf.sectionHeaders idx).offset + (elf.sectionHeaders idx).size ≤
      (elf.sectionHeaders idx').offset := by
  by_cases hne : idx = .null
  · rw [hne, h.section_null]
    exact Nat.zero_le _
  · exact offset_add_le_offset (by simp [fileParts]) hlt (h.getElem?_fileParts idx hnames hne)
      (h.getElem?_offsets idx) (h.getElem?_offsets idx')

end LaidOut

variable {entry : CodeEntry Code} {i : Nat}

theorem slice_textBytes (hi : entries[i]? = some entry) (nameOffset address : Nat) :
    ∃ sym before, (symbolsFrom nameOffset address entries)[i]? = some sym ∧
      sym.address = address + before ∧ sym.size = entry.compiledCode.length ∧
      before + sym.size ≤ (textBytes entries).length ∧
      slice (textBytes entries) before sym.size = entry.compiledCode := by
  induction entries generalizing i nameOffset address with
  | nil => cases hi
  | cons first entries ih =>
    have htext : textBytes (first :: entries) = first.compiledCode ++ textBytes entries := rfl
    cases i with
    | zero =>
      cases hi
      refine ⟨_, 0, rfl, rfl, rfl, ?_, ?_⟩
      · rw [htext, length_append]
        simp only [entrySymbol]
        omega
      · rw [htext]
        exact slice_append_length _ _
    | succ i =>
      obtain ⟨sym, before, hsym, haddress, hsize, hle, hslice⟩ := ih hi
        (nameOffset + (first.funcName.length + 1)) (address + first.compiledCode.length)
      refine ⟨sym, first.compiledCode.length + before, hsym, ?_, hsize, ?_, ?_⟩
      · rw [haddress, Nat.add_assoc]
      · rw [htext, length_append]
        omega
      · rw [htext, slice_append_add, hslice]

theorem LaidOut.slice_symbol (h : LaidOut hashBytecode b entries elf) (hnames : NamesFit entries)
    (hi : entries[i]? = some entry) :
    ∃ sym, elf.dynsym[i + 1]? = some sym ∧ sym.size = entry.compiledCode.length ∧
      slice (writeElf elf entries) sym.address sym.size = entry.compiledCode := by
  obtain ⟨sym, before, hsym, haddress, hsize, hle, hslice⟩ :=
    slice_textBytes hi 1 kTextStartAddress
  refine ⟨sym, by rw [h.dynsym]; exact hsym, hsize, ?_⟩
  have htext := h.slice_section .kText hnames
  have hstart : (elf.sectionHeaders .kText).offset = kTextStartAddress := by
    rw [h.sectionHeaders]
    rfl
  rw [hstart, h.size_eq _ hnames] at htext
  rw [haddress, ← slice_slice hle, ← hslice]
  exact congrArg (fun bytes => slice bytes before sym.size) htext

theorem slice_fileHeader (elf : Object) (entries : List (CodeEntry Code)) :
    slice (writeElf elf entries) 0 elf.fileHeader.fields.width = elf.fileHeader.fields.bytes := by
  simp only [writeElf, headerBytes, append_assoc]
  rw [← Fields.length_bytes]
  exact slice_append_length _ _

theorem slice_sectionHeader (elf : Object) (entries : List (CodeEntry Code)) (idx : SectionIdx) :
    slice (writeElf elf entries) (64 + 64 * idx.raw) (elf.sectionHeaders idx).fields.width =
      (elf.sectionHeaders idx).fields.bytes := by
  have hlen : elf.fileHeader.fields.bytes.length = 64 := by simp
  have hidx : SectionIdx.all[idx.raw]? = some idx := by cases idx <;> rfl
  simp only [writeElf, headerBytes, append_assoc]
  rw [show 64 + 64 * idx.raw = elf.fileHeader.fields.bytes.length + 64 * idx.raw by rw [hlen],
    slice_append_add, width_sectionHeader]
  exact slice_flatMap (fun idx => by simp) hidx _

theorem readField_of_slice {out : List UInt8} {fields : Fields} {start i offset size value : Nat}
    (hslice : slice out start fields.width = fields.bytes) (hi : fields[i]? = some (size, value))
    (hoffset : fields.start i = offset) (hvalue : value < 256 ^ size) (hsize : 0 < size) :
    readField out (start + offset) size = some value := by
  subst hoffset
  obtain ⟨hle, hfield⟩ := Fields.slice_bytes fields hi
  rw [← hslice, slice_slice hle] at hfield
  have hlen := length_slice out (start + fields.start i) size
  rw [hfield, length_leBytes] at hlen
  rw [readField, if_pos (by omega), hfield, ofLeBytes_leBytes, Nat.mod_eq_of_lt hvalue]

namespace LaidOut

variable (h : LaidOut hashBytecode b entries elf)
include h

theorem lt_uint64 (hnames : NamesFit entries) (hsize : fileSize hashBytecode b entries < 2 ^ 32)
    (idx : SectionIdx) : (elf.sectionHeaders idx).offset < 256 ^ 8 ∧
      (elf.sectionHeaders idx).size < 256 ^ 8 := by
  have hle := h.offset_add_size_le idx hnames
  have hpow : 2 ^ 32 < 256 ^ 8 := by decide
  rw [h.length_writeElf hnames] at hle
  omega

theorem nameOffset_lt (idx : SectionIdx) : (elf.sectionHeaders idx).nameOffset < 256 ^ 4 := by
  rw [h.sectionHeaders]
  cases idx <;> simp [headerOf, textHeader, dynsymHeader, dynstrHeader, hashHeader,
    funcNoteHeader, dynamicHeader, shstrtabHeader]

theorem readField_section (hnames : NamesFit entries)
    (hsize : fileSize hashBytecode b entries < 2 ^ 32) (idx : SectionIdx) :
    readField (writeElf elf entries) (64 + 64 * idx.raw) 4 =
        some (elf.sectionHeaders idx).nameOffset ∧
      readField (writeElf elf entries) (64 + 64 * idx.raw + 24) 8 =
        some (elf.sectionHeaders idx).offset ∧
      readField (writeElf elf entries) (64 + 64 * idx.raw + 32) 8 =
        some (elf.sectionHeaders idx).size := by
  obtain ⟨hoffset, hlen⟩ := h.lt_uint64 hnames hsize idx
  have hslice := slice_sectionHeader elf entries idx
  refine ⟨?_, ?_, ?_⟩
  · exact @readField_of_slice _ _ _ 0 0 4 _ hslice rfl rfl (h.nameOffset_lt idx) (by decide)
  · exact @readField_of_slice _ _ _ 4 24 8 _ hslice rfl rfl hoffset (by decide)
  · exact @readField_of_slice _ _ _ 5 32 8 _ hslice rfl rfl hlen (by decide)

theorem readField_file : readField (writeElf elf entries) 40 8 = some 64 ∧
    readField (writeElf elf entries) 60 2 = some 8 ∧
    readField (writeElf elf entries) 62 2 = some SectionIdx.kShstrtab.raw := by
  have hslice := slice_fileHeader elf entries
  rw [h.fileHeader] at hslice
  refine ⟨@readField_of_slice _ _ 0 15 40 8 64 hslice rfl ?_ (by decide) (by decide),
    @readField_of_slice _ _ 0 21 60 2 8 hslice rfl ?_ (by decide) (by decide),
    @readField_of_slice _ _ 0 22 62 2 7 hslice rfl ?_ (by decide) (by decide)⟩
  all_goals simp [Fields.start, Fields.width, FileHeader.fields]

end LaidOut

def sectionName : SectionIdx → List UInt8
  | .null => []
  | .kText => ascii ".text"
  | .kDynsym => ascii ".dynsym"
  | .kDynstr => ascii ".dynstr"
  | .kHash => ascii ".hash"
  | .kFuncNote => kFuncNoteSectionName
  | .kDynamic => ascii ".dynamic"
  | .kShstrtab => ascii ".shstrtab"

theorem sectionName_injective : Function.Injective sectionName := by
  intro idx idx' h
  cases idx <;> cases idx' <;> first | rfl | exact absurd h (by decide)

def nameOffset : SectionIdx → Nat
  | .null => 0
  | .kText => 1
  | .kDynsym => 7
  | .kDynstr => 15
  | .kHash => 23
  | .kFuncNote => 29
  | .kDynamic => 42
  | .kShstrtab => 51

theorem cString_nameOffset (idx : SectionIdx) :
    0 ∈ (shstrtabAfter sectionNames).drop (nameOffset idx) ∧
      cString ((shstrtabAfter sectionNames).drop (nameOffset idx)) = sectionName idx := by
  cases idx <;> decide

namespace LaidOut

variable (h : LaidOut hashBytecode b entries elf) (hnames : NamesFit entries)
include h hnames

theorem drop_shstrtab :
    (writeElf elf entries).drop (elf.sectionHeaders .kShstrtab).offset =
      shstrtabAfter sectionNames := by
  have hslice := h.slice_section .kShstrtab hnames
  have hlen : (writeElf elf entries).length =
      (elf.sectionHeaders .kShstrtab).offset + (elf.sectionHeaders .kShstrtab).size := by
    rw [h.length_writeElf hnames, h.sectionHeaders, fileSize_eq]
    rfl
  rw [slice, take_of_length_le (by rw [length_drop]; omega)] at hslice
  rw [hslice, sectionBytes, h.shstrtab]

theorem stringAt_name (idx : SectionIdx) :
    stringAt (writeElf elf entries) ((elf.sectionHeaders .kShstrtab).offset +
      (elf.sectionHeaders idx).nameOffset) = some (sectionName idx) := by
  obtain ⟨hterminated, hname⟩ := cString_nameOffset idx
  have hoffset : (elf.sectionHeaders idx).nameOffset = nameOffset idx := by
    rw [h.sectionHeaders]
    cases idx <;> rfl
  rw [stringAt, ← drop_drop, h.drop_shstrtab hnames, hoffset, if_pos hterminated, hname]

theorem findNamed_eq (hsize : fileSize hashBytecode b entries < 2 ^ 32) (idx : SectionIdx)
    {idxs : List SectionIdx} (hmem : idx ∈ idxs) :
    findNamed (writeElf elf entries) 64 (elf.sectionHeaders .kShstrtab).offset (sectionName idx)
      (idxs.map SectionIdx.raw) = some (sectionBytes elf entries idx) := by
  induction idxs with
  | nil => cases hmem
  | cons first idxs ih =>
    obtain ⟨hname, hoffset, hlen⟩ := h.readField_section hnames hsize first
    rw [map_cons, findNamed]
    refine Eq.trans (bind_of_some hname _) ?_
    refine Eq.trans (bind_of_some (h.stringAt_name hnames first) _) ?_
    by_cases hfirst : first = idx
    · subst hfirst
      rw [if_pos rfl]
      refine Eq.trans (bind_of_some hoffset _) ?_
      refine Eq.trans (bind_of_some hlen _) ?_
      rw [if_pos (h.offset_add_size_le first hnames), h.slice_section first hnames]
    · rw [if_neg fun heq => hfirst (sectionName_injective heq)]
      exact ih ((mem_cons.mp hmem).resolve_left (Ne.symm hfirst))

theorem findSection_eq (hsize : fileSize hashBytecode b entries < 2 ^ 32) (idx : SectionIdx) :
    findSection (writeElf elf entries) (sectionName idx) = some (sectionBytes elf entries idx) := by
  obtain ⟨hheaders, hcount, hindex⟩ := h.readField_file
  obtain ⟨-, hoffset, hlen⟩ := h.readField_section hnames hsize .kShstrtab
  have hfirst : 64 + 64 * 8 ≤ (writeElf elf entries).length := by
    simp only [writeElf, length_append, length_headerBytes, headersSize]
    omega
  have hrange : range 8 = SectionIdx.all.map SectionIdx.raw := rfl
  rw [findSection]
  refine Eq.trans (bind_of_some hheaders _) ?_
  refine Eq.trans (bind_of_some hcount _) ?_
  refine Eq.trans (if_pos hfirst) ?_
  refine Eq.trans (bind_of_some hindex _) ?_
  refine Eq.trans (bind_of_some hoffset _) ?_
  refine Eq.trans (bind_of_some hlen _) ?_
  refine Eq.trans (if_pos (h.offset_add_size_le .kShstrtab hnames)) ?_
  rw [hrange]
  exact h.findNamed_eq hnames hsize idx (by cases idx <;> decide)

end LaidOut

end CinderX.Jit.Elf
