import CinderX.Jit.Elf.Writer
import CinderX.Jit.Elf.Reader

/-!
# Notes are read back

Each read of the stream undoes one write in front of any rest.
-/

namespace CinderX.Jit.Elf

open Foundation List Option Nat

variable {x k size n : Nat} {s : List UInt8} {notes : List Note}

theorem roundDown_two_pow (hx : x < 2 ^ 64) (hk : k ≤ 64) :
    roundDown x (2 ^ k) = x / 2 ^ k * 2 ^ k := by
  have hmask : 2 ^ 64 - 2 ^ k = 2 ^ k * (2 ^ (64 - k) - 1) := by
    rw [Nat.mul_sub_one, ← Nat.pow_add, Nat.add_sub_cancel' hk]
  rw [roundDown, if_neg (Nat.ne_of_gt (Nat.two_pow_pos k)), hmask]
  apply eq_of_testBit_eq
  intro i
  rw [testBit_and, testBit_two_pow_mul, testBit_two_pow_sub_one, Nat.mul_comm,
    testBit_two_pow_mul, testBit_div_two_pow]
  by_cases hi : k ≤ i
  · by_cases hi' : i < 64
    · have hlow : i - k < 64 - k := by omega
      simp [hi, hlow]
    · have hzero : x.testBit i = false :=
        testBit_lt_two_pow (Nat.lt_of_lt_of_le hx (Nat.pow_le_pow_right (by decide) (by omega)))
      simp [hi, hzero]
  · simp [hi]

theorem roundUp_two_pow (hx : x + 2 ^ k ≤ 2 ^ 64) (hk : k ≤ 64) :
    roundUp x (2 ^ k) = (x + 2 ^ k - 1) / 2 ^ k * 2 ^ k := by
  have hpos := Nat.two_pow_pos k
  rw [roundUp, if_neg (Nat.ne_of_gt hpos), roundDown_two_pow (by omega) hk]

theorem roundUp_four (hx : x + 4 ≤ 2 ^ 64) : roundUp x 4 = (x + 3) / 4 * 4 :=
  @roundUp_two_pow x 2 hx (by decide)

theorem padString_eq (h : size + 4 ≤ 2 ^ 32) :
    padString size = replicate ((4 - size % 4) % 4) 0 := by
  rw [padString, roundUp_four (by omega)]
  congr 1
  omega

def IStream.ready (rest : List UInt8) (tellg gcount : Nat) : IStream :=
  ⟨rest, tellg, gcount, false, false⟩

variable (rest : List UInt8) (tellg gcount : Nat)

@[simp]
theorem gcount_ready : (IStream.ready rest tellg gcount).gcount = gcount := rfl

theorem read_ready (bytes : List UInt8) :
    (IStream.ready (bytes ++ rest) tellg gcount).read bytes.length =
      (bytes, .ready rest (tellg + bytes.length) bytes.length) := by
  simp [IStream.read, IStream.ready, IStream.good, IStream.advance]

theorem readInt_ready (size n : Nat) :
    readInt size (.ready (leBytes size n ++ rest) tellg gcount) =
      some (n % 256 ^ size, .ready rest (tellg + size) size) := by
  have hread := read_ready rest tellg gcount (leBytes size n)
  rw [length_leBytes] at hread
  simp [readInt, hread, ofLeBytes_leBytes]

theorem readStr_ready (h : s.length ≤ 100000) :
    readStr true (.ready (s ++ [0] ++ rest) tellg gcount) s.length =
      some (s, .ready rest (tellg + (s.length + 1)) (s.length + 1)) := by
  have hread := read_ready rest tellg gcount (s ++ [0])
  rw [length_append, length_singleton] at hread
  simp only [readStr, if_neg (Nat.not_lt.mpr h), if_true, hread, gcount_ready]
  rw [take_left]

theorem readStr_ready_bare (h : s.length ≤ 100000) :
    readStr false (.ready (s ++ rest) tellg gcount) s.length =
      some (s, .ready rest (tellg + s.length) s.length) := by
  simp [readStr, Nat.not_lt.mpr h, read_ready]

theorem readStr_of_long (nul : Bool) (is : IStream) (h : 100000 < size) :
    readStr nul is size = none := by
  rw [readStr, if_pos h]

theorem unpad_ready (h : gcount + 4 ≤ 2 ^ 32) :
    unpad (.ready (padString gcount ++ rest) tellg gcount) 4 =
      .ready rest (tellg + (4 - gcount % 4) % 4) ((4 - gcount % 4) % 4) := by
  have hskip : (if 4 - gcount % 4 = 4 then 0 else 4 - gcount % 4) = (4 - gcount % 4) % 4 := by
    split <;> omega
  simp only [unpad, gcount_ready, hskip, padString_eq h]
  simp [IStream.ready, IStream.ignore, IStream.good, IStream.advance]

structure Note.Readable (note : Note) : Prop where
  name : note.name.length ≤ 100000
  desc : note.desc.length ≤ 100000
  type : note.type < 2 ^ 32

variable {note : Note}

theorem writeNote_eq (hname : note.name.length ≤ 100000) (hdesc : note.desc.length + 5 ≤ 2 ^ 32) :
    writeNote note = leBytes 4 (note.name.length + 1) ++ (leBytes 4 (note.desc.length + 1) ++
      (leBytes 4 note.type ++ (note.name ++ [0] ++ (padString (note.name.length + 1) ++
        (note.desc ++ [0] ++ padString (note.desc.length + 1)))))) := by
  rw [writeNote, mod_eq_of_lt (by omega), mod_eq_of_lt (by omega),
    if_pos (succ_pos _)]
  simp only [append_assoc]

theorem length_writeNote (hname : note.name.length ≤ 100000)
    (hdesc : note.desc.length + 5 ≤ 2 ^ 32) (hne : note.desc ≠ []) :
    (writeNote note).length = note.sizeBytes := by
  rw [writeNote_eq hname hdesc, Note.sizeBytes, if_pos hne, roundUp_four (by omega),
    roundUp_four (by omega), padString_eq (by omega), padString_eq (by omega)]
  simp only [length_append, length_leBytes, length_singleton, length_replicate]
  omega

theorem mod_of_lt_uint32 (h : n < 2 ^ 32) : n % 256 ^ 4 = n := by
  have hpow : 256 ^ 4 = 2 ^ 32 := by decide
  rw [hpow, mod_eq_of_lt h]

theorem withoutNul_succ (h : n + 1 < 2 ^ 32) : withoutNul ((n + 1) % 256 ^ 4) = n := by
  rw [mod_of_lt_uint32 h, withoutNul, Nat.add_right_comm, Nat.add_sub_cancel, add_mod_right,
    mod_eq_of_lt (by omega)]

theorem readNote_upToDesc (hname : note.name.length ≤ 100000)
    (hfit : note.desc.length + 5 ≤ 2 ^ 32) :
    ∃ tellg' gcount', tellg' + (note.desc.length + 1) + (4 - (note.desc.length + 1) % 4) % 4 =
        tellg + (writeNote note).length ∧
      readNote (.ready (writeNote note ++ rest) tellg gcount) =
        (readStr true (.ready (note.desc ++ [0] ++ (padString (note.desc.length + 1) ++ rest))
          tellg' gcount') note.desc.length).bind fun (desc, is) =>
            some (⟨note.name, desc, note.type % 256 ^ 4⟩, unpad is 4) := by
  refine ⟨tellg + 4 + 4 + 4 + (note.name.length + 1) + (4 - (note.name.length + 1) % 4) % 4,
    (4 - (note.name.length + 1) % 4) % 4, ?_, ?_⟩
  · rw [writeNote_eq hname hfit, padString_eq (by omega), padString_eq (by omega)]
    simp only [length_append, length_leBytes, length_singleton, length_replicate]
    omega
  · rw [writeNote_eq hname hfit]
    simp only [readNote, append_assoc, bind_eq_bind]
    rw [readInt_ready, bind_some]
    dsimp only
    rw [readInt_ready, bind_some]
    dsimp only
    rw [readInt_ready, bind_some]
    dsimp only
    rw [withoutNul_succ (by omega), withoutNul_succ (by omega)]
    have hread := readStr_ready (padString (note.name.length + 1) ++ (note.desc ++ ([0] ++
      (padString (note.desc.length + 1) ++ rest)))) (tellg + 4 + 4 + 4) 4 hname
    simp only [append_assoc] at hread
    rw [hread, bind_some, unpad_ready _ _ _ (by omega)]

theorem readNote_writeNote (h : note.Readable) :
    ∃ gcount', readNote (.ready (writeNote note ++ rest) tellg gcount) =
      some (note, .ready rest (tellg + (writeNote note).length) gcount') := by
  obtain ⟨hname, hdesc, htype⟩ := h
  obtain ⟨tellg', gcount', htellg, hread⟩ := readNote_upToDesc rest tellg gcount hname
    (by omega : note.desc.length + 5 ≤ 2 ^ 32)
  refine ⟨(4 - (note.desc.length + 1) % 4) % 4, ?_⟩
  rw [hread, readStr_ready _ _ _ hdesc, bind_some]
  dsimp only
  rw [unpad_ready _ _ _ (by omega), htellg, mod_of_lt_uint32 htype]

theorem readNote_of_long (hname : note.name.length ≤ 100000) (hdesc : 100000 < note.desc.length)
    (hfit : note.desc.length + 5 ≤ 2 ^ 32) :
    readNote (.ready (writeNote note ++ rest) tellg gcount) = none := by
  obtain ⟨tellg', gcount', -, hread⟩ := readNote_upToDesc rest tellg gcount hname hfit
  rw [hread, readStr_of_long _ _ hdesc, bind_none]

theorem readNotes_writeNotes (h : ∀ note ∈ notes, note.Readable)
    {rounds size : Nat} (hrounds : notes.length < rounds)
    (hsize : size = tellg + (writeNotes notes).length) :
    readNotes rounds (.ready (writeNotes notes) tellg gcount) size = some notes := by
  induction notes generalizing rounds tellg gcount with
  | nil =>
    obtain ⟨rounds, rfl⟩ : ∃ r, rounds = r + 1 := ⟨rounds - 1, by simp at hrounds; omega⟩
    subst hsize
    simp [readNotes, writeNotes, IStream.ready]
  | cons note notes ih =>
    obtain ⟨rounds, rfl⟩ : ∃ r, rounds = r + 1 :=
      ⟨rounds - 1, by simp only [length_cons] at hrounds; omega⟩
    obtain ⟨gcount', hread⟩ := readNote_writeNote (writeNotes notes) tellg gcount
      (h note mem_cons_self)
    have hrest : notes.length < rounds := by simpa using hrounds
    have hwrite : writeNotes (note :: notes) = writeNote note ++ writeNotes notes := rfl
    have hpos : 0 < (writeNote note).length := by
      simp only [writeNote, length_append, length_leBytes]
      omega
    rw [hwrite, length_append] at hsize
    have hmore : (IStream.ready (writeNote note ++ writeNotes notes) tellg gcount).good &&
        (IStream.ready (writeNote note ++ writeNotes notes) tellg gcount).tellg < size := by
      have hlt : tellg < size := by omega
      simp [IStream.ready, IStream.good, hlt]
    rw [hwrite, readNotes, if_pos hmore, hread]
    simp only [bind_eq_bind, bind_some]
    rw [ih _ _ (fun n hn => h n (mem_cons_of_mem note hn)) hrest (by omega),
      bind_some]

theorem length_le_writeNotes (notes : List Note) : notes.length ≤ (writeNotes notes).length := by
  induction notes with
  | nil => exact Nat.le_refl 0
  | cons note notes ih =>
    simp only [writeNotes, flatMap_cons, length_append, length_cons, writeNote,
      length_leBytes] at ih ⊢
    omega

theorem readNoteSection_writeNotes (h : ∀ note ∈ notes, note.Readable) :
    readNoteSection (writeNotes notes) = some notes :=
  readNotes_writeNotes 0 0 h (lt_succ_of_le (length_le_writeNotes notes)) (Nat.zero_add _).symm

variable {Code : Type} (hashBytecode : Code → UInt32)

def CodeEntry.normalOffset (entry : CodeEntry Code) : Nat :=
  (entry.normalEntry - entry.codeStart).toNat

def CodeEntry.staticOffset (entry : CodeEntry Code) : Nat :=
  (entry.staticEntry - entry.codeStart).toNat

theorem writeFuncNote_eq (entry : CodeEntry Code) :
    writeFuncNote hashBytecode entry =
      leBytes 4 entry.fileName.length ++ (entry.fileName ++ (leBytes 4 entry.lineno.toNat ++
        (leBytes 4 (hashBytecode entry.code).toNat ++ (leBytes 4 entry.compiledCode.length ++
          (leBytes 4 entry.normalOffset ++ (leBytes 4 (if entry.staticEntry ≠ 0 then
            entry.staticOffset else kInvalidStaticOffset) ++ [])))))) := by
  simp only [writeFuncNote, CodeEntry.normalOffset, CodeEntry.staticOffset, append_assoc,
    append_nil]

@[simp]
theorem length_writeFuncNote (entry : CodeEntry Code) :
    (writeFuncNote hashBytecode entry).length = entry.fileName.length + 24 := by
  simp only [writeFuncNote, length_append, length_leBytes]
  omega

variable {entry : CodeEntry Code}

theorem parseCodeNote_funcNote (h : entry.fileName.length ≤ 100000) :
    parseCodeNote (funcNote hashBytecode entry) = some
      { fileName := entry.fileName
        lineno := entry.lineno.toNat % 256 ^ 4
        hash := (hashBytecode entry.code).toNat % 256 ^ 4
        size := entry.compiledCode.length % 256 ^ 4
        normalEntryOffset := entry.normalOffset % 256 ^ 4
        staticEntryOffset :=
          let offset := (if entry.staticEntry ≠ 0 then entry.staticOffset
            else kInvalidStaticOffset) % 256 ^ 4
          if offset ≠ kInvalidStaticOffset then some offset else none } := by
  have hstream : ∀ bytes, (⟨bytes, 0, 0, false, false⟩ : IStream) = .ready bytes 0 0 :=
    fun _ => rfl
  simp only [parseCodeNote, funcNote, writeFuncNote_eq, hstream, bind_eq_bind]
  rw [readInt_ready, bind_some]
  dsimp only
  rw [mod_of_lt_uint32 (by omega), readStr_ready_bare _ _ _ h, bind_some]
  dsimp only
  iterate 4
    rw [readInt_ready, bind_some]
    dsimp only
  rw [readInt_ready, bind_some]

/-- The fields of a note are those of the entry, when they fit into 32 bits. -/
structure CodeEntry.Fits (entry : CodeEntry Code) : Prop where
  lineno : entry.lineno.toNat < 2 ^ 32
  normal : entry.normalOffset < 2 ^ 32
  static : entry.staticEntry ≠ 0 → entry.staticOffset < kInvalidStaticOffset

def CodeEntry.data (entry : CodeEntry Code) : CodeNoteData :=
  { fileName := entry.fileName
    lineno := entry.lineno.toNat
    hash := (hashBytecode entry.code).toNat
    size := entry.compiledCode.length
    normalEntryOffset := entry.normalOffset
    staticEntryOffset := if entry.staticEntry ≠ 0 then some entry.staticOffset else none }

theorem parseCodeNote_eq_data (h : entry.fileName.length ≤ 100000)
    (hsize : entry.compiledCode.length < 2 ^ 32) (hfits : entry.Fits) :
    parseCodeNote (funcNote hashBytecode entry) = some (entry.data hashBytecode) := by
  have hinvalid : kInvalidStaticOffset < 2 ^ 32 := by decide
  have hhash : (hashBytecode entry.code).toNat % 256 ^ 4 = (hashBytecode entry.code).toNat :=
    mod_of_lt_uint32 (hashBytecode entry.code).toNat_lt
  rw [parseCodeNote_funcNote hashBytecode h, CodeEntry.data, mod_of_lt_uint32 hfits.lineno, hhash,
    mod_of_lt_uint32 hsize, mod_of_lt_uint32 hfits.normal]
  by_cases hstatic : entry.staticEntry = 0
  · rw [if_neg (not_not_intro hstatic), if_neg (not_not_intro hstatic), mod_of_lt_uint32 hinvalid]
    rfl
  · have hlt := hfits.static hstatic
    rw [if_pos hstatic, if_pos hstatic, mod_of_lt_uint32 (Nat.lt_trans hlt hinvalid)]
    dsimp only
    rw [if_pos (Nat.ne_of_lt hlt)]

theorem readable_funcNote (hname : entry.funcName.length ≤ 100000)
    (hfile : entry.fileName.length ≤ 99976) : (funcNote hashBytecode entry).Readable := by
  refine ⟨hname, ?_, by simp [funcNote]⟩
  rw [funcNote, length_writeFuncNote]
  omega

end CinderX.Jit.Elf
