import CinderX.Compiler.PositionTable

/-!
# Position tables are read back

Each entry is read back as the position of its location, whatever kind is chosen for
it, and leaves reader and writer at the same line.
-/

namespace CinderX.Compiler

open CinderX.Foundation List

def columnOf (column : Int) : Option Nat := if column < 0 then none else some column.toNat

namespace Location

/-- The position that a location stands for in the table.  Where a column is missing on
a single line, the entry without columns is used. -/
def position (loc : Location) : Option Position :=
  if loc.lineno < 0 then none
  else if (loc.colOffset < 0 ∨ loc.endColOffset < 0) ∧
      (loc.endLineno = loc.lineno ∨ loc.endLineno = -1) then
    some ⟨loc.lineno, loc.lineno, none, none⟩
  else
    some ⟨loc.lineno, loc.endLineno, columnOf loc.colOffset, columnOf loc.endColOffset⟩

def IsValid (loc : Location) : Prop :=
  loc.lineno < 0 ∨
    (loc.lineno ≤ loc.endLineno ∨
      loc.endLineno = -1 ∧ (loc.colOffset < 0 ∨ loc.endColOffset < 0)) ∧
    -1 ≤ loc.colOffset ∧ -1 ≤ loc.endColOffset

end Location

namespace Location

theorem position_absent {loc : Location} (h : loc.lineno < 0) : loc.position = none :=
  if_pos h

theorem position_noColumns {loc : Location} (h : ¬loc.lineno < 0)
    (hmissing : loc.colOffset < 0 ∨ loc.endColOffset < 0)
    (hone : loc.endLineno = loc.lineno ∨ loc.endLineno = -1) :
    loc.position = some ⟨loc.lineno, loc.lineno, none, none⟩ := by
  unfold position
  rw [if_neg h, if_pos ⟨hmissing, hone⟩]

theorem position_columns {loc : Location} (h : ¬loc.lineno < 0)
    (hcolumns : ¬((loc.colOffset < 0 ∨ loc.endColOffset < 0) ∧
      (loc.endLineno = loc.lineno ∨ loc.endLineno = -1))) :
    loc.position =
      some ⟨loc.lineno, loc.endLineno, columnOf loc.colOffset, columnOf loc.endColOffset⟩ := by
  unfold position
  rw [if_neg h, if_neg hcolumns]

end Location

/-- `bytes` are read, from `line`, as these positions, and leave the reader at `line'`. -/
def Reads (line : Int) (bytes : List Nat) (line' : Int)
    (positions : List (Option Position)) : Prop :=
  ∀ rest, decodePositions line (bytes ++ rest) =
    (decodePositions line' rest).map (positions ++ ·)

variable {line line' : Int} {bytes : List Nat}

theorem Reads.nil : Reads line [] line [] := by
  intro rest
  cases h : decodePositions line rest <;> simp [h]

theorem Reads.append {line line' line'' : Int} {bytes bytes' : List Nat}
    {positions positions' : List (Option Position)} (h : Reads line bytes line' positions)
    (h' : Reads line' bytes' line'' positions') :
    Reads line (bytes ++ bytes') line'' (positions ++ positions') := by
  intro rest
  rw [append_assoc, h, h']
  cases decodePositions line'' rest <;> simp

theorem Reads.entry {position : Option Position} {size : Nat} (hne : bytes ≠ [])
    (h : ∀ rest, decodeEntry line (bytes ++ rest) = some (position, size, line', rest)) :
    Reads line bytes line' (replicate size position) := by
  intro rest
  rw [decodePositions, if_neg (by simp [hne])]
  split
  next hnone => simp [h] at hnone
  next hsome =>
    rw [h] at hsome
    cases hsome
    rfl

theorem Reads.decodePositions
    {positions : List (Option Position)} (h : Reads line bytes line' positions) :
    decodePositions line bytes = some positions := by
  have hread := h []
  rw [append_nil] at hread
  rw [hread, CinderX.Compiler.decodePositions]
  simp

/-! ## Entries -/

namespace LinePositionTable

theorem firstByte_eq : ∀ code < 16, ∀ size < 9, 0 < size →
    firstByte code size = some (128 + 8 * code + (size - 1)) := by
  decide

theorem decodeEntry_first {code size : Nat} (hcode : code < 16) (hsize : size < 9)
    (hpos : 0 < size) (line : Int) (bytes : List Nat) :
    decodeEntry line ((128 + 8 * code + (size - 1)) :: bytes) =
      (decodeBody code line bytes).map fun r => (r.1, size, r.2.1, r.2.2) := by
  simp only [decodeEntry]
  rw [if_pos (by omega)]
  have hmod : (128 + 8 * code + (size - 1)) / 8 % 16 = code := by omega
  have hlow : (128 + 8 * code + (size - 1)) % 8 + 1 = size := by omega
  rw [hmod, hlow]

def WritesEntry (bytes : Option (List Nat)) (position : Option Position) (size : Nat)
    (line line' : Int) : Prop :=
  ∃ written, bytes = some written ∧ written ≠ [] ∧
    ∀ rest, decodeEntry line (written ++ rest) = some (position, size, line', rest)

variable {size : Nat}

theorem writesEntry_noLocation (line : Int) (hsize : size < 9) (hpos : 0 < size) :
    WritesEntry (writeEntryNoLocation size) none size line line := by
  refine ⟨[128 + 8 * 15 + (size - 1)], ?_, cons_ne_nil _ _, ?_⟩
  · simp only [writeEntryNoLocation, CodeLocationInfoKind.NONE]
    rw [firstByte_eq 15 (by decide) size hsize hpos]
    rfl
  · intro rest
    rw [cons_append, decodeEntry_first (by decide) hsize hpos]
    simp [decodeBody]

theorem writesEntry_noColumn (line : Int) (hsize : size < 9) (hpos : 0 < size)
    (delta : Int) :
    WritesEntry (writeNoColumn size delta)
      (some ⟨line + delta, line + delta, none, none⟩) size line (line + delta) := by
  refine ⟨(128 + 8 * 13 + (size - 1)) :: writeSignedVarint delta, ?_, cons_ne_nil _ _, ?_⟩
  · simp only [writeNoColumn, CodeLocationInfoKind.NO_COLUMNS]
    rw [firstByte_eq 13 (by decide) size hsize hpos]
    rfl
  · intro rest
    rw [cons_append, decodeEntry_first (by decide) hsize hpos]
    simp [decodeBody, readSignedVarint_writeSignedVarint]

theorem writesEntry_shortForm (line : Int) (hsize : size < 9) (hpos : 0 < size)
    {column endColumn : Int} (hcolumn : 0 ≤ column) (hlt : column < 80) (hle : endColumn ≥ column)
    (hdelta : endColumn - column < 16) :
    WritesEntry (writeShortForm size column endColumn)
      (some ⟨line, line, some column.toNat, some endColumn.toNat⟩) size line line := by
  obtain ⟨c, rfl⟩ := Int.eq_ofNat_of_zero_le hcolumn
  obtain ⟨d, hd⟩ := Int.eq_ofNat_of_zero_le (show 0 ≤ endColumn - c by omega)
  obtain rfl : endColumn = c + d := by omega
  have hgroup : c >>> 3 = c / 8 := Nat.shiftRight_eq_div_pow c 3
  have hlow : c &&& 7 = c % 8 := Nat.and_two_pow_sub_one_eq_mod c 3
  have hbyte : ∀ low < 8, ∀ d < 16, (low <<< 4 ||| d) &&& 255 = low * 16 + d := by decide
  have hsecond := hbyte (c % 8) (by omega) d (by omega)
  refine ⟨[128 + 8 * (c / 8) + (size - 1), c % 8 * 16 + d], ?_, cons_ne_nil _ _, ?_⟩
  · unfold writeShortForm
    rw [if_pos ⟨hpos, by omega, hlt, hle, hdelta⟩]
    simp only [Int.toNat_natCast, hgroup, hlow, CodeLocationInfoKind.SHORT0, Nat.zero_add, hd]
    rw [firstByte_eq (c / 8) (by omega) size hsize hpos, hsecond]
    rfl
  · intro rest
    rw [cons_append, decodeEntry_first (by omega) hsize hpos]
    unfold decodeBody
    rw [if_neg (by omega), if_neg (by omega), if_neg (by omega), if_neg (by omega)]
    simp only [cons_append, nil_append, readByte]
    simp
    omega

theorem writesEntry_oneLineForm (line : Int) (hsize : size < 9) (hpos : 0 < size)
    {delta column endColumn : Int} (hdelta : 0 ≤ delta) (hlt : delta < 3)
    (hcolumn : 0 ≤ column) (hcolumn' : column < 128) (hend : 0 ≤ endColumn)
    (hend' : endColumn < 128) :
    WritesEntry (writeOneLineForm size delta column endColumn)
      (some ⟨line + delta, line + delta, some column.toNat, some endColumn.toNat⟩) size line
      (line + delta) := by
  obtain ⟨k, rfl⟩ := Int.eq_ofNat_of_zero_le hdelta
  have hbyte : ∀ n : Nat, n < 128 → n &&& 255 = n := by
    intro n hn
    rw [show 255 = 2 ^ 8 - 1 from rfl, Nat.and_two_pow_sub_one_eq_mod]
    omega
  refine ⟨[128 + 8 * (10 + k) + (size - 1), column.toNat, endColumn.toNat], ?_,
    cons_ne_nil _ _, ?_⟩
  · unfold writeOneLineForm
    rw [if_pos ⟨hpos, by omega, hdelta, hlt, hcolumn', hend'⟩]
    simp only [Int.toNat_natCast, CodeLocationInfoKind.ONE_LINE0]
    rw [firstByte_eq (10 + k) (by omega) size hsize hpos, hbyte _ (by omega),
      hbyte _ (by omega)]
    rfl
  · intro rest
    rw [cons_append, decodeEntry_first (by omega) hsize hpos]
    unfold decodeBody
    rw [if_neg (by omega), if_neg (by omega), if_neg (by omega), if_pos (by omega)]
    simp [readByte]

theorem readColumn_writeVarint {column : Int} (h : -1 ≤ column) (rest : List Nat) :
    readColumn (writeVarint (column + 1).toNat ++ rest) = some (columnOf column, rest) := by
  unfold readColumn columnOf
  rw [readVarint_writeVarint, Option.map_some]
  split <;> split <;> simp <;> omega

variable {loc : Location}

theorem writesEntry_longForm (line : Int) (hsize : size < 9) (hpos : 0 < size)
    (hlines : loc.lineno ≤ loc.endLineno) (hcolumn : -1 ≤ loc.colOffset)
    (hend : -1 ≤ loc.endColOffset) :
    WritesEntry (writeLongForm loc size line)
      (some ⟨loc.lineno, loc.endLineno, columnOf loc.colOffset, columnOf loc.endColOffset⟩)
      size line loc.lineno := by
  refine ⟨(128 + 8 * 14 + (size - 1)) :: (writeSignedVarint (loc.lineno - line) ++
    writeVarint (loc.endLineno - loc.lineno).toNat ++
    writeVarint (loc.colOffset + 1).toNat ++ writeVarint (loc.endColOffset + 1).toNat), ?_,
    cons_ne_nil _ _, ?_⟩
  · unfold writeLongForm
    rw [if_pos ⟨hpos, by omega, hlines⟩, CodeLocationInfoKind.LONG,
      firstByte_eq 14 (by decide) size hsize hpos]
    rfl
  · intro rest
    rw [cons_append, decodeEntry_first (by decide) hsize hpos]
    have hline : line + (loc.lineno - line) = loc.lineno := by omega
    simp [decodeBody, readSignedVarint_writeSignedVarint, readVarint_writeVarint,
      readColumn_writeVarint hcolumn, readColumn_writeVarint hend, hline]
    omega

def lineAfter (loc : Location) (line : Int) : Int := if loc.lineno < 0 then line else loc.lineno

theorem WritesEntry.map {line : Int} {bytes : Option (List Nat)} {position : Option Position}
    {line' : Int} (h : WritesEntry bytes position size line line') :
    ∃ written, bytes.map (·, line') = some (written, line') ∧ written ≠ [] ∧
      ∀ rest, decodeEntry line (written ++ rest) = some (position, size, line', rest) := by
  obtain ⟨written, rfl, hne, hdecode⟩ := h
  exact ⟨written, rfl, hne, hdecode⟩

theorem entryBytes_spec (line : Int) (hsize : size < 9) (hpos : 0 < size) (h : loc.IsValid) :
    ∃ written, entryBytes loc size line = some (written, lineAfter loc line) ∧
      written ≠ [] ∧ ∀ rest, decodeEntry line (written ++ rest) =
        some (loc.position, size, lineAfter loc line, rest) := by
  unfold entryBytes lineAfter
  by_cases hline : loc.lineno < 0
  · rw [if_pos hline, if_pos hline, Location.position_absent hline]
    exact (writesEntry_noLocation line hsize hpos).map
  rw [if_neg hline, if_neg hline]
  obtain ⟨hlines, hcolumn, hend⟩ := h.resolve_left hline
  rw [if_pos ⟨hcolumn, hend⟩]
  have hsum : line + (loc.lineno - line) = loc.lineno := by omega
  by_cases hmissing : loc.colOffset < 0 ∨ loc.endColOffset < 0
  · rw [if_pos hmissing]
    by_cases hone : loc.endLineno = loc.lineno ∨ loc.endLineno = -1
    · rw [if_pos hone, Location.position_noColumns hline hmissing hone]
      have hwrites := writesEntry_noColumn line hsize hpos (loc.lineno - line)
      rw [hsum] at hwrites
      exact hwrites.map
    · rw [if_neg hone, Location.position_columns hline fun hboth => hone hboth.2]
      exact (writesEntry_longForm line hsize hpos (by omega) hcolumn hend).map
  rw [if_neg hmissing, Location.position_columns hline fun hboth => hmissing hboth.1]
  have hcolumns : columnOf loc.colOffset = some loc.colOffset.toNat ∧
      columnOf loc.endColOffset = some loc.endColOffset.toNat := by
    unfold columnOf
    rw [if_neg (by omega), if_neg (by omega)]
    exact ⟨rfl, rfl⟩
  have hlines : loc.lineno ≤ loc.endLineno := by omega
  by_cases hone : loc.endLineno = loc.lineno
  · rw [if_pos hone]
    by_cases hshort : loc.lineno - line = 0 ∧ loc.colOffset < 80 ∧
        loc.endColOffset - loc.colOffset < 16 ∧ loc.endColOffset ≥ loc.colOffset
    · obtain ⟨hdelta, hlt, hwidth, hle⟩ := hshort
      obtain rfl : loc.lineno = line := by omega
      rw [if_pos ⟨hdelta, hlt, hwidth, hle⟩, hcolumns.1, hcolumns.2, hone]
      exact (writesEntry_shortForm loc.lineno hsize hpos (by omega) hlt hle hwidth).map
    rw [if_neg hshort]
    by_cases honeLine : 0 ≤ loc.lineno - line ∧ loc.lineno - line < 3 ∧
        loc.colOffset < 128 ∧ loc.endColOffset < 128
    · rw [if_pos honeLine, hcolumns.1, hcolumns.2, hone]
      have hwrites := writesEntry_oneLineForm line hsize hpos honeLine.1
        honeLine.2.1 (by omega) honeLine.2.2.1 (by omega) honeLine.2.2.2
      rw [hsum] at hwrites
      exact hwrites.map
    · rw [if_neg honeLine]
      exact (writesEntry_longForm line hsize hpos hlines hcolumn hend).map
  · rw [if_neg hone]
    exact (writesEntry_longForm line hsize hpos hlines hcolumn hend).map

def Extends (t : LinePositionTable) (r : Option LinePositionTable)
    (positions : List (Option Position)) : Prop :=
  ∃ bytes line', r = some ⟨t.linetable ++ bytes, line'⟩ ∧
    Reads t.lineno bytes line' positions

theorem Extends.refl (t : LinePositionTable) : Extends t (some t) [] :=
  ⟨[], t.lineno, by simp, .nil⟩

theorem Extends.bind {t : LinePositionTable} {r : Option LinePositionTable}
    {f : LinePositionTable → Option LinePositionTable}
    {positions positions' : List (Option Position)} (h : Extends t r positions)
    (h' : ∀ t', Extends t' (f t') positions') :
    Extends t (r.bind f) (positions ++ positions') := by
  obtain ⟨bytes, line', rfl, hreads⟩ := h
  obtain ⟨bytes', line'', heq, hreads'⟩ := h' ⟨t.linetable ++ bytes, line'⟩
  refine ⟨bytes ++ bytes', line'', ?_, hreads.append hreads'⟩
  rw [Option.bind_some, heq, append_assoc]

theorem writeEntry_extends (hsize : size < 9) (hpos : 0 < size) (h : loc.IsValid)
    (t : LinePositionTable) :
    Extends t (t.writeEntry loc size) (replicate size loc.position) := by
  obtain ⟨written, hbytes, hne, hdecode⟩ := entryBytes_spec t.lineno hsize hpos h
  refine ⟨written, lineAfter loc t.lineno, ?_, .entry hne hdecode⟩
  unfold writeEntry
  rw [hbytes]
  rfl

theorem writeEntries_extends (h : loc.IsValid) :
    ∀ size, 0 < size → ∀ t : LinePositionTable,
      Extends t (t.writeEntries loc size) (replicate size loc.position) := by
  intro size
  induction size using Nat.strongRecOn with
  | ind size ih =>
    intro hpos t
    rw [writeEntries]
    split
    next hlong =>
      have hsplit : replicate size loc.position =
          replicate 8 loc.position ++ replicate (size - 8) loc.position := by
        rw [replicate_append_replicate]
        congr 1
        omega
      rw [hsplit]
      exact (writeEntry_extends (by decide) (by decide) h t).bind
        fun t' => ih (size - 8) (by omega) (by omega) t'
    next hshort => exact writeEntry_extends (by omega) hpos h t

theorem emitLocation_extends (h : loc.IsValid) (size : Nat) (t : LinePositionTable) :
    Extends t (t.emitLocation loc size) (replicate size loc.position) := by
  unfold emitLocation
  split
  next hzero =>
    subst hzero
    exact .refl t
  next hpos => exact writeEntries_extends h size (by omega) t

end LinePositionTable

open LinePositionTable

def codeUnitPositions (insts : List LocatedInst) : List (Option Position) :=
  insts.flatMap fun t => replicate t.size t.loc.position

theorem emitLocations_extends (insts : List LocatedInst) :
    (∀ t ∈ insts, t.loc.IsValid) → ∀ {loc : Location}, loc.IsValid → ∀ (size : Nat)
      (t : LinePositionTable), Extends t (emitLocations insts loc size t)
        (replicate size loc.position ++ codeUnitPositions insts) := by
  induction insts with
  | nil =>
    intro _ loc hloc size t
    simpa [codeUnitPositions, emitLocations] using emitLocation_extends hloc size t
  | cons inst insts ih =>
    intro h loc hloc size t
    obtain ⟨hinst, hinsts⟩ := forall_mem_cons.mp h
    unfold emitLocations
    split
    · exact (emitLocation_extends hloc size t).bind fun t' => ih hinsts hinst inst.size t'
    next hsame =>
      obtain rfl : inst.loc = loc := by simpa using hsame
      have hmore := ih hinsts hloc (size + inst.size) t
      rw [← replicate_append_replicate, append_assoc] at hmore
      exact hmore

/-- The table of instructions whose locations can be written gives every code unit the
position of its instruction's location. -/
theorem line_table_roundTrips (firstline : Int) (insts resolved : List LocatedInst)
    (hresolved : resolveLocations insts = some resolved)
    (hvalid : ∀ t ∈ resolved, t.loc.IsValid) :
    ∃ table, makeLineTable firstline insts = some table ∧
      decodePositions firstline table = some (codeUnitPositions resolved) := by
  have hnone : NO_LOCATION.IsValid := .inl (by decide)
  obtain ⟨bytes, line', heq, hreads⟩ :=
    emitLocations_extends resolved hvalid hnone 0 ⟨[], firstline⟩
  refine ⟨bytes, ?_, hreads.decodePositions⟩
  unfold makeLineTable
  rw [hresolved]
  simp only [Option.bind_eq_bind, Option.bind_some, heq]
  rfl

def Location.exact (loc : Location) : Option Position :=
  if loc.lineno < 0 then none
  else some ⟨loc.lineno, loc.endLineno, columnOf loc.colOffset, columnOf loc.endColOffset⟩

def Location.IsWritable (loc : Location) : Prop :=
  loc.lineno < 0 ∨
    (loc.lineno ≤ loc.endLineno ∨ loc.endLineno = -1) ∧ -1 ≤ loc.colOffset ∧
      -1 ≤ loc.endColOffset

/-- A function's first instructions: a line with columns, a long run on an earlier line,
a multi-line location without its first column, and an instruction without location. -/
theorem line_table_roundTrips_sample :
    let insts : List LocatedInst := [⟨⟨7, 7, 4, 90, none⟩, 1, false, false⟩,
      ⟨⟨3, 3, 0, 12, none⟩, 19, false, false⟩, ⟨⟨500, 502, -1, 2, none⟩, 2, false, false⟩,
      ⟨NEXT_LOCATION, 1, true, false⟩]
    let resolved : List LocatedInst := [⟨⟨7, 7, 4, 90, none⟩, 1, false, false⟩,
      ⟨⟨3, 3, 0, 12, none⟩, 19, false, false⟩, ⟨⟨500, 502, -1, 2, none⟩, 2, false, false⟩,
      ⟨NO_LOCATION, 1, true, false⟩]
    ∃ table, makeLineTable 5 insts = some table ∧
      decodePositions 5 table = some (codeUnitPositions resolved) := by
  intro insts resolved
  have hvalid : ∀ t ∈ resolved, t.loc.IsValid := by
    intro t ht
    simp only [resolved, mem_cons, not_mem_nil, or_false] at ht
    rcases ht with rfl | rfl | rfl | rfl <;> simp [Location.IsValid, NO_LOCATION]
  exact line_table_roundTrips 5 insts resolved rfl hvalid

/-- With both columns but no end line, the assertion of `write_long_form` fails. -/
theorem line_table_needs_endLineno :
    ¬∀ (firstline : Int) (insts : List LocatedInst), (∀ t ∈ insts, t.loc.IsWritable) →
      ∃ table, makeLineTable firstline insts = some table ∧
        decodePositions firstline table =
          some (insts.flatMap fun t => replicate t.size t.loc.exact) := by
  intro h
  obtain ⟨table, htable, -⟩ := h 1 [⟨⟨1, -1, 0, 4, none⟩, 1, false, false⟩] (by
    intro t ht
    obtain rfl := mem_singleton.mp ht
    exact .inr (by decide))
  have hnone : makeLineTable 1 [⟨⟨1, -1, 0, 4, none⟩, 1, false, false⟩] = none := by
    simp [makeLineTable, resolveLocations, emitLocations, emitLocation, writeEntries,
      writeEntry, entryBytes, writeLongForm, NEXT_LOCATION, NO_LOCATION]
  rw [hnone] at htable
  cases htable

end CinderX.Compiler
