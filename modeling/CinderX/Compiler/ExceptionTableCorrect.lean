import CinderX.Compiler.ExceptionTable

/-!
# Exception tables are read back

A number is written as groups of six bits, the highest first.  `decoded` is what the
reader makes of them: `2 ^ 24`, which the first comparison of `emit_item` misses, loses
its highest group.
-/

namespace CinderX.Compiler

open List

/-- The bytes of the groups: all but the last are continued, and the first has `msb`. -/
def encodeGroups (msb : Nat) : List Nat → List Nat
  | [] => []
  | [g] => [g ||| msb]
  | g :: g' :: gs => (g ||| 64 ||| msb) :: encodeGroups 0 (g' :: gs)

def groupsValue (value : Nat) (gs : List Nat) : Nat := gs.foldl (fun v g => v * 64 + g) value

theorem continued_bits : ∀ g < 64, ∀ msb ∈ [0, 128],
    ((g ||| 64 ||| msb) &&& 63 = g ∧ (g ||| 64 ||| msb) &&& 64 ≠ 0 ∧
      (g ||| 64 ||| msb) / 128 = msb / 128) ∧
    ((g ||| msb) &&& 63 = g ∧ (g ||| msb) &&& 64 = 0 ∧ (g ||| msb) / 128 = msb / 128) := by
  decide

variable {value g : Nat}

theorem shiftLeft_or (hvalue : value < 2 ^ 26) (hg : g < 64) :
    (value <<< 6 ||| g) % 2 ^ 32 = value * 64 + g := by
  rw [Nat.shiftLeft_eq, Nat.mul_comm, ← Nat.two_pow_add_eq_or_of_lt hg,
    Nat.mod_eq_of_lt (by omega)]

theorem parseContinued_last (hvalue : value < 2 ^ 26) (hg : g < 64) (rest : List Nat) :
    parseContinued value ((g ||| 0) :: rest) = some (value * 64 + g, rest) := by
  have hbits := (continued_bits g hg 0 (by decide)).2
  have hcheck : ¬value > uint32Max >>> 6 := by
    rw [show uint32Max >>> 6 = 2 ^ 26 - 1 from rfl]
    omega
  simp only [parseContinued]
  rw [if_neg hcheck, if_neg (not_not_intro hbits.2.1), hbits.1, shiftLeft_or hvalue hg]

theorem parseContinued_continued (hvalue : value < 2 ^ 26) (hg : g < 64) (rest : List Nat) :
    parseContinued value ((g ||| 64 ||| 0) :: rest) = parseContinued (value * 64 + g) rest := by
  have hbits := (continued_bits g hg 0 (by decide)).1
  have hcheck : ¬value > uint32Max >>> 6 := by
    rw [show uint32Max >>> 6 = 2 ^ 26 - 1 from rfl]
    omega
  simp only [parseContinued]
  rw [if_neg hcheck, if_pos hbits.2.1, hbits.1, shiftLeft_or hvalue hg]

variable {gs : List Nat}

theorem parseContinued_groups (hne : gs ≠ []) (rest : List Nat) :
    ∀ value, (∀ g ∈ gs, g < 64) → (value + 1) * 64 ^ gs.length ≤ 2 ^ 32 →
      parseContinued value (encodeGroups 0 gs ++ rest) =
        some (groupsValue value gs, rest) := by
  induction gs with
  | nil => exact absurd rfl hne
  | cons g gs ih =>
    intro value hlt hbound
    have hg := hlt g mem_cons_self
    rw [length_cons, Nat.pow_succ] at hbound
    have hvalue : value < 2 ^ 26 := by
      have hone : 1 ≤ 64 ^ gs.length := Nat.one_le_pow _ _ (by decide)
      have hle : (value + 1) * (1 * 64) ≤ (value + 1) * (64 ^ gs.length * 64) :=
        Nat.mul_le_mul_left _ (Nat.mul_le_mul_right _ hone)
      omega
    cases gs with
    | nil => exact parseContinued_last hvalue hg rest
    | cons g' gs =>
      have hstep := parseContinued_continued hvalue hg (encodeGroups 0 (g' :: gs) ++ rest)
      apply hstep.trans
      apply ih (cons_ne_nil _ _) _ fun x hx => hlt x (mem_cons_of_mem _ hx)
      calc (value * 64 + g + 1) * 64 ^ (g' :: gs).length
          ≤ (value + 1) * 64 * 64 ^ (g' :: gs).length :=
            Nat.mul_le_mul_right _ (by omega)
        _ = (value + 1) * (64 ^ (g' :: gs).length * 64) := by
            rw [Nat.mul_assoc, Nat.mul_comm 64]
        _ ≤ 2 ^ 32 := hbound

theorem parseVarint_groups (hne : gs ≠ []) (hlt : ∀ g ∈ gs, g < 64) (hlength : gs.length ≤ 5)
    {msb : Nat} (hmsb : msb ∈ [0, 128]) (rest : List Nat) :
    parseVarint (encodeGroups msb gs ++ rest) = some (groupsValue 0 gs, rest) := by
  cases gs with
  | nil => exact absurd rfl hne
  | cons g gs =>
    have hg := hlt g mem_cons_self
    have hbits := continued_bits g hg msb hmsb
    cases gs with
    | nil =>
      simp only [encodeGroups, cons_append, nil_append, parseVarint]
      rw [if_neg (not_not_intro hbits.2.2.1), hbits.2.1]
      simp [groupsValue]
    | cons g' gs =>
      simp only [encodeGroups, cons_append, parseVarint]
      rw [if_pos hbits.1.2.1, hbits.1.1]
      have hpow : 64 ^ (g' :: gs).length ≤ 64 ^ 4 := by
        apply Nat.pow_le_pow_right (by decide)
        simp only [length_cons] at hlength ⊢
        omega
      rw [parseContinued_groups (cons_ne_nil _ _) rest g
        fun x hx => hlt x (mem_cons_of_mem _ hx)]
      · simp [groupsValue]
      · calc (g + 1) * 64 ^ (g' :: gs).length ≤ 64 * 64 ^ 4 := Nat.mul_le_mul hg hpow
          _ ≤ 2 ^ 32 := by decide

theorem encodeGroups_zero_lt (hlt : ∀ g ∈ gs, g < 64) :
    ∀ b ∈ encodeGroups 0 gs, b < 128 := by
  induction gs with
  | nil => simp [encodeGroups]
  | cons g gs ih =>
    have hbits := continued_bits g (hlt g mem_cons_self) 0 (by decide)
    cases gs with
    | nil =>
      simp only [encodeGroups, mem_singleton]
      rintro b rfl
      omega
    | cons g' gs =>
      simp only [encodeGroups, mem_cons]
      rintro b (rfl | hb)
      · omega
      · exact ih (fun x hx => hlt x (mem_cons_of_mem _ hx)) b hb

def MarksStart (bytes : List Nat) : Prop :=
  ∃ b bs, bytes = b :: bs ∧ 128 ≤ b ∧ b < 256 ∧ ∀ b' ∈ bs, b' < 128

theorem marksStart_encodeGroups (hne : gs ≠ []) (hlt : ∀ g ∈ gs, g < 64) :
    MarksStart (encodeGroups 128 gs) := by
  cases gs with
  | nil => exact absurd rfl hne
  | cons g gs =>
    have hbits := continued_bits g (hlt g mem_cons_self) 128 (by decide)
    cases gs with
    | nil => exact ⟨_, [], rfl, by omega, by omega, nofun⟩
    | cons g' gs =>
      exact ⟨_, _, rfl, by omega, by omega,
        encodeGroups_zero_lt fun x hx => hlt x (mem_cons_of_mem _ hx)⟩

def decoded (value : Nat) : Nat := if value = 2 ^ 24 then 0 else value

theorem decoded_eq_self_iff : decoded value = value ↔ value ≠ 2 ^ 24 := by
  unfold decoded
  split <;> omega

theorem emitItem_groups {msb : Nat} (hvalue : value < 2 ^ 30) (hmsb : msb ∈ [0, 128]) :
    ∃ gs, gs ≠ [] ∧ gs.length ≤ 5 ∧ (∀ g ∈ gs, g < 64) ∧
      emitItem value msb = some (encodeGroups msb gs) ∧ groupsValue 0 gs = decoded value := by
  have hassert : msb ||| 128 = 128 := by
    have hboth : ∀ m ∈ [0, 128], m ||| 128 = 128 := by decide
    exact hboth msb hmsb
  have hgroup : ∀ i, value >>> i &&& 63 = value / 2 ^ i % 64 := by
    intro i
    rw [Nat.shiftRight_eq_div_pow]
    exact Nat.and_two_pow_sub_one_eq_mod _ 6
  have hlast : value &&& 63 = value % 64 := Nat.and_two_pow_sub_one_eq_mod _ 6
  have hfirst : value >>> 24 = value / 2 ^ 24 := Nat.shiftRight_eq_div_pow value 24
  unfold emitItem
  rw [if_pos ⟨hassert, by simpa using hvalue⟩]
  simp only [foldl_cons, foldl_nil, emitGroup, continuedByte, hgroup, hlast, hfirst,
    Nat.one_shiftLeft]
  -- one case for each number of groups
  by_cases h₁ : value < 2 ^ 6
  · refine ⟨[value % 64], by simp, by simp, by simp; omega, ?_, ?_⟩
    · simp [encodeGroups, show ¬16777216 < value by omega, show ¬262144 ≤ value by omega,
        show ¬4096 ≤ value by omega, show ¬64 ≤ value by omega]
    · simp only [groupsValue, decoded, foldl_cons, foldl_nil]
      split <;> omega
  by_cases h₂ : value < 2 ^ 12
  · refine ⟨[value / 2 ^ 6 % 64, value % 64], by simp, by simp, by simp; omega, ?_, ?_⟩
    · simp [encodeGroups, show ¬16777216 < value by omega, show ¬262144 ≤ value by omega,
        show ¬4096 ≤ value by omega, show 64 ≤ value by omega]
    · simp only [groupsValue, decoded, foldl_cons, foldl_nil]
      split <;> omega
  by_cases h₃ : value < 2 ^ 18
  · refine ⟨[value / 2 ^ 12 % 64, value / 2 ^ 6 % 64, value % 64],
      by simp, by simp, by simp; omega, ?_, ?_⟩
    · simp [encodeGroups, show ¬16777216 < value by omega, show ¬262144 ≤ value by omega,
        show 4096 ≤ value by omega, show 64 ≤ value by omega]
    · simp only [groupsValue, decoded, foldl_cons, foldl_nil]
      split <;> omega
  -- here the groups miss what `2 ^ 24` itself is made of
  by_cases h₄ : value ≤ 2 ^ 24
  · refine ⟨[value / 2 ^ 18 % 64, value / 2 ^ 12 % 64, value / 2 ^ 6 % 64, value % 64],
      by simp, by simp, by simp; omega, ?_, ?_⟩
    · simp [encodeGroups, show ¬16777216 < value by omega, show 262144 ≤ value by omega,
        show 4096 ≤ value by omega, show 64 ≤ value by omega]
    · simp only [groupsValue, decoded, foldl_cons, foldl_nil]
      split <;> omega
  · refine ⟨[value / 2 ^ 24, value / 2 ^ 18 % 64, value / 2 ^ 12 % 64, value / 2 ^ 6 % 64,
      value % 64], by simp, by simp, by simp; omega, ?_, ?_⟩
    · simp [encodeGroups, show 16777216 < value by omega, show 262144 ≤ value by omega,
        show 4096 ≤ value by omega, show 64 ≤ value by omega]
    · simp only [groupsValue, decoded, foldl_cons, foldl_nil]
      split <;> omega

theorem emitItem_spec (msb : Nat) (hvalue : value < 2 ^ 30) (hmsb : msb ∈ [0, 128]) :
    ∃ bytes, emitItem value msb = some bytes ∧
      (∀ rest, parseVarint (bytes ++ rest) = some (decoded value, rest)) ∧
      (msb = 128 → MarksStart bytes) ∧ (msb = 0 → ∀ b ∈ bytes, b < 128) := by
  obtain ⟨gs, hne, hlength, hlt, hemit, hgroups⟩ := emitItem_groups hvalue hmsb
  refine ⟨encodeGroups msb gs, hemit, ?_, ?_, ?_⟩
  · intro rest
    rw [parseVarint_groups hne hlt hlength hmsb, hgroups]
  · rintro rfl
    exact marksStart_encodeGroups hne hlt
  · rintro rfl
    exact encodeGroups_zero_lt hlt

def TableEntry.raw (e : TableEntry) : RawEntry :=
  ⟨e.start, e.size, e.handler.offset, e.depthLasti⟩

def TableEntry.decodedRaw (e : TableEntry) : RawEntry :=
  ⟨decoded e.start, decoded e.size, decoded e.handler.offset, decoded e.depthLasti⟩

structure TableEntry.InRange (e : TableEntry) : Prop where
  start_lt_stop : e.start < e.stop
  depth_nonneg : 0 ≤ e.depth
  values_lt : ∀ v ∈ e.values, v < 2 ^ 30

variable {e : TableEntry}

theorem TableEntry.decodedRaw_eq_raw_iff :
    e.decodedRaw = e.raw ↔ 2 ^ 24 ∉ e.values := by
  simp only [decodedRaw, raw, RawEntry.mk.injEq, decoded_eq_self_iff, values, mem_cons,
    not_mem_nil, or_false, not_or]
  constructor
  · exact fun h => ⟨h.1.symm, h.2.1.symm, h.2.2.1.symm, h.2.2.2.symm⟩
  · exact fun h => ⟨Ne.symm h.1, Ne.symm h.2.1, Ne.symm h.2.2.1, Ne.symm h.2.2.2⟩

theorem decoded_lt (h : value < 2 ^ 30) : decoded value < 2 ^ 30 := by
  unfold decoded
  split <;> omega

theorem MarksStart.append {bytes more : List Nat} (h : MarksStart bytes)
    (hmore : ∀ b ∈ more, b < 128) : MarksStart (bytes ++ more) := by
  obtain ⟨b, bs, rfl, hle, hlt, hbs⟩ := h
  refine ⟨b, bs ++ more, rfl, hle, hlt, ?_⟩
  intro b' hb'
  cases mem_append.mp hb' with
  | inl h => exact hbs b' h
  | inr h => exact hmore b' h

theorem emitEntry_spec (h : e.InRange) :
    ∃ bytes, emitEntry e = some bytes ∧ MarksStart bytes ∧
      ∀ rest, parseEntry (bytes ++ rest) = some (e.decodedRaw, rest) := by
  have hstart := h.values_lt e.start (by simp [TableEntry.values])
  have hsize := h.values_lt e.size (by simp [TableEntry.values])
  have htarget := h.values_lt e.handler.offset (by simp [TableEntry.values])
  have hdepth := h.values_lt e.depthLasti (by simp [TableEntry.values])
  obtain ⟨bs₁, hemit₁, hparse₁, hmark, -⟩ := emitItem_spec 128 hstart (by decide)
  obtain ⟨bs₂, hemit₂, hparse₂, -, hlow₂⟩ := emitItem_spec 0 hsize (by decide)
  obtain ⟨bs₃, hemit₃, hparse₃, -, hlow₃⟩ := emitItem_spec 0 htarget (by decide)
  obtain ⟨bs₄, hemit₄, hparse₄, -, hlow₄⟩ := emitItem_spec 0 hdepth (by decide)
  refine ⟨bs₁ ++ bs₂ ++ bs₃ ++ bs₄, ?_, ?_, ?_⟩
  · unfold emitEntry
    rw [if_pos ⟨h.start_lt_stop, h.depth_nonneg⟩]
    rw [show 1 <<< 7 = 128 from rfl, hemit₁, hemit₂, hemit₃, hemit₄]
    rfl
  · exact (((hmark rfl).append (hlow₂ rfl)).append (hlow₃ rfl)).append (hlow₄ rfl)
  · intro rest
    have hstart := decoded_lt hstart
    have hsize := decoded_lt hsize
    have htarget := decoded_lt htarget
    unfold parseEntry
    simp only [append_assoc, hparse₁, hparse₂, hparse₃, hparse₄, Option.bind_eq_bind,
      Option.bind_some]
    rw [if_neg (by simp only [kMaxOffset, uint32Max]; omega)]
    rfl

theorem parseEntries_append {bytes rest : List Nat} {entry : RawEntry}
    (h : parseEntry (bytes ++ rest) = some (entry, rest)) (hne : bytes ≠ []) :
    parseEntries (bytes ++ rest) = (parseEntries rest).map (entry :: ·) := by
  rw [parseEntries, if_neg (by simp [hne])]
  split
  next hnone => simp [h] at hnone
  next entry' rest' hsome =>
    obtain ⟨rfl, rfl⟩ := Prod.mk.inj (Option.some.inj (h.symm.trans hsome))
    rfl

theorem emitEntries_spec (entries : List TableEntry) (h : ∀ e ∈ entries, e.InRange) :
    ∃ chunks, emitEntries entries = some chunks ∧ chunks.length = entries.length ∧
      (∀ chunk ∈ chunks, MarksStart chunk) ∧
      parseEntries chunks.flatten = some (entries.map TableEntry.decodedRaw) := by
  induction entries with
  | nil => exact ⟨[], rfl, rfl, nofun, by simp [parseEntries]⟩
  | cons e entries ih =>
    obtain ⟨bytes, hemit, hmark, hparse⟩ := emitEntry_spec (h e mem_cons_self)
    obtain ⟨chunks, hemits, hlength, hmarks, hparses⟩ :=
      ih fun e' he' => h e' (mem_cons_of_mem _ he')
    have hne : bytes ≠ [] := by
      obtain ⟨b, bs, rfl, -⟩ := hmark
      exact cons_ne_nil b bs
    refine ⟨bytes :: chunks, ?_, by simp [hlength], ?_, ?_⟩
    · simp only [emitEntries, mapM_cons, hemit] at hemits ⊢
      simp [hemits]
    · intro chunk hchunk
      cases mem_cons.mp hchunk with
      | inl heq => exact heq ▸ hmark
      | inr hmem => exact hmarks chunk hmem
    · rw [flatten_cons, parseEntries_append (hparse _) hne, hparses]
      rfl

/-- A table that is written, is marked at its entries' first bytes only, and is read back
as the entries it was written for, whose numbers the JIT turns into byte offsets. -/
structure RoundTrips (entries : List TableEntry) (chunks : List (List Nat)) : Prop where
  emitted : emitEntries entries = some chunks
  marked : ∀ chunk ∈ chunks, MarksStart chunk
  read : parseEntries chunks.flatten = some (entries.map TableEntry.raw)
  parsed : parseExceptionTable chunks.flatten = some (entries.map fun e =>
    ⟨e.start * 2, e.stop * 2, e.handler.offset * 2⟩)

theorem TableEntry.InRange.toEntry (h : e.InRange) :
    e.raw.toEntry = ⟨e.start * 2, e.stop * 2, e.handler.offset * 2⟩ := by
  have hstart := h.values_lt e.start (by simp [TableEntry.values])
  have hsize := h.values_lt e.size (by simp [TableEntry.values])
  have htarget := h.values_lt e.handler.offset (by simp [TableEntry.values])
  have hlt := h.start_lt_stop
  simp only [TableEntry.size] at hsize
  simp only [RawEntry.toEntry, TableEntry.raw, TableEntry.size,
    ExceptionTableEntry.mk.injEq]
  omega

theorem RoundTrips.decodedRaw_eq_raw {entries : List TableEntry} {chunks : List (List Nat)}
    (h : RoundTrips entries chunks) (hrange : ∀ e ∈ entries, e.InRange) :
    ∀ e ∈ entries, e.decodedRaw = e.raw := by
  obtain ⟨chunks', hemit, -, -, hparse⟩ := emitEntries_spec entries hrange
  obtain rfl := Option.some.inj (hemit.symm.trans h.emitted)
  exact map_inj_left.mp (Option.some.inj (hparse.symm.trans h.read))

/-- Exactly the tables without a number `2 ^ 24` are read back. -/
theorem exception_table_roundTrips_iff (entries : List TableEntry)
    (h : ∀ e ∈ entries, e.InRange) :
    (∃ chunks, RoundTrips entries chunks) ↔ ∀ e ∈ entries, 2 ^ 24 ∉ e.values := by
  constructor
  · rintro ⟨chunks, htrips⟩ e he
    exact TableEntry.decodedRaw_eq_raw_iff.mp (htrips.decodedRaw_eq_raw h e he)
  · intro hvalues
    obtain ⟨chunks, hemit, -, hmarks, hparse⟩ := emitEntries_spec entries h
    have hread : parseEntries chunks.flatten = some (entries.map TableEntry.raw) := by
      rw [hparse]
      congr 1
      exact map_congr_left fun e he =>
        TableEntry.decodedRaw_eq_raw_iff.mpr (hvalues e he)
    refine ⟨chunks, hemit, hmarks, hread, ?_⟩
    unfold parseExceptionTable
    rw [hread, Option.map_some, List.map_map]
    congr 1
    exact map_congr_left fun e he => (h e he).toEntry

/-- Two entries with numbers on both sides of a boundary. -/
theorem exception_table_roundTrips_iff_boundaries :
    let entries : List TableEntry :=
      [⟨63, 127, ⟨4096, 1, false⟩⟩, ⟨2 ^ 18, 2 ^ 18 + 4095, ⟨2 ^ 24 + 1, 2, true⟩⟩]
    (∀ e ∈ entries, e.InRange) ∧ ∃ chunks, RoundTrips entries chunks := by
  intro entries
  have hrange : ∀ e ∈ entries, e.InRange := by
    intro e he
    simp only [entries, mem_cons, not_mem_nil, or_false] at he
    rcases he with rfl | rfl
    · exact ⟨by decide, by decide, by decide⟩
    · exact ⟨by decide, by decide, by decide⟩
  exact ⟨hrange, (exception_table_roundTrips_iff entries hrange).mpr (by decide)⟩

/-- A handler at offset `2 ^ 24` is read back as one at offset `0`. -/
theorem exception_table_loses_boundary :
    ¬∀ entries : List TableEntry, (∀ e ∈ entries, e.InRange) →
      ∃ chunks, RoundTrips entries chunks := by
  intro h
  have hrange : ∀ e ∈ [(⟨0, 1, ⟨2 ^ 24, 1, false⟩⟩ : TableEntry)], e.InRange := by
    intro e he
    obtain rfl := mem_singleton.mp he
    exact ⟨by decide, by decide, by decide⟩
  obtain ⟨chunks, htrips⟩ := h _ hrange
  exact absurd (htrips.decodedRaw_eq_raw hrange _ (mem_singleton_self _)) (by decide)

end CinderX.Compiler
