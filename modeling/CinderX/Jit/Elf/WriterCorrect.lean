import CinderX.Foundation.Layout
import CinderX.Jit.Elf.NotesCorrect

/-!
# Where the writer puts the sections

The offsets and paddings that `initObject` computes are those of the layout of the
sections, as long as the file stays below 4 GiB.
-/

namespace CinderX.Jit.Elf

open Foundation Layout List

theorem length_flatMap_const {α : Type} {f : α → List UInt8} {k : Nat} (l : List α)
    (h : ∀ a, (f a).length = k) : (l.flatMap f).length = k * l.length := by
  induction l with
  | nil => rfl
  | cons a l ih =>
    rw [flatMap_cons, length_append, ih, h, length_cons, Nat.mul_succ,
      Nat.add_comm]

@[simp]
theorem width_fileHeader (h : FileHeader) : h.fields.width = 64 := by
  simp [Fields.width, FileHeader.fields]

@[simp]
theorem width_sectionHeader (h : SectionHeader) : h.fields.width = 64 := by
  simp [Fields.width, SectionHeader.fields]

@[simp]
theorem width_segmentHeader (h : SegmentHeader) : h.fields.width = 56 := by
  simp [Fields.width, SegmentHeader.fields]

theorem length_symbolBytes (symbols : List Symbol) :
    (symbolBytes symbols).length = 24 * symbols.length :=
  length_flatMap_const symbols fun s => Fields.length_bytes s.fields

theorem length_dynBytes (dyns : List Dyn) : (dynBytes dyns).length = 16 * dyns.length :=
  length_flatMap_const dyns fun d => Fields.length_bytes d.fields

theorem length_headerBytes (elf : Object) : (headerBytes elf).length = headersSize := by
  have hsections : ∀ idx, (elf.sectionHeaders idx).fields.bytes.length = 64 := by simp
  have hsegments : ∀ idx, (elf.segmentHeaders idx).fields.bytes.length = 56 := by simp
  rw [headerBytes, length_append, length_append, Fields.length_bytes,
    width_fileHeader, length_flatMap_const _ hsections, length_flatMap_const _ hsegments]
  rfl

theorem length_writeHash (table : HashTable) : (writeHash table).length = table.sizeBytes := by
  simp only [writeHash, length_append, length_leBytes,
    length_flatMap_const _ (length_leBytes 4), HashTable.sizeBytes]

namespace HashTable

structure Ascending (table : HashTable) (i : Nat) : Prop where
  buckets : ∀ j, table.buckets.getD j 0 < i
  chains : ∀ j, table.chains.getD j 0 ≠ 0 →
    j < table.chains.getD j 0 ∧ table.chains.getD j 0 < i

variable {table : HashTable} {i : Nat} {syms : List Symbol}

theorem chaseChainIdx_of_ascending (h : table.Ascending i) :
    ∀ {left idx : Nat}, idx < i → i - idx ≤ left →
      ∃ last, chaseChainIdx table.chains left idx = some last ∧ last < i := by
  intro left
  induction left with
  | zero => intro idx hidx hleft; omega
  | succ left ih =>
    intro idx hidx hleft
    rw [chaseChainIdx]
    by_cases hnext : table.chains.getD idx 0 ≠ 0
    · obtain ⟨hup, hlt⟩ := h.chains idx hnext
      rw [if_pos hnext]
      exact ih hlt (by omega)
    · rw [if_neg hnext]
      exact ⟨idx, rfl, hidx⟩

theorem getD_set {l : List Nat} {k j v : Nat} :
    (l.set k v).getD j 0 = v ∧ j = k ∨ (l.set k v).getD j 0 = l.getD j 0 := by
  by_cases hj : j = k
  · subst hj
    by_cases hlt : j < l.length
    · exact Or.inl ⟨by simp [hlt], rfl⟩
    · exact Or.inr (by simp [Nat.not_lt.mp hlt])
  · exact Or.inr (by simp [getD_eq_getElem?_getD, getElem?_set_ne (Ne.symm hj)])

theorem insert_spec (h : table.Ascending i) (hlen : i ≤ table.chains.length) (bucketIdx : Nat) :
    ∃ table', table.insert bucketIdx i = some table' ∧ table'.Ascending (i + 1) ∧
      table'.buckets.length = table.buckets.length ∧
      table'.chains.length = table.chains.length := by
  have hchains : ∀ j, table.chains.getD j 0 ≠ 0 →
      j < table.chains.getD j 0 ∧ table.chains.getD j 0 < i + 1 := fun j hj =>
    ⟨(h.chains j hj).1, Nat.lt_succ_of_lt (h.chains j hj).2⟩
  have hbuckets : ∀ j, table.buckets.getD j 0 < i + 1 := fun j => Nat.lt_succ_of_lt (h.buckets j)
  unfold insert
  by_cases hfirst : table.buckets.getD bucketIdx 0 = 0
  · refine ⟨_, if_pos hfirst, ⟨fun j => ?_, hchains⟩, length_set, rfl⟩
    rcases @getD_set table.buckets bucketIdx j i with ⟨hnew, -⟩ | hold
    · rw [hnew]
      exact Nat.lt_succ_self i
    · rw [hold]
      exact hbuckets j
  · obtain ⟨last, hlast, hlt⟩ := chaseChainIdx_of_ascending h
      (h.buckets bucketIdx) (Nat.le_trans (Nat.sub_le _ _) hlen)
    refine ⟨{ table with chains := table.chains.set last i }, ?_, ⟨hbuckets, fun j hj => ?_⟩, rfl,
      length_set⟩
    · simp only [if_neg hfirst, hlast, Option.bind_eq_bind, Option.bind_some]
    · rcases @getD_set table.chains last j i with ⟨hnew, rfl⟩ | hold
      · rw [hnew]
        exact ⟨hlt, Nat.lt_succ_self i⟩
      · rw [hold] at hj ⊢
        exact hchains j hj

theorem insertAll_spec (b : Build) (strings : List UInt8) :
    ∀ {table : HashTable} {i : Nat}, table.Ascending i →
      i + syms.length ≤ table.chains.length →
      ∃ table', insertAll b strings table i syms = some table' ∧
        table'.buckets.length = table.buckets.length ∧
        table'.chains.length = table.chains.length := by
  induction syms with
  | nil => exact fun _ _ => ⟨_, rfl, rfl, rfl⟩
  | cons sym syms ih =>
    intro table i h hlen
    rw [length_cons] at hlen
    obtain ⟨table₁, hinsert, h₁, hbuckets₁, hchains₁⟩ := insert_spec h (by omega)
      ((hash b (cString (strings.drop sym.nameOffset))).toNat % table.buckets.length)
    obtain ⟨table₂, hrest, hbuckets₂, hchains₂⟩ := ih h₁ (by omega)
    refine ⟨table₂, ?_, hbuckets₂.trans hbuckets₁, hchains₂.trans hchains₁⟩
    simp only [insertAll, hinsert, Option.bind_eq_bind, Option.bind_some, hrest]

theorem build_spec (b : Build) (hne : syms ≠ []) (strings : List UInt8) :
    ∃ table, build b syms strings = some table ∧
      table.sizeBytes = 4 * 2 + 4 * (syms.length / 2) + 4 * syms.length := by
  have hpos := length_pos_iff.mpr hne
  have hzero : ∀ n j : Nat, (replicate n 0).getD j 0 = 0 := by
    intro n j
    by_cases hj : j < n <;> simp [getD_eq_getElem?_getD, hj]
  have hstart : Ascending ⟨replicate (syms.length / 2) 0, replicate syms.length 0⟩ 1 :=
    ⟨fun j => by rw [hzero]; exact Nat.one_pos, fun j hj => absurd (hzero _ j) hj⟩
  have hlen : 1 + (syms.drop 1).length ≤ (replicate syms.length 0).length := by
    rw [length_drop, length_replicate]
    omega
  obtain ⟨table, hbuild, hbuckets, hchains⟩ := insertAll_spec b strings hstart hlen
  refine ⟨table, hbuild, ?_⟩
  rw [sizeBytes, hbuckets, hchains, length_replicate, length_replicate]

end HashTable

end CinderX.Jit.Elf
