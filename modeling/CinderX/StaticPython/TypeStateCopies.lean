import CinderX.StaticPython.ClassTypes
import CinderX.StaticPython.PythonAst

/-!
# Copies of a type state

`TypeState.copy` copies the dictionary of the refined fields, but not the dictionaries that
are its values.  Copies are independent as long as no such dictionary is written to while
two of them have it.
-/

namespace CinderX.StaticPython.Copies

open List Function

variable {C : Type}

structure RefinedField (C : Type) where
  type : Value C
  idx : Nat
  nodes : Finset Nat

abbrev Fields (C : Type) := Identifier → Option (RefinedField C)

/-- `refined_fields` has the addresses of its values. -/
structure TypeState (C : Type) where
  localTypes : Identifier → Option (Value C)
  refinedFields : List (Identifier × Nat)

structure Memory (C : Type) where
  states : Nat → TypeState C
  stateCount : Nat
  dicts : Nat → Fields C
  dictCount : Nat

namespace Memory

def setState (m : Memory C) (s : Nat) (state : TypeState C) : Memory C :=
  { m with states := Function.update m.states s state }

def setDict (m : Memory C) (dict : Nat) (attr : Identifier) (entry : Option (RefinedField C)) :
    Memory C :=
  { m with dicts := Function.update m.dicts dict (Function.update (m.dicts dict) attr entry) }

def setLocal (m : Memory C) (s : Nat) (x : Identifier) (type : Option (Value C)) : Memory C :=
  m.setState s { m.states s with localTypes := Function.update (m.states s).localTypes x type }

def setField (m : Memory C) (s : Nat) (base attr : Identifier) (entry : RefinedField C) :
    Memory C :=
  match (m.states s).refinedFields.lookup base with
  | some dict => m.setDict dict attr (some entry)
  | none =>
    { m.setState s { m.states s with
        refinedFields := (m.states s).refinedFields ++ [(base, m.dictCount)] } with
      dicts := Function.update m.dicts m.dictCount
        (Function.update (fun _ => none) attr (some entry))
      dictCount := m.dictCount + 1 }

def delField (m : Memory C) (s : Nat) (base attr : Identifier) : Memory C :=
  match (m.states s).refinedFields.lookup base with
  | some dict => m.setDict dict attr none
  | none => m

def clear (m : Memory C) (s : Nat) : Memory C :=
  m.setState s { m.states s with refinedFields := [] }

/-- `TypeState.copy`, as the state `stateCount`. -/
def copy (m : Memory C) (s : Nat) : Memory C :=
  { m.setState m.stateCount (m.states s) with stateCount := m.stateCount + 1 }

variable [DecidableEq C] (table : ClassTable C)

def flatten : Value C → List (Klass C)
  | .inst klass => [klass]
  | .union typeArgs => typeArgs

def join (value value' : Value C) : Value C :=
  getUnion table (flatten (value.inexactType table) ++ flatten (value'.inexactType table))

def mergeLocal : Option (Value C) → Option (Value C) → Option (Value C)
  | some value, some entry => some (if value ≠ entry then join table value entry else value)
  | _, _ => none

def mergeField : Option (RefinedField C) → Option (RefinedField C) → Option (RefinedField C)
  | some field, some entry =>
    some ⟨join table entry.type field.type, field.idx, entry.nodes ∪ field.nodes⟩
  | _, _ => none

/-- One round of the loop over `refined_fields`, which has the keys of `entry` only. -/
def mergeDict (entry : List (Identifier × Nat)) (dicts : Nat → Fields C)
    (item : Identifier × Nat) : Nat → Fields C :=
  match entry.lookup item.1 with
  | some dict => Function.update dicts item.2 fun attr =>
    mergeField table (dicts item.2 attr) (dicts dict attr)
  | none => dicts

def keptFields (m : Memory C) (s entry : Nat) : List (Identifier × Nat) :=
  (m.states s).refinedFields.filter fun item =>
    ((m.states entry).refinedFields.lookup item.1).isSome

def merge (m : Memory C) (s entry : Nat) : Memory C :=
  { m.setState s
      ⟨fun x => mergeLocal table ((m.states s).localTypes x) ((m.states entry).localTypes x),
        m.keptFields s entry⟩ with
    dicts := (m.keptFields s entry).foldl
      (mergeDict table (m.states entry).refinedFields) m.dicts }

end Memory

/-- Operations on type states by their numbers, the live one and copies alike. -/
inductive Op (C : Type)
  | setLocal (s : Nat) (x : Identifier) (type : Option (Value C))
  | setField (s : Nat) (base attr : Identifier) (entry : RefinedField C)
  | delField (s : Nat) (base attr : Identifier)
  | clear (s : Nat)
  | merge (s entry : Nat)
  | copy (s : Nat)

def Op.target : Op C → Option Nat
  | .setLocal s _ _ | .setField s _ _ _ | .delField s _ _ | .clear s | .merge s _ => some s
  | .copy _ => none

namespace Memory

def refined (m : Memory C) (s : Nat) (base : Identifier) : Option (Fields C) :=
  ((m.states s).refinedFields.lookup base).map m.dicts

def Sole (m : Memory C) (s : Nat) (base : Identifier) : Prop :=
  ∀ dict, (m.states s).refinedFields.lookup base = some dict →
    ∀ s' base', (m.states s').refinedFields.lookup base' = some dict → s' = s ∧ base' = base

def Unshared (m : Memory C) : Op C → Prop
  | .setField s base _ _ | .delField s base _ => m.Sole s base
  | .merge s entry => s ≠ entry ∧ ∀ base,
      ((m.states entry).refinedFields.lookup base).isSome → m.Sole s base
  | _ => True

structure WellFormed (m : Memory C) : Prop where
  nodup : ∀ s, ((m.states s).refinedFields.map (·.1)).Nodup
  allocated : ∀ s base dict, (m.states s).refinedFields.lookup base = some dict →
    dict < m.dictCount

variable [DecidableEq C] (table : ClassTable C)

def step (m : Memory C) : Op C → Memory C
  | .setLocal s x type => m.setLocal s x type
  | .setField s base attr entry => m.setField s base attr entry
  | .delField s base attr => m.delField s base attr
  | .clear s => m.clear s
  | .merge s entry => m.merge table s entry
  | .copy s => m.copy s

def run (m : Memory C) (ops : List (Op C)) : Memory C := ops.foldl (step table) m

def UnsharedRun : Memory C → List (Op C) → Prop
  | _, [] => True
  | m, op :: ops => m.Unshared op ∧ UnsharedRun (m.step table op) ops

variable {table}

/-! ## What a step leaves alone -/

variable {base : Identifier}

theorem lookup_eq_some_iff {items : List (Identifier × Nat)} (h : (items.map (·.1)).Nodup)
    {dict : Nat} : items.lookup base = some dict ↔ (base, dict) ∈ items := by
  rw [List.lookup_eq_some_iff]
  constructor
  · rintro ⟨pre, post, rfl, -⟩
    simp
  · intro hmem
    obtain ⟨pre, post, rfl⟩ := append_of_mem hmem
    rw [map_append, map_cons, nodup_append] at h
    refine ⟨pre, post, rfl, fun item hitem => ?_⟩
    exact bne_iff_ne.mpr (h.2.2 _ (List.mem_map_of_mem hitem) _ mem_cons_self).symm

omit [DecidableEq C] in
theorem WellFormed.nodup_keptFields {m : Memory C} (h : m.WellFormed) (s entry : Nat) :
    ((m.keptFields s entry).map (·.1)).Nodup :=
  (h.nodup s).sublist (filter_sublist.map _)

omit [DecidableEq C] in
theorem WellFormed.lookup_keptFields {m : Memory C} (h : m.WellFormed) {s entry dict : Nat}
    {base : Identifier} : (m.keptFields s entry).lookup base = some dict ↔
      ((m.states entry).refinedFields.lookup base).isSome ∧
        (m.states s).refinedFields.lookup base = some dict := by
  rw [lookup_eq_some_iff (h.nodup_keptFields s entry), lookup_eq_some_iff (h.nodup s), keptFields,
    mem_filter, and_comm]

variable {entry items : List (Identifier × Nat)}

theorem foldl_mergeDict_of_notMem {dict : Nat} (h : ∀ item ∈ items, item.2 ≠ dict)
    (dicts : Nat → Fields C) : items.foldl (mergeDict table entry) dicts dict = dicts dict := by
  induction items generalizing dicts with
  | nil => rfl
  | cons item items ih =>
    obtain ⟨hitem, hitems⟩ := forall_mem_cons.mp h
    rw [foldl_cons, ih hitems]
    cases hlookup : entry.lookup item.1 with
    | none => simp [mergeDict, hlookup]
    | some other => simp [mergeDict, hlookup, update_of_ne hitem.symm]

theorem foldl_mergeDict {dict other : Nat} (hnodup : (items.map (·.2)).Nodup)
    (hmem : (base, dict) ∈ items) (hother : entry.lookup base = some other)
    (hentry : ∀ item ∈ items, item.2 ≠ other) (dicts : Nat → Fields C) :
    items.foldl (mergeDict table entry) dicts dict =
      fun attr => mergeField table (dicts dict attr) (dicts other attr) := by
  induction items generalizing dicts with
  | nil => cases hmem
  | cons item items ih =>
    obtain ⟨hitem, hitems⟩ := forall_mem_cons.mp hentry
    rw [map_cons, nodup_cons] at hnodup
    rw [foldl_cons]
    rcases mem_cons.mp hmem with rfl | hmem
    · have hnew : ∀ item ∈ items, item.2 ≠ dict := fun item hitem heq =>
        hnodup.1 (List.mem_map.mpr ⟨item, hitem, heq⟩)
      rw [foldl_mergeDict_of_notMem hnew]
      simp [mergeDict, hother]
    · have hne : dict ≠ item.2 := fun heq => hnodup.1 (List.mem_map.mpr ⟨_, hmem, heq⟩)
      rw [ih hnodup.2 hmem hitems]
      cases hlookup : entry.lookup item.1 with
      | none => simp [mergeDict, hlookup]
      | some =>
        simp [mergeDict, hlookup, update_of_ne hne, update_of_ne hitem.symm]

variable {m : Memory C}

theorem WellFormed.step (h : m.WellFormed) (op : Op C) : (m.step table op).WellFormed := by
  have hset : ∀ s {state : TypeState C} {dictCount}, m.dictCount ≤ dictCount →
      (state.refinedFields.map (·.1)).Nodup →
      (∀ base dict, state.refinedFields.lookup base = some dict → dict < dictCount) →
      ∀ dicts, WellFormed { m.setState s state with dicts := dicts, dictCount := dictCount } := by
    intro s state dictCount hle hnodup hdicts dicts
    constructor
    · intro t
      by_cases ht : t = s
      · simpa [setState, ht] using hnodup
      · simpa [setState, ht] using h.nodup t
    · intro t base dict hdict
      by_cases ht : t = s
      · exact hdicts base dict (by simpa [setState, ht] using hdict)
      · exact Nat.lt_of_lt_of_le (h.allocated t base dict (by simpa [setState, ht] using hdict)) hle
  cases op with
  | setLocal s x type =>
    exact @hset s ⟨Function.update (m.states s).localTypes x type, (m.states s).refinedFields⟩ _
      (Nat.le_refl _) (h.nodup s) (h.allocated s) m.dicts
  | setField s base attr entry =>
    simp only [Memory.step, setField]
    cases hdict : (m.states s).refinedFields.lookup base with
    | some dict => exact ⟨h.nodup, h.allocated⟩
    | none =>
      refine hset s (Nat.le_succ _) ?_ (fun base' dict hdict' => ?_) _
      · have hnew : base ∉ (m.states s).refinedFields.map (·.1) := by
          intro hmem
          obtain ⟨item, hitem, rfl⟩ := List.mem_map.mp hmem
          cases hdict.symm.trans ((lookup_eq_some_iff (h.nodup s)).mpr hitem)
        simpa [nodup_append] using ⟨h.nodup s, fun a b hmem heq =>
          hnew (heq ▸ List.mem_map_of_mem hmem)⟩
      · rw [lookup_append] at hdict'
        rcases Option.or_eq_some_iff.mp hdict' with hdict' | ⟨-, hdict'⟩
        · exact Nat.lt_succ_of_lt (h.allocated s _ _ hdict')
        · rw [lookup_cons] at hdict'
          split at hdict'
          · exact Option.some.inj hdict' ▸ Nat.lt_succ_self _
          · cases hdict'
  | delField s base attr =>
    simp only [Memory.step, delField]
    split
    · exact ⟨h.nodup, h.allocated⟩
    · exact h
  | clear s =>
    exact @hset s ⟨_, []⟩ _ (Nat.le_refl _) nodup_nil (fun _ _ hdict => by cases hdict)
      m.dicts
  | merge s entry =>
    exact hset s (Nat.le_refl _) (h.nodup_keptFields s entry)
      (fun base dict hdict => h.allocated s base dict (h.lookup_keptFields.mp hdict).2) _
  | copy s =>
    have hcopy := hset m.stateCount (Nat.le_refl _) (h.nodup s) (h.allocated s) m.dicts
    exact ⟨hcopy.nodup, hcopy.allocated⟩

omit [DecidableEq C] in
theorem refined_congr {m m' : Memory C} {t : Nat} (hstates : m'.states t = m.states t)
    (hdicts : m'.dicts = m.dicts) (base : Identifier) : m'.refined t base = m.refined t base := by
  rw [refined, refined, hstates, hdicts]

omit [DecidableEq C] in
theorem refined_update {m m' : Memory C} {t dict : Nat} {fields : Fields C}
    (hstates : m'.states t = m.states t) (hdicts : m'.dicts = Function.update m.dicts dict fields)
    (h : ∀ base, (m.states t).refinedFields.lookup base ≠ some dict) (base : Identifier) :
    m'.refined t base = m.refined t base := by
  unfold refined
  rw [hstates, hdicts]
  cases hlookup : (m.states t).refinedFields.lookup base with
  | none => rfl
  | some dict' =>
    have hne : dict' ≠ dict := fun heq => h base (heq ▸ hlookup)
    simp [update_of_ne hne]

theorem WellFormed.frame (h : m.WellFormed) {op : Op C} (hop : m.Unshared op) {t : Nat}
    (ht : op.target ≠ some t) (hcount : t < m.stateCount) :
    (m.step table op).states t = m.states t ∧
      ∀ base, (m.step table op).refined t base = m.refined t base := by
  have hother : ∀ {s base dict}, some s ≠ some t → m.Sole s base →
      (m.states s).refinedFields.lookup base = some dict →
        ∀ base', (m.states t).refinedFields.lookup base' ≠ some dict := by
    intro s base dict hs hsole hdict base' hbase'
    exact hs (congrArg some (hsole dict hdict t base' hbase').1.symm)
  have hset : ∀ {s state}, some s ≠ some t → (m.setState s state).states t = m.states t :=
    fun hs => update_of_ne (fun heq => hs (congrArg some heq.symm)) ..
  cases op with
  | setLocal s x type => exact ⟨hset ht, refined_congr (hset ht) rfl⟩
  | setField s base attr entry =>
    simp only [Memory.step, setField]
    cases hdict : (m.states s).refinedFields.lookup base with
    | some dict => exact ⟨rfl, refined_update rfl rfl (hother ht hop hdict)⟩
    | none =>
      refine ⟨hset ht, refined_update (hset ht) rfl fun base' hbase' => ?_⟩
      exact Nat.lt_irrefl _ (h.allocated t base' _ hbase')
  | delField s base attr =>
    simp only [Memory.step, delField]
    cases hdict : (m.states s).refinedFields.lookup base with
    | some dict => exact ⟨rfl, refined_update rfl rfl (hother ht hop hdict)⟩
    | none => exact ⟨rfl, fun _ => rfl⟩
  | clear s => exact ⟨hset ht, refined_congr (hset ht) rfl⟩
  | merge s entry =>
    refine ⟨hset ht, fun base => ?_⟩
    have hstate : (m.merge table s entry).states t = m.states t := hset ht
    rw [refined, refined, Memory.step, hstate]
    cases hdict : (m.states t).refinedFields.lookup base with
    | none => rfl
    | some dict =>
      refine congrArg some (foldl_mergeDict_of_notMem (fun item hitem heq => ?_) _)
      obtain ⟨hmem, hkept⟩ := mem_filter.mp hitem
      exact hother ht (hop.2 item.1 hkept)
        ((lookup_eq_some_iff (h.nodup s)).mpr (heq ▸ hmem)) base hdict
  | copy s =>
    have hne : t ≠ m.stateCount := Nat.ne_of_lt hcount
    have hstate : (m.copy s).states t = m.states t := update_of_ne hne ..
    exact ⟨hstate, refined_congr hstate rfl⟩

theorem has_inexactType {value : Value C} {c : C} (h : value.has table c) :
    (value.inexactType table).has table c := by
  have hklass : ∀ klass : Klass C, klass.has table c → (klass.inexactType table).has table c := by
    intro klass hc
    cases klass with
    | dynamic => exact hc
    | nominal name isExact =>
      cases isExact with
      | false => exact hc
      | true =>
        have hname : c = name := hc
        cases hexact : table.alwaysExact name with
        | true => simpa [Klass.inexactType, hexact, Klass.has] using hname
        | false => simpa [Klass.inexactType, hexact, Klass.has, hname] using table.mro_self name
  cases value with
  | inst klass => exact hklass klass h
  | union typeArgs =>
    obtain ⟨arg, harg, hc⟩ := h
    exact Value.has_getUnion ⟨_, List.mem_map_of_mem harg, hklass arg hc⟩

omit [DecidableEq C] in
theorem exists_flatten {value : Value C} {c : C} (h : value.has table c) :
    ∃ arg ∈ flatten value, arg.has table c := by
  cases value with
  | inst klass => exact ⟨klass, mem_singleton_self klass, h⟩
  | union typeArgs => exact h

theorem has_join {value value' : Value C} {c : C} (h : value.has table c ∨ value'.has table c) :
    (join table value value').has table c := by
  refine Value.has_getUnion ?_
  rcases h with h | h
  · obtain ⟨arg, harg, hc⟩ := exists_flatten (has_inexactType h)
    exact ⟨arg, mem_append_left _ harg, hc⟩
  · obtain ⟨arg, harg, hc⟩ := exists_flatten (has_inexactType h)
    exact ⟨arg, mem_append_right _ harg, hc⟩

variable (table) in
/-- What is there on both sides has a type with the objects of both; all else is dropped. -/
def Joins {α : Type} (type : α → Value C) (value entry merged : Option α) : Prop :=
  (merged.isSome ↔ value.isSome ∧ entry.isSome) ∧
    ∀ v ∈ value, ∀ e ∈ entry, ∀ u ∈ merged, ∀ c,
      (type v).has table c ∨ (type e).has table c → (type u).has table c

def field (m : Memory C) (s : Nat) (base attr : Identifier) : Option (RefinedField C) :=
  (m.refined s base).bind (· attr)

theorem mergeLocal_joins (value entry : Option (Value C)) :
    Joins table id value entry (mergeLocal table value entry) := by
  refine ⟨?_, ?_⟩
  · cases value <;> cases entry <;> simp [mergeLocal]
  · rintro v rfl e rfl u hu c hc
    cases hu
    split
    · exact has_join hc
    · next heq =>
        rw [not_not.mp heq] at hc ⊢
        exact hc.elim id id

theorem mergeField_joins (value entry : Option (RefinedField C)) :
    Joins table RefinedField.type value entry (mergeField table value entry) := by
  refine ⟨?_, ?_⟩
  · cases value <;> cases entry <;> simp [mergeField]
  · rintro v rfl e rfl u hu c hc
    cases hu
    exact has_join hc.symm

structure Merged (table : ClassTable C) (m m' : Memory C) (s entry : Nat) : Prop where
  states : m'.states entry = m.states entry
  refined : ∀ base, m'.refined entry base = m.refined entry base
  localTypes : ∀ x, Joins table id ((m.states s).localTypes x) ((m.states entry).localTypes x)
    ((m'.states s).localTypes x)
  fields : ∀ base attr, Joins table RefinedField.type (m.field s base attr)
    (m.field entry base attr) (m'.field s base attr)

theorem WellFormed.foldl_keptFields (h : m.WellFormed) {s entry dict other : Nat}
    (hop : m.Unshared (.merge s entry))
    (hother : (m.states entry).refinedFields.lookup base = some other)
    (hdict : (m.states s).refinedFields.lookup base = some dict) :
    (m.keptFields s entry).foldl (mergeDict table (m.states entry).refinedFields) m.dicts dict =
      fun attr => mergeField table (m.dicts dict attr) (m.dicts other attr) := by
  have hsole : ∀ item ∈ m.keptFields s entry, ∀ s' base',
      (m.states s').refinedFields.lookup base' = some item.2 → s' = s ∧ base' = item.1 := by
    intro item hitem
    obtain ⟨hmem, hkept⟩ := mem_filter.mp hitem
    exact hop.2 item.1 hkept item.2 ((lookup_eq_some_iff (h.nodup s)).mpr hmem)
  have hmem : (base, dict) ∈ m.keptFields s entry :=
    (lookup_eq_some_iff (h.nodup_keptFields s entry)).mp
    (h.lookup_keptFields.mpr ⟨by simp [hother], hdict⟩)
  refine foldl_mergeDict ?_ hmem hother (fun item hitem heq => ?_) m.dicts
  · have hnodup : (m.keptFields s entry).Nodup := (h.nodup s).of_map.filter _
    refine hnodup.map_on fun item hitem item' hitem' heq => ?_
    have hlookup := (lookup_eq_some_iff (h.nodup s)).mpr (mem_of_mem_filter hitem')
    exact Prod.ext (hsole item hitem s item'.1 (heq ▸ hlookup)).2.symm heq
  · exact hop.1 (hsole item hitem entry base (heq ▸ hother)).1.symm

theorem WellFormed.merged (h : m.WellFormed) {s entry : Nat} (hop : m.Unshared (.merge s entry))
    (hentry : entry < m.stateCount) : Merged table m (m.step table (.merge s entry)) s entry := by
  obtain ⟨hstates, hrefined⟩ := @WellFormed.frame _ _ table _ h _ hop _
    (fun heq => hop.1 (Option.some.inj heq)) hentry
  have hself : (m.merge table s entry).states s =
      ⟨fun x => mergeLocal table ((m.states s).localTypes x) ((m.states entry).localTypes x),
        m.keptFields s entry⟩ := update_self ..
  refine ⟨hstates, hrefined, fun x => ?_, fun base attr => ?_⟩
  · rw [Memory.step, hself]
    exact mergeLocal_joins _ _
  · have hfield : (m.merge table s entry).field s base attr =
        mergeField table (m.field s base attr) (m.field entry base attr) := by
      have hnone : ∀ value, mergeField table value none = none := by
        intro value
        cases value <;> rfl
      simp only [field, Memory.refined, hself]
      cases hkept : (m.keptFields s entry).lookup base with
      | some dict =>
        obtain ⟨hother, hdict⟩ := h.lookup_keptFields.mp hkept
        obtain ⟨other, hother⟩ := Option.isSome_iff_exists.mp hother
        rw [hother, hdict]
        exact congrFun (h.foldl_keptFields hop hother hdict) attr
      | none =>
        cases hother : (m.states entry).refinedFields.lookup base with
        | none => exact (hnone _).symm
        | some other =>
          cases hdict : (m.states s).refinedFields.lookup base with
          | none => rfl
          | some dict =>
            have hsome : (m.keptFields s entry).lookup base = some dict :=
              h.lookup_keptFields.mpr ⟨by simp [hother], hdict⟩
            rw [hkept] at hsome
            cases hsome
    rw [Memory.step, hfield]
    exact mergeField_joins _ _

theorem stateCount_le_step (m : Memory C) (op : Op C) :
    m.stateCount ≤ (m.step table op).stateCount := by
  cases op with
  | copy s => exact Nat.le_succ _
  | setField s base attr entry =>
    simp only [step, setField]
    split <;> exact Nat.le_refl _
  | delField s base attr =>
    simp only [step, delField]
    split <;> exact Nat.le_refl _
  | _ => exact Nat.le_refl _

theorem WellFormed.run (h : m.WellFormed) {ops : List (Op C)} (hops : m.UnsharedRun table ops)
    {t : Nat} (ht : ∀ op ∈ ops, op.target ≠ some t) (hcount : t < m.stateCount) :
    t < (m.run table ops).stateCount ∧ (m.run table ops).states t = m.states t ∧
      ∀ base, (m.run table ops).refined t base = m.refined t base := by
  induction ops generalizing m with
  | nil => exact ⟨hcount, rfl, fun _ => rfl⟩
  | cons op ops ih =>
    obtain ⟨hop, hops⟩ := hops
    obtain ⟨htarget, htargets⟩ := forall_mem_cons.mp ht
    obtain ⟨hstate, hrefined⟩ := @WellFormed.frame _ _ table _ h _ hop _ htarget hcount
    obtain ⟨hcount', hstates', hrefined'⟩ := ih (h.step op) hops htargets
      (Nat.lt_of_lt_of_le hcount (m.stateCount_le_step op))
    exact ⟨hcount', hstates'.trans hstate, fun base => (hrefined' base).trans (hrefined base)⟩

theorem WellFormed.run_append (h : m.WellFormed) {pre post : List (Op C)} {op : Op C}
    (hops : m.UnsharedRun table (pre ++ op :: post)) :
    (m.run table pre).WellFormed ∧ (m.run table pre).Unshared op := by
  induction pre generalizing m with
  | nil => exact ⟨h, hops.1⟩
  | cons op pre ih => exact ih (h.step op) hops.2

omit [DecidableEq C] in
theorem copied (m : Memory C) (s : Nat) :
    (m.copy s).states m.stateCount = m.states s ∧
      ∀ base, (m.copy s).refined m.stateCount base = m.refined s base := by
  have hstate : (m.copy s).states m.stateCount = m.states s := update_self ..
  exact ⟨hstate, fun base => by rw [refined, refined, hstate]; rfl⟩

variable (table) in
/-- `restore` after a run of the other states; its result is the state `stateCount`. -/
def afterRestore (m : Memory C) (s : Nat) (ops : List (Op C)) : Memory C :=
  ((m.copy s).run table ops).copy m.stateCount

/-- As long as no dictionary that is written to is shared, `restore` gives back what the branch
has copied, and merges join both sides and leave the other one alone. -/
theorem localsBranch_independent {m : Memory C} (h : m.WellFormed) {s : Nat} {ops : List (Op C)}
    (hops : (m.copy s).UnsharedRun table ops)
    (htarget : ∀ op ∈ ops, op.target ≠ some m.stateCount) :
    (∀ x, ((m.afterRestore table s ops).states
        ((m.copy s).run table ops).stateCount).localTypes x = (m.states s).localTypes x) ∧
      (∀ base, (m.afterRestore table s ops).refined
        ((m.copy s).run table ops).stateCount base = m.refined s base) ∧
      ∀ pre live entry post, ops = pre ++ .merge live entry :: post →
        entry < ((m.copy s).run table pre).stateCount →
        Merged table ((m.copy s).run table pre)
          (((m.copy s).run table pre).step table (.merge live entry)) live entry := by
  have hcopy : (m.copy s).WellFormed := @WellFormed.step _ _ table _ h (.copy s)
  obtain ⟨hstate, hrefined⟩ := m.copied s
  obtain ⟨-, hstates, hrefineds⟩ := hcopy.run hops htarget (Nat.lt_succ_self m.stateCount)
  have hafter : (m.afterRestore table s ops).states ((m.copy s).run table ops).stateCount =
      ((m.copy s).run table ops).states m.stateCount := update_self ..
  refine ⟨fun x => ?_, fun base => ?_, ?_⟩
  · rw [hafter, hstates, hstate]
  · rw [← hrefined, ← hrefineds, refined, refined, hafter]
    rfl
  · rintro pre live entry post rfl hentry
    obtain ⟨hreached, hop⟩ := hcopy.run_append hops
    exact hreached.merged hop hentry

def unitTable : ClassTable Unit :=
  ⟨fun _ => [()], fun _ => true, (), (), by simp, by simp, by simp, by simp, rfl⟩

def someField : RefinedField Unit := ⟨.inst .dynamic, 0, ∅⟩

def refinedSelf : Memory Unit where
  states s := ⟨fun _ => none, if s = 0 then [("self", 0)] else []⟩
  stateCount := 1
  dicts _ attr := if attr = "x" then some someField else none
  dictCount := 1

theorem refinedSelf_wellFormed : refinedSelf.WellFormed := by
  refine ⟨fun s => ?_, fun s base dict hdict => ?_⟩
  · by_cases hs : s = 0 <;> simp [refinedSelf, hs]
  · by_cases hs : s = 0
    · rw [lookup_eq_some_iff (by simp [refinedSelf, hs])] at hdict
      simp_all [refinedSelf]
    · simp [refinedSelf, hs] at hdict

/-- The refined fields are cleared before one is refined again. -/
def clearAndRefine : List (Op Unit) := [.clear 0, .setField 0 "self" "y" someField]

theorem localsBranch_independent_cleared :
    (refinedSelf.afterRestore unitTable 0 (clearAndRefine ++ [.merge 0 1])).refined 2 "self" =
        refinedSelf.refined 0 "self" ∧
      Merged unitTable ((refinedSelf.copy 0).run unitTable clearAndRefine)
        (((refinedSelf.copy 0).run unitTable clearAndRefine).step unitTable (.merge 0 1)) 0 1 := by
  have hops : (refinedSelf.copy 0).UnsharedRun unitTable (clearAndRefine ++ [.merge 0 1]) := by
    refine ⟨trivial, fun dict hdict => ?_, ⟨by decide, fun base _ dict hdict s' base' hdict' => ?_⟩,
      trivial⟩
    · simp [step, clear, setState] at hdict
    -- after the clearing the live state has a dictionary of its own
    · have hlookup : ∀ {n : Nat} {base dict}, [("self", n)].lookup base = some dict →
          base = "self" ∧ dict = n := by
        intro n base dict h
        by_cases hbase : base = "self" <;> simp_all [List.lookup_cons, beq_false_of_ne]
      have hlive := hlookup (n := 1) hdict
      by_cases hzero : s' = 0
      · subst hzero
        exact ⟨rfl, (hlookup (n := 1) hdict').1.trans hlive.1.symm⟩
      · by_cases hone : s' = 1
        · subst hone
          have hcopied := hlookup (n := 0) hdict'
          omega
        · simp [step, clear, setField, setState, copy, refinedSelf, hzero, hone] at hdict'
  have h := localsBranch_independent refinedSelf_wellFormed hops
    (by simp [clearAndRefine, Op.target, refinedSelf])
  exact ⟨h.2.1 "self", h.2.2 clearAndRefine 0 1 [] rfl (by decide)⟩

theorem restore_keeps_refinement :
    (refinedSelf.field 0 "self" "y").isSome = false ∧
      ((refinedSelf.afterRestore unitTable 0 [.setField 0 "self" "y" someField]).field 2 "self"
        "y").isSome = true :=
  ⟨by decide, by decide⟩

end Memory

end CinderX.StaticPython.Copies
