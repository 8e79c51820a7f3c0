import CinderX.Jit.GlobalCache

/-!
# What the operations of the manager do

Each operation on a cache is described by what it does to the value and to the watches of
that cache.  For every other cache the manager is the `Same` as before.
-/

namespace CinderX.Jit.GlobalCaches

open Foundation List Subscriptions

variable {Dict Name Value : Type} [DecidableEq Dict] [DecidableEq Name]

namespace GlobalCacheManager

def read (m : GlobalCacheManager Dict Name Value) (cache : GlobalCache Dict Name) :
    Option (Option Value) :=
  (m.map.lookup cache).bind fun slot => m.arena[slot]?

def Watching (m : GlobalCacheManager Dict Name Value) (cache : GlobalCache Dict Name)
    (dict : Dict) (key : Name) : Prop :=
  cache ∈ m.watchMap.subscribers dict key

structure WellFormed (m : GlobalCacheManager Dict Name Value) : Prop where
  tidy : m.watchMap.Tidy
  bound : ∀ cache slot, m.map.lookup cache = some slot → slot < m.arena.length
  separate : ∀ cache cache' slot, m.map.lookup cache = some slot →
    m.map.lookup cache' = some slot → cache = cache'
  freed : ∀ slot value, m.arena[slot]? = some value →
    (∀ cache, m.map.lookup cache ≠ some slot) → value = none

/-- Nothing that concerns `cache` differs between the two managers. -/
structure Same (m m' : GlobalCacheManager Dict Name Value) (cache : GlobalCache Dict Name) :
    Prop where
  mem : cache ∈ m'.map ↔ cache ∈ m.map
  read : m'.read cache = m.read cache
  watching : ∀ dict key, m'.Watching cache dict key ↔ m.Watching cache dict key

theorem Same.refl (m : GlobalCacheManager Dict Name Value) (cache : GlobalCache Dict Name) :
    Same m m cache :=
  ⟨Iff.rfl, rfl, fun _ _ => Iff.rfl⟩

theorem Same.trans {m m' m'' : GlobalCacheManager Dict Name Value}
    {cache : GlobalCache Dict Name} (h : Same m m' cache) (h' : Same m' m'' cache) :
    Same m m'' cache :=
  ⟨h'.mem.trans h.mem, h'.read.trans h.read,
    fun dict key => (h'.watching dict key).trans (h.watching dict key)⟩

variable {m m' : GlobalCacheManager Dict Name Value} {cache : GlobalCache Dict Name}

theorem read_congr (hmap : m'.map = m.map) (harena : m'.arena = m.arena) :
    m'.read cache = m.read cache := by
  rw [read, read, hmap, harena]

theorem Same.of_value (hmap : m'.map = m.map) (hwatch : m'.watchMap = m.watchMap)
    (hread : m'.read cache = m.read cache) : Same m m' cache :=
  ⟨by rw [hmap], hread, fun dict key => by rw [Watching, Watching, hwatch]⟩

theorem Same.of_watches (hmap : m'.map = m.map) (harena : m'.arena = m.arena)
    (hwatch : ∀ dict key, m'.Watching cache dict key ↔ m.Watching cache dict key) :
    Same m m' cache :=
  ⟨by rw [hmap], read_congr hmap harena, hwatch⟩

theorem WellFormed.initial :
    ({} : GlobalCacheManager Dict Name Value).WellFormed where
  tidy := Subscriptions.Tidy.empty
  bound := by intro cache slot h; cases h
  separate := by intro cache cache' slot h; cases h
  freed := by intro slot value h; cases h

theorem isWatchedDictKey_iff (dict : Dict) (key : Name) :
    m.isWatchedDictKey dict key cache = true ↔ m.Watching cache dict key := by
  unfold isWatchedDictKey Watching subscribers ofKeys
  cases hd : m.watchMap.lookup dict with
  | none => simp
  | some dictKeys =>
    cases hk : dictKeys.lookup key with
    | none => simp [hk]
    | some keyWatchers => simp [hk]

/-! ## Values -/

theorem lookup_of_mem (h : cache ∈ m.map) : ∃ slot, m.map.lookup cache = some slot :=
  Option.isSome_iff_exists.mp (AList.lookup_isSome.mpr h)

theorem setValue_spec (hm : m.WellFormed) (hcache : cache ∈ m.map) (value : Option Value) :
    ∃ m', m.setValue cache value = some m' ∧ m'.WellFormed ∧ m'.map = m.map ∧
      m'.watchMap = m.watchMap ∧ m'.read cache = some value ∧
      ∀ other, other ≠ cache → m'.read other = m.read other := by
  obtain ⟨slot, hslot⟩ := lookup_of_mem hcache
  have hbound := hm.bound cache slot hslot
  refine ⟨{ m with arena := m.arena.set slot value }, by rw [setValue, hslot], ?_, rfl, rfl, ?_, ?_⟩
  · constructor
    · exact hm.tidy
    · intro other slot' h
      rw [length_set]
      exact hm.bound other slot' h
    · exact hm.separate
    · intro slot' value' hvalue hfree
      have hne : slot ≠ slot' := fun heq => hfree cache (heq ▸ hslot)
      rw [getElem?_set_ne hne] at hvalue
      exact hm.freed slot' value' hvalue hfree
  · simp [read, hslot, hbound]
  · intro other hother
    unfold read
    cases hlookup : m.map.lookup other with
    | none => rfl
    | some slot' =>
      have hne : slot ≠ slot' := fun heq =>
        hother (hm.separate other cache slot' hlookup (heq ▸ hslot))
      simp [getElem?_set_ne hne]

theorem disableCache_spec (hm : m.WellFormed) (hcache : cache ∈ m.map) :
    ∃ m', m.disableCache cache = some m' ∧ m'.WellFormed ∧ m'.watchMap = m.watchMap ∧
      cache ∉ m'.map ∧ ∀ other, other ≠ cache → Same m m' other := by
  obtain ⟨m₁, hset, hm₁, hmap, hwatch, hread, hother⟩ := setValue_spec hm hcache none
  refine ⟨{ m₁ with map := m₁.map.erase cache }, by rw [disableCache, hset], ?_, hwatch, ?_, ?_⟩
  · have hkept : ∀ other slot, (m₁.map.erase cache).lookup other = some slot →
        m₁.map.lookup other = some slot := by
      intro other slot h
      by_cases heq : other = cache
      · subst heq
        rw [AList.lookup_erase] at h
        cases h
      · rwa [AList.lookup_erase_ne heq] at h
    constructor
    · exact hm₁.tidy
    · intro other slot h
      exact hm₁.bound other slot (hkept other slot h)
    · intro other other' slot h h'
      exact hm₁.separate other other' slot (hkept other slot h) (hkept other' slot h')
    · intro slot value hvalue hfree
      by_cases hslot : m₁.map.lookup cache = some slot
      · rw [read, hslot, Option.bind_some] at hread
        exact Option.some.inj (hvalue.symm.trans hread)
      · refine hm₁.freed slot value hvalue fun other h => ?_
        by_cases heq : other = cache
        · exact hslot (heq ▸ h)
        · exact hfree other (by rw [AList.lookup_erase_ne heq]; exact h)
  · simp [AList.mem_erase]
  · intro other hne
    constructor
    · rw [AList.mem_erase, hmap]
      simp [hne]
    · rw [← hother other hne]
      simp [read, AList.lookup_erase_ne hne]
    · intro dict key
      simp [Watching, hwatch]

def allocate (m : GlobalCacheManager Dict Name Value) (cache : GlobalCache Dict Name) :
    GlobalCacheManager Dict Name Value :=
  { m with arena := m.arena ++ [none], map := m.map.insert cache m.arena.length }

theorem allocate_spec (hm : m.WellFormed) (hnew : cache ∉ m.map) :
    (m.allocate cache).WellFormed ∧ cache ∈ (m.allocate cache).map ∧
      (m.allocate cache).read cache = some none ∧
      ∀ other, other ≠ cache → Same m (m.allocate cache) other := by
  have hlookup : ∀ other, other ≠ cache →
      (m.allocate cache).map.lookup other = m.map.lookup other :=
    fun other hne => AList.lookup_insert_ne hne
  have hself : (m.allocate cache).map.lookup cache = some m.arena.length :=
    AList.lookup_insert m.map
  have hcases : ∀ other slot, (m.allocate cache).map.lookup other = some slot →
      other = cache ∧ slot = m.arena.length ∨
        other ≠ cache ∧ m.map.lookup other = some slot := by
    intro other slot h
    by_cases heq : other = cache
    · subst heq
      rw [hself] at h
      exact Or.inl ⟨rfl, (Option.some.inj h).symm⟩
    · exact Or.inr ⟨heq, hlookup other heq ▸ h⟩
  refine ⟨⟨hm.tidy, ?_, ?_, ?_⟩, ?_, ?_, ?_⟩
  · intro other slot h
    simp only [allocate, length_append, length_singleton]
    rcases hcases other slot h with ⟨-, rfl⟩ | ⟨-, h⟩
    · omega
    · have := hm.bound other slot h
      omega
  · intro other other' slot h h'
    rcases hcases other slot h with ⟨rfl, rfl⟩ | ⟨-, hold⟩ <;>
      rcases hcases other' _ h' with ⟨rfl, hslot⟩ | ⟨-, hold'⟩
    · rfl
    · exact absurd (hm.bound other' _ hold') (Nat.lt_irrefl _)
    · exact absurd (hslot ▸ hm.bound other slot hold) (Nat.lt_irrefl _)
    · exact hm.separate other other' slot hold hold'
  · intro slot value hvalue hfree
    have hne : slot ≠ m.arena.length := fun heq => hfree cache (heq ▸ hself)
    have hlt : slot < m.arena.length := by
      have hbound := (List.getElem?_eq_some_iff.mp hvalue).1
      simp only [allocate, length_append, length_singleton] at hbound
      omega
    simp only [allocate, getElem?_append_left hlt] at hvalue
    refine hm.freed slot value hvalue fun other h => ?_
    by_cases heq : other = cache
    · exact hnew (heq ▸ AList.lookup_isSome.mp (Option.isSome_iff_exists.mpr ⟨slot, h⟩))
    · exact hfree other (by rw [hlookup other heq, h])
  · exact (AList.mem_insert m.map).mpr (Or.inl rfl)
  · rw [read, hself, Option.bind_some]
    simp [allocate]
  · intro other hne
    refine ⟨?_, ?_, fun _ _ => Iff.rfl⟩
    · simp [allocate, AList.mem_insert, hne]
    · unfold read
      rw [hlookup other hne]
      cases h : m.map.lookup other with
      | none => rfl
      | some slot =>
        simp [allocate, getElem?_append_left (hm.bound other slot h)]

theorem WellFormed.withWatchMap (hm : m.WellFormed)
    {watchMap : Subscriptions Dict Name (GlobalCache Dict Name)} (h : watchMap.Tidy) :
    ({ m with watchMap := watchMap } : GlobalCacheManager Dict Name Value).WellFormed :=
  ⟨h, hm.bound, hm.separate, hm.freed⟩

variable {dict : Dict} {key : Name}

theorem watchDictKey_spec (hm : m.WellFormed) (hnew : ¬ m.Watching cache dict key) :
    ∃ m', m.watchDictKey dict key cache = some m' ∧ m'.WellFormed ∧ m'.map = m.map ∧
      m'.arena = m.arena ∧ ∀ other dict' key', m'.Watching other dict' key' ↔
        m.Watching other dict' key' ∨ other = cache ∧ dict' = dict ∧ key' = key := by
  let dictKeys := (m.watchMap.lookup dict).getD ∅
  let watchers := m.watchMap.subscribers dict key
  refine ⟨{ m with
    watchMap := m.watchMap.insert dict (dictKeys.insert key (cache :: watchers)) },
    if_neg hnew, ?_, rfl, rfl, ?_⟩
  · refine hm.withWatchMap (hm.tidy.insert ?_ ((hm.tidy.getD dict).insert (by simp) ?_))
    · simp [AList.entries_insert]
    · exact nodup_cons.mpr ⟨hnew, hm.tidy.nodup_subscribers dict key⟩
  · intro other dict' key'
    unfold Watching
    by_cases hd : dict' = dict
    · subst hd
      rw [subscribers_insert_self]
      by_cases hk : key' = key
      · subst hk
        rw [ofKeys_insert_self, mem_cons]
        simp [watchers, or_comm]
      · rw [ofKeys_insert_ne _ hk]
        simp [hk, dictKeys, subscribers]
    · rw [subscribers_insert_ne _ hd]
      simp [hd]

theorem unwatchDictKey_spec (hm : m.WellFormed) (hold : m.Watching cache dict key) :
    ∃ m', m.unwatchDictKey dict key cache = some m' ∧ m'.WellFormed ∧ m'.map = m.map ∧
      m'.arena = m.arena ∧ ∀ other dict' key', m'.Watching other dict' key' ↔
        m.Watching other dict' key' ∧ ¬ (other = cache ∧ dict' = dict ∧ key' = key) := by
  obtain ⟨dictKeys, hd, hkeys⟩ := mem_subscribers_iff.mp hold
  obtain ⟨keyWatchers, hk, hcache⟩ := mem_ofKeys_iff.mp hkeys
  obtain ⟨-, hdictKeys⟩ := hm.tidy dict dictKeys hd
  have hnodup := (hdictKeys key keyWatchers hk).2
  have hwatchers : ofKeys dictKeys key = keyWatchers := by
    rw [ofKeys, hk, Option.getD_some]
  -- The three ways of putting the shorter set back agree on who watches what.
  have hmem : ∀ (watchMap : Subscriptions Dict Name (GlobalCache Dict Name)),
      (∀ dict', dict' ≠ dict → ∀ key', watchMap.subscribers dict' key' =
        m.watchMap.subscribers dict' key') →
      (∀ key', key' ≠ key → watchMap.subscribers dict key' =
        m.watchMap.subscribers dict key') →
      watchMap.subscribers dict key = keyWatchers.erase cache →
      ∀ other dict' key', other ∈ watchMap.subscribers dict' key' ↔
        other ∈ m.watchMap.subscribers dict' key' ∧
          ¬ (other = cache ∧ dict' = dict ∧ key' = key) := by
    intro watchMap hdicts hnames herase other dict' key'
    by_cases hdict : dict' = dict
    · subst hdict
      by_cases hkey : key' = key
      · subst hkey
        rw [herase, subscribers_of_lookup hd, hwatchers, hnodup.mem_erase_iff]
        simp [and_comm]
      · simp [hnames key' hkey, hkey]
    · simp [hdicts dict' hdict key', hdict]
  have hother : ∀ key', m.watchMap.subscribers dict key' = ofKeys dictKeys key' :=
    subscribers_of_lookup hd
  simp only [unwatchDictKey, hd, hk, if_pos hcache, List.isEmpty_iff]
  by_cases hempty : keyWatchers.erase cache = []
  · by_cases hnone : (dictKeys.erase key).entries = []
    · rw [if_pos hempty, if_pos hnone]
      refine ⟨_, rfl, hm.withWatchMap (hm.tidy.erase dict), rfl, rfl, hmem _ ?_ ?_ ?_⟩
      · intro dict' hne key'
        exact subscribers_erase_ne _ hne key'
      · intro key' hne
        rw [subscribers_erase_self, hother, ← ofKeys_erase_ne _ hne, ofKeys_of_entries_eq_nil hnone]
      · rw [subscribers_erase_self, hempty]
    · rw [if_pos hempty, if_neg hnone]
      refine ⟨_, rfl, hm.withWatchMap (hm.tidy.insert hnone (hdictKeys.erase key)), rfl, rfl,
        hmem _ ?_ ?_ ?_⟩
      · intro dict' hne key'
        exact subscribers_insert_ne _ hne _ key'
      · intro key' hne
        rw [subscribers_insert_self, hother, ofKeys_erase_ne _ hne]
      · rw [subscribers_insert_self, ofKeys_erase_self, hempty]
  · rw [if_neg hempty]
    refine ⟨_, rfl, hm.withWatchMap (hm.tidy.insert ?_
      (hdictKeys.insert hempty (hnodup.erase cache))), rfl, rfl, hmem _ ?_ ?_ ?_⟩
    · simp [AList.entries_insert]
    · intro dict' hne key'
      exact subscribers_insert_ne _ hne _ key'
    · intro key' hne
      rw [subscribers_insert_self, hother, ofKeys_insert_ne _ hne]
    · rw [subscribers_insert_self, ofKeys_insert_self]

end GlobalCacheManager

end CinderX.Jit.GlobalCaches

/-!
## What a cache needs to follow

The purpose of the caches, apart from the manager's tables: a cache is in one of three
modes, and the mode alone says which dictionaries it follows and which value it shows.
-/

namespace CinderX.Jit.GlobalCaches

open Foundation GlobalCacheManager

variable {Dict Name Value : Type} [DecidableEq Dict] [DecidableEq Name]

/-- `shadowed`: the name has always been a global.  `both`: it has been missing from the
globals, so the builtins count too.  `blind`: it was missing when the cache was made, and
the builtins could not be watched. -/
inductive Mode
  | shadowed
  | both
  | blind
  deriving DecidableEq

abbrev Tracking (Dict Name : Type) := GlobalCacheKey Dict Name → Option Mode

def Mode.Follows (mode : Mode) (cache : GlobalCache Dict Name) (dict : Dict) : Prop :=
  dict = cache.globals ∨ mode = .both ∧ dict = cache.builtins

instance (mode : Mode) (cache : GlobalCache Dict Name) (dict : Dict) :
    Decidable (mode.Follows cache dict) :=
  inferInstanceAs (Decidable (_ ∨ _ ∧ _))

section Values

variable (imports : LazyImports Value) (dicts : Dict → PyDict Name Value)

def globalValue (cache : GlobalCache Dict Name) : Option Value :=
  (imports.getItem (dicts cache.globals) cache.name).or
    (imports.getItem (dicts cache.builtins) cache.name)

def Mode.value (mode : Mode) (cache : GlobalCache Dict Name) : Option Value :=
  if mode = .blind then none else globalValue imports dicts cache

def Mode.start (cache : GlobalCache Dict Name) : Mode :=
  if (imports.getItem (dicts cache.globals) cache.name).isSome then .shadowed
  else if (dicts cache.builtins).hasOnlyUnicodeKeys then .both
  else .blind

/-- The mode after a change of the name in a dictionary that the cache follows; none when
the cache has to go. -/
def Mode.revise (cache : GlobalCache Dict Name) (dict : Dict) (newValue : Option Value)
    (mode : Mode) : Option Mode :=
  if newValue.any imports.checkExact then none
  else if dict = cache.globals then
    if newValue.isNone then
      if cache.globals = cache.builtins ∨ (dicts cache.builtins).hasOnlyUnicodeKeys then some .both
      else none
    else some (if mode = .both then .both else .shadowed)
  else some mode

def Tracking.step (t : Tracking Dict Name) : Event Dict Name Value → Tracking Dict Name
  | .find builtins globals name =>
    if (t ⟨builtins, globals, name⟩).isSome then t
    else Function.update t ⟨builtins, globals, name⟩
      (some (Mode.start imports dicts ⟨builtins, globals, name⟩))
  | .update dict key value _ => fun cache => (t cache).bind fun mode =>
    if cache.name = key ∧ mode.Follows cache dict then
      mode.revise imports dicts cache dict value
    else some mode
  | .clear dict _ => fun cache => (t cache).bind fun mode =>
    if mode.Follows cache dict then mode.revise imports dicts cache dict none else some mode
  | .unwatch dict _ _ => fun cache => (t cache).bind fun mode =>
    if mode.Follows cache dict then none else some mode

structure Mode.Holds (mode : Mode) (cache : GlobalCache Dict Name) : Prop where
  globals : (dicts cache.globals).hasOnlyUnicodeKeys = true
  shadowed : mode = .shadowed →
    (imports.getItem (dicts cache.globals) cache.name).isSome = true
  both : mode = .both → (dicts cache.builtins).hasOnlyUnicodeKeys = true
  blind : mode = .blind → cache.globals ≠ cache.builtins ∧
    imports.getItem (dicts cache.globals) cache.name = none

def Tracks (m : GlobalCacheManager Dict Name Value) (cache : GlobalCache Dict Name) :
    Option Mode → Prop
  | none => cache ∉ m.map ∧ ∀ dict key, ¬ m.Watching cache dict key
  | some mode => cache ∈ m.map ∧ m.read cache = some (mode.value imports dicts cache) ∧
      (∀ dict key, m.Watching cache dict key ↔ key = cache.name ∧ mode.Follows cache dict) ∧
      mode.Holds imports dicts cache

end Values

variable {imports : LazyImports Value} {dicts dicts' : Dict → PyDict Name Value}
  {m m' : GlobalCacheManager Dict Name Value} {cache : GlobalCache Dict Name} {mode : Option Mode}

theorem Tracks.of_same (h : Tracks imports dicts m cache mode)
    (hsame : Same m m' cache) : Tracks imports dicts m' cache mode := by
  cases mode with
  | none => exact ⟨fun hmem => h.1 (hsame.mem.mp hmem), fun dict key hw =>
    h.2 dict key ((hsame.watching dict key).mp hw)⟩
  | some mode =>
    obtain ⟨hmem, hread, hwatch, hholds⟩ := h
    exact ⟨hsame.mem.mpr hmem, hsame.read.trans hread,
      fun dict key => (hsame.watching dict key).trans (hwatch dict key), hholds⟩

structure Kept (dicts dicts' : Dict → PyDict Name Value) (dict : Dict) (key : Name) : Prop where
  item : (dicts' dict).items key = (dicts dict).items key
  unicode : (dicts dict).hasOnlyUnicodeKeys = true → (dicts' dict).hasOnlyUnicodeKeys = true

omit [DecidableEq Dict] [DecidableEq Name] in
theorem Kept.getItem {dict : Dict} {key : Name} (h : Kept dicts dicts' dict key) :
    imports.getItem (dicts' dict) key = imports.getItem (dicts dict) key := by
  rw [LazyImports.getItem, LazyImports.getItem, h.item]

omit [DecidableEq Dict] [DecidableEq Name] in
theorem Mode.value_kept {mode : Mode} (hholds : mode.Holds imports dicts cache)
    (h : ∀ dict, mode.Follows cache dict → Kept dicts dicts' dict cache.name) :
    mode.value imports dicts' cache = mode.value imports dicts cache ∧
      mode.Holds imports dicts' cache := by
  have hglobals := h cache.globals (Or.inl rfl)
  have hitem : imports.getItem (dicts' cache.globals) cache.name =
      imports.getItem (dicts cache.globals) cache.name := hglobals.getItem
  constructor
  · unfold Mode.value globalValue
    rw [hitem]
    cases mode with
    | shadowed =>
      obtain ⟨v, hv⟩ := Option.isSome_iff_exists.mp (hholds.shadowed rfl)
      simp [hv]
    | both => rw [(h cache.builtins (Or.inr ⟨rfl, rfl⟩)).getItem]
    | blind => simp
  · constructor
    · exact hglobals.unicode hholds.globals
    · rw [hitem]
      exact hholds.shadowed
    · intro hmode
      exact (h cache.builtins (Or.inr ⟨hmode, rfl⟩)).unicode (hholds.both hmode)
    · rw [hitem]
      exact hholds.blind

theorem Tracks.kept (htracks : Tracks imports dicts m cache mode)
    (h : ∀ mode', mode = some mode' → ∀ dict, mode'.Follows cache dict →
      Kept dicts dicts' dict cache.name) : Tracks imports dicts' m cache mode := by
  cases mode with
  | none => exact htracks
  | some mode =>
    obtain ⟨hmem, hread, hwatch, hholds⟩ := htracks
    obtain ⟨hvalue, hholds'⟩ := Mode.value_kept hholds (h mode rfl)
    exact ⟨hmem, by rw [hread, hvalue], hwatch, hholds'⟩

end CinderX.Jit.GlobalCaches
