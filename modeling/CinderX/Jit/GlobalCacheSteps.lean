import CinderX.Jit.GlobalCacheOperations

/-!
# One cache at a time

What the manager does to a cache when it is made, told of a change or disabled, and the
loops over the watchers.
-/

namespace CinderX.Jit.GlobalCaches

open Foundation GlobalCacheManager List

variable {Dict Name Value : Type} [DecidableEq Dict] [DecidableEq Name]
  {imports : LazyImports Value} {dicts dicts' : Dict → PyDict Name Value}
  {m : GlobalCacheManager Dict Name Value} {cache : GlobalCache Dict Name}

/-- In `dicts'` the name has `value` in `dict`, and all else is as it was. -/
structure Replaced (dicts dicts' : Dict → PyDict Name Value) (dict : Dict) (key : Name)
    (value : Option Value) : Prop where
  item : (dicts' dict).items key = value
  unicode : (dicts dict).hasOnlyUnicodeKeys = true → (dicts' dict).hasOnlyUnicodeKeys = true
  others : ∀ other, other ≠ dict → dicts' other = dicts other

variable {dict : Dict} {value : Option Value} {key : Name} {v : Value} {t : Tracking Dict Name}

omit [DecidableEq Dict] [DecidableEq Name] in
theorem Replaced.getItem (h : Replaced dicts dicts' dict key value)
    (hlazy : value.any imports.checkExact = false) :
    imports.getItem (dicts' dict) key = value := by
  rw [LazyImports.getItem, h.item]
  cases value with
  | none => rfl
  | some v => exact imports.load_value v (by simpa using hlazy)

omit [DecidableEq Dict] [DecidableEq Name] in
theorem Replaced.unicode_of {other : Dict} (h : Replaced dicts dicts' dict key value)
    (hunicode : (dicts other).hasOnlyUnicodeKeys = true) :
    (dicts' other).hasOnlyUnicodeKeys = true := by
  by_cases hother : other = dict
  · subst hother
    exact h.unicode hunicode
  · rw [h.others other hother]
    exact hunicode

variable {mode : Mode}

theorem setValue_tracks (hm : m.WellFormed) (hmem : cache ∈ m.map)
    (hwatch : ∀ dict key, m.Watching cache dict key ↔ key = cache.name ∧ mode.Follows cache dict)
    (hholds : mode.Holds imports dicts cache) (hvalue : value = mode.value imports dicts cache) :
    ∃ m', m.setValue cache value = some m' ∧ m'.WellFormed ∧
      (∀ other, other ≠ cache → Same m m' other) ∧
      Tracks imports dicts m' cache (some mode) := by
  obtain ⟨m', hset, hm', hmap, hwatchMap, hread, hothers⟩ := setValue_spec hm hmem value
  refine ⟨m', hset, hm', fun other hne => .of_value hmap hwatchMap (hothers other hne), ?_⟩
  refine ⟨hmap ▸ hmem, by rw [hread, hvalue], fun dict key => ?_, hholds⟩
  rw [← hwatch dict key, Watching, Watching, hwatchMap]

theorem watchDictKey_tracks (hm : m.WellFormed) (hmode : mode ≠ .both)
    (hne : cache.globals ≠ cache.builtins) (hmem : cache ∈ m.map)
    (hwatch : ∀ dict key, m.Watching cache dict key ↔ key = cache.name ∧ mode.Follows cache dict)
    (hread : m.read cache = some (Mode.both.value imports dicts cache))
    (hholds : Mode.both.Holds imports dicts cache) :
    ∃ m', m.watchDictKey cache.builtins cache.name cache = some m' ∧ m'.WellFormed ∧
      (∀ other, other ≠ cache → Same m m' other) ∧
      Tracks imports dicts m' cache (some .both) := by
  have hnew : ¬ m.Watching cache cache.builtins cache.name := by
    rw [hwatch]
    rintro ⟨-, hglobals | ⟨hboth, -⟩⟩
    · exact hne hglobals.symm
    · exact hmode hboth
  obtain ⟨m', hw, hm', hmap, harena, hwatching⟩ := watchDictKey_spec hm hnew
  refine ⟨m', hw, hm', fun other hother => .of_watches hmap harena fun dict key => ?_, ?_⟩
  · rw [hwatching]
    simp [hother]
  · refine ⟨hmap ▸ hmem, by rw [read_congr hmap harena, hread], fun dict key => ?_, hholds⟩
    rw [hwatching, hwatch]
    simp only [Mode.Follows, hmode, false_and, or_false, true_and]
    constructor
    · rintro (⟨hkey, hd⟩ | ⟨hd, hkey⟩)
      · exact ⟨hkey, Or.inl hd⟩
      · exact ⟨hkey, Or.inr hd⟩
    · rintro ⟨hkey, hd | hd⟩
      · exact Or.inl ⟨hkey, hd⟩
      · exact Or.inr ⟨hd, hkey⟩

theorem initCache_spec (hm : m.WellFormed) (hnew : Tracks imports dicts m cache none)
    (hglobals : (dicts cache.globals).hasOnlyUnicodeKeys = true) :
    ∃ m', m.initCache imports dicts cache = some m' ∧ m'.WellFormed ∧
      (∀ other, other ≠ cache → Same m m' other) ∧
      Tracks imports dicts m' cache (some (Mode.start imports dicts cache)) := by
  obtain ⟨hm₀, hmem₀, hread₀, hothers₀⟩ := allocate_spec hm hnew.1
  have hshadowed : Mode.shadowed ≠ .both := by rintro ⟨⟩
  have hunwatched : ∀ dict key, ¬ (m.allocate cache).Watching cache dict key := hnew.2
  obtain ⟨m₁, hw, hm₁, hmap₁, harena₁, hwatching⟩ :=
    watchDictKey_spec hm₀ (hunwatched cache.globals cache.name)
  have hmem₁ : cache ∈ m₁.map := hmap₁ ▸ hmem₀
  have hothers₁ : ∀ other, other ≠ cache → Same m m₁ other := fun other hne =>
    (hothers₀ other hne).trans
      (.of_watches hmap₁ harena₁ fun dict key => by simp [hwatching, hne])
  have hwatch₁ : ∀ mode : Mode, (mode ≠ .both ∨ cache.globals = cache.builtins) →
      ∀ dict key, m₁.Watching cache dict key ↔ key = cache.name ∧ mode.Follows cache dict := by
    intro mode hmode dict key
    rw [hwatching]
    rcases hmode with hmode | hsame
    · simp [hunwatched, Mode.Follows, hmode, and_comm]
    · simp only [hunwatched, false_or, true_and, Mode.Follows, ← hsame]
      tauto
  cases hitem : imports.getItem (dicts cache.globals) cache.name with
  | some v =>
    have hstart : Mode.start imports dicts cache = .shadowed := by simp [Mode.start, hitem]
    have hholds : Mode.shadowed.Holds imports dicts cache :=
      ⟨hglobals, fun _ => by rw [hitem]; rfl, by rintro ⟨⟩, by rintro ⟨⟩⟩
    have hvalue : some v = Mode.shadowed.value imports dicts cache := by
      simp [Mode.value, globalValue, hitem]
    obtain ⟨m', hset, hm', hothers, htracks⟩ :=
      setValue_tracks hm₁ hmem₁ (hwatch₁ .shadowed (Or.inl hshadowed)) hholds hvalue
    refine ⟨m', ?_, hm', fun other hne => (hothers₁ other hne).trans (hothers other hne), ?_⟩
    · rw [allocate] at hw
      simp [initCache, hglobals, hw, hitem, hset]
    · rwa [hstart]
  | none =>
    have hvalue : imports.getItem (dicts cache.builtins) cache.name =
        Mode.both.value imports dicts cache := by
      simp [Mode.value, globalValue, hitem]
    rw [allocate] at hw
    cases hunicode : (dicts cache.builtins).hasOnlyUnicodeKeys with
    | false =>
      have hstart : Mode.start imports dicts cache = .blind := by
        simp [Mode.start, hitem, hunicode]
      have hne : cache.globals ≠ cache.builtins := by
        intro hsame
        rw [← hsame, hglobals] at hunicode
        cases hunicode
      refine ⟨m₁, ?_, hm₁, hothers₁, ?_⟩
      · simp [initCache, hglobals, hw, hitem, hunicode]
      · rw [hstart]
        refine ⟨hmem₁, ?_, hwatch₁ .blind (Or.inl (by rintro ⟨⟩)), hglobals, by rintro ⟨⟩,
          by rintro ⟨⟩, fun _ => ⟨hne, hitem⟩⟩
        rw [read_congr hmap₁ harena₁, hread₀]
        rfl
    | true =>
      have hstart : Mode.start imports dicts cache = .both := by
        simp [Mode.start, hitem, hunicode]
      have hholds : Mode.both.Holds imports dicts cache :=
        ⟨hglobals, by rintro ⟨⟩, fun _ => hunicode, by rintro ⟨⟩⟩
      by_cases hsame : cache.globals = cache.builtins
      · obtain ⟨m', hset, hm', hothers, htracks⟩ :=
          setValue_tracks hm₁ hmem₁ (hwatch₁ .both (Or.inr hsame)) hholds hvalue
        refine ⟨m', ?_, hm', fun other hne => (hothers₁ other hne).trans (hothers other hne),
          hstart ▸ htracks⟩
        simp [initCache, hglobals, hw, hitem, hunicode, hset]
        exact fun hne => absurd hsame hne
      · obtain ⟨m₂, hset, hm₂, hmap₂, hwatchMap₂, hread₂, hothers₂⟩ :=
          setValue_spec hm₁ hmem₁ (imports.getItem (dicts cache.builtins) cache.name)
        have hwatch₂ : ∀ dict key, m₂.Watching cache dict key ↔
            key = cache.name ∧ Mode.shadowed.Follows cache dict := by
          intro dict key
          rw [← hwatch₁ .shadowed (Or.inl hshadowed) dict key, Watching, Watching, hwatchMap₂]
        obtain ⟨m₃, hw₃, hm₃, hothers₃, htracks₃⟩ := watchDictKey_tracks hm₂ hshadowed hsame
          (hmap₂ ▸ hmem₁) hwatch₂ (hread₂.trans (congrArg some hvalue)) hholds
        refine ⟨m₃, ?_, hm₃, fun other hne => ((hothers₁ other hne).trans
          (.of_value hmap₂ hwatchMap₂ (hothers₂ other hne))).trans (hothers₃ other hne),
          hstart ▸ htracks₃⟩
        simp [initCache, hglobals, hw, hitem, hunicode, hset, hsame, hw₃]

/-! ## Updates -/

def Updated (imports : LazyImports Value) (dicts' : Dict → PyDict Name Value)
    (m m' : GlobalCacheManager Dict Name Value) (cache : GlobalCache Dict Name) :
    Option Mode → Bool → Prop
  | none, disable => disable = true ∧ m' = m
  | some mode, disable => disable = false ∧ Tracks imports dicts' m' cache (some mode)

variable (imports) (dicts) (dicts') (m) (mode) (cache) in
/-- `updateCache` leaves the other caches alone and does to this one what its mode asks. -/
def UpdatesCache (dict : Dict) (newValue : Option Value) : Prop :=
  ∃ m' disable, m.updateCache imports dicts cache dict newValue = some (m', disable) ∧
    m'.WellFormed ∧ (∀ other, other ≠ cache → Same m m' other) ∧
    Updated imports dicts' m m' cache (mode.revise imports dicts cache dict newValue) disable

theorem updateCache_deleted (hm : m.WellFormed)
    (htracks : Tracks imports dicts m cache (some mode))
    (hchange : Replaced dicts dicts' cache.globals cache.name none) :
    UpdatesCache imports dicts dicts' m cache mode cache.globals none := by
  obtain ⟨hmem, hread, hwatch, hholds⟩ := htracks
  have hitem : imports.getItem (dicts' cache.globals) cache.name = none := hchange.getItem rfl
  have hglobals' := hchange.unicode_of hholds.globals
  have hvalue : Mode.both.value imports dicts' cache =
      imports.getItem (dicts' cache.builtins) cache.name := by
    simp [Mode.value, globalValue, hitem]
  by_cases hsame : cache.globals = cache.builtins
  · -- The dictionary is its own fallback: the watches are already those of `both`.
    have hfollow : ∀ dict key, m.Watching cache dict key ↔
        key = cache.name ∧ Mode.both.Follows cache dict := by
      intro dict key
      rw [hwatch]
      simp [Mode.Follows, ← hsame]
    have hholds' : Mode.both.Holds imports dicts' cache :=
      ⟨hglobals', nofun, fun _ => hsame ▸ hglobals', nofun⟩
    obtain ⟨m', hset, hm', hothers, htracks'⟩ :=
      setValue_tracks hm hmem hfollow hholds' (hitem.symm.trans (hsame ▸ hvalue.symm))
    refine ⟨m', false, ?_, hm', hothers, ?_⟩
    · simp [updateCache, hsame, hset]
    · simpa [Mode.revise, hsame, Updated] using htracks'
  cases hunicode : (dicts cache.builtins).hasOnlyUnicodeKeys with
  | false =>
    refine ⟨m, true, ?_, hm, fun other _ => .refl m other, ?_⟩
    · simp [updateCache, hsame, hunicode]
    · simp [Mode.revise, hsame, hunicode, Updated]
  | true =>
    have hbuiltins : imports.getItem (dicts cache.builtins) cache.name =
        Mode.both.value imports dicts' cache := by
      rw [hvalue, hchange.others _ (Ne.symm hsame)]
    have hholds' : Mode.both.Holds imports dicts' cache :=
      ⟨hglobals', nofun, fun _ => hchange.unicode_of hunicode, nofun⟩
    obtain ⟨m₁, hset, hm₁, hmap₁, hwatchMap₁, hread₁, hothers₁⟩ :=
      setValue_spec hm hmem (imports.getItem (dicts cache.builtins) cache.name)
    have hsame₁ : ∀ other, other ≠ cache → Same m m₁ other :=
      fun other hne => .of_value hmap₁ hwatchMap₁ (hothers₁ other hne)
    have hwatch₁ : ∀ dict key, m₁.Watching cache dict key ↔
        key = cache.name ∧ mode.Follows cache dict := by
      intro dict key
      rw [← hwatch dict key, Watching, Watching, hwatchMap₁]
    have hrevise : mode.revise imports dicts cache cache.globals none = some .both := by
      simp [Mode.revise, hunicode]
    rw [UpdatesCache, hrevise]
    cases hwatched : m₁.isWatchedDictKey cache.builtins cache.name cache with
    | true =>
      refine ⟨m₁, false, ?_, hm₁, hsame₁, rfl, hmap₁ ▸ hmem, ?_, ?_, hholds'⟩
      · simp [updateCache, hsame, hunicode, hset, hwatched]
      · rw [hread₁, hbuiltins]
      · have hmode : mode = .both := by
          rw [isWatchedDictKey_iff, hwatch₁] at hwatched
          exact (hwatched.2.resolve_left (Ne.symm hsame)).1
        rwa [← hmode]
    | false =>
      have hmode : mode ≠ .both := by
        intro hmode
        have hyes := (hwatch₁ cache.builtins cache.name).mpr ⟨rfl, Or.inr ⟨hmode, rfl⟩⟩
        rw [← isWatchedDictKey_iff, hwatched] at hyes
        cases hyes
      obtain ⟨m₂, hw, hm₂, hothers₂, htracks₂⟩ := watchDictKey_tracks hm₁ hmode hsame
        (hmap₁ ▸ hmem) hwatch₁ (hread₁.trans (congrArg some hbuiltins)) hholds'
      refine ⟨m₂, false, ?_, hm₂, fun other hne => (hsame₁ other hne).trans (hothers₂ other hne),
        rfl, htracks₂⟩
      simp [updateCache, hsame, hunicode, hset, hwatched, hw]

theorem updateCache_assigned (hm : m.WellFormed)
    (htracks : Tracks imports dicts m cache (some mode)) (hlazy : imports.checkExact v = false)
    (hchange : Replaced dicts dicts' cache.globals cache.name (some v)) :
    UpdatesCache imports dicts dicts' m cache mode cache.globals (some v) := by
  obtain ⟨hmem, hread, hwatch, hholds⟩ := htracks
  have hitem : imports.getItem (dicts' cache.globals) cache.name = some v :=
    hchange.getItem (by simpa using hlazy)
  let mode' : Mode := if mode = .both then .both else .shadowed
  have hrevise : mode.revise imports dicts cache cache.globals (some v) = some mode' := by
    simp [Mode.revise, hlazy, mode']
  have hfollow : ∀ dict key, m.Watching cache dict key ↔
      key = cache.name ∧ mode'.Follows cache dict := by
    intro dict key
    rw [hwatch]
    cases mode <;> simp [Mode.Follows, mode']
  have hholds' : mode'.Holds imports dicts' cache := by
    refine ⟨hchange.unicode_of hholds.globals, fun _ => by rw [hitem]; rfl, ?_, ?_⟩
    · intro hboth
      refine hchange.unicode_of (hholds.both ?_)
      revert hboth
      cases mode <;> simp [mode']
    · intro hblind
      revert hblind
      cases mode <;> simp [mode']
  have hvalue : some v = mode'.value imports dicts' cache := by
    cases mode <;> simp [Mode.value, globalValue, hitem, mode']
  obtain ⟨m', hset, hm', hothers, htracks'⟩ := setValue_tracks hm hmem hfollow hholds' hvalue
  refine ⟨m', false, ?_, hm', hothers, ?_⟩
  · simp [updateCache, hlazy, hset]
  · rw [hrevise]
    exact ⟨rfl, htracks'⟩

variable {newValue : Option Value}

theorem updateCache_builtins (hm : m.WellFormed)
    (htracks : Tracks imports dicts m cache (some .both)) (hdict : dict = cache.builtins)
    (hne : dict ≠ cache.globals) (hlazy : newValue.any imports.checkExact = false)
    (hchange : Replaced dicts dicts' dict cache.name newValue) :
    UpdatesCache imports dicts dicts' m cache .both dict newValue := by
  subst hdict
  obtain ⟨hmem, hread, hwatch, hholds⟩ := htracks
  have hitem := hchange.getItem hlazy
  have hholds' : Mode.both.Holds imports dicts' cache :=
    ⟨hchange.unicode_of hholds.globals, nofun,
      fun _ => hchange.unicode_of (hholds.both rfl), nofun⟩
  have hrevise : Mode.both.revise imports dicts cache cache.builtins newValue = some .both := by
    simp [Mode.revise, hlazy, hne]
  rw [UpdatesCache, hrevise]
  cases hglobals : imports.getItem (dicts cache.globals) cache.name with
  | none =>
    have hvalue : newValue = Mode.both.value imports dicts' cache := by
      simp [Mode.value, globalValue, hitem, hchange.others _ (Ne.symm hne), hglobals]
    obtain ⟨m', hset, hm', hothers, htracks'⟩ := setValue_tracks hm hmem hwatch hholds' hvalue
    refine ⟨m', false, ?_, hm', hothers, rfl, htracks'⟩
    simp [updateCache, hlazy, hne, hholds.globals, hglobals, hset]
  | some v =>
    refine ⟨m, false, ?_, hm, fun other _ => .refl m other, rfl, hmem, ?_, hwatch, hholds'⟩
    · simp [updateCache, hlazy, hne, hholds.globals, hglobals]
    · rw [hread]
      simp [Mode.value, globalValue, hchange.others _ (Ne.symm hne), hglobals]

theorem updateCache_spec (hm : m.WellFormed) (htracks : Tracks imports dicts m cache (some mode))
    (hfollows : mode.Follows cache dict)
    (hchange : Replaced dicts dicts' dict cache.name newValue) :
    UpdatesCache imports dicts dicts' m cache mode dict newValue := by
  cases hlazy : newValue.any imports.checkExact with
  | true =>
    refine ⟨m, true, ?_, hm, fun other _ => .refl m other, ?_⟩
    · simp [updateCache, hlazy]
    · simp [Mode.revise, hlazy, Updated]
  | false =>
    by_cases hdict : dict = cache.globals
    · subst hdict
      cases newValue with
      | none => exact updateCache_deleted hm htracks hchange
      | some v => exact updateCache_assigned hm htracks (by simpa using hlazy) hchange
    · obtain ⟨hboth, hbuiltins⟩ := hfollows.resolve_left hdict
      subst hboth
      exact updateCache_builtins hm htracks hbuiltins hdict hlazy hchange

variable {caches : List (GlobalCache Dict Name)}

theorem updateCaches_spec (hm : m.WellFormed) (hnodup : caches.Nodup)
    (hcaches : ∀ cache ∈ caches, ∃ mode, t cache = some mode ∧ mode.Follows cache dict ∧
      Tracks imports dicts m cache (some mode) ∧ Replaced dicts dicts' dict cache.name newValue) :
    ∃ m' toDisable, m.updateCaches imports dicts dict newValue caches = some (m', toDisable) ∧
      m'.WellFormed ∧ toDisable.Nodup ∧ (∀ cache, cache ∉ caches → Same m m' cache) ∧
      (∀ cache ∈ toDisable, cache ∈ caches) ∧
      ∀ cache ∈ caches, ∃ mode, t cache = some mode ∧
        ((cache ∈ toDisable ∧ mode.revise imports dicts cache dict newValue = none ∧
            Tracks imports dicts m' cache (some mode)) ∨
          (cache ∉ toDisable ∧ ∃ mode', mode.revise imports dicts cache dict newValue = some mode' ∧
            Tracks imports dicts' m' cache (some mode'))) := by
  induction caches generalizing m with
  | nil => exact ⟨m, [], rfl, hm, nodup_nil, fun cache _ => .refl m cache, nofun, nofun⟩
  | cons cache caches ih =>
    obtain ⟨hnew, hnodup⟩ := nodup_cons.mp hnodup
    obtain ⟨mode, hmode, hfollows, htracks, hchange⟩ := hcaches cache mem_cons_self
    obtain ⟨m₁, disable, hupdate, hm₁, hothers₁, hcache₁⟩ :=
      updateCache_spec hm htracks hfollows hchange
    obtain ⟨m₂, toDisable, hloop, hm₂, hdisable, hothers₂, hsub, hrest⟩ :=
      ih hm₁ hnodup fun other hother => by
        obtain ⟨mode', hmode', hfollows', htracks', hchange'⟩ :=
          hcaches other (mem_cons_of_mem cache hother)
        have hne : other ≠ cache := fun heq => hnew (heq ▸ hother)
        exact ⟨mode', hmode', hfollows', htracks'.of_same (hothers₁ other hne), hchange'⟩
    have hkept : Same m₁ m₂ cache := hothers₂ cache hnew
    have hout : cache ∉ toDisable := fun hmem => hnew (hsub cache hmem)
    refine ⟨m₂, if disable then cache :: toDisable else toDisable, ?_, hm₂, ?_, ?_, ?_, ?_⟩
    · simp [updateCaches, hupdate, hloop]
    · cases disable with
      | true => exact nodup_cons.mpr ⟨hout, hdisable⟩
      | false => exact hdisable
    · intro other hother
      obtain ⟨hne, hother⟩ := not_or.mp (mem_cons.not.mp hother)
      exact (hothers₁ other hne).trans (hothers₂ other hother)
    · intro other hother
      cases disable with
      | true =>
        rcases mem_cons.mp hother with rfl | hother
        · exact mem_cons_self
        · exact mem_cons_of_mem cache (hsub other hother)
      | false => exact mem_cons_of_mem cache (hsub other hother)
    · intro other hother
      rcases mem_cons.mp hother with rfl | hother
      · refine ⟨mode, hmode, ?_⟩
        cases hrevise : mode.revise imports dicts other dict newValue with
        | none =>
          rw [hrevise] at hcache₁
          obtain ⟨rfl, rfl⟩ := hcache₁
          exact Or.inl ⟨mem_cons_self, rfl, htracks.of_same hkept⟩
        | some mode' =>
          rw [hrevise] at hcache₁
          obtain ⟨rfl, htracks'⟩ := hcache₁
          exact Or.inr ⟨hout, mode', rfl, htracks'.of_same hkept⟩
      · obtain ⟨mode', hmode', hcases⟩ := hrest other hother
        have hne : other ≠ cache := fun heq => hnew (heq ▸ hother)
        refine ⟨mode', hmode', ?_⟩
        rcases hcases with ⟨hin, hgone⟩ | ⟨hin, hkept'⟩
        · refine Or.inl ⟨?_, hgone⟩
          cases disable with
          | true => exact mem_cons_of_mem cache hin
          | false => exact hin
        · refine Or.inr ⟨?_, hkept'⟩
          cases disable with
          | true => exact fun hmem => (mem_cons.mp hmem).elim hne hin
          | false => exact hin

theorem updateCaches_lazy (hlazy : imports.checkExact v = true) (dict : Dict)
    (caches : List (GlobalCache Dict Name)) :
    m.updateCaches imports dicts dict (some v) caches = some (m, caches) := by
  induction caches with
  | nil => rfl
  | cons cache caches ih => simp [updateCaches, updateCache, hlazy, ih]

theorem disableCaches_spec (hm : m.WellFormed) (hnodup : caches.Nodup)
    (hcaches : ∀ cache ∈ caches, cache ∈ m.map ∧ m.Watching cache cache.globals cache.name) :
    ∃ m', m.disableCaches caches = some m' ∧ m'.WellFormed ∧
      (∀ cache, cache ∉ caches → Same m m' cache) ∧
      ∀ cache ∈ caches, cache ∉ m'.map ∧ ∀ dict key, m'.Watching cache dict key ↔
        m.Watching cache dict key ∧ ¬ (dict = cache.globals ∧ key = cache.name) := by
  induction caches generalizing m with
  | nil => exact ⟨m, rfl, hm, fun cache _ => .refl m cache, nofun⟩
  | cons cache caches ih =>
    obtain ⟨hnew, hnodup⟩ := nodup_cons.mp hnodup
    obtain ⟨hmem, hwatch⟩ := hcaches cache mem_cons_self
    obtain ⟨m₁, hdisable, hm₁, hwatchMap₁, hgone₁, hothers₁⟩ := disableCache_spec hm hmem
    have hold : m₁.Watching cache cache.globals cache.name := by
      rw [Watching, hwatchMap₁]
      exact hwatch
    obtain ⟨m₂, hunwatch, hm₂, hmap₂, harena₂, hwatching₂⟩ := unwatchDictKey_spec hm₁ hold
    have hothers : ∀ other, other ≠ cache → Same m m₂ other := fun other hne =>
      (hothers₁ other hne).trans
        (.of_watches hmap₂ harena₂ fun dict key => by simp [hwatching₂, hne])
    have hrest : ∀ other ∈ caches, Same m m₂ other := fun other hother =>
      hothers other fun heq => hnew (heq ▸ hother)
    obtain ⟨m₃, hloop, hm₃, hothers₃, hgone₃⟩ := ih hm₂ hnodup fun other hother => by
      obtain ⟨hmem', hwatch'⟩ := hcaches other (mem_cons_of_mem cache hother)
      exact ⟨(hrest other hother).mem.mpr hmem', ((hrest other hother).watching _ _).mpr hwatch'⟩
    refine ⟨m₃, by simp [disableCaches, hdisable, hunwatch, hloop], hm₃, ?_, ?_⟩
    · intro other hother
      obtain ⟨hne, hother⟩ := not_or.mp (mem_cons.not.mp hother)
      exact (hothers other hne).trans (hothers₃ other hother)
    · intro other hother
      rcases mem_cons.mp hother with rfl | hother
      · have hkept := hothers₃ other hnew
        refine ⟨fun hin => hgone₁ (hmap₂ ▸ hkept.mem.mp hin), fun dict key => ?_⟩
        rw [hkept.watching, hwatching₂, Watching, hwatchMap₁, Watching]
        simp
      · obtain ⟨hout, hwatch'⟩ := hgone₃ other hother
        refine ⟨hout, fun dict key => ?_⟩
        rw [hwatch', (hrest other hother).watching]

theorem unwatchOther_spec (hm : m.WellFormed) (hfollows : mode.Follows cache dict)
    (hwatch : ∀ dict key, m.Watching cache dict key ↔ key = cache.name ∧ mode.Follows cache dict) :
    ∃ m', m.unwatchOther dict cache = some m' ∧ m'.WellFormed ∧ m'.map = m.map ∧
      (∀ other, other ≠ cache → Same m m' other) ∧
      ∀ dict' key, m'.Watching cache dict' key → dict' = dict := by
  have hremove : ∀ dict', mode.Follows cache dict' →
      ∃ m', m.unwatchDictKey dict' cache.name cache = some m' ∧ m'.WellFormed ∧ m'.map = m.map ∧
        (∀ other, other ≠ cache → Same m m' other) ∧
        ∀ dict'' key, m'.Watching cache dict'' key → mode.Follows cache dict'' ∧
          dict'' ≠ dict' := by
    intro dict' hfollows'
    obtain ⟨m', hunwatch, hm', hmap, harena, hwatching⟩ :=
      unwatchDictKey_spec hm ((hwatch dict' cache.name).mpr ⟨rfl, hfollows'⟩)
    refine ⟨m', hunwatch, hm', hmap, fun other hne => .of_watches hmap harena fun dict key => by
      simp [hwatching, hne], ?_⟩
    intro dict'' key hw
    obtain ⟨hw, hne⟩ := (hwatching cache dict'' key).mp hw
    obtain ⟨rfl, hfollows''⟩ := (hwatch dict'' key).mp hw
    exact ⟨hfollows'', fun heq => hne ⟨rfl, heq, rfl⟩⟩
  unfold unwatchOther
  by_cases hsame : cache.globals = cache.builtins
  · refine ⟨m, by simp [hsame], hm, rfl, fun other _ => .refl m other, ?_⟩
    intro dict' key hw
    have h' := ((hwatch dict' key).mp hw).2
    simp only [Mode.Follows, ← hsame] at h' hfollows
    exact (h'.elim id And.right).trans (hfollows.elim id And.right).symm
  by_cases hdict : dict = cache.globals
  · subst hdict
    cases hwatched : m.isWatchedDictKey cache.builtins cache.name cache with
    | true =>
      obtain ⟨-, hboth⟩ := (hwatch _ _).mp ((isWatchedDictKey_iff _ _).mp hwatched)
      obtain ⟨m', hunwatch, hm', hmap, hothers, hleft⟩ := hremove cache.builtins hboth
      refine ⟨m', by simp [hsame, hunwatch], hm', hmap, hothers, fun dict' key hw => ?_⟩
      obtain ⟨hfollows', hne⟩ := hleft dict' key hw
      exact hfollows'.resolve_right fun h => hne h.2
    | false =>
      refine ⟨m, by simp [hsame], hm, rfl, fun other _ => .refl m other, fun dict' key hw => ?_⟩
      obtain ⟨rfl, hfollows'⟩ := (hwatch dict' key).mp hw
      refine hfollows'.resolve_right fun h => ?_
      have hyes := (hwatch cache.builtins cache.name).mpr ⟨rfl, Or.inr ⟨h.1, rfl⟩⟩
      rw [← isWatchedDictKey_iff, hwatched] at hyes
      cases hyes
  · obtain ⟨hboth, rfl⟩ := hfollows.resolve_left hdict
    obtain ⟨m', hunwatch, hm', hmap, hothers, hleft⟩ := hremove cache.globals (Or.inl rfl)
    refine ⟨m', by simp [hsame, hdict, hunwatch], hm', hmap, hothers, fun dict' key hw => ?_⟩
    obtain ⟨hfollows', hne⟩ := hleft dict' key hw
    exact (hfollows'.resolve_left hne).2

theorem unwatchCaches_spec (hm : m.WellFormed) (hnodup : caches.Nodup)
    (hcaches : ∀ cache ∈ caches, ∃ mode, t cache = some mode ∧ mode.Follows cache dict ∧
      Tracks imports dicts m cache (some mode)) :
    ∃ m', m.unwatchCaches dict caches = some m' ∧ m'.WellFormed ∧
      (∀ cache, cache ∉ caches → Same m m' cache) ∧
      ∀ cache ∈ caches, cache ∉ m'.map ∧
        ∀ dict' key, m'.Watching cache dict' key → dict' = dict := by
  induction caches generalizing m with
  | nil => exact ⟨m, rfl, hm, fun cache _ => .refl m cache, nofun⟩
  | cons cache caches ih =>
    obtain ⟨hnew, hnodup⟩ := nodup_cons.mp hnodup
    obtain ⟨mode, hmode, hfollows, hmem, -, hwatch, -⟩ := hcaches cache mem_cons_self
    obtain ⟨m₁, hother, hm₁, hmap₁, hothers₁, hleft₁⟩ := unwatchOther_spec hm hfollows hwatch
    obtain ⟨m₂, hdisable, hm₂, hwatchMap₂, hgone₂, hothers₂⟩ :=
      disableCache_spec hm₁ (hmap₁ ▸ hmem)
    have hothers : ∀ other, other ≠ cache → Same m m₂ other := fun other hne =>
      (hothers₁ other hne).trans (hothers₂ other hne)
    obtain ⟨m₃, hloop, hm₃, hothers₃, hrest⟩ := ih hm₂ hnodup fun other hin => by
      have hne : other ≠ cache := fun heq => hnew (heq ▸ hin)
      obtain ⟨mode', hmode', hfollows', htracks'⟩ :=
        hcaches other (mem_cons_of_mem cache hin)
      exact ⟨mode', hmode', hfollows', htracks'.of_same (hothers other hne)⟩
    refine ⟨m₃, by simp [unwatchCaches, hother, hdisable, hloop], hm₃, ?_, ?_⟩
    · intro other hin
      obtain ⟨hne, hin⟩ := not_or.mp (mem_cons.not.mp hin)
      exact (hothers other hne).trans (hothers₃ other hin)
    · intro other hin
      rcases mem_cons.mp hin with rfl | hin
      · have hkept := hothers₃ other hnew
        refine ⟨fun hmem' => hgone₂ (hkept.mem.mp hmem'), fun dict' key hw => ?_⟩
        have hw₂ := (hkept.watching dict' key).mp hw
        rw [Watching, hwatchMap₂] at hw₂
        exact hleft₁ dict' key hw₂
      · exact hrest other hin

end CinderX.Jit.GlobalCaches
