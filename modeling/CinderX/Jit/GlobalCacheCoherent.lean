import CinderX.Jit.GlobalCacheSteps

/-!
# The caches stay coherent

The manager refines the tracking of the caches over every run in which no lazy import is
put under a name that a cache follows in two dictionaries.  Such a cache is disabled, but
only its watch of the globals is taken back.
-/

namespace CinderX.Jit.GlobalCaches

open Foundation GlobalCacheManager Option Subscriptions

variable {Dict Name Value : Type} [DecidableEq Dict] [DecidableEq Name]
  {imports : LazyImports Value}

structure Refines (imports : LazyImports Value) (s : State Dict Name Value)
    (t : Tracking Dict Name) : Prop where
  wellFormed : s.manager.WellFormed
  tracks : ∀ cache, Tracks imports s.dicts s.manager cache (t cache)

/-- What the steps are trusted with: new caches are made for globals that can be watched,
and a lazy import reaches no cache that watches both of two dictionaries. -/
def Event.Trusted (imports : LazyImports Value) (s : State Dict Name Value) :
    Event Dict Name Value → Prop
  | .find _ globals _ => (s.dicts globals).hasOnlyUnicodeKeys = true
  | .update dict key value _ => value.any imports.checkExact = true →
      ∀ cache, s.manager.Watching cache dict key → cache.globals ≠ cache.builtins →
        ¬ (s.manager.Watching cache cache.globals key ∧
          s.manager.Watching cache cache.builtins key)
  | .clear _ _ => True
  | .unwatch _ _ _ => True

variable {s : State Dict Name Value} {t : Tracking Dict Name}

variable {cache : GlobalCache Dict Name} {dict : Dict} {key : Name}
  {dictKeys : AList fun _ : Name => List (GlobalCache Dict Name)} {newValue : Option Value}
  {mode : Mode} {s' : State Dict Name Value}

theorem Refines.tracked (h : Refines imports s t) (hw : s.manager.Watching cache dict key) :
    ∃ mode, t cache = some mode ∧ key = cache.name ∧ mode.Follows cache dict ∧
      Tracks imports s.dicts s.manager cache (some mode) := by
  have htracks := h.tracks cache
  cases hmode : t cache with
  | none =>
    rw [hmode] at htracks
    exact absurd hw (htracks.2 dict key)
  | some mode =>
    rw [hmode] at htracks
    obtain ⟨hkey, hfollows⟩ := (htracks.2.2.1 dict key).mp hw
    exact ⟨mode, rfl, hkey, hfollows, htracks⟩

theorem Refines.watching_iff (h : Refines imports s t) :
    s.manager.Watching cache dict key ↔
      ∃ mode, t cache = some mode ∧ key = cache.name ∧ mode.Follows cache dict := by
  constructor
  · intro hw
    obtain ⟨mode, hmode, hkey, hfollows, -⟩ := h.tracked hw
    exact ⟨mode, hmode, hkey, hfollows⟩
  · rintro ⟨mode, hmode, hkey, hfollows⟩
    have htracks := h.tracks cache
    rw [hmode] at htracks
    exact (htracks.2.2.1 dict key).mpr ⟨hkey, hfollows⟩

theorem Refines.nodup_all (h : Refines imports s t)
    (hdict : s.manager.watchMap.lookup dict = some dictKeys) :
    (Subscriptions.all dictKeys).Nodup := by
  refine (h.wellFormed.tidy dict dictKeys hdict).2.nodup_all ?_
  intro key key' cache hkey hkey'
  rw [← subscribers_of_lookup hdict] at hkey hkey'
  obtain ⟨-, -, hname, -⟩ := h.tracked (show s.manager.Watching cache dict key from hkey)
  obtain ⟨-, -, hname', -⟩ := h.tracked (show s.manager.Watching cache dict key' from hkey')
  exact hname.trans hname'.symm

theorem mem_all_iff (hdict : s.manager.watchMap.lookup dict = some dictKeys) :
    cache ∈ Subscriptions.all dictKeys ↔ ∃ key, s.manager.Watching cache dict key := by
  simp only [mem_all, Watching, subscribers_of_lookup hdict]

theorem Refines.arranged_all (h : Refines imports s t)
    (hdict : s.manager.watchMap.lookup dict = some dictKeys)
    (order : WalkOrder (GlobalCache Dict Name)) :
    (∀ cache, cache ∈ order.arrange (Subscriptions.all dictKeys) ↔
      ∃ key, s.manager.Watching cache dict key) ∧
      (order.arrange (Subscriptions.all dictKeys)).Nodup :=
  ⟨fun _ => (order.perm _).mem_iff.trans (mem_all_iff hdict),
    (order.perm _).nodup_iff.mpr (h.nodup_all hdict)⟩

theorem Refines.arranged_key (h : Refines imports s t)
    (hdict : s.manager.watchMap.lookup dict = some dictKeys)
    {keyWatchers : List (GlobalCache Dict Name)} (hkey : dictKeys.lookup key = some keyWatchers)
    (order : WalkOrder (GlobalCache Dict Name)) :
    (∀ cache, cache ∈ order.arrange keyWatchers ↔ s.manager.Watching cache dict key) ∧
      (order.arrange keyWatchers).Nodup := by
  refine ⟨fun cache => ?_, (order.perm keyWatchers).nodup_iff.mpr
    ((h.wellFormed.tidy dict dictKeys hdict).2 key keyWatchers hkey).2⟩
  rw [(order.perm keyWatchers).mem_iff, Watching, subscribers_of_lookup hdict,
    ofKeys, hkey, getD_some]

variable {dicts' : Dict → PyDict Name Value}

theorem notify_spec (h : Refines imports s t)
    {watchers : List (GlobalCache Dict Name)} (hnodup : watchers.Nodup)
    (hwatchers : ∀ cache ∈ watchers, ∃ mode, t cache = some mode ∧ mode.Follows cache dict ∧
      Replaced s.dicts dicts' dict cache.name newValue ∧
      (mode.revise imports s.dicts cache dict newValue = none → mode = .both → cache.globals =
      cache.builtins)) :
    ∃ m', (do
        let (m, toDisable) ← s.manager.updateCaches imports s.dicts dict newValue watchers
        m.disableCaches toDisable) = some m' ∧ m'.WellFormed ∧
      (∀ cache, cache ∉ watchers → Same s.manager m' cache) ∧
      ∀ cache ∈ watchers, Tracks imports dicts' m' cache
        ((t cache).bind fun mode => mode.revise imports s.dicts cache dict newValue) := by
  have hstart : ∀ cache ∈ watchers, ∃ mode, t cache = some mode ∧ mode.Follows cache dict ∧
      Tracks imports s.dicts s.manager cache (some mode) ∧
      Replaced s.dicts dicts' dict cache.name newValue := by
    intro cache hcache
    obtain ⟨mode, hmode, hfollows, hchange, -⟩ := hwatchers cache hcache
    exact ⟨mode, hmode, hfollows, hmode ▸ h.tracks cache, hchange⟩
  obtain ⟨m₁, toDisable, hloop, hm₁, hdisable, hothers, hsub, hrevised⟩ :=
    updateCaches_spec h.wellFormed hnodup hstart
  have hlone : ∀ cache ∈ toDisable, cache ∈ m₁.map ∧ ∀ dict key, m₁.Watching cache dict key ↔
      key = cache.name ∧ dict = cache.globals := by
    intro cache hcache
    obtain ⟨mode, hmode, -, -, hone⟩ := hwatchers cache (hsub cache hcache)
    obtain ⟨mode', hmode', ⟨-, hnone, htracks⟩ | ⟨hout, -⟩⟩ := hrevised cache (hsub cache hcache)
    · obtain rfl : mode = mode' := Option.some.inj (hmode.symm.trans hmode')
      refine ⟨htracks.1, fun dict' key => (htracks.2.2.1 dict' key).trans ?_⟩
      refine and_congr_right fun _ => or_iff_left_of_imp fun hboth => ?_
      exact hboth.2.trans (hone hnone hboth.1).symm
    · exact absurd hcache hout
  obtain ⟨m₂, hdisabled, hm₂, hothers₂, hgone⟩ := disableCaches_spec hm₁ hdisable fun cache hin =>
    ⟨(hlone cache hin).1, ((hlone cache hin).2 _ _).mpr ⟨rfl, rfl⟩⟩
  refine ⟨m₂, by simp [hloop, hdisabled], hm₂, ?_, ?_⟩
  · intro cache hcache
    exact (hothers cache hcache).trans (hothers₂ cache fun hin => hcache (hsub cache hin))
  · intro cache hcache
    obtain ⟨mode, hmode, ⟨hin, hnone, -⟩ | ⟨hout, mode', hsome, htracks⟩⟩ := hrevised cache hcache
    · rw [hmode, bind_some, hnone]
      obtain ⟨hout, hwatching⟩ := hgone cache hin
      refine ⟨hout, fun dict' key hw => ?_⟩
      obtain ⟨hw, hne⟩ := (hwatching dict' key).mp hw
      exact hne (((hlone cache hin).2 dict' key).mp hw).symm
    · rw [hmode, bind_some, hsome]
      exact htracks.of_same (hothers₂ cache hout)

/-! ## Steps -/

omit [DecidableEq Name] in
theorem revise_eq_none {dicts : Dict → PyDict Name Value} (hholds : mode.Holds imports dicts cache)
    (hnone : mode.revise imports dicts cache dict newValue = none) (hboth : mode = .both) :
    newValue.any imports.checkExact = true := by
  unfold Mode.revise at hnone
  split at hnone
  · assumption
  split at hnone
  · split at hnone
    · split at hnone
      · cases hnone
      · next hstays => exact absurd (Or.inr (hholds.both hboth)) hstays
    · cases hnone
  · cases hnone

theorem Refines.find (h : Refines imports s t) (key : GlobalCacheKey Dict Name)
    (hglobals : (s.dicts key.globals).hasOnlyUnicodeKeys = true) :
    ∃ m', s.manager.findGlobalCache imports s.dicts key = some m' ∧
      Refines imports ⟨m', s.dicts⟩
        (t.step imports s.dicts (.find key.builtins key.globals key.name)) := by
  have htracks := h.tracks key
  cases hmode : t key with
  | some mode =>
    rw [hmode] at htracks
    refine ⟨s.manager, by rw [findGlobalCache, if_pos htracks.1], ?_⟩
    simp only [Tracking.step, hmode, isSome_some, if_true]
    exact h
  | none =>
    rw [hmode] at htracks
    obtain ⟨m', hinit, hm', hothers, htracks'⟩ := initCache_spec h.wellFormed htracks hglobals
    refine ⟨m', by rw [findGlobalCache, if_neg htracks.1, hinit], hm', fun cache => ?_⟩
    simp only [Tracking.step, hmode, isSome_none, Bool.false_eq_true, if_false]
    by_cases hcache : cache = key
    · subst hcache
      rw [Function.update_self]
      exact htracks'
    · rw [Function.update_of_ne hcache]
      exact (h.tracks cache).of_same (hothers cache hcache)

theorem replaced_update (dicts : Dict → PyDict Name Value) (dict : Dict) (key : Name)
    (value : Option Value) :
    Replaced dicts (Function.update dicts dict
      { dicts dict with items := Function.update (dicts dict).items key value }) dict key
        value := by
  constructor
  · simp
  · simp
  · intro other hother
    rw [Function.update_of_ne hother]

theorem Refines.update (h : Refines imports s t) (dict : Dict) (key : Name)
    (value : Option Value) (order : WalkOrder (GlobalCache Dict Name))
    (htrusted : (Event.update dict key value order).Trusted imports s) :
    ∃ m', s.manager.notifyDictUpdate imports s.dicts order dict key value = some m' ∧
      Refines imports ⟨m', (Event.update dict key value order).change s.dicts⟩
        (t.step imports s.dicts (.update dict key value order)) := by
  have hchange := replaced_update s.dicts dict key value
  -- Caches that do not watch the key keep their modes.
  have hkept : ∀ cache m', Same s.manager m' cache → ¬ s.manager.Watching cache dict key →
      Tracks imports ((Event.update dict key value order).change s.dicts) m' cache
        (t.step imports s.dicts (.update dict key value order) cache) := by
    intro cache m' hsame hw
    have hstep : t.step imports s.dicts (.update dict key value order) cache = t cache := by
      cases hmode : t cache with
      | none => simp [Tracking.step, hmode]
      | some mode =>
        have hnot : ¬ (cache.name = key ∧ mode.Follows cache dict) := fun ⟨hname, hfollows⟩ =>
          hw (h.watching_iff.mpr ⟨mode, hmode, hname.symm, hfollows⟩)
        simp only [Tracking.step, hmode, bind_some, if_neg hnot]
    rw [hstep]
    refine ((h.tracks cache).of_same hsame).kept fun mode hmode dict' hfollows => ?_
    by_cases hdict : dict' = dict
    · subst hdict
      have hname : cache.name ≠ key := fun hname =>
        hw (h.watching_iff.mpr ⟨mode, hmode, hname.symm, hfollows⟩)
      refine ⟨?_, hchange.unicode⟩
      simp [Event.change, Function.update_of_ne hname]
    · have hother := hchange.others dict' hdict
      exact ⟨by rw [Event.change, hother], fun hu => by rw [Event.change, hother]; exact hu⟩
  have hrevised : ∀ (m' : GlobalCacheManager Dict Name Value) (cache : GlobalCache Dict Name),
      s.manager.Watching cache dict key →
      Tracks imports ((Event.update dict key value order).change s.dicts) m' cache
        ((t cache).bind fun mode => mode.revise imports s.dicts cache dict value) →
      Tracks imports ((Event.update dict key value order).change s.dicts) m' cache
        (t.step imports s.dicts (.update dict key value order) cache) := by
    intro m' cache hw htracks
    obtain ⟨mode, hmode, hname, hfollows, -⟩ := h.tracked hw
    simp only [Tracking.step, hmode, bind_some, hname, true_and, if_pos hfollows]
    simpa only [hmode, bind_some, hname] using htracks
  unfold notifyDictUpdate
  cases hdict : s.manager.watchMap.lookup dict with
  | none =>
    refine ⟨s.manager, rfl, h.wellFormed, fun cache => hkept cache _ (.refl _ cache) ?_⟩
    simp [Watching, subscribers, hdict]
  | some dictKeys =>
  cases hkey : dictKeys.lookup key with
  | none =>
    refine ⟨s.manager, by simp [hkey], h.wellFormed,
      fun cache => hkept cache _ (.refl _ cache) ?_⟩
    simp [Watching, subscribers_of_lookup hdict, ofKeys, hkey]
  | some keyWatchers =>
    obtain ⟨hwatchers, hnodup⟩ := h.arranged_key hdict hkey order
    have hmodes : ∀ cache ∈ order.arrange keyWatchers, ∃ mode, t cache = some mode ∧
        mode.Follows cache dict ∧
        Replaced s.dicts ((Event.update dict key value order).change s.dicts) dict cache.name value
          ∧
        (mode.revise imports s.dicts cache dict value = none → mode = .both →
          cache.globals = cache.builtins) := by
      intro cache hcache
      have hw := (hwatchers cache).mp hcache
      obtain ⟨mode, hmode, hname, hfollows, -, -, hwatch, hholds⟩ := h.tracked hw
      refine ⟨mode, hmode, hfollows, by rw [← hname]; exact hchange, fun hnone hboth => ?_⟩
      by_contra hne
      refine htrusted (revise_eq_none hholds hnone hboth) cache hw hne ⟨?_, ?_⟩
      · exact (hwatch _ _).mpr ⟨hname, Or.inl rfl⟩
      · exact (hwatch _ _).mpr ⟨hname, Or.inr ⟨hboth, rfl⟩⟩
    obtain ⟨m', hnotify, hm', hothers, htracks⟩ := notify_spec h hnodup hmodes
    refine ⟨m', by simpa [hkey] using hnotify, hm', fun cache => ?_⟩
    by_cases hw : s.manager.Watching cache dict key
    · exact hrevised m' cache hw (htracks cache ((hwatchers cache).mpr hw))
    · exact hkept cache m' (hothers cache ((hwatchers cache).not.mpr hw)) hw

theorem Refines.follows_of_watching (h : Refines imports s t) (hmode : t cache = some mode) :
    mode.Follows cache dict ↔ ∃ key, s.manager.Watching cache dict key := by
  constructor
  · intro hfollows
    exact ⟨cache.name, h.watching_iff.mpr ⟨mode, hmode, rfl, hfollows⟩⟩
  · rintro ⟨key, hw⟩
    obtain ⟨mode', hmode', -, hfollows, -⟩ := h.tracked hw
    obtain rfl : mode = mode' := Option.some.inj (hmode.symm.trans hmode')
    exact hfollows

/-- Caches that do not watch a dictionary keep their modes when only it changes. -/
theorem Refines.kept (h : Refines imports s t)
    (hothers : ∀ other, other ≠ dict → dicts' other = s.dicts other)
    {m' : GlobalCacheManager Dict Name Value} (hsame : Same s.manager m' cache)
    (hw : ¬ ∃ key, s.manager.Watching cache dict key) (next : Mode → Option Mode) :
    Tracks imports dicts' m' cache
      ((t cache).bind fun mode => if mode.Follows cache dict then next mode else some mode) := by
  have hnot : ∀ mode, t cache = some mode → ¬ mode.Follows cache dict :=
    fun mode hmode hfollows => hw ((h.follows_of_watching hmode).mp hfollows)
  have hstep : ((t cache).bind fun mode =>
    if mode.Follows cache dict then next mode else some mode) =
      t cache := by
    cases hmode : t cache with
    | none => rfl
    | some mode => simp only [bind_some, if_neg (hnot mode hmode)]
  rw [hstep]
  refine ((h.tracks cache).of_same hsame).kept fun mode hmode dict' hfollows => ?_
  have hdict : dict' ≠ dict := fun heq => hnot mode hmode (heq ▸ hfollows)
  exact ⟨by rw [hothers dict' hdict], fun hu => by rw [hothers dict' hdict]; exact hu⟩

theorem Refines.clear (h : Refines imports s t) (dict : Dict)
    (order : WalkOrder (GlobalCache Dict Name)) :
    ∃ m', s.manager.notifyDictClear imports s.dicts order dict = some m' ∧
      Refines imports ⟨m', (Event.clear dict order).change s.dicts⟩
        (t.step imports s.dicts (.clear dict order)) := by
  have hchange : ∀ key, Replaced s.dicts
    ((Event.clear dict order).change s.dicts) dict key none := by
    intro key
    refine ⟨by simp [Event.change], by simp [Event.change], fun other hother => ?_⟩
    rw [Event.change, Function.update_of_ne hother]
  have hkept : ∀ cache m', Same s.manager m' cache →
      (¬ ∃ key, s.manager.Watching cache dict key) →
      Tracks imports ((Event.clear dict order).change s.dicts) m' cache
        (t.step imports s.dicts (.clear dict order) cache) :=
    fun cache m' hsame hw => h.kept (hchange cache.name).others hsame hw _
  unfold notifyDictClear
  cases hdict : s.manager.watchMap.lookup dict with
  | none =>
    refine ⟨s.manager, rfl, h.wellFormed, fun cache => hkept cache _ (.refl _ cache) ?_⟩
    simp [Watching, subscribers, hdict]
  | some dictKeys =>
    obtain ⟨hwatchers, hnodup⟩ := h.arranged_all hdict order
    have hmodes : ∀ cache ∈ order.arrange (all dictKeys), ∃ mode,
        t cache = some mode ∧ mode.Follows cache dict ∧
        Replaced s.dicts ((Event.clear dict order).change s.dicts) dict cache.name none ∧
        (mode.revise imports s.dicts cache dict none = none → mode = .both →
          cache.globals = cache.builtins) := by
      intro cache hcache
      obtain ⟨key, hw⟩ := (hwatchers cache).mp hcache
      obtain ⟨mode, hmode, -, hfollows, -, -, -, hholds⟩ := h.tracked hw
      refine ⟨mode, hmode, hfollows, hchange cache.name, fun hnone hboth => ?_⟩
      cases revise_eq_none hholds hnone hboth
    obtain ⟨m', hnotify, hm', hothers, htracks⟩ := notify_spec h hnodup hmodes
    refine ⟨m', hnotify, hm', fun cache => ?_⟩
    by_cases hw : ∃ key, s.manager.Watching cache dict key
    · have hcache := (hwatchers cache).mpr hw
      obtain ⟨mode, hmode, hfollows, -⟩ := hmodes cache hcache
      have hrevised := htracks cache hcache
      simp only [hmode, bind_some] at hrevised
      simpa only [Tracking.step, hmode, bind_some, if_pos hfollows] using hrevised
    · exact hkept cache m' (hothers cache ((hwatchers cache).not.mpr hw)) hw

theorem Refines.unwatch (h : Refines imports s t) (dict : Dict) (changed : PyDict Name Value)
    (order : WalkOrder (GlobalCache Dict Name)) :
    ∃ m', s.manager.notifyDictUnwatch order dict = some m' ∧
      Refines imports ⟨m', (Event.unwatch dict changed order).change s.dicts⟩
        (t.step imports s.dicts (.unwatch dict changed order)) := by
  have hchange : ∀ other, other ≠ dict →
      (Event.unwatch dict changed order).change s.dicts other = s.dicts other := by
    intro other hother
    rw [Event.change, Function.update_of_ne hother]
  have hkept : ∀ cache m', Same s.manager m' cache →
      (¬ ∃ key, s.manager.Watching cache dict key) →
      Tracks imports ((Event.unwatch dict changed order).change s.dicts) m' cache
        (t.step imports s.dicts (.unwatch dict changed order) cache) :=
    fun cache m' hsame hw => h.kept hchange hsame hw _
  unfold notifyDictUnwatch
  cases hdict : s.manager.watchMap.lookup dict with
  | none =>
    refine ⟨s.manager, rfl, h.wellFormed, fun cache => hkept cache _ (.refl _ cache) ?_⟩
    simp [Watching, subscribers, hdict]
  | some dictKeys =>
    obtain ⟨hwatchers, hnodup⟩ := h.arranged_all hdict order
    have hmodes : ∀ cache ∈ order.arrange (all dictKeys), ∃ mode,
        t cache = some mode ∧ mode.Follows cache dict ∧
        Tracks imports s.dicts s.manager cache (some mode) := by
      intro cache hcache
      obtain ⟨key, hw⟩ := (hwatchers cache).mp hcache
      obtain ⟨mode, hmode, -, hfollows, htracks⟩ := h.tracked hw
      exact ⟨mode, hmode, hfollows, htracks⟩
    obtain ⟨m₁, hloop, hm₁, hothers, hgone⟩ := unwatchCaches_spec h.wellFormed hnodup hmodes
    -- The erased entry held the last watches of the disabled caches, and no others.
    have herased : ∀ cache dict' key, Watching { m₁ with watchMap := m₁.watchMap.erase dict }
        cache dict' key ↔ dict' ≠ dict ∧ m₁.Watching cache dict' key := by
      intro cache dict' key
      unfold Watching
      by_cases heq : dict' = dict
      · subst heq
        simp
      · simp [subscribers_erase_ne _ heq, heq]
    refine ⟨{ m₁ with watchMap := m₁.watchMap.erase dict }, by simp [hloop],
      hm₁.withWatchMap (hm₁.tidy.erase dict), fun cache => ?_⟩
    by_cases hw : ∃ key, s.manager.Watching cache dict key
    · have hcache := (hwatchers cache).mpr hw
      obtain ⟨mode, hmode, hfollows, -⟩ := hmodes cache hcache
      obtain ⟨hout, hleft⟩ := hgone cache hcache
      simp only [Tracking.step, hmode, bind_some, if_pos hfollows]
      refine ⟨hout, fun dict' key hw' => ?_⟩
      obtain ⟨hne, hw'⟩ := (herased cache dict' key).mp hw'
      exact hne (hleft dict' key hw')
    · have hsame := hothers cache ((hwatchers cache).not.mpr hw)
      refine hkept cache _ ⟨hsame.mem, hsame.read, fun dict' key => ?_⟩ hw
      rw [herased, hsame.watching]
      exact and_iff_right_of_imp fun hw' heq => hw ⟨key, heq ▸ hw'⟩

variable {e : Event Dict Name Value}

theorem Refines.step (h : Refines imports s t) (he : e.Trusted imports s) :
    ∃ s', step imports s e = some s' ∧ Refines imports s' (t.step imports s.dicts e) := by
  have hnotify : ∃ m', e.notify imports s = some m' ∧
      Refines imports ⟨m', e.change s.dicts⟩ (t.step imports s.dicts e) := by
    cases e with
    | find builtins globals name => exact h.find ⟨builtins, globals, name⟩ he
    | update dict key value order => exact h.update dict key value order he
    | clear dict order => exact h.clear dict order
    | unwatch dict changed order => exact h.unwatch dict changed order
  obtain ⟨m', hm', hrefines⟩ := hnotify
  exact ⟨⟨m', e.change s.dicts⟩, by simp [GlobalCaches.step, hm'], hrefines⟩

theorem step_dicts (hstep : GlobalCaches.step imports s e = some s') :
    s'.dicts = e.change s.dicts := by
  simp only [GlobalCaches.step, bind_eq_bind, bind_eq_some_iff] at hstep
  obtain ⟨m', -, hs'⟩ := hstep
  cases hs'
  rfl

def Trusted (imports : LazyImports Value) :
    State Dict Name Value → List (Event Dict Name Value) → Prop
  | _, [] => True
  | s, e :: events => e.Trusted imports s ∧
      ∀ s', GlobalCaches.step imports s e = some s' → Trusted imports s' events

def Tracking.run (imports : LazyImports Value) (dicts : Dict → PyDict Name Value)
    (t : Tracking Dict Name) : List (Event Dict Name Value) → Tracking Dict Name
  | [] => t
  | e :: events => Tracking.run imports (e.change dicts) (t.step imports dicts e) events

variable {events : List (Event Dict Name Value)}

theorem Refines.run :
    ∀ {s : State Dict Name Value} {t : Tracking Dict Name}, Refines imports s t →
      Trusted imports s events → ∃ s', GlobalCaches.run imports s events = some s' ∧
        Refines imports s' (t.run imports s.dicts events) := by
  induction events with
  | nil => exact fun h _ => ⟨_, rfl, h⟩
  | cons e events ih =>
    intro s t h htrusted
    obtain ⟨s₁, hstep, h₁⟩ := h.step htrusted.1
    obtain ⟨s₂, hrun, h₂⟩ := ih h₁ (htrusted.2 s₁ hstep)
    have hdicts := step_dicts hstep
    refine ⟨s₂, ?_, by rw [Tracking.run, ← hdicts]; exact h₂⟩
    rw [GlobalCaches.run, List.foldlM_cons, hstep]
    exact hrun

/-! ## Coherence -/

structure Coherent (imports : LazyImports Value) (s : State Dict Name Value)
    (t : Tracking Dict Name) : Prop where
  /-- `map` holds the tracked caches, -/
  live : ∀ cache, cache ∈ s.manager.map ↔ ∃ mode, t cache = some mode
  /-- a cache shows the value of the name, or null when it is blind, -/
  value : ∀ cache slot, s.manager.map.lookup cache = some slot →
    t cache ≠ some .blind ∧
        s.manager.arena[slot]? = some (globalValue imports s.dicts cache) ∨
      t cache = some .blind ∧ s.manager.arena[slot]? = some none
  /-- the watches are those that the modes need, -/
  watches : ∀ cache dict key, s.manager.Watching cache dict key ↔
    ∃ mode, t cache = some mode ∧ key = cache.name ∧ mode.Follows cache dict
  /-- no empty sets are left behind, -/
  tidy : s.manager.watchMap.Tidy
  /-- and compiled code that still holds a disabled cache finds null in it. -/
  disabled : ∀ slot value, s.manager.arena[slot]? = some value →
    (∀ cache, s.manager.map.lookup cache ≠ some slot) → value = none

theorem Refines.coherent (h : Refines imports s t) : Coherent imports s t := by
  refine ⟨fun cache => ?_, fun cache slot hslot => ?_, fun cache dict key => h.watching_iff,
    h.wellFormed.tidy, h.wellFormed.freed⟩
  · have htracks := h.tracks cache
    cases hmode : t cache with
    | none =>
      rw [hmode] at htracks
      simp [htracks.1]
    | some mode =>
      rw [hmode] at htracks
      simp [htracks.1]
  · have hmem : cache ∈ s.manager.map :=
      AList.lookup_isSome.mp (isSome_iff_exists.mpr ⟨slot, hslot⟩)
    have htracks := h.tracks cache
    cases hmode : t cache with
    | none =>
      rw [hmode] at htracks
      exact absurd hmem htracks.1
    | some mode =>
      rw [hmode] at htracks
      obtain ⟨-, hread, -, -⟩ := htracks
      rw [GlobalCacheManager.read, hslot, bind_some] at hread
      by_cases hblind : mode = .blind
      · exact Or.inr ⟨by rw [hblind], by rw [hread, Mode.value, if_pos hblind]⟩
      · exact Or.inl ⟨by simpa using hblind, by rw [hread, Mode.value, if_neg hblind]⟩

def initial (dicts : Dict → PyDict Name Value) : State Dict Name Value := ⟨{}, dicts⟩

theorem Refines.initial (imports : LazyImports Value) (dicts : Dict → PyDict Name Value) :
    Refines imports (initial dicts) fun _ => none :=
  ⟨.initial, fun cache => ⟨AList.notMem_empty cache, fun _ _ => List.not_mem_nil⟩⟩

theorem Refines.stale_of_not_trusted (h : Refines imports s t) (he : ¬ e.Trusted imports s)
    (hstep : GlobalCaches.step imports s e = some s') :
    ∃ cache dict key, s'.manager.Watching cache dict key ∧ cache ∉ s'.manager.map := by
  simp only [GlobalCaches.step, bind_eq_bind, bind_eq_some_iff] at hstep
  obtain ⟨m', hnotify, hs'⟩ := hstep
  cases hs'
  cases e with
  | clear dict order => exact absurd trivial he
  | unwatch dict changed order => exact absurd trivial he
  | find builtins globals name =>
    have hglobals : (s.dicts globals).hasOnlyUnicodeKeys = false := by
      simpa [Event.Trusted] using he
    have htracks := h.tracks ⟨builtins, globals, name⟩
    cases hmode : t ⟨builtins, globals, name⟩ with
    | none =>
      rw [hmode] at htracks
      simp [Event.notify, findGlobalCache, htracks.1, initCache, hglobals] at hnotify
    | some mode =>
      rw [hmode] at htracks
      have hunicode := htracks.2.2.2.globals
      rw [hglobals] at hunicode
      cases hunicode
  | update dict key value order =>
    simp only [Event.Trusted, not_forall, not_not] at he
    obtain ⟨hlazy, cache, hw, hne, hglobals, hbuiltins⟩ := he
    obtain ⟨v, rfl, hv⟩ : ∃ v, value = some v ∧ imports.checkExact v = true := by
      cases value with
      | none => cases hlazy
      | some v => exact ⟨v, rfl, by simpa using hlazy⟩
    obtain ⟨dictKeys, hdict, hkeys⟩ := mem_subscribers_iff.mp hw
    obtain ⟨keyWatchers, hkey, hcache⟩ := mem_ofKeys_iff.mp hkeys
    simp only [Event.notify, notifyDictUpdate, hdict, hkey, updateCaches_lazy hv,
      bind_eq_bind, bind_some] at hnotify
    obtain ⟨hwatchers, hnodup⟩ := h.arranged_key hdict hkey order
    obtain ⟨m₁, hdisabled, -, -, hgone⟩ :=
      disableCaches_spec h.wellFormed hnodup fun other hother => by
        obtain ⟨mode, -, -, -, hmem, -, hwatch, -⟩ := h.tracked ((hwatchers other).mp hother)
        exact ⟨hmem, (hwatch _ _).mpr ⟨rfl, Or.inl rfl⟩⟩
    obtain rfl : m₁ = m' := Option.some.inj (hdisabled.symm.trans hnotify)
    obtain ⟨hout, hwatching⟩ := hgone cache ((hwatchers cache).mpr hw)
    exact ⟨cache, cache.builtins, key,
      (hwatching _ _).mpr ⟨hbuiltins, fun heq => hne heq.1.symm⟩, hout⟩

theorem trusted_mono {pre : List (Event Dict Name Value)} (hpre : pre <+: events) :
    ∀ {s : State Dict Name Value}, Trusted imports s events → Trusted imports s pre := by
  obtain ⟨post, rfl⟩ := hpre
  induction pre with
  | nil => exact fun _ => trivial
  | cons e pre ih => exact fun h => ⟨h.1, fun s' hstep => ih (h.2 s' hstep)⟩

theorem trusted_of_coherent :
    ∀ {s : State Dict Name Value} {t : Tracking Dict Name}, Refines imports s t →
      (∀ pre, pre <+: events → ∃ s', GlobalCaches.run imports s pre = some s' ∧
        Coherent imports s' (t.run imports s.dicts pre)) → Trusted imports s events := by
  induction events with
  | nil => exact fun _ _ => trivial
  | cons e events ih =>
    intro s t h hruns
    have he : e.Trusted imports s := by
      by_contra hnot
      obtain ⟨s', hrun, hcoherent⟩ := hruns [e] ⟨events, rfl⟩
      have hstep : GlobalCaches.step imports s e = some s' := by
        simpa [GlobalCaches.run] using hrun
      obtain ⟨cache, dict, key, hw, hout⟩ := h.stale_of_not_trusted hnot hstep
      obtain ⟨mode, hmode, -⟩ := (hcoherent.watches cache dict key).mp hw
      exact hout ((hcoherent.live cache).mpr ⟨mode, hmode⟩)
    obtain ⟨s₁, hstep, h₁⟩ := h.step he
    refine ⟨he, fun s' hstep' => ?_⟩
    obtain rfl : s₁ = s' := Option.some.inj (hstep.symm.trans hstep')
    have hdicts := step_dicts hstep
    refine ih h₁ fun pre hpre => ?_
    obtain ⟨s₂, hrun, hcoherent⟩ := hruns (e :: pre) (List.prefix_cons_inj e |>.mpr hpre)
    rw [GlobalCaches.run, List.foldlM_cons, hstep] at hrun
    exact ⟨s₂, hrun, by rw [hdicts]; exact hcoherent⟩

/-- Every state that a run passes is reached without a failed check and coherent, if and only
if every step of the run can be trusted. -/
theorem caches_coherent_iff (imports : LazyImports Value) (dicts : Dict → PyDict Name Value)
    (events : List (Event Dict Name Value)) :
    (∀ pre, pre <+: events → ∃ s, run imports (initial dicts) pre = some s ∧
      Coherent imports s (Tracking.run imports dicts (fun _ => none) pre)) ↔
      Trusted imports (initial dicts) events := by
  constructor
  · exact trusted_of_coherent (Refines.initial imports dicts)
  · intro h pre hpre
    obtain ⟨s, hrun, hrefines⟩ :=
      (Refines.initial imports dicts).run (trusted_mono hpre h)
    exact ⟨s, hrun, hrefines.coherent⟩

/-- The cache of a name in neither dictionary follows both.  A lazy import put into the
globals disables it, but the builtins still name it: once the global is deleted, the next
builtin of that name is written through a pair that is gone. -/
theorem lazyImport_leaves_watch :
    ∃ (imports : LazyImports Bool) (order : WalkOrder (GlobalCache Bool Unit))
      (dicts : Bool → PyDict Unit Bool) (s : State Bool Unit Bool),
      run imports (initial dicts) [.find true false (), .update false () (some true) order] =
          some s ∧
        s.manager.Watching ⟨true, false, ()⟩ true () ∧ ⟨true, false, ()⟩ ∉ s.manager.map ∧
        run imports s [.update false () none order, .update true () (some false) order] = none := by
  let imports : LazyImports Bool := ⟨id, fun _ => some false, by decide⟩
  let order : WalkOrder (GlobalCache Bool Unit) := ⟨id, List.Perm.refl⟩
  let cache : GlobalCache Bool Unit := ⟨true, false, ()⟩
  refine ⟨imports, order, fun _ => ⟨fun _ => none, true⟩, _, rfl, ?_, ?_, rfl⟩
  · exact List.mem_singleton.mpr rfl
  · exact AList.notMem_empty cache

end CinderX.Jit.GlobalCaches
