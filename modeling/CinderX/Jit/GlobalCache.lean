import CinderX.Foundation.Subscriptions

/-!
# Caches of global values

The manager of `Jit/global_cache.cpp` in a world of dictionaries.  A check that fails,
and a read of a cache that `map` does not hold any more, give `none`.
-/

namespace CinderX.Jit.GlobalCaches

open Foundation

variable {Dict Name Value : Type} [DecidableEq Dict] [DecidableEq Name]

structure GlobalCacheKey (Dict Name : Type) where
  builtins : Dict
  globals : Dict
  name : Name
  deriving DecidableEq

/-- A cache is the address of its pair in `map`.  A pair keeps its key for as long as it is
there, so the key stands for the address. -/
abbrev GlobalCache (Dict Name : Type) := GlobalCacheKey Dict Name

structure PyDict (Name Value : Type) where
  items : Name → Option Value
  hasOnlyUnicodeKeys : Bool

/-- What `PyLazyImport_CheckExact` says of a value, and the value that an import is
replaced by when a lookup meets it.  Without lazy imports nothing is one. -/
structure LazyImports (Value : Type) where
  checkExact : Value → Bool
  load : Value → Option Value
  load_value : ∀ v, checkExact v = false → load v = some v

/-- `PyDict_GetItem`: an import that fails to load is looked over.  What the imported code
does to dictionaries are events of their own. -/
def LazyImports.getItem (imports : LazyImports Value) (dict : PyDict Name Value)
    (key : Name) : Option Value :=
  (dict.items key).bind imports.load

structure WalkOrder (α : Type) where
  arrange : List α → List α
  perm : ∀ l, (arrange l).Perm l

/-! ## The manager -/

structure GlobalCacheManager (Dict Name Value : Type) [DecidableEq Dict] [DecidableEq Name] where
  arena : List (Option Value) := []
  map : AList fun _ : GlobalCacheKey Dict Name => Nat := ∅
  watchMap : Subscriptions Dict Name (GlobalCache Dict Name) := ∅

namespace GlobalCacheManager

variable (m : GlobalCacheManager Dict Name Value)

def setValue (cache : GlobalCache Dict Name) (value : Option Value) :
    Option (GlobalCacheManager Dict Name Value) :=
  match m.map.lookup cache with
  | some slot => some { m with arena := m.arena.set slot value }
  | none => none

def isWatchedDictKey (dict : Dict) (key : Name) (cache : GlobalCache Dict Name) : Bool :=
  match m.watchMap.lookup dict with
  | none => false
  | some dictKeys =>
    match dictKeys.lookup key with
    | some keyWatchers => decide (cache ∈ keyWatchers)
    | none => false

def watchDictKey (dict : Dict) (key : Name) (cache : GlobalCache Dict Name) :
    Option (GlobalCacheManager Dict Name Value) :=
  let dictKeys := (m.watchMap.lookup dict).getD ∅
  let watchers := (dictKeys.lookup key).getD []
  if cache ∈ watchers then none
  else
    some { m with watchMap := m.watchMap.insert dict (dictKeys.insert key (cache :: watchers)) }

def unwatchDictKey (dict : Dict) (key : Name) (cache : GlobalCache Dict Name) :
    Option (GlobalCacheManager Dict Name Value) :=
  match m.watchMap.lookup dict with
  | none => none
  | some dictKeys =>
    match dictKeys.lookup key with
    | none => none
    | some keyWatchers =>
      if cache ∈ keyWatchers then
        let keyWatchers := keyWatchers.erase cache
        if keyWatchers.isEmpty then
          let dictKeys := dictKeys.erase key
          if dictKeys.entries.isEmpty then
            some { m with watchMap := m.watchMap.erase dict }
          else some { m with watchMap := m.watchMap.insert dict dictKeys }
        else
          some { m with watchMap := m.watchMap.insert dict (dictKeys.insert key keyWatchers) }
      else none

def disableCache (cache : GlobalCache Dict Name) : Option (GlobalCacheManager Dict Name Value) :=
  match m.setValue cache none with
  | some m => some { m with map := m.map.erase cache }
  | none => none

def disableCaches (m : GlobalCacheManager Dict Name Value) :
    List (GlobalCache Dict Name) → Option (GlobalCacheManager Dict Name Value)
  | [] => some m
  | cache :: caches => do
      let m ← m.disableCache cache
      let m ← m.unwatchDictKey cache.globals cache.name cache
      m.disableCaches caches

variable (imports : LazyImports Value) (dicts : Dict → PyDict Name Value)

/-- The pair of `cache` is new.  Its value lies in the next slot of the arena, which is
null. -/
def initCache (cache : GlobalCache Dict Name) : Option (GlobalCacheManager Dict Name Value) :=
  let m := { m with
    arena := m.arena ++ [none]
    map := m.map.insert cache m.arena.length }
  if (dicts cache.globals).hasOnlyUnicodeKeys then do
    let m ← m.watchDictKey cache.globals cache.name cache
    match imports.getItem (dicts cache.globals) cache.name with
    | some globalsValue => m.setValue cache (some globalsValue)
    | none =>
      if (dicts cache.builtins).hasOnlyUnicodeKeys then do
        let m ← m.setValue cache (imports.getItem (dicts cache.builtins) cache.name)
        if cache.globals ≠ cache.builtins then m.watchDictKey cache.builtins cache.name cache
        else some m
      else some m
  else none

def findGlobalCache (key : GlobalCacheKey Dict Name) :
    Option (GlobalCacheManager Dict Name Value) :=
  if key ∈ m.map then some m else m.initCache imports dicts key

def updateCache (cache : GlobalCache Dict Name) (dict : Dict) (newValue : Option Value) :
    Option (GlobalCacheManager Dict Name Value × Bool) :=
  if newValue.any imports.checkExact then some (m, true)
  else if dict = cache.globals then
    if newValue.isNone ∧ cache.globals ≠ cache.builtins then
      if (dicts cache.builtins).hasOnlyUnicodeKeys then do
        let m ← m.setValue cache (imports.getItem (dicts cache.builtins) cache.name)
        if m.isWatchedDictKey cache.builtins cache.name cache then some (m, false)
        else do
          let m ← m.watchDictKey cache.builtins cache.name cache
          some (m, false)
      else some (m, true)
    else do
      let m ← m.setValue cache newValue
      some (m, false)
  else if dict = cache.builtins ∧ (dicts cache.globals).hasOnlyUnicodeKeys then
    if (imports.getItem (dicts cache.globals) cache.name).isNone then do
      let m ← m.setValue cache newValue
      some (m, false)
    else some (m, false)
  else none

def updateCaches (m : GlobalCacheManager Dict Name Value) (dict : Dict)
    (newValue : Option Value) : List (GlobalCache Dict Name) →
    Option (GlobalCacheManager Dict Name Value × List (GlobalCache Dict Name))
  | [] => some (m, [])
  | cache :: caches => do
      let (m, disable) ← m.updateCache imports dicts cache dict newValue
      let (m, toDisable) ← m.updateCaches dict newValue caches
      some (m, if disable then cache :: toDisable else toDisable)

variable (order : WalkOrder (GlobalCache Dict Name))

def notifyDictUpdate (dict : Dict) (key : Name) (value : Option Value) :
    Option (GlobalCacheManager Dict Name Value) :=
  match m.watchMap.lookup dict with
  | none => some m
  | some dictKeys =>
    match dictKeys.lookup key with
    | none => some m
    | some keyWatchers => do
        let (m, toDisable) ← m.updateCaches imports dicts dict value (order.arrange keyWatchers)
        m.disableCaches toDisable

def notifyDictClear (dict : Dict) : Option (GlobalCacheManager Dict Name Value) :=
  match m.watchMap.lookup dict with
  | none => some m
  | some dictKeys => do
      let (m, toDisable) ←
        m.updateCaches imports dicts dict none (order.arrange (Subscriptions.all dictKeys))
      m.disableCaches toDisable

def unwatchOther (dict : Dict) (cache : GlobalCache Dict Name) :
    Option (GlobalCacheManager Dict Name Value) :=
  if cache.globals ≠ cache.builtins then
    if dict = cache.globals then
      if m.isWatchedDictKey cache.builtins cache.name cache then
        m.unwatchDictKey cache.builtins cache.name cache
      else some m
    else m.unwatchDictKey cache.globals cache.name cache
  else some m

def unwatchCaches (m : GlobalCacheManager Dict Name Value) (dict : Dict) :
    List (GlobalCache Dict Name) → Option (GlobalCacheManager Dict Name Value)
  | [] => some m
  | cache :: caches => do
      let m ← m.unwatchOther dict cache
      let m ← m.disableCache cache
      m.unwatchCaches dict caches

def notifyDictUnwatch (dict : Dict) : Option (GlobalCacheManager Dict Name Value) :=
  match m.watchMap.lookup dict with
  | none => some m
  | some dictKeys => do
      let m ← m.unwatchCaches dict (order.arrange (Subscriptions.all dictKeys))
      some { m with watchMap := m.watchMap.erase dict }

end GlobalCacheManager

structure State (Dict Name Value : Type) [DecidableEq Dict] [DecidableEq Name] where
  manager : GlobalCacheManager Dict Name Value
  dicts : Dict → PyDict Name Value

/-- What happens to the caches and to the dictionaries.  Any dictionary can become any
other after `unwatch`: a key that is no string, the contents of another dictionary, or a
new dictionary at the address of a freed one. -/
inductive Event (Dict Name Value : Type)
  | find (builtins globals : Dict) (name : Name)
  | update (dict : Dict) (key : Name) (value : Option Value)
      (order : WalkOrder (GlobalCache Dict Name))
  | clear (dict : Dict) (order : WalkOrder (GlobalCache Dict Name))
  | unwatch (dict : Dict) (changed : PyDict Name Value)
      (order : WalkOrder (GlobalCache Dict Name))

def Event.change (dicts : Dict → PyDict Name Value) :
    Event Dict Name Value → Dict → PyDict Name Value
  | .find _ _ _ => dicts
  | .update dict key value _ =>
    Function.update dicts dict
      { dicts dict with items := Function.update (dicts dict).items key value }
  | .clear dict _ => Function.update dicts dict ⟨fun _ => none, true⟩
  | .unwatch dict changed _ => Function.update dicts dict changed

def Event.notify (imports : LazyImports Value) (s : State Dict Name Value) :
    Event Dict Name Value → Option (GlobalCacheManager Dict Name Value)
  | .find builtins globals name =>
    s.manager.findGlobalCache imports s.dicts ⟨builtins, globals, name⟩
  | .update dict key value order =>
    s.manager.notifyDictUpdate imports s.dicts order dict key value
  | .clear dict order => s.manager.notifyDictClear imports s.dicts order dict
  | .unwatch dict _ order => s.manager.notifyDictUnwatch order dict

def step (imports : LazyImports Value) (s : State Dict Name Value)
    (e : Event Dict Name Value) : Option (State Dict Name Value) := do
  let manager ← e.notify imports s
  some ⟨manager, e.change s.dicts⟩

def run (imports : LazyImports Value) (s : State Dict Name Value)
    (events : List (Event Dict Name Value)) : Option (State Dict Name Value) :=
  events.foldlM (step imports) s

end CinderX.Jit.GlobalCaches
