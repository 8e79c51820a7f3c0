import CinderX.Foundation.Basic

/-!
# Call stacks in debug information

`DebugInfo` stores the call stack of an address as a node of a graph: a
location and the number of the node of its caller.  Code objects and callers
are looked up in tables before they are added, so that equal stacks share their
nodes, and different stacks never do.
-/

namespace CinderX.Jit.DebugInfo

open List Option

section Intern

variable {α : Type*} [DecidableEq α]

def intern (limit : Nat) (table : List α) (value : α) : Option (List α × Nat) :=
  match table.idxOf? value with
  | some i => some (table, i)
  | none => if table.length < limit then some (table ++ [value], table.length) else none

variable {limit i : Nat} {table table' : List α} {value : α}

omit [DecidableEq α] in
theorem getElem?_of_prefix (h : table <+: table') (hvalue : table[i]? = some value) :
    table'[i]? = some value := by
  obtain ⟨more, rfl⟩ := h
  exact getElem?_append_left (List.getElem?_eq_some_iff.mp hvalue).1 ▸ hvalue

variable (value) in
theorem intern_isSome (hroom : table.length < limit) :
    ∃ table' i, intern limit table value = some (table', i) ∧ table'.length ≤ table.length + 1 := by
  unfold intern
  cases hfound : table.idxOf? value with
  | some j => exact ⟨table, j, rfl, Nat.le_succ _⟩
  | none => exact ⟨table ++ [value], table.length, if_pos hroom, by simp⟩

theorem intern_spec (h : intern limit table value = some (table', i))
    (hlength : table.length ≤ limit)
    (hnodup : table.Nodup) :
    table <+: table' ∧ table'[i]? = some value ∧ i < limit ∧ table'.length ≤ limit ∧
      table'.Nodup ∧ (table' = table ∨ (i = table.length ∧ table' = table ++ [value])) := by
  unfold intern at h
  cases hfound : table.idxOf? value with
  | some j =>
    simp only [hfound, Option.some.injEq, Prod.mk.injEq] at h
    obtain ⟨rfl, rfl⟩ := h
    obtain ⟨hlt, hvalue, -⟩ := idxOf?_eq_some_iff.mp hfound
    exact ⟨prefix_rfl, List.getElem?_eq_some_iff.mpr ⟨hlt, hvalue⟩, by omega, hlength, hnodup,
      Or.inl rfl⟩
  | none =>
    simp only [hfound] at h
    split at h
    next hroom =>
      simp only [Option.some.injEq, Prod.mk.injEq] at h
      obtain ⟨rfl, rfl⟩ := h
      have hmissing := idxOf?_eq_none_iff.mp hfound
      refine ⟨prefix_append .., by simp, hroom, by simpa [Nat.succ_le_iff] using hroom, ?_,
        Or.inr ⟨rfl, rfl⟩⟩
      rw [nodup_append']
      exact ⟨hnodup, nodup_singleton _, by simpa using hmissing⟩
    next => cases h

end Intern

variable {Code : Type}

structure CodeObjLoc (Code : Type) where
  code : Code
  instrOffset : Int
  deriving DecidableEq, Repr

abbrev UnitCallStack (Code : Type) := List (CodeObjLoc Code)

/-- `LocNode`: the numbers of the code object and of the caller, and the bytecode offset. -/
structure LocNode where
  codeObjId : Nat
  callerId : Nat
  bcOff : Int
  deriving DecidableEq, Repr

def kNoCallerID : Nat := 65535

def kMaxInlined : Nat := kNoCallerID - 1

def kMaxCodeObjs : Nat := 65535

/-- The tables of a unit; `emplace` leaves the entry that an address has. -/
structure Tables (Code : Type) where
  codeObjs : List Code
  inlinedCalls : List LocNode
  addrLocs : UInt64 → Option LocNode

def LocNode.hasCaller (node : LocNode) : Bool := node.callerId ≠ kNoCallerID

namespace Tables

def empty : Tables Code := ⟨[], [], fun _ => none⟩

section Add

variable [DecidableEq Code]

/-- The check for too many code objects has no result when it fails. -/
def getCodeObjID (info : Tables Code) (code : Code) : Option (Tables Code × Nat) := do
  let (codeObjs, id) ← intern kMaxCodeObjs info.codeObjs code
  return ({ info with codeObjs := codeObjs }, id)

def getCallerID (info : Tables Code) : List (CodeObjLoc Code) → Option (Tables Code × Nat)
  | [] => some (info, kNoCallerID)
  | caller :: parents => do
      let (info, codeObjId) ← info.getCodeObjID caller.code
      let (info, callerId) ← info.getCallerID parents
      let node : LocNode := ⟨codeObjId, callerId, caller.instrOffset⟩
      let (inlinedCalls, id) ← intern kMaxInlined info.inlinedCalls node
      return ({ info with inlinedCalls := inlinedCalls }, id)

def addUnitCallStack (info : Tables Code) (addr : UInt64) (loc : CodeObjLoc Code)
    (callers : List (CodeObjLoc Code)) : Option (Tables Code) := do
  let (info, callerId) ← info.getCallerID callers
  let (info, codeObjId) ← info.getCodeObjID loc.code
  return { info with
    addrLocs :=
      match info.addrLocs addr with
      | some _ => info.addrLocs
      | none => Function.update info.addrLocs addr (some ⟨codeObjId, callerId, loc.instrOffset⟩) }

end Add

def getCodeObjLoc (info : Tables Code) (node : LocNode) : Option (CodeObjLoc Code) :=
  (info.codeObjs[node.codeObjId]?).map fun code => ⟨code, node.bcOff⟩

def walkCallers (info : Tables Code) :
    Nat → LocNode → UnitCallStack Code → Option (UnitCallStack Code)
  | 0, node, stack => if node.hasCaller then none else some stack
  | fuel + 1, node, stack =>
    if node.hasCaller then do
      let caller ← info.inlinedCalls[node.callerId]?
      let loc ← info.getCodeObjLoc caller
      info.walkCallers fuel caller (stack ++ [loc])
    else some stack

/-- The inner `none` is `std::nullopt`. -/
def getUnitCallStack (info : Tables Code) (addr : UInt64) : Option (Option (UnitCallStack Code)) :=
  match info.addrLocs addr with
  | none => some none
  | some node => do
      let loc ← info.getCodeObjLoc node
      let stack ← info.walkCallers info.inlinedCalls.length node [loc]
      return some stack.reverse

end Tables

/-! ## What a node stands for -/

namespace Tables

variable {info info' : Tables Code} {id : Nat} {node : LocNode} {loc : CodeObjLoc Code}
  {callers : List (CodeObjLoc Code)}

/-- The number of a caller stands for the stack of callers, the innermost first. -/
def Chain (info : Tables Code) : Nat → List (CodeObjLoc Code) → Prop
  | id, [] => id = kNoCallerID
  | id, caller :: parents => id ≠ kNoCallerID ∧ ∃ node : LocNode, info.inlinedCalls[id]? =
      some node ∧
      info.getCodeObjLoc node = some caller ∧ info.Chain node.callerId parents

structure Represents (info : Tables Code) (node : LocNode) (loc : CodeObjLoc Code)
    (callers : List (CodeObjLoc Code)) : Prop where
  loc : info.getCodeObjLoc node = some loc
  callers : info.Chain node.callerId callers

/-- Both tables are without duplicates and within their limits, and callers come before callees. -/
structure WellFormed (info : Tables Code) : Prop where
  nodupCodes : info.codeObjs.Nodup
  nodupCalls : info.inlinedCalls.Nodup
  codes_le : info.codeObjs.length ≤ kMaxCodeObjs
  calls_le : info.inlinedCalls.length ≤ kMaxInlined
  caller_lt : ∀ (id : Nat) (node : LocNode), info.inlinedCalls[id]? = some node →
    node.callerId = kNoCallerID ∨ node.callerId < id

structure Extends (info info' : Tables Code) : Prop where
  codes : info.codeObjs <+: info'.codeObjs
  calls : info.inlinedCalls <+: info'.inlinedCalls

theorem Extends.trans {info'' : Tables Code} (h : info.Extends info') (h' : info'.Extends info'') :
    info.Extends info'' :=
  ⟨h.codes.trans h'.codes, h.calls.trans h'.calls⟩

theorem Extends.getCodeObjLoc (h : info.Extends info') (hloc : info.getCodeObjLoc node = some loc) :
    info'.getCodeObjLoc node = some loc := by
  obtain ⟨code, hcode, rfl⟩ := map_eq_some_iff.mp hloc
  exact map_eq_some_iff.mpr ⟨code, getElem?_of_prefix h.codes hcode, rfl⟩

theorem Extends.chain (h : info.Extends info') (hchain : info.Chain id callers) :
    info'.Chain id callers := by
  induction callers generalizing id with
  | nil => exact hchain
  | cons caller parents ih =>
    obtain ⟨hid, node, hnode, hloc, hparents⟩ := hchain
    exact ⟨hid, node, getElem?_of_prefix h.calls hnode, h.getCodeObjLoc hloc, ih hparents⟩

theorem Chain.of_tables (h : info.Chain id callers) (hcodes : info'.codeObjs = info.codeObjs)
    (hcalls : info'.inlinedCalls = info.inlinedCalls) : info'.Chain id callers :=
  Extends.chain ⟨hcodes ▸ prefix_rfl, hcalls ▸ prefix_rfl⟩ h

theorem Extends.represents (h : info.Extends info') (hrep : info.Represents node loc callers) :
    info'.Represents node loc callers :=
  ⟨h.getCodeObjLoc hrep.loc, h.chain hrep.callers⟩

variable {callers' : List (CodeObjLoc Code)} {node' : LocNode}

theorem Chain.unique (h : info.Chain id callers)
    (h' : info.Chain id callers') : callers = callers' := by
  induction callers generalizing id callers' with
  | nil =>
    cases callers' with
    | nil => rfl
    | cons _ _ => exact absurd h h'.1
  | cons caller parents ih =>
    obtain ⟨hid, node, hnode, hloc, hparents⟩ := h
    cases callers' with
    | nil => exact absurd h' hid
    | cons caller' parents' =>
      obtain ⟨-, node', hnode', hloc', hparents'⟩ := h'
      obtain rfl := Option.some.inj (hnode.symm.trans hnode')
      obtain rfl := Option.some.inj (hloc.symm.trans hloc')
      rw [ih hparents hparents']

theorem codeObjId_inj (hwf : info.WellFormed)
    (h : info.getCodeObjLoc node = some loc) (h' : info.getCodeObjLoc node' = some loc) :
    node.codeObjId = node'.codeObjId ∧ node.bcOff = node'.bcOff := by
  obtain ⟨code, hcode, rfl⟩ := map_eq_some_iff.mp h
  obtain ⟨code', hcode', heq⟩ := map_eq_some_iff.mp h'
  obtain ⟨rfl, hoff⟩ := CodeObjLoc.mk.inj heq
  obtain ⟨hlt, hget⟩ := List.getElem?_eq_some_iff.mp hcode
  exact ⟨hwf.nodupCodes.getElem_inj_iff.mp
    (hget.trans (List.getElem?_eq_some_iff.mp hcode').2.symm),
    hoff.symm⟩

theorem Chain.inj (hwf : info.WellFormed) {id' : Nat} (h : info.Chain id callers)
    (h' : info.Chain id' callers) : id = id' := by
  induction callers generalizing id id' with
  | nil => exact h.trans h'.symm
  | cons caller parents ih =>
    obtain ⟨-, node, hnode, hloc, hparents⟩ := h
    obtain ⟨-, node', hnode', hloc', hparents'⟩ := h'
    obtain ⟨hcode, hoff⟩ := codeObjId_inj hwf hloc hloc'
    have hcaller := ih hparents hparents'
    have hsame : node = node' := by
      cases node
      cases node'
      simp_all
    obtain ⟨hlt, hget⟩ := List.getElem?_eq_some_iff.mp hnode
    obtain ⟨hlt', hget'⟩ := List.getElem?_eq_some_iff.mp hnode'
    exact hwf.nodupCalls.getElem_inj_iff.mp (hget.trans (hsame.trans hget'.symm))

theorem represents_inj (hwf : info.WellFormed) {loc' : CodeObjLoc Code}
    (h : info.Represents node loc callers)
    (h' : info.Represents node' loc' callers') :
    node = node' ↔ loc :: callers = loc' :: callers' := by
  constructor
  · rintro rfl
    obtain rfl := Option.some.inj (h.loc.symm.trans h'.loc)
    rw [h.callers.unique h'.callers]
  · intro heq
    cases heq
    obtain ⟨hcode, hoff⟩ := codeObjId_inj hwf h.loc h'.loc
    have hcaller := h.callers.inj hwf h'.callers
    cases node
    cases node'
    simp_all

theorem length_le_of_chain (hwf : info.WellFormed) (h : info.Chain id callers)
    (hid : id = kNoCallerID ∨ id < info.inlinedCalls.length) :
    callers.length ≤ if id = kNoCallerID then 0 else id + 1 := by
  induction callers generalizing id with
  | nil => exact Nat.zero_le _
  | cons caller parents ih =>
    obtain ⟨hne, node, hnode, -, hparents⟩ := h
    have hlt := hid.resolve_left hne
    have hcaller := hwf.caller_lt id node hnode
    have hlength := ih hparents (hcaller.imp_right fun hcallerLt => Nat.lt_trans hcallerLt hlt)
    rw [if_neg hne, length_cons]
    split at hlength
    · omega
    next hcallerNe =>
      have hcallerLt := hcaller.resolve_left hcallerNe
      omega

theorem walkCallers_eq {fuel : Nat} {stack : UnitCallStack Code}
    (h : info.Chain node.callerId callers)
    (hfuel : callers.length ≤ fuel) :
    info.walkCallers fuel node stack = some (stack ++ callers) := by
  induction callers generalizing fuel node stack with
  | nil =>
    have hnone : node.hasCaller = false := by simpa [LocNode.hasCaller, Chain] using h
    cases fuel <;> simp [walkCallers, hnone]
  | cons caller parents ih =>
    obtain ⟨hid, callerNode, hnode, hloc, hparents⟩ := h
    have hsome : node.hasCaller = true := by simpa [LocNode.hasCaller] using hid
    cases fuel with
    | zero => cases hfuel
    | succ fuel =>
      simp only [walkCallers, hsome, if_true, hnode, hloc, bind_eq_bind, bind_some]
      rw [ih hparents (Nat.le_of_succ_le_succ hfuel), append_assoc]
      rfl

theorem getUnitCallStack_eq (hwf : info.WellFormed) {addr : UInt64}
    (hnode : info.addrLocs addr = some node) (h : info.Represents node loc callers)
    (hcaller : node.callerId = kNoCallerID ∨ node.callerId < info.inlinedCalls.length) :
    info.getUnitCallStack addr = some (some (loc :: callers).reverse) := by
  have hlength : callers.length ≤ info.inlinedCalls.length := by
    have hle := length_le_of_chain hwf h.callers hcaller
    split at hle
    · omega
    next hne =>
      have hlt := hcaller.resolve_left hne
      omega
  simp only [getUnitCallStack, hnode, h.loc, bind_eq_bind, bind_some,
    walkCallers_eq h.callers hlength, singleton_append, Option.pure_def]

theorem chain_lt (h : info.Chain id callers) :
    id = kNoCallerID ∨ id < info.inlinedCalls.length := by
  cases callers with
  | nil => exact Or.inl h
  | cons caller parents =>
    obtain ⟨-, node, hnode, -⟩ := h
    exact Or.inr (List.getElem?_eq_some_iff.mp hnode).1

section Add

variable [DecidableEq Code] {code : Code}

theorem getCodeObjID_spec (hwf : info.WellFormed) (h : info.getCodeObjID code = some (info', id)) :
    info'.WellFormed ∧ info.Extends info' ∧ info'.addrLocs = info.addrLocs ∧
      info'.codeObjs[id]? = some code := by
  unfold getCodeObjID at h
  simp only [bind_eq_bind, bind_eq_some_iff, Option.pure_def, Option.some.injEq,
    Prod.mk.injEq] at h
  obtain ⟨⟨codeObjs, i⟩, hintern, rfl, rfl⟩ := h
  obtain ⟨hextended, hvalue, -, hlength, hnodup, -⟩ :=
    intern_spec hintern hwf.codes_le hwf.nodupCodes
  exact ⟨{ hwf with nodupCodes := hnodup, codes_le := hlength }, ⟨hextended, prefix_rfl⟩, rfl,
    hvalue⟩

theorem getCallerID_spec (hwf : info.WellFormed) (h : info.getCallerID callers = some (info', id)) :
    info'.WellFormed ∧ info.Extends info' ∧ info'.addrLocs = info.addrLocs ∧
      info'.Chain id callers := by
  induction callers generalizing info info' id with
  | nil =>
    cases h
    exact ⟨hwf, ⟨prefix_rfl, prefix_rfl⟩, rfl, rfl⟩
  | cons caller parents ih =>
    unfold getCallerID at h
    simp only [bind_eq_bind, bind_eq_some_iff, Option.pure_def, Option.some.injEq,
      Prod.mk.injEq] at h
    obtain ⟨⟨info₁, codeObjId⟩, hcodeObj, ⟨info₂, callerId⟩, hparents, ⟨calls, i⟩, hintern,
      rfl, rfl⟩ := h
    obtain ⟨hwf₁, hextends₁, haddrs₁, hcode⟩ := getCodeObjID_spec hwf hcodeObj
    obtain ⟨hwf₂, hextends₂, haddrs₂, hchain⟩ := ih hwf₁ hparents
    obtain ⟨hextended, hvalue, hlimit, hlength, hnodup, hcases⟩ :=
      intern_spec hintern hwf₂.calls_le hwf₂.nodupCalls
    have hextends : info₂.Extends { info₂ with inlinedCalls := calls } :=
      ⟨prefix_rfl, hextended⟩
    have hcallerLt := chain_lt hchain
    refine ⟨{ hwf₂ with nodupCalls := hnodup, calls_le := hlength, caller_lt := ?_ },
      (hextends₁.trans hextends₂).trans hextends, haddrs₂.trans haddrs₁, ?_, _, hvalue, ?_,
      hextends.chain hchain⟩
    · intro j node hnode
      obtain rfl | ⟨rfl, rfl⟩ := hcases
      · exact hwf₂.caller_lt j node hnode
      · by_cases hj : j < info₂.inlinedCalls.length
        · simp only [getElem?_append_left hj] at hnode
          exact hwf₂.caller_lt j node hnode
        · have hlast : j = info₂.inlinedCalls.length := by
            have hlt := (List.getElem?_eq_some_iff.mp hnode).1
            simp only [length_append, length_singleton] at hlt
            omega
          simp only [hlast, getElem?_concat_length, Option.some.injEq] at hnode
          subst hnode hlast
          exact hcallerLt
    · have hne : i ≠ kNoCallerID := fun heq => absurd (heq ▸ hlimit) (by decide)
      exact hne
    · have hcode₂ := getElem?_of_prefix hextends₂.codes hcode
      exact map_eq_some_iff.mpr ⟨_, hcode₂, rfl⟩

theorem addUnitCallStack_spec (hwf : info.WellFormed) {addr : UInt64}
    (h : info.addUnitCallStack addr loc callers = some info') :
    info'.WellFormed ∧ info.Extends info' ∧
      (∀ node, info.addrLocs addr = some node → info'.addrLocs = info.addrLocs) ∧
      (info.addrLocs addr = none → ∃ node, info'.Represents node loc callers ∧
        info'.addrLocs = Function.update info.addrLocs addr (some node)) := by
  unfold addUnitCallStack at h
  simp only [bind_eq_bind, bind_eq_some_iff, Option.pure_def, Option.some.injEq] at h
  obtain ⟨⟨info₁, callerId⟩, hcaller, ⟨info₂, codeObjId⟩, hcodeObj, rfl⟩ := h
  obtain ⟨hwf₁, hextends₁, haddrs₁, hchain⟩ := getCallerID_spec hwf hcaller
  obtain ⟨hwf₂, hextends₂, haddrs₂, hcode⟩ := getCodeObjID_spec hwf₁ hcodeObj
  have hsame : info₂.addrLocs = info.addrLocs := haddrs₂.trans haddrs₁
  refine ⟨{ hwf₂ with }, ⟨(hextends₁.trans hextends₂).codes, (hextends₁.trans hextends₂).calls⟩,
    fun node hnode => ?_, fun hnone => ⟨⟨codeObjId, callerId, loc.instrOffset⟩, ⟨?_, ?_⟩, ?_⟩⟩
  · simp [hsame, hnode]
  · exact map_eq_some_iff.mpr ⟨_, hcode, rfl⟩
  · exact (hextends₂.chain hchain).of_tables rfl rfl
  · simp [hsame, hnone]

end Add

structure Addition (Code : Type) where
  addr : UInt64
  loc : CodeObjLoc Code
  callers : List (CodeObjLoc Code)
  deriving DecidableEq, Repr

def Addition.stack (added : Addition Code) : UnitCallStack Code :=
    (added.loc :: added.callers).reverse

def recorded (additions : List (Addition Code)) (addr : UInt64) : Option (Addition Code) :=
  additions.find? fun added => added.addr = addr

section Run

variable [DecidableEq Code] {additions : List (Addition Code)} {addr : UInt64}

def run (additions : List (Addition Code)) : Option (Tables Code) :=
  additions.foldlM (fun info added => info.addUnitCallStack added.addr added.loc added.callers)
    empty

/-- Every address has a node that stands for what has been recorded of it. -/
structure Holds (info : Tables Code) (additions : List (Addition Code)) : Prop where
  wellFormed : info.WellFormed
  present : ∀ addr, ∀ added ∈ recorded additions addr, ∃ node, info.addrLocs addr = some node ∧
    info.Represents node added.loc added.callers
  missing : ∀ addr, recorded additions addr = none → info.addrLocs addr = none

omit [DecidableEq Code] in
theorem holds_empty : (empty : Tables Code).Holds [] where
  wellFormed := ⟨nodup_nil, nodup_nil, Nat.zero_le _, Nat.zero_le _, fun _ _ h => by cases h⟩
  present _ _ h := by cases h
  missing _ _ := rfl

omit [DecidableEq Code] in
theorem recorded_append (added : Addition Code) : recorded (additions ++ [added]) addr =
    (recorded additions addr).or (if added.addr = addr then some added else none) := by
  rw [recorded, find?_append]
  by_cases haddr : added.addr = addr <;> simp [recorded, haddr]

theorem Holds.add {added : Addition Code} (hholds : info.Holds additions)
    (h : info.addUnitCallStack added.addr added.loc added.callers = some info') :
    info'.Holds (additions ++ [added]) := by
  obtain ⟨hwf, hextends, hpresent, habsent⟩ := addUnitCallStack_spec hholds.wellFormed h
  have hkept : ∀ addr, addr ≠ added.addr → info'.addrLocs addr = info.addrLocs addr := by
    intro addr hne
    cases hnode : info.addrLocs added.addr with
    | some node => rw [hpresent node hnode]
    | none =>
      obtain ⟨node, -, haddrs⟩ := habsent hnode
      rw [haddrs, Function.update_of_ne hne]
  refine ⟨hwf, fun addr found hfound => ?_, fun addr hnone => ?_⟩
  · rw [recorded_append] at hfound
    cases hold : recorded additions addr with
    | some old =>
      obtain rfl : old = found := by simpa [hold] using hfound
      obtain ⟨node, hnode, hrep⟩ := hholds.present addr old hold
      refine ⟨node, ?_, hextends.represents hrep⟩
      by_cases haddr : addr = added.addr
      · rw [hpresent node (haddr ▸ hnode), hnode]
      · rw [hkept addr haddr, hnode]
    | none =>
      have hnew : added.addr = addr ∧ added = found := by
        rw [hold, none_or] at hfound
        split at hfound
        next haddr => exact ⟨haddr, by simpa using hfound⟩
        next => cases hfound
      obtain ⟨rfl, rfl⟩ := hnew
      obtain ⟨node, hrep, haddrs⟩ := habsent (hholds.missing _ hold)
      exact ⟨node, by rw [haddrs, Function.update_self], hrep⟩
  · rw [recorded_append, or_eq_none_iff] at hnone
    have hne : addr ≠ added.addr := fun heq => by simp [heq] at hnone
    rw [hkept addr hne, hholds.missing addr hnone.1]

theorem holds_of_run (h : run additions = some info) : info.Holds additions := by
  induction additions using reverseRecOn generalizing info with
  | nil =>
    cases h
    exact holds_empty
  | append_singleton additions added ih =>
    rw [run, foldlM_append, bind_eq_bind, bind_eq_some_iff] at h
    obtain ⟨info₁, h₁, h⟩ := h
    rw [foldlM_cons, bind_eq_bind, bind_eq_some_iff] at h
    obtain ⟨info₂, h₂, h⟩ := h
    cases h
    exact (ih h₁).add h₂

omit [DecidableEq Code] in
theorem Holds.getUnitCallStack_eq (hholds : info.Holds additions) :
    info.getUnitCallStack addr = some ((recorded additions addr).map Addition.stack) := by
  cases hrecorded : recorded additions addr with
  | none => simp [getUnitCallStack, hholds.missing addr hrecorded]
  | some added =>
    obtain ⟨node, hnode, hrep⟩ := hholds.present addr added hrecorded
    exact Tables.getUnitCallStack_eq hholds.wellFormed hnode hrep (chain_lt hrep.callers)

/-- After any additions an address has the stack that was recorded for it first; nodes are shared
just by equal stacks, and an addition leaves the stacks of other addresses as they are. -/
theorem callStacks_roundTrip (h : run additions = some info) :
    (∀ addr, info.getUnitCallStack addr = some ((recorded additions addr).map Addition.stack)) ∧
    (∀ addr addr', ∀ added ∈ recorded additions addr, ∀ added' ∈ recorded additions addr',
      (info.addrLocs addr = info.addrLocs addr' ↔ added.stack = added'.stack)) ∧
    ∀ (added : Addition Code) (info' : Tables Code),
    info.addUnitCallStack added.addr added.loc added.callers = some info' →
      ∀ addr, addr ≠ added.addr → info'.getUnitCallStack addr = info.getUnitCallStack addr := by
  have hholds := holds_of_run h
  refine ⟨fun addr => hholds.getUnitCallStack_eq, fun addr addr' added hadded added' hadded' => ?_,
    fun added info' hadd addr hne => ?_⟩
  · obtain ⟨node, hnode, hrep⟩ := hholds.present addr added hadded
    obtain ⟨node', hnode', hrep'⟩ := hholds.present addr' added' hadded'
    rw [hnode, hnode', Option.some.injEq, represents_inj hholds.wellFormed hrep hrep',
      Addition.stack, Addition.stack, reverse_inj]
  · rw [(hholds.add hadd).getUnitCallStack_eq, hholds.getUnitCallStack_eq, recorded_append,
      if_neg hne.symm, or_none]

variable (info) (code : Code) in
theorem getCodeObjID_isSome (hroom : info.codeObjs.length < kMaxCodeObjs) :
    ∃ info' id, info.getCodeObjID code = some (info', id) ∧
      info'.codeObjs.length ≤ info.codeObjs.length + 1 ∧ info'.inlinedCalls =
        info.inlinedCalls := by
  obtain ⟨codeObjs, id, hintern, hlength⟩ := intern_isSome code hroom
  exact ⟨{ info with codeObjs := codeObjs }, id, by simp [getCodeObjID, hintern], hlength, rfl⟩

variable (info callers) in
theorem getCallerID_isSome (hcodes : info.codeObjs.length + callers.length ≤ kMaxCodeObjs)
    (hcalls : info.inlinedCalls.length + callers.length ≤ kMaxInlined) :
    ∃ info' id, info.getCallerID callers = some (info', id) ∧
      info'.codeObjs.length ≤ info.codeObjs.length + callers.length ∧
      info'.inlinedCalls.length ≤ info.inlinedCalls.length + callers.length := by
  induction callers generalizing info with
  | nil => exact ⟨info, _, rfl, Nat.le_refl _, Nat.le_refl _⟩
  | cons caller parents ih =>
    rw [length_cons] at hcodes hcalls ⊢
    obtain ⟨info₁, codeObjId, h₁, hcodes₁, hcalls₁⟩ :=
      info.getCodeObjID_isSome caller.code (by omega)
    have hroom₁ : info₁.inlinedCalls.length + parents.length ≤ kMaxInlined := by
      rw [hcalls₁]
      omega
    obtain ⟨info₂, callerId, h₂, hcodes₂, hcalls₂⟩ := ih info₁ (by omega) hroom₁
    rw [hcalls₁] at hcalls₂
    have hroom₂ : info₂.inlinedCalls.length < kMaxInlined := by omega
    obtain ⟨calls, id, h₃, hcalls₃⟩ :=
      intern_isSome (⟨codeObjId, callerId, caller.instrOffset⟩ : LocNode) hroom₂
    refine ⟨{ info₂ with inlinedCalls := calls }, id, by simp [getCallerID, h₁, h₂, h₃], ?_, ?_⟩
    · exact Nat.le_trans hcodes₂ (by omega)
    · exact Nat.le_trans hcalls₃ (by omega)

def frames (additions : List (Addition Code)) : Nat :=
  (additions.map fun added => added.callers.length + 1).sum

theorem run_isSome (hroom : frames additions ≤ kMaxInlined) : ∃ info, run additions =
    some info := by
  have hfold : ∀ (additions : List (Addition Code)) (info : Tables Code),
      info.codeObjs.length + frames additions ≤ kMaxInlined →
      info.inlinedCalls.length + frames additions ≤ kMaxInlined →
      ∃ info', additions.foldlM (fun info added =>
        info.addUnitCallStack added.addr added.loc added.callers) info = some info' := by
    intro additions
    induction additions with
    | nil => exact fun info _ _ => ⟨info, rfl⟩
    | cons added additions ih =>
      intro info hcodes hcalls
      have hframes : frames (added :: additions) = added.callers.length + 1 + frames additions := by
        simp [frames]
      have hmax : kMaxInlined ≤ kMaxCodeObjs := by decide
      obtain ⟨info₁, callerId, h₁, hcodes₁, hcalls₁⟩ :=
        info.getCallerID_isSome added.callers (by omega) (by omega)
      obtain ⟨info₂, codeObjId, h₂, hcodes₂, hcalls₂⟩ :=
        info₁.getCodeObjID_isSome added.loc.code (by omega)
      rw [foldlM_cons]
      simp only [addUnitCallStack, h₁, h₂, bind_eq_bind, bind_some, Option.pure_def]
      refine ih _ ?_ ?_
      · exact Nat.le_trans (Nat.add_le_add_right hcodes₂ _) (by omega)
      · rw [← hcalls₂] at hcalls₁
        exact Nat.le_trans (Nat.add_le_add_right hcalls₁ _) (by omega)
  exact hfold additions empty (by simpa [empty] using hroom) (by simpa [empty] using hroom)

end Run

/-- Code 1 inlined into code 0 at one place, itself inlined into itself, and the place again. -/
def recursiveAdditions : List (Addition Nat) :=
  [⟨64, ⟨1, 4⟩, [⟨0, 10⟩]⟩, ⟨72, ⟨1, 4⟩, [⟨1, 6⟩, ⟨0, 10⟩]⟩, ⟨64, ⟨1, 8⟩, [⟨0, 10⟩]⟩]

theorem callStacks_roundTrip_recursive : ∃ info, run recursiveAdditions = some info ∧
    info.getUnitCallStack 72 = some (some [⟨0, 10⟩, ⟨1, 6⟩, ⟨1, 4⟩]) := by
  obtain ⟨info, hinfo⟩ : ∃ info, run recursiveAdditions = some info := run_isSome (by decide)
  exact ⟨info, hinfo, (callStacks_roundTrip hinfo).1 72⟩

/-- An address that is added twice keeps its first stack. -/
theorem callStacks_firstKept :
    ¬∀ (additions : List (Addition Nat)) (info : Tables Nat), run additions = some info →
      ∀ addr, info.getUnitCallStack addr =
        some ((recorded additions.reverse addr).map Addition.stack) := by
  intro hstacks
  obtain ⟨info, hinfo⟩ : ∃ info, run recursiveAdditions = some info := run_isSome (by decide)
  have hlast := hstacks recursiveAdditions info hinfo 64
  rw [(holds_of_run hinfo).getUnitCallStack_eq] at hlast
  exact absurd hlast (by decide)

end Tables

end CinderX.Jit.DebugInfo
