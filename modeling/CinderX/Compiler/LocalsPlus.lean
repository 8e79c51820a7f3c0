import CinderX.Foundation.Fold

/-!
# The order of `localsplus`

`convertArg` numbers cell and free variables in one sequence.  `prepare_localsplus` gives
them their places behind the local variables, where a cell that is a local variable has
the place of that.
-/

namespace CinderX.Compiler.LocalsPlus

open CinderX.Foundation Option List

/-- The `IndexedSet`s of a flow graph, by their keys. -/
structure Names where
  varnames : List String
  cellvars : List String
  freevars : List String
  nodup_varnames : varnames.Nodup
  nodup_cellvars : cellvars.Nodup
  nodup_freevars : freevars.Nodup

inductive Opname
  | MAKE_CELL
  | LOAD_CLOSURE
  | LOAD_DEREF
  | STORE_DEREF
  | DELETE_DEREF
  | LOAD_FROM_DICT_OR_DEREF
  | COPY_FREE_VARS
  | other (opname : String)
  deriving DecidableEq

def Opname.namesCell : Opname → Bool
  | COPY_FREE_VARS | other _ => false
  | _ => true

inductive Oparg
  | int (n : Nat)
  | object (repr : String)
  deriving DecidableEq

structure Inst where
  opname : Opname
  oparg : Oparg
  ioparg : Int
  deriving DecidableEq

namespace Names

variable (names : Names)

def closure : List String := names.cellvars ++ names.freevars.filter (· ∉ names.cellvars)

def convertDeref (arg : String) : Nat :=
  if arg ∈ names.freevars then names.freevars.idxOf arg + names.cellvars.length
  else names.closure.idxOf arg

def convertLoadClosure (classScope : Bool) (arg : String) : Nat :=
  if classScope ∧ arg ∈ ["__class__", "__classdict__"] then names.closure.idxOf arg
  else names.convertDeref arg

/-- The index in `MAKE_CELL` is computed where it is emitted, as for the others. -/
def convertArg (classScope : Bool) (opname : Opname) (arg : String) : Nat :=
  if opname = .LOAD_CLOSURE then names.convertLoadClosure classScope arg
  else names.convertDeref arg

def buildCellFixedOffsets : List Nat :=
  names.cellvars.foldl (fun fixed varname =>
      if varname ∈ names.varnames then
        fixed.set (names.cellvars.idxOf varname) (names.varnames.idxOf varname)
      else fixed)
    ((List.range (names.cellvars.length + names.freevars.length)).map (names.varnames.length + ·))

def sortCells (fixedMap : List Nat) : Option (List Nat) :=
  (List.range names.cellvars.length).foldlM (fun sorted i => do
      let slot ← fixedMap[i]?
      if slot < sorted.length then return sorted.set slot (i + 1) else none)
    (List.replicate (names.cellvars.length + names.varnames.length) 0)

def makeCell (index : Nat) : Inst := ⟨.MAKE_CELL, .int index, index⟩

/-- `while n_used < len(self.cellvars)`, over the rest of `sorted`. -/
def makeCells : Nat → List Nat → Option (List Inst)
  | nUsed, [] => if nUsed < names.cellvars.length then none else some []
  | nUsed, index :: sorted =>
    if nUsed < names.cellvars.length then
      if index = 0 then makeCells nUsed sorted
      else (makeCells (nUsed + 1) sorted).map (makeCell (index - 1) :: ·)
    else some []

def copyFreeVars : List Inst :=
  if names.freevars = [] then []
  else [⟨.COPY_FREE_VARS, .int names.freevars.length, names.freevars.length⟩]

def generatorPrefix (generator : Bool) : List Inst :=
  if generator then [⟨.other "RETURN_GENERATOR", .int 0, 0⟩, ⟨.other "POP_TOP", .int 0, 0⟩]
  else []

def insertedCells (fixedMap : List Nat) : Option (List Inst) :=
  if names.cellvars = [] then some [] else (names.sortCells fixedMap).bind (names.makeCells 0)

def insertPrefixInstructions (generator : Bool) (fixedMap : List Nat) (entry : List Inst) :
    Option (List Inst) := do
  let cells ← names.insertedCells fixedMap
  return names.copyFreeVars ++ cells ++ generatorPrefix generator ++ entry

/-- The first loop of `fix_cell_offsets`, from `i`, with `num_dropped`. -/
def dropDuplicates : Nat → Nat → List Nat → List Nat × Nat
  | _, numDropped, [] => ([], numDropped)
  | i, numDropped, slot :: fixedMap =>
    if slot = i + names.varnames.length then
      let rest := dropDuplicates (i + 1) numDropped fixedMap
      ((slot - numDropped) :: rest.1, rest.2)
    else
      let rest := dropDuplicates (i + 1) (numDropped + 1) fixedMap
      (slot :: rest.1, rest.2)

def fixInst (fixedMap : List Nat) (inst : Inst) : Option Inst :=
  if inst.opname.namesCell then
    if 0 ≤ inst.ioparg then do
      let slot ← fixedMap[inst.ioparg.toNat]?
      let oparg := match inst.oparg with
        | .int _ => .int slot
        | .object repr => .object repr
      return ⟨inst.opname, oparg, slot⟩
    else none
  else some inst

/-- With the entry block apart from the blocks behind it. -/
def prepareLocalsplus (generator : Bool) (entry : List Inst) (blocks : List (List Inst)) :
    Option (Nat × List Inst × List (List Inst)) := do
  let nlocalsplus := names.varnames.length + names.cellvars.length + names.freevars.length
  let fixedMap := names.buildCellFixedOffsets
  let entry ← names.insertPrefixInstructions generator fixedMap entry
  let fixed := names.dropDuplicates 0 0 fixedMap
  let entry ← entry.mapM (fixInst fixed.1)
  let blocks ← blocks.mapM (List.mapM (fixInst fixed.1))
  if fixed.2 ≤ nlocalsplus then return (nlocalsplus - fixed.2, entry, blocks) else none

end Names

/-- A variable of the function itself, local or cell, or one of an enclosing function. -/
inductive Variable
  | own (name : String)
  | free (name : String)
  deriving DecidableEq

namespace Names

variable (names : Names)

def closureVariables : List Variable :=
  names.cellvars.map .own ++ names.freevars.map .free

def localsplus : List Variable :=
  (names.varnames ++ names.cellvars.filter (· ∉ names.varnames)).map .own ++
    names.freevars.map .free

def slot (v : Variable) : Nat := names.localsplus.idxOf v

/-- `__class__` and `__classdict__` are cells of the class where it makes a closure of them. -/
def named (classScope : Bool) (opname : Opname) (arg : String) : Variable :=
  if opname = .LOAD_CLOSURE ∧ classScope ∧ arg ∈ ["__class__", "__classdict__"] then .own arg
  else if arg ∈ names.freevars then .free arg else .own arg

variable {names}

theorem nodup_closureVariables : names.closureVariables.Nodup := by
  refine List.Nodup.append (names.nodup_cellvars.map fun _ _ h => Variable.own.inj h)
    (names.nodup_freevars.map fun _ _ h => Variable.free.inj h) ?_
  simp [disjoint_left]

theorem nodup_localsplus : names.localsplus.Nodup := by
  refine List.Nodup.append (List.Nodup.map (fun _ _ h => Variable.own.inj h) ?_)
    (names.nodup_freevars.map fun _ _ h => Variable.free.inj h) ?_
  · exact names.nodup_varnames.append (names.nodup_cellvars.filter _)
      (by simp +contextual [disjoint_left])
  · intro v hown hfree
    obtain ⟨_, -, rfl⟩ := mem_map.mp hown
    simp at hfree

theorem idxOf_map_own (xs : List String) (name : String) :
    (xs.map Variable.own).idxOf (.own name) = xs.idxOf name := by
  induction xs with
  | nil => rfl
  | cons x xs ih => simp [idxOf_cons, ih, Bool.beq_eq_decide_eq]

theorem idxOf_map_free (xs : List String) (name : String) :
    (xs.map Variable.free).idxOf (.free name) = xs.idxOf name := by
  induction xs with
  | nil => rfl
  | cons x xs ih => simp [idxOf_cons, ih, Bool.beq_eq_decide_eq]

variable {classScope : Bool}

theorem convertArg_eq {opname : Opname} {arg : String}
    (h : names.named classScope opname arg ∈ names.closureVariables) :
    names.convertArg classScope opname arg =
      names.closureVariables.idxOf (names.named classScope opname arg) := by
  have hcell : ∀ arg, .own arg ∈ names.closureVariables →
      names.closure.idxOf arg = names.closureVariables.idxOf (.own arg) := by
    intro arg harg
    have hmem : arg ∈ names.cellvars := by simpa [closureVariables] using harg
    rw [closure, closureVariables, idxOf_append_of_mem hmem,
      idxOf_append_of_mem (mem_map_of_mem hmem), idxOf_map_own]
  have hfree : ∀ arg, names.freevars.idxOf arg + names.cellvars.length =
      names.closureVariables.idxOf (.free arg) := by
    intro arg
    rw [closureVariables, idxOf_append_of_notMem (by simp), idxOf_map_free, length_map,
      Nat.add_comm]
  unfold named at h ⊢
  unfold convertArg convertLoadClosure convertDeref
  split_ifs at h ⊢ <;> simp_all

variable (names) in
def argSlot : Variable → Option Nat
  | .own name => if name ∈ names.varnames then some (names.varnames.idxOf name) else none
  | .free _ => none

variable (names) in
/-- The slot where no cell is a local variable, apart from those that are one. -/
def firstSlot (v : Variable) : Nat :=
  (names.argSlot v).getD (names.varnames.length + names.closureVariables.idxOf v)

theorem localsplus_eq : names.localsplus =
    names.varnames.map .own ++ names.closureVariables.filter (names.argSlot · |>.isNone) := by
  have hcells : (names.cellvars.map Variable.own).filter (names.argSlot · |>.isNone) =
      (names.cellvars.filter (· ∉ names.varnames)).map .own := by
    rw [List.filter_map]
    refine congrArg _ (filter_congr fun name _ => ?_)
    by_cases hname : name ∈ names.varnames <;> simp [argSlot, hname]
  have hfrees : (names.freevars.map Variable.free).filter (names.argSlot · |>.isNone) =
      names.freevars.map .free := by
    simp [List.filter_map, argSlot, Function.comp_def]
  rw [localsplus, closureVariables, filter_append, hcells, hfrees, map_append, append_assoc]

variable {v : Variable}

theorem argSlot_eq_some {p : Nat} (h : names.argSlot v = some p) :
    names.slot v = p ∧ p < names.varnames.length := by
  cases v with
  | free name => cases h
  | own name =>
    simp only [argSlot] at h
    split at h
    · next hname =>
        cases h
        refine ⟨?_, idxOf_lt_length_of_mem hname⟩
        rw [slot, localsplus_eq, idxOf_append_of_mem (mem_map_of_mem hname), idxOf_map_own]
    · cases h

variable {pre suf : List Variable}

theorem slot_of_append (h : names.closureVariables = pre ++ v :: suf)
    (hv : names.argSlot v = none) :
    names.slot v = names.varnames.length + (pre.filter (names.argSlot · |>.isNone)).length := by
  have hnodup := h ▸ names.nodup_closureVariables
  have hpre : v ∉ pre.filter (names.argSlot · |>.isNone) := by
    intro hmem
    exact (nodup_append.mp hnodup).2.2 v (mem_of_mem_filter hmem) v (by simp) rfl
  have hlocals : v ∉ names.varnames.map .own := by
    intro hmem
    obtain ⟨name, hname, rfl⟩ := mem_map.mp hmem
    simp [argSlot, hname] at hv
  rw [slot, localsplus_eq, idxOf_append_of_notMem hlocals, h, filter_append,
    idxOf_append_of_notMem hpre]
  simp [hv]

theorem idxOf_of_append (h : names.closureVariables = pre ++ v :: suf) :
    names.closureVariables.idxOf v = pre.length := by
  have hnodup := h ▸ names.nodup_closureVariables
  have hpre : v ∉ pre := fun hmem => (nodup_append.mp hnodup).2.2 v hmem v (by simp) rfl
  rw [h, idxOf_append_of_notMem hpre]
  simp

theorem dropDuplicates_firstSlot (h : names.closureVariables = pre ++ suf) :
    names.dropDuplicates pre.length (pre.countP (names.argSlot · |>.isSome))
        (suf.map names.firstSlot) =
      (suf.map names.slot, names.closureVariables.countP (names.argSlot · |>.isSome)) := by
  induction suf generalizing pre with
  | nil => simp [dropDuplicates, h]
  | cons v suf ih =>
    have hrest := @ih (pre ++ [v]) (by simp [h])
    rw [length_append, countP_append, length_singleton, countP_singleton] at hrest
    rw [map_cons, dropDuplicates]
    cases hv : names.argSlot v with
    | some p =>
      obtain ⟨hslot, hp⟩ := argSlot_eq_some hv
      simp only [hv, isSome_some, if_true] at hrest
      have hfirst : names.firstSlot v = p := by simp [firstSlot, hv]
      rw [if_neg (by omega), hrest, hfirst, map_cons, hslot]
    | none =>
      simp only [hv, isSome_none, Bool.false_eq_true, if_false, Nat.add_zero] at hrest
      have hfirst : names.firstSlot v = pre.length + names.varnames.length := by
        simp [firstSlot, hv, idxOf_of_append h, Nat.add_comm]
      rw [if_pos hfirst, hrest, hfirst, map_cons, slot_of_append h hv]
      have hcount := length_eq_countP_add_countP (names.argSlot · |>.isSome) (l := pre)
      have hfilter : (pre.filter (names.argSlot · |>.isNone)).length =
          pre.countP (fun v => ¬ (names.argSlot v).isSome) := by
        rw [← countP_eq_length_filter]
        exact countP_congr fun v _ => by simp
      simp only [Prod.mk.injEq, cons.injEq, and_true]
      omega

theorem map_idxOf {α : Type} [DecidableEq α] {xs : List α} (h : xs.Nodup) :
    xs.map xs.idxOf = List.range xs.length := by
  refine ext_getElem (by simp) fun i hi _ => ?_
  rw [getElem_map, h.idxOf_getElem, getElem_range]

variable (names) in
def redirected (done : List String) (v : Variable) : Nat :=
  if ∃ name ∈ done, v = .own name then names.firstSlot v
  else names.varnames.length + names.closureVariables.idxOf v

variable {varname name name' : String}

theorem redirected_set {done rest : List String}
    (h : names.cellvars = done ++ varname :: rest) (hlocal : varname ∈ names.varnames) :
    (names.closureVariables.map (names.redirected done)).set (names.cellvars.idxOf varname)
        (names.varnames.idxOf varname) =
      names.closureVariables.map (names.redirected (done ++ [varname])) := by
  have hmem : varname ∈ names.cellvars := by simp [h]
  have hindex : names.cellvars.idxOf varname = names.closureVariables.idxOf (.own varname) := by
    rw [closureVariables, idxOf_append_of_mem (mem_map_of_mem hmem), idxOf_map_own]
  rw [hindex]
  refine ext_getElem (by simp) fun i hi _ => ?_
  simp only [length_set, length_map] at hi
  rw [getElem_set, getElem_map, getElem_map]
  split
  · next heq =>
      subst heq
      rw [getElem_idxOf]
      simp [redirected, firstSlot, argSlot, hlocal]
  · next hne =>
      have hv : names.closureVariables[i] ≠ .own varname := by
        intro heq
        rw [← heq, names.nodup_closureVariables.idxOf_getElem] at hne
        exact hne rfl
      simp [redirected, or_and_right, exists_or, hv]

theorem redirected_skip {done : List String} (hlocal : varname ∉ names.varnames) :
    names.redirected (done ++ [varname]) = names.redirected done := by
  funext v
  unfold redirected
  by_cases hv : v = .own varname
  · subst hv
    simp [firstSlot, argSlot, hlocal]
  · simp [or_and_right, exists_or, hv]

theorem buildCellFixedOffsets_eq :
    names.buildCellFixedOffsets = names.closureVariables.map names.firstSlot := by
  have hstart : (range (names.cellvars.length + names.freevars.length)).map
      (names.varnames.length + ·) = names.closureVariables.map (names.redirected []) := by
    have hrange := map_idxOf names.nodup_closureVariables
    rw [closureVariables, length_append, length_map, length_map] at hrange
    rw [← hrange, ← closureVariables, List.map_map]
    exact map_congr_left fun v _ => by simp [redirected]
  have hloop : ∀ done rest, names.cellvars = done ++ rest →
      rest.foldl (fun fixed varname =>
          if varname ∈ names.varnames then
            fixed.set (names.cellvars.idxOf varname) (names.varnames.idxOf varname)
          else fixed) (names.closureVariables.map (names.redirected done)) =
        names.closureVariables.map (names.redirected names.cellvars) := by
    intro done rest h
    induction rest generalizing done with
    | nil => simp [h]
    | cons varname rest ih =>
      rw [foldl_cons, ← ih (done ++ [varname]) (by simp [h])]
      split
      · next hlocal => rw [redirected_set h hlocal]
      · next hlocal => rw [redirected_skip hlocal]
  rw [buildCellFixedOffsets, hstart, hloop [] names.cellvars rfl]
  refine map_congr_left fun v hv => ?_
  unfold redirected
  split
  · rfl
  · next hcell =>
      cases v with
      | own name => exact absurd ⟨name, by simpa [closureVariables] using hv, rfl⟩ hcell
      | free name => rfl

/-! ## The cells in the order of their slots -/

def sortedCells (n : Nat) (cells : List Nat) : List Nat :=
  (List.range n).map fun p => if p ∈ cells then cells.idxOf p + 1 else 0

theorem sortedCells_set {n p : Nat} {cells : List Nat} (h : p ∉ cells) :
    (sortedCells n cells).set p (cells.length + 1) = sortedCells n (cells ++ [p]) := by
  refine ext_getElem (by simp [sortedCells]) fun i _ _ => ?_
  rw [getElem_set]
  simp only [sortedCells, getElem_map, getElem_range, mem_append, mem_singleton]
  by_cases hi : i ∈ cells
  · have hne : p ≠ i := fun heq => h (heq ▸ hi)
    simp [hi, hne, idxOf_append_of_mem hi]
  · by_cases heq : p = i
    · simp [heq, hi, idxOf_append_of_notMem hi]
    · simp [heq, hi, Ne.symm heq]

theorem filter_sortedCells (n : Nat) (cells : List Nat) :
    (sortedCells n cells).filter (· ≠ 0) =
      ((List.range n).filter (· ∈ cells)).map (cells.idxOf · + 1) := by
  rw [sortedCells, List.filter_map]
  have hfilter : (List.range n).filter
      ((· ≠ 0) ∘ fun p => if p ∈ cells then cells.idxOf p + 1 else 0) =
        (List.range n).filter (· ∈ cells) :=
    List.filter_congr fun p _ => by by_cases hp : p ∈ cells <;> simp [hp]
  rw [hfilter]
  exact List.map_congr_left fun p hp => by simp [of_decide_eq_true (List.mem_filter.mp hp).2]

theorem makeCells_eq {nUsed : Nat} {sorted : List Nat}
    (h : nUsed + (sorted.filter (· ≠ 0)).length = names.cellvars.length) :
    names.makeCells nUsed sorted =
      some ((sorted.filter (· ≠ 0)).map fun index => makeCell (index - 1)) := by
  induction sorted generalizing nUsed with
  | nil => simp_all [makeCells]
  | cons index sorted ih =>
    rw [makeCells]
    by_cases hindex : index = 0
    · rw [filter_cons_of_neg (by simp [hindex])] at h ⊢
      rw [if_pos hindex, ih h]
      split
      · rfl
      · have hnil : sorted.filter (· ≠ 0) = [] := eq_nil_of_length_eq_zero (by omega)
        rw [hnil, map_nil]
    · rw [filter_cons_of_pos (by simp [hindex])] at h ⊢
      rw [length_cons] at h
      rw [if_pos (by omega), if_neg hindex, ih (by omega)]
      rfl

theorem firstSlot_own_cases (h : name ∈ names.cellvars) :
    (name ∈ names.varnames ∧ names.firstSlot (.own name) = names.varnames.idxOf name ∧
        names.varnames.idxOf name < names.varnames.length) ∨
      (name ∉ names.varnames ∧ names.firstSlot (.own name) =
        names.varnames.length + names.cellvars.idxOf name ∧
          names.cellvars.idxOf name < names.cellvars.length) := by
  by_cases hlocal : name ∈ names.varnames
  · exact .inl ⟨hlocal, by simp [firstSlot, argSlot, hlocal], idxOf_lt_length_of_mem hlocal⟩
  · refine .inr ⟨hlocal, ?_, idxOf_lt_length_of_mem h⟩
    simp [firstSlot, argSlot, hlocal, closureVariables,
      idxOf_append_of_mem (mem_map_of_mem h), idxOf_map_own]

theorem firstSlot_inj (h : name ∈ names.cellvars) (h' : name' ∈ names.cellvars)
    (heq : names.firstSlot (.own name) = names.firstSlot (.own name')) : name = name' := by
  rcases firstSlot_own_cases h with ⟨hlocal, hfirst, _⟩ | ⟨_, hfirst, _⟩ <;>
    rcases firstSlot_own_cases h' with ⟨_, hfirst', _⟩ | ⟨_, hfirst', _⟩
  · exact (idxOf_inj hlocal).mp (by omega)
  · omega
  · omega
  · exact (idxOf_inj h).mp (by omega)

variable (names) in
def cellSlots : List Nat := names.cellvars.map fun name => names.firstSlot (.own name)

theorem nodup_cellSlots : names.cellSlots.Nodup :=
  List.Nodup.map_on (fun _ h _ h' heq => firstSlot_inj h h' heq) names.nodup_cellvars

theorem sortCells_eq : names.sortCells names.buildCellFixedOffsets =
    some (sortedCells (names.cellvars.length + names.varnames.length) names.cellSlots) := by
  have hloop : ∀ done rest, names.cellvars = done ++ rest →
      (range' done.length rest.length).foldlM (fun sorted i => do
          let slot ← names.buildCellFixedOffsets[i]?
          if slot < sorted.length then return sorted.set slot (i + 1) else none)
        (sortedCells (names.cellvars.length + names.varnames.length)
          (done.map fun name => names.firstSlot (.own name))) =
      some (sortedCells (names.cellvars.length + names.varnames.length) names.cellSlots) := by
    intro done rest h
    induction rest generalizing done with
    | nil => simp [cellSlots, h]
    | cons name rest ih =>
      have hname : name ∈ names.cellvars := by simp [h]
      have hat : names.buildCellFixedOffsets[done.length]? =
        some (names.firstSlot (.own name)) := by
        simp [buildCellFixedOffsets_eq, closureVariables, h]
      have hbound : names.firstSlot (.own name) <
          names.cellvars.length + names.varnames.length := by
        rcases firstSlot_own_cases hname with ⟨_, hfirst, _⟩ | ⟨_, hfirst, _⟩ <;> omega
      have hnew : names.firstSlot (.own name) ∉ done.map fun name =>
        names.firstSlot (.own name) := by
        have hnodup := names.nodup_cellSlots
        rw [cellSlots, h, map_append, map_cons] at hnodup
        exact fun hmem => (nodup_append.mp hnodup).2.2 _ hmem _ (by simp) rfl
      have hlength : ∀ cells, (sortedCells (names.cellvars.length + names.varnames.length)
          cells).length = names.cellvars.length + names.varnames.length := by
        simp [sortedCells]
      simp only [length_cons, range'_succ, foldlM_cons, hat,
        bind_eq_bind, bind_some, hlength, hbound, if_true, Option.pure_def]
      have hset := sortedCells_set (n := names.cellvars.length + names.varnames.length) hnew
      rw [length_map] at hset
      have hrest := ih (done ++ [name]) (by simp [h])
      rw [length_append, length_singleton, map_append, map_singleton, ← hset] at hrest
      exact hrest
  have hstart : replicate (names.cellvars.length + names.varnames.length) 0 =
      sortedCells (names.cellvars.length + names.varnames.length) [] := by
    simp [sortedCells, map_const']
  rw [sortCells, hstart, range_eq_range']
  exact hloop [] names.cellvars rfl

theorem exists_cellOrder : ∃ order : List String, order.Perm names.cellvars ∧
    (order.map fun name => names.firstSlot (.own name)).Pairwise (· < ·) ∧
    names.insertedCells names.buildCellFixedOffsets =
      some (order.map fun name => makeCell (names.cellvars.idxOf name)) := by
  have hperm : ((range (names.cellvars.length + names.varnames.length)).filter
      (· ∈ names.cellSlots)).Perm names.cellSlots := by
    refine (perm_ext_iff_of_nodup (nodup_range.filter _) nodup_cellSlots).mpr fun p => ?_
    simp only [mem_filter, mem_range, decide_eq_true_eq, and_iff_right_iff_imp]
    intro hp
    obtain ⟨name, hname, rfl⟩ := mem_map.mp hp
    rcases firstSlot_own_cases hname with ⟨_, hfirst, _⟩ | ⟨_, hfirst, _⟩ <;> omega
  obtain ⟨order, horder, hmap⟩ : ∃ order : List String, order.Perm names.cellvars ∧
      (order.map fun name => names.firstSlot (.own name)) =
        (range (names.cellvars.length + names.varnames.length)).filter (· ∈ names.cellSlots) := by
    have hlift := congrFun₂ (eq_map_comp_perm fun name => names.firstSlot (.own name))
      ((range (names.cellvars.length + names.varnames.length)).filter (· ∈ names.cellSlots))
      names.cellvars
    obtain ⟨order, hmap, horder⟩ := hlift.mpr hperm
    exact ⟨order, horder, hmap.symm⟩
  refine ⟨order, horder, ?_, ?_⟩
  · rw [hmap]
    exact pairwise_lt_range.filter _
  · unfold insertedCells
    split
    · next hnil =>
        rw [hnil, perm_nil] at horder
        rw [horder, map_nil]
    rw [sortCells_eq, bind_some, makeCells_eq]
    · rw [filter_sortedCells, ← hmap, List.map_map, List.map_map]
      refine congrArg some (map_congr_left fun name hname => ?_)
      have hlt := idxOf_lt_length_of_mem (horder.mem_iff.mp hname)
      have hat := nodup_cellSlots.idxOf_getElem (names.cellvars.idxOf name) (by simpa [cellSlots])
      simp only [cellSlots, getElem_map, getElem_idxOf] at hat
      simp [cellSlots, hat]
    · rw [filter_sortedCells, length_map, Nat.zero_add, hperm.length_eq]
      simp [cellSlots]

theorem slot_own_lt (h : name ∈ names.cellvars) (h' : name' ∈ names.cellvars)
    (hlt : names.firstSlot (.own name) < names.firstSlot (.own name')) :
    names.slot (.own name) < names.slot (.own name') := by
  have hown : ∀ {name}, name ∈ names.cellvars → .own name ∈ names.closureVariables := by
    simp [closureVariables]
  obtain ⟨pre, suf, hsplit⟩ := append_of_mem (hown h)
  obtain ⟨pre', suf', hsplit'⟩ := append_of_mem (hown h')
  have hindex := idxOf_of_append hsplit
  have hindex' := idxOf_of_append hsplit'
  cases hv : names.argSlot (.own name) with
  | some p =>
    obtain ⟨hslot, hp⟩ := argSlot_eq_some hv
    cases hv' : names.argSlot (.own name') with
    | some p' =>
      simp only [firstSlot, hv, hv', getD_some] at hlt
      rw [hslot, (argSlot_eq_some hv').1]
      exact hlt
    | none =>
      rw [hslot, slot_of_append hsplit' hv']
      omega
  | none =>
    cases hv' : names.argSlot (.own name') with
    | some p' =>
      have hp' := (argSlot_eq_some hv').2
      simp only [firstSlot, hv, hv', getD_some, getD_none] at hlt
      omega
    | none =>
      simp only [firstSlot, hv, hv', getD_none, hindex, hindex'] at hlt
      rw [slot_of_append hsplit hv, slot_of_append hsplit' hv', Nat.add_lt_add_iff_left]
      -- the first cell is among those before the second
      have hto : pre ++ [.own name] <+: names.closureVariables := ⟨suf, by simp [hsplit]⟩
      have hto' : pre' <+: names.closureVariables := ⟨_, hsplit'.symm⟩
      have hpre : pre ++ [.own name] <+: pre' := by
        refine prefix_of_prefix_length_le hto hto' ?_
        simp only [length_append, length_singleton]
        omega
      have hle := (hpre.filter (names.argSlot · |>.isNone)).length_le
      have hone : ([.own name].filter (names.argSlot · |>.isNone)).length = 1 := by
        simp [hv]
      rw [filter_append, length_append, hone] at hle
      exact hle

variable (names) in
def Fixed (classScope : Bool) (inst inst' : Inst) : Prop :=
  inst'.opname = inst.opname ∧
    if inst.opname.namesCell then
      ∀ arg, names.named classScope inst.opname arg ∈ names.closureVariables →
        inst.ioparg = names.convertArg classScope inst.opname arg →
          inst'.ioparg = names.slot (names.named classScope inst.opname arg)
    else inst' = inst

variable (names) in
def Converted (classScope : Bool) (inst : Inst) : Prop :=
  inst.opname.namesCell → ∃ arg, names.named classScope inst.opname arg ∈ names.closureVariables ∧
    inst.ioparg = names.convertArg classScope inst.opname arg

theorem getElem?_slots (h : v ∈ names.closureVariables) :
    (names.closureVariables.map names.slot)[names.closureVariables.idxOf v]? =
      some (names.slot v) := by
  rw [getElem?_map, getElem?_idxOf h]
  rfl

theorem fixInst_converted {inst : Inst} (h : names.Converted classScope inst) :
    ∃ inst', fixInst (names.closureVariables.map names.slot) inst = some inst' ∧
      names.Fixed classScope inst inst' := by
  unfold fixInst Fixed
  split
  · next hcell =>
      obtain ⟨arg, harg, hioparg⟩ := h hcell
      rw [convertArg_eq harg] at hioparg
      rw [hioparg, if_pos (Int.natCast_nonneg _), Int.toNat_natCast, getElem?_slots harg]
      refine ⟨_, rfl, rfl, fun arg' harg' heq => ?_⟩
      rw [convertArg_eq harg', Int.natCast_inj, idxOf_inj harg] at heq
      rw [← heq]
  · exact ⟨inst, rfl, rfl, rfl⟩

theorem mapM_forall₂ {α β : Type} {f : α → Option β} {r : α → β → Prop} {xs : List α}
    (h : ∀ x ∈ xs, ∃ y, f x = some y ∧ r x y) :
    ∃ ys, xs.mapM f = some ys ∧ List.Forall₂ r xs ys := by
  obtain ⟨ys, hys⟩ := mapM_isSome fun x hx => (h x hx).imp fun _ hy => hy.1
  have hforall := forall₂_iff_get.mp (mapM_eq_some_iff.mp hys)
  refine ⟨ys, hys, forall₂_iff_get.mpr ⟨hforall.1, fun i hi hi' => ?_⟩⟩
  obtain ⟨y, hy, hr⟩ := h _ (get_mem xs ⟨i, hi⟩)
  rwa [← Option.some.inj (hy.symm.trans (hforall.2 i hi hi'))]

theorem fixInsts_converted {insts : List Inst}
    (h : ∀ inst ∈ insts, names.Converted classScope inst) :
    ∃ insts', insts.mapM (fixInst (names.closureVariables.map names.slot)) = some insts' ∧
      List.Forall₂ (names.Fixed classScope) insts insts' :=
  mapM_forall₂ fun inst hinst => fixInst_converted (h inst hinst)

theorem fixInst_makeCell (h : name ∈ names.cellvars) :
    fixInst (names.closureVariables.map names.slot) (makeCell (names.cellvars.idxOf name)) =
      some (makeCell (names.slot (.own name))) := by
  have hindex : names.closureVariables.idxOf (.own name) = names.cellvars.idxOf name := by
    rw [closureVariables, idxOf_append_of_mem (mem_map_of_mem h), idxOf_map_own]
  have hat := @getElem?_slots names (.own name) (by simp [closureVariables, h])
  rw [hindex] at hat
  simp [fixInst, makeCell, Opname.namesCell, hat]

theorem length_localsplus :
    names.varnames.length + names.cellvars.length + names.freevars.length -
      names.closureVariables.countP (names.argSlot · |>.isSome) = names.localsplus.length ∧
    names.closureVariables.countP (names.argSlot · |>.isSome) ≤
      names.varnames.length + names.cellvars.length + names.freevars.length := by
  have hcount := length_eq_countP_add_countP (names.argSlot · |>.isSome)
    (l := names.closureVariables)
  have hfilter : (names.closureVariables.filter (names.argSlot · |>.isNone)).length =
      names.closureVariables.countP (fun v => ¬ (names.argSlot v).isSome) := by
    rw [← countP_eq_length_filter]
    exact countP_congr fun v _ => by simp
  have hlength : names.closureVariables.length =
      names.cellvars.length + names.freevars.length := by
    simp [closureVariables]
  rw [localsplus_eq, length_append, length_map]
  omega

/-- The instructions have the slots of what they name, the entry block has the cells made in
the order of their slots, and the slots are the places in `localsplus`. -/
theorem prepareLocalsplus_correct (classScope generator : Bool) {entry : List Inst}
    {blocks : List (List Inst)}
    (h : ∀ block ∈ entry :: blocks, ∀ inst ∈ block, names.Converted classScope inst) :
    (∃ (order : List String) (entry' : List Inst) (blocks' : List (List Inst)),
      names.prepareLocalsplus generator entry blocks =
        some (names.localsplus.length,
          names.copyFreeVars ++ order.map (fun name => makeCell (names.slot (.own name))) ++
            generatorPrefix generator ++ entry', blocks') ∧
      order.Perm names.cellvars ∧
      (order.map fun name => names.slot (.own name)).Pairwise (· < ·) ∧
      List.Forall₂ (names.Fixed classScope) entry entry' ∧
      List.Forall₂ (List.Forall₂ (names.Fixed classScope)) blocks blocks') ∧
    (∀ v ∈ names.localsplus, ∀ v' ∈ names.localsplus, names.slot v = names.slot v' → v = v') ∧
    (∀ v ∈ names.localsplus, names.slot v < names.localsplus.length) ∧
    ∀ p < names.localsplus.length, ∃ v ∈ names.localsplus, names.slot v = p := by
  refine ⟨?_, fun v hv v' _ heq => (idxOf_inj hv).mp heq, fun v hv => idxOf_lt_length_of_mem hv,
    fun p hp => ⟨names.localsplus[p], getElem_mem hp, nodup_localsplus.idxOf_getElem p hp⟩⟩
  obtain ⟨order, horder, hsorted, hcells⟩ := names.exists_cellOrder
  obtain ⟨entry', hentry, hfixed⟩ := fixInsts_converted (h entry (by simp))
  obtain ⟨blocks', hblocks, hfixed'⟩ : ∃ blocks',
      blocks.mapM (mapM (fixInst (names.closureVariables.map names.slot))) = some blocks' ∧
        List.Forall₂ (List.Forall₂ (names.Fixed classScope)) blocks blocks' :=
    mapM_forall₂ fun block hblock => fixInsts_converted (h block (by simp [hblock]))
  refine ⟨order, entry', blocks', ?_, horder, ?_, hfixed, hfixed'⟩
  · have hdrop := @dropDuplicates_firstSlot names [] names.closureVariables rfl
    rw [← buildCellFixedOffsets_eq, length_nil, countP_nil] at hdrop
    have hmakes : (order.map fun name => makeCell (names.cellvars.idxOf name)).mapM
        (fixInst (names.closureVariables.map names.slot)) =
          some (order.map fun name => makeCell (names.slot (.own name))) := by
      rw [mapM_eq_some_iff, forall₂_map_left_iff, forall₂_map_right_iff]
      exact forall₂_same.mpr fun name hname => fixInst_makeCell (horder.mem_iff.mp hname)
    have hcopy : names.copyFreeVars.mapM (fixInst (names.closureVariables.map names.slot)) =
        some names.copyFreeVars := by
      unfold copyFreeVars
      split <;> rfl
    have hgenerator : (generatorPrefix generator).mapM
        (fixInst (names.closureVariables.map names.slot)) = some (generatorPrefix generator) := by
      cases generator <;> rfl
    obtain ⟨hcount, hle⟩ := names.length_localsplus
    simp [prepareLocalsplus, insertPrefixInstructions, hcells, hdrop, hcopy, hmakes, hgenerator,
      hentry, hblocks, hle, hcount]
  · rw [pairwise_map] at hsorted ⊢
    exact hsorted.imp_of_mem fun hname hname' hlt =>
      slot_own_lt (horder.mem_iff.mp hname) (horder.mem_iff.mp hname') hlt

def sampleNames : Names :=
  ⟨["self", "x"], ["y", "self"], ["__class__"], by decide, by decide, by decide⟩

theorem prepareLocalsplus_sample : ∃ entry blocks, sampleNames.prepareLocalsplus false
    [⟨.LOAD_DEREF, .object "__class__", 2⟩] [[⟨.LOAD_CLOSURE, .object "self", 1⟩]] =
      some (4, entry, blocks) := by
  have h := (@prepareLocalsplus_correct sampleNames false false
    [⟨.LOAD_DEREF, .object "__class__", 2⟩] [[⟨.LOAD_CLOSURE, .object "self", 1⟩]] ?_).1
  · obtain ⟨_, _, blocks', h, -⟩ := h
    exact ⟨_, blocks', h⟩
  · intro block hblock inst hinst _
    simp only [mem_cons, not_mem_nil, or_false] at hblock
    rcases hblock with rfl | rfl
    · obtain rfl := mem_singleton.mp hinst
      exact ⟨"__class__", by decide, by decide⟩
    · obtain rfl := mem_singleton.mp hinst
      exact ⟨"self", by decide, by decide⟩

end Names

end CinderX.Compiler.LocalsPlus
