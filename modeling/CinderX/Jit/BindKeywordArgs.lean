import CinderX.Foundation.Basic

/-!
# Binding keyword arguments

`JITRT_BindKeywordArgsSimple` binds the arguments of a call to the parameters of a
function that has neither varargs nor keyword-only parameters.
-/

namespace CinderX.Jit.BindKeywords

open List

structure Objects (Obj : Type) where
  checkExact : Obj → Bool
  text : Obj → List Char
  /-- `PyObject_RichCompareBool` with `Py_EQ`; `none` is a negative result. -/
  richCompareEq : Obj → Obj → Option Bool
  richCompareEq_exact : ∀ a b, checkExact a → checkExact b →
    richCompareEq a b = some (decide (text a = text b))

/-- The parts of a function and its code object that the binding reads. -/
structure Func {Obj : Type} (py : Objects Obj) where
  co_argcount : Nat
  co_posonlyargcount : Nat
  varname : Nat → Obj
  func_defaults : Option (List Obj)
  varname_exact : ∀ j, py.checkExact (varname j)

/-- The values of the keywords follow the positional arguments. -/
structure Call (Obj : Type) where
  args : List Obj
  argcount : Nat
  kwnames : Option (List Obj)
  length_args : args.length = argcount + (kwnames.getD []).length

inductive BindKwStatus
  | Error
  | Fallback
  | Bound
  deriving DecidableEq

/-- The status, `arg_space` and the tuple that `owned_defaults` retains. -/
structure Binding (Obj : Type) where
  status : BindKwStatus
  arg_space : Nat → Option Obj
  owned_defaults : Option (List Obj)

variable {Obj : Type} [DecidableEq Obj] {py : Objects Obj}

def Call.keywords (c : Call Obj) : List (Obj × Obj) :=
  (c.kwnames.getD []).zip (c.args.drop c.argcount)

def Call.start (c : Call Obj) (j : Nat) : Option Obj := if j < c.argcount then c.args[j]? else none

section Bind

variable (f : Func py)

def Func.named : List Nat :=
  range' f.co_posonlyargcount (f.co_argcount - f.co_posonlyargcount)

/-- The slow fallback; the outer `none` is a comparison that fails. -/
def compareNames (keyword : Obj) : List Nat → Option (Option Nat)
  | [] => some none
  | j :: js => do
      if ← py.richCompareEq keyword (f.varname j) then return some j
      else compareNames keyword js

def findKeyword (keyword : Obj) : Option (Option Nat) :=
  match f.named.find? fun j => f.varname j = keyword with
  | some j => some (some j)
  | none => compareNames f keyword f.named

def bindKeywords (arg_space : Nat → Option Obj) :
    List (Obj × Obj) → Except BindKwStatus (Nat → Option Obj)
  | [] => .ok arg_space
  | (keyword, value) :: rest =>
    if py.checkExact keyword = false then .error .Fallback
    else
      match findKeyword f keyword with
      | none => .error .Error
      | some none => .error .Fallback
      | some (some j) =>
        if arg_space j ≠ none then .error .Fallback
        else bindKeywords (Function.update arg_space j (some value)) rest

def Func.defaults : List Obj := f.func_defaults.getD []

def Func.firstDefaultArg : Int := f.co_argcount - f.defaults.length

def bindDefaults (b : Binding Obj) : List Nat → Binding Obj
  | [] => b
  | arg_index :: rest =>
    if b.arg_space arg_index = none then
      bindDefaults { b with
        arg_space := Function.update b.arg_space arg_index
          f.defaults[(arg_index - f.firstDefaultArg).toNat]?
        owned_defaults := f.func_defaults } rest
    else bindDefaults b rest

def bindKeywordArgsSimple (c : Call Obj) : Binding Obj :=
  if c.argcount > f.co_argcount then ⟨.Fallback, fun _ => none, none⟩
  else
    match bindKeywords f c.start c.keywords with
    | .error status => ⟨status, fun _ => none, none⟩
    | .ok arg_space =>
      if c.argcount < f.co_argcount then
        if ∃ i ∈ range' c.argcount (f.firstDefaultArg.toNat - c.argcount),
            arg_space i = none then
          ⟨.Fallback, arg_space, none⟩
        else
          let first := max c.argcount f.firstDefaultArg.toNat
          bindDefaults f ⟨.Bound, arg_space, none⟩ (range' first (f.co_argcount - first))
      else ⟨.Bound, arg_space, none⟩

/-- What `JITRT_CallWithKeywordArgsSimple` goes on to. -/
inductive Forward (Obj : Type)
  | reentry (args : List (Option Obj)) (nargsf : Nat)
  | vectorcall (c : Call Obj)
  | error

def callWithKeywordArgsSimple (c : Call Obj) : Forward Obj :=
  let b := bindKeywordArgsSimple f c
  match b.status with
  | .Bound => .reentry ((range f.co_argcount).map b.arg_space) f.co_argcount
  | .Error => .error
  | .Fallback => .vectorcall c

end Bind

variable {f : Func py}

variable (f) in
def paramOf (keyword : Obj) : Option Nat :=
  (f.named.find? fun j => f.varname j = keyword).or
    (f.named.find? fun j => py.text (f.varname j) = py.text keyword)

variable (f) in
def defaultOf (j : Nat) : Option Obj :=
  if f.co_argcount ≤ j + f.defaults.length then
    f.defaults[j + f.defaults.length - f.co_argcount]?
  else none

variable (f) in
/-- The keywords are parameters of their own that no positional argument has. -/
structure Placed (c : Call Obj) : Prop where
  few : c.argcount ≤ f.co_argcount
  exact' : ∀ k ∈ c.keywords, py.checkExact k.1
  names : ∀ k ∈ c.keywords, ∃ j, paramOf f k.1 = some j ∧ c.argcount ≤ j
  once : c.keywords.Pairwise fun k k' => paramOf f k.1 ≠ paramOf f k'.1

variable (f) in
/-- The binding of a call succeeds and gives the parameters these values. -/
structure Binds (c : Call Obj) (slots : Nat → Obj) : Prop extends Placed f c where
  positional : ∀ j < c.argcount, c.args[j]? = some (slots j)
  keyword : ∀ k ∈ c.keywords, ∀ j, paramOf f k.1 = some j → slots j = k.2
  default : ∀ j < f.co_argcount, c.argcount ≤ j → (∀ k ∈ c.keywords, paramOf f k.1 ≠ some j) →
    defaultOf f j = some (slots j)

variable {keyword : Obj} {j : Nat} {slots : Nat → Option Obj} {ks : List (Obj × Obj)} {c : Call Obj}

omit [DecidableEq Obj] in
theorem compareNames_eq (h : py.checkExact keyword) (js : List Nat) :
    compareNames f keyword js =
      some (js.find? fun j => py.text (f.varname j) = py.text keyword) := by
  induction js with
  | nil => rfl
  | cons j js ih =>
    have hcompare := py.richCompareEq_exact keyword (f.varname j) h (f.varname_exact j)
    by_cases htext : py.text (f.varname j) = py.text keyword
    · simp [compareNames, hcompare, htext]
    · simp [compareNames, hcompare, htext, Ne.symm htext, ih]

theorem findKeyword_eq (h : py.checkExact keyword) :
    findKeyword f keyword = some (paramOf f keyword) := by
  unfold findKeyword paramOf
  split
  · next j hj => rw [hj, Option.some_or]
  · next hnone => rw [hnone, Option.none_or, compareNames_eq h]

theorem paramOf_lt (h : paramOf f keyword = some j) :
    j < f.co_argcount := by
  have hmem : j ∈ f.named := by
    rcases Option.or_eq_some_iff.mp h with h | ⟨-, h⟩
    · exact mem_of_find?_eq_some h
    · exact mem_of_find?_eq_some h
  obtain ⟨i, hi, rfl⟩ := mem_range'.mp hmem
  omega

/-- The keywords are placed in slots of their own that are still empty. -/
structure Free (f : Func py) (slots : Nat → Option Obj) (ks : List (Obj × Obj)) : Prop where
  exact' : ∀ k ∈ ks, py.checkExact k.1
  names : ∀ k ∈ ks, ∃ j, paramOf f k.1 = some j ∧ slots j = none
  once : ks.Pairwise fun k k' => paramOf f k.1 ≠ paramOf f k'.1

theorem bindKeywords_cons (f : Func py) (slots : Nat → Option Obj) (k : Obj × Obj)
    (ks : List (Obj × Obj)) :
    bindKeywords f slots (k :: ks) = .error .Fallback ∨
      ∃ j, py.checkExact k.1 ∧ paramOf f k.1 = some j ∧ slots j = none ∧
        bindKeywords f slots (k :: ks) =
          bindKeywords f (Function.update slots j (some k.2)) ks := by
  obtain ⟨keyword, value⟩ := k
  rw [bindKeywords]
  split
  · exact .inl rfl
  · next hexact =>
      have hexact : py.checkExact keyword := by simpa using hexact
      rw [findKeyword_eq hexact]
      cases hparam : paramOf f keyword with
      | none => exact .inl rfl
      | some j =>
        by_cases hj : slots j = none
        · exact .inr ⟨j, hexact, rfl, hj, by simp [hj]⟩
        · exact .inl (by simp [hj])

theorem bindKeywords_error {status : BindKwStatus} (h : bindKeywords f slots ks = .error status) :
    status = .Fallback := by
  induction ks generalizing slots with
  | nil => cases h
  | cons k ks ih =>
    rcases bindKeywords_cons f slots k ks with
      heq | ⟨j, -, -, -, heq⟩
    · rw [heq] at h
      exact (Except.error.inj h).symm
    · rw [heq] at h
      exact ih h

theorem free_of_bindKeywords {slots slots' : Nat → Option Obj}
    (h : bindKeywords f slots ks = .ok slots') :
    Free f slots ks ∧ (∀ k ∈ ks, ∀ j, paramOf f k.1 = some j → slots' j = some k.2) ∧
      ∀ j, (∀ k ∈ ks, paramOf f k.1 ≠ some j) → slots' j = slots j := by
  induction ks generalizing slots with
  | nil =>
    cases h
    exact ⟨⟨by simp, by simp, .nil⟩, by simp, fun _ _ => rfl⟩
  | cons k ks ih =>
    rcases bindKeywords_cons f slots k ks with
      heq | ⟨j, hexact, hj, hfree, heq⟩
    · rw [heq] at h
      cases h
    rw [heq] at h
    obtain ⟨hrest, hvalues, hframe⟩ := ih h
    -- no later keyword finds the slot of the first one empty
    have hother : ∀ k' ∈ ks, paramOf f k'.1 ≠ some j := by
      intro k' hk' hsame
      obtain ⟨j', hj', hnone⟩ := hrest.names k' hk'
      obtain rfl := Option.some.inj (hsame.symm.trans hj')
      simp at hnone
    refine ⟨⟨?_, ?_, ?_⟩, ?_, ?_⟩
    · exact forall_mem_cons.mpr ⟨hexact, hrest.exact'⟩
    · refine forall_mem_cons.mpr ⟨⟨j, hj, hfree⟩, fun k' hk' => ?_⟩
      obtain ⟨j', hj', hnone⟩ := hrest.names k' hk'
      have hne : j' ≠ j := fun heq => hother k' hk' (heq ▸ hj')
      exact ⟨j', hj', by rwa [Function.update_of_ne hne] at hnone⟩
    · exact .cons (fun k' hk' => hj ▸ (hother k' hk').symm) hrest.once
    · refine forall_mem_cons.mpr ⟨fun j' hj' => ?_, hvalues⟩
      obtain rfl := Option.some.inj (hj.symm.trans hj')
      rw [hframe j hother, Function.update_self]
    · intro j' hj'
      have hne : j' ≠ j := fun heq => hj' k mem_cons_self (heq ▸ hj)
      rw [hframe j' fun k' hk' => hj' k' (mem_cons_of_mem k hk'),
        Function.update_of_ne hne]

theorem Free.bindKeywords
    (h : Free f slots ks) : ∃ slots', bindKeywords f slots ks = .ok slots' := by
  induction ks generalizing slots with
  | nil => exact ⟨slots, rfl⟩
  | cons k ks ih =>
    obtain ⟨keyword, value⟩ := k
    obtain ⟨hexact, hexacts⟩ := forall_mem_cons.mp h.exact'
    obtain ⟨⟨j, hj, hnone⟩, hnames⟩ := forall_mem_cons.mp h.names
    obtain ⟨hfirst, honce⟩ := pairwise_cons.mp h.once
    have hstep : BindKeywords.bindKeywords f slots ((keyword, value) :: ks) =
        BindKeywords.bindKeywords f (Function.update slots j (some value)) ks := by
      rw [BindKeywords.bindKeywords, findKeyword_eq hexact, hj]
      simp [hexact, hnone]
    rw [hstep]
    refine ih ⟨hexacts, fun k' hk' => ?_, honce⟩
    obtain ⟨j', hj', hnone'⟩ := hnames k' hk'
    have hne : j' ≠ j := by
      rintro rfl
      exact hfirst k' hk' (hj.trans hj'.symm)
    exact ⟨j', hj', by rwa [Function.update_of_ne hne]⟩

omit [DecidableEq Obj] in
theorem bindDefaults_spec (f : Func py) (b : Binding Obj) {js : List Nat} (hnodup : js.Nodup) :
    (bindDefaults f b js).status = b.status ∧ ∀ j, (bindDefaults f b js).arg_space j =
      if j ∈ js ∧ b.arg_space j = none then f.defaults[(j - f.firstDefaultArg).toNat]?
      else b.arg_space j := by
  induction js generalizing b with
  | nil => exact ⟨rfl, fun j => by simp [bindDefaults]⟩
  | cons i js ih =>
    obtain ⟨hi, hnodup⟩ := nodup_cons.mp hnodup
    unfold bindDefaults
    split
    · next hnone =>
        obtain ⟨hstatus, hspace⟩ := ih { b with
          arg_space := Function.update b.arg_space i
            f.defaults[(i - f.firstDefaultArg).toNat]?
          owned_defaults := f.func_defaults } hnodup
        refine ⟨hstatus, fun j => ?_⟩
        rw [hspace]
        by_cases hj : j = i
        · subst hj
          simp [hi, hnone]
        · simp [hj]
    · next hsome =>
        obtain ⟨hstatus, hspace⟩ := ih b hnodup
        refine ⟨hstatus, fun j => ?_⟩
        rw [hspace]
        by_cases hj : j = i
        · subst hj
          simp [hi, hsome]
        · simp [hj]

omit [DecidableEq Obj] in
theorem defaults_getElem? (h : f.firstDefaultArg ≤ j) :
    f.defaults[(j - f.firstDefaultArg).toNat]? = defaultOf f j := by
  unfold defaultOf Func.firstDefaultArg at *
  rw [if_pos (by omega)]
  congr 1
  omega

omit [DecidableEq Obj] in
theorem defaultOf_isSome (hj : j < f.co_argcount) :
    (defaultOf f j).isSome ↔ f.firstDefaultArg ≤ j := by
  unfold defaultOf Func.firstDefaultArg
  split
  · rw [getElem?_eq_getElem (by omega)]
    simp
    omega
  · simp
    omega

/-! ## The whole binding -/

omit [DecidableEq Obj] in
theorem Call.start_eq_none : c.start j = none ↔ c.argcount ≤ j := by
  have hlength := c.length_args
  unfold Call.start
  split
  · rw [getElem?_eq_getElem (by omega)]
    simp
    omega
  · simp
    omega

theorem placed_iff (hfew : c.argcount ≤ f.co_argcount) :
    Placed f c ↔ Free f c.start c.keywords := by
  constructor
  · intro h
    refine ⟨h.exact', fun k hk => ?_, h.once⟩
    obtain ⟨j, hj, hle⟩ := h.names k hk
    exact ⟨j, hj, Call.start_eq_none.mpr hle⟩
  · intro h
    refine ⟨hfew, h.exact', fun k hk => ?_, h.once⟩
    obtain ⟨j, hj, hnone⟩ := h.names k hk
    exact ⟨j, hj, Call.start_eq_none.mp hnone⟩

def Open (f : Func py) (c : Call Obj) (j : Nat) : Prop :=
  c.argcount ≤ j ∧ ∀ k ∈ c.keywords, paramOf f k.1 ≠ some j

structure Filled (f : Func py) (c : Call Obj) (space : Nat → Option Obj) : Prop where
  positional : ∀ j < c.argcount, space j = c.args[j]?
  keyword : ∀ k ∈ c.keywords, ∀ j, paramOf f k.1 = some j → space j = some k.2
  isOpen : ∀ j, space j = none ↔ Open f c j

theorem filled_of_bindKeywords {space : Nat → Option Obj}
    (hfew : c.argcount ≤ f.co_argcount) (h : bindKeywords f c.start c.keywords = .ok space) :
    Placed f c ∧ Filled f c space := by
  obtain ⟨hfree, hvalues, hframe⟩ := free_of_bindKeywords h
  have hplaced := (placed_iff hfew).mpr hfree
  have hpositional : ∀ j < c.argcount, space j = c.args[j]? := by
    intro j hj
    rw [hframe j, Call.start, if_pos hj]
    intro k hk hsame
    obtain ⟨j', hj', hle⟩ := hplaced.names k hk
    obtain rfl := Option.some.inj (hsame.symm.trans hj')
    omega
  refine ⟨hplaced, hpositional, hvalues, fun j => ⟨fun hnone => ⟨?_, fun k hk hparam => ?_⟩, ?_⟩⟩
  · by_contra hlt
    have hlength := c.length_args
    rw [hpositional j (by omega), List.getElem?_eq_none_iff] at hnone
    omega
  · rw [hvalues k hk j hparam] at hnone
    cases hnone
  · rintro ⟨hle, hother⟩
    rw [hframe j hother]
    exact Call.start_eq_none.mpr hle

theorem Filled.binds {space final : Nat → Option Obj} (h : Filled f c space)
    (hplaced : Placed f c) (hkeep : ∀ j < f.co_argcount, ¬Open f c j → final j = space j)
    (hopen : ∀ j < f.co_argcount, Open f c j → (defaultOf f j).isSome ∧ final j = defaultOf f j) :
    (∃ slots, Binds f c slots) ∧
      ∀ slots, Binds f c slots → ∀ j < f.co_argcount, final j = some (slots j) := by
  have hsome : ∀ j v, final j = some v → some ((final j).getD (f.varname 0)) = some v :=
    fun j v hv => by rw [hv, Option.getD_some]
  have hlength := c.length_args
  have hfew := hplaced.few
  refine ⟨⟨fun j => (final j).getD (f.varname 0), hplaced, ?_, ?_, ?_⟩, ?_⟩
  · intro j hj
    have hfinal : final j = some c.args[j] := by
      rw [hkeep j (by omega) (fun hj' => by have := hj'.1; omega), h.positional j hj,
        getElem?_eq_getElem (by omega)]
    rw [hsome j _ hfinal, getElem?_eq_getElem (by omega)]
  · intro k hk j hj
    have hfinal : final j = some k.2 := by
      rw [hkeep j (paramOf_lt hj) fun hj' => hj'.2 k hk hj, h.keyword k hk j hj]
    exact Option.some.inj (hsome j _ hfinal)
  · intro j hj hle hother
    obtain ⟨hisSome, hfinal⟩ := hopen j hj ⟨hle, hother⟩
    obtain ⟨v, hv⟩ := Option.isSome_iff_exists.mp hisSome
    rw [hsome j v (hfinal.trans hv), hv]
  · intro slots hslots j hj
    by_cases hj' : Open f c j
    · rw [(hopen j hj hj').2, hslots.default j hj hj'.1 hj'.2]
    · rw [hkeep j hj hj']
      by_cases hlt : j < c.argcount
      · rw [h.positional j hlt, hslots.positional j hlt]
      · unfold Open at hj'
        push Not at hj'
        obtain ⟨k, hk, hparam⟩ := hj' (by omega)
        rw [h.keyword k hk j hparam, hslots.keyword k hk j hparam]

theorem bindKeywordArgsSimple_cases (f : Func py) (c : Call Obj) :
    ((bindKeywordArgsSimple f c).status = .Bound ∧ (∃ slots, Binds f c slots) ∧
      ∀ slots, Binds f c slots →
        ∀ j < f.co_argcount, (bindKeywordArgsSimple f c).arg_space j = some (slots j)) ∨
    ((bindKeywordArgsSimple f c).status = .Fallback ∧ (¬∃ slots, Binds f c slots) ∧
      (bindKeywordArgsSimple f c).owned_defaults = none) := by
  unfold bindKeywordArgsSimple
  split
  · next hmany =>
      refine .inr ⟨rfl, fun ⟨slots, hslots⟩ => ?_, rfl⟩
      have hfew := hslots.few
      omega
  next hmany =>
  have hfew : c.argcount ≤ f.co_argcount := by omega
  split
  · next status hkeywords =>
      obtain rfl := bindKeywords_error hkeywords
      refine .inr ⟨rfl, fun ⟨slots, hslots⟩ => ?_, rfl⟩
      obtain ⟨space, hspace⟩ := ((placed_iff hfew).mp hslots.toPlaced).bindKeywords
      rw [hspace] at hkeywords
      cases hkeywords
  next space hkeywords =>
  obtain ⟨hplaced, hfilled⟩ := filled_of_bindKeywords hfew hkeywords
  have hfirst : f.firstDefaultArg.toNat ≤ f.co_argcount := by
    unfold Func.firstDefaultArg
    omega
  split
  · split
    · next hmissing =>
        -- the first slot without an argument has no default value either
        refine .inr ⟨rfl, fun ⟨slots, hslots⟩ => ?_, rfl⟩
        obtain ⟨i, hi, hnone⟩ := hmissing
        rw [mem_range'_1] at hi
        obtain ⟨hle, hother⟩ := (hfilled.isOpen i).mp hnone
        have hdefault := hslots.default i (by omega) hle hother
        have hisSome := (defaultOf_isSome (f := f) (j := i) (by omega)).mp (by simp [hdefault])
        omega
    · next hmissing =>
        push Not at hmissing
        obtain ⟨hstatus, hspace⟩ := bindDefaults_spec f ⟨.Bound, space, none⟩
          (nodup_range' : List.Nodup (range' (max c.argcount f.firstDefaultArg.toNat)
            (f.co_argcount - max c.argcount f.firstDefaultArg.toNat)))
        refine .inl ⟨hstatus, hfilled.binds hplaced (fun j _ hj => ?_) fun j hlt hj => ?_⟩
        · rw [hspace, if_neg fun h => hj ((hfilled.isOpen j).mp h.2)]
        · have hnone := (hfilled.isOpen j).mpr hj
          have hdefault : f.firstDefaultArg ≤ j := by
            by_contra hlt'
            exact hmissing j (mem_range'_1.mpr ⟨hj.1, by omega⟩) hnone
          have hle := hj.1
          refine ⟨(defaultOf_isSome hlt).mpr hdefault, ?_⟩
          rw [hspace, if_pos ⟨mem_range'_1.mpr (by omega), hnone⟩,
            defaults_getElem? hdefault]
  · refine .inl ⟨rfl, hfilled.binds hplaced (fun _ _ _ => rfl) fun j hlt hj => ?_⟩
    have hle := hj.1
    omega

/-- Keyword arguments are bound where the interpreter binds them, to the same values; else
the call is passed on as it is, with no default value kept. -/
theorem bindKeywordArgsSimple_agrees (f : Func py) (c : Call Obj) :
    ((bindKeywordArgsSimple f c).status = .Bound ↔ ∃ slots, Binds f c slots) ∧
      (∀ slots, Binds f c slots →
        (∀ j < f.co_argcount, (bindKeywordArgsSimple f c).arg_space j = some (slots j)) ∧
        callWithKeywordArgsSimple f c =
          .reentry ((range f.co_argcount).map (some ∘ slots)) f.co_argcount) ∧
      ((¬∃ slots, Binds f c slots) →
        (bindKeywordArgsSimple f c).status = .Fallback ∧
        (bindKeywordArgsSimple f c).owned_defaults = none ∧
        callWithKeywordArgsSimple f c = .vectorcall c) := by
  rcases bindKeywordArgsSimple_cases f c with
    ⟨hstatus, hbinds, hvalues⟩ | ⟨hstatus, hnot, howned⟩
  · refine ⟨iff_of_true hstatus hbinds, fun slots hslots => ⟨hvalues slots hslots, ?_⟩,
      fun hnot => absurd hbinds hnot⟩
    have hmap : (range f.co_argcount).map (bindKeywordArgsSimple f c).arg_space =
        (range f.co_argcount).map (some ∘ slots) :=
      map_congr_left fun j hj => hvalues slots hslots j (mem_range.mp hj)
    simp only [callWithKeywordArgsSimple, hstatus, hmap]
  · refine ⟨iff_of_false (by simp [hstatus]) hnot, fun slots hslots => absurd ⟨slots, hslots⟩ hnot,
      fun _ => ⟨hstatus, howned, ?_⟩⟩
    simp only [callWithKeywordArgsSimple, hstatus]

/-- Objects with an identity and a text. -/
def textObjects : Objects (Nat × List Char) where
  checkExact _ := true
  text := Prod.snd
  richCompareEq a b := some (decide (a.2 = b.2))
  richCompareEq_exact _ _ _ _ := rfl

/-- `def f(a, /, b, c=v30)` -/
def threeParameters : Func textObjects where
  co_argcount := 3
  co_posonlyargcount := 1
  varname j := (j, [['a'], ['b'], ['c']].getD j [])
  func_defaults := some [(30, [])]
  varname_exact _ := rfl

/-- `f(v10, name=v20)`; the keyword is not the object that the parameter has as its name. -/
def callWith (name : Char) : Call (Nat × List Char) where
  args := [(10, []), (20, [])]
  argcount := 1
  kwnames := some [(7, [name])]
  length_args := rfl

theorem bindKeywordArgsSimple_agrees_threeParameters :
    callWithKeywordArgsSimple threeParameters (callWith 'b') =
        .reentry [some (10, []), some (20, []), some (30, [])] 3 ∧
      (bindKeywordArgsSimple threeParameters (callWith 'a')).status = .Fallback := by
  have hparam : paramOf threeParameters (7, ['b']) = some 1 := by decide
  have hbinds : Binds threeParameters (callWith 'b') fun j => (10 * (j + 1), []) := by
    refine ⟨⟨by decide, by decide, ?_, by decide⟩, by decide, ?_, ?_⟩
    · exact forall_mem_singleton.mpr ⟨1, hparam, by decide⟩
    · exact forall_mem_singleton.mpr fun j hj => by cases hparam.symm.trans hj; rfl
    · intro j hlt hle hother
      have hne : j ≠ 1 := fun h => hother _ (mem_singleton.mpr rfl) (h ▸ hparam)
      obtain rfl : j = 2 := by simp only [threeParameters, callWith] at hlt hle; omega
      rfl
  refine ⟨((bindKeywordArgsSimple_agrees _ _).2.1 _ hbinds).2,
    ((bindKeywordArgsSimple_agrees _ _).2.2 ?_).1⟩
  -- `a` is positional-only
  rintro ⟨slots, hslots⟩
  obtain ⟨j, hj, -⟩ := hslots.names ((7, ['a']), (20, [])) (by decide)
  cases (show paramOf threeParameters (7, ['a']) = none by decide).symm.trans hj

end CinderX.Jit.BindKeywords
