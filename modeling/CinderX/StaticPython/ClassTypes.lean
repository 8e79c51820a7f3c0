import CinderX.Foundation.Basic

/-!
# The instance types the narrowing effects handle

`Klass` is a class of the static type environment in one of its two versions, or
the dynamic class; `Value` is the type of a local, an instance of one class or of
a union.  Primitive types are not narrowed and are left out.
-/

namespace CinderX.StaticPython

open List

/-- The class hierarchy of a program.  `alwaysExact` classes have no subclasses
and a single, exact version (`bool`, `NoneType`, `FunctionType`, ...). -/
structure ClassTable (C : Type) where
  mro : C → List C
  alwaysExact : C → Bool
  object : C
  noneType : C
  mro_self : ∀ c, c ∈ mro c
  mro_object : ∀ c, object ∈ mro c
  mro_trans : ∀ {a b c}, b ∈ mro c → a ∈ mro b → a ∈ mro c
  alwaysExact_final : ∀ {c d}, alwaysExact c → c ∈ mro d → d = c
  alwaysExact_noneType : alwaysExact noneType

inductive Klass (C : Type) where
  | dynamic
  | nominal (name : C) (isExact : Bool)
  deriving DecidableEq, Repr

inductive Value (C : Type) where
  | inst (klass : Klass C)
  | union (typeArgs : List (Klass C))
  deriving DecidableEq, Repr

section Types

variable {C : Type} [DecidableEq C] (table : ClassTable C)

namespace Klass

def named (name : C) : Klass C := .nominal name (table.alwaysExact name)

/-- `src.exact_type() in self.mro`; the dynamic class's own mro is itself and
`object`. -/
def isSubclassOf : Klass C → Klass C → Bool
  | .dynamic, .dynamic => true
  | .dynamic, .nominal name _ => name = table.object
  | .nominal _ _, .dynamic => false
  | .nominal name _, .nominal src _ => src ∈ table.mro name

def canAssignFrom (self src : Klass C) : Bool :=
  match self with
  | .dynamic => true
  | .nominal _ isExact =>
    src = self || ((!isExact || src = self) && src.isSubclassOf table self)

def inexactType : Klass C → Klass C
  | .dynamic => .dynamic
  | .nominal name isExact => .nominal name (isExact && table.alwaysExact name)

/-- The objects of a class `c` that are instances of it. -/
def has (c : C) : Klass C → Prop
  | .dynamic => True
  | .nominal name true => c = name
  | .nominal name false => name ∈ table.mro c

end Klass

/-- `arg1.can_assign_from(arg2)` for the arguments at two positions. -/
def assigns (args : List (Klass C)) (i j : Nat) : Bool :=
  match args[i]?, args[j]? with
  | some arg1, some arg2 => arg1.canAssignFrom table arg2
  | _, _ => false

def removeAssigned (args : List (Klass C)) (remove : List Nat) (i : Nat) : List Nat :=
  if i ∈ remove then remove
  else remove ++ (range args.length).filter fun j => i ≠ j && assigns table args i j

def simplifyArgs (args : List (Klass C)) : List (Klass C) :=
  let remove := (range args.length).foldl (removeAssigned table args) []
  ((range args.length).filter (· ∉ remove)).filterMap (args[·]?)

def getUnion (args : List (Klass C)) : Value C :=
  match simplifyArgs table args with
  | [arg] => .inst arg
  | typeArgs => .union typeArgs

namespace Value

def canAssignFrom (self : Value C) (src : Klass C) : Bool :=
  match self with
  | .inst klass => klass.canAssignFrom table src
  | .union typeArgs => typeArgs.any (src.isSubclassOf table ·)

def inexactType : Value C → Value C
  | .inst klass => .inst (klass.inexactType table)
  | .union typeArgs => getUnion table (typeArgs.map (·.inexactType table))

def has (c : C) : Value C → Prop
  | .inst klass => klass.has table c
  | .union typeArgs => ∃ arg ∈ typeArgs, arg.has table c

end Value

variable {table} {c name : C} {isExact : Bool}

omit [DecidableEq C] in
theorem Klass.has_named (h : name ∈ table.mro c) :
    (Klass.named table name).has table c := by
  unfold named
  cases hexact : table.alwaysExact name with
  | true => exact table.alwaysExact_final hexact h
  | false => exact h

omit [DecidableEq C] in
theorem Klass.mem_mro_of_has
    (h : (Klass.nominal name isExact).has table c) : name ∈ table.mro c := by
  cases isExact with
  | true =>
    have hsame : c = name := h
    rw [← hsame]
    exact table.mro_self c
  | false => exact h

theorem Klass.has_of_isSubclassOf {src : Klass C}
    (h : src.isSubclassOf table (.nominal name isExact)) (hc : src.has table c) :
    name ∈ table.mro c := by
  cases src with
  | dynamic =>
    have hobject : name = table.object := by simpa [isSubclassOf] using h
    rw [hobject]
    exact table.mro_object c
  | nominal sub exact' =>
    have hsub : name ∈ table.mro sub := by simpa [isSubclassOf] using h
    exact table.mro_trans (mem_mro_of_has hc) hsub

theorem Klass.has_of_canAssignFrom {self src : Klass C}
    (h : self.canAssignFrom table src) (hc : src.has table c) : self.has table c := by
  cases self with
  | dynamic => trivial
  | nominal name isExact =>
    simp only [canAssignFrom, Bool.or_eq_true, decide_eq_true_eq, Bool.and_eq_true,
      Bool.not_eq_true'] at h
    cases h with
    | inl h =>
      subst h
      exact hc
    | inr h =>
      cases isExact with
      | false => exact has_of_isSubclassOf h.2 hc
      | true =>
        have hsame : src = .nominal name true := by simpa using h.1
        subst hsame
        exact hc

def HasAt (table : ClassTable C) (args : List (Klass C)) (c : C) (i : Nat) : Prop :=
  ∃ arg, args[i]? = some arg ∧ arg.has table c

variable {args : List (Klass C)}

theorem hasAt_of_assigns {i j : Nat} (h : assigns table args i j)
    (hj : HasAt table args c j) : HasAt table args c i := by
  obtain ⟨arg, harg, hc⟩ := hj
  unfold assigns at h
  rw [harg] at h
  cases hi : args[i]? with
  | none => simp [hi] at h
  | some self =>
    rw [hi] at h
    exact ⟨self, hi, Klass.has_of_canAssignFrom h hc⟩

def Covered (table : ClassTable C) (args : List (Klass C)) (remove : List Nat) : Prop :=
  ∀ c j, j ∈ remove → HasAt table args c j → ∃ i, i ∉ remove ∧ HasAt table args c i

theorem Covered.removeAssigned {remove : List Nat} (h : Covered table args remove) (i : Nat) :
    Covered table args (removeAssigned table args remove i) := by
  unfold StaticPython.removeAssigned
  split
  · exact h
  next hi =>
    intro c j hj hc
    -- an argument that `i` removes is covered by `i`, and so is what it covered
    have hlast : ∀ k, k ∉ remove → HasAt table args c k →
        ∃ i', i' ∉ remove ++ (range args.length).filter
          (fun j => i ≠ j && assigns table args i j) ∧ HasAt table args c i' := by
      intro k hk hkc
      by_cases hremoved : k ∈ (range args.length).filter
          fun j => i ≠ j && assigns table args i j
      · have hassigns : assigns table args i k := by
          simp only [mem_filter, Bool.and_eq_true] at hremoved
          exact hremoved.2.2
        exact ⟨i, by simp [hi], hasAt_of_assigns hassigns hkc⟩
      · exact ⟨k, by simp only [mem_append, not_or]; exact ⟨hk, hremoved⟩, hkc⟩
    cases mem_append.mp hj with
    | inl hj =>
      obtain ⟨k, hk, hkc⟩ := h c j hj hc
      exact hlast k hk hkc
    | inr hj =>
      have hassigns : assigns table args i j := by
        simp only [mem_filter, Bool.and_eq_true] at hj
        exact hj.2.2
      exact ⟨i, by simp [hi], hasAt_of_assigns hassigns hc⟩

theorem covered_foldl (args : List (Klass C)) (positions : List Nat) :
    ∀ remove, Covered table args remove →
      Covered table args (positions.foldl (removeAssigned table args) remove) := by
  induction positions with
  | nil => exact fun _ h => h
  | cons i positions ih => exact fun remove h => ih _ (h.removeAssigned i)

theorem has_simplifyArgs (h : ∃ arg ∈ args, arg.has table c) :
    ∃ arg ∈ simplifyArgs table args, arg.has table c := by
  obtain ⟨arg, hmem, hc⟩ := h
  obtain ⟨j, hj⟩ := mem_iff_getElem?.mp hmem
  have hcovered : Covered table args
      ((range args.length).foldl (removeAssigned table args) []) :=
    covered_foldl args _ [] fun c j hj => by simp at hj
  have hkept : ∃ i, i ∉ (range args.length).foldl (removeAssigned table args) [] ∧
      HasAt table args c i := by
    by_cases hremoved : j ∈ (range args.length).foldl (removeAssigned table args) []
    · exact hcovered c j hremoved ⟨arg, hj, hc⟩
    · exact ⟨j, hremoved, arg, hj, hc⟩
  obtain ⟨i, hi, kept, hkept, hkc⟩ := hkept
  have hlt : i < args.length := (List.getElem?_eq_some_iff.mp hkept).1
  refine ⟨kept, ?_, hkc⟩
  simp only [simplifyArgs, mem_filterMap, mem_filter, mem_range]
  exact ⟨i, ⟨hlt, by simpa using hi⟩, hkept⟩

theorem mem_of_mem_simplifyArgs {arg : Klass C} (h : arg ∈ simplifyArgs table args) :
    arg ∈ args := by
  simp only [simplifyArgs, mem_filterMap] at h
  obtain ⟨i, -, hi⟩ := h
  exact mem_of_getElem? hi

theorem Value.has_getUnion (h : ∃ arg ∈ args, arg.has table c) :
    (getUnion table args).has table c := by
  obtain ⟨arg, hmem, hc⟩ := has_simplifyArgs h
  unfold getUnion
  split
  next only hone =>
    rw [hone, mem_singleton] at hmem
    rwa [hmem] at hc
  · exact ⟨arg, hmem, hc⟩

end Types

end CinderX.StaticPython
