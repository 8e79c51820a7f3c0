import CinderX.StaticPython.NarrowingSound

/-!
# Conditions in an environment

An environment gives the objects that a condition tests.  Where a settled condition
has an outcome, the types it stands for are types of those objects.
-/

namespace CinderX.StaticPython

variable {C : Type}

structure World (table : ClassTable C) where
  Obj : Type
  classOf : Obj → C
  truthy : Obj → Bool
  none_falsy : ∀ o, classOf o = table.noneType → truthy o = false

/-- The objects of the locals and of their attributes, which are of the types of
their slots, and the outcomes of what the type binder does not look into. -/
structure Environment (program : Program C) (world : World program.table) where
  locals : Identifier → world.Obj
  field : Identifier → Identifier → Option world.Obj
  slots : ∀ base attr type slot o, program.findSlot type attr = some slot →
    type.has program.table (world.classOf (locals base)) → field base attr = some o →
    slot.has program.table (world.classOf o)
  other : Nat → Option Bool
  isUnknown : Nat → world.Obj → Option Bool
  isUnresolved : Nat → world.Obj → Option Bool

variable [DecidableEq C] {program : Program C} {world : World program.table}

namespace Environment

variable (env : Environment program world)

def object : Target → Option world.Obj
  | .name id => some (env.locals id)
  | .attribute base attr => env.field base attr

def isInstance (o : world.Obj) : ClassArg C → Option Bool
  | .one name => some (name ∈ program.table.mro (world.classOf o))
  | .tuple names => some (names.any (· ∈ program.table.mro (world.classOf o)))
  | .unknown id => env.isUnknown id o
  | .unresolved id => env.isUnresolved id o

def holds (o : world.Obj) : TestKind C → Option Bool
  | .isInstance arg => env.isInstance o arg
  | .isNone => some (world.classOf o = program.table.noneType)
  | .isNotNone => some (world.classOf o ≠ program.table.noneType)
  | .truthy => some (world.truthy o)

mutual

/-- The truth of a condition, `none` where it raises. -/
def eval : Cond C → Option Bool
  | .test target kind => (env.object target).bind (env.holds · kind)
  | .other id _ _ => env.other id
  | .ifExp test _ body orelse =>
    (eval test).bind fun outcome => if outcome then eval body else eval orelse
  | .not operand => (eval operand).map (!·)
  | .and values => evalAnd values
  | .or values last =>
    (evalOr values).bind fun outcome => if outcome then some true else eval last

def evalAnd : List (Cond C) → Option Bool
  | [] => some true
  | c :: cs => (eval c).bind fun outcome => if outcome then evalAnd cs else some false

def evalOr : List (Cond C) → Option Bool
  | [] => some false
  | c :: cs => (eval c).bind fun outcome => if outcome then some true else evalOr cs

end

structure Sound (s : TypeState C) : Prop where
  locals : ∀ x, (s.localTypes x).has program.table (world.classOf (env.locals x))
  fields : ∀ base attr type o, s.refinedFields base attr = some type →
    env.field base attr = some o → type.has program.table (world.classOf o)

def Fits (w : Refinements C) : Prop :=
  ∀ target o type, env.object target = some o → lastType target.accessPath w = some type →
    type.has program.table (world.classOf o)

end Environment

/-- A test that came out false tells that its object has the reverse type: of a union,
only `None` is falsy, and the class is known. -/
def Reversible (world : World program.table) (type : Value C) : Target → TestKind C → Prop
  | .name _, .truthy =>
    match type with
    | .inst _ => True
    | .union _ => ∀ o, type.has program.table (world.classOf o) →
        world.truthy o = false → world.classOf o = program.table.noneType
  | _, .isInstance (.unknown _) =>
    match type with
    | .inst _ => True
    | .union _ => False
  | _, _ => True

section Reversible

variable (program) (world)

mutual

/-- The tests whose negative outcome the condition's `outcome` rests on are
reversible, at the types they are made at. -/
def AllReversible (outcome : Bool) : Cond C → TypeState C → Prop
  | .test target kind, s => outcome = false → ∀ type,
      refinableType program s target = some type → Reversible world type target kind
  | .other _ _ _, _ => True
  | .ifExp _ _ _ _, _ => True
  | .not operand, s => AllReversible (!outcome) operand s
  | .and values, s => outcome = true → AllReversibleAnd values s
  | .or values last, s => outcome = false →
      AllReversibleOr values s ∧ AllReversible false last (narrowingOr program values s).2

def AllReversibleAnd : List (Cond C) → TypeState C → Prop
  | [], _ => True
  | c :: cs, s => AllReversible true c s ∧
      AllReversibleAnd cs ((narrowing program c s).afterAnd program c s)

def AllReversibleOr : List (Cond C) → TypeState C → Prop
  | [], _ => True
  | c :: cs, s => AllReversible false c s ∧
      AllReversibleOr cs ((narrowing program c s).afterOr program c s)

end

end Reversible

omit [DecidableEq C] in
theorem inexactType_named (name : C) :
    (Klass.named program.table name).inexactType program.table =
      .named program.table name := by
  simp [Klass.named, Klass.inexactType]

def Value.NamedBy (table : ClassTable C) (names : List C) : Value C → Prop
  | .inst klass => ∃ name ∈ names, klass = .named table name
  | .union typeArgs => ∀ arg ∈ typeArgs, ∃ name ∈ names, arg = .named table name

theorem namedBy_getUnion {names : List C} {args : List (Klass C)}
    (h : ∀ arg ∈ args, ∃ name ∈ names, arg = .named program.table name) :
    (getUnion program.table args).NamedBy program.table names := by
  unfold getUnion
  split
  next arg hone =>
    apply h arg
    apply mem_of_mem_simplifyArgs
    rw [hone]
    exact List.mem_singleton_self arg
  · exact fun arg harg => h arg (mem_of_mem_simplifyArgs harg)

theorem namedBy_tuple (names : List C) :
    (getUnion program.table (names.map (.named program.table))).NamedBy
      program.table names := by
  apply namedBy_getUnion
  intro arg harg
  obtain ⟨name, hname, rfl⟩ := List.mem_map.mp harg
  exact ⟨name, hname, rfl⟩

theorem Value.NamedBy.inexactType {names : List C} {type : Value C}
    (h : type.NamedBy program.table names) :
    (type.inexactType program.table).NamedBy program.table names := by
  cases type with
  | inst klass =>
    obtain ⟨name, hname, rfl⟩ := h
    exact ⟨name, hname, inexactType_named name⟩
  | union typeArgs =>
    apply namedBy_getUnion
    intro arg harg
    obtain ⟨arg', harg', rfl⟩ := List.mem_map.mp harg
    obtain ⟨name, hname, rfl⟩ := h arg' harg'
    exact ⟨name, hname, inexactType_named name⟩

theorem Value.NamedBy.has_inexactType {names : List C} {type : Value C} {c : C}
    (h : type.NamedBy program.table names) (hc : type.has program.table c) :
    (type.inexactType program.table).has program.table c := by
  cases type with
  | inst klass =>
    obtain ⟨name, hname, rfl⟩ := h
    simpa only [Value.inexactType, inexactType_named] using hc
  | union typeArgs =>
    obtain ⟨arg, harg, hc⟩ := hc
    obtain ⟨name, hname, rfl⟩ := h arg harg
    apply Value.has_getUnion
    exact ⟨_, List.mem_map_of_mem harg, by rwa [inexactType_named]⟩

theorem Value.NamedBy.mem_mro {names : List C} {type : Value C} {src : Klass C} {c : C}
    (h : type.NamedBy program.table names) (hassign : type.canAssignFrom program.table src)
    (hc : src.has program.table c) : ∃ name ∈ names, name ∈ program.table.mro c := by
  cases type with
  | inst klass =>
    obtain ⟨name, hname, rfl⟩ := h
    exact ⟨name, hname, Klass.mem_mro_of_has (Klass.has_of_canAssignFrom hassign hc)⟩
  | union typeArgs =>
    obtain ⟨arg, harg, hsub⟩ := List.any_eq_true.mp hassign
    obtain ⟨name, hname, rfl⟩ := h arg harg
    exact ⟨name, hname, Klass.has_of_isSubclassOf hsub hc⟩

def ClassArg.names : ClassArg C → List C
  | .one name => [name]
  | .tuple names => names
  | _ => []

def ClassArg.IsKnown : ClassArg C → Prop
  | .unknown _ => False
  | _ => True

theorem namedBy_classType {arg : ClassArg C} {inst : Value C} (hknown : arg.IsKnown)
    (h : arg.classType program = some inst) : inst.NamedBy program.table arg.names := by
  cases arg with
  | one name =>
    cases h
    have hname : (Value.inst (.named program.table name)).NamedBy program.table [name] :=
      ⟨name, List.mem_singleton_self name, rfl⟩
    exact hname.inexactType
  | tuple names =>
    cases h
    exact (namedBy_tuple names).inexactType
  | unknown id => exact hknown.elim
  | unresolved id => cases h

theorem has_classType {arg : ClassArg C} {inst : Value C} {c : C}
    (h : arg.classType program = some inst)
    (hc : ∃ name ∈ arg.names, name ∈ program.table.mro c) : inst.has program.table c := by
  obtain ⟨name, hname, hmro⟩ := hc
  have hhas := Klass.has_named hmro
  cases arg with
  | one name' =>
    cases h
    obtain rfl := List.mem_singleton.mp hname
    simp only [Value.inexactType, inexactType_named]
    exact hhas
  | tuple names =>
    cases h
    apply (namedBy_tuple names).has_inexactType
    exact Value.has_getUnion ⟨_, List.mem_map_of_mem hname, hhas⟩
  | unknown id => cases hname
  | unresolved id => cases hname

theorem has_reverseType {prev inst : Value C} {c : C} (hprev : prev.has program.table c)
    (h : ∀ src, inst.canAssignFrom program.table src → ¬src.has program.table c) :
    (reverseType program prev inst).has program.table c := by
  cases prev with
  | inst klass => exact hprev
  | union typeArgs =>
    obtain ⟨arg, harg, hc⟩ := hprev
    apply Value.has_getUnion
    refine ⟨arg, List.mem_filter.mpr ⟨harg, ?_⟩, hc⟩
    simpa using fun hassign => h arg hassign hc

theorem has_reverse_none {prev : Value C} {c : C} (hprev : prev.has program.table c)
    (hc : c ≠ program.table.noneType) :
    (reverseType program prev (noneInstance program)).has program.table c := by
  apply has_reverseType hprev
  intro src hassign hsrc
  have hassign : (Klass.named program.table program.table.noneType).canAssignFrom
      program.table src := hassign
  have hnone := Klass.has_of_canAssignFrom hassign hsrc
  rw [Klass.named, program.table.alwaysExact_noneType] at hnone
  exact hc hnone

end CinderX.StaticPython
