import CinderX.Foundation.Basic

/-!
# HIR types

A type is a bit set of basic types, a bit set of lifetimes, and at most one
specialization.  Python classes and objects are opaque here: a `World` says
what the operators can ask about them, in particular which class is a subtype
of which, and over it every type denotes a set of values.
-/

namespace CinderX.Jit.Hir

abbrev kNumTypeBits : Nat := 44

abbrev Bits := BitVec kNumTypeBits

abbrev Lifetime := BitVec 2

def kBottom : Bits := 0x00000000000#44
def kObject : Bits := 0x000ffffffff#44
def kPrimitive : Bits := 0xfff00000000#44
def kCBool : Bits := 0x00100000000#44
def kCInt8 : Bits := 0x00200000000#44
def kCInt16 : Bits := 0x00400000000#44
def kCInt32 : Bits := 0x00800000000#44
def kCInt64 : Bits := 0x01000000000#44
def kCUInt8 : Bits := 0x02000000000#44
def kCUInt16 : Bits := 0x04000000000#44
def kCUInt32 : Bits := 0x08000000000#44
def kCUInt64 : Bits := 0x10000000000#44
def kCPtr : Bits := 0x20000000000#44
def kCDouble : Bits := 0x40000000000#44

def kLifetimeBottom : Lifetime := 0#2
def kLifetimeMortal : Lifetime := 1#2
def kLifetimeImmortal : Lifetime := 2#2
def kLifetimeTop : Lifetime := 3#2

def integralBits : List Bits :=
  [kCBool, kCInt8, kCInt16, kCInt32, kCInt64, kCUInt8, kCUInt16, kCUInt32,
    kCUInt64, kCPtr]

variable {PyType PyObject : Type}

/--
The specialization kind together with the member of the union it makes valid.
Pointers are compared by identity, integers and doubles by their 64 bits.
-/
inductive Spec (PyType PyObject : Type) where
  | top
  | type (pytype : PyType)
  | typeExact (pytype : PyType)
  | object (pyobject : PyObject)
  | int (value : BitVec 64)
  | double (value : BitVec 64)
  | bottom
  deriving DecidableEq

structure HirType (PyType PyObject : Type) where
  bits : Bits
  lifetime : Lifetime
  spec : Spec PyType PyObject
  deriving DecidableEq

structure World (PyType PyObject : Type) where
  /-- `PyType_IsSubtype`. -/
  isSubtype : PyType → PyType → Bool
  isSubtype_refl : ∀ c, isSubtype c c = true
  isSubtype_trans : ∀ {c d e},
    isSubtype c d = true → isSubtype d e = true → isSubtype c e = true
  /-- `Py_TYPE`. -/
  pyType : PyObject → PyType
  /-- The position of the basic type of an object among the `kObject` bits. -/
  basicBit : PyObject → Fin 32
  immortal : PyObject → Bool
  tpName : PyType → String
  address : PyType → Nat
  /-- The classes that have a predefined type, the keys of `pyTypeToType()`. -/
  builtin : PyType → Bool

namespace HirType

/-- The constructor `Type{bits, lifetime}` of an unspecialized type. -/
def ofBits (bits : Bits) (lifetime : Lifetime) : HirType PyType PyObject :=
  ⟨bits, lifetime, if bits = kBottom then .bottom else .top⟩

def bottom : HirType PyType PyObject := ⟨kBottom, kLifetimeBottom, .bottom⟩

def hasSpec (t : HirType PyType PyObject) : Bool :=
  match t.spec with
  | .top | .bottom => false
  | _ => true

def hasTypeSpec (t : HirType PyType PyObject) : Bool :=
  match t.spec with
  | .type _ | .typeExact _ | .object _ => true
  | _ => false

def hasTypeExactSpec (t : HirType PyType PyObject) : Bool :=
  match t.spec with
  | .typeExact _ | .object _ => true
  | _ => false

def hasObjectSpec (t : HirType PyType PyObject) : Bool :=
  match t.spec with
  | .object _ => true
  | _ => false

def hasIntSpec (t : HirType PyType PyObject) : Bool :=
  match t.spec with
  | .int _ => true
  | _ => false

def hasDoubleSpec (t : HirType PyType PyObject) : Bool :=
  match t.spec with
  | .double _ => true
  | _ => false

/-- The null pointer, `none`, where the union holds no class. -/
def typeSpec (W : World PyType PyObject) (t : HirType PyType PyObject) :
    Option PyType :=
  match t.spec with
  | .type c | .typeExact c => some c
  | .object o => some (W.pyType o)
  | _ => none

def objectSpec (t : HirType PyType PyObject) : Option PyObject :=
  match t.spec with
  | .object o => some o
  | _ => none

def pyTypeIsSubtype (W : World PyType PyObject) : Option PyType → Option PyType → Bool
  | some c, some d => W.isSubtype c d
  | _, _ => false

variable [DecidableEq PyType] [DecidableEq PyObject]

def specSubtype (W : World PyType PyObject) (a b : HirType PyType PyObject) : Bool :=
  if b.spec = .top ∨ a.spec = .bottom then true
  else if !a.hasSpec then false
  else if (a.hasIntSpec || b.hasIntSpec) || (a.hasDoubleSpec || b.hasDoubleSpec) then
    a = b
  else if b.hasObjectSpec then
    a.hasObjectSpec && (a.objectSpec = b.objectSpec)
  else if b.hasTypeExactSpec then
    a.hasTypeExactSpec && (a.typeSpec W = b.typeSpec W)
  else
    pyTypeIsSubtype W (a.typeSpec W) (b.typeSpec W)

def le (W : World PyType PyObject) (a b : HirType PyType PyObject) : Bool :=
  (a.bits &&& b.bits = a.bits) && (a.lifetime &&& b.lifetime = a.lifetime) &&
    specSubtype W a b

def union (W : World PyType PyObject) (a b : HirType PyType PyObject) :
    HirType PyType PyObject :=
  if le W a b then b
  else if le W b a then a
  else
    let bits := a.bits ||| b.bits
    let lifetime := a.lifetime ||| b.lifetime
    let noSpec := ofBits bits lifetime
    match a.typeSpec W, b.typeSpec W with
    | some typeA, some typeB =>
      if a.hasObjectSpec && b.hasObjectSpec && (a.objectSpec = b.objectSpec) then a
      else
        let supertype? :=
          if W.isSubtype typeA typeB then some typeB
          else if W.isSubtype typeB typeA then some typeA
          else none
        match supertype? with
        | none => noSpec
        | some supertype =>
          if W.builtin supertype then noSpec
          else if a.hasTypeExactSpec && b.hasTypeExactSpec && (typeA = typeB) then
            ⟨bits, lifetime, .typeExact supertype⟩
          else ⟨bits, lifetime, .type supertype⟩
    | _, _ => noSpec

/-- The order in which `operator&` picks one of two unrelated classes. -/
def picksFirst (W : World PyType PyObject) (typeA typeB : PyType) : Bool :=
  W.tpName typeA < W.tpName typeB ||
    (W.tpName typeA = W.tpName typeB && W.address typeA < W.address typeB)

/-- The kinds of object and the lifetimes of an intersection vanish together. -/
def canonical (bits : Bits) (lifetime : Lifetime) : Bits × Lifetime :=
  if bits &&& kObject = 0#_ then (bits, kLifetimeBottom)
  else if lifetime = kLifetimeBottom then (bits &&& ~~~kObject, lifetime)
  else (bits, lifetime)

def inter (W : World PyType PyObject) (a b : HirType PyType PyObject) :
    HirType PyType PyObject :=
  let (bits, lifetime) := canonical (a.bits &&& b.bits) (a.lifetime &&& b.lifetime)
  if bits = kBottom then bottom
  else if specSubtype W a b then ⟨bits, lifetime, a.spec⟩
  else if specSubtype W b a then ⟨bits, lifetime, b.spec⟩
  else
    match a.spec, b.spec with
    | .type typeA, .type typeB =>
      if picksFirst W typeA typeB then ⟨bits, lifetime, .type typeA⟩
      else ⟨bits, lifetime, .type typeB⟩
    | _, _ => bottom

def bitsSubset {n : Nat} (a b : BitVec n) : Bool := a &&& b = a

def subBits (a b : HirType PyType PyObject) : Bits :=
  let bits := a.bits &&& ~~~(b.bits &&& kPrimitive)
  if bitsSubset a.lifetime b.lifetime then bits &&& ~~~(b.bits &&& kObject) else bits

def subLifetime (a b : HirType PyType PyObject) : Lifetime :=
  if bitsSubset (a.bits &&& kObject) (b.bits &&& kObject) then
    a.lifetime &&& ~~~b.lifetime
  else a.lifetime

def sub (W : World PyType PyObject) (a b : HirType PyType PyObject) :
    HirType PyType PyObject :=
  if le W a b then bottom
  else if !specSubtype W a b then a
  else ⟨subBits a b, subLifetime a b, a.spec⟩

def couldBe (W : World PyType PyObject) (a b : HirType PyType PyObject) : Bool :=
  inter W a b ≠ bottom

end HirType

end CinderX.Jit.Hir
