import CinderX.Foundation.Basic

/-!
# LIR data types

The data types of LIR operands and their widths, and the rule by which the
register allocator picks the type of an exchange.
-/

namespace CinderX.Jit.Lir

inductive Arch where
  | kX86_64
  | kAarch64
  deriving DecidableEq, Repr

inductive DataType where
  | k8bit
  | k16bit
  | k32bit
  | k64bit
  | kDouble
  | kObject
  deriving DecidableEq, Repr

def bitSize : DataType → Nat
  | .k8bit => 8
  | .k16bit => 16
  | .k32bit => 32
  | .k64bit | .kDouble | .kObject => 64

theorem bitSize_le (type : DataType) : bitSize type ≤ 64 := by
  cases type <;> decide

/--
`LinearScanAllocator::CopyGraphDataTypeResolver`.  Exchanging registers of
different classes is ruled out by its debug check, and has no result here.
-/
def resolveDataType (fromType toType : DataType) : Option DataType :=
  if fromType = toType then some fromType
  else if fromType = .kDouble ∨ toType = .kDouble then none
  else if fromType = .kObject ∨ toType = .kObject then some .kObject
  else some .k64bit

theorem resolveDataType_self (type : DataType) :
    resolveDataType type type = some type := by
  simp [resolveDataType]

variable {fromType toType type : DataType}

theorem bitSize_resolve_of_ne
    (h : resolveDataType fromType toType = some type) (hne : fromType ≠ toType) :
    bitSize type = 64 := by
  unfold resolveDataType at h
  rw [if_neg hne] at h
  split at h
  · contradiction
  · split at h <;> cases h <;> rfl

theorem le_bitSize_resolve (h : resolveDataType fromType toType = some type) :
    bitSize fromType ≤ bitSize type ∧ bitSize toType ≤ bitSize type := by
  by_cases heq : fromType = toType
  · subst toType
    rw [resolveDataType_self] at h
    cases h
    exact ⟨Nat.le_refl _, Nat.le_refl _⟩
  · rw [bitSize_resolve_of_ne h heq]
    exact ⟨bitSize_le _, bitSize_le _⟩

end CinderX.Jit.Lir
