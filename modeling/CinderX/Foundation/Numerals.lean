import CinderX.Foundation.Basic

/-!
# Numerals

Numbers as text, and the readers of the C library with base 0: a sign, then
`0x` for base 16, `0` for base 8, and base 10 otherwise.
-/

namespace CinderX.Foundation

open Nat

def isDigit (c : Char) : Bool := decide ('0' ≤ c) && decide (c ≤ '9')

def isHexDigit (c : Char) : Bool :=
  isDigit c || (decide ('a' ≤ c) && decide (c ≤ 'f')) ||
    (decide ('A' ≤ c) && decide (c ≤ 'F'))

def digitValue (c : Char) : Nat :=
  if isDigit c then c.toNat - '0'.toNat
  else if 'a' ≤ c then c.toNat - 'a'.toNat + 10
  else c.toNat - 'A'.toNat + 10

def decimal (n : Nat) : List Char := toDigits 10 n

def hexadecimal (n : Nat) : List Char := toDigits 16 n

def readDigits (base : Nat) (digits : List Char) : Nat :=
  digits.foldl (fun n c => base * n + digitValue c) 0

def isOctalDigit (c : Char) : Bool := decide ('0' ≤ c) && decide (c ≤ '7')

def readMagnitude : List Char → Nat
  | '0' :: 'x' :: digits | '0' :: 'X' :: digits =>
    readDigits 16 (digits.takeWhile isHexDigit)
  | '0' :: digits => readDigits 8 (digits.takeWhile isOctalDigit)
  | digits => readDigits 10 (digits.takeWhile isDigit)

def readInteger : List Char → Int
  | '-' :: digits => -(readMagnitude digits : Int)
  | '+' :: digits => readMagnitude digits
  | digits => readMagnitude digits

def strtoll (text : List Char) : Int :=
  max (-2 ^ 63) (min (2 ^ 63 - 1) (readInteger text))

def stoll (text : List Char) : Option Int :=
  let n := readInteger text
  if -2 ^ 63 ≤ n ∧ n < 2 ^ 63 then some n else none

def fromChars (text : List Char) : Option Nat :=
  let n := readDigits 10 (text.takeWhile isDigit)
  if n < 2 ^ 64 then some n else none

variable {d n : Nat}

theorem digitValue_digitChar (h : d < 16) : digitValue (digitChar d) = d := by
  have hall : ∀ d : Fin 16, digitValue (digitChar d) = d := by decide
  exact hall ⟨d, h⟩

theorem isHexDigit_digitChar (h : d < 16) : isHexDigit (digitChar d) = true := by
  have hall : ∀ d : Fin 16, isHexDigit (digitChar d) = true := by decide
  exact hall ⟨d, h⟩

theorem isDigit_digitChar (h : d < 10) : isDigit (digitChar d) = true := by
  have hall : ∀ d : Fin 10, isDigit (digitChar d) = true := by decide
  exact hall ⟨d, h⟩

section Digits

variable {base : Nat} (hbase : 1 < base)
include hbase

theorem readDigits_toDigits (hle : base ≤ 16) (n : Nat) :
    readDigits base (toDigits base n) = n := by
  induction n using Nat.strongRecOn with
  | ind n ih =>
    rw [toDigits_eq_if hbase]
    split
    next hlt => simp [readDigits, digitValue_digitChar (Nat.lt_of_lt_of_le hlt hle)]
    next hge =>
      have hdiv : n / base < n := Nat.div_lt_self (by omega) hbase
      have hmod : n % base < 16 := Nat.lt_of_lt_of_le (mod_lt _ (by omega)) hle
      have hih := ih (n / base) hdiv
      unfold readDigits at hih ⊢
      rw [List.foldl_append, hih, List.foldl_cons, List.foldl_nil,
        digitValue_digitChar hmod, div_add_mod]

theorem forall_mem_toDigits {P : Char → Prop} (hdigit : ∀ d, d < base → P (digitChar d))
    (n : Nat) : ∀ c ∈ toDigits base n, P c := by
  induction n using Nat.strongRecOn with
  | ind n ih =>
    rw [toDigits_eq_if hbase]
    intro c hc
    split at hc
    next hlt =>
      rw [List.mem_singleton] at hc
      exact hc ▸ hdigit n hlt
    next hge =>
      rcases List.mem_append.mp hc with hc | hc
      · exact ih (n / base) (Nat.div_lt_self (by omega) hbase) c hc
      · rw [List.mem_singleton] at hc
        exact hc ▸ hdigit (n % base) (mod_lt _ (by omega))

theorem head_toDigits (hle : base ≤ 16) {n : Nat} (hn : 0 < n) :
    (toDigits base n).head? ≠ some '0' := by
  induction n using Nat.strongRecOn with
  | ind n ih =>
    rw [toDigits_eq_if hbase]
    split
    next hlt =>
      have hvalue := digitValue_digitChar (Nat.lt_of_lt_of_le hlt hle)
      intro hzero
      rw [List.head?_cons, Option.some.injEq] at hzero
      rw [hzero] at hvalue
      have hdigit : digitValue '0' = 0 := by decide
      omega
    next hge =>
      have hpos : 0 < n / base := Nat.div_pos (by omega) (by omega)
      have hne : toDigits base (n / base) ≠ [] := toDigits_ne_nil
      obtain ⟨c, hc⟩ : ∃ c, (toDigits base (n / base)).head? = some c :=
        ⟨_, List.head?_eq_some_head hne⟩
      have hih := ih (n / base) (Nat.div_lt_self (by omega) hbase) hpos
      rw [List.head?_append, hc, Option.some_or, ← hc]
      exact hih

end Digits

theorem isDigit_of_mem_decimal : ∀ c ∈ decimal n, isDigit c = true :=
  forall_mem_toDigits (by decide) (fun _ h => isDigit_digitChar h) n

theorem isHexDigit_of_mem_hexadecimal : ∀ c ∈ hexadecimal n, isHexDigit c = true :=
  forall_mem_toDigits (by decide) (fun _ h => isHexDigit_digitChar h) n

theorem decimal_ne_nil (n : Nat) : decimal n ≠ [] := toDigits_ne_nil

theorem hexadecimal_ne_nil (n : Nat) : hexadecimal n ≠ [] := toDigits_ne_nil

theorem readMagnitude_decimal (n : Nat) : readMagnitude (decimal n) = n := by
  rcases Nat.eq_zero_or_pos n with rfl | hn
  · rfl
  · have hhead : (decimal n).head? ≠ some '0' := head_toDigits (by decide) (by decide) hn
    have hread : readMagnitude (decimal n) =
        readDigits 10 ((decimal n).takeWhile isDigit) := by
      cases hdigits : decimal n with
      | nil => rfl
      | cons c cs =>
        have hc : c ≠ '0' := by simpa [hdigits] using hhead
        simp [readMagnitude, hc]
    rw [hread, List.takeWhile_eq_self_iff.mpr isDigit_of_mem_decimal]
    exact readDigits_toDigits (by decide) (by decide) n

theorem readMagnitude_hexadecimal (n : Nat) :
    readMagnitude ('0' :: 'x' :: hexadecimal n) = n := by
  rw [readMagnitude, List.takeWhile_eq_self_iff.mpr isHexDigit_of_mem_hexadecimal]
  exact readDigits_toDigits (by decide) (by decide) n

theorem readInteger_decimal (n : Nat) : readInteger (decimal n) = n := by
  have hread : readInteger (decimal n) = readMagnitude (decimal n) := by
    cases hdigits : decimal n with
    | nil => rfl
    | cons c cs =>
      have hc : isDigit c = true := isDigit_of_mem_decimal (n := n) c (by simp [hdigits])
      have hminus : c ≠ '-' := by rintro rfl; exact absurd hc (by decide)
      have hplus : c ≠ '+' := by rintro rfl; exact absurd hc (by decide)
      simp [readInteger, hminus, hplus]
  rw [hread, readMagnitude_decimal]

theorem strtoll_eq_readInteger {text : List Char} (hlow : -2 ^ 63 ≤ readInteger text)
    (hhigh : readInteger text < 2 ^ 63) : strtoll text = readInteger text := by
  unfold strtoll
  omega

theorem strtoll_decimal (h : n < 2 ^ 63) : strtoll (decimal n) = n := by
  have hread := readInteger_decimal n
  rw [strtoll_eq_readInteger (by omega) (by omega), hread]

theorem fromChars_decimal (h : n < 2 ^ 64) : fromChars (decimal n) = some n := by
  have hread : readDigits 10 (decimal n) = n :=
    readDigits_toDigits (by decide) (by decide) n
  unfold fromChars
  rw [List.takeWhile_eq_self_iff.mpr isDigit_of_mem_decimal, hread]
  exact if_pos h

end CinderX.Foundation
