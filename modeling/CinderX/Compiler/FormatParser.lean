import CinderX.Compiler.PythonAst

/-!
# Format strings

`FormatParser` takes a format apart.  What it has left to read is a list, with the
character at `pos` at its head.
-/

namespace CinderX.Compiler.Optimizer

def F_LJUST : Nat := 1 <<< 0
def F_SIGN : Nat := 1 <<< 1
def F_BLANK : Nat := 1 <<< 2
def F_ALT : Nat := 1 <<< 3
def F_ZERO : Nat := 1 <<< 4

def flagVal (ch : Char) : Option Nat :=
  if ch = '-' then some F_LJUST
  else if ch = '+' then some F_SIGN
  else if ch = ' ' then some F_BLANK
  else if ch = '#' then some F_ALT
  else if ch = '0' then some F_ZERO
  else none

def MAXDIGITS : Nat := 3

inductive FormatError
  | UnsupportedFormat
  | IndexError
  deriving DecidableEq

structure FormatInfo where
  spec : Char
  flags : Nat
  width : Option Nat
  prec : Option Nat
  deriving DecidableEq

/-- What is left at the next character.  The position is compared with the size before it
is advanced. -/
def nextCh : List Char → Except FormatError (List Char)
  | [] => .error .UnsupportedFormat
  | [_] => .error .IndexError
  | _ :: rest => .ok rest

def parseInt (res digits : Nat) : List Char → Except FormatError (Nat × List Char)
  | [] => .error .IndexError
  | ch :: rest =>
    if ch.isDigit then
      if rest = [] then .error .IndexError
      else if digits + 1 ≥ MAXDIGITS then .error .UnsupportedFormat
      else parseInt (10 * res + (ch.toNat - '0'.toNat)) (digits + 1) rest
    else .ok (res, ch :: rest)

def parseFlags (flags : Nat) : List Char → Except FormatError (Nat × List Char)
  | [] => .error .IndexError
  | ch :: rest =>
    match flagVal ch with
    | some flag => if rest = [] then .error .IndexError else parseFlags (flags ||| flag) rest
    | none => .ok (flags, ch :: rest)

def parseStr : List Char → List Char × List Char
  | '%' :: '%' :: rest =>
    let (component, rest) := parseStr rest
    ('%' :: component, rest)
  | '%' :: rest => ([], '%' :: rest)
  | ch :: rest =>
    let (component, rest) := parseStr rest
    (ch :: component, rest)
  | [] => ([], [])

def parseWidth : List Char → Except FormatError (Option Nat × List Char)
  | [] => .error .IndexError
  | ch :: rest =>
    if ch.isDigit then do
      let (width, rest) ← parseInt 0 0 (ch :: rest)
      return (some width, rest)
    else .ok (none, ch :: rest)

def parsePrec : List Char → Except FormatError (Option Nat × List Char)
  | [] => .error .IndexError
  | ch :: rest =>
    if ch = '.' then do
      let rest ← nextCh (ch :: rest)
      let (prec, rest) ← parseInt 0 0 rest
      return (some prec, rest)
    else .ok (none, ch :: rest)

def parseSpec (rest : List Char) : Except FormatError (FormatInfo × List Char) := do
  let rest ← nextCh rest
  let (flags, rest) ← parseFlags 0 rest
  let (width, rest) ← parseWidth rest
  let (prec, rest) ← parsePrec rest
  match rest with
  | [] => .error .IndexError
  | spec :: rest => return (⟨spec, flags, width, prec⟩, rest)

variable {rest rest' : List Char} {ε α β : Type} {x : Except ε α} {f : α → Except ε β}

theorem length_of_nextCh (h : nextCh rest = .ok rest') :
    rest'.length < rest.length := by
  match rest with
  | [] => cases h
  | [_] => cases h
  | _ :: _ :: _ =>
    cases h
    exact Nat.lt_succ_self _

theorem length_of_parseInt {res digits n : Nat}
    (h : parseInt res digits rest = .ok (n, rest')) : rest'.length ≤ rest.length := by
  induction rest generalizing res digits with
  | nil => cases h
  | cons ch rest ih =>
    unfold parseInt at h
    split at h
    · split at h
      · cases h
      · split at h
        · cases h
        · exact Nat.le_succ_of_le (ih h)
    · cases h
      exact Nat.le_refl _

theorem length_of_parseFlags {flags flags' : Nat}
    (h : parseFlags flags rest = .ok (flags', rest')) : rest'.length ≤ rest.length := by
  induction rest generalizing flags with
  | nil => cases h
  | cons ch rest ih =>
    unfold parseFlags at h
    split at h
    · split at h
      · cases h
      · exact Nat.le_succ_of_le (ih h)
    · cases h
      exact Nat.le_refl _

theorem length_parseStr (rest : List Char) : (parseStr rest).2.length ≤ rest.length := by
  fun_induction parseStr rest with
  | case1 rest component rest' heq ih =>
    rw [heq] at ih
    exact Nat.le_add_right_of_le (Nat.le_add_right_of_le ih)
  | case2 => exact Nat.le_refl _
  | case3 ch rest _ _ component rest' heq ih =>
    rw [heq] at ih
    exact Nat.le_add_right_of_le ih
  | case4 => exact Nat.le_refl _

theorem Except.bind_eq_ok {r : β} :
    (x >>= f) = .ok r ↔ ∃ a, x = .ok a ∧ f a = .ok r := by
  cases x with
  | error e => simp [bind, Except.bind]
  | ok a => simp [bind, Except.bind]

theorem Except.bind_eq_error {e : ε} :
    (x >>= f) = .error e ↔ x = .error e ∨ ∃ a, x = .ok a ∧ f a = .error e := by
  cases x with
  | error e => simp [bind, Except.bind]
  | ok a => simp [bind, Except.bind]

theorem length_of_parseWidth {width : Option Nat}
    (h : parseWidth rest = .ok (width, rest')) : rest'.length ≤ rest.length := by
  cases rest with
  | nil => cases h
  | cons ch rest =>
    simp only [parseWidth] at h
    split at h
    · obtain ⟨⟨n, rest₁⟩, hint, h⟩ := Except.bind_eq_ok.mp h
      cases h
      exact length_of_parseInt hint
    · cases h
      exact Nat.le_refl _

theorem length_of_parsePrec {prec : Option Nat}
    (h : parsePrec rest = .ok (prec, rest')) : rest'.length ≤ rest.length := by
  cases rest with
  | nil => cases h
  | cons ch rest =>
    simp only [parsePrec] at h
    split at h
    · obtain ⟨rest₁, hnext, h⟩ := Except.bind_eq_ok.mp h
      obtain ⟨⟨n, rest₂⟩, hint, h⟩ := Except.bind_eq_ok.mp h
      cases h
      exact Nat.le_trans (length_of_parseInt hint) (Nat.le_of_lt (length_of_nextCh hnext))
    · cases h
      exact Nat.le_refl _

theorem length_of_parseSpec {info : FormatInfo}
    (h : parseSpec rest = .ok (info, rest')) : rest'.length < rest.length := by
  obtain ⟨rest₁, hnext, h⟩ := Except.bind_eq_ok.mp h
  obtain ⟨⟨flags, rest₂⟩, hflags, h⟩ := Except.bind_eq_ok.mp h
  obtain ⟨⟨width, rest₃⟩, hwidth, h⟩ := Except.bind_eq_ok.mp h
  obtain ⟨⟨prec, rest₄⟩, hprec, h⟩ := Except.bind_eq_ok.mp h
  have h₁ := length_of_nextCh hnext
  have h₂ := length_of_parseFlags hflags
  have h₃ := length_of_parseWidth hwidth
  have h₄ := length_of_parsePrec hprec
  cases rest₄ with
  | nil => cases h
  | cons spec rest₄ =>
    cases h
    rw [List.length_cons] at h₄
    omega

def FormatInfo.res (info : FormatInfo) : List Char :=
  (if info.flags &&& F_LJUST = 0 ∧ info.width.getD 0 ≠ 0 then ['>'] else []) ++
    (match info.width with
    | some width => Nat.toDigits 10 width
    | none => []) ++
    match info.prec with
    | some prec => '.' :: Nat.toDigits 10 prec
    | none => []

def Conversion.ofChar? (ch : Char) : Option Conversion :=
  if ch = 's' then some .str
  else if ch = 'r' then some .repr
  else if ch = 'a' then some .ascii
  else none

def FormatInfo.asFormattedValue (info : FormatInfo) (arg : Expr) : Option Expr := do
  let conversion ← Conversion.ofChar? info.spec
  return .FormattedValue arg (some conversion)
    (if info.res = [] then none else some (.Constant (.str info.res)))

def itemValue (item : List Char) : List Expr :=
  if item = [] then [] else [.Constant (.str item)]

/-- The loop of `optimize_format`, with the elements that are left and the values so far;
`none` is where it returns the node as it is. -/
def formatValues (val : List Char) (elts seq : List Expr) :
    Except FormatError (Option (List Expr)) :=
  if (parseStr val).2 = [] then
    return if elts = [] then some (seq ++ itemValue (parseStr val).1) else none
  else
    match _hspec : parseSpec (parseStr val).2 with
    | .error e => .error e
    | .ok (info, rest) =>
      match elts with
      | [] => return none
      | elt :: elts =>
        match info.asFormattedValue elt with
        | none => return none
        | some formatted =>
          formatValues rest elts (seq ++ itemValue (parseStr val).1 ++ [formatted])
  termination_by val.length
  decreasing_by
    exact Nat.lt_of_lt_of_le (length_of_parseSpec _hspec) (length_parseStr val)

end CinderX.Compiler.Optimizer

/-!
## How strings are formatted

What `%` does with the conversions `s`, `r` and `a`, and what `format` does with a
string, as the language describes them.
-/

namespace CinderX.Compiler.Optimizer

inductive Piece
  | char (ch : Char)
  | conv (ljust : Bool) (width : Nat) (prec : Option Nat) (conversion : Conversion)
  deriving DecidableEq

def Piece.isConv : Piece → Bool
  | .conv .. => true
  | .char _ => false

def isFlag (ch : Char) : Bool := (flagVal ch).isSome

def number (digits : List Char) : Nat := Nat.ofDigitChars 10 digits 0

def precision : List Char → Option Nat × List Char
  | '.' :: rest => (some (number (rest.takeWhile Char.isDigit)), rest.dropWhile Char.isDigit)
  | rest => (none, rest)

/-- The flags, the width, the precision and the conversion behind a `%`. -/
def printfSpec (rest : List Char) : Option (Piece × List Char) :=
  let ljust := decide ('-' ∈ rest.takeWhile isFlag)
  let rest := rest.dropWhile isFlag
  let width := number (rest.takeWhile Char.isDigit)
  let rest := rest.dropWhile Char.isDigit
  let prec := (precision rest).1
  match (precision rest).2 with
  | [] => none
  | ch :: rest => (Conversion.ofChar? ch).map fun c => (.conv ljust width prec c, rest)

theorem length_precision (rest : List Char) : (precision rest).2.length ≤ rest.length := by
  unfold precision
  split
  · exact Nat.le_succ_of_le (List.length_dropWhile_le ..)
  · exact Nat.le_refl _

theorem length_of_printfSpec {rest rest' : List Char} {piece : Piece}
    (h : printfSpec rest = some (piece, rest')) : rest'.length < rest.length := by
  have hflags := List.length_dropWhile_le isFlag rest
  have hwidth := List.length_dropWhile_le Char.isDigit (rest.dropWhile isFlag)
  have hprec := length_precision ((rest.dropWhile isFlag).dropWhile Char.isDigit)
  unfold printfSpec at h
  dsimp only at h
  split at h
  · cases h
  · rename_i ch rest₁ heq
    obtain ⟨c, -, h⟩ := Option.map_eq_some_iff.mp h
    cases h
    rw [heq, List.length_cons] at hprec
    omega

/-- The parts of a format, read from its start; `none` when it has conversions of another
type, or stops in one. -/
def printfPieces : List Char → Option (List Piece)
  | [] => some []
  | '%' :: '%' :: rest => (printfPieces rest).map (.char '%' :: ·)
  | '%' :: rest =>
    match _hspec : printfSpec rest with
    | none => none
    | some (piece, rest') => (printfPieces rest').map (piece :: ·)
  | ch :: rest => (printfPieces rest).map (.char ch :: ·)
  termination_by format => format.length
  decreasing_by
    · exact Nat.lt_add_of_pos_right Nat.two_pos
    · exact Nat.lt_succ_of_lt (length_of_printfSpec _hspec)
    · exact Nat.lt_succ_self _

def truncate (prec : Option Nat) (text : List Char) : List Char :=
  match prec with
  | some n => text.take n
  | none => text

def pad (ljust : Bool) (width : Nat) (text : List Char) : List Char :=
  if ljust then text ++ List.replicate (width - text.length) ' '
  else List.replicate (width - text.length) ' ' ++ text

def isAlign (ch : Char) : Bool := ch = '<' || ch = '>' || ch = '=' || ch = '^'

def alignSpec : List Char → Option Char × Option Char × List Char
  | fill :: align :: rest =>
    if isAlign align then (some fill, some align, rest)
    else if isAlign fill then (none, some fill, align :: rest)
    else (none, none, fill :: align :: rest)
  | [align] => if isAlign align then (none, some align, []) else (none, none, [align])
  | [] => (none, none, [])

def padTo (align fill : Char) (width : Nat) (text : List Char) : Option (List Char) :=
  let n := width - text.length
  if align = '<' then some (text ++ List.replicate n fill)
  else if align = '>' then some (List.replicate n fill ++ text)
  else if align = '^' then
    some (List.replicate (n / 2) fill ++ text ++ List.replicate (n - n / 2) fill)
  else none

def zeroFill : Option Char → List Char → Option Char × List Char
  | none, '0' :: rest => (some '0', rest)
  | fill, rest => (fill, rest)

/-- `format(text, spec)` for a string; `none` is a `ValueError`, which a sign, `#`, `,` and
the types of numbers are. -/
def formatText (spec text : List Char) : Option (List Char) :=
  let (fill, align, rest) := alignSpec spec
  let (fill, rest) := zeroFill fill rest
  let width := number (rest.takeWhile Char.isDigit)
  match rest.dropWhile Char.isDigit with
  | '.' :: rest =>
    let digits := rest.takeWhile Char.isDigit
    if digits = [] then none
    else if rest.dropWhile Char.isDigit = [] ∨ rest.dropWhile Char.isDigit = ['s'] then
      padTo (align.getD '<') (fill.getD ' ') width (text.take (number digits))
    else none
  | rest =>
    if rest = [] ∨ rest = ['s'] then padTo (align.getD '<') (fill.getD ' ') width text
    else none

end CinderX.Compiler.Optimizer
