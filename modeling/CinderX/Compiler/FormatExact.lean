import CinderX.Compiler.FormattedMeaning

/-!
# Formats that stop in a conversion

`next_ch` compares the position with the size before it advances, so that a format that
ends in a conversion is read past its end.  Every other format is rewritten exactly, or
not at all.
-/

namespace CinderX.Compiler.Optimizer

open List

/-! ## Where reading stops -/

def precDigits : List Char → List Char
  | '.' :: rest => rest.takeWhile Char.isDigit
  | _ => []

def widthDigits (rest : List Char) : List Char :=
  (rest.dropWhile isFlag).takeWhile Char.isDigit

def afterWidth (rest : List Char) : List Char :=
  (rest.dropWhile isFlag).dropWhile Char.isDigit

/-- Behind a `%`, the format ends before the type of the conversion; a third digit is only
read as one too many if something follows it. -/
def Stops (rest : List Char) : Prop :=
  ((widthDigits rest).length ≤ 3 ∧ afterWidth rest = []) ∨
    ((widthDigits rest).length ≤ 2 ∧ (precDigits (afterWidth rest)).length ≤ 3 ∧
      (precision (afterWidth rest)).2 = [])

def Short (rest : List Char) : Prop :=
  (widthDigits rest).length ≤ 2 ∧ (precDigits (afterWidth rest)).length ≤ 2

/-- The format stops in a conversion.  The conversions before it have two digits at most, a
type `s`, `r` or `a`, and one of the `n` arguments each. -/
inductive CutOff : List Char → Nat → Prop
  | here {val rest n} (h : (parseStr val).2 = '%' :: rest) (hstops : Stops rest) : CutOff val n
  | later {val rest piece rest' n} (h : (parseStr val).2 = '%' :: rest) (hshort : Short rest)
      (hspec : printfSpec rest = some (piece, rest')) (hrest : CutOff rest' n) :
      CutOff val (n + 1)

/-- What comes of reading digits that a rest of the format follows. -/
def readNumber {α : Type} (digits tail : List Char) (a : α) :
    Except FormatError (α × List Char) :=
  if digits.length ≤ 3 ∧ tail = [] then .error .IndexError
  else if digits.length ≤ 2 then .ok (a, tail)
  else .error .UnsupportedFormat

theorem parseInt_eq (rest : List Char) (res digits : Nat) (hdigits : digits ≤ 2) :
    ∃ n, parseInt res digits rest =
      if (rest.takeWhile Char.isDigit).length + digits ≤ 3 ∧ rest.dropWhile Char.isDigit = [] then
        .error .IndexError
      else if (rest.takeWhile Char.isDigit).length + digits ≤ 2 then
        .ok (n, rest.dropWhile Char.isDigit)
      else .error .UnsupportedFormat := by
  induction rest generalizing res digits with
  | nil => exact ⟨0, by simp [parseInt]; omega⟩
  | cons ch rest ih =>
    unfold parseInt
    by_cases hdigit : ch.isDigit
    · rw [if_pos hdigit, takeWhile_cons_of_pos hdigit, dropWhile_cons_of_pos hdigit,
        length_cons]
      by_cases hrest : rest = []
      · subst hrest
        exact ⟨0, by simp; omega⟩
      rw [if_neg hrest]
      by_cases hmany : digits + 1 ≥ MAXDIGITS
      · refine ⟨0, ?_⟩
        rw [if_pos hmany, if_neg, if_neg (by unfold MAXDIGITS at hmany; omega)]
        rintro ⟨hle, hnil⟩
        have hlength := congrArg List.length (takeWhile_append_dropWhile (p := Char.isDigit)
          (l := rest))
        rw [hnil, append_nil] at hlength
        have hpos := length_pos_iff.mpr hrest
        unfold MAXDIGITS at hmany
        omega
      · obtain ⟨n, hn⟩ := ih (10 * res + (ch.toNat - '0'.toNat)) (digits + 1)
          (by unfold MAXDIGITS at hmany; omega)
        exact ⟨n, by rw [if_neg hmany, hn]; simp only [Nat.add_assoc, Nat.add_comm 1]⟩
    · rw [if_neg hdigit, takeWhile_cons_of_neg hdigit, dropWhile_cons_of_neg hdigit]
      exact ⟨res, by simp [hdigits]⟩

theorem parseNumber_eq (rest : List Char) : ∃ n, parseInt 0 0 rest =
    readNumber (rest.takeWhile Char.isDigit) (rest.dropWhile Char.isDigit) n :=
  parseInt_eq rest 0 0 (Nat.zero_le 2)

theorem readNumber_some {α : Type} (digits tail : List Char) (a : α) :
    (do
      let (a, rest) ← readNumber digits tail a
      return (some a, rest)) = readNumber digits tail (some a) := by
  unfold readNumber
  split
  · rfl
  · split <;> rfl

theorem parseFlags_eq (flags : Nat) (rest : List Char) :
    ∃ f, parseFlags flags rest =
      if rest.dropWhile isFlag = [] then .error .IndexError
      else .ok (f, rest.dropWhile isFlag) := by
  induction rest generalizing flags with
  | nil => exact ⟨0, rfl⟩
  | cons ch rest ih =>
    unfold parseFlags
    cases hflag : flagVal ch with
    | none =>
      rw [dropWhile_cons_of_neg (by simp [isFlag, hflag])]
      exact ⟨flags, by simp⟩
    | some flag =>
      rw [dropWhile_cons_of_pos (by simp [isFlag, hflag])]
      by_cases hrest : rest = []
      · exact ⟨0, by simp [hrest]⟩
      · simpa [hrest] using ih (flags ||| flag)

variable {rest val : List Char} {n : Nat}

theorem parseWidth_eq (hrest : rest ≠ []) :
    ∃ width, parseWidth rest =
      readNumber (rest.takeWhile Char.isDigit) (rest.dropWhile Char.isDigit) width := by
  cases rest with
  | nil => exact absurd rfl hrest
  | cons ch rest =>
    by_cases hdigit : ch.isDigit
    · obtain ⟨n, hn⟩ := parseNumber_eq (ch :: rest)
      exact ⟨some n, by rw [parseWidth, if_pos hdigit, hn, readNumber_some]⟩
    · refine ⟨none, ?_⟩
      rw [parseWidth, if_neg hdigit, takeWhile_cons_of_neg hdigit,
        dropWhile_cons_of_neg hdigit]
      rfl

theorem parsePrec_eq (hrest : rest ≠ []) :
    ∃ prec, parsePrec rest = readNumber (precDigits rest) (precision rest).2 prec := by
  cases rest with
  | nil => exact absurd rfl hrest
  | cons ch rest =>
    by_cases hdot : ch = '.'
    · subst hdot
      by_cases hnil : rest = []
      · subst hnil
        exact ⟨none, rfl⟩
      · obtain ⟨n, hn⟩ := parseNumber_eq rest
        have hnext : nextCh ('.' :: rest) = .ok rest := by
          cases rest with
          | nil => exact absurd rfl hnil
          | cons => rfl
        refine ⟨some n, ?_⟩
        rw [parsePrec, if_pos rfl, hnext]
        change (do
          let read ← parseInt 0 0 rest
          return (some read.1, read.2)) = _
        rw [hn, readNumber_some]
        rfl
    · refine ⟨none, ?_⟩
      have hdigits : precDigits (ch :: rest) = [] := by
        unfold precDigits
        split
        · next heq => exact absurd (List.cons.inj heq).1 hdot
        · rfl
      have htail : (precision (ch :: rest)).2 = ch :: rest := by
        unfold precision
        split
        · next heq => exact absurd (List.cons.inj heq).1 hdot
        · rfl
      rw [parsePrec, if_neg hdot, hdigits, htail]
      rfl

/-- The last step of `parseSpec`, which reads the conversion character. -/
def readSpec (flags : Nat) (width prec : Option Nat) :
    List Char → Except FormatError (FormatInfo × List Char)
  | [] => .error .IndexError
  | spec :: rest => .ok (⟨spec, flags, width, prec⟩, rest)

theorem parseSpec_outcome (rest : List Char) :
    Stops rest ∧ parseSpec ('%' :: rest) = .error .IndexError ∨
    ¬Stops rest ∧ Short rest ∧ (∃ info spec rest', (precision (afterWidth rest)).2 = spec :: rest' ∧
      info.spec = spec ∧ parseSpec ('%' :: rest) = .ok (info, rest')) ∨
    ¬Stops rest ∧ ¬Short rest ∧ parseSpec ('%' :: rest) = .error .UnsupportedFormat := by
  by_cases hflags : rest.dropWhile isFlag = []
  · have hafter : afterWidth rest = [] := by rw [afterWidth, hflags, dropWhile_nil]
    have hwidth : widthDigits rest = [] := by rw [widthDigits, hflags, takeWhile_nil]
    refine .inl ⟨.inl ⟨by simp [hwidth], hafter⟩, ?_⟩
    cases rest with
    | nil => rfl
    | cons ch rest =>
      obtain ⟨f, hf⟩ := parseFlags_eq 0 (ch :: rest)
      rw [if_pos hflags] at hf
      simp only [parseSpec, nextCh, bind, Except.bind, hf]
  have hnext : nextCh ('%' :: rest) = .ok rest := by
    cases rest with
    | nil => exact absurd rfl hflags
    | cons => rfl
  obtain ⟨f, hf⟩ := parseFlags_eq 0 rest
  rw [if_neg hflags] at hf
  obtain ⟨width, hwidth⟩ := parseWidth_eq hflags
  change parseWidth _ = readNumber (widthDigits rest) (afterWidth rest) width at hwidth
  have hspec : parseSpec ('%' :: rest) = (do
      let width ← readNumber (widthDigits rest) (afterWidth rest) width
      let prec ← parsePrec width.2
      readSpec f width.1 prec.1 prec.2) := by
    rw [parseSpec, hnext]
    change (do
      let flags ← parseFlags 0 rest
      let width ← parseWidth flags.2
      let prec ← parsePrec width.2
      readSpec flags.1 width.1 prec.1 prec.2) = _
    rw [hf]
    change (do
      let width ← parseWidth (rest.dropWhile isFlag)
      let prec ← parsePrec width.2
      readSpec f width.1 prec.1 prec.2) = _
    rw [hwidth]
  rw [hspec, Stops, Short, readNumber]
  by_cases hstop : (widthDigits rest).length ≤ 3 ∧ afterWidth rest = []
  · exact .inl ⟨.inl hstop, by rw [if_pos hstop]; rfl⟩
  rw [if_neg hstop]
  by_cases hshort : (widthDigits rest).length ≤ 2
  swap
  · refine .inr (.inr ⟨?_, fun h => hshort h.1, by rw [if_neg hshort]; rfl⟩)
    rintro (h | h)
    · exact hstop h
    · exact hshort h.1
  rw [if_pos hshort]
  have hafter : afterWidth rest ≠ [] := fun h => hstop ⟨by omega, h⟩
  obtain ⟨prec, hprec⟩ := parsePrec_eq hafter
  simp only [bind, Except.bind, hprec, readNumber]
  by_cases hend : (precDigits (afterWidth rest)).length ≤ 3 ∧ (precision (afterWidth rest)).2 = []
  · exact .inl ⟨.inr ⟨hshort, hend⟩, by rw [if_pos hend]⟩
  have hnot : ¬((widthDigits rest).length ≤ 3 ∧ afterWidth rest = [] ∨
      (widthDigits rest).length ≤ 2 ∧ (precDigits (afterWidth rest)).length ≤ 3 ∧
        (precision (afterWidth rest)).2 = []) := by
    rintro (h | h)
    · exact hstop h
    · exact hend h.2
  rw [if_neg hend]
  by_cases hfew : (precDigits (afterWidth rest)).length ≤ 2
  · rw [if_pos hfew]
    refine .inr (.inl ⟨hnot, ⟨hshort, hfew⟩, ?_⟩)
    cases htail : (precision (afterWidth rest)).2 with
    | nil => exact absurd ⟨by omega, htail⟩ hend
    | cons spec rest' => exact ⟨⟨spec, f, width, prec⟩, spec, rest', rfl, rfl, rfl⟩
  · exact .inr (.inr ⟨hnot, fun h => hfew h.2, by rw [if_neg hfew]⟩)

theorem printfSpec_eq (rest : List Char) : printfSpec rest =
    match (precision (afterWidth rest)).2 with
    | [] => none
    | ch :: rest' => (Conversion.ofChar? ch).map fun c =>
      (.conv (decide ('-' ∈ rest.takeWhile isFlag)) (number (widthDigits rest))
        (precision (afterWidth rest)).1 c, rest') := rfl

theorem parseSpec_read {info : FormatInfo} {rest rest' : List Char}
    (h : parseSpec ('%' :: rest) = .ok (info, rest')) :
    ¬Stops rest ∧ Short rest ∧ ((Conversion.ofChar? info.spec).isSome ↔
      ∃ piece, printfSpec rest = some (piece, rest')) ∧
      ∀ piece rest'', printfSpec rest = some (piece, rest'') → rest'' = rest' := by
  rcases parseSpec_outcome rest with ⟨-, heq⟩ |
    ⟨hstops, hshort, info', spec, rest₁, htail, hinfo, heq⟩ |
    ⟨-, -, heq⟩
  · rw [heq] at h
    cases h
  · rw [heq] at h
    cases h
    refine ⟨hstops, hshort, ?_, ?_⟩
    · rw [printfSpec_eq, htail, hinfo]
      simp [Option.isSome_iff_exists]
    · intro piece rest'' hpiece
      rw [printfSpec_eq, htail] at hpiece
      obtain ⟨c, -, hc⟩ := Option.map_eq_some_iff.mp hpiece
      exact (Prod.mk.inj hc).2.symm
  · rw [heq] at h
    cases h

theorem CutOff.parseStr (h : CutOff val n) :
    ∃ rest, (parseStr val).2 = '%' :: rest := by
  cases h with
  | here h => exact ⟨_, h⟩
  | later h => exact ⟨_, h⟩

theorem cutOff_iff (h : (parseStr val).2 = '%' :: rest) :
    CutOff val n ↔ Stops rest ∨ ∃ m piece rest', n = m + 1 ∧ Short rest ∧
      printfSpec rest = some (piece, rest') ∧ CutOff rest' m := by
  constructor
  · intro hcut
    induction hcut with
    | here h' hstops =>
      obtain rfl := (List.cons.inj (h.symm.trans h')).2
      exact .inl hstops
    | later h' hshort hspec hrest =>
      obtain rfl := (List.cons.inj (h.symm.trans h')).2
      exact .inr ⟨_, _, _, rfl, hshort, hspec, hrest⟩
  · rintro (hstops | ⟨m, piece, rest', rfl, hshort, hspec, hrest⟩)
    · exact .here h hstops
    · exact .later h hshort hspec hrest

theorem formatValues_error_iff (val : List Char) (elts seq : List Expr) :
    formatValues val elts seq = .error .IndexError ↔ CutOff val elts.length := by
  fun_induction formatValues val elts seq with
  | case1 val elts seq hrest =>
    refine iff_of_false (by rintro ⟨⟩) fun h => ?_
    obtain ⟨rest, hpercent⟩ := h.parseStr
    simp [hrest] at hpercent
  | case2 val elts seq hrest e hspec =>
    obtain ⟨rest, hpercent⟩ := (parseStr_rest val).resolve_left hrest
    rw [cutOff_iff hpercent]
    rw [hpercent] at hspec
    rcases parseSpec_outcome rest with ⟨hstops, heq⟩ | ⟨-, -, info, _, _, -, -, heq⟩ |
      ⟨hstops, hshort, heq⟩
    · rw [heq] at hspec
      cases hspec
      exact iff_of_true rfl (.inl hstops)
    · rw [heq] at hspec
      cases hspec
    · rw [heq] at hspec
      cases hspec
      refine iff_of_false (by rintro ⟨⟩) ?_
      rintro (h | ⟨_, _, _, -, h, -⟩)
      · exact hstops h
      · exact hshort h
  | case3 val seq hrest info rest hspec =>
    obtain ⟨rest₁, hpercent⟩ := (parseStr_rest val).resolve_left hrest
    rw [cutOff_iff hpercent]
    rw [hpercent] at hspec
    refine iff_of_false (by rintro ⟨⟩) ?_
    rintro (h | ⟨_, _, _, h, -⟩)
    · exact (parseSpec_read hspec).1 h
    · simp at h
  | case4 val seq hrest info rest hspec elt elts hformatted =>
    obtain ⟨rest₁, hpercent⟩ := (parseStr_rest val).resolve_left hrest
    rw [cutOff_iff hpercent]
    rw [hpercent] at hspec
    obtain ⟨hstops, -, hspec', hrest'⟩ := parseSpec_read hspec
    refine iff_of_false (by rintro ⟨⟩) ?_
    rintro (h | ⟨_, piece, rest', -, -, h, -⟩)
    · exact hstops h
    · obtain ⟨c, hc⟩ := Option.isSome_iff_exists.mp (hspec'.mpr ⟨piece, hrest' _ _ h ▸ h⟩)
      simp [FormatInfo.asFormattedValue, hc] at hformatted
  | case5 val seq hrest info rest hspec elt elts formatted hformatted ih =>
    obtain ⟨rest₁, hpercent⟩ := (parseStr_rest val).resolve_left hrest
    rw [ih, cutOff_iff hpercent]
    rw [hpercent] at hspec
    obtain ⟨hstops, hshort, hspec', hrest'⟩ := parseSpec_read hspec
    obtain ⟨c, hc, -⟩ := Option.bind_eq_some_iff.mp hformatted
    obtain ⟨piece, hpiece⟩ := hspec'.mp (by rw [hc]; rfl)
    constructor
    · exact fun h => .inr ⟨_, piece, rest, rfl, hshort, hpiece, h⟩
    · rintro (h | ⟨m, piece', rest', hm, -, h, hcut⟩)
      · exact absurd h hstops
      · obtain rfl := hrest' _ _ h
        cases hm
        exact hcut

namespace Interpreter

variable {M : Type → Type} {V : Type} [Monad M] {py : Interpreter M V}

variable (py) in
def Values (elts : List Expr) (vs : List V) : Prop :=
  List.Forall₂ (fun e v => (py.denote e).value = pure v) elts vs

variable (py) in
/-- `optimize_format` does not raise, and what it returns is the node, or else has the value
of the format for all values of the arguments and is only returned for a format that has no
other conversions and does not stop in one. -/
def Exact (val : List Char) (elts : List Expr) (ctx : Ctx) : Prop :=
  ∃ res, optimizeFormat (.Constant (.str val)) .Mod val elts ctx = .ok res ∧
    (res = .BinOp (.Constant (.str val)) .Mod (.Tuple elts ctx) ∨
      (∃ values, res = .JoinedStr values) ∧ (printfPieces val).isSome ∧
        ∀ vs, py.Values elts vs → (py.denote res).value =
          (py.denote (.BinOp (.Constant (.str val)) .Mod (.Tuple elts ctx))).value)

variable [LawfulMonad M] {vs : List V}

theorem evalThen_values {β : Type} {elts : List Expr} (hvs : py.Values elts vs)
    (k : List V → M β) : evalThen (py.denoteList elts) k = k vs := by
  rw [denoteList_eq_map]
  induction hvs generalizing k with
  | nil => rfl
  | cons hv hvs ih => rw [List.map_cons, evalThen, hv, pure_bind, ih]

theorem inOrder_of_values {pieces : List Piece} {elts : List Expr} (hvs : py.Values elts vs)
    (hplain : py.PlainArguments pieces vs) : py.InOrder pieces (py.denoteList elts) := by
  induction pieces generalizing elts vs with
  | nil => trivial
  | cons piece pieces ih =>
    cases piece with
    | char ch => exact ih hvs hplain
    | conv ljust width prec c =>
      cases hvs with
      | nil => trivial
      | @cons e v elts vs hv hvs =>
        refine ⟨⟨pure ⟨v, hplain.1⟩, ?_⟩, fun β k => ?_, ih hvs hplain.2⟩
        · rw [pure_bind, hv]
        · simp only [hv, pure_bind, evalThen_values hvs]

/-- Formatting is rewritten exactly, unless the format stops in a conversion that the loop
comes to. -/
theorem optimizeFormat_exact_iff (py : Interpreter M V) (hpy : py.Documented) (val : List Char)
    (elts : List Expr) (ctx : Ctx) (hstarred : ∀ e ∈ elts, e.isStarred = false)
    (hplain : ∀ vs pieces, py.Values elts vs → printfPieces val = some pieces →
      py.PlainArguments pieces vs) :
    py.Exact val elts ctx ↔ ¬CutOff val elts.length := by
  rw [← formatValues_error_iff val elts [], Exact, optimizeFormat]
  cases h : formatValues val elts [] with
  | error e =>
    cases e with
    | UnsupportedFormat => exact iff_of_true ⟨_, rfl, .inl rfl⟩ nofun
    | IndexError => exact iff_of_false (by rintro ⟨res, h, -⟩; cases h) (fun h => h rfl)
  | ok r =>
    cases r with
    | none => exact iff_of_true ⟨_, rfl, .inl rfl⟩ nofun
    | some values =>
      obtain ⟨pieces, -, hpieces, -, -⟩ := formatValues_spec h
      refine iff_of_true ⟨_, rfl, .inr ⟨⟨_, rfl⟩, by simp [hpieces], fun vs hvs => ?_⟩⟩ nofun
      rw [denote_joinedStr hpy h hstarred fun pieces hpieces =>
        inOrder_of_values hvs (hplain vs pieces hvs hpieces)]

section Sample

abbrev Log := StateT (List (List Char)) Option

def sampleBinary (text : Conversion → Const → Log (List Char)) (op : Operator)
    (left right : Const) : Log Const :=
  match op, left, right with
  | .Mod, .str s, .tuple vs =>
    match printfPieces s with
    | some pieces =>
      if pieces.countP Piece.isConv = vs.length then
        do return .str (← formatWith text (fun _ => none) pieces vs)
      else fun _ => none
    | none => fun _ => none
  | _, _, _ => fun _ => none

def sampleFormat (v : Const) (spec : List Char) : Log Const :=
  match v with
  | .str s =>
    match formatText spec s with
    | some text => pure (.str text)
    | none => fun _ => none
  | _ => fun _ => none

/-- Names are bound to strings, a call logs the string that is called, and no operator but
`%` is there. -/
def sample (text : Conversion → Const → Log (List Char)) : Interpreter Log Const where
  optimize := false
  ops := ⟨fun _ _ => none, fun _ _ _ => none, fun _ _ => none, id⟩
  fail _ := fun _ => none
  const := id
  tuple := .tuple
  newList vs := pure (.tuple vs)
  newSet vs := pure (.frozenset vs)
  load id := pure (.str (if id = "f" then ['f'] else ['g']))
  store _ _ := pure ()
  getAttr _ _ := fun _ => none
  setAttr _ _ _ := fun _ => none
  getItem _ _ := fun _ => none
  setItem _ _ _ := fun _ => none
  invertWarns := true
  unaryOp _ _ := fun _ => none
  binaryOp := sampleBinary text
  truth
    | .bool b => pure b
    | _ => pure true
  isSame _ _ := false
  contains _ _ := pure false
  richCompare _ _ _ := fun _ => none
  starItems _ := fun _ => none
  unpack _ _ := fun _ => none
  iter _ v := pure v
  convert c v := do return .str (← text c v)
  format := sampleFormat
  text?
    | .str s => some s
    | _ => none
  comprehension _ _ _ := fun _ => none
  form
    | .Call 0 [], [m] => do
        let v ← m.value
        match v with
        | .str s =>
          modify (· ++ [s])
          return v
        | _ => fun _ => none
    | _, _ => fun _ => none

theorem sample_convertText (text : Conversion → Const → Log (List Char)) :
    (sample text).convertText = text := by
  funext c v
  simp [convertText, Interpreter.text, sample]

theorem sample_plain (text : Conversion → Const → Log (List Char)) (c : Conversion) (v : Const) :
    (sample text).Plain c v :=
  ⟨text c v, rfl⟩

theorem sample_documented (text : Conversion → Const → Log (List Char)) :
    (sample text).Documented where
  mult_comm _ _ _ := rfl
  fail_bind _ _ _ := rfl
  tuple_const cs := by simp [sample]
  truth_bool _ := rfl
  text_str _ := rfl
  unary_const := nofun
  binary_const := nofun
  getItem_const := nofun
  contains_list _ _ := rfl
  iter_list _ _ := rfl
  contains_set _ _ := rfl
  iter_set isAsync cs := by
    simp only [sample, List.map_id]
    rfl
  format_const s spec t ht := by
    change sampleFormat (.str s) spec = _
    rw [sampleFormat, ht]
    rfl
  format_str s pieces vs hpieces hcount _ := by
    rw [formatPieces, sample_convertText]
    change sampleBinary text .Mod (.str s) (.tuple vs) = _
    simp only [sampleBinary, hpieces, hcount, if_true]
    rfl

def quietText (_ : Conversion) : Const → Log (List Char)
  | .str s => pure s
  | _ => pure []

omit [LawfulMonad M] in
theorem plainArguments_of_plain {pieces : List Piece} (hplain : ∀ c v, py.Plain c v)
    (vs : List V) : py.PlainArguments pieces vs := by
  induction pieces generalizing vs with
  | nil => trivial
  | cons piece pieces ih =>
    cases piece with
    | char ch => exact ih vs
    | conv ljust width prec c =>
      cases vs with
      | nil => trivial
      | cons v vs => exact ⟨hplain c v, ih vs⟩

theorem optimizeFormat_exact_width :
    (sample quietText).Exact ("%5s".toList) [.Constant (.str ['a'])] .Load ↔
      ¬CutOff "%5s".toList 1 :=
  optimizeFormat_exact_iff (sample quietText) (sample_documented _) "%5s".toList
    [.Constant (.str ['a'])] .Load (by simp [Expr.isStarred])
    fun vs _ _ _ => plainArguments_of_plain (sample_plain quietText) vs

end Sample

/-- A lone `%` is read past its end. -/
theorem optimizeFormat_raises :
    ¬ ∃ res, optimizeFormat (.Constant (.str ['%'])) .Mod ['%'] [.Name "x" .Load] .Load =
      .ok res := by
  have hcut : formatValues ['%'] [.Name "x" .Load] [] = .error .IndexError := by
    rw [formatValues_error_iff]
    exact .here rfl (.inl ⟨Nat.zero_le 3, rfl⟩)
  rintro ⟨res, h⟩
  rw [optimizeFormat, hcut] at h
  cases h

end Interpreter

end CinderX.Compiler.Optimizer
