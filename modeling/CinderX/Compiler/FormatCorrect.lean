import CinderX.Compiler.FormatParser

/-!
# Format strings are read right

What `FormatParser` reads is what `%` does with the format, and the specification that
`as_formatted_value` writes makes `format` do the same.
-/

namespace CinderX.Compiler.Optimizer

open List Nat

/-! ## The parts of a conversion -/

variable {ch : Char}

theorem ljust_of_flagVal {flag : Nat} (h : flagVal ch = some flag) :
    flag &&& F_LJUST = 0 ↔ ¬ '-' = ch := by
  simp only [flagVal] at h
  split at h
  · next hch =>
      cases h
      exact iff_of_false (by decide) (fun hnot => hnot hch.symm)
  · next hch =>
      refine iff_of_true ?_ (fun heq => hch heq.symm)
      split at h
      · cases h
        decide
      · split at h
        · cases h
          decide
        · split at h
          · cases h
            decide
          · split at h
            · cases h
              decide
            · cases h

variable {rest rest' : List Char}

theorem parseFlags_spec {flags flags' : Nat} (h : parseFlags flags rest = .ok (flags', rest')) :
    rest' = rest.dropWhile isFlag ∧
      (flags' &&& F_LJUST = 0 ↔ flags &&& F_LJUST = 0 ∧ '-' ∉ rest.takeWhile isFlag) := by
  induction rest generalizing flags with
  | nil => cases h
  | cons ch rest ih =>
    unfold parseFlags at h
    split at h
    case h_1 flag hflag =>
      have hisFlag : isFlag ch = true := by rw [isFlag, hflag]; rfl
      rw [dropWhile_cons_of_pos hisFlag, takeWhile_cons_of_pos hisFlag]
      split at h
      · cases h
      · obtain ⟨hrest, hljust⟩ := ih h
        refine ⟨hrest, hljust.trans ?_⟩
        rw [and_or_distrib_right, mem_cons, not_or, or_eq_zero_iff,
          ljust_of_flagVal hflag, and_assoc]
    case h_2 hflag =>
      have hisFlag : ¬ isFlag ch = true := by rw [isFlag, hflag]; exact Bool.false_ne_true
      cases h
      rw [dropWhile_cons_of_neg hisFlag, takeWhile_cons_of_neg hisFlag]
      exact ⟨rfl, by simp⟩

variable {res digits n : Nat} {prec : Option Nat} {c : Conversion} {values seq : List Expr}
  {val : List Char}

theorem parseInt_spec (h : parseInt res digits rest = .ok (n, rest')) :
    rest' = rest.dropWhile Char.isDigit ∧
      n = ofDigitChars 10 (rest.takeWhile Char.isDigit) res := by
  induction rest generalizing res digits with
  | nil => cases h
  | cons ch rest ih =>
    unfold parseInt at h
    split at h
    case isTrue hdigit =>
      rw [dropWhile_cons_of_pos hdigit, takeWhile_cons_of_pos hdigit,
        ofDigitChars_cons]
      split at h
      · cases h
      · split at h
        · cases h
        · exact ih h
    case isFalse hdigit =>
      cases h
      rw [dropWhile_cons_of_neg hdigit, takeWhile_cons_of_neg hdigit]
      exact ⟨rfl, rfl⟩

theorem le_ofDigitChars (digits : List Char) (init : Nat) :
    init ≤ ofDigitChars 10 digits init := by
  induction digits generalizing init with
  | nil => exact Nat.le_refl _
  | cons ch digits ih =>
    rw [ofDigitChars_cons]
    exact Nat.le_trans (by omega) (ih _)

theorem eq_zero_of_isDigit (hdigit : ch.isDigit) (h : ch.toNat - '0'.toNat = 0) :
    ch = '0' := by
  obtain ⟨hle, -⟩ := Char.isDigit_iff_toNat.mp hdigit
  apply Char.toNat_inj.mp
  omega

theorem parseWidth_spec {width : Option Nat} (h : parseWidth rest = .ok (width, rest')) :
    rest' = rest.dropWhile Char.isDigit ∧
      width.getD 0 = number (rest.takeWhile Char.isDigit) ∧
      (rest.head? ≠ some '0' → width ≠ some 0) := by
  cases rest with
  | nil => cases h
  | cons ch rest =>
    simp only [parseWidth] at h
    split at h
    case isTrue hdigit =>
      obtain ⟨⟨n, rest₁⟩, hint, h⟩ := Except.bind_eq_ok.mp h
      obtain ⟨hrest, hn⟩ := parseInt_spec hint
      cases h
      refine ⟨hrest, hn, ?_⟩
      intro hzero heq
      rw [takeWhile_cons_of_pos hdigit, ofDigitChars_cons] at hn
      have hle := le_ofDigitChars (rest.takeWhile Char.isDigit) (10 * 0 + (ch.toNat - '0'.toNat))
      obtain rfl := Option.some.inj heq
      have hval : ch.toNat - '0'.toNat = 0 := by omega
      exact hzero (congrArg some (eq_zero_of_isDigit hdigit hval))
    case isFalse hdigit =>
      cases h
      rw [dropWhile_cons_of_neg hdigit, takeWhile_cons_of_neg hdigit]
      exact ⟨rfl, rfl, fun _ h => by cases h⟩

theorem eq_of_nextCh (h : nextCh (ch :: rest) = .ok rest') : rest' = rest := by
  cases rest with
  | nil => cases h
  | cons => exact (Except.ok.inj h).symm

theorem parsePrec_spec (h : parsePrec rest = .ok (prec, rest')) :
    rest' = (precision rest).2 ∧ prec = (precision rest).1 := by
  cases rest with
  | nil => cases h
  | cons ch rest =>
    simp only [parsePrec] at h
    split at h
    case isTrue hdot =>
      subst hdot
      obtain ⟨rest₁, hnext, h⟩ := Except.bind_eq_ok.mp h
      obtain ⟨⟨n, rest₂⟩, hint, h⟩ := Except.bind_eq_ok.mp h
      obtain ⟨hrest, hn⟩ := parseInt_spec hint
      rw [eq_of_nextCh hnext] at hrest hn
      cases h
      exact ⟨hrest, congrArg some hn⟩
    case isFalse hdot =>
      cases h
      unfold precision
      split
      · rename_i heq
        exact absurd (List.cons.inj heq).1 hdot
      · exact ⟨rfl, rfl⟩

variable {info : FormatInfo}

theorem parseSpec_spec (h : parseSpec ('%' :: rest) = .ok (info, rest'))
    (hc : Conversion.ofChar? info.spec = some c) :
    printfSpec rest = some (.conv (decide (info.flags &&& F_LJUST ≠ 0)) (info.width.getD 0)
      info.prec c, rest') ∧ info.width ≠ some 0 := by
  obtain ⟨rest₁, hnext, h⟩ := Except.bind_eq_ok.mp h
  obtain ⟨⟨flags, rest₂⟩, hflags, h⟩ := Except.bind_eq_ok.mp h
  obtain ⟨⟨width, rest₃⟩, hwidth, h⟩ := Except.bind_eq_ok.mp h
  obtain ⟨⟨prec, rest₄⟩, hprec, h⟩ := Except.bind_eq_ok.mp h
  obtain ⟨hrest₂, hljust⟩ := parseFlags_spec hflags
  rw [eq_of_nextCh hnext] at hrest₂ hljust
  obtain ⟨hrest₃, hw, hzero⟩ := parseWidth_spec hwidth
  obtain ⟨hrest₄, hp⟩ := parsePrec_spec hprec
  cases rest₄ with
  | nil => cases h
  | cons spec rest₄ =>
    cases h
    dsimp only at hc ⊢
    subst hrest₂ hrest₃ hp
    constructor
    · have hdecide : decide (flags &&& F_LJUST ≠ 0) =
          decide ('-' ∈ rest.takeWhile isFlag) := by
        rw [decide_eq_decide, ne_eq, hljust]
        simp
      unfold printfSpec
      dsimp only
      rw [← hrest₄, hdecide, hw]
      exact congrArg (Option.map _) hc
    · apply hzero
      intro hhead
      have hnot := head?_dropWhile_not isFlag rest
      rw [hhead] at hnot
      exact absurd hnot (by decide)

theorem isAlign_of_isDigit (h : ch.isDigit) : isAlign ch = false := by
  obtain ⟨-, hle⟩ := Char.isDigit_iff_toNat.mp h
  have hne : ∀ ch', '9'.toNat < ch'.toNat → ch ≠ ch' := by
    intro ch' hlt heq
    subst heq
    exact absurd hle (Nat.not_le.mpr hlt)
  simp [isAlign, hne '<' (by decide), hne '>' (by decide), hne '=' (by decide),
    hne '^' (by decide)]

variable {spec : List Char}

theorem alignSpec_of_not_align (h : ∀ ch ∈ spec, isAlign ch = false) :
    alignSpec spec = (none, none, spec) := by
  match spec with
  | [] => rfl
  | [align] => simp [alignSpec, h align]
  | fill :: align :: rest => simp [alignSpec, h fill, h align]

theorem alignSpec_right (hspec : spec ≠ []) (h : ∀ ch ∈ spec, isAlign ch = false) :
    alignSpec ('>' :: spec) = (none, some '>', spec) := by
  match spec with
  | [] => exact absurd rfl hspec
  | align :: rest => simp [alignSpec, h align, show isAlign '>' = true from rfl]

theorem head_toDigits (h : n ≠ 0) (rest : List Char) :
    (toDigits 10 n ++ rest).head? ≠ some '0' := by
  induction n using Nat.strongRecOn generalizing rest with
  | ind n ih =>
    by_cases hlt : n < 10
    · rw [toDigits_of_lt_base hlt]
      intro heq
      have hdigit := Option.some.inj heq
      interval_cases n <;> first | exact h rfl | exact absurd hdigit (by decide)
    · rw [toDigits_of_base_le (by decide) (Nat.not_lt.mp hlt), append_assoc]
      exact ih (n / 10) (by omega) (by omega) _

def precPart (prec : Option Nat) : List Char :=
  match prec with
  | some n => '.' :: toDigits 10 n
  | none => []

theorem takeWhile_digits {digits : List Char} (h : ∀ ch ∈ digits, ch.isDigit) (prec : Option Nat) :
    (digits ++ precPart prec).takeWhile Char.isDigit = digits ∧
      (digits ++ precPart prec).dropWhile Char.isDigit = precPart prec := by
  rw [takeWhile_append_of_pos h, dropWhile_append_of_pos h]
  cases prec with
  | none => exact ⟨append_nil _, rfl⟩
  | some n =>
    have hdot : ¬ Char.isDigit '.' = true := by decide
    rw [precPart, takeWhile_cons_of_neg hdot, dropWhile_cons_of_neg hdot]
    exact ⟨append_nil _, rfl⟩

theorem zeroFill_of_head (h : rest.head? ≠ some '0') :
    zeroFill none rest = (none, rest) := by
  unfold zeroFill
  split
  · exact absurd rfl h
  · rfl

theorem formatText_of_alignSpec {digits : List Char} {align : Option Char}
    (hspec : alignSpec spec = (none, align, digits ++ precPart prec))
    (hdigits : ∀ ch ∈ digits, ch.isDigit) (hzero : (digits ++ precPart prec).head? ≠ some '0')
    (text : List Char) :
    formatText spec text =
      padTo (align.getD '<') ' ' (number digits) (truncate prec text) := by
  obtain ⟨htake, hdrop⟩ := takeWhile_digits hdigits prec
  unfold formatText
  rw [hspec]
  dsimp only
  rw [zeroFill_of_head hzero, htake, hdrop]
  cases prec with
  | none => simp [precPart, truncate]
  | some n =>
    have hall : ∀ ch ∈ toDigits 10 n, ch.isDigit :=
      fun ch hch => isDigit_of_mem_toDigits (by decide) (by decide) hch
    obtain ⟨htake', hdrop'⟩ := takeWhile_digits hall none
    rw [precPart, append_nil] at htake' hdrop'
    simp [precPart, truncate, htake', hdrop', toDigits_ne_nil, number]

theorem isAlign_of_body {width : List Char} (hwidth : ∀ ch ∈ width, ch.isDigit)
    (prec : Option Nat) : ∀ ch ∈ width ++ precPart prec, isAlign ch = false := by
  intro ch hch
  rcases mem_append.mp hch with hch | hch
  · exact isAlign_of_isDigit (hwidth ch hch)
  · cases prec with
    | none => cases hch
    | some n =>
      rcases mem_cons.mp hch with rfl | hch
      · rfl
      · exact isAlign_of_isDigit (isDigit_of_mem_toDigits (by decide) (by decide) hch)

theorem padTo_left (width : Nat) (text : List Char) :
    padTo '<' ' ' width text = some (pad true width text) := rfl

theorem padTo_right (width : Nat) (text : List Char) :
    padTo '>' ' ' width text = some (pad false width text) := rfl

theorem pad_zero (ljust : Bool) (text : List Char) : pad ljust 0 text = text := by
  cases ljust <;> simp [pad]

theorem formatText_res (hwidth : info.width ≠ some 0) (text : List Char) :
    formatText info.res text = some (pad (decide (info.flags &&& F_LJUST ≠ 0))
      (info.width.getD 0) (truncate info.prec text)) := by
  obtain ⟨spec, flags, width, prec⟩ := info
  cases width with
  | none =>
    have hres : FormatInfo.res ⟨spec, flags, none, prec⟩ = [] ++ precPart prec := by
      cases prec <;> simp [FormatInfo.res, precPart]
    have hspec := alignSpec_of_not_align (@isAlign_of_body [] nofun prec)
    rw [hres, formatText_of_alignSpec hspec nofun (by cases prec <;> simp [precPart])]
    exact (padTo_left _ _).trans (congrArg some ((pad_zero _ _).trans (pad_zero _ _).symm))
  | some n =>
    have hn : n ≠ 0 := fun heq => hwidth (congrArg some heq)
    have hdigits : ∀ ch ∈ toDigits 10 n, ch.isDigit :=
      fun ch hch => isDigit_of_mem_toDigits (by decide) (by decide) hch
    have hbody := isAlign_of_body hdigits prec
    have hnumber : number (toDigits 10 n) = n := ofDigitChars_ten_toDigits
    by_cases hflags : flags &&& F_LJUST = 0
    · have hres : FormatInfo.res ⟨spec, flags, some n, prec⟩ =
          '>' :: (toDigits 10 n ++ precPart prec) := by
        cases prec <;> simp [FormatInfo.res, precPart, hflags, hn]
      have hspec := alignSpec_right (by simp [toDigits_ne_nil]) hbody
      rw [hres, formatText_of_alignSpec hspec hdigits (head_toDigits hn _), hnumber]
      simp only [hflags, ne_eq, not_true_eq_false, decide_false]
      exact padTo_right _ _
    · have hres : FormatInfo.res ⟨spec, flags, some n, prec⟩ =
          toDigits 10 n ++ precPart prec := by
        cases prec <;> simp [FormatInfo.res, precPart, hflags]
      rw [hres, formatText_of_alignSpec (alignSpec_of_not_align hbody) hdigits
        (head_toDigits hn _), hnumber]
      simp only [hflags, ne_eq, not_false_eq_true, decide_true]
      exact padTo_left _ _

theorem printfPieces_parseStr (val : List Char) : printfPieces val =
    (printfPieces (parseStr val).2).map ((parseStr val).1.map Piece.char ++ ·) := by
  fun_induction parseStr val with
  | case1 rest component rest' heq ih =>
    rw [heq] at ih
    rw [printfPieces, ih, Option.map_map]
    rfl
  | case2 rest hrest => simp
  | case3 ch rest _ hch component rest' heq ih =>
    rw [heq] at ih
    rw [printfPieces, ih, Option.map_map]
    · rfl
    · assumption
    · exact hch
  | case4 => simp

theorem parseStr_rest (val : List Char) :
    (parseStr val).2 = [] ∨ ∃ rest, (parseStr val).2 = '%' :: rest := by
  fun_induction parseStr val with
  | case1 rest component rest' heq ih => rwa [heq] at ih
  | case2 rest => exact .inr ⟨rest, rfl⟩
  | case3 ch rest _ _ component rest' heq ih => rwa [heq] at ih
  | case4 => exact .inl rfl

/-- The values for the parts of a format: a text for characters, and a formatted value for
a conversion and its element. -/
inductive Joined : List Piece → List Expr → List Expr → Prop
  | nil : Joined [] [] []
  | text {s pieces elts values} (h : Joined pieces elts values) :
      Joined (s.map .char ++ pieces) elts (.Constant (.str s) :: values)
  | conv {info : FormatInfo} {c pieces elt elts values} (hwidth : info.width ≠ some 0)
      (h : Joined pieces elts values) :
      Joined (.conv (decide (info.flags &&& F_LJUST ≠ 0)) (info.width.getD 0) info.prec c :: pieces)
        (elt :: elts)
        (.FormattedValue elt (some c)
          (if info.res = [] then none else some (.Constant (.str info.res))) :: values)

variable {elts : List Expr}

theorem joined_item {item : List Char} {pieces : List Piece} (h : Joined pieces elts values) :
    Joined (item.map .char ++ pieces) elts (itemValue item ++ values) := by
  unfold itemValue
  split
  · next hitem =>
      subst hitem
      exact h
  · exact .text h

theorem printfSpec_percent (rest : List Char) : printfSpec ('%' :: rest) = none := rfl

theorem printfPieces_spec (hnot : ∀ rest', rest = '%' :: rest' → False) :
    printfPieces ('%' :: rest) =
      (printfSpec rest).bind fun p => (printfPieces p.2).map (p.1 :: ·) := by
  rw [printfPieces]
  · split
    · next heq =>
        rw [heq]
        rfl
    · next heq =>
        rw [heq]
        rfl
  · exact hnot

theorem printfPieces_of_parseSpec
    (h : parseSpec ('%' :: rest) = .ok (info, rest')) (hc : Conversion.ofChar? info.spec = some c) :
    printfPieces ('%' :: rest) = (printfPieces rest').map (.conv
      (decide (info.flags &&& F_LJUST ≠ 0)) (info.width.getD 0) info.prec c :: ·) := by
  obtain ⟨hspec, -⟩ := parseSpec_spec h hc
  rw [printfPieces_spec, hspec, Option.bind_some]
  intro rest₁ heq
  rw [heq, printfSpec_percent] at hspec
  cases hspec

theorem formatValues_spec (h : formatValues val elts seq = .ok (some values)) :
    ∃ pieces values', printfPieces val = some pieces ∧ values = seq ++ values' ∧
      Joined pieces elts values' := by
  fun_induction formatValues val elts seq with
  | case1 val elts seq hrest =>
    have hval := printfPieces_parseStr val
    split at h
    · next helts =>
        cases h
        subst helts
        rw [hrest, show printfPieces [] = some [] by rw [printfPieces]] at hval
        refine ⟨_, _, hval, ?_, joined_item .nil⟩
        rw [append_nil]
    · cases h
  | case2 => cases h
  | case3 => cases h
  | case4 => cases h
  | case5 val seq hrest info rest hspec elt elts formatted hformatted ih =>
    obtain ⟨pieces, values', hpieces, hvalues, hjoined⟩ := ih h
    obtain ⟨c, hc, hformatted⟩ := Option.bind_eq_some_iff.mp hformatted
    cases hformatted
    obtain ⟨rest₁, hpercent⟩ := (parseStr_rest val).resolve_left hrest
    rw [hpercent] at hspec
    have hval := printfPieces_parseStr val
    rw [hpercent, printfPieces_of_parseSpec hspec hc, hpieces] at hval
    refine ⟨_, _, hval, ?_, joined_item (.conv (parseSpec_spec hspec hc).2 hjoined)⟩
    rw [hvalues, append_assoc, append_assoc]
    rfl

theorem parseFlags_error {flags : Nat} {e : FormatError} (h : parseFlags flags rest = .error e) :
    rest.dropWhile isFlag = [] := by
  induction rest generalizing flags with
  | nil => rfl
  | cons ch rest ih =>
    unfold parseFlags at h
    split at h
    case h_1 flag hflag =>
      have hisFlag : isFlag ch = true := by rw [isFlag, hflag]; rfl
      rw [dropWhile_cons_of_pos hisFlag]
      split at h
      · next hrest => rw [hrest, dropWhile_nil]
      · exact ih h
    case h_2 => cases h

theorem parseInt_error (h : parseInt res digits rest = .error .IndexError) :
    rest.dropWhile Char.isDigit = [] := by
  induction rest generalizing res digits with
  | nil => rfl
  | cons ch rest ih =>
    unfold parseInt at h
    split at h
    case isTrue hdigit =>
      rw [dropWhile_cons_of_pos hdigit]
      split at h
      · next hrest => rw [hrest, dropWhile_nil]
      · split at h
        · cases h
        · exact ih h
    case isFalse => cases h

theorem parseWidth_error (h : parseWidth rest = .error .IndexError) :
    rest.dropWhile Char.isDigit = [] := by
  cases rest with
  | nil => rfl
  | cons ch rest =>
    simp only [parseWidth] at h
    split at h
    · rcases Except.bind_eq_error.mp h with hint | ⟨_, _, h⟩
      · exact parseInt_error hint
      · cases h
    · cases h

theorem parsePrec_error (h : parsePrec rest = .error .IndexError) :
    (precision rest).2 = [] := by
  cases rest with
  | nil => rfl
  | cons ch rest =>
    simp only [parsePrec] at h
    split at h
    · next hdot =>
        subst hdot
        rcases Except.bind_eq_error.mp h with hnext | ⟨rest₁, hnext, h⟩
        · cases rest with
          | nil => rfl
          | cons => cases hnext
        · rw [eq_of_nextCh hnext] at h
          rcases Except.bind_eq_error.mp h with hint | ⟨_, _, h⟩
          · exact parseInt_error hint
          · cases h
    · cases h

theorem printfSpec_of_indexError (h : parseSpec ('%' :: rest) = .error .IndexError) :
    printfSpec rest = none := by
  have hend : (precision ((rest.dropWhile isFlag).dropWhile Char.isDigit)).2 = [] := by
    rcases Except.bind_eq_error.mp h with hnext | ⟨rest₁, hnext, h⟩
    · cases rest with
      | nil => rfl
      | cons => cases hnext
    rw [eq_of_nextCh hnext] at h
    rcases Except.bind_eq_error.mp h with hflags | ⟨⟨flags, rest₂⟩, hflags, h⟩
    · rw [parseFlags_error hflags]
      rfl
    obtain ⟨rfl, -⟩ := parseFlags_spec hflags
    rcases Except.bind_eq_error.mp h with hwidth | ⟨⟨width, rest₃⟩, hwidth, h⟩
    · rw [parseWidth_error hwidth]
      rfl
    obtain ⟨rfl, -, -⟩ := parseWidth_spec hwidth
    rcases Except.bind_eq_error.mp h with hprec | ⟨⟨prec, rest₄⟩, hprec, h⟩
    · exact parsePrec_error hprec
    obtain ⟨rfl, -⟩ := parsePrec_spec hprec
    dsimp only at h
    split at h
    · next heq => exact heq
    · cases h
  unfold printfSpec
  dsimp only
  rw [hend]

theorem printfPieces_of_indexError
    (h : formatValues val elts seq = .error .IndexError) : printfPieces val = none := by
  fun_induction formatValues val elts seq with
  | case1 => cases h
  | case2 val elts seq hrest e hspec =>
    cases h
    obtain ⟨rest, hpercent⟩ := (parseStr_rest val).resolve_left hrest
    rw [hpercent] at hspec
    rw [printfPieces_parseStr, hpercent, printfPieces_spec, printfSpec_of_indexError hspec]
    · rfl
    · intro rest' heq
      rw [heq] at hspec
      cases hspec
  | case3 => cases h
  | case4 => cases h
  | case5 val seq hrest info rest hspec elt elts formatted hformatted ih =>
    obtain ⟨c, hc, hformatted⟩ := Option.bind_eq_some_iff.mp hformatted
    obtain ⟨rest₁, hpercent⟩ := (parseStr_rest val).resolve_left hrest
    rw [hpercent] at hspec
    rw [printfPieces_parseStr, hpercent, printfPieces_of_parseSpec hspec hc, ih h]
    rfl

end CinderX.Compiler.Optimizer
