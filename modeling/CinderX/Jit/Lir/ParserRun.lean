import CinderX.Jit.Lir.Indirect

/-!
# Runs of the parser

The parser with enough fuel, one equation for each kind of token.
-/

namespace CinderX.Jit.Lir.Text

open CinderX.Foundation Regex List

theorem PatternType.token_eq (pattern : PatternType) (m : Regex.Match) :
    pattern.token m = Token.error ∨ (pattern.token m).length = m.text.length := by
  unfold PatternType.token
  split
  · exact .inr rfl
  · split
    · split
      · exact .inr rfl
      · exact .inl rfl
    · exact .inr rfl

theorem getNextToken_length {arch : Arch} {s : List Char}
    (h : (getNextToken arch s).type ≠ .kError) : 0 < (getNextToken arch s).length := by
  have hconsumes : ∀ pattern ∈ patterns arch, pattern.re.consumes = true := by
    cases arch <;> decide
  unfold getNextToken at h ⊢
  generalize patterns arch = ps at hconsumes h ⊢
  induction ps with
  | nil => exact absurd rfl h
  | cons pattern rest ih =>
    rw [findSome?_cons] at h ⊢
    cases hmatch : pattern.re.matchPrefix s with
    | none =>
      rw [hmatch] at h
      exact ih (fun q hq => hconsumes q (mem_cons_of_mem _ hq)) h
    | some m =>
      rw [hmatch] at h
      have hmem : m ∈ pattern.re.run s := mem_of_mem_head? hmatch
      have hne := text_ne_nil_of_consumes (hconsumes pattern mem_cons_self) hmem
      have hpos : 0 < m.text.length := length_pos_iff.mpr hne
      rcases pattern.token_eq m with herror | hlength
      · exact absurd (congrArg Token.type herror) h
      · exact Nat.lt_of_lt_of_eq hpos hlength.symm

namespace Parser

variable {t : Target} {p : Parser} {s : List Char}

theorem step_error {token : Token} {text : List Char} (h : token.type = .kError) :
    step t token text p = none := by
  cases hstate : p.state <;>
    simp [step, h, hstate, stepBasicBlock, stepInstrOutput, parseValue, stepInstrOutputType,
      stepInstrEqual, stepInstrName, stepInstrInput, parseInput, stepInstrInputType,
      stepInputType, stepInstrInputComma, stepPhiInputPar]

theorem length_skipBlanks (s : List Char) : (skipBlanks s).length ≤ s.length :=
  (dropWhile_suffix _).length_le

theorem drive_eq_of_le {k : Nat} (h : s.length ≤ k) :
    drive t k p s = drive t s.length p s := by
  induction hn : s.length using Nat.strongRecOn generalizing p s k with
  | ind n ih =>
    subst hn
    cases s with
    | nil => cases k <;> rfl
    | cons c s =>
      obtain ⟨k, rfl⟩ : ∃ j, k = j + 1 := ⟨k - 1, by simp at h; omega⟩
      simp only [length_cons, drive]
      cases hstep : step t (getNextToken t.arch (c :: s))
          ((c :: s).take (getNextToken t.arch (c :: s)).length) p with
      | none => rfl
      | some p' =>
        have htype : (getNextToken t.arch (c :: s)).type ≠ .kError := by
          intro herror
          rw [step_error herror] at hstep
          cases hstep
        have hpos := getNextToken_length htype
        generalize (getNextToken t.arch (c :: s)).length = size at hpos
        have hrest : (skipBlanks ((c :: s).drop size)).length ≤ s.length := by
          refine (length_skipBlanks _).trans ?_
          simp
          omega
        simp only [length_cons] at h
        rw [Option.bind_some, Option.bind_some,
          ih _ (by simp; omega) (p := p') (k := k) (by omega) rfl,
          ih _ (by simp; omega) (p := p') (k := s.length) hrest rfl]

/-- The parser at a text, with the blanks before the next token skipped. -/
def run (t : Target) (p : Parser) (s : List Char) : Option Parser :=
  drive t (skipBlanks s).length p (skipBlanks s)

@[simp]
theorem run_nil : run t p [] = some p := rfl

@[simp]
theorem run_blank : run t p (' ' :: s) = run t p s := rfl

@[simp]
theorem run_blanks (n : Nat) : run t p (replicate n ' ' ++ s) = run t p s := by
  induction n with
  | zero => rfl
  | succ n ih => exact ih

theorem run_token {c : Char} (text : List Char) {rest : List Char} {type : TokenType} {data : Int}
    (hc : c ≠ ' ' ∧ c ≠ '\t')
    (htoken : getNextToken t.arch (c :: text ++ rest) = ⟨type, (c :: text).length, data⟩) :
    run t p (c :: text ++ rest) =
      (step t ⟨type, (c :: text).length, data⟩ (c :: text) p).bind fun p =>
        run t p rest := by
  have hskip : skipBlanks (c :: text ++ rest) = c :: text ++ rest := by
    simp [skipBlanks, hc]
  have htake : (c :: (text ++ rest)).take (c :: text).length = c :: text := by
    rw [← cons_append, take_left]
  have hdrop : (c :: (text ++ rest)).drop (c :: text).length = rest := by
    rw [← cons_append, drop_left]
  have hfuel : ∀ p', drive t (text ++ rest).length p' (skipBlanks rest) =
      run t p' rest := by
    refine fun p' => drive_eq_of_le ((length_skipBlanks rest).trans ?_)
    simp
  rw [cons_append] at htoken hskip ⊢
  rw [run, hskip]
  simp only [length_cons, drive, htoken] at htake hdrop ⊢
  simp only [htake, hdrop, hfuel]

section Separators

theorem run_newLine_skip (h : p.state = .instrOutput) :
    run t p ('\n' :: s) = run t p s := by
  have htoken := run_token (t := t) (p := p) [] (by decide) (token_newLine s)
  simpa [step, h] using htoken

theorem run_newLine_end
    (h : p.state = .instrInput ∨ p.state = .instrInputComma ∨ p.state = .instrInputType) :
    run t p ('\n' :: s) = run t (p.finishInstr.enter .instrOutput) s := by
  have htoken := run_token (t := t) (p := p) [] (by decide) (token_newLine s)
  rcases h with h | h | h <;>
    simpa [step, h, stepInstrInput, stepInstrInputComma, stepInstrInputType] using htoken

theorem run_comma (h : p.state = .instrInputComma ∨ p.state = .instrInputType) :
    run t p (',' :: s) = run t (p.enter .instrInput) s := by
  have htoken := run_token (t := t) (p := p) [] (by decide) (token_comma s)
  rcases h with h | h <;> simpa [step, h, stepInstrInputComma, stepInstrInputType] using htoken

theorem run_phiComma (h : p.state = .phiInputComma) :
    run t p (',' :: s) = run t (p.enter .phiInputSecond) s := by
  have htoken := run_token (t := t) (p := p) [] (by decide) (token_comma s)
  simpa [step, h] using htoken

theorem run_parLeft (h : p.state = .instrInput) :
    run t p ('(' :: s) = run t (p.enter .phiInputFirst) s := by
  have htoken := run_token (t := t) (p := p) [] (by decide)
    (token_parLeft s)
  simpa [step, h, stepInstrInput] using htoken

theorem run_parRight (h : p.state = .phiInputPar ∨ p.state = .phiInputSecondType) :
    run t p (')' :: s) = run t (p.enter .instrInputComma) s := by
  have htoken := run_token (t := t) (p := p) [] (by decide)
    (token_parRight s)
  rcases h with h | h <;> simpa [step, h, stepPhiInputPar] using htoken

theorem run_equal (h : p.state = .instrEqual) :
    run t p ('=' :: s) = run t (p.enter .instrName) s := by
  have htoken := run_token (t := t) (p := p) [] (by decide) (token_equal s)
  simpa [step, h, stepInstrEqual] using htoken

end Separators

theorem instrName_cons (opcode : Opcode) :
    ∃ c text, instrName (some opcode) = c :: text ∧ c ≠ ' ' ∧ c ≠ '\t' := by
  obtain ⟨pair, hmem, hname, -⟩ := instrName_mem opcode
  have hisName := isName_of_mem pair hmem
  rw [← hname] at hisName
  cases htext : instrName (some opcode) with
  | nil => simp [htext, isName] at hisName
  | cons c text =>
    have hc : isIdStart c = true := by
      simp only [htext, isName, Bool.and_eq_true] at hisName
      exact hisName.1
    exact ⟨c, text, rfl, by rintro rfl; exact absurd hc (by decide),
      by rintro rfl; exact absurd hc (by decide)⟩

theorem run_instrName (opcode : Opcode) (hs : Boundary s) :
    run t p (instrName (some opcode) ++ s) =
      (step t ⟨.kId, (instrName (some opcode)).length, 0⟩ (instrName (some opcode)) p).bind
        fun p => run t p s := by
  obtain ⟨c, text, htext, hc⟩ := instrName_cons opcode
  have htoken := token_name t.arch opcode hs
  rw [htext] at htoken ⊢
  exact run_token text hc htoken

theorem run_name (opcode : Opcode) (h : p.state = .instrName) (hs : Boundary s) :
    run t p (instrName (some opcode) ++ s) =
      run t ((p.modifyInstr fun instr => { instr with opcode := some opcode }).enter
        .instrInput) s := by
  simp [run_instrName opcode hs, step, h, stepInstrName, getInstrOpcode_instrName]

theorem run_bareName (opcode : Opcode) (h : p.state = .instrOutput) (hs : Boundary s) :
    run t p (instrName (some opcode) ++ s) =
      run t { p with state := .instrInput, instr := some ⟨-1, some opcode, .none, []⟩ }
        s := by
  simp [run_instrName opcode hs, step, h, stepInstrOutput, stepInstrName,
    getInstrOpcode_instrName, modifyInstr, enter]

end Parser

end CinderX.Jit.Lir.Text
