import CinderX.Jit.Lir.Parser

/-!
# The tokens of printed functions

The tokeniser on each piece of text that the printer writes.  That no earlier
pattern matches is read off the first characters of the piece.
-/

namespace CinderX.Jit.Lir.Text

open CinderX.Foundation Regex List

def Boundary (s : List Char) : Prop := ∀ c ∈ s.head?, isIdPart c = false

variable {s : List Char}

theorem isDigit_of_boundary (h : Boundary s) :
    ∀ c ∈ s.head?, isDigit c = false := by
  intro c hc
  have hpart := h c hc
  simp only [isIdPart, Bool.or_eq_false_iff] at hpart
  exact hpart.2

theorem isAlnum_of_boundary (h : Boundary s) :
    ∀ c ∈ s.head?, isAlnum c = false := by
  intro c hc
  have hpart := h c hc
  simp only [isIdPart, isIdStart, Bool.or_eq_false_iff] at hpart
  obtain ⟨⟨⟨hupper, hlower⟩, -⟩, hdigit⟩ := hpart
  simp only [isAlnum, Bool.or_eq_false_iff]
  exact ⟨⟨hdigit, hlower⟩, hupper⟩

def candidate? (arch : Arch) (w : List Char) : Option PatternType :=
  ((patterns arch).dropWhile fun pattern => pattern.re.refutes w).head?

variable {arch : Arch} {pattern : PatternType} {w text : List Char} {type : TokenType}

theorem getNextToken_of_candidate {m : Regex.Match} (hcandidate : candidate? arch w = some pattern)
    (hmatch : pattern.re.matchPrefix (w ++ s) = some m) :
    getNextToken arch (w ++ s) = pattern.token m := by
  unfold candidate? at hcandidate
  unfold getNextToken
  generalize patterns arch = ps at hcandidate ⊢
  induction ps with
  | nil => simp at hcandidate
  | cons q rest ih =>
    cases hq : q.re.refutes w with
    | true =>
      simp only [dropWhile_cons, hq, if_true] at hcandidate
      rw [findSome?_cons, matchPrefix_of_refutes hq s, Option.map_none]
      exact ih hcandidate
    | false =>
      simp only [dropWhile_cons, hq, Bool.false_eq_true, if_false, head?_cons,
        Option.some.injEq] at hcandidate
      rw [findSome?_cons, hcandidate, hmatch]
      rfl

theorem matchPrefix_numberAfter (word : String) (n : Nat) (hs : ∀ c ∈ s.head?, isDigit c = false) :
    (numberAfter word).matchPrefix (word.toList ++ (decimal n ++ s)) =
      some ⟨word.toList ++ decimal n, [(1, decimal n)], s⟩ := by
  have hplus := matchPrefix_plus (decimal_ne_nil n) isDigit_of_mem_decimal hs
  simp [numberAfter, matchPrefix_lit, hplus, Match.capture, Match.append]

variable {n : Nat}

theorem token_numberAfter {word : String}
    (hcandidate : candidate? arch word.toList = some ⟨numberAfter word, type⟩)
    (htype : type ≠ .kImmediate) (hn : n < 2 ^ 63) (hs : Boundary s) :
    getNextToken arch (word.toList ++ (decimal n ++ s)) =
      ⟨type, (word.toList ++ decimal n).length, n⟩ := by
  rw [getNextToken_of_candidate hcandidate
    (matchPrefix_numberAfter word n (isDigit_of_boundary hs))]
  have hgroups : (numberAfter word).hasGroups = true := by
    unfold numberAfter
    induction word.toList with
    | nil => rfl
    | cons c cs ih => exact ih
  simp [PatternType.token, hgroups, htype, Match.group, strtoll_decimal hn]

theorem token_vreg (hn : n < 2 ^ 63) (hs : Boundary s) :
    getNextToken arch ("%".toList ++ (decimal n ++ s)) =
      ⟨.kVReg, ("%".toList ++ decimal n).length, n⟩ := by
  refine token_numberAfter ?_ (by decide) hn hs
  cases arch <;> rfl

theorem token_label (hn : n < 2 ^ 63) (hs : Boundary s) :
    getNextToken arch ("BB%".toList ++ (decimal n ++ s)) =
      ⟨.kBasicBlockRef, ("BB%".toList ++ decimal n).length, n⟩ := by
  refine token_numberAfter ?_ (by decide) hn hs
  cases arch <;> rfl

theorem token_char {c : Char}
    (hcandidate : candidate? arch [c] = some ⟨lit [c] empty, type⟩) (s : List Char) :
    getNextToken arch (c :: s) = ⟨type, 1, 0⟩ := by
  have hmatch : (lit [c] empty).matchPrefix ([c] ++ s) = some ⟨[c], [], s⟩ := by
    simp [Match.append]
  exact getNextToken_of_candidate hcandidate hmatch

theorem token_newLine (s : List Char) :
    getNextToken arch ('\n' :: s) = ⟨.kNewLine, 1, 0⟩ :=
  token_char (by cases arch <;> rfl) s

theorem token_equal (s : List Char) :
    getNextToken arch ('=' :: s) = ⟨.kEqual, 1, 0⟩ :=
  token_char (by cases arch <;> rfl) s

theorem token_comma (s : List Char) :
    getNextToken arch (',' :: s) = ⟨.kComma, 1, 0⟩ :=
  token_char (by cases arch <;> rfl) s

theorem token_parLeft (s : List Char) :
    getNextToken arch ('(' :: s) = ⟨.kParLeft, 1, 0⟩ :=
  token_char (by cases arch <;> rfl) s

theorem token_parRight (s : List Char) :
    getNextToken arch (')' :: s) = ⟨.kParRight, 1, 0⟩ :=
  token_char (by cases arch <;> rfl) s

theorem isAlnum_of_mem_dataTypeName (dataType : DataType) :
    ∀ c ∈ dataTypeName dataType, isAlnum c = true := by
  cases dataType <;> exact forall_mem_of_all (by decide)

theorem token_dataType (dataType : DataType) (hs : Boundary s) :
    getNextToken arch (printType dataType ++ s) =
      ⟨.kDataType, (printType dataType).length, 0⟩ := by
  have hcandidate : candidate? arch [':'] =
      some ⟨lit [':'] (plus isAlnum), .kDataType⟩ := by cases arch <;> rfl
  have hne : dataTypeName dataType ≠ [] := by cases dataType <;> decide
  have hplus := matchPrefix_plus hne (isAlnum_of_mem_dataTypeName dataType)
    (isAlnum_of_boundary hs)
  have hmatch : (lit [':'] (plus isAlnum)).matchPrefix
      ([':'] ++ (dataTypeName dataType ++ s)) = some ⟨printType dataType, [], s⟩ := by
    rw [matchPrefix_lit, hplus]
    rfl
  exact getNextToken_of_candidate hcandidate hmatch

def immediatePattern : PatternType :=
  ⟨seq (group 1 (plus isDigit))
    (opt (group 2 (lit "(0x".toList (seq (plus isHexDigit) (lit [')'] empty))))),
   .kImmediate⟩

theorem candidate_digit (arch : Arch) (n : Nat) :
    ∀ c ∈ decimal n, candidate? arch [c] = some immediatePattern := by
  refine forall_mem_toDigits (by decide) ?_ n
  intro d hd
  interval_cases d <;> cases arch <;> rfl

theorem matchPrefix_immediate (n : Nat) (s : List Char) :
    immediatePattern.re.matchPrefix
        (decimal n ++ ("(0x".toList ++ (hexadecimal n ++ (')' :: s)))) =
      some ⟨decimal n ++ ("(0x".toList ++ (hexadecimal n ++ [')'])),
        [(1, decimal n), (2, "(0x".toList ++ (hexadecimal n ++ [')']))], s⟩ := by
  have hnumber := matchPrefix_plus (p := isDigit)
    (s := "(0x".toList ++ (hexadecimal n ++ (')' :: s)))
    (decimal_ne_nil n) isDigit_of_mem_decimal (by simp; decide)
  have hhex := matchPrefix_plus (p := isHexDigit) (s := ')' :: s)
    (hexadecimal_ne_nil n) isHexDigit_of_mem_hexadecimal (by simp; decide)
  have hclose : (lit [')'] empty).matchPrefix (')' :: s) = some ⟨[')'], [], s⟩ :=
    matchPrefix_word [')']
  have hsuffix := matchPrefix_lit_of "(0x".toList (matchPrefix_seq_of hhex hclose)
  have hopt := matchPrefix_alt_left (t := empty) (matchPrefix_group_of 2 hsuffix)
  exact matchPrefix_seq_of (matchPrefix_group_of _ hnumber) hopt

theorem token_immediate (arch : Arch) (constant : BitVec 64) (s : List Char) :
    getNextToken arch (decimal constant.toNat ++ ("(0x".toList ++
        (hexadecimal constant.toNat ++ (')' :: s)))) =
      ⟨.kImmediate, (decimal constant.toNat ++ ("(0x".toList ++
        (hexadecimal constant.toNat ++ [')']))).length, constant.toInt⟩ := by
  have hmatch := matchPrefix_immediate constant.toNat s
  have hdigit := candidate_digit arch constant.toNat
  have hread := fromChars_decimal constant.isLt
  cases hdigits : decimal constant.toNat with
  | nil => exact absurd hdigits (decimal_ne_nil _)
  | cons c cs =>
    rw [hdigits] at hmatch hdigit hread
    have hcandidate := hdigit c (mem_cons_self)
    have htoken := getNextToken_of_candidate (w := [c]) (s := cs ++ _) hcandidate hmatch
    refine htoken.trans ?_
    have hgroup : Match.group ⟨c :: cs ++ ("(0x".toList ++ (hexadecimal constant.toNat ++
        [')'])), [(1, c :: cs), (2, "(0x".toList ++ (hexadecimal constant.toNat ++
        [')']))], s⟩ 1 = c :: cs := rfl
    have hgroups : immediatePattern.re.hasGroups = true := rfl
    simp only [PatternType.token, hgroups, hgroup, hread, not_true, if_false]
    simp [immediatePattern, BitVec.toInt_eq_toNat_bmod]

@[simp]
theorem printInt_natCast (n : Nat) : printInt n = decimal n := by
  rw [printInt, if_neg (by omega), Int.natAbs_natCast]

theorem readInteger_printInt (n : Int) : readInteger (printInt n) = n := by
  unfold printInt
  split
  next hneg =>
    rw [readInteger, readMagnitude_decimal]
    omega
  next hpos =>
    rw [readInteger_decimal]
    omega

theorem strtoll_printInt {n : Int} (hlow : -2 ^ 63 ≤ n) (hhigh : n < 2 ^ 63) :
    strtoll (printInt n) = n := by
  have hread := readInteger_printInt n
  rw [strtoll_eq_readInteger (by omega) (by omega), hread]

theorem matchPrefix_printInt (n : Int) (hs : ∀ c ∈ s.head?, isDigit c = false) :
    (seq (opt (char fun c => c = '-')) (plus isDigit)).matchPrefix (printInt n ++ s) =
      some ⟨printInt n, [], s⟩ := by
  have hnumber := matchPrefix_plus (decimal_ne_nil n.natAbs) isDigit_of_mem_decimal hs
  unfold printInt
  split
  next hneg =>
    have hsign : (char fun c => c = '-').matchPrefix ('-' :: (decimal n.natAbs ++ s)) =
        some ⟨['-'], [], decimal n.natAbs ++ s⟩ := by simp
    exact matchPrefix_seq_of (matchPrefix_alt_left hsign) hnumber
  next hpos =>
    have hsign : (char fun c => c = '-').matchPrefix (decimal n.natAbs ++ s) = none := by
      cases hdigits : decimal n.natAbs with
      | nil => exact absurd hdigits (decimal_ne_nil _)
      | cons c cs =>
        have hc : isDigit c = true :=
          isDigit_of_mem_decimal (n := n.natAbs) c (by simp [hdigits])
        have hne : c ≠ '-' := by rintro rfl; exact absurd hc (by decide)
        simp [hne]
    exact matchPrefix_seq_of (matchPrefix_opt_none hsign) hnumber

theorem token_stack (arch : Arch) (loc : Int) (hlow : -2 ^ 63 ≤ loc) (hhigh : loc < 2 ^ 63)
    (s : List Char) :
    getNextToken arch ('[' :: (frameReg arch ++ '(' :: (printInt loc ++ (")]".toList ++ s)))) =
      ⟨.kStack, ('[' :: (frameReg arch ++ '(' :: (printInt loc ++ ")]".toList))).length,
        loc⟩ := by
  have hnumber := matchPrefix_group_of 1
    (matchPrefix_printInt loc (s := ")]".toList ++ s) (by simp; decide))
  have hclose : (lit ")]".toList empty).matchPrefix (")]".toList ++ s) = _ :=
    matchPrefix_word ")]".toList
  have hmatch := matchPrefix_lit_of ('[' :: (frameReg arch ++ ['(']))
    (matchPrefix_seq_of hnumber hclose)
  have hread := strtoll_printInt hlow hhigh
  cases arch with
  | kX86_64 =>
    have hcandidate : candidate? .kX86_64 ('[' :: (frameReg .kX86_64 ++ ['('])) =
        some ⟨stackPattern "RBP", .kStack⟩ := rfl
    have htoken := getNextToken_of_candidate hcandidate hmatch
    have hgroups : (stackPattern "RBP").hasGroups = true := rfl
    simpa [PatternType.token, hgroups, Match.group, hread] using htoken
  | kAarch64 =>
    have hcandidate : candidate? .kAarch64 ('[' :: (frameReg .kAarch64 ++ ['('])) =
        some ⟨stackPattern "X29", .kStack⟩ := rfl
    have htoken := getNextToken_of_candidate hcandidate hmatch
    have hgroups : (stackPattern "X29").hasGroups = true := rfl
    simpa [PatternType.token, hgroups, Match.group, hread] using htoken

def addressPattern : PatternType :=
  ⟨lit ['['] (seq (group 1 (lit "0x".toList (plus isHexDigit))) (lit [']'] empty)),
   .kAddress⟩

theorem token_address (arch : Arch) (n : Nat) (s : List Char) :
    getNextToken arch ('[' :: ("0x".toList ++ (hexadecimal n ++ (']' :: s)))) =
      ⟨.kAddress, ('[' :: ("0x".toList ++ (hexadecimal n ++ [']']))).length,
        min (2 ^ 63 - 1) n⟩ := by
  have hcandidate : candidate? arch "[0x".toList = some addressPattern := by
    cases arch <;> rfl
  have hhex := matchPrefix_plus (p := isHexDigit) (s := ']' :: s)
    (hexadecimal_ne_nil n) isHexDigit_of_mem_hexadecimal (by simp; decide)
  have hnumber := matchPrefix_group_of 1
    (matchPrefix_lit_of "0x".toList hhex)
  have hclose : (lit [']'] empty).matchPrefix (']' :: s) = some ⟨[']'], [], s⟩ :=
    matchPrefix_word [']']
  have hmatch := matchPrefix_lit_of ['['] (matchPrefix_seq_of hnumber hclose)
  have hread : strtoll ('0' :: 'x' :: hexadecimal n) = min (2 ^ 63 - 1) n := by
    have hvalue : readInteger ('0' :: 'x' :: hexadecimal n) = n :=
      congrArg Nat.cast (readMagnitude_hexadecimal n)
    unfold strtoll
    omega
  have htoken := getNextToken_of_candidate hcandidate hmatch
  have hgroups : addressPattern.re.hasGroups = true := rfl
  simp only [PatternType.token, hgroups] at htoken
  simpa [addressPattern, Match.group, hread] using htoken

def indirectPattern : PatternType :=
  ⟨lit ['['] (seq (star fun c => c ≠ ']') (lit [']'] empty)), .kIndirect⟩

theorem token_bracket (hcandidate : candidate? arch ('[' :: w) = some indirectPattern)
    (htext : ∀ c ∈ w ++ text, c ≠ ']') (s : List Char) :
    getNextToken arch ('[' :: (w ++ (text ++ (']' :: s)))) =
      ⟨.kIndirect, ('[' :: (w ++ (text ++ [']']))).length, 0⟩ := by
  have hinner := matchPrefix_star (p := fun c => c ≠ ']') (s := ']' :: s)
    (show ∀ c ∈ w ++ text, decide (c ≠ ']') = true by simpa using htext) (by simp)
  have hclose : (lit [']'] empty).matchPrefix (']' :: s) = some ⟨[']'], [], s⟩ :=
    matchPrefix_word [']']
  have hmatch := matchPrefix_lit_of ['['] (matchPrefix_seq_of hinner hclose)
  rw [append_assoc] at hmatch
  have htoken := getNextToken_of_candidate hcandidate hmatch
  have hgroups : indirectPattern.re.hasGroups = false := rfl
  simp only [PatternType.token, hgroups] at htoken
  simpa [indirectPattern] using htoken

theorem token_indirect (arch : Arch) (htext : ∀ c ∈ text, c ≠ ']') (s : List Char) :
    getNextToken arch ("[%".toList ++ (text ++ (']' :: s))) =
      ⟨.kIndirect, ("[%".toList ++ (text ++ [']'])).length, 0⟩ := by
  refine token_bracket (w := ['%']) (by cases arch <;> rfl) ?_ s
  simpa using htext

theorem token_null (s : List Char) :
    getNextToken arch ("[0]".toList ++ s) = ⟨.kIndirect, 3, 0⟩ := by
  have hcandidate : candidate? arch "[0]".toList = some indirectPattern := by
    cases arch <;> rfl
  exact getNextToken_of_candidate hcandidate rfl

def headerPattern : PatternType :=
  ⟨lit "BB %".toList (seq (group 1 (plus isDigit))
    (seq (opt (group 2 (lit " - ".toList (star anyChar)))) (lit ['\n'] empty))),
   .kBasicBlockStart⟩

def HeaderTail (tail : List Char) : Prop :=
  tail = [] ∨ ∃ rest, tail = " - ".toList ++ rest ∧ ∀ c ∈ rest, anyChar c = true

theorem token_header (arch : Arch) (hn : n < 2 ^ 63) {tail : List Char} (htail : HeaderTail tail)
    (s : List Char) :
    getNextToken arch ("BB %".toList ++ (decimal n ++ (tail ++ ('\n' :: s)))) =
      ⟨.kBasicBlockStart, ("BB %".toList ++ (decimal n ++ (tail ++ ['\n']))).length, n⟩ := by
  have hcandidate : candidate? arch "BB %".toList = some headerPattern := by
    cases arch <;> rfl
  have hclose : (lit ['\n'] empty).matchPrefix ('\n' :: s) = some ⟨['\n'], [], s⟩ :=
    matchPrefix_word ['\n']
  obtain ⟨groups, hopt⟩ : ∃ groups,
      (opt (group 2 (lit " - ".toList (star anyChar)))).matchPrefix (tail ++ '\n' :: s) =
        some ⟨tail, groups, '\n' :: s⟩ := by
    rcases htail with rfl | ⟨rest, rfl, hrest⟩
    · exact ⟨[], matchPrefix_opt_none (by simp)⟩
    · have hstar := matchPrefix_star (s := '\n' :: s) hrest (by simp [anyChar])
      rw [append_assoc]
      exact ⟨_, matchPrefix_alt_left
        (matchPrefix_group_of _ (matchPrefix_lit_of _ hstar))⟩
  have hend : ∀ c ∈ (tail ++ '\n' :: s).head?, isDigit c = false := by
    rcases htail with rfl | ⟨rest, rfl, -⟩ <;> simp <;> decide
  have hnumber := matchPrefix_group_of 1
    (matchPrefix_plus (decimal_ne_nil n) isDigit_of_mem_decimal hend)
  have hmatch := matchPrefix_lit_of "BB %".toList
    (matchPrefix_seq_of hnumber (matchPrefix_seq_of hopt hclose))
  have htoken := getNextToken_of_candidate hcandidate hmatch
  have hgroups : headerPattern.re.hasGroups = true := rfl
  simp only [PatternType.token, hgroups] at htoken
  simpa [headerPattern, Match.group, strtoll_decimal hn] using htoken

def functionPattern : PatternType :=
  ⟨lit "Function:".toList (seq (star anyChar) (lit ['\n'] empty)), .kFunctionStart⟩

theorem token_functionStart (arch : Arch) (s : List Char) :
    getNextToken arch ("Function:".toList ++ ('\n' :: s)) = ⟨.kFunctionStart, 10, 0⟩ := by
  have hcandidate : candidate? arch "Function:".toList = some functionPattern := by
    cases arch <;> rfl
  have hstar := matchPrefix_star (p := anyChar) (s := '\n' :: s)
    (show ∀ c ∈ [], anyChar c = true by simp) (by simp [anyChar])
  have hclose : (lit ['\n'] empty).matchPrefix ('\n' :: s) = some ⟨['\n'], [], s⟩ :=
    matchPrefix_word ['\n']
  have hmatch := matchPrefix_lit_of "Function:".toList
    (matchPrefix_seq_of hstar hclose)
  exact getNextToken_of_candidate hcandidate hmatch

def namePattern : PatternType := ⟨seq (char isIdStart) (plus isIdPart), .kId⟩

theorem eq_namePattern (hmem : pattern ∈ patterns arch)
    (htype : pattern.type = .kId) : pattern = namePattern := by
  have hall : ∀ pattern ∈ patterns arch, pattern.type = .kId → pattern = namePattern := by
    cases arch <;> simp [patterns, physicalPatterns, namePattern]
  exact hall pattern hmem htype

def isName (text : List Char) : Bool :=
  match text with
  | [] => false
  | c :: rest => isIdStart c && (!rest.isEmpty && rest.all isIdPart)

theorem spelled_cons {α : Type} {cs : List Char} {a : α} {names : List (String × α)}
    {spelled : List (List Char × α)}
    (h : names.map (fun pair => (pair.1.toList, pair.2)) = spelled) :
    ((String.ofList cs, a) :: names).map (fun pair => (pair.1.toList, pair.2)) =
      (cs, a) :: spelled := by
  rw [map_cons, h, String.toList_ofList]

/-- A number for each spelling, which is quicker to compare. -/
def code (cs : List Char) : Nat := cs.foldl (fun n c => 256 * n + c.toNat) 0

def NamesTokens (arch : Arch) (spelled : List (List Char × Opcode)) : Prop :=
  spelled.all (fun pair => (candidate? arch pair.1).map PatternType.type = some .kId) = true

instance (arch : Arch) (spelled : List (List Char × Opcode)) :
    Decidable (NamesTokens arch spelled) :=
  inferInstanceAs (Decidable (_ = true))

theorem exists_spelled : ∃ spelled,
    instrNames.map (fun pair => (pair.1.toList, pair.2)) = spelled ∧
      (spelled.all fun pair => isName pair.1) = true ∧
      (NamesTokens .kX86_64 spelled ∧ NamesTokens .kAarch64 spelled) ∧
      (spelled.map fun pair => code pair.1).Nodup := by
  unfold instrNames
  refine ⟨_, by repeat' apply spelled_cons
                rfl, ?_, ?_, ?_⟩
  · decide +kernel
  · constructor <;> decide +kernel
  · decide +kernel

theorem candidate_name (arch : Arch) :
    ∀ pair ∈ instrNames, (candidate? arch pair.1.toList).map PatternType.type = some .kId := by
  intro pair hmem
  obtain ⟨spelled, hspelled, -, hcandidates, -⟩ := exists_spelled
  have hin : (pair.1.toList, pair.2) ∈ spelled := by
    rw [← hspelled]
    exact List.mem_map_of_mem hmem
  have hall : NamesTokens arch spelled := by
    cases arch
    · exact hcandidates.1
    · exact hcandidates.2
  simpa using List.all_eq_true.mp hall _ hin

theorem isName_of_mem : ∀ pair ∈ instrNames, isName pair.1.toList = true := by
  intro pair hmem
  obtain ⟨spelled, hspelled, hnames, -, -⟩ := exists_spelled
  have hin : (pair.1.toList, pair.2) ∈ spelled := by
    rw [← hspelled]
    exact List.mem_map_of_mem hmem
  exact List.all_eq_true.mp hnames _ hin

theorem instrName_mem (opcode : Opcode) :
    ∃ pair ∈ instrNames, instrName (some opcode) = pair.1.toList ∧ pair.2 = opcode := by
  have hsome : (instrNames.find? fun pair => pair.2 = opcode).isSome := by
    cases opcode <;> rfl
  obtain ⟨pair, hpair⟩ := Option.isSome_iff_exists.mp hsome
  refine ⟨pair, mem_of_find?_eq_some hpair, by simp [instrName, hpair], ?_⟩
  simpa using find?_some hpair

theorem find?_name {names : List (String × Opcode)}
    (hnodup : (names.map fun pair => pair.1.toList).Nodup) {pair : String × Opcode}
    (hmem : pair ∈ names) :
    names.find? (fun other => pair.1.toList = other.1.toList) = some pair := by
  induction names with
  | nil => simp at hmem
  | cons first rest ih =>
    simp only [map_cons, nodup_cons, List.mem_map, not_exists, not_and] at hnodup
    cases mem_cons.mp hmem with
    | inl heq => simp [heq]
    | inr hrest =>
      have hne : pair.1.toList ≠ first.1.toList := hnodup.1 pair hrest
      rw [find?_cons, decide_eq_false hne]
      exact ih hnodup.2 hrest

theorem getInstrOpcode_of_mem :
    ∀ pair ∈ instrNames, getInstrOpcode pair.1.toList = some pair.2 := by
  intro pair hmem
  obtain ⟨spelled, hspelled, -, -, hcodes⟩ := exists_spelled
  have hnodup : (instrNames.map fun pair => pair.1.toList).Nodup := by
    subst hspelled
    rw [List.map_map] at hcodes
    refine List.Pairwise.of_map (S := (· ≠ ·)) code ?_ (by rwa [List.map_map])
    exact fun _ _ hne heq => hne (congrArg code heq)
  simp [getInstrOpcode, find?_name hnodup hmem]

theorem getInstrOpcode_instrName (opcode : Opcode) :
    getInstrOpcode (instrName (some opcode)) = some opcode := by
  obtain ⟨pair, hmem, hname, rfl⟩ := instrName_mem opcode
  rw [hname, getInstrOpcode_of_mem pair hmem]

theorem token_name (arch : Arch) (opcode : Opcode) (hs : Boundary s) :
    getNextToken arch (instrName (some opcode) ++ s) =
      ⟨.kId, (instrName (some opcode)).length, 0⟩ := by
  obtain ⟨pair, hmem, hname, -⟩ := instrName_mem opcode
  have htype := candidate_name arch pair hmem
  have hisName := isName_of_mem pair hmem
  rw [← hname] at htype hisName
  obtain ⟨pattern, hcandidate, hpattern⟩ := Option.map_eq_some_iff.mp htype
  have hin : pattern ∈ patterns arch :=
    (dropWhile_suffix _).subset (mem_of_mem_head? hcandidate)
  obtain rfl := eq_namePattern hin hpattern
  cases hchars : instrName (some opcode) with
  | nil => simp [hchars, isName] at hisName
  | cons c rest =>
    simp only [hchars, isName, Bool.and_eq_true, Bool.not_eq_true', isEmpty_eq_false_iff,
      List.all_eq_true] at hisName
    obtain ⟨hc, hne, hrest⟩ := hisName
    have hplus := matchPrefix_plus hne hrest hs
    have hmatch : namePattern.re.matchPrefix (c :: rest ++ s) = some ⟨c :: rest, [], s⟩ := by
      simp [namePattern, hc, hplus, Match.append]
    rw [hchars] at hcandidate
    exact getNextToken_of_candidate hcandidate hmatch

/-! ## Names of registers -/

theorem token_of_advance {rest : List Char} {rests : List (List Char)}
    (hcandidate : candidate? arch (text ++ rest) = some pattern)
    (hadvance : pattern.re.advance (text ++ rest) = some (rest :: rests))
    (hgroups : pattern.re.hasGroups = false) (s : List Char) :
    getNextToken arch (text ++ (rest ++ s)) = ⟨pattern.type, text.length, 0⟩ := by
  obtain ⟨groups, hmatch⟩ := matchPrefix_of_advance hadvance s
  rw [← append_assoc] at hmatch ⊢
  rw [getNextToken_of_candidate hcandidate hmatch, PatternType.token, hgroups]
  rfl

def nameType (arch : Arch) (name : List Char) : Option TokenType :=
  (candidate? arch (name ++ [':'])).map PatternType.type

/-- The name of a register before its type is a token of its own: the name of the register,
or an identifier that names no opcode. -/
def nameReads (arch : Arch) (id : Nat) (name : List Char) : Bool :=
  isName name && (candidate? arch (name ++ [':'])).any fun pattern =>
    !pattern.re.hasGroups &&
      (pattern.re.advance (name ++ [':'])).any (fun rests => rests.head? = some [':']) &&
      (pattern.type = .kPhyReg && parseReg arch name = some (id : Int) ||
        pattern.type = .kId && getInstrOpcode name = none)

theorem registers_read (arch : Arch) :
    ∀ reg ∈ registers arch, ∀ name ∈ reg.2, nameReads arch reg.1 name = true := by
  cases arch <;> decide +kernel

theorem regName_reads {id bits : Nat} {name : List Char} (h : regName arch id bits = some name) :
    nameReads arch id name = true := by
  obtain ⟨names, hnames, hname⟩ := Option.bind_eq_some_iff.mp h
  obtain ⟨before, after, hregisters, -⟩ := lookup_eq_some_iff.mp hnames
  have hmem : (id, names) ∈ registers arch := by simp [hregisters]
  exact registers_read arch _ hmem name (mem_of_getElem? hname)

theorem token_regName {id bits : Nat} {name : List Char} (h : regName arch id bits = some name)
    (s : List Char) : ∃ type, nameType arch name = some type ∧
      getNextToken arch (name ++ (':' :: s)) = ⟨type, name.length, 0⟩ ∧
      (type = .kPhyReg ∧ parseReg arch name = some (id : Int) ∨
        type = .kId ∧ getInstrOpcode name = none) := by
  have hreads := regName_reads h
  simp only [nameReads, Bool.and_eq_true, Option.any_eq_true, Bool.not_eq_true',
    decide_eq_true_eq, Bool.or_eq_true] at hreads
  obtain ⟨-, pattern, hcandidate, ⟨hgroups, rests, hadvance, hhead⟩, hread⟩ := hreads
  obtain ⟨rests, rfl⟩ := head?_eq_some_iff.mp hhead
  exact ⟨pattern.type, by simp [nameType, hcandidate],
    token_of_advance hcandidate hadvance hgroups s, hread⟩

end CinderX.Jit.Lir.Text
