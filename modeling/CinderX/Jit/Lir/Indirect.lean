import CinderX.Jit.Lir.Tokens

/-!
# Memory operands are parsed back

`parseIndirect` searches its token three times.  Each search goes past what
belongs to the others, and the lengths of the matches add up to the whole token.
-/

namespace CinderX.Jit.Lir.Text

open CinderX.Foundation Regex List

variable {n : Int} {r : Regex} {k m : Nat}

theorem toInt_eq (hlow : -2 ^ 31 ≤ n) (hhigh : n < 2 ^ 31) : toInt n = n :=
  Int.bmod_eq_of_le (by omega) (by omega)

theorem stoll_eq_some {text : List Char} (hread : readInteger text = n)
    (hlow : -2 ^ 63 ≤ n) (hhigh : n < 2 ^ 63) : stoll text = some n := by
  unfold stoll
  rw [hread]
  exact if_pos ⟨hlow, hhigh⟩

def regText (id : Nat) (dataType : DataType) : List Char :=
  '%' :: (decimal id ++ printType dataType)

def isRegChar (c : Char) : Bool := isAlnum c || (c == '%' || c == ':')

variable {c : Char}

theorem isRegChar_of_isDigit (h : isDigit c = true) : isRegChar c = true := by
  simp [isRegChar, isAlnum, h]

theorem isRegChar_of_mem_regText {id : Nat} {dataType : DataType} :
    ∀ c ∈ regText id dataType, isRegChar c = true := by
  intro c hc
  simp only [regText, printType, mem_cons, mem_append] at hc
  rcases hc with rfl | hc | rfl | hc
  · decide
  · exact isRegChar_of_isDigit (isDigit_of_mem_decimal c hc)
  · decide
  · simp [isRegChar, isAlnum_of_mem_dataTypeName dataType c hc]

theorem matchPrefix_type (dataType : DataType) {s : List Char}
    (hs : ∀ c ∈ s.head?, isAlnum c = false) :
    (lit [':'] (plus isAlnum)).matchPrefix (printType dataType ++ s) =
      some ⟨printType dataType, [], s⟩ := by
  have hne : dataTypeName dataType ≠ [] := by cases dataType <;> decide
  exact matchPrefix_lit_of [':']
    (matchPrefix_plus hne (isAlnum_of_mem_dataTypeName dataType) hs)

theorem matchPrefix_id (id : Nat) (dataType : DataType) (s : List Char) :
    (group 1 (plus isDigit)).matchPrefix (decimal id ++ (printType dataType ++ s)) =
      some ⟨decimal id, [(1, decimal id)], printType dataType ++ s⟩ := by
  refine matchPrefix_group_of _ (matchPrefix_plus (decimal_ne_nil id) isDigit_of_mem_decimal ?_)
  simp [printType]
  decide

section Lookup

variable (target : Target) {outputs : List Int} {id : Nat} (dataType : DataType)
  {s : List Char}

theorem lookupId_decimal (hid : (id : Int) < 2 ^ 31) (hmem : (id : Int) ∈ outputs) :
    lookupId outputs (decimal id) = some (.vreg id) := by
  have hread : stoll (decimal id) = some (id : Int) :=
    stoll_eq_some (readInteger_decimal id) (by omega) (by omega)
  have hint : toInt (id : Int) = id := toInt_eq (by omega) hid
  simp [lookupId, hread, hint, hmem]

theorem parseBase_regText (hid : (id : Int) < 2 ^ 31) (hmem : (id : Int) ∈ outputs)
    (hs : ∀ c ∈ s.head?, isAlnum c = false) :
    parseBase target outputs ('[' :: (regText id dataType ++ s)) =
      some (some (.vreg id), (regText id dataType).length + 1) := by
  have hmatch : baseReg.matchPrefix ("[%".toList ++ (decimal id ++ (printType dataType ++ s))) =
      _ := matchPrefix_lit_of _
        (matchPrefix_seq_of (matchPrefix_id id dataType s) (matchPrefix_type dataType hs))
  have hsearch := search_of_matchPrefix hmatch
  have htoken : '[' :: (regText id dataType ++ s) =
      "[%".toList ++ (decimal id ++ (printType dataType ++ s)) := by simp [regText]
  unfold parseBase
  rw [htoken, hsearch]
  simp [Match.group, lookupId_decimal hid hmem, regText]

end Lookup

theorem refutes_lit {c d : Char} {word : List Char} (h : c ≠ d) :
    (lit (d :: word) r).refutes [c] = true := by
  simp [refutes, lit, advance, h]

theorem search_eq_none {s : List Char} (h : ∀ c ∈ s, r.refutes [c] = true)
    (hnil : r.matchPrefix [] = none) : r.search s = none := by
  have hall := search_append h []
  rw [append_nil] at hall
  exact hall.trans hnil

def isFiller (c : Char) : Bool := isRegChar c || (c == ' ' || (c == '[' || (c == ']' || c == '*')))

theorem ne_of_isFiller (h : isFiller c = true) : c ≠ '+' ∧ c ≠ '-' :=
  ⟨by rintro rfl; exact absurd h (by decide), by rintro rfl; exact absurd h (by decide)⟩

theorem refutes_indexReg (h : c ≠ '+') : indexReg.refutes [c] = true := refutes_lit h

theorem refutes_indexPhys (h : c ≠ '+') : indexPhys.refutes [c] = true :=
  refutes_lit h

theorem refutes_offsetPattern (h : isFiller c = true) : offsetPattern.refutes [c] = true := by
  obtain ⟨hplus, hminus⟩ := ne_of_isFiller h
  have hc : oneOf "+-" c = false := by simp [oneOf, hplus, hminus]
  simp [refutes, offsetPattern, advance, hc]

theorem refutes_offsetPattern_sign {c d : Char} (h : d ≠ ' ') :
    offsetPattern.refutes [c, d] = true := by
  by_cases hc : oneOf "+-" c <;> simp [refutes, offsetPattern, advance, lit, hc, h]

theorem isFiller_of_isDigit (h : isDigit c = true) : isFiller c = true := by
  simp [isFiller, isRegChar_of_isDigit h]

theorem isFiller_of_mem_regText {id : Nat} {dataType : DataType} :
    ∀ c ∈ regText id dataType, isFiller c = true := by
  intro c hc
  simp [isFiller, isRegChar_of_mem_regText c hc]

theorem search_offsetPattern_printInt (n : Int) (s : List Char) :
    offsetPattern.search (printInt n ++ s) = offsetPattern.search s := by
  have hdigits : ∀ c ∈ decimal n.natAbs, offsetPattern.refutes [c] = true := fun c hc =>
    refutes_offsetPattern (isFiller_of_isDigit (isDigit_of_mem_decimal c hc))
  have hsearch := search_append hdigits s
  unfold printInt
  split
  next hneg =>
    rw [← hsearch, cons_append]
    cases htext : decimal n.natAbs with
    | nil => exact absurd htext (decimal_ne_nil _)
    | cons c cs =>
      have hc : isDigit c = true :=
        isDigit_of_mem_decimal (n := n.natAbs) c (by simp [htext])
      have hblank : c ≠ ' ' := by rintro rfl; exact absurd hc (by decide)
      exact search_cons (matchPrefix_of_refutes
        (refutes_offsetPattern_sign (c := '-') hblank) (cs ++ s))
  next hpos => exact hsearch

theorem isFiller_of_isHexDigit (h : isHexDigit c = true) : isFiller c = true := by
  have halnum : isAlnum c = true := by
    simp only [isHexDigit, Bool.or_eq_true, Bool.and_eq_true, decide_eq_true_eq] at h
    simp only [isAlnum, Bool.or_eq_true, Bool.and_eq_true, decide_eq_true_eq]
    rcases h with (hdigit | ⟨hlow, hhigh⟩) | ⟨hlow, hhigh⟩
    · exact .inl (.inl hdigit)
    · exact .inl (.inr ⟨hlow, Char.le_trans hhigh (by decide)⟩)
    · exact .inr ⟨hlow, Char.le_trans hhigh (by decide)⟩
  simp [isFiller, isRegChar, halnum]

section Offset

variable {offset : Int} (hlow : -2 ^ 31 ≤ offset) (hhigh : offset < 2 ^ 31)

include hlow hhigh in
theorem printOffset_eq (hzero : offset ≠ 0) (hmin : offset ≠ -2 ^ 31) :
    ∃ sign, oneOf "+-" sign = true ∧
      printOffset offset = [' ', sign, ' '] ++ ("0x".toList ++ hexadecimal offset.natAbs) ∧
      readInteger (sign :: ("0x".toList ++ hexadecimal offset.natAbs)) = offset := by
  have hread : readMagnitude ("0x".toList ++ hexadecimal offset.natAbs) = offset.natAbs :=
    readMagnitude_hexadecimal _
  unfold printOffset
  rw [if_neg hzero]
  split
  next hpos =>
    refine ⟨'+', by decide, ?_, ?_⟩
    · simp [printHex, show ¬ offset < 0 by omega]
    · rw [readInteger, hread]
      omega
  next hneg =>
    have hint : toInt (-offset) = -offset := toInt_eq (by omega) (by omega)
    refine ⟨'-', by decide, ?_, ?_⟩
    · simp [printHex, hint, show ¬ 0 < offset by omega]
    · rw [readInteger, hread]
      omega

theorem printOffset_min : printOffset (-2 ^ 31) = " - -0x80000000".toList := by decide

include hlow hhigh in
theorem parseOffset_printOffset :
    parseOffset (printOffset offset ++ [']']) =
      if offset = -2 ^ 31 then some (0, 0)
      else some (offset, (printOffset offset).length) := by
  split
  next hmin =>
    rw [hmin, printOffset_min]
    decide
  next hmin =>
    rcases eq_or_ne offset 0 with rfl | hzero
    · decide
    · obtain ⟨sign, hsign, htext, hread⟩ := printOffset_eq hlow hhigh hzero hmin
      have hchar : (group 1 (char (oneOf "+-"))).matchPrefix
          (sign :: ' ' :: ("0x".toList ++ (hexadecimal offset.natAbs ++ [']']))) =
            some ⟨[sign], [(1, [sign])], _⟩ :=
        matchPrefix_group_of _ (by rw [matchPrefix_char_cons, if_pos hsign])
      have hhex := matchPrefix_plus (p := isHexDigit) (s := [']'])
        (hexadecimal_ne_nil offset.natAbs) isHexDigit_of_mem_hexadecimal (by simp; decide)
      have hmatch := matchPrefix_seq_of hchar (matchPrefix_lit_of [' ']
        (matchPrefix_group_of 2 (matchPrefix_lit_of "0x".toList hhex)))
      have hsearch := search_append (r := offsetPattern) (w := [' '])
        (by simpa using refutes_offsetPattern (c := ' ') (by decide))
        (sign :: ' ' :: ("0x".toList ++ (hexadecimal offset.natAbs ++ [']'])))
      have hint : toInt offset = offset := toInt_eq hlow hhigh
      have hstoll := stoll_eq_some hread (by omega) (by omega)
      have hfound := hsearch.trans (search_of_matchPrefix hmatch)
      have htoken : printOffset offset ++ [']'] = [' '] ++ (sign :: ' ' ::
          ("0x".toList ++ (hexadecimal offset.natAbs ++ [']']))) := by
        rw [htext]
        simp
      unfold parseOffset
      rw [htoken, hfound, htext]
      have hstoll' : ∃ n, stoll (sign :: ("0x".toList ++ hexadecimal offset.natAbs)) = some n ∧
          toInt n = offset := ⟨offset, hstoll, hint⟩
      simpa [Match.group] using hstoll'

include hlow hhigh in
theorem search_printOffset {r : Regex} (hother : ∀ c, c ≠ '+' → r.refutes [c] = true)
    (hplus : r.refutes ['+', ' ', '0'] = true) (hnil : r.matchPrefix [] = none) :
    r.search (printOffset offset ++ [']']) = none := by
  rcases eq_or_ne offset (-2 ^ 31) with rfl | hmin
  · rw [printOffset_min]
    have hword : ∀ c ∈ " - -0x80000000".toList ++ [']'], c ≠ '+' :=
      forall_mem_of_all (by decide)
    exact search_eq_none (fun c hc => hother c (hword c hc)) hnil
  rcases eq_or_ne offset 0 with rfl | hzero
  · have hword : ∀ c ∈ printOffset 0 ++ [']'], c ≠ '+' := forall_mem_of_all (by decide)
    exact search_eq_none (fun c hc => hother c (hword c hc)) hnil
  obtain ⟨sign, hsign, htext, -⟩ := printOffset_eq hlow hhigh hzero hmin
  have hrest : ∀ c ∈ ' ' :: '0' :: 'x' :: (hexadecimal offset.natAbs ++ [']']), c ≠ '+' := by
    intro c hc
    simp only [mem_cons, mem_append, not_mem_nil, or_false] at hc
    rcases hc with rfl | rfl | rfl | hc | rfl
    · decide
    · decide
    · decide
    · exact (ne_of_isFiller (isFiller_of_isHexDigit (isHexDigit_of_mem_hexadecimal c hc))).1
    · decide
  have hsign : r.matchPrefix
      (sign :: ' ' :: '0' :: 'x' :: (hexadecimal offset.natAbs ++ [']'])) = none := by
    rcases eq_or_ne sign '+' with rfl | hne
    · exact matchPrefix_of_refutes hplus _
    · exact matchPrefix_of_refutes (hother sign hne) _
  have hblank := search_append (r := r) (w := [' ']) (by simpa using hother ' ' (by decide))
    (sign :: ' ' :: '0' :: 'x' :: (hexadecimal offset.natAbs ++ [']']))
  rw [htext]
  refine hblank.trans ((search_cons hsign).trans ?_)
  exact search_eq_none (fun c hc => hother c (hrest c hc)) hnil

include hlow hhigh in
theorem printOffset_head :
    (∀ c ∈ (printOffset offset ++ [']']).head?, isAlnum c = false ∧ isDigit c = false) ∧
      factorPattern.matchPrefix (printOffset offset ++ [']']) =
        some ⟨[], [], printOffset offset ++ [']']⟩ := by
  have hnone : ∀ (w s : List Char), (lit " * ".toList (group 3 (plus isDigit))).refutes w = true →
      factorPattern.matchPrefix (w ++ s) = some ⟨[], [], w ++ s⟩ := by
    intro w s hw
    refine matchPrefix_opt_none ?_
    rw [matchPrefix_group, matchPrefix_of_refutes hw]
    rfl
  rcases eq_or_ne offset (-2 ^ 31) with rfl | hmin
  · rw [printOffset_min]
    exact ⟨by simp; decide, hnone " -".toList _ rfl⟩
  rcases eq_or_ne offset 0 with rfl | hzero
  · exact ⟨by simp [printOffset]; decide, hnone [']'] [] rfl⟩
  obtain ⟨sign, hsign, htext, -⟩ := printOffset_eq hlow hhigh hzero hmin
  rw [htext]
  refine ⟨by simp; decide, hnone [' ', sign] _ ?_⟩
  have hne : sign ≠ '*' := by rintro rfl; exact absurd hsign (by decide)
  simp [refutes, lit, advance, hne]

end Offset

/-! ## The index -/

def printFactor (multiplier : Nat) : List Char :=
  if 0 < multiplier then " * ".toList ++ printInt (toInt (2 ^ (multiplier % 32))) else []

theorem toInt_two_pow (hk : k ≤ 30) : toInt (2 ^ k) = 2 ^ k := by
  have hle : (2 : Int) ^ k ≤ 2 ^ 30 := pow_le_pow_right₀ (by decide) hk
  have hpos : (0 : Int) < 2 ^ k := Int.pow_pos (by decide)
  exact toInt_eq (by omega) (by omega)

theorem printFactor_eq (hm : 0 < m) (hk : m % 32 ≤ 30) :
    printFactor m = " * ".toList ++ decimal (2 ^ (m % 32)) := by
  have hpos : (0 : Int) < 2 ^ (m % 32) := Int.pow_pos (by decide)
  have habs : ((2 : Int) ^ (m % 32)).natAbs = 2 ^ (m % 32) := Int.natAbs_pow 2 (m % 32)
  rw [printFactor, if_pos hm, toInt_two_pow hk, printInt, if_neg (by omega), habs]

theorem printFactor_eq_of_sign (hm : m % 32 = 31) :
    printFactor m = " * -2147483648".toList := by
  have hpos : 0 < m := by omega
  rw [printFactor, if_pos hpos, hm]
  decide

theorem parseMultiplier_two_pow {m : Regex.Match} (hk : k ≤ 30)
    (hgroup : m.group 3 = decimal (2 ^ k)) : parseMultiplier m = some k := by
  have hle : 2 ^ k ≤ 2 ^ 30 := Nat.pow_le_pow_right (by decide) hk
  have hpos : 0 < 2 ^ k := Nat.two_pow_pos k
  have hread : stoll (decimal (2 ^ k)) = some ((2 ^ k : Nat) : Int) :=
    stoll_eq_some (readInteger_decimal _) (by omega) (by omega)
  have hpower : (2 ^ k) &&& (2 ^ k - 1) = 0 := by
    rw [Nat.and_two_pow_sub_one_eq_mod, Nat.mod_self]
  have hcond : (0 : Int) < ((2 ^ k : Nat) : Int) ∧
      ((2 ^ k : Nat) : Int).toNat &&& (((2 ^ k : Nat) : Int).toNat - 1) = 0 := by
    rw [Int.toNat_natCast]
    exact ⟨by omega, hpower⟩
  unfold parseMultiplier
  rw [if_neg (by rw [hgroup]; exact decimal_ne_nil _), hgroup, hread, Option.bind_some,
    if_pos hcond, Int.toNat_natCast, Nat.log2_two_pow]

section Index

variable (target : Target) (outputs : List Int) (id : Nat) (dataType : DataType)
  (multiplier : Nat) {offset : Int} (hlow : -2 ^ 31 ≤ offset) (hhigh : offset < 2 ^ 31)

theorem matchPrefix_indexReg {s rest text : List Char} {groups : List (Nat × List Char)}
    (hs : ∀ c ∈ s.head?, isAlnum c = false)
    (hfactor : factorPattern.matchPrefix s = some ⟨text, groups, rest⟩) :
    indexReg.matchPrefix ("+ ".toList ++ (regText id dataType ++ s)) =
      some ⟨"+ ".toList ++ (regText id dataType ++ text), (1, decimal id) :: groups, rest⟩ := by
  have htoken : "+ ".toList ++ (regText id dataType ++ s) =
      "+ %".toList ++ (decimal id ++ (printType dataType ++ s)) := by simp [regText]
  have hmatch := matchPrefix_lit_of "+ %".toList
    (matchPrefix_seq_of (matchPrefix_id id dataType s)
      (matchPrefix_seq_of (matchPrefix_type dataType hs) hfactor))
  rw [htoken]
  refine hmatch.trans ?_
  simp [regText]

def readFactor (multiplier : Nat) : List Char :=
  if multiplier % 32 = 31 then [] else printFactor multiplier

include hlow hhigh in
theorem matchPrefix_factor (multiplier : Nat) :
    ∃ groups rest, factorPattern.matchPrefix
        (printFactor multiplier ++ (printOffset offset ++ [']'])) =
          some ⟨readFactor multiplier, groups, rest⟩ ∧
      ∀ text id, parseMultiplier ⟨text, (1, id) :: groups, rest⟩ =
        some (if multiplier % 32 = 31 then 0 else multiplier % 32) := by
  obtain ⟨hhead, htail⟩ := printOffset_head hlow hhigh
  by_cases hsign : multiplier % 32 = 31
  · have hfactor : (lit " * ".toList (group 3 (plus isDigit))).refutes
        " * -2147483648".toList = true := by decide
    refine ⟨[], " * -2147483648".toList ++ (printOffset offset ++ [']']), ?_, ?_⟩
    · rw [printFactor_eq_of_sign hsign, readFactor, if_pos hsign]
      refine matchPrefix_opt_none ?_
      rw [matchPrefix_group, matchPrefix_of_refutes hfactor]
      rfl
    · intro text id
      rw [if_pos hsign]
      rfl
  · rcases Nat.eq_zero_or_pos multiplier with rfl | hpos
    · exact ⟨[], _, htail, fun text id => rfl⟩
    · have hk : multiplier % 32 ≤ 30 := by omega
      have hnumber := matchPrefix_group_of 3
        (matchPrefix_plus (decimal_ne_nil (2 ^ (multiplier % 32))) isDigit_of_mem_decimal
          fun c hc => (hhead c hc).2)
      have hmatch := matchPrefix_alt_left (t := empty) (matchPrefix_group_of 2
        (matchPrefix_lit_of " * ".toList hnumber))
      refine ⟨[(2, " * ".toList ++ decimal (2 ^ (multiplier % 32))),
        (3, decimal (2 ^ (multiplier % 32)))], printOffset offset ++ [']'], ?_, ?_⟩
      · rw [printFactor_eq hpos hk, readFactor, if_neg hsign, printFactor_eq hpos hk,
          append_assoc]
        exact hmatch
      · intro text id
        rw [if_neg hsign]
        exact parseMultiplier_two_pow hk rfl

theorem ne_plus_of_mem_base {base : Nat} {baseType : DataType} :
    ∀ c ∈ '[' :: regText base baseType, c ≠ '+' := by
  intro c hc
  rcases mem_cons.mp hc with rfl | hc
  · decide
  · exact (ne_of_isFiller (isFiller_of_mem_regText c hc)).1

include hlow hhigh in
theorem parseIndex_none (base : Nat) (baseType : DataType) :
    parseIndex target outputs
        ('[' :: (regText base baseType ++ (printOffset offset ++ [']']))) =
      some (none, 0, 0) := by
  have hreg : indexReg.search ('[' :: regText base baseType ++ (printOffset offset ++ [']'])) =
      none := by
    rw [search_append fun c hc => refutes_indexReg (ne_plus_of_mem_base c hc)]
    exact search_printOffset hlow hhigh (fun c hc => refutes_indexReg hc) rfl rfl
  have hphys : indexPhys.search
      ('[' :: regText base baseType ++ (printOffset offset ++ [']'])) = none := by
    rw [search_append fun c hc => refutes_indexPhys (ne_plus_of_mem_base c hc)]
    exact search_printOffset hlow hhigh (fun c hc => refutes_indexPhys hc) rfl rfl
  rw [cons_append] at hreg hphys
  simp only [parseIndex, hreg, hphys]

include hlow hhigh in
theorem parseIndex_some (base : Nat) (baseType : DataType) (hid : (id : Int) < 2 ^ 31)
    (hmem : (id : Int) ∈ outputs) :
    parseIndex target outputs
        ('[' :: (regText base baseType ++ (" + ".toList ++ (regText id dataType ++
          (printFactor multiplier ++ (printOffset offset ++ [']'])))))) =
      some (some (.vreg id), if multiplier % 32 = 31 then 0 else multiplier % 32,
        (" + ".toList ++ (regText id dataType ++ readFactor multiplier)).length) := by
  obtain ⟨groups, rest, hfactor, hmultiplier⟩ := matchPrefix_factor hlow hhigh multiplier
  have hhead : ∀ c ∈ (printFactor multiplier ++ (printOffset offset ++ [']'])).head?,
      isAlnum c = false := by
    unfold printFactor
    split
    · simp
      decide
    · exact fun c hc => ((printOffset_head hlow hhigh).1 c hc).1
  have hmatch := matchPrefix_indexReg id dataType hhead hfactor
  have hskip : ∀ c ∈ '[' :: regText base baseType ++ [' '], indexReg.refutes [c] = true := by
    intro c hc
    refine refutes_indexReg ?_
    rcases mem_append.mp hc with hc | hc
    · exact ne_plus_of_mem_base c hc
    · rw [mem_singleton.mp hc]
      decide
  have hsearch := (search_append hskip _).trans (search_of_matchPrefix hmatch)
  have htoken : '[' :: (regText base baseType ++ (" + ".toList ++ (regText id dataType ++
      (printFactor multiplier ++ (printOffset offset ++ [']']))))) =
        '[' :: regText base baseType ++ [' '] ++ ("+ ".toList ++ (regText id dataType ++
          (printFactor multiplier ++ (printOffset offset ++ [']'])))) := by simp
  have hlookup := lookupId_decimal hid hmem
  unfold parseIndex
  rw [htoken, hsearch]
  simp [Match.group, hlookup, hmultiplier]

end Index

/-! ## The whole operand -/

/-- What the parser makes of a memory operand, nothing for those that it rejects. -/
def MemoryIndirect.readBack (ind : MemoryIndirect) : Option MemoryIndirect :=
  if ind.offset = -2 ^ 31 then none
  else if ind.index = none then some { ind with multiplier := 0 }
  else if ind.multiplier % 32 = 31 then none
  else some { ind with multiplier := ind.multiplier % 32 }

structure MemoryIndirect.Known (ind : MemoryIndirect) (outputs : List Int) : Prop where
  base : ∃ id ∈ outputs, ind.base = some (.vreg id)
  index : ∀ reg ∈ ind.index, ∃ id ∈ outputs, reg = .vreg id
  offset : -2 ^ 31 ≤ ind.offset ∧ ind.offset < 2 ^ 31

theorem parseOffset_append {w : List Char} (hw : ∀ s, offsetPattern.search (w ++ s) =
    offsetPattern.search s) (s : List Char) : parseOffset (w ++ s) = parseOffset s := by
  unfold parseOffset
  rw [hw]

theorem search_offsetPattern_base (base : Nat) (baseType : DataType) (s : List Char) :
    offsetPattern.search ('[' :: regText base baseType ++ s) = offsetPattern.search s := by
  refine search_append (fun c hc => refutes_offsetPattern ?_) s
  rcases mem_cons.mp hc with rfl | hc
  · decide
  · exact isFiller_of_mem_regText c hc

theorem search_offsetPattern_index (id : Nat) (dataType : DataType) (multiplier : Nat)
    (s : List Char) :
    offsetPattern.search (" + ".toList ++ (regText id dataType ++ printFactor multiplier) ++ s) =
      offsetPattern.search s := by
  have hblank : offsetPattern.refutes [' '] = true := refutes_offsetPattern (by decide)
  have hplus : offsetPattern.refutes ['+', ' ', '%'] = true := rfl
  have hreg : ∀ c ∈ ' ' :: regText id dataType, offsetPattern.refutes [c] = true := by
    intro c hc
    rcases mem_cons.mp hc with rfl | hc
    · exact hblank
    · exact refutes_offsetPattern (isFiller_of_mem_regText c hc)
  have hfactor : offsetPattern.search (printFactor multiplier ++ s) =
      offsetPattern.search s := by
    unfold printFactor
    split
    · have hword : ∀ c ∈ " * ".toList, isFiller c = true := forall_mem_of_all (by decide)
      have hstar : ∀ c ∈ " * ".toList, offsetPattern.refutes [c] = true :=
        fun c hc => refutes_offsetPattern (hword c hc)
      rw [append_assoc, search_append hstar, search_offsetPattern_printInt]
    · rfl
  have hsign : offsetPattern.matchPrefix
      ('+' :: ' ' :: (regText id dataType ++ (printFactor multiplier ++ s))) = none := by
    have hrefuted := matchPrefix_of_refutes hplus
      (decimal id ++ printType dataType ++ (printFactor multiplier ++ s))
    simpa [regText] using hrefuted
  have htoken : " + ".toList ++ (regText id dataType ++ printFactor multiplier) ++ s =
      [' '] ++ ('+' :: ' ' :: (regText id dataType ++ (printFactor multiplier ++ s))) := by simp
  rw [htoken, search_append (by simpa using hblank), search_cons hsign]
  exact (search_append hreg _).trans hfactor

section Whole

variable {target : Target} {f : Function} {outputs : List Int} {offset : Int}
  {baseId : Nat} {baseType : DataType} (hlow : -2 ^ 31 ≤ offset) (hhigh : offset < 2 ^ 31)
  (hbaseMax : (baseId : Int) < 2 ^ 31) (hbase : (baseId : Int) ∈ outputs)

include hlow hhigh hbaseMax hbase in
theorem parseIndirect_base :
    parseIndirect target outputs
        ('[' :: (regText baseId baseType ++ (printOffset offset ++ [']']))) =
      if offset = -2 ^ 31 then none else some ⟨some (.vreg baseId), none, 0, offset⟩ := by
  have hhead := (printOffset_head hlow hhigh).1
  have hbaseReg := parseBase_regText target baseType hbaseMax hbase
    fun c hc => (hhead c hc).1
  have hindexReg := parseIndex_none target outputs hlow hhigh baseId baseType
  have hoffset := (parseOffset_append (search_offsetPattern_base baseId baseType)
    (printOffset offset ++ [']'])).trans (parseOffset_printOffset hlow hhigh)
  rw [cons_append] at hoffset
  rw [parseIndirect, hbaseReg, hindexReg, hoffset]
  by_cases hmin : offset = -2 ^ 31
  · have hlength : (printOffset offset).length = 14 := by rw [hmin, printOffset_min]; rfl
    simp only [if_pos hmin, Option.bind_some]
    rw [if_neg (by simp [hlength]; omega)]
  · simp only [if_neg hmin, Option.bind_some]
    rw [if_pos (by simp; omega)]

include hlow hhigh hbaseMax hbase in
theorem parseIndirect_index {id multiplier : Nat} {dataType : DataType}
    (hid : (id : Int) < 2 ^ 31) (hmem : (id : Int) ∈ outputs) :
    parseIndirect target outputs
        ('[' :: (regText baseId baseType ++ (" + ".toList ++ (regText id dataType ++
          (printFactor multiplier ++ (printOffset offset ++ [']'])))))) =
      if offset = -2 ^ 31 ∨ multiplier % 32 = 31 then none
      else some ⟨some (.vreg baseId), some (.vreg id), multiplier % 32, offset⟩ := by
  have hbaseReg := parseBase_regText target baseType
    (s := " + ".toList ++ (regText id dataType ++
      (printFactor multiplier ++ (printOffset offset ++ [']'])))) hbaseMax hbase
    (by simp; decide)
  have hindexReg := parseIndex_some target outputs id dataType multiplier hlow hhigh baseId
    baseType hid hmem
  have hoffset := parseOffset_printOffset hlow hhigh
  rw [← parseOffset_append (search_offsetPattern_index id dataType multiplier),
    ← parseOffset_append (search_offsetPattern_base baseId baseType)] at hoffset
  simp only [append_assoc, cons_append] at hoffset
  rw [parseIndirect, hbaseReg, hindexReg, hoffset]
  by_cases hmin : offset = -2 ^ 31
  · have hlength : (printOffset offset).length = 14 := by rw [hmin, printOffset_min]; rfl
    have hfactor : (readFactor multiplier).length ≤ (printFactor multiplier).length := by
      unfold readFactor
      split <;> simp
    simp only [if_pos hmin, Option.bind_some]
    rw [if_neg (by simp [hlength]; omega), if_pos (.inl hmin)]
  · by_cases hsign : multiplier % 32 = 31
    · have hlength : (printFactor multiplier).length = 14 := by
        rw [printFactor_eq_of_sign hsign]
        rfl
      simp only [if_neg hmin, Option.bind_some, readFactor, if_pos hsign]
      rw [if_neg (by simp [hlength]; omega), if_pos (.inr hsign)]
    · simp only [if_neg hmin, Option.bind_some, readFactor, if_neg hsign]
      rw [if_pos (by simp; omega), if_neg (not_or.mpr ⟨hmin, hsign⟩)]

theorem printLinked_eq {id : Int} (hid : 0 ≤ id) :
    printLinked f id = regText id.toNat (Function.vregType f id) := by
  have habs : id.natAbs = id.toNat := by omega
  rw [printLinked, printInt, if_neg (by omega), habs]
  rfl

variable (target f) in
theorem parseIndirect_printIndirect {ind : MemoryIndirect} (hknown : ind.Known outputs)
    (hids : ∀ id ∈ outputs, 0 ≤ id ∧ id < 2 ^ 31) :
    parseIndirect target outputs (printIndirect (printAddressReg target f) ind) =
      ind.readBack := by
  obtain ⟨base, index, multiplier, offset⟩ := ind
  obtain ⟨⟨b, hb, hbase⟩, hindex, hlow, hhigh⟩ := hknown
  obtain rfl : base = some (.vreg b) := hbase
  obtain ⟨b, rfl⟩ := Int.eq_ofNat_of_zero_le (hids b hb).1
  cases index with
  | none =>
    have htoken : printIndirect (printAddressReg target f)
        ⟨some (.vreg b), none, multiplier, offset⟩ =
          '[' :: (regText b (Function.vregType f b) ++ (printOffset offset ++ [']'])) := by
      simp [printIndirect, printAddressReg, printLinked_eq, printIndex]
    rw [htoken, parseIndirect_base hlow hhigh (hids b hb).2 hb]
    simp [MemoryIndirect.readBack]
  | some reg =>
    obtain ⟨i, hi, rfl⟩ := hindex reg rfl
    obtain ⟨i, rfl⟩ := Int.eq_ofNat_of_zero_le (hids i hi).1
    have htoken : printIndirect (printAddressReg target f)
        ⟨some (.vreg b), some (.vreg i), multiplier, offset⟩ =
          '[' :: (regText b (Function.vregType f b) ++ (" + ".toList ++
            (regText i (Function.vregType f i) ++
              (printFactor multiplier ++ (printOffset offset ++ [']']))))) := by
      simp [printIndirect, printAddressReg, printLinked_eq, printIndex, printFactor]
    rw [htoken, parseIndirect_index hlow hhigh (hids b hb).2 hb (hids i hi).2 hi]
    by_cases hmin : offset = -2 ^ 31
    · simp only [MemoryIndirect.readBack, hmin, true_or, if_true]
    · simp only [MemoryIndirect.readBack, hmin, false_or, if_false, reduceCtorEq]

end Whole

end CinderX.Jit.Lir.Text
