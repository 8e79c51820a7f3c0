import CinderX.Jit.Lir.InstructionRun

/-!
# Headers of blocks are parsed back

The parts of a header are found by searches that go past the other parts.
-/

namespace CinderX.Jit.Lir.Text

open CinderX.Foundation Regex List

section Parts

variable {f : Function} {s : List Char} {blocks : List Int}

theorem mem_printIds (hids : ∀ id ∈ blocks, 0 ≤ id) :
    ∀ c ∈ blocks.flatMap fun id => " %".toList ++ printInt id,
      c = ' ' ∨ c = '%' ∨ isDigit c = true := by
  have hword : ∀ c ∈ " %".toList, c = ' ' ∨ c = '%' ∨ isDigit c = true :=
    forall_mem_of_all (by decide)
  intro c hc
  obtain ⟨id, hid, hc⟩ := mem_flatMap.mp hc
  rcases mem_append.mp hc with hc | hc
  · exact hword c hc
  · rw [printInt, if_neg (by have := hids id hid; omega)] at hc
    exact .inr (.inr (isDigit_of_mem_decimal c hc))

theorem search_printBlocks {r : Regex} {which : String} (start rest : List Char)
    (hids : ∀ id ∈ blocks, 0 ≤ id) (hother : ∀ c, c ≠ '-' → r.refutes [c] = true)
    (hwhich : which.toList = ' ' :: '-' :: (start ++ rest))
    (hstart : r.refutes ('-' :: start) = true) (hrest : ∀ c ∈ start ++ rest, c ≠ '-') :
    r.search (printBlocks which blocks ++ s) = r.search s := by
  unfold printBlocks
  split
  · rfl
  · have hskip : ∀ c ∈ start ++ rest ++ blocks.flatMap fun id => " %".toList ++ printInt id,
        r.refutes [c] = true := by
      intro c hc
      refine hother c ?_
      rcases mem_append.mp hc with hc | hc
      · exact hrest c hc
      · rcases mem_printIds hids c hc with rfl | rfl | hdigit
        · decide
        · decide
        · rintro rfl
          exact absurd hdigit (by decide)
    have hblank := search_append (r := r) (w := [' ']) (by simpa using hother ' ' (by decide))
      ('-' :: (start ++ rest ++ (blocks.flatMap fun id => " %".toList ++ printInt id) ++ s))
    have hdash : r.matchPrefix
        ('-' :: (start ++ rest ++ (blocks.flatMap fun id => " %".toList ++ printInt id) ++ s)) =
          none := by
      have hrefuted := matchPrefix_of_refutes hstart
        (rest ++ (blocks.flatMap fun id => " %".toList ++ printInt id) ++ s)
      simpa using hrefuted
    have hdone := search_append hskip s
    rw [hwhich]
    exact hblank.trans ((search_cons hdash).trans hdone)

end Parts

def printSection (codeSection : CodeSection) : List Char :=
  if codeSection = .kHot then [] else " - section: ".toList ++ codeSectionName codeSection

structure HeaderKnown (f : Function) (block : BasicBlock) : Prop where
  id : 0 ≤ block.id ∧ block.id < 2 ^ 31
  successors : ∀ id ∈ block.successors, 0 ≤ id ∧ id < 2 ^ 31
  two : block.successors.length ≤ 2
  predecessors : ∀ id ∈ Function.predecessors f block.id, 0 ≤ id

section Header

variable {f : Function} {block : BasicBlock} (h : HeaderKnown f block)

def printHeaderTail (f : Function) (block : BasicBlock) : List Char :=
  printBlocks " - preds:" (Function.predecessors f block.id) ++
    (printBlocks " - succs:" block.successors ++ printSection block.codeSection)

theorem printHeader_eq (f : Function) (block : BasicBlock) (s : List Char) :
    printHeader f block ++ s =
      "BB %".toList ++ (printInt block.id ++ (printHeaderTail f block ++ ('\n' :: s))) := by
  unfold printHeader printHeaderTail printSection
  generalize (if block.codeSection = .kHot then ([] : List Char) else _) = part
  simp only [append_assoc, cons_append, nil_append]

theorem headerTail_append {w t : List Char} (hw : HeaderTail w) (ht : HeaderTail t) :
    HeaderTail (w ++ t) := by
  rcases hw with rfl | ⟨rest, rfl, hrest⟩
  · exact ht
  · refine .inr ⟨rest ++ t, by simp, ?_⟩
    intro c hc
    rcases mem_append.mp hc with hc | hc
    · exact hrest c hc
    · rcases ht with rfl | ⟨rest', rfl, hrest'⟩
      · cases hc
      · rcases mem_append.mp hc with hc | hc
        · have hword : ∀ c ∈ " - ".toList, anyChar c = true := forall_mem_of_all (by decide)
          exact hword c hc
        · exact hrest' c hc

theorem headerTail_printBlocks {which : String} (word : List Char) {blocks : List Int}
    (hids : ∀ id ∈ blocks, 0 ≤ id) (hwhich : which.toList = " - ".toList ++ word)
    (hword : ∀ c ∈ word, anyChar c = true) : HeaderTail (printBlocks which blocks) := by
  unfold printBlocks
  split
  · exact .inl rfl
  · refine .inr ⟨word ++ blocks.flatMap fun id => " %".toList ++ printInt id, ?_, ?_⟩
    · rw [hwhich, append_assoc]
    · intro c hc
      rcases mem_append.mp hc with hc | hc
      · exact hword c hc
      · rcases mem_printIds hids c hc with rfl | rfl | hdigit
        · decide
        · decide
        · have hline : c ≠ '\n' ∧ c ≠ '\r' :=
            ⟨by rintro rfl; exact absurd hdigit (by decide),
              by rintro rfl; exact absurd hdigit (by decide)⟩
          simp [anyChar, hline]

theorem headerTail_printSection (codeSection : CodeSection) :
    HeaderTail (printSection codeSection) := by
  cases codeSection with
  | kHot => exact .inl rfl
  | kCold => exact .inr ⟨"section: .coldtext".toList, by decide, forall_mem_of_all (by decide)⟩

include h in
theorem headerTail_printHeaderTail : HeaderTail (printHeaderTail f block) := by
  refine headerTail_append ?_ (headerTail_append ?_ (headerTail_printSection _))
  · exact headerTail_printBlocks "preds:".toList h.predecessors rfl
      (forall_mem_of_all (by decide))
  · exact headerTail_printBlocks "succs:".toList
      (fun id hid => (h.successors id hid).1) rfl (forall_mem_of_all (by decide))

theorem search_headerStart {r : Regex} (hother : ∀ c, c ≠ '-' → r.refutes [c] = true)
    (n : Nat) (s : List Char) :
    r.search ("BB %".toList ++ (decimal n ++ s)) = r.search s := by
  have hword : ∀ c ∈ "BB %".toList, c ≠ '-' := forall_mem_of_all (by decide)
  rw [search_append fun c hc => hother c (hword c hc)]
  refine search_append (fun c hc => hother c ?_) s
  rintro rfl
  exact absurd (isDigit_of_mem_decimal '-' hc) (by decide)

include h in
theorem setSection_printHeader :
    setSection (printHeader f block) = some block.codeSection := by
  have hother : ∀ c, c ≠ '-' → sectionPattern.refutes [c] = true := fun c hc => refutes_lit hc
  obtain ⟨n, hn⟩ := Int.eq_ofNat_of_zero_le h.id.1
  have hint : printInt block.id = decimal n := by rw [hn, printInt_natCast]
  have hsearch : sectionPattern.search (printHeader f block) =
      sectionPattern.search (printSection block.codeSection ++ ['\n']) := by
    have htext := printHeader_eq f block []
    rw [append_nil, hint] at htext
    rw [htext, search_headerStart hother, printHeaderTail, append_assoc,
      search_printBlocks " p".toList "reds:".toList h.predecessors hother
        rfl rfl (forall_mem_of_all (by decide)),
      append_assoc,
      search_printBlocks " su".toList "ccs:".toList
        (fun id hid => (h.successors id hid).1) hother rfl rfl (forall_mem_of_all (by decide))]
  unfold setSection
  rw [hsearch]
  cases block.codeSection <;> decide

theorem succPattern_other : ∀ c, c ≠ '-' → succPattern.refutes [c] = true :=
  fun _ hc => refutes_lit hc

theorem search_printSection (codeSection : CodeSection) :
    succPattern.search (printSection codeSection ++ ['\n']) = none := by
  cases codeSection <;> decide

theorem printSection_head (codeSection : CodeSection) :
    (lit " %".toList (group 2 (plus isDigit))).matchPrefix (printSection codeSection ++ ['\n']) =
        none ∧
      ∀ c ∈ (printSection codeSection ++ ['\n']).head?, isDigit c = false := by
  constructor
  · cases codeSection <;> decide
  · cases codeSection <;> simp [printSection] <;> decide

theorem atoll_decimal {n : Nat} (hn : (n : Int) < 2 ^ 31) : toInt (atoll (decimal n)) = n := by
  have hread : readDigits 10 (decimal n) = n := readDigits_toDigits (by decide) (by decide) n
  have hatoll : atoll (decimal n) = n := by
    unfold atoll
    rw [takeWhile_eq_self_iff.mpr isDigit_of_mem_decimal, hread]
    omega
  rw [hatoll, toInt_eq (by omega) hn]

theorem matchPrefix_number (index n : Nat) {s : List Char}
    (hs : ∀ c ∈ s.head?, isDigit c = false) :
    (group index (plus isDigit)).matchPrefix (decimal n ++ s) =
      some ⟨decimal n, [(index, decimal n)], s⟩ :=
  matchPrefix_group_of _ (matchPrefix_plus (decimal_ne_nil n) isDigit_of_mem_decimal hs)

theorem search_succPattern_blank (s : List Char) :
    succPattern.search (' ' :: s) = succPattern.search s :=
  search_append (w := [' ']) (by simpa using succPattern_other ' ' (by decide)) s

theorem search_oneSuccessor (n : Nat) (codeSection : CodeSection) :
    succPattern.search
        (printBlocks " - succs:" [(n : Int)] ++ (printSection codeSection ++ ['\n'])) =
      some ⟨"- succs: %".toList ++ decimal n, [(1, decimal n)],
        printSection codeSection ++ ['\n']⟩ := by
  obtain ⟨hnone, hhead⟩ := printSection_head codeSection
  have htext : printBlocks " - succs:" [(n : Int)] ++ (printSection codeSection ++ ['\n']) =
      ' ' :: ("- succs: %".toList ++ (decimal n ++ (printSection codeSection ++ ['\n']))) := by
    simp [printBlocks]
  have hmatch := matchPrefix_lit_of "- succs: %".toList
    (matchPrefix_seq_of (matchPrefix_number 1 n hhead) (matchPrefix_opt_none hnone))
  rw [append_nil, append_nil] at hmatch
  rw [htext, search_succPattern_blank]
  exact search_of_matchPrefix hmatch

theorem search_twoSuccessors (n n' : Nat) (codeSection : CodeSection) :
    succPattern.search
        (printBlocks " - succs:" [(n : Int), (n' : Int)] ++
          (printSection codeSection ++ ['\n'])) =
      some ⟨"- succs: %".toList ++ (decimal n ++ (" %".toList ++ decimal n')),
        [(1, decimal n), (2, decimal n')], printSection codeSection ++ ['\n']⟩ := by
  obtain ⟨-, hhead⟩ := printSection_head codeSection
  have htext : printBlocks " - succs:" [(n : Int), (n' : Int)] ++
      (printSection codeSection ++ ['\n']) =
        ' ' :: ("- succs: %".toList ++ (decimal n ++ (" %".toList ++
          (decimal n' ++ (printSection codeSection ++ ['\n']))))) := by
    simp [printBlocks]
  have hsecond := matchPrefix_alt_left (t := empty)
    (matchPrefix_lit_of " %".toList (matchPrefix_number 2 n' hhead))
  have hfirst := matchPrefix_number 1 n
    (s := " %".toList ++ (decimal n' ++ (printSection codeSection ++ ['\n']))) (by simp; decide)
  have hmatch := matchPrefix_lit_of "- succs: %".toList
    (matchPrefix_seq_of hfirst hsecond)
  rw [htext, search_succPattern_blank]
  exact search_of_matchPrefix hmatch

theorem setSuccessorBlocks_of_search {text : List Char} (codeSection : CodeSection)
    {blocks : List Int} (hids : ∀ id ∈ blocks, 0 ≤ id ∧ id < 2 ^ 31) (htwo : blocks.length ≤ 2)
    (hsearch : succPattern.search text = succPattern.search
      (printBlocks " - succs:" blocks ++ (printSection codeSection ++ ['\n']))) :
    setSuccessorBlocks text = blocks := by
  unfold setSuccessorBlocks
  rw [hsearch]
  cases blocks with
  | nil => rw [printBlocks, if_pos rfl, nil_append, search_printSection]
  | cons id blocks =>
    have hid := hids id (by simp)
    obtain ⟨n, rfl⟩ := Int.eq_ofNat_of_zero_le hid.1
    cases blocks with
    | nil =>
      rw [search_oneSuccessor]
      simp [Match.group, atoll_decimal hid.2]
    | cons id' blocks =>
      have hid' := hids id' (by simp)
      obtain ⟨n', rfl⟩ := Int.eq_ofNat_of_zero_le hid'.1
      obtain rfl : blocks = [] := by
        simp only [length_cons] at htwo
        exact length_eq_zero_iff.mp (by omega)
      rw [search_twoSuccessors]
      simp [Match.group, atoll_decimal hid.2, atoll_decimal hid'.2, decimal_ne_nil]

include h in
theorem setSuccessorBlocks_printHeader :
    setSuccessorBlocks (printHeader f block) = block.successors := by
  obtain ⟨n, hn⟩ := Int.eq_ofNat_of_zero_le h.id.1
  have hint : printInt block.id = decimal n := by rw [hn, printInt_natCast]
  refine setSuccessorBlocks_of_search block.codeSection h.successors h.two ?_
  have htext := printHeader_eq f block []
  rw [append_nil, hint] at htext
  rw [htext, search_headerStart succPattern_other, printHeaderTail, append_assoc,
    search_printBlocks " p".toList "reds:".toList h.predecessors
      succPattern_other rfl rfl (forall_mem_of_all (by decide)), append_assoc]

end Header

end CinderX.Jit.Lir.Text
