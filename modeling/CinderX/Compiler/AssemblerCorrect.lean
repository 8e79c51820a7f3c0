import CinderX.Compiler.Assembler

/-!
# Assembled code is decoded as what was assembled

An instruction's units are as many as `instrsize` says and are decoded as the
instruction; where flattening stops, every jump's operand is the distance between its
end and its target.
-/

namespace CinderX.Compiler

open List Option

variable {Op : Type} {opcodes : Opcodes Op}

theorem extend_eq {oparg byte : Nat} (hoparg : oparg < 2 ^ 24) (hbyte : byte < 256) :
    extend oparg byte = oparg * 256 + byte := by
  unfold extend
  rw [Nat.shiftLeft_eq, Nat.mul_comm, ← Nat.two_pow_add_eq_or_of_lt hbyte,
    Nat.mod_eq_of_lt (by omega)]

theorem extendedCount_eq (oparg : Nat) :
    extendedCount oparg = if oparg ≥ 256 then extendedCount (oparg / 256) + 1 else 0 := by
  rw [extendedCount, Nat.shiftRight_eq_div_pow]

theorem extendedUnits_spec (opcodes : Opcodes Op) {oparg : Nat} (h : oparg < 2 ^ 32) :
    ∃ bytes : List Nat,
      extendedUnits opcodes oparg = bytes.map (opcodes.EXTENDED_ARG, ·) ∧
      bytes.length + 1 = opargSize oparg ∧ bytes.length = extendedCount oparg ∧
      extend (bytes.foldl extend 0) (oparg &&& 0xFF) = oparg := by
  have hbyte : ∀ i, oparg >>> i &&& 0xFF = oparg / 2 ^ i % 256 := by
    intro i
    rw [Nat.shiftRight_eq_div_pow]
    exact Nat.and_two_pow_sub_one_eq_mod _ 8
  have hlast : oparg &&& 0xFF = oparg % 256 := Nat.and_two_pow_sub_one_eq_mod _ 8
  unfold extendedUnits opargSize
  simp only [hbyte, hlast]
  by_cases h₁ : oparg ≤ 0xFF
  · refine ⟨[], ?_, ?_, ?_, ?_⟩
    · simp [show ¬oparg > 0xFFFFFF by omega, show ¬oparg > 0xFFFF by omega,
        show ¬oparg > 0xFF by omega]
    · rw [if_pos (by omega)]
      rfl
    · rw [extendedCount_eq, if_neg (by omega)]
      rfl
    · simp (disch := omega) only [foldl_nil, extend_eq]
      omega
  by_cases h₂ : oparg ≤ 0xFFFF
  · refine ⟨[oparg / 2 ^ 8 % 256], ?_, ?_, ?_, ?_⟩
    · simp [show ¬oparg > 0xFFFFFF by omega, show ¬oparg > 0xFFFF by omega,
        show oparg > 0xFF by omega]
    · rw [if_neg (by omega), if_pos (by omega)]
      rfl
    · rw [extendedCount_eq, if_pos (by omega), extendedCount_eq, if_neg (by omega)]
      rfl
    · simp (disch := omega) only [foldl_cons, foldl_nil, extend_eq]
      omega
  by_cases h₃ : oparg ≤ 0xFFFFFF
  · refine ⟨[oparg / 2 ^ 16 % 256, oparg / 2 ^ 8 % 256], ?_, ?_, ?_, ?_⟩
    · simp [show ¬oparg > 0xFFFFFF by omega, show oparg > 0xFFFF by omega,
        show oparg > 0xFF by omega]
    · rw [if_neg (by omega), if_neg (by omega), if_pos (by omega)]
      rfl
    · rw [extendedCount_eq, if_pos (by omega), extendedCount_eq, if_pos (by omega),
        extendedCount_eq, if_neg (by omega)]
      rfl
    · simp (disch := omega) only [foldl_cons, foldl_nil, extend_eq]
      omega
  · refine ⟨[oparg / 2 ^ 24 % 256, oparg / 2 ^ 16 % 256, oparg / 2 ^ 8 % 256], ?_, ?_, ?_, ?_⟩
    · simp [show oparg > 0xFFFFFF by omega, show oparg > 0xFFFF by omega,
        show oparg > 0xFF by omega]
    · rw [if_neg (by omega), if_neg (by omega), if_neg (by omega)]
      rfl
    · rw [extendedCount_eq, if_pos (by omega), extendedCount_eq, if_pos (by omega),
        extendedCount_eq, if_pos (by omega), extendedCount_eq, if_neg (by omega)]
      rfl
    · simp (disch := omega) only [foldl_cons, foldl_nil, extend_eq]
      omega

/-! ## Instructions -/

theorem decodeInst_extended (bytes : List Nat) (units : List (Nat × Nat)) :
    ∀ oparg, decodeInst opcodes oparg (bytes.map (opcodes.EXTENDED_ARG, ·) ++ units) =
      decodeInst opcodes (bytes.foldl extend oparg) units := by
  induction bytes with
  | nil => exact fun _ => rfl
  | cons byte bytes ih =>
    intro oparg
    simp only [map_cons, cons_append, decodeInst, if_true]
    exact ih (extend oparg byte)

theorem decodeExtended_extended (extOparg : Nat) (bytes : List Nat)
    (units : List (Nat × Nat)) :
    ∀ oparg, decodeExtended opcodes extOparg oparg
        (bytes.map (opcodes.EXTENDED_ARG, ·) ++ units) =
      decodeExtended opcodes extOparg (bytes.foldl extend oparg) units := by
  induction bytes with
  | nil => exact fun _ => rfl
  | cons byte bytes ih =>
    intro oparg
    simp only [map_cons, cons_append, decodeExtended, if_true]
    exact ih (extend oparg byte)

def Inst.decoded (opcodes : Opcodes Op) (inst : Inst Op) : Decoded :=
  ⟨opcodes.isStatic inst.opname, opcodes.opmap inst.opname, inst.ioparg.toNat,
    if opcodes.isStatic inst.opname then getExtOparg opcodes inst else 0⟩

variable {d : Decoded} {inst : Inst Op} {units : List (Nat × Nat)}

theorem skipCaches_caches {n : Nat} (h : opcodes.caches d.isStatic d.opcode = n)
    (units : List (Nat × Nat)) :
    skipCaches opcodes d (replicate n (0, 0) ++ units) = (d, units) := by
  unfold skipCaches
  rw [h, drop_left' (length_replicate ..)]

theorem Opcodes.opmap_ne_extendedArg {op : Op} (h : opcodes.isExtendedArg op = false) :
    opcodes.opmap op ≠ opcodes.EXTENDED_ARG := by
  intro heq
  rw [(opcodes.opmap_extendedArg op).mp heq] at h
  cases h

def ExtendedFits (opcodes : Opcodes Op) (insts : List (Inst Op)) : Prop :=
  ∀ inst ∈ insts, opcodes.isStatic inst.opname → getExtOparg opcodes inst < 2 ^ 32

theorem instUnits_spec (hfits : opcodes.isStatic inst.opname → getExtOparg opcodes inst < 2 ^ 32)
    (h : instUnits opcodes inst = some units) :
    units.length = instSize opcodes inst ∧ 0 ≤ inst.ioparg ∧
      (opcodes.isExtendedArg inst.opname = false →
        ∀ rest, decodeInst opcodes 0 (units ++ rest) = some (inst.decoded opcodes, rest)) := by
  obtain ⟨pre, hpre, h⟩ := bind_eq_some_iff.mp h
  split at h
  next hrange =>
    cases h
    have hoparg : inst.ioparg.toNat < 2 ^ 32 := by
      have hle := hrange.1.2
      omega
    have hcast : (inst.ioparg.toNat : Int) = inst.ioparg := Int.toNat_of_nonneg hrange.1.1
    obtain ⟨bytes, hunits, hlength, -, hvalue⟩ := extendedUnits_spec opcodes hoparg
    rw [hcast] at hlength
    have hcaches := opcodes.caches_opmap inst.opname
    unfold prefixUnits at hpre
    unfold instSize instrsize
    cases hstatic : opcodes.isStatic inst.opname with
    | false =>
      rw [hstatic] at hpre hcaches
      cases hpre
      refine ⟨?_, hrange.1.1, fun hplain rest => ?_⟩
      · simp [hunits]
        omega
      · simp only [nil_append, append_assoc, hunits, decodeInst_extended]
        simp only [cons_append, nil_append, decodeInst]
        rw [if_neg (opcodes.opmap_ne_extendedArg hplain),
          if_neg (opcodes.opmap_ne_extendedOpcode _ hstatic), hvalue, skipCaches_caches hcaches]
        simp [Inst.decoded, hstatic]
    | true =>
      rw [hstatic] at hpre hcaches
      obtain ⟨opcode, hopcode, hpre⟩ := map_eq_some_iff.mp hpre
      obtain rfl := hpre
      obtain ⟨bytes', hunits', -, hlength', hvalue'⟩ :=
        extendedUnits_spec opcodes (hfits hstatic)
      have hne : opcode ≠ opcodes.EXTENDED_ARG := by
        rintro rfl
        exact opcodes.extendedArg_ne hopcode.symm
      refine ⟨?_, hrange.1.1, fun hplain rest => ?_⟩
      · simp [hunits, hunits']
        omega
      · simp only [append_assoc, hunits, hunits', decodeInst_extended]
        simp only [cons_append, nil_append, decodeInst]
        rw [if_neg hne, if_pos hopcode.symm, hvalue', decodeExtended_extended]
        simp only [decodeExtended]
        rw [if_neg (opcodes.opmap_ne_extendedArg hplain), hvalue, skipCaches_caches hcaches]
        simp [Inst.decoded, hstatic]
  next => cases h

theorem instUnits_extendedArg
    (hextended : opcodes.isExtendedArg inst.opname) (hzero : inst.ioparg = 0)
    (h : instUnits opcodes inst = some units) : units = [(opcodes.EXTENDED_ARG, 0)] := by
  obtain ⟨hstatic, hcaches⟩ := opcodes.static_extendedArg _ hextended
  obtain ⟨pre, hpre, h⟩ := bind_eq_some_iff.mp h
  unfold prefixUnits at hpre
  rw [hstatic] at hpre
  cases hpre
  split at h
  next =>
    cases h
    rw [hcaches, hzero, (opcodes.opmap_extendedArg _).mpr hextended]
    rfl
  next => cases h

theorem opargSize_pos (oparg : Int) : 0 < opargSize oparg := by
  unfold opargSize
  split
  · decide
  split
  · decide
  split <;> decide

theorem instSize_pos (inst : Inst Op) : 0 < instSize opcodes inst := by
  have hpos := opargSize_pos inst.ioparg
  unfold instSize instrsize
  omega

/-- The `EXTENDED_ARG`s of the graph are 0 and stand before another instruction. -/
def PrefixesEmpty (opcodes : Opcodes Op) : List (Inst Op) → Prop
  | [] => True
  | inst :: insts =>
    (opcodes.isExtendedArg inst.opname → inst.ioparg = 0 ∧ insts ≠ []) ∧
      PrefixesEmpty opcodes insts

def decodedInsts (opcodes : Opcodes Op) (insts : List (Inst Op)) : List Decoded :=
  (insts.filter fun inst => !opcodes.isExtendedArg inst.opname).map (Inst.decoded opcodes)

theorem decodeUnits_of_decodeInst {units rest : List (Nat × Nat)}
    (h : decodeInst opcodes 0 units = some (d, rest)) :
    decodeUnits opcodes units = (decodeUnits opcodes rest).map (d :: ·) := by
  rw [decodeUnits, if_neg (by
    rintro rfl
    cases h)]
  split
  next hnone =>
    rw [h] at hnone
    cases hnone
  next hsome =>
    rw [h] at hsome
    cases hsome
    rfl

theorem decodeUnits_extendedArg (h : units ≠ []) :
    decodeUnits opcodes ((opcodes.EXTENDED_ARG, 0) :: units) = decodeUnits opcodes units := by
  have hsame : decodeInst opcodes 0 ((opcodes.EXTENDED_ARG, 0) :: units) =
      decodeInst opcodes 0 units := by
    simp only [decodeInst, if_true]
    rfl
  cases hinst : decodeInst opcodes 0 units with
  | some r => rw [decodeUnits_of_decodeInst hinst, decodeUnits_of_decodeInst (hsame.trans hinst)]
  | none =>
    have hfails : ∀ units, units ≠ [] → decodeInst opcodes 0 units = none →
        decodeUnits opcodes units = none := by
      intro units hne hnone
      rw [decodeUnits, if_neg hne]
      split
      next => rfl
      next hsome =>
        rw [hnone] at hsome
        cases hsome
    rw [hfails units h hinst, hfails _ (cons_ne_nil _ _) (hsame.trans hinst)]

theorem codeUnits_spec (insts : List (Inst Op)) :
    ExtendedFits opcodes insts → PrefixesEmpty opcodes insts →
    ∀ {units : List (Nat × Nat)}, codeUnits opcodes insts = some units →
      units.length = instsSize opcodes insts ∧ (∀ inst ∈ insts, 0 ≤ inst.ioparg) ∧
        decodeUnits opcodes units = some (decodedInsts opcodes insts) := by
  induction insts with
  | nil =>
    intro _ _ units h
    cases h
    exact ⟨rfl, nofun, by simp [decodeUnits, decodedInsts]⟩
  | cons inst insts ih =>
    intro hfits hempty units h
    obtain ⟨first, hfirst, h⟩ := bind_eq_some_iff.mp h
    obtain ⟨rest, hrest, h⟩ := bind_eq_some_iff.mp h
    cases h
    obtain ⟨hlength, hnonneg, hdecode⟩ := instUnits_spec (hfits inst mem_cons_self) hfirst
    obtain ⟨hlengths, hnonnegs, hdecodes⟩ :=
      ih (fun i hi => hfits i (mem_cons_of_mem _ hi)) hempty.2 hrest
    refine ⟨by simp [instsSize, hlength, hlengths],
      forall_mem_cons.mpr ⟨hnonneg, hnonnegs⟩, ?_⟩
    cases hextended : opcodes.isExtendedArg inst.opname with
    | false =>
      rw [decodeUnits_of_decodeInst (hdecode hextended rest), hdecodes]
      simp [decodedInsts, hextended]
    | true =>
      obtain ⟨hzero, hne⟩ := hempty.1 hextended
      have hrestNe : rest ≠ [] := by
        rintro rfl
        obtain ⟨inst', insts', rfl⟩ := exists_cons_of_ne_nil hne
        have hpos := @instSize_pos _ opcodes inst'
        simp only [instsSize, map_cons, sum_cons, length_nil] at hlengths
        omega
      rw [instUnits_extendedArg hextended hzero hfirst, cons_append, nil_append,
        decodeUnits_extendedArg hrestNe, hdecodes]
      simp [decodedInsts, hextended]

theorem codeUnits_append (insts insts' : List (Inst Op)) :
    ∀ {units : List (Nat × Nat)}, codeUnits opcodes (insts ++ insts') = some units →
      ∃ first rest, codeUnits opcodes insts = some first ∧
        codeUnits opcodes insts' = some rest ∧ units = first ++ rest := by
  induction insts with
  | nil => exact fun h => ⟨[], _, rfl, h, rfl⟩
  | cons inst insts ih =>
    intro units h
    obtain ⟨here, hhere, h⟩ := bind_eq_some_iff.mp h
    obtain ⟨later, hlater, h⟩ := bind_eq_some_iff.mp h
    cases h
    obtain ⟨first, rest, hfirst, hrest, rfl⟩ := ih hlater
    refine ⟨here ++ first, rest, ?_, hrest, (append_assoc ..).symm⟩
    simp [codeUnits, hhere, hfirst]

theorem PrefixesEmpty.drop {insts : List (Inst Op)} :
    ∀ (i : Nat), PrefixesEmpty opcodes insts → PrefixesEmpty opcodes (insts.drop i) := by
  induction insts with
  | nil =>
    intro i h
    rw [drop_nil]
    exact h
  | cons inst insts ih =>
    intro i h
    cases i with
    | zero => exact h
    | succ i => exact ih i h.2

theorem unitsOf_flatMap (units : List (Nat × Nat)) :
    unitsOf (units.flatMap fun u => [u.1, u.2]) = some units := by
  induction units with
  | nil => rfl
  | cons unit units ih =>
    simp only [flatMap_cons, cons_append, nil_append, unitsOf, ih]
    rfl

theorem makeByteCode_spec {g : List (Block Op)} {bytes : List Nat}
    (hfits : ExtendedFits opcodes (flatInsts g)) (hempty : PrefixesEmpty opcodes (flatInsts g))
    (h : makeByteCode opcodes g = some bytes) :
    bytes.length = 2 * instsSize opcodes (flatInsts g) ∧
      (∀ inst ∈ flatInsts g, 0 ≤ inst.ioparg) ∧
      ∀ i, decode opcodes (bytes.drop (2 * instsSize opcodes ((flatInsts g).take i))) =
        some (decodedInsts opcodes ((flatInsts g).drop i)) := by
  obtain ⟨units, hunits, rfl⟩ := map_eq_some_iff.mp h
  have hlengthBytes : ∀ units : List (Nat × Nat),
      (units.flatMap fun u => [u.1, u.2]).length = 2 * units.length := by
    intro units
    simp [length_flatMap, Nat.mul_comm]
  obtain ⟨hlength, hnonneg, -⟩ := codeUnits_spec (flatInsts g) hfits hempty hunits
  refine ⟨by rw [hlengthBytes, hlength], hnonneg, fun i => ?_⟩
  have hsizes : instsSize opcodes ((flatInsts g).take i) +
      instsSize opcodes ((flatInsts g).drop i) = instsSize opcodes (flatInsts g) := by
    rw [instsSize, instsSize, ← sum_append, ← map_append, take_append_drop]
    rfl
  rw [← take_append_drop i (flatInsts g)] at hunits
  obtain ⟨first, rest, -, hrest, rfl⟩ := codeUnits_append _ _ hunits
  obtain ⟨hrestLength, -, hdecode⟩ := codeUnits_spec _
    (fun inst hinst => hfits inst (mem_of_mem_drop hinst)) (hempty.drop i) hrest
  have hfirstLength : first.length = instsSize opcodes ((flatInsts g).take i) := by
    rw [length_append] at hlength
    omega
  unfold decode
  rw [flatMap_append, drop_left' (by rw [hlengthBytes, hfirstLength]),
    unitsOf_flatMap, bind_some, hdecode]

end CinderX.Compiler
