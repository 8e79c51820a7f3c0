import CinderX.Jit.Lir.ParserRun

/-!
# Operands are parsed back

What the parser makes of a printed operand, as an output and as an input.
-/

namespace CinderX.Jit.Lir.Text

open CinderX.Foundation Regex List

/-- What is read where the name of a register stands. -/
def readName (t : Target) (isInput : Bool) (name : List Char) : Option Value :=
  if nameType t.arch name = some .kPhyReg then (parseReg t.arch name).map .phyReg
  else if isInput then (t.pyFunctionFromName name).map .imm
  else none

def Value.readBack (t : Target) (isInput : Bool) (dataType : DataType) : Value → Option Value
  | .stack loc =>
    if loc < 0 then some (.stack loc)
    else (regName t.arch loc.toNat (bitSize dataType)).bind (readName t isInput)
  | .mem address =>
    if address = 0 then none
    else some (.mem (BitVec.ofInt 64 (min (2 ^ 63 - 1) address.toNat)))
  | .ind indirect => indirect.readBack.map .ind
  | v => some v

/-- A value whose text is not the name of a register. -/
def Value.Bracketed : Value → Prop
  | .stack loc => loc < 0
  | _ => True

def Value.Known (outputs : List Int) : Value → Prop
  | .phyReg _ => False
  | .stack loc => -2 ^ 31 ≤ loc ∧ loc < 2 ^ 31
  | .ind indirect => indirect.Known outputs
  | .mem _ | .imm _ => True

def isValueToken : TokenType → Bool
  | .kStack | .kAddress | .kImmediate | .kIndirect => true
  | _ => false

section Values

variable {t : Target} {f : Function} {outputs : List Int} {p : Parser} {s : List Char}

theorem not_bracket_of_isRegChar {c : Char} (h : isRegChar c = true) : c ≠ ']' := by
  rintro rfl
  exact absurd h (by decide)

variable {n : Int}

theorem not_bracket_printInt : ∀ c ∈ printInt n, c ≠ ']' := by
  intro c hc
  unfold printInt at hc
  have hdigit : ∀ c ∈ decimal n.natAbs, c ≠ ']' := fun c hc =>
    not_bracket_of_isRegChar (isRegChar_of_isDigit (isDigit_of_mem_decimal c hc))
  split at hc
  · rcases mem_cons.mp hc with rfl | hc
    · decide
    · exact hdigit c hc
  · exact hdigit c hc

theorem not_bracket_printHex : ∀ c ∈ printHex n, c ≠ ']' := by
  intro c hc
  have hdigit : ∀ c ∈ hexadecimal n.natAbs, c ≠ ']' := by
    rintro c hc rfl
    exact absurd (isHexDigit_of_mem_hexadecimal _ hc) (by decide)
  unfold printHex at hc
  split at hc
  · simp only [mem_cons] at hc
    rcases hc with rfl | rfl | rfl | hc
    · decide
    · decide
    · decide
    · exact hdigit c hc
  · simp only [mem_cons] at hc
    rcases hc with rfl | rfl | hc
    · decide
    · decide
    · exact hdigit c hc

theorem not_bracket_printLinked {id : Int} (hid : 0 ≤ id) :
    ∀ c ∈ printLinked f id, c ≠ ']' := by
  rw [printLinked_eq hid]
  exact fun c hc => not_bracket_of_isRegChar (isRegChar_of_mem_regText c hc)

theorem not_bracket_append {w t : List Char} (hw : ∀ c ∈ w, c ≠ ']') (ht : ∀ c ∈ t, c ≠ ']') :
    ∀ c ∈ w ++ t, c ≠ ']' :=
  fun c hc => (mem_append.mp hc).elim (hw c) (ht c)

theorem printIndirect_inner {ind : MemoryIndirect} (hknown : ind.Known outputs)
    (hids : ∀ id ∈ outputs, 0 ≤ id ∧ id < 2 ^ 31) :
    ∃ inner, printIndirect (printAddressReg t f) ind = "[%".toList ++ (inner ++ [']']) ∧
      ∀ c ∈ inner, c ≠ ']' := by
  obtain ⟨base, hbaseMem, hbase⟩ := hknown.base
  have hreg := not_bracket_printLinked (f := f) (hids base hbaseMem).1
  have hindex : ∀ c ∈ printIndex (printAddressReg t f) ind, c ≠ ']' := by
    unfold printIndex
    split
    next => simp
    next reg hreg =>
      obtain ⟨id, hid, rfl⟩ := hknown.index reg hreg
      refine not_bracket_append
        (not_bracket_append (forall_mem_of_all (by decide))
          (not_bracket_printLinked (hids id hid).1)) ?_
      split
      · exact not_bracket_append (forall_mem_of_all (by decide)) not_bracket_printInt
      · simp
  have hoffset : ∀ c ∈ printOffset ind.offset, c ≠ ']' := by
    unfold printOffset
    split
    · simp
    · split
      · exact not_bracket_append (forall_mem_of_all (by decide)) not_bracket_printHex
      · exact not_bracket_append (forall_mem_of_all (by decide)) not_bracket_printHex
  refine ⟨printInt base ++ printType (Function.vregType f base) ++
    (printIndex (printAddressReg t f) ind ++ printOffset ind.offset), ?_, ?_⟩
  · simp [printIndirect, hbase, printAddressReg, printLinked]
  · refine not_bracket_append (fun c hc => hreg c ?_) (not_bracket_append hindex hoffset)
    exact mem_cons_of_mem _ hc

end Values

namespace Parser

section Values

variable {t : Target} {f : Function} {outputs : List Int} {p : Parser} {s : List Char}

theorem parseIndirect_null (t : Target)
    (outputs : List Int) : parseIndirect t outputs "[0]".toList = none := by
  have hbase : baseReg.search "[0]".toList = none := by decide
  have hphys : basePhys.search "[0]".toList = none := by decide
  simp only [parseIndirect, parseBase, hbase, hphys]
  rfl

structure ValueToken (t : Target) (outputs : List Int) (v : Value) (text : List Char)
    (s : List Char) (type : TokenType) (data : Int) : Prop where
  head : ∀ c ∈ text.head?, c ≠ ' ' ∧ c ≠ '\t'
  token : getNextToken t.arch (text ++ s) = ⟨type, text.length, data⟩
  isValue : isValueToken type = true
  parse : ∀ p : Parser, p.outputs = outputs → ∃ dataType, ∀ isInput printed,
    parseValue t ⟨type, text.length, data⟩ text p =
      (v.readBack t isInput printed).map fun v' => (v', dataType)

variable {v : Value} {text : List Char}

theorem exists_valueToken (hknown : v.Known outputs) (hbracketed : v.Bracketed)
    (hids : ∀ id ∈ outputs, 0 ≤ id ∧ id < 2 ^ 31) (dataType : DataType) (s : List Char) :
    ∃ type data, ValueToken t outputs v
      (printValue t (printAddressReg t f) v dataType) s type data := by
  cases v with
  | phyReg loc => exact absurd hknown id
  | stack loc =>
    obtain ⟨hlow, hhigh⟩ := hknown
    have htoken := token_stack t.arch loc (by omega) (by omega) s
    have hint : toInt loc = loc := toInt_eq hlow hhigh
    have hneg : loc < 0 := hbracketed
    have htext : printValue t (printAddressReg t f) (.stack loc) dataType =
        '[' :: (frameReg t.arch ++ '(' :: (printInt loc ++ ")]".toList)) := by
      simp [printValue, printLoc, locText, hneg]
    rw [htext]
    refine ⟨.kStack, loc, by simp, ?_, rfl, fun p _ => ⟨.kObject, fun isInput printed => ?_⟩⟩
    · simpa using htoken
    · simp [parseValue, hint, Value.readBack, hneg]
  | mem address =>
    rcases eq_or_ne address 0 with rfl | hne
    · refine ⟨.kIndirect, 0, by simp [printValue], token_null s, rfl,
        fun p hp => ⟨.kObject, fun isInput printed => ?_⟩⟩
      have hnone := parseIndirect_null t p.outputs
      simp only [parseValue, Value.readBack, if_true, Option.map_none]
      exact Option.map_eq_none_iff.mpr hnone
    · have htoken := token_address t.arch address.toNat s
      have htext : printValue t (printAddressReg t f) (.mem address) dataType =
          '[' :: ("0x".toList ++ (hexadecimal address.toNat ++ [']'])) := by
        rw [printValue, printAddress, if_neg hne]
        rfl
      have hread : ∀ isInput printed, Value.readBack t isInput printed (.mem address) =
          some (.mem (BitVec.ofInt 64 (min (2 ^ 63 - 1) address.toNat))) :=
        fun _ _ => if_neg hne
      rw [htext]
      refine ⟨.kAddress, min (2 ^ 63 - 1) address.toNat, by simp, ?_, rfl,
        fun p _ => ⟨.kObject, fun isInput printed => by rw [hread]; rfl⟩⟩
      simpa using htoken
  | ind indirect =>
    obtain ⟨inner, htext, hinner⟩ := printIndirect_inner (t := t) (f := f) hknown hids
    have htoken := token_indirect t.arch hinner s
    refine ⟨.kIndirect, 0, by simp [printValue, htext], ?_, rfl,
      fun p hp => ⟨.kObject, fun isInput printed => ?_⟩⟩
    · simpa [printValue, htext] using htoken
    · have hparse := parseIndirect_printIndirect t f hknown hids
      simp only [parseValue, printValue, hp, hparse, Value.readBack, Option.map_map]
      rfl
  | imm constant =>
    have htoken := token_immediate t.arch constant s
    refine ⟨.kImmediate, constant.toInt, ?_, ?_, rfl,
      fun p _ => ⟨.k64bit, fun isInput printed => ?_⟩⟩
    · cases hdigits : decimal constant.toNat with
      | nil => exact absurd hdigits (decimal_ne_nil _)
      | cons c cs =>
        have hc : isDigit c = true :=
          isDigit_of_mem_decimal (n := constant.toNat) c (by simp [hdigits])
        simp only [printValue, hdigits, cons_append, head?_cons, Option.mem_some_iff]
        rintro d rfl
        exact ⟨by rintro rfl; exact absurd hc (by decide),
          by rintro rfl; exact absurd hc (by decide)⟩
    · simpa [printValue] using htoken
    · simp [parseValue, Value.readBack]

theorem ValueToken.run {type : TokenType} {data : Int}
    (h : ValueToken t outputs v text s type data) :
    run t p (text ++ s) =
      (step t ⟨type, text.length, data⟩ text p).bind fun p => run t p s := by
  cases text with
  | nil =>
    have herror : (getNextToken t.arch s).type ≠ .kError := by
      have htoken := h.token
      rw [nil_append] at htoken
      rw [htoken]
      rintro rfl
      exact absurd h.isValue (by decide)
    have hpos := getNextToken_length herror
    have htoken := h.token
    rw [nil_append] at htoken
    rw [htoken] at hpos
    exact absurd hpos (by simp)
  | cons c text => exact run_token text (h.head c rfl) h.token

theorem parseInput_of_isValueToken {token : Token} (h : isValueToken token.type = true) :
    parseInput t token text p =
      (parseValue t token text p).map fun (v, dataType) =>
        p.addInput (.value v dataType) := by
  unfold parseInput
  split <;> simp_all [isValueToken]

end Values

theorem getOperandDataType_printType (dataType : DataType) :
    getOperandDataType (printType dataType) = some dataType := by
  cases dataType <;> decide

section Types

variable {t : Target} {p : Parser} {s : List Char}

theorem run_dataType (dataType : DataType) (hs : Boundary s) :
    run t p (printType dataType ++ s) =
      (step t ⟨.kDataType, (printType dataType).length, 0⟩ (printType dataType) p).bind fun p =>
        run t p s :=
  run_token (c := ':') (dataTypeName dataType) (by decide) (token_dataType dataType hs)

theorem run_outputType (h : p.state = .instrOutputType) (dataType : DataType)
    (hs : Boundary s) :
    run t p (printType dataType ++ s) =
      run t ((p.modifyInstr fun instr =>
        { instr with output := setOutputType dataType instr.output }).enter .instrEqual) s := by
  have htype := getOperandDataType_printType dataType
  simp [run_dataType dataType hs, step, h, stepInstrOutputType, htype]

inductive InputContext : ParseState → ParseState → ParseState → Prop
  | operand : InputContext .instrInput .instrInputType .instrInputComma
  | phi : InputContext .phiInputSecond .phiInputSecondType .phiInputPar

variable {first second third : ParseState} (hcontext : InputContext first second third)

include hcontext in
theorem run_inputType (dataType : DataType) (hs : Boundary s) (h : p.state = second)
    {instr : Instruction} (hinstr : p.instr = some instr) (hne : instr.inputs ≠ []) :
    run t p (printType dataType ++ s) =
      run t ((p.modifyInstr fun instr =>
        { instr with inputs := setLastType instr.inputs dataType }).enter third) s := by
  have htype := getOperandDataType_printType dataType
  rw [run_dataType dataType hs]
  cases hcontext with
  | operand => simp [step, h, stepInstrInputType, stepInputType, htype, hinstr, hne]
  | phi => simp [step, h, stepInputType, htype, hinstr, hne]

include hcontext in
theorem step_input (h : p.state = first) {type : TokenType} {length : Nat} {data : Int}
    (text : List Char) (htype : type ≠ .kComment ∧ type ≠ .kNewLine ∧ type ≠ .kParLeft) :
    step t ⟨type, length, data⟩ text p =
      (parseInput t ⟨type, length, data⟩ text p).map (enter · second) := by
  cases hcontext <;> simp [step, stepInstrInput, h, htype]

theorem step_output (h : p.state = .instrOutput) {type : TokenType} {length : Nat} {data : Int}
    (text : List Char) (htype : type ≠ .kComment ∧ type ≠ .kNewLine ∧ type ≠ .kBasicBlockStart) :
    step t ⟨type, length, data⟩ text p = stepInstrOutput t ⟨type, length, data⟩ text p := by
  simp [step, h, htype]

end Types

end Parser

def Operand.Known (outputs : List Int) : Operand → Prop
  | .vreg id => 0 ≤ id ∧ id < 2 ^ 31
  | .label block => 0 ≤ block ∧ block < 2 ^ 31
  | .value v _ => v.Known outputs

def Operand.readBack (t : Target) : Operand → Option Operand
  | .value v dataType => (v.readBack t true dataType).map (.value · dataType)
  | operand => some operand

namespace Parser

section Inputs

variable {t : Target} {f : Function} {p : Parser} {s : List Char}
  {first second third : ParseState} (hcontext : InputContext first second third)

def afterInput (second third : ParseState) : Operand → ParseState
  | .label _ => second
  | _ => third

theorem setLastType_addInput (input : Operand) (dataType : DataType) :
    (((p.addInput input).enter second).modifyInstr fun instr =>
        { instr with inputs := setLastType instr.inputs dataType }).enter third =
      (p.addInput (setType dataType input)).enter third := by
  cases hinstr : p.instr <;>
    simp [addInput, modifyInstr, enter, hinstr, setLastType]

theorem boundary_type (dataType : DataType) (s : List Char) :
    Boundary (printType dataType ++ s) := by
  simp only [Boundary, printType, cons_append, head?_cons, Option.mem_some_iff]
  rintro c rfl
  decide

variable {instr : Instruction}

include hcontext in
theorem run_inputType_addInput (input : Operand) (dataType : DataType) (hs : Boundary s)
    (hinstr : p.instr = some instr) :
    run t ((p.addInput input).enter second) (printType dataType ++ s) =
      run t ((p.addInput (setType dataType input)).enter third) s := by
  have hadded : ((p.addInput input).enter second).instr =
      some { instr with inputs := instr.inputs ++ [input] } := by
    simp [addInput, modifyInstr, enter, hinstr]
  rw [run_inputType hcontext dataType hs rfl hadded (by simp), setLastType_addInput]

/-- The token of a stack slot that is printed as a register, and of one that is not printed. -/
theorem slotToken {loc : Int} (hloc : 0 ≤ loc) (dataType : DataType) (s : List Char) :
    (regName t.arch loc.toNat (bitSize dataType) = none ∧
        printLoc t.arch loc dataType = []) ∨
      ∃ name type, regName t.arch loc.toNat (bitSize dataType) = some name ∧
        printLoc t.arch loc dataType = name ∧ nameType t.arch name = some type ∧
        (∀ p, run t p (name ++ (printType dataType ++ s)) =
          (step t ⟨type, name.length, 0⟩ name p).bind fun p =>
            run t p (printType dataType ++ s)) ∧
        (type = .kPhyReg ∧ parseReg t.arch name = some loc ∨
          type = .kId ∧ getInstrOpcode name = none) := by
  have htext : locText t.arch loc dataType = regName t.arch loc.toNat (bitSize dataType) :=
    if_neg (by omega)
  cases hname : regName t.arch loc.toNat (bitSize dataType) with
  | none => exact .inl ⟨rfl, by rw [printLoc, htext, hname]; rfl⟩
  | some name =>
    obtain ⟨type, htype, htoken, hread⟩ := token_regName hname (dataTypeName dataType ++ s)
    refine .inr ⟨name, type, rfl, by rw [printLoc, htext, hname]; rfl, htype, fun p => ?_, ?_⟩
    · cases name with
      | nil => exact absurd (regName_reads hname) (by simp [nameReads, isName])
      | cons c name =>
        have hc : isIdStart c = true := by
          have hreads := regName_reads hname
          simp only [nameReads, isName, Bool.and_eq_true] at hreads
          exact hreads.1.1
        refine run_token name ⟨?_, ?_⟩ htoken
        · rintro rfl
          exact absurd hc (by decide)
        · rintro rfl
          exact absurd hc (by decide)
    · rwa [Int.toNat_of_nonneg hloc] at hread

theorem slot_or_bracketed (v : Value) : (∃ loc, v = .stack loc ∧ 0 ≤ loc) ∨ v.Bracketed := by
  cases v with
  | stack loc =>
    rcases Int.lt_or_le loc 0 with hneg | hpos
    · exact .inr hneg
    · exact .inl ⟨loc, rfl, hpos⟩
  | _ => exact .inr trivial

theorem readBack_slot {loc : Int} (hloc : 0 ≤ loc) (isInput : Bool) (dataType : DataType) :
    Value.readBack t isInput dataType (.stack loc) =
      (regName t.arch loc.toNat (bitSize dataType)).bind (readName t isInput) :=
  if_neg (by omega)

/-- The type of an operand is not a value. -/
theorem run_unnamed {dataType : DataType} {s : List Char}
    (hstep : step t ⟨.kDataType, (printType dataType).length, 0⟩ (printType dataType) p = none)
    (hs : Boundary s) : run t p (printType dataType ++ s) = none := by
  rw [run_dataType dataType hs, hstep, Option.bind_none]

include hcontext in
theorem run_valueInput {v : Value} (h : p.state = first) (hknown : v.Known p.outputs)
    (hids : ∀ id ∈ p.outputs, 0 ≤ id ∧ id < 2 ^ 31) (dataType : DataType) (hs : Boundary s) :
    ∃ parsed, run t p (printValue t (printAddressReg t f) v dataType ++
        (printType dataType ++ s)) =
      (v.readBack t true dataType).bind fun v' =>
        run t ((p.addInput (.value v' parsed)).enter second) (printType dataType ++ s) := by
  rcases slot_or_bracketed v with ⟨loc, rfl, hloc⟩ | hbracketed
  · refine ⟨.kObject, ?_⟩
    rw [readBack_slot hloc, printValue]
    rcases slotToken (t := t) hloc dataType s with ⟨hname, htext⟩ |
      ⟨name, type, hname, htext, htype, hrun, hread⟩
    · rw [htext, hname, nil_append]
      refine run_unnamed ?_ hs
      rw [step_input hcontext h _ (by decide)]
      rfl
    · rw [htext, hname, hrun, Option.bind_some, readName, htype]
      rcases hread with ⟨rfl, hparse⟩ | ⟨rfl, -⟩
      · rw [step_input hcontext h _ (by decide)]
        simp [parseInput, hparse]
      · rw [step_input hcontext h _ (by decide)]
        simp [parseInput, Option.bind_map, Function.comp_def]
  · obtain ⟨type, data, htoken⟩ := exists_valueToken (t := t) (f := f) (v := v)
      hknown hbracketed hids dataType (printType dataType ++ s)
    obtain ⟨parsed, hparse⟩ := htoken.parse p rfl
    have htype : type ≠ .kComment ∧ type ≠ .kNewLine ∧ type ≠ .kParLeft := by
      have hvalue := htoken.isValue
      refine ⟨?_, ?_, ?_⟩ <;> rintro rfl <;> exact absurd hvalue (by decide)
    refine ⟨parsed, ?_⟩
    rw [htoken.run, step_input hcontext h _ htype,
      parseInput_of_isValueToken htoken.isValue, hparse true dataType]
    cases v.readBack t true dataType <;> rfl

include hcontext in
theorem run_operand (h : p.state = first) (hinstr : p.instr = some instr)
    {input : Operand} (hknown : input.Known p.outputs)
    (hids : ∀ id ∈ p.outputs, 0 ≤ id ∧ id < 2 ^ 31) (hs : Boundary s) :
    run t p (printOperand t f input ++ s) =
      (input.readBack t).bind fun input' =>
        run t ((p.addInput input').enter (afterInput second third input)) s := by
  cases input with
  | vreg id =>
    obtain ⟨n, rfl⟩ := Int.eq_ofNat_of_zero_le hknown.1
    have hmax : (n : Int) < 2 ^ 31 := hknown.2
    have hint : toInt (n : Int) = n := toInt_eq (by omega) hmax
    have htoken := run_token (t := t) (p := p) (c := '%') (decimal n)
      (by decide) (token_vreg (by omega) (boundary_type (Function.vregType f n) s))
    rw [step_input hcontext h _ (by decide)] at htoken
    have htype := run_inputType_addInput (t := t) hcontext (.vreg n)
      (Function.vregType f n) hs hinstr
    have hprint : printOperand t f (.vreg n) ++ s =
        '%' :: decimal n ++ (printType (Function.vregType f n) ++ s) := by
      simp [printOperand, printLinked, printInt]
    rw [hprint, htoken]
    simpa [parseInput, hint, Operand.readBack, setType, afterInput] using htype
  | label block =>
    obtain ⟨n, rfl⟩ := Int.eq_ofNat_of_zero_le hknown.1
    have hmax : (n : Int) < 2 ^ 31 := hknown.2
    have hint : toInt (n : Int) = n := toInt_eq (by omega) hmax
    have htoken := run_token (t := t) (p := p) (c := 'B')
      ('B' :: '%' :: decimal n) (by decide) (token_label (by omega) hs)
    rw [step_input hcontext h _ (by decide)] at htoken
    have hprint : printOperand t f (.label n) ++ s =
        'B' :: 'B' :: '%' :: decimal n ++ s := by
      simp [printOperand, printInt]
    rw [hprint, htoken]
    simp [parseInput, hint, Operand.readBack, afterInput]
  | value v dataType =>
    obtain ⟨parsed, hvalue⟩ := run_valueInput (t := t) (f := f) hcontext h hknown hids dataType
      hs
    rw [printOperand, append_assoc, hvalue, Operand.readBack, Option.bind_map]
    refine Option.bind_congr fun v' _ => ?_
    exact run_inputType_addInput (t := t) hcontext (.value v' parsed) dataType hs hinstr

end Inputs

end Parser

end CinderX.Jit.Lir.Text
