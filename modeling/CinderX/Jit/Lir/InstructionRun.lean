import CinderX.Jit.Lir.OperandRun

/-!
# Instructions are parsed back

The parser over the line of an instruction: its output, its name and its inputs.
-/

namespace CinderX.Jit.Lir.Text

open CinderX.Foundation Regex List Option

def Output.Known (outputs : List Int) : Output → Prop
  | .value v _ => v.Known outputs
  | _ => True

def Output.readBack (t : Target) : Output → Option Output
  | .value v dataType => (v.readBack t false dataType).map (.value · dataType)
  | output => some output

def isPhiInputs : List Operand → Bool
  | [] => true
  | .label _ :: _ :: rest => isPhiInputs rest
  | _ => false

namespace Instruction

def outputIds (instr : Instruction) : List Int :=
  match instr.output with
  | .vreg _ => [instr.id]
  | _ => []

def readId (instr : Instruction) : Int :=
  match instr.output with
  | .vreg _ => instr.id
  | _ => -1

/-- An instruction that may follow a text in which `outputs` are defined. -/
structure Known (instr : Instruction) (outputs : List Int) : Prop where
  opcode : instr.opcode.isSome
  ids : ∀ id ∈ instr.outputIds, (0 ≤ id ∧ id < 2 ^ 31) ∧ id ∉ outputs
  output : instr.output.Known outputs
  inputs : ∀ input ∈ instr.inputs, input.Known (outputs ++ instr.outputIds)
  phi : instr.opcode = some .kPhi → isPhiInputs instr.inputs = true

def readBack (t : Target) (instr : Instruction) : Option Instruction :=
  (instr.output.readBack t).bind fun output =>
    (instr.inputs.mapM (Operand.readBack t)).map fun inputs =>
      ⟨instr.readId, instr.opcode, output, inputs⟩

end Instruction

namespace Parser

/-! ## Inputs -/

def addInputs (p : Parser) (inputs : List Operand) : Parser :=
  p.modifyInstr fun instr => { instr with inputs := instr.inputs ++ inputs }

section Inputs

variable {t : Target} {f : Function} {p : Parser} {s : List Char} {state : ParseState}

@[simp]
theorem addInputs_nil : p.addInputs [] = p := by
  obtain ⟨state, blocks, block, instr, outputs⟩ := p
  cases instr <;> simp [addInputs, modifyInstr]

@[simp]
theorem addInputs_addInput (input : Operand) (inputs : List Operand) :
    (p.addInput input).addInputs inputs = p.addInputs (input :: inputs) := by
  cases hinstr : p.instr <;> simp [addInputs, addInput, modifyInstr, hinstr]

@[simp]
theorem addInputs_enter (inputs : List Operand) :
    (p.enter state).addInputs inputs = (p.addInputs inputs).enter state := rfl

@[simp]
theorem addInput_enter (input : Operand) :
    (p.enter state).addInput input = (p.addInput input).enter state := rfl

@[simp]
theorem instr_enter : (p.enter state).instr = p.instr := rfl

@[simp]
theorem enter_enter {state' : ParseState} : (p.enter state).enter state' = p.enter state' := rfl

@[simp]
theorem finishInstr_enter : (p.enter state).finishInstr = p.finishInstr.enter state := by
  obtain ⟨_, blocks, block, instr, outputs⟩ := p
  cases block <;> cases instr <;> rfl

theorem boundary_cons {c : Char} (hc : isIdPart c = false) : Boundary (c :: s) := by
  rintro d hd
  obtain rfl : c = d := by simpa using hd
  exact hc

def BetweenInputs (state : ParseState) : Prop :=
  state = .instrInputComma ∨ state = .instrInputType

def endLine (p : Parser) : Parser := p.finishInstr.enter .instrOutput

@[simp]
theorem endLine_enter : (p.enter state).endLine = p.endLine := by simp [endLine]

/-- `sep` leads from where the parser is to the next input. -/
def Separates (p : Parser) (sep : List Char) : Prop :=
  p.state = .instrInput ∧ sep = [' '] ∨ BetweenInputs p.state ∧ sep = ", ".toList

theorem Separates.run {sep : List Char} (h : p.Separates sep) :
    run t p (sep ++ s) = run t (p.enter .instrInput) s := by
  obtain ⟨hstate, rfl⟩ | ⟨hbetween, rfl⟩ := h
  · rw [← hstate]
    exact run_blank
  · exact run_comma hbetween

theorem Separates.run_newLine {sep : List Char} (h : p.Separates sep) :
    Parser.run t p ('\n' :: s) = Parser.run t p.endLine s :=
  run_newLine_end (h.imp And.left And.left)

variable {input : Operand}

theorem run_input (h : p.state = .instrInput) (hinstr : p.instr.isSome)
    (hknown : input.Known p.outputs) (hids : ∀ id ∈ p.outputs, 0 ≤ id ∧ id < 2 ^ 31)
    (hs : Boundary s) :
    ∃ state, BetweenInputs state ∧
      run t p (printOperand t f input ++ s) =
        (input.readBack t).bind fun input' => run t ((p.addInput input').enter state) s := by
  obtain ⟨instr, hinstr⟩ := isSome_iff_exists.mp hinstr
  refine ⟨afterInput .instrInputType .instrInputComma input, ?_,
    run_operand .operand h hinstr hknown hids hs⟩
  cases input with
  | label block => exact .inr rfl
  | _ => exact .inl rfl

@[simp]
theorem isSome_instr_addInput (input : Operand) :
    (p.addInput input).instr.isSome = p.instr.isSome := by
  simp [addInput, modifyInstr]

@[simp]
theorem outputs_addInput (input : Operand) : (p.addInput input).outputs = p.outputs := rfl

theorem boundary_printInputs (sep : Char) (hsep : isIdPart sep = false) (rest : List Char)
    (inputs : List Operand) :
    Boundary (printInputs t f (sep :: rest) inputs ++ '\n' :: s) := by
  cases inputs with
  | nil => exact boundary_cons (by decide)
  | cons input inputs => exact boundary_cons hsep

theorem run_phiInput (h : p.state = .instrInput) (hinstr : p.instr.isSome) {block : Int}
    (hblock : (Operand.label block).Known p.outputs)
    (hknown : input.Known p.outputs) (hids : ∀ id ∈ p.outputs, 0 ≤ id ∧ id < 2 ^ 31) :
    run t p ('(' :: (printOperand t f (.label block) ++ (", ".toList ++
        (printOperand t f input ++ ')' :: s)))) =
      (input.readBack t).bind fun input' =>
        run t (((p.addInput (.label block)).addInput input').enter .instrInputComma) s := by
  obtain ⟨n, rfl⟩ := Int.eq_ofNat_of_zero_le hblock.1
  have hmax : (n : Int) < 2 ^ 31 := hblock.2
  have hint : toInt (n : Int) = n := toInt_eq (by omega) hmax
  have hlabel := run_token (t := t) (p := p.enter .phiInputFirst) (c := 'B')
    ('B' :: '%' :: decimal n) (by decide)
    (token_label (by omega) (boundary_cons (c := ',')
      (s := ' ' :: (printOperand t f input ++ ')' :: s)) (by decide)))
  have hstep : step t ⟨.kBasicBlockRef, ('B' :: 'B' :: '%' :: decimal n).length, n⟩
      ('B' :: 'B' :: '%' :: decimal n) (p.enter .phiInputFirst) =
        some ((p.addInput (.label n)).enter .phiInputComma) := by
    simp [step, enter, parseInput, hint, addInput, modifyInstr]
  obtain ⟨instr, hinstr⟩ := isSome_iff_exists.mp hinstr
  have hoperand := run_operand (t := t) (f := f) .phi
    (p := (p.addInput (.label n)).enter .phiInputSecond) (s := ')' :: s) rfl
    (show _ = some { instr with inputs := instr.inputs ++ [.label n] } by
      simp [enter, addInput, modifyInstr, hinstr]) hknown hids (boundary_cons (by decide))
  have hprint : printOperand t f (.label n) ++ (", ".toList ++
      (printOperand t f input ++ ')' :: s)) =
        'B' :: 'B' :: '%' :: decimal n ++ (',' :: ' ' ::
          (printOperand t f input ++ ')' :: s)) := by simp [printOperand, printInt]
  have hcomma : ∀ rest, run t ((p.addInput (.label n)).enter .phiInputComma)
      (',' :: rest) = run t ((p.addInput (.label n)).enter .phiInputSecond) rest :=
    fun rest => run_phiComma rfl
  have hclose : ∀ input', run t
      ((((p.addInput (.label n)).enter .phiInputSecond).addInput input').enter
        (afterInput .phiInputSecondType .phiInputPar input)) (')' :: s) =
      run t (((p.addInput (.label n)).addInput input').enter .instrInputComma) s := by
    refine fun input' => run_parRight ?_
    cases input <;> simp [afterInput, enter]
  rw [run_parLeft h, hprint, hlabel, hstep, bind_some, hcomma, run_blank]
  simp only [hoperand, hclose]

theorem boundary_printPhiInputs (sep : Char) (hsep : isIdPart sep = false) (rest : List Char)
    (inputs : List Operand) :
    Boundary (printPhiInputs t f (sep :: rest) inputs ++ '\n' :: s) := by
  cases inputs with
  | nil => exact boundary_cons (by decide)
  | cons input inputs =>
    cases inputs with
    | nil => exact boundary_cons (by decide)
    | cons value inputs => exact boundary_cons hsep

theorem run_inputs {sep : List Char} (inputs : List Operand) (h : p.Separates sep)
    (hinstr : p.instr.isSome) (hknown : ∀ input ∈ inputs, input.Known p.outputs)
    (hids : ∀ id ∈ p.outputs, 0 ≤ id ∧ id < 2 ^ 31) :
    run t p (printInputs t f sep inputs ++ '\n' :: s) =
      (inputs.mapM (Operand.readBack t)).bind fun inputs' =>
        run t (p.addInputs inputs').endLine s := by
  induction inputs generalizing p sep with
  | nil => simpa [printInputs] using h.run_newLine
  | cons input inputs ih =>
    have hboundary : Boundary (printInputs t f ", ".toList inputs ++ '\n' :: s) :=
      boundary_printInputs ',' (by decide) [' '] inputs
    obtain ⟨state, hstate, hinput⟩ := run_input (t := t) (f := f)
      (p := p.enter .instrInput) rfl hinstr (hknown input (by simp)) hids hboundary
    have hrest : ∀ input', run t (((p.enter .instrInput).addInput input').enter state)
        (printInputs t f ", ".toList inputs ++ '\n' :: s) =
          (inputs.mapM (Operand.readBack t)).bind fun inputs' =>
            run t (p.addInputs (input' :: inputs')).endLine s := by
      intro input'
      rw [ih (p := ((p.enter .instrInput).addInput input').enter state) (.inr ⟨hstate, rfl⟩)
        (by simpa using hinstr) (fun x hx => hknown x (by simp [hx])) hids]
      simp only [addInput_enter, addInputs_enter, addInputs_addInput, endLine_enter]
    rw [printInputs, append_assoc, append_assoc, h.run]
    refine hinput.trans ?_
    simp only [hrest, mapM_cons, bind_eq_bind, bind_assoc, Option.pure_def, bind_some]

theorem run_phiInputs {sep : List Char} (inputs : List Operand) (hphi : isPhiInputs inputs = true)
    (h : p.Separates sep) (hinstr : p.instr.isSome)
    (hknown : ∀ input ∈ inputs, input.Known p.outputs)
    (hids : ∀ id ∈ p.outputs, 0 ≤ id ∧ id < 2 ^ 31) :
    run t p (printPhiInputs t f sep inputs ++ '\n' :: s) =
      (inputs.mapM (Operand.readBack t)).bind fun inputs' =>
        run t (p.addInputs inputs').endLine s := by
  induction inputs using isPhiInputs.induct generalizing p sep with
  | case1 => simpa [printPhiInputs] using h.run_newLine
  | case2 block input inputs ih =>
    have hprint : printPhiInputs t f sep (.label block :: input :: inputs) ++ '\n' :: s =
        sep ++ '(' :: (printOperand t f (.label block) ++ (", ".toList ++
          (printOperand t f input ++
            ')' :: (printPhiInputs t f ", ".toList inputs ++ '\n' :: s)))) := by
      simp [printPhiInputs]
    have hpair := run_phiInput (t := t) (f := f) (p := p.enter .instrInput)
      (s := printPhiInputs t f ", ".toList inputs ++ '\n' :: s) rfl hinstr
      (hknown (.label block) (by simp)) (hknown input (by simp)) hids
    have hrest : ∀ input', run t ((((p.enter .instrInput).addInput
        (.label block)).addInput input').enter .instrInputComma)
          (printPhiInputs t f ", ".toList inputs ++ '\n' :: s) =
          (inputs.mapM (Operand.readBack t)).bind fun inputs' =>
            run t (p.addInputs (.label block :: input' :: inputs')).endLine s := by
      intro input'
      rw [ih (p := (((p.enter .instrInput).addInput (.label block)).addInput
          input').enter .instrInputComma) hphi (.inr ⟨.inl rfl, rfl⟩) (by simpa using hinstr)
        (fun x hx => hknown x (by simp [hx])) hids]
      simp only [addInput_enter, addInputs_enter, addInputs_addInput, endLine_enter]
    rw [hprint, h.run]
    refine hpair.trans ?_
    simp only [hrest, mapM_cons, bind_eq_bind, bind_assoc, Option.pure_def, bind_some,
      Operand.readBack]
  | case3 inputs hnil hlabel => simp_all [isPhiInputs]

end Inputs

/-! ## Outputs -/

section Outputs

variable {t : Target} {f : Function} {p : Parser} {s : List Char} {opcode : Opcode}

theorem run_typeAndName (opcode : Opcode) {id : Int} {output : Output}
    (h : p.state = .instrOutputType)
    (hinstr : p.instr = some ⟨id, none, output, []⟩) (dataType : DataType)
    (hs : Boundary s) :
    run t p (printType dataType ++ (" = ".toList ++ (instrName (some opcode) ++ s))) =
      run t { p with
        state := .instrInput
        instr := some ⟨id, some opcode, setOutputType dataType output, []⟩ } s := by
  have htype := run_outputType (t := t) h dataType
    (s := " = ".toList ++ (instrName (some opcode) ++ s)) (boundary_cons (by decide))
  have hequal := run_equal (t := t) (s := ' ' :: (instrName (some opcode) ++ s))
    (p := (p.modifyInstr fun instr =>
      { instr with output := setOutputType dataType instr.output }).enter .instrEqual) rfl
  have hname := run_name (t := t) opcode
    (p := ((p.modifyInstr fun instr =>
      { instr with output := setOutputType dataType instr.output }).enter .instrEqual).enter
        .instrName) rfl hs
  have hblanks : ∀ q, run t q (" = ".toList ++ (instrName (some opcode) ++ s)) =
      run t q ('=' :: ' ' :: (instrName (some opcode) ++ s)) := fun q => rfl
  rw [htype, hblanks, hequal, run_blank, hname]
  simp [modifyInstr, enter, hinstr]

theorem run_vregOutput (h : p.state = .instrOutput) {n : Nat} (hn : (n : Int) < 2 ^ 31)
    (hnew : (n : Int) ∉ p.outputs) (hs : Boundary s) :
    run t p ('%' :: decimal n ++ s) =
      run t { p with
        state := .instrOutputType
        instr := some ⟨n, none, .vreg .kObject, []⟩
        outputs := p.outputs ++ [(n : Int)] } s := by
  have hint : toInt (n : Int) = n := toInt_eq (by omega) hn
  have htoken := run_token (t := t) (p := p) (c := '%') (decimal n)
    (by decide) (token_vreg (by omega) hs)
  rw [htoken]
  simp [step, h, stepInstrOutput, hint, hnew]

theorem step_valueOutput (h : p.state = .instrOutput) {type : TokenType}
    (htype : isValueToken type = true) (length : Nat) (data : Int) (text : List Char) :
    step t ⟨type, length, data⟩ text p =
      (parseValue t ⟨type, length, data⟩ text
        { p with instr := some ⟨-1, none, .none, []⟩ }).map fun (v, dataType) =>
          { p with
            state := .instrOutputType
            instr := some ⟨-1, none, .value v dataType, []⟩ } := by
  cases type <;> simp_all [isValueToken, step, stepInstrOutput] <;> rfl

theorem run_valueOutput {v : Value} (h : p.state = .instrOutput) (hknown : v.Known p.outputs)
    (hids : ∀ id ∈ p.outputs, 0 ≤ id ∧ id < 2 ^ 31) (dataType : DataType) (hs : Boundary s) :
    ∃ parsed, run t p (printValue t (printAddressReg t f) v dataType ++
        (printType dataType ++ s)) =
      (v.readBack t false dataType).bind fun v' =>
        run t { p with
          state := .instrOutputType
          instr := some ⟨-1, none, .value v' parsed, []⟩ } (printType dataType ++ s) := by
  rcases slot_or_bracketed v with ⟨loc, rfl, hloc⟩ | hbracketed
  · refine ⟨.kObject, ?_⟩
    rw [readBack_slot hloc, printValue]
    rcases slotToken (t := t) hloc dataType s with ⟨hname, htext⟩ |
      ⟨name, type, hname, htext, htype, hrun, hread⟩
    · rw [htext, hname, nil_append]
      refine run_unnamed ?_ hs
      rw [step_output h _ (by decide)]
      rfl
    · rw [htext, hname, hrun, bind_some, readName, htype]
      rcases hread with ⟨rfl, hparse⟩ | ⟨rfl, hopcode⟩
      · rw [step_output h _ (by decide)]
        simp [stepInstrOutput, hparse, modifyInstr, enter]
      · rw [step_output h _ (by decide)]
        simp [stepInstrOutput, stepInstrName, hopcode]
  · obtain ⟨type, data, htoken⟩ := exists_valueToken (t := t) (f := f) (v := v)
      hknown hbracketed hids dataType (printType dataType ++ s)
    obtain ⟨parsed, hparse⟩ :=
      htoken.parse { p with instr := some ⟨-1, none, .none, []⟩ } rfl
    refine ⟨parsed, ?_⟩
    rw [htoken.run, step_valueOutput h htoken.isValue, hparse false dataType]
    cases v.readBack t false dataType <;> rfl

theorem setw_eq (text : List Char) : ∃ n, setw text = replicate n ' ' ++ text :=
  ⟨_, rfl⟩

variable {instr : Instruction}

theorem run_output (h : p.state = .instrOutput)
    (hids : ∀ id ∈ p.outputs, 0 ≤ id ∧ id < 2 ^ 31) (hknown : instr.Known p.outputs)
    (hopcode : instr.opcode = some opcode) (hs : Boundary s) :
    run t p (printOutput t f instr ++ (instrName (some opcode) ++ s)) =
      (instr.output.readBack t).bind fun output =>
        run t { p with
          state := .instrInput
          instr := some ⟨instr.readId, some opcode, output, []⟩
          outputs := p.outputs ++ instr.outputIds } s := by
  obtain ⟨id, op, output, inputs⟩ := instr
  cases output with
  | none =>
    have hname := run_bareName (t := t) opcode h hs
    simp only [printOutput, run_blanks, hname, Output.readBack, bind_some,
      Instruction.readId, Instruction.outputIds, append_nil]
  | vreg dataType =>
    obtain ⟨⟨hlow, hhigh⟩, hnew⟩ := hknown.ids id (by simp [Instruction.outputIds])
    obtain ⟨n, rfl⟩ := Int.eq_ofNat_of_zero_le hlow
    obtain ⟨k, hsetw⟩ := setw_eq ('%' :: (printInt n ++ printType dataType))
    have hreg := run_vregOutput (t := t) h hhigh hnew
      (boundary_type dataType (" = ".toList ++ (instrName (some opcode) ++ s)))
    have hname := run_typeAndName opcode (t := t)
      (p := { p with
        state := .instrOutputType
        instr := some ⟨n, none, .vreg .kObject, []⟩
        outputs := p.outputs ++ [(n : Int)] }) rfl rfl dataType hs
    have hprint : printOutput t f ⟨n, op, .vreg dataType, inputs⟩ ++
        (instrName (some opcode) ++ s) = replicate k ' ' ++ ('%' :: decimal n ++
          (printType dataType ++ (" = ".toList ++ (instrName (some opcode) ++ s)))) := by
      simp only [printOutput, hsetw]
      simp [printInt]
    rw [hprint, run_blanks, hreg, hname]
    rfl
  | value v dataType =>
    obtain ⟨k, hsetw⟩ :=
      setw_eq (printValue t (printAddressReg t f) v dataType ++ printType dataType)
    obtain ⟨parsed, hvalue⟩ := run_valueOutput (t := t) (f := f) h hknown.output hids dataType
      (boundary_cons (c := ' ') (s := "= ".toList ++ (instrName (some opcode) ++ s)) (by decide))
    have hprint : printOutput t f ⟨id, op, .value v dataType, inputs⟩ ++
        (instrName (some opcode) ++ s) = replicate k ' ' ++
          (printValue t (printAddressReg t f) v dataType ++
            (printType dataType ++ (" = ".toList ++ (instrName (some opcode) ++ s)))) := by
      simp only [printOutput, hsetw]
      simp
    rw [hprint, run_blanks]
    refine hvalue.trans ?_
    cases hread : v.readBack t false dataType with
    | none => simp [Output.readBack, hread]
    | some v' =>
      have hname := run_typeAndName opcode (t := t)
        (p := { p with
          state := .instrOutputType
          instr := some ⟨-1, none, .value v' parsed, []⟩ }) rfl rfl dataType hs
      simp only [Output.readBack, hread, map_some, bind_some, Instruction.readId,
        Instruction.outputIds, append_nil]
      exact hname

theorem run_instruction (done : List BasicBlock) (block : BasicBlock)
    {outputs : List Int} (hids : ∀ id ∈ outputs, 0 ≤ id ∧ id < 2 ^ 31)
    (hknown : instr.Known outputs) :
    run t ⟨.instrOutput, done, some block, none, outputs⟩
        (printInstruction t f instr ++ '\n' :: s) =
      (instr.readBack t).bind fun instr' =>
        run t ⟨.instrOutput, done,
          some { block with instructions := block.instructions ++ [instr'] }, none,
          outputs ++ instr.outputIds⟩ s := by
  obtain ⟨opcode, hopcode⟩ : ∃ opcode, instr.opcode = some opcode :=
    isSome_iff_exists.mp hknown.opcode
  have hids' : ∀ id ∈ outputs ++ instr.outputIds, 0 ≤ id ∧ id < 2 ^ 31 := by
    intro id hid
    rcases mem_append.mp hid with hid | hid
    · exact hids id hid
    · exact (hknown.ids id hid).1
  have hinputs : ∀ output : Output, run t
      ⟨.instrInput, done, some block, some ⟨instr.readId, some opcode, output, []⟩,
        outputs ++ instr.outputIds⟩
      ((if instr.opcode = some .kPhi then printPhiInputs t f [' '] instr.inputs
        else printInputs t f [' '] instr.inputs) ++ '\n' :: s) =
      (instr.inputs.mapM (Operand.readBack t)).bind fun inputs =>
        run t ⟨.instrOutput, done,
          some { block with
            instructions := block.instructions ++ [⟨instr.readId, some opcode, output, inputs⟩] },
          none, outputs ++ instr.outputIds⟩ s := by
    intro output
    split
    next hphi => exact run_phiInputs _ (hknown.phi hphi) (.inl ⟨rfl, rfl⟩) rfl hknown.inputs hids'
    next => exact run_inputs _ (.inl ⟨rfl, rfl⟩) rfl hknown.inputs hids'
  have hboundary : Boundary ((if instr.opcode = some .kPhi then
      printPhiInputs t f [' '] instr.inputs
        else printInputs t f [' '] instr.inputs) ++ '\n' :: s) := by
    split
    · exact boundary_printPhiInputs ' ' (by decide) [] _
    · exact boundary_printInputs ' ' (by decide) [] _
  have houtput := run_output (t := t) (f := f)
    (p := ⟨.instrOutput, done, some block, none, outputs⟩) rfl hids hknown hopcode hboundary
  have hprint : printInstruction t f instr ++ '\n' :: s =
      printOutput t f instr ++ (instrName (some opcode) ++
        ((if instr.opcode = some .kPhi then printPhiInputs t f [' '] instr.inputs
          else printInputs t f [' '] instr.inputs) ++ '\n' :: s)) := by
    rw [printInstruction, append_assoc, append_assoc, ← hopcode]
  rw [hprint, houtput]
  simp only [hinputs]
  simp only [Instruction.readBack, hopcode, bind_assoc, map_eq_bind,
    Function.comp_apply, bind_some]

end Outputs

end Parser

end CinderX.Jit.Lir.Text
