import CinderX.Foundation.Fold
import CinderX.Jit.Lir.HeaderRun

/-!
# Printing and parsing a function

Every function over virtual registers is parsed back as what is readable of it;
the round trip holds for those whose values are all readable.
-/

namespace CinderX.Jit.Lir.Text

open CinderX.Foundation List Option Text.Instruction Text.Function Text.BasicBlock

/-- Instructions in the order of the text, each over what is defined before. -/
def KnownFrom : List Int → List Instruction → Prop
  | _, [] => True
  | outputs, instr :: rest =>
    instr.Known outputs ∧ KnownFrom (outputs ++ instr.outputIds) rest

def BasicBlock.readBack (t : Target) (block : BasicBlock) : Option BasicBlock :=
  (block.instructions.mapM (Instruction.readBack t)).map fun instrs =>
    { block with instructions := instrs }

theorem BasicBlock.readBack_eq_some {t : Target} {block block' : BasicBlock}
    (h : block.readBack t = some block') :
    block'.id = block.id ∧ block'.successors = block.successors ∧
      block.instructions.mapM (Instruction.readBack t) = some block'.instructions := by
  obtain ⟨instrs, hinstrs, rfl⟩ := map_eq_some_iff.mp h
  exact ⟨rfl, rfl, hinstrs⟩

theorem knownFrom_append {outputs : List Int} {instrs rest : List Instruction} :
    KnownFrom outputs (instrs ++ rest) ↔ KnownFrom outputs instrs ∧
      KnownFrom (outputs ++ instrs.flatMap Instruction.outputIds) rest := by
  induction instrs generalizing outputs with
  | nil => simp [KnownFrom]
  | cons instr instrs ih => simp [KnownFrom, ih, and_assoc]

variable {instrs : List Instruction} {instr : Instruction}

theorem range_of_knownFrom {outputs : List Int}
    (hids : ∀ id ∈ outputs, 0 ≤ id ∧ id < 2 ^ 31) (h : KnownFrom outputs instrs) :
    ∀ id ∈ outputs ++ instrs.flatMap Instruction.outputIds, 0 ≤ id ∧ id < 2 ^ 31 := by
  induction instrs generalizing outputs with
  | nil => simpa using hids
  | cons instr instrs ih =>
    obtain ⟨hinstr, hrest⟩ := h
    have hids' : ∀ id ∈ outputs ++ instr.outputIds, 0 ≤ id ∧ id < 2 ^ 31 := by
      intro id hid
      rcases mem_append.mp hid with hid | hid
      · exact hids id hid
      · exact (hinstr.ids id hid).1
    simpa [append_assoc] using ih hids' hrest

namespace Function

def outputIds (f : Function) : List Int := f.instructions.flatMap Instruction.outputIds

structure WellFormed (f : Function) : Prop where
  blockIds : f.blockIds.Nodup
  blockRange : ∀ id ∈ f.blockIds, 0 ≤ id ∧ id < 2 ^ 31
  successors : ∀ block ∈ f, ∀ id ∈ block.successors, id ∈ f.blockIds
  two : ∀ block ∈ f, block.successors.length ≤ 2
  instructions : KnownFrom [] f.instructions
  inputs : ∀ instr ∈ f.instructions, ∀ input ∈ instr.inputs,
    f.inputKnown f.outputIds input = true

theorem WellFormed.headerKnown {f : Function} (h : f.WellFormed) {block : BasicBlock}
    (hmem : block ∈ f) :
    HeaderKnown f block where
  id := h.blockRange _ (List.mem_map_of_mem hmem)
  successors := fun id hid => h.blockRange id (h.successors block hmem id hid)
  two := h.two block hmem
  predecessors := by
    intro id hid
    rw [predecessors, mem_mergeSort, mem_flatMap] at hid
    obtain ⟨pred, hpred, hid⟩ := hid
    obtain ⟨succ, -, rfl⟩ := List.mem_map.mp hid
    exact (h.blockRange _ (List.mem_map_of_mem hpred)).1

end Function

namespace Parser

variable {t : Target} {f : Function} {s : List Char}

def afterBlocks (done : Function) (outputs : List Int) : Parser :=
  ⟨if done = [] then .basicBlock else .instrOutput, done.dropLast, done.getLast?, none, outputs⟩

theorem finishBlock_afterBlocks (done : Function) (outputs : List Int) :
    (afterBlocks done outputs).finishBlock =
      ⟨if done = [] then .basicBlock else .instrOutput, done, none, none, outputs⟩ := by
  rcases eq_nil_or_concat done with rfl | ⟨blocks, block, rfl⟩
  · rfl
  · simp [afterBlocks, finishBlock, finishInstr]

theorem state_afterBlocks (done : Function) (outputs : List Int) :
    (afterBlocks done outputs).state = .basicBlock ∨
      (afterBlocks done outputs).state = .instrOutput := by
  unfold afterBlocks
  split
  · exact .inl rfl
  · exact .inr rfl

theorem step_header {p : Parser} (h : p.state = .basicBlock ∨ p.state = .instrOutput)
    {length : Nat} {data : Int} {text : List Char} :
    step t ⟨.kBasicBlockStart, length, data⟩ text p =
      stepBasicBlock ⟨.kBasicBlockStart, length, data⟩ text p := by
  rcases h with h | h <;> simp [step, h]

variable {done : Function} {outputs : List Int} {block : BasicBlock}

theorem run_header (h : HeaderKnown f block) (hnew : block.id ∉ done.map BasicBlock.id) :
    run t (afterBlocks done outputs) (printHeader f block ++ s) =
      run t ⟨.instrOutput, done, some { block with instructions := [] }, none, outputs⟩
        s := by
  obtain ⟨n, hn⟩ := Int.eq_ofNat_of_zero_le h.id.1
  have hmax : (n : Int) < 2 ^ 31 := hn ▸ h.id.2
  have hint : toInt (n : Int) = n := toInt_eq (by omega) hmax
  have htext := printHeader_eq f block []
  rw [append_nil, hn, printInt_natCast] at htext
  have htoken := token_header t.arch (n := n) (by omega)
    (headerTail_printHeaderTail h) s
  have hrun := run_token (t := t) (p := afterBlocks done outputs) (c := 'B')
    ("B %".toList ++ (decimal n ++ (printHeaderTail f block ++ ['\n']))) (by decide)
    (show getNextToken t.arch (_ ++ s) = ⟨.kBasicBlockStart, _, n⟩ by simpa using htoken)
  have hheader : 'B' :: ("B %".toList ++ (decimal n ++ (printHeaderTail f block ++ ['\n']))) =
      printHeader f block := htext.symm
  rw [hheader] at hrun
  rw [hrun]
  have hstep : stepBasicBlock ⟨.kBasicBlockStart, (printHeader f block).length, n⟩
      (printHeader f block) (afterBlocks done outputs) = some
        ⟨.instrOutput, done, some { block with instructions := [] }, none, outputs⟩ := by
    rw [hn] at hnew
    simp only [stepBasicBlock, hint, finishBlock_afterBlocks, setSection_printHeader h,
      setSuccessorBlocks_printHeader h, hnew, enter, hn]
    rfl
  rw [step_header (state_afterBlocks done outputs), hstep, bind_some]

theorem run_instructions {instrs : List Instruction} (hids : ∀ id ∈ outputs, 0 ≤ id ∧ id < 2 ^ 31)
    (hknown : KnownFrom outputs instrs) :
    run t ⟨.instrOutput, done, some block, none, outputs⟩
        ((instrs.flatMap fun instr => printInstruction t f instr ++ ['\n']) ++ s) =
      (instrs.mapM (Instruction.readBack t)).bind fun instrs' =>
        run t ⟨.instrOutput, done,
          some { block with instructions := block.instructions ++ instrs' }, none,
          outputs ++ instrs.flatMap Instruction.outputIds⟩ s := by
  induction instrs generalizing block outputs with
  | nil => simp
  | cons instr instrs ih =>
    obtain ⟨hinstr, hrest⟩ := hknown
    have hids' : ∀ id ∈ outputs ++ instr.outputIds, 0 ≤ id ∧ id < 2 ^ 31 := by
      simpa using range_of_knownFrom hids (show KnownFrom outputs [instr] from ⟨hinstr, trivial⟩)
    have hline := run_instruction (t := t) (f := f) done block
      (s := (instrs.flatMap fun instr => printInstruction t f instr ++ ['\n']) ++ s)
      hids hinstr
    have hprint : ((instr :: instrs).flatMap fun instr =>
        printInstruction t f instr ++ ['\n']) ++ s =
          printInstruction t f instr ++ '\n' ::
            ((instrs.flatMap fun instr => printInstruction t f instr ++ ['\n']) ++ s) := by
      simp
    rw [hprint, hline]
    simp only [ih hids' hrest, mapM_cons, flatMap_cons, bind_eq_bind,
      bind_assoc, Option.pure_def, bind_some, append_assoc,
      singleton_append]

theorem run_block (h : HeaderKnown f block) (hnew : block.id ∉ done.map BasicBlock.id)
    (hids : ∀ id ∈ outputs, 0 ≤ id ∧ id < 2 ^ 31) (hknown : KnownFrom outputs block.instructions) :
    run t (afterBlocks done outputs) (printBlock t f block ++ ('\n' :: s)) =
      (block.readBack t).bind fun block' =>
        run t (afterBlocks (done ++ [block'])
          (outputs ++ block.instructions.flatMap Instruction.outputIds)) s := by
  have hprint : printBlock t f block ++ ('\n' :: s) = printHeader f block ++
      ((block.instructions.flatMap fun instr => printInstruction t f instr ++ ['\n']) ++
        ('\n' :: s)) := by simp [printBlock]
  have hskip : ∀ block' : BasicBlock, run t
      ⟨.instrOutput, done, some block', none,
        outputs ++ block.instructions.flatMap Instruction.outputIds⟩ ('\n' :: s) =
      run t (afterBlocks (done ++ [block'])
        (outputs ++ block.instructions.flatMap Instruction.outputIds)) s := by
    intro block'
    rw [run_newLine_skip rfl]
    simp [afterBlocks]
  rw [hprint, run_header h hnew, run_instructions hids hknown]
  simp only [nil_append, hskip, BasicBlock.readBack, map_eq_bind, bind_assoc,
    Function.comp_apply, bind_some]

theorem run_blocks (done blocks : Function) (outputs : List Int)
    (hheaders : ∀ block ∈ blocks, HeaderKnown f block)
    (hnodup : ((done ++ blocks).map BasicBlock.id).Nodup)
    (hids : ∀ id ∈ outputs, 0 ≤ id ∧ id < 2 ^ 31)
    (hknown : KnownFrom outputs (Function.instructions blocks)) :
    run t (afterBlocks done outputs)
        (blocks.flatMap fun block => printBlock t f block ++ ['\n']) =
      (blocks.mapM (BasicBlock.readBack t)).map fun blocks' =>
        afterBlocks (done ++ blocks') (outputs ++ Function.outputIds blocks) := by
  induction blocks generalizing done outputs with
  | nil => simp [Function.outputIds, Function.instructions]
  | cons block blocks ih =>
    have hnew : block.id ∉ done.map BasicBlock.id := by
      intro hmem
      rw [map_append, nodup_append] at hnodup
      exact hnodup.2.2 _ hmem _ (by simp) rfl
    obtain ⟨hblock, hrest⟩ : KnownFrom outputs block.instructions ∧
        KnownFrom (outputs ++ block.instructions.flatMap Instruction.outputIds)
          (Function.instructions blocks) := by
      rw [← knownFrom_append]
      exact hknown
    have hprint : ((block :: blocks).flatMap fun block =>
        printBlock t f block ++ ['\n']) = printBlock t f block ++
          ('\n' :: blocks.flatMap fun block => printBlock t f block ++ ['\n']) := by
      simp
    rw [hprint, run_block (hheaders block (by simp)) hnew hids hblock]
    cases hread : block.readBack t with
    | none => simp [hread]
    | some block' =>
      have hid := (BasicBlock.readBack_eq_some hread).1
      rw [bind_some, ih _ _ (fun b hb => hheaders b (by simp [hb]))
        (by simpa [hid] using hnodup) (range_of_knownFrom hids hblock) hrest]
      simp [hread, Function.outputIds, Function.instructions, map_eq_bind,
        bind_assoc]

end Parser

section End

variable {t : Target} {f : Function}

variable {g : Function}

theorem blockIds_readBack (h : f.mapM (BasicBlock.readBack t) = some g) :
    g.blockIds = f.blockIds :=
  map_eq_of_mapM (fun _ _ hread => (readBack_eq_some hread).1) h

theorem exists_of_mem_instructions (h : f.mapM (BasicBlock.readBack t) = some g)
    {instr' : Instruction} (hmem : instr' ∈ g.instructions) :
    ∃ instr ∈ f.instructions, instr.readBack t = some instr' := by
  obtain ⟨block', hblock', hinstr'⟩ := mem_flatMap.mp hmem
  obtain ⟨block, hblock, hread⟩ := exists_of_mem_mapM h hblock'
  obtain ⟨instr, hinstr, hreadInstr⟩ :=
    exists_of_mem_mapM (readBack_eq_some hread).2.2 hinstr'
  exact ⟨instr, mem_flatMap.mpr ⟨block, hblock, hinstr⟩, hreadInstr⟩

theorem inputKnown_readBack (hids : g.blockIds = f.blockIds) {outputs : List Int}
    {input input' : Operand} (h : input.readBack t = some input') :
    g.inputKnown outputs input' = f.inputKnown outputs input := by
  cases input with
  | vreg id =>
    cases h
    rfl
  | label block =>
    cases h
    simp [inputKnown, hids]
  | value v dataType =>
    obtain ⟨v', -, rfl⟩ := map_eq_some_iff.mp h
    rfl

theorem fixOperands_readBack (h : f.WellFormed) (hread : f.mapM (BasicBlock.readBack t) = some g) :
    g.fixOperands f.outputIds = true := by
  simp only [fixOperands, List.all_eq_true]
  intro instr' hinstr' input' hinput'
  obtain ⟨instr, hinstr, hreadInstr⟩ := exists_of_mem_instructions hread hinstr'
  obtain ⟨output, -, hinputs⟩ := bind_eq_some_iff.mp hreadInstr
  obtain ⟨inputs, hmapM, rfl⟩ := map_eq_some_iff.mp hinputs
  obtain ⟨input, hinput, hreadInput⟩ := exists_of_mem_mapM hmapM hinput'
  rw [inputKnown_readBack (blockIds_readBack hread) hreadInput]
  exact h.inputs instr hinstr input hinput

theorem connectBasicBlocks_readBack (h : f.WellFormed)
    (hread : f.mapM (BasicBlock.readBack t) = some g) : g.connectBasicBlocks = true := by
  simp only [connectBasicBlocks, List.all_eq_true, decide_eq_true_eq]
  intro block' hblock' id hid
  obtain ⟨block, hblock, hreadBlock⟩ := exists_of_mem_mapM hread hblock'
  rw [(readBack_eq_some hreadBlock).2.1] at hid
  rw [blockIds_readBack hread]
  exact h.successors block hblock id hid

theorem drive_print (h : f.WellFormed) :
    Parser.drive t (printText t f).length {} (printText t f) =
      (f.mapM (BasicBlock.readBack t)).map fun g => Parser.afterBlocks g f.outputIds := by
  have hprint : printText t f = 'F' :: "unction:\n".toList ++
      f.flatMap fun block => printBlock t f block ++ ['\n'] := rfl
  have htoken := Parser.run_token (t := t) (p := {}) (c := 'F')
    "unction:\n".toList (by decide)
    (show getNextToken t.arch (_ ++ f.flatMap fun block => printBlock t f block ++ ['\n']) =
      ⟨.kFunctionStart, _, 0⟩ by simpa using token_functionStart t.arch _)
  have hblocks := Parser.run_blocks (t := t) (f := f) [] f []
    (fun block hblock => h.headerKnown hblock) h.blockIds
    (by simp) h.instructions
  have hdrive : Parser.drive t (printText t f).length {} (printText t f) =
      Parser.run t {} (printText t f) := rfl
  rw [hdrive, hprint, htoken]
  exact hblocks

theorem parse_print (h : f.WellFormed) :
    parse t (printText t f) = (f.mapM (BasicBlock.readBack t)).map fixUnknownIds := by
  rw [parse, drive_print h]
  cases hread : f.mapM (BasicBlock.readBack t) with
  | none => rfl
  | some g =>
    have hstate : (Parser.afterBlocks g f.outputIds).state ≠ .function := by
      rcases Parser.state_afterBlocks g f.outputIds with hstate | hstate <;> simp [hstate]
    have houtputs : (Parser.afterBlocks g f.outputIds).outputs = f.outputIds := rfl
    have hblocks : (Parser.afterBlocks g f.outputIds).finishBlock.blocks = g := by
      rw [Parser.finishBlock_afterBlocks]
    simp only [map_some, bind_some, hblocks, houtputs]
    rw [if_pos ⟨hstate, fixOperands_readBack h hread, connectBasicBlocks_readBack h hread⟩]

end End

def Value.Readable : Value → Prop
  | .stack loc => loc < 0
  | .mem address => address ≠ 0 ∧ address.toNat < 2 ^ 63
  | .ind indirect =>
    indirect.offset ≠ -2 ^ 31 ∧
      indirect.multiplier ≤ if indirect.index = none then 0 else 30
  | _ => True

def Output.values : Output → List Value
  | .value v _ => [v]
  | _ => []

def Operand.values : Operand → List Value
  | .value v _ => [v]
  | _ => []

namespace Instruction

def values (instr : Instruction) : List Value :=
  instr.output.values ++ instr.inputs.flatMap Operand.values

/-- Ids are no part of the text without a virtual register as the output. -/
def eraseId (instr : Instruction) : Instruction := { instr with id := instr.readId }

end Instruction

def BasicBlock.eraseIds (block : BasicBlock) : BasicBlock :=
  { block with instructions := block.instructions.map Instruction.eraseId }

namespace Function

def values (f : Function) : List Value := f.instructions.flatMap Instruction.values

def eraseIds (f : Function) : Function := f.map BasicBlock.eraseIds

end Function

/-- The function that is parsed differs from the printed one in unprinted ids at most. -/
def RoundTrips (t : Target) (f : Function) : Prop :=
  ∃ text, print t f = some text ∧ ∃ g, parse t text = some g ∧ g.eraseIds = f.eraseIds

theorem MemoryIndirect.readBack_eq_self {ind : MemoryIndirect} :
    ind.readBack = some ind ↔ Value.Readable (.ind ind) := by
  obtain ⟨base, index, multiplier, offset⟩ := ind
  unfold MemoryIndirect.readBack Value.Readable
  cases index with
  | none => simp [eq_comm]
  | some reg =>
    by_cases hsign : multiplier % 32 = 31
    · simp [hsign]
      omega
    · simp [hsign]
      omega

theorem ofInt_min_eq_self {address : BitVec 64} :
    BitVec.ofInt 64 (min (2 ^ 63 - 1) address.toNat) = address ↔ address.toNat < 2 ^ 63 := by
  have hlt := address.isLt
  rw [← BitVec.toNat_inj, BitVec.toNat_ofInt]
  omega

theorem readName_ne_stack {isInput : Bool} {name : List Char} {loc : Int} :
    readName t isInput name ≠ some (.stack loc) := by
  unfold readName
  split_ifs <;> simp

theorem Value.readBack_eq_self {v : Value} {isInput : Bool} {dataType : DataType} :
    v.readBack t isInput dataType = some v ↔ v.Readable := by
  cases v with
  | stack loc =>
    by_cases hloc : loc < 0
    · simp [Value.readBack, Value.Readable, hloc]
    · have hname : ∀ name ∈ regName t.arch loc.toNat (bitSize dataType),
          readName t isInput name ≠ some (.stack loc) := fun _ _ => readName_ne_stack
      simpa [Value.readBack, Value.Readable, hloc, bind_eq_some_iff] using hname
  | mem address =>
    have hread : Value.readBack t isInput dataType (.mem address) = if address = 0 then none
        else some (.mem (BitVec.ofInt 64 (min (2 ^ 63 - 1) address.toNat))) := rfl
    rw [hread, Value.Readable]
    split
    next hzero => simp [hzero]
    next hzero => rw [Option.some.injEq, Value.mem.injEq, ofInt_min_eq_self, and_iff_right hzero]
  | ind indirect =>
    rw [← MemoryIndirect.readBack_eq_self]
    simp [Value.readBack]
  | _ => simp [Value.readBack, Value.Readable]

theorem Output.readBack_eq_self {output : Output} :
    output.readBack t = some output ↔ ∀ v ∈ output.values, v.Readable := by
  cases output with
  | value v dataType =>
    have hv := @Value.readBack_eq_self t v false dataType
    simp [Output.readBack, Output.values, hv]
  | _ => simp [Output.readBack, Output.values]

theorem Operand.readBack_eq_self {input : Operand} :
    input.readBack t = some input ↔ ∀ v ∈ input.values, v.Readable := by
  cases input with
  | value v dataType =>
    have hv := @Value.readBack_eq_self t v true dataType
    simp [Operand.readBack, Operand.values, hv]
  | _ => simp [Operand.readBack, Operand.values]

theorem Instruction.readBack_eq_eraseId :
    instr.readBack t = some instr.eraseId ↔ ∀ v ∈ instr.values, v.Readable := by
  have hinputs : instr.inputs.mapM (Operand.readBack t) = some instr.inputs ↔
      ∀ v ∈ instr.inputs.flatMap Operand.values, v.Readable := by
    have hmap : instr.inputs.mapM (Operand.readBack t) =
        some (instr.inputs.map fun input => input) ↔
        _ := mapM_eq_some_map
    rw [List.map_id'] at hmap
    simp only [hmap, Operand.readBack_eq_self, mem_flatMap]
    exact ⟨fun h v ⟨input, hinput, hv⟩ => h input hinput v hv,
      fun h input hinput v hv => h v ⟨input, hinput, hv⟩⟩
  simp only [values, forall_mem_append, ← hinputs, ← Output.readBack_eq_self (t := t),
    readBack, bind_eq_some_iff, map_eq_some_iff, eraseId,
    Instruction.mk.injEq]
  constructor
  · rintro ⟨output, houtput, inputs, hread, -, -, rfl, rfl⟩
    exact ⟨houtput, hread⟩
  · rintro ⟨houtput, hread⟩
    exact ⟨_, houtput, _, hread, trivial, trivial, rfl, rfl⟩

theorem BasicBlock.readBack_eq_eraseIds {block : BasicBlock} :
    block.readBack t = some block.eraseIds ↔
      ∀ instr ∈ block.instructions, ∀ v ∈ instr.values, v.Readable := by
  simp only [readBack, eraseIds, map_eq_some_iff,
    BasicBlock.mk.injEq, true_and, exists_eq_right, mapM_eq_some_map,
    readBack_eq_eraseId]

theorem mapM_readBack_eq_eraseIds {f : Function} :
    f.mapM (BasicBlock.readBack t) = some f.eraseIds ↔ ∀ v ∈ f.values, v.Readable := by
  simp only [Function.eraseIds, mapM_eq_some_map, readBack_eq_eraseIds,
    Function.values, Function.instructions, mem_flatMap]
  exact ⟨fun h v ⟨instr, ⟨block, hblock, hinstr⟩, hv⟩ => h block hblock instr hinstr v hv,
    fun h block hblock instr hinstr v hv => h v ⟨instr, ⟨block, hblock, hinstr⟩, hv⟩⟩

/-! ## Fresh ids -/

def Fresh (instr : Instruction) : Prop := instr.id = -1 → instr.outputIds = []

theorem eraseId_assign (h : instr.outputIds = []) (id : Int) :
    Instruction.eraseId { instr with id := id } = instr.eraseId := by
  obtain ⟨_, opcode, output, inputs⟩ := instr
  cases output with
  | vreg dataType => cases h
  | _ => rfl

theorem eraseId_assignIds (h : ∀ instr ∈ instrs, Fresh instr) (next : Int) :
    (assignIds next instrs).1.map Instruction.eraseId = instrs.map Instruction.eraseId := by
  induction instrs generalizing next with
  | nil => rfl
  | cons instr instrs ih =>
    have hrest := ih fun x hx => h x (by simp [hx])
    unfold assignIds
    split
    next hid =>
      have hnone := h instr (by simp) hid
      rw [map_cons, map_cons, hrest, eraseId_assign hnone]
    next => rw [map_cons, map_cons, hrest]

theorem eraseIds_assignBlockIds {f : Function} (h : ∀ instr ∈ f.instructions, Fresh instr)
    (next : Int) : Function.eraseIds (assignBlockIds next f) = f.eraseIds := by
  induction f generalizing next with
  | nil => rfl
  | cons block blocks ih =>
    have hblock : ∀ instr ∈ block.instructions, Fresh instr := fun instr hinstr =>
      h instr (mem_flatMap.mpr ⟨block, by simp, hinstr⟩)
    have hrest : ∀ instr ∈ Function.instructions blocks, Fresh instr := by
      intro instr hinstr
      obtain ⟨b, hb, hinstr⟩ := mem_flatMap.mp hinstr
      exact h instr (mem_flatMap.mpr ⟨b, by simp [hb], hinstr⟩)
    have hids := eraseId_assignIds hblock next
    have hblocks := ih hrest (assignIds next block.instructions).2
    unfold Function.eraseIds at hblocks ⊢
    simp only [assignBlockIds, map_cons, hblocks, BasicBlock.eraseIds, hids]

section Fresh

variable {f g : Function} (h : f.WellFormed) (hread : f.mapM (BasicBlock.readBack t) = some g)

include h hread in
theorem readBack_ids :
    ∀ instr' ∈ g.instructions, Fresh instr' ∧ instr'.eraseId = instr' := by
  intro instr' hinstr'
  obtain ⟨instr, hinstr, hreadInstr⟩ := exists_of_mem_instructions hread hinstr'
  obtain ⟨output, houtput, hinputs⟩ := bind_eq_some_iff.mp hreadInstr
  obtain ⟨inputs, -, rfl⟩ := map_eq_some_iff.mp hinputs
  have hrange : ∀ id ∈ instr.outputIds, 0 ≤ id := fun id hid =>
    (range_of_knownFrom (by simp) h.instructions id
      (by simpa using ⟨instr, hinstr, hid⟩)).1
  cases hprinted : instr.output with
  | none =>
    obtain rfl : Output.none = output := by simpa [hprinted, Output.readBack] using houtput
    exact ⟨fun _ => rfl, by simp [eraseId, readId, hprinted]⟩
  | vreg dataType =>
    obtain rfl : Output.vreg dataType = output := by
      simpa [hprinted, Output.readBack] using houtput
    have hid : 0 ≤ instr.id := hrange instr.id (by simp [Instruction.outputIds, hprinted])
    have hreadId : instr.readId = instr.id := by simp [readId, hprinted]
    refine ⟨fun hminus => ?_, by simp [eraseId, readId, hprinted]⟩
    have hneg : instr.readId = -1 := hminus
    omega
  | value v dataType =>
    obtain ⟨v', -, rfl⟩ : ∃ v', v.readBack t false dataType = some v' ∧ Output.value v' dataType =
      output := by
      simpa [hprinted, Output.readBack] using houtput
    exact ⟨fun _ => rfl, by simp [eraseId, readId, hprinted]⟩

include h hread in
theorem eraseIds_fixUnknownIds : (fixUnknownIds g).eraseIds = g := by
  have hids := readBack_ids h hread
  have hfixed := eraseIds_assignBlockIds (fun instr hinstr => (hids instr hinstr).1)
    (g.largestId + 1)
  refine hfixed.trans ?_
  refine (map_congr_left fun block hblock => ?_).trans (List.map_id g)
  have hblock : block.instructions.map Instruction.eraseId = block.instructions := by
    refine (map_congr_left fun instr hinstr => ?_).trans (List.map_id _)
    exact (hids instr (mem_flatMap.mpr ⟨block, hblock, hinstr⟩)).2
  simp [BasicBlock.eraseIds, hblock]

end Fresh

theorem exists_known_of_knownFrom {outputs : List Int} (h : KnownFrom outputs instrs)
    (hmem : instr ∈ instrs) : ∃ outputs', instr.Known outputs' := by
  induction instrs generalizing outputs with
  | nil => cases hmem
  | cons first rest ih =>
    rcases mem_cons.mp hmem with rfl | hmem
    · exact ⟨outputs, h.1⟩
    · exact ih h.2 hmem

theorem Value.locs_neg {v : Value} {outputs : List Int} {dataType : DataType}
    (hknown : v.Known outputs) (hread : v.Readable) : ∀ loc ∈ v.locs dataType, loc.1 < 0 := by
  cases v with
  | phyReg loc => exact absurd hknown id
  | stack loc => simpa [Value.locs, Value.Readable] using hread
  | ind indirect =>
    obtain ⟨base, -, hbase⟩ := hknown.base
    cases hindex : indirect.index with
    | none => simp [Value.locs, hbase, hindex, AddressReg.locs]
    | some reg =>
      obtain ⟨id, -, rfl⟩ := hknown.index reg hindex
      simp [Value.locs, hbase, hindex, AddressReg.locs]
  | _ => simp [Value.locs]

/-- Where no value is printed as a register, every location has a text. -/
theorem print_of_readable (t : Target) {f : Function} (h : f.WellFormed)
    (hread : ∀ v ∈ f.values, v.Readable) : print t f = some (printText t f) := by
  refine if_pos fun loc hloc => ?_
  obtain ⟨block, hblock, hloc⟩ := mem_flatMap.mp hloc
  obtain ⟨instr, hinstr, hloc⟩ := mem_flatMap.mp hloc
  have hmem : instr ∈ f.instructions := mem_flatMap.mpr ⟨block, hblock, hinstr⟩
  obtain ⟨outputs, hknown⟩ := exists_known_of_knownFrom h.instructions hmem
  have hvalues : ∀ v ∈ instr.values, v.Readable :=
    fun v hv => hread v (mem_flatMap.mpr ⟨instr, hmem, hv⟩)
  have hneg : loc.1 < 0 := by
    rcases mem_append.mp hloc with hloc | hloc
    · cases houtput : instr.output with
      | value v dataType =>
        rw [houtput] at hloc
        have hv : v.Known outputs := by simpa [houtput, Output.Known] using hknown.output
        exact Value.locs_neg hv (hvalues v (by simp [Instruction.values, houtput, Output.values]))
          loc hloc
      | _ => simp [houtput, Output.locs] at hloc
    · obtain ⟨input, hinput, hloc⟩ := mem_flatMap.mp hloc
      have hinputKnown := hknown.inputs input hinput
      cases input with
      | value v dataType =>
        have hv : v ∈ instr.values :=
          mem_append_right _ (mem_flatMap.mpr ⟨_, hinput, by simp [Operand.values]⟩)
        exact Value.locs_neg hinputKnown (hvalues v hv) loc hloc
      | _ => cases hloc
  simp [locText, hneg]

theorem text_of_print {t : Target} {f : Function} {text : List Char}
    (h : print t f = some text) : text = printText t f := by
  unfold print at h
  split at h <;> cases h
  rfl

/-- The text of a function is parsed back exactly when its values are readable. -/
theorem roundTrips_iff (t : Target) {f : Function} (h : f.WellFormed) :
    RoundTrips t f ↔ ∀ v ∈ f.values, v.Readable := by
  constructor
  · rintro ⟨text, htext, g, hg, heq⟩
    rw [text_of_print htext, parse_print h] at hg
    obtain ⟨g', hread, rfl⟩ := map_eq_some_iff.mp hg
    rw [← mapM_readBack_eq_eraseIds (t := t), hread, ← heq, eraseIds_fixUnknownIds h hread]
  · intro hvalues
    have hread := (mapM_readBack_eq_eraseIds (t := t)).mpr hvalues
    refine ⟨_, print_of_readable t h hvalues, fixUnknownIds f.eraseIds, ?_,
      eraseIds_fixUnknownIds h hread⟩
    rw [parse_print h, hread, map_some]

def loopSample : Function :=
  [⟨0, .kHot, [3],
    [⟨1, some .kMove, .vreg .k64bit, [.value (.imm (2 ^ 64 - 1)) .k64bit]⟩,
     ⟨2, some .kMove, .vreg .k64bit,
      [.value (.ind ⟨some (.vreg 1), some (.vreg 1), 3, -16⟩) .k64bit]⟩]⟩,
   ⟨3, .kCold, [3, 0],
    [⟨4, some .kPhi, .vreg .k64bit, [.label 0, .vreg 1, .label 3, .vreg 2]⟩,
     ⟨5, some .kMove, .value (.stack (-8)) .kObject, [.value (.mem 4096) .kObject]⟩]⟩]

theorem loopSample_wellFormed : loopSample.WellFormed where
  blockIds := by decide
  blockRange := by decide
  successors := by decide
  two := by decide
  instructions := by
    have hind : MemoryIndirect.Known ⟨some (.vreg 1), some (.vreg 1), 3, -16⟩ [1, 2] :=
      ⟨⟨1, by decide, rfl⟩, fun reg hreg => ⟨1, by decide, (Option.some.inj hreg).symm⟩,
        by decide⟩
    have hload : ∀ input ∈ [Operand.value (.ind ⟨some (.vreg 1), some (.vreg 1), 3, -16⟩)
        .k64bit], input.Known [1, 2] := fun input hinput => mem_singleton.mp hinput ▸ hind
    refine ⟨⟨rfl, by decide, trivial, ?_, by simp⟩, ⟨rfl, by decide, trivial, hload, by simp⟩,
      ⟨rfl, by decide, trivial, ?_, by simp [isPhiInputs]⟩,
      ⟨rfl, by decide, ?_, ?_, by simp⟩, trivial⟩
    · simp [Operand.Known, Value.Known]
    · simp [Operand.Known]
    · simp [Output.Known, Value.Known]
    · simp [Operand.Known, Value.Known]
  inputs := by decide

def sampleTarget : Target := ⟨.kX86_64, fun _ => none, fun _ => 0⟩

theorem loopSample_roundTrips : RoundTrips sampleTarget loopSample :=
  (roundTrips_iff sampleTarget loopSample_wellFormed).mpr (by
    simp [loopSample, Function.values, Function.instructions, Instruction.values, Output.values,
      Operand.values, Value.Readable])

def leastOffset : Function :=
  [⟨0, .kHot, [],
    [⟨1, some .kMove, .vreg .k64bit, [.value (.imm 4096) .k64bit]⟩,
     ⟨2, some .kMove, .vreg .k64bit,
      [.value (.ind ⟨some (.vreg 1), none, 0, -2 ^ 31⟩) .k64bit]⟩]⟩]

theorem leastOffset_wellFormed : leastOffset.WellFormed where
  blockIds := by decide
  blockRange := by decide
  successors := by decide
  two := by decide
  instructions := by
    have hind : MemoryIndirect.Known ⟨some (.vreg 1), none, 0, -2 ^ 31⟩ [1, 2] :=
      ⟨⟨1, by decide, rfl⟩, by simp, by decide⟩
    have hload : ∀ input ∈ [Operand.value (.ind ⟨some (.vreg 1), none, 0, -2 ^ 31⟩) .k64bit],
        input.Known [1, 2] := fun input hinput => mem_singleton.mp hinput ▸ hind
    refine ⟨⟨rfl, by decide, trivial, ?_, by simp⟩, ⟨rfl, by decide, trivial, hload, by simp⟩,
      trivial⟩
    simp [Operand.Known, Value.Known]
  inputs := by decide

theorem leastOffset_rejected :
    leastOffset.WellFormed ∧ ∀ t, ¬ RoundTrips t leastOffset := by
  refine ⟨leastOffset_wellFormed, ?_⟩
  rintro t ⟨text, htext, g, hg, -⟩
  have hnone : leastOffset.mapM (BasicBlock.readBack t) = none := by rfl
  rw [text_of_print htext, parse_print leastOffset_wellFormed, hnone] at hg
  cases hg

end CinderX.Jit.Lir.Text
