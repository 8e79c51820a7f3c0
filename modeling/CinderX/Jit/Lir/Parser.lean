import CinderX.Jit.Lir.Printer
import CinderX.Foundation.Regex

/-!
# Parsing the text of LIR functions

`Parser` takes a text apart with an ordered list of patterns and drives a state
machine with the tokens.  Ids that operands refer to are looked up when the text
has ended, except for those in memory operands.  Nothing is the result when the
source throws an exception or aborts.
-/

namespace CinderX.Jit.Lir.Text

open CinderX.Foundation

inductive TokenType where
  | kFunctionStart | kBasicBlockStart | kNewLine | kComment | kVReg | kPhyReg | kStack
  | kAddress | kImmediate | kId | kEqual | kComma | kParLeft | kParRight | kBasicBlockRef
  | kError | kDataType | kIndirect | kStringLiteral
  deriving DecidableEq, Repr

structure Token where
  type : TokenType
  length : Nat
  data : Int
  deriving DecidableEq, Repr

structure PatternType where
  re : Regex
  type : TokenType

section Patterns

open Regex

def anyChar (c : Char) : Bool := c != '\n' && c != '\r'

def oneOf (cs : String) (c : Char) : Bool := cs.toList.contains c

def isAlnum (c : Char) : Bool := isDigit c || ('a' ≤ c && c ≤ 'z') || ('A' ≤ c && c ≤ 'Z')

def isIdStart (c : Char) : Bool :=
  ('A' ≤ c && c ≤ 'Z') || ('a' ≤ c && c ≤ 'z') || c == '_'

def isIdPart (c : Char) : Bool := isIdStart c || isDigit c

def numberAfter (word : String) : Regex := lit word.toList (group 1 (plus isDigit))

/-- `-?\d+` as the first group, between a stack slot's parentheses. -/
def stackPattern (reg : String) : Regex :=
  lit ('[' :: (reg.toList ++ ['(']))
    (seq (group 1 (seq (opt (char fun c => c = '-')) (plus isDigit))) (lit ")]".toList empty))

def physicalPatterns : Arch → List Regex
  | .kX86_64 =>
    [lit ['R'] (seq (char (oneOf "ABCDS")) (char (oneOf "IPX"))),
     lit ['R'] (seq (plus isDigit) (opt (char (oneOf "BWD")))),
     lit ['E'] (seq (char (oneOf "ABCDS")) (char (oneOf "IPX"))),
     seq (char (oneOf "ABCD")) (lit ['L'] empty),
     seq (char (oneOf "ABCDS")) (seq (char (oneOf "IPX")) (opt (lit ['L'] empty)))]
  | .kAarch64 => [seq (char (oneOf "XWD")) (plus isDigit)]

def patterns (arch : Arch) : List PatternType :=
  [⟨lit "Function:".toList (seq (star anyChar) (lit ['\n'] empty)), .kFunctionStart⟩,
   ⟨lit "BB %".toList (seq (group 1 (plus isDigit))
      (seq (opt (group 2 (lit " - ".toList (star anyChar)))) (lit ['\n'] empty))),
    .kBasicBlockStart⟩,
   ⟨lit ['\n'] empty, .kNewLine⟩,
   ⟨numberAfter "%", .kVReg⟩] ++
  (physicalPatterns arch).map (⟨·, .kPhyReg⟩) ++
  [⟨lit "XMM".toList (plus isDigit), .kPhyReg⟩] ++
  (if arch = .kAarch64 then [⟨stackPattern "X29", .kStack⟩] else []) ++
  [⟨stackPattern "RBP", .kStack⟩,
   ⟨lit ['['] (seq (group 1 (lit "0x".toList (plus isHexDigit))) (lit [']'] empty)),
    .kAddress⟩,
   ⟨seq (group 1 (plus isDigit))
      (opt (group 2 (lit "(0x".toList (seq (plus isHexDigit) (lit [')'] empty))))),
    .kImmediate⟩,
   ⟨numberAfter "BB%", .kBasicBlockRef⟩,
   ⟨seq (char isIdStart) (plus isIdPart), .kId⟩,
   ⟨lit ['='] empty, .kEqual⟩,
   ⟨lit [','] empty, .kComma⟩,
   ⟨lit ['('] empty, .kParLeft⟩,
   ⟨lit [')'] empty, .kParRight⟩,
   ⟨lit ['#'] (seq (star anyChar) (lit ['\n'] empty)), .kComment⟩,
   ⟨lit [':'] (plus isAlnum), .kDataType⟩,
   ⟨lit ['['] (seq (star fun c => c ≠ ']') (lit [']'] empty)), .kIndirect⟩,
   ⟨lit ['"'] (seq (plus fun c => c ≠ '"') (lit ['"'] empty)), .kStringLiteral⟩]

end Patterns

def Token.error : Token := ⟨.kError, 0, 0⟩

/-- The token of a match; `m.size() > 1` says that the pattern has groups. -/
def PatternType.token (pattern : PatternType) (m : Regex.Match) : Token :=
  if ¬ pattern.re.hasGroups then ⟨pattern.type, m.text.length, 0⟩
  else if pattern.type = .kImmediate then
    match fromChars (m.group 1) with
    | some bits => ⟨pattern.type, m.text.length, Int.bmod bits (2 ^ 64)⟩
    | none => Token.error
  else ⟨pattern.type, m.text.length, strtoll (m.group 1)⟩

def getNextToken (arch : Arch) (str : List Char) : Token :=
  ((patterns arch).findSome? fun pattern =>
    (pattern.re.matchPrefix str).map pattern.token).getD Token.error

section Parts

open Regex

def sectionPattern : Regex :=
  lit "- section: ".toList
    (group 1 (alt (seq (char anyChar) (lit "text".toList empty))
      (seq (char anyChar) (lit "coldtext".toList empty))))

def setSection (bbdef : List Char) : Option CodeSection :=
  match sectionPattern.search bbdef with
  | none => some .kHot
  | some m =>
    if m.group 1 = ".text".toList then some .kHot
    else if m.group 1 = ".coldtext".toList then some .kCold
    else none

def succPattern : Regex :=
  lit "- succs: %".toList
    (seq (group 1 (plus isDigit)) (opt (lit " %".toList (group 2 (plus isDigit)))))

def atoll (text : List Char) : Int :=
  min (2 ^ 63 - 1) (readDigits 10 (text.takeWhile isDigit))

def setSuccessorBlocks (bbdef : List Char) : List Int :=
  match succPattern.search bbdef with
  | none => []
  | some m =>
    toInt (atoll (m.group 1)) ::
      if m.group 2 = [] then [] else [toInt (atoll (m.group 2))]

def getOperandDataType (name : List Char) : Option DataType :=
  [DataType.k8bit, .k16bit, .k32bit, .k64bit, .kDouble, .kObject].find? fun dataType =>
    name = printType dataType

def getInstrOpcode (name : List Char) : Option Opcode :=
  (instrNames.find? fun pair => name = pair.1.toList).map Prod.snd

def isRegPart (c : Char) : Bool := isDigit c || ('A' ≤ c && c ≤ 'Z')

def baseReg : Regex :=
  lit "[%".toList (seq (group 1 (plus isDigit)) (lit [':'] (plus isAlnum)))

def basePhys : Regex :=
  lit ['['] (seq (group 1 (seq (char (oneOf "RX")) (plus isRegPart)))
    (lit ":Object".toList empty))

def factorPattern : Regex := opt (group 2 (lit " * ".toList (group 3 (plus isDigit))))

def indexReg : Regex :=
  lit "+ %".toList (seq (group 1 (plus isDigit))
    (seq (lit [':'] (plus isAlnum)) factorPattern))

def indexPhys : Regex :=
  lit "+ ".toList (seq (group 1 (seq (char (oneOf "RX")) (plus isRegPart)))
    (lit ":Object".toList factorPattern))

def offsetPattern : Regex :=
  seq (group 1 (char (oneOf "+-"))) (lit [' '] (group 2 (lit "0x".toList (plus isHexDigit))))

def lookupId (outputs : List Int) (text : List Char) : Option AddressReg :=
  (stoll text).bind fun id =>
    if toInt id ∈ outputs then some (.vreg (toInt id)) else none

def parseBase (target : Target) (outputs : List Int) (token : List Char) :
    Option (Option AddressReg × Nat) :=
  match baseReg.search token with
  | some m => (lookupId outputs (m.group 1)).map fun reg => (some reg, m.text.length)
  | none =>
    match basePhys.search token with
    | some m =>
      (parseReg target.arch (m.group 1)).map fun loc => (some (.phyReg loc), m.text.length)
    | none => none

def parseMultiplier (m : Regex.Match) : Option Nat :=
  if m.group 3 = [] then some 0
  else
    (stoll (m.group 3)).bind fun n =>
      if 0 < n ∧ n.toNat &&& (n.toNat - 1) = 0 then some (Nat.log2 n.toNat) else none

def parseIndex (target : Target) (outputs : List Int) (token : List Char) :
    Option (Option AddressReg × Nat × Nat) :=
  match indexReg.search token with
  | some m =>
    (lookupId outputs (m.group 1)).bind fun reg =>
      (parseMultiplier m).map fun multiplier =>
        (some reg, multiplier, m.text.length + 1)
  | none =>
    match indexPhys.search token with
    | some m =>
      (parseReg target.arch (m.group 1)).bind fun loc =>
        (parseMultiplier m).map fun multiplier =>
          (some (.phyReg loc), multiplier, m.text.length + 1)
    | none => some (none, 0, 0)

def parseOffset (token : List Char) : Option (Int × Nat) :=
  match offsetPattern.search token with
  | some m =>
    (stoll (m.group 1 ++ m.group 2)).map fun offset => (toInt offset, m.text.length + 1)
  | none => some (0, 0)

/-- What was found must add up to the whole token, with the bracket that closes it. -/
def parseIndirect (target : Target) (outputs : List Int) (token : List Char) :
    Option MemoryIndirect :=
  (parseBase target outputs token).bind fun (base, baseLength) =>
    (parseIndex target outputs token).bind fun (index, multiplier, indexLength) =>
      (parseOffset token).bind fun (offset, offsetLength) =>
        if 1 + baseLength + indexLength + offsetLength = token.length then
          some ⟨base, index, multiplier, offset⟩
        else none

end Parts

/-! ## The state machine -/

inductive ParseState where
  | function | basicBlock | instrOutput | instrOutputType | instrEqual | instrName
  | instrInput | instrInputType | instrInputComma | phiInputFirst | phiInputComma
  | phiInputSecond | phiInputSecondType | phiInputPar
  deriving DecidableEq, Repr

/--
The parser between two tokens.  The current block, and the current instruction in
it, are kept apart from the finished ones; `outputs` has the keys of
`output_index_map_`.
-/
structure Parser where
  state : ParseState := .function
  blocks : List BasicBlock := []
  block : Option BasicBlock := none
  instr : Option Instruction := none
  outputs : List Int := []
  deriving DecidableEq, Repr

namespace Parser

def finishInstr (p : Parser) : Parser :=
  match p.block, p.instr with
  | some block, some instr =>
    { p with
      block := some { block with instructions := block.instructions ++ [instr] }
      instr := none }
  | _, _ => p

def finishBlock (p : Parser) : Parser :=
  { p.finishInstr with
    blocks := p.blocks ++ p.finishInstr.block.toList
    block := none }

def enter (p : Parser) (state : ParseState) : Parser := { p with state := state }

def modifyInstr (p : Parser) (g : Instruction → Instruction) : Parser :=
  { p with instr := p.instr.map g }

def addInput (p : Parser) (input : Operand) : Parser :=
  p.modifyInstr fun instr => { instr with inputs := instr.inputs ++ [input] }

/-- `setDataType` on an operand that is not linked; a label's is fixed at the end. -/
def setType (dataType : DataType) : Operand → Operand
  | .value v _ => .value v dataType
  | operand => operand

def setLastType (inputs : List Operand) (dataType : DataType) : List Operand :=
  inputs.dropLast ++ (inputs.getLast?.map (setType dataType)).toList

def setOutputType (dataType : DataType) : Output → Output
  | .none => .none
  | .vreg _ => .vreg dataType
  | .value v _ => .value v dataType

section Step

variable (target : Target) (token : Token) (text : List Char) (p : Parser)

def stepBasicBlock : Option Parser :=
  if token.type = .kNewLine then some p
  else if token.type ≠ .kBasicBlockStart then none
  else
    let id := toInt token.data
    let p := p.finishBlock
    if id ∈ p.blocks.map BasicBlock.id then none
    else
      (setSection text).map fun codeSection =>
        { p.enter .instrOutput with
          block := some ⟨id, codeSection, setSuccessorBlocks text, []⟩ }

def parseValue : Option (Value × DataType) :=
  match token.type with
  | .kStack => some (.stack (toInt token.data), .kObject)
  | .kAddress => some (.mem (BitVec.ofInt 64 token.data), .kObject)
  | .kImmediate => some (.imm (BitVec.ofInt 64 token.data), .k64bit)
  | .kIndirect =>
    (parseIndirect target p.outputs text).map fun ind => (.ind ind, .kObject)
  | _ => none

def stepInstrName : Option Parser :=
  if token.type ≠ .kId then none
  else
    (getInstrOpcode text).map fun opcode =>
      (p.modifyInstr fun instr => { instr with opcode := some opcode }).enter .instrInput

def stepInstrOutput : Option Parser :=
  let p := { p with instr := some ⟨-1, none, .none, []⟩ }
  match token.type with
  | .kId => stepInstrName token text p
  | .kVReg =>
    let id := toInt token.data
    if id ∈ p.outputs then none
    else
      some { p with
        state := .instrOutputType
        instr := some ⟨id, none, .vreg .kObject, []⟩
        outputs := p.outputs ++ [id] }
  | .kPhyReg =>
    (parseReg target.arch text).map fun loc =>
      (p.modifyInstr fun instr => { instr with output := .value (.phyReg loc) .kObject }).enter
        .instrOutputType
  | _ =>
    (parseValue target token text p).map fun (v, dataType) =>
      (p.modifyInstr fun instr => { instr with output := .value v dataType }).enter
        .instrOutputType

def stepInstrEqual : Option Parser :=
  if token.type = .kEqual then some (p.enter .instrName) else none

def stepInstrOutputType : Option Parser :=
  if token.type = .kEqual then stepInstrEqual token p
  else if token.type ≠ .kDataType then none
  else
    (getOperandDataType text).map fun dataType =>
      (p.modifyInstr fun instr =>
        { instr with output := setOutputType dataType instr.output }).enter .instrEqual

def parseInput : Option Parser :=
  match token.type with
  | .kVReg => some (p.addInput (.vreg (toInt token.data)))
  | .kPhyReg =>
    (parseReg target.arch text).map fun loc => p.addInput (.value (.phyReg loc) .kObject)
  | .kBasicBlockRef => some (p.addInput (.label (toInt token.data)))
  | .kId =>
    (target.pyFunctionFromName text).map fun address =>
      p.addInput (.value (.imm address) .kObject)
  | .kStringLiteral =>
    some (p.addInput (.value (.imm (target.stringLiteral text.tail.dropLast)) .kObject))
  | _ =>
    (parseValue target token text p).map fun (v, dataType) => p.addInput (.value v dataType)

def stepInstrInput : Option Parser :=
  if token.type = .kNewLine then some (p.finishInstr.enter .instrOutput)
  else if token.type = .kParLeft then some (p.enter .phiInputFirst)
  else (parseInput target token text p).map (enter · .instrInputType)

def stepInstrInputComma : Option Parser :=
  if token.type = .kNewLine then some (p.finishInstr.enter .instrOutput)
  else if token.type = .kComma then some (p.enter .instrInput)
  else none

def stepInputType (next : ParseState) : Option Parser :=
  if token.type ≠ .kDataType ∨ (p.instr.map Instruction.inputs).getD [] = [] then none
  else
    (getOperandDataType text).map fun dataType =>
      (p.modifyInstr fun instr =>
        { instr with inputs := setLastType instr.inputs dataType }).enter next

def stepInstrInputType : Option Parser :=
  if token.type = .kComma ∨ token.type = .kNewLine then stepInstrInputComma token p
  else stepInputType token text p .instrInputComma

def stepPhiInputPar : Option Parser :=
  if token.type = .kParRight then some (p.enter .instrInputComma) else none

/-- What the parser does with one token, whose text is `text`. -/
def step : Option Parser :=
  if token.type = .kComment then some p
  else
    match p.state with
    | .function =>
      if token.type = .kNewLine then some p
      else if token.type = .kFunctionStart then some (p.enter .basicBlock)
      else none
    | .basicBlock => stepBasicBlock token text p
    | .instrOutput =>
      if token.type = .kNewLine then some p
      else if token.type = .kBasicBlockStart then stepBasicBlock token text p
      else stepInstrOutput target token text p
    | .instrOutputType => stepInstrOutputType token text p
    | .instrEqual => stepInstrEqual token p
    | .instrName => stepInstrName token text p
    | .instrInput => stepInstrInput target token text p
    | .instrInputType => stepInstrInputType token text p
    | .instrInputComma => stepInstrInputComma token p
    | .phiInputFirst =>
      if token.type = .kBasicBlockRef then
        (parseInput target token text p).map (enter · .phiInputComma)
      else none
    | .phiInputComma =>
      if token.type = .kComma then some (p.enter .phiInputSecond) else none
    | .phiInputSecond => (parseInput target token text p).map (enter · .phiInputSecondType)
    | .phiInputSecondType =>
      if token.type = .kParRight then stepPhiInputPar token p
      else stepInputType token text p .phiInputPar
    | .phiInputPar => stepPhiInputPar token p

end Step

def skipBlanks (s : List Char) : List Char := s.dropWhile fun c => c = ' ' || c = '\t'

/-- The loop of `Parser::parse`; a token takes a character at least, or is an error. -/
def drive (target : Target) : Nat → Parser → List Char → Option Parser
  | _, p, [] => some p
  | 0, _, _ :: _ => none
  | fuel + 1, p, cur =>
    let token := getNextToken target.arch cur
    (step target token (cur.take token.length) p).bind fun p =>
      drive target fuel p (skipBlanks (cur.drop token.length))

end Parser

namespace Function

def blockIds (f : Function) : List Int := f.map BasicBlock.id

def instructions (f : Function) : List Instruction := f.flatMap BasicBlock.instructions

def inputKnown (f : Function) (outputs : List Int) : Operand → Bool
  | .vreg id => id ∈ outputs
  | .label block => block ∈ f.blockIds
  | .value _ _ => true

def fixOperands (f : Function) (outputs : List Int) : Bool :=
  f.instructions.all fun instr => instr.inputs.all (f.inputKnown outputs)

def connectBasicBlocks (f : Function) : Bool :=
  f.all fun block => block.successors.all (· ∈ f.blockIds)

def largestId (f : Function) : Int :=
  (f.blockIds ++ f.instructions.map Instruction.id).foldl max (-1)

end Function

def assignIds : Int → List Instruction → List Instruction × Int
  | next, [] => ([], next)
  | next, instr :: rest =>
    if instr.id = -1 then
      let later := assignIds (next + 1) rest
      ({ instr with id := next } :: later.1, later.2)
    else
      let later := assignIds next rest
      (instr :: later.1, later.2)

def assignBlockIds : Int → Function → Function
  | _, [] => []
  | next, block :: rest =>
    let instrs := assignIds next block.instructions
    { block with instructions := instrs.1 } :: assignBlockIds instrs.2 rest

def fixUnknownIds (f : Function) : Function := assignBlockIds (f.largestId + 1) f

def parse (target : Target) (code : List Char) : Option Function :=
  (Parser.drive target code.length {} code).bind fun p =>
    let f := p.finishBlock.blocks
    if p.state ≠ .function ∧ Function.fixOperands f p.outputs ∧
        Function.connectBasicBlocks f then
      some (fixUnknownIds f)
    else none

end CinderX.Jit.Lir.Text
