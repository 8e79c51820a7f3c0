import CinderX.Foundation.Fold
import CinderX.Jit.Lir.Function

/-!
# Second results of calls

`rewriteLoadSecondCallResult` and what it calls: the second return register is moved to a virtual
register behind each call that a `LoadSecondCallResult` asks about, and parallel phis join these.
A function is `none` where a check of the source fails.  Phis whose inputs are not linked have no
result here.
-/

namespace CinderX.Jit.Lir.SecondCallResult

open List Option

namespace Instr

variable (instr : Instruction)

def isCallLike : Bool := instr.opcode = .kCall || instr.opcode = .kLoadMethodCachedFastPath

def isLoadSecondCallResult : Bool := instr.opcode = .kLoadSecondCallResult

def movesSecond (second : Nat) : Bool :=
  instr.opcode = .kMove && match instr.inputs with
    | [input] => input.kind = .phyReg second
    | _ => false

def defines (v : VReg) : Bool := instr.output = .vreg v

end Instr

def behind (instrs : List Instruction) (src : VReg) : Option Instruction :=
  (instrs.dropWhile fun instr => !Instr.defines instr src)[1]?

def define? (input : Input) : Option VReg :=
  match input.kind with
  | .vreg operand => some operand.define
  | _ => none

/-- The function, the next virtual register, the next number of an operand, and what has been
found for the sources so far. -/
structure State where
  blocks : List BasicBlock
  dataType : VReg → DataType
  nextVReg : VReg
  nextOperand : Nat
  seen_srcs : List (VReg × VReg) := []

namespace State

variable (s : State)

def instrs : List Instruction := s.blocks.flatMap BasicBlock.instrs

def mapInstrs (change : List Instruction → List Instruction) : State :=
  { s with blocks := s.blocks.map fun bb => { bb with instrs := change bb.instrs } }

def instr? (src : VReg) : Option Instruction := s.instrs.find? (Instr.defines · src)

def next? (src : VReg) : Option Instruction := s.blocks.findSome? fun bb => behind bb.instrs src

def removeInstr (v : VReg) : State := s.mapInstrs (filter fun instr => !Instr.defines instr v)

def insertAfter (src : VReg) (new : Instruction) : State :=
  s.mapInstrs (flatMap fun instr => if Instr.defines instr src then [instr, new] else [instr])

def addOperands (v : VReg) (operands : List Input) : State :=
  s.mapInstrs (List.map fun instr =>
    if Instr.defines instr v then { instr with inputs := instr.inputs ++ operands } else instr)

/-- `instr`, or a new instruction, behind the one that defines the source. -/
def placeAfter (data_type : DataType) (src : VReg) (instr : Option VReg) (new_op : Opcode) :
    VReg × State :=
  match instr with
  | some v => (v, (s.removeInstr v).insertAfter src ⟨new_op, .vreg v, []⟩)
  | none => (s.nextVReg,
      { s with
        dataType := Function.update s.dataType s.nextVReg data_type
        nextVReg := s.nextVReg + 1 }.insertAfter src ⟨new_op, .vreg s.nextVReg, []⟩)

end State

/-- `get` is the function below. -/
def populateLoadSecondCallResultPhi (get : VReg → State → Option (VReg × State))
    (data_type : DataType) (phi2 : VReg) : List Input → State → Option State
  | label :: value :: rest, s => do
      let src1 ← define? value
      let (instr2, s) ← get src1 s
      populateLoadSecondCallResultPhi get data_type phi2 rest
        { s.addOperands phi2 [label, ⟨.vreg ⟨s.nextOperand, instr2⟩, data_type⟩] with
          nextOperand := s.nextOperand + 1 }
  | _, s => some s

/-- At most so many sources are looked at inside one another. -/
def getSecondCallResult (second : Nat) (data_type : DataType) :
    Nat → Option VReg → VReg → State → Option (VReg × State)
  | 0, _, _, _ => none
  | fuel + 1, instr, src, s =>
    match s.seen_srcs.lookup src with
    | some instr2 => some (instr2, s)
    | none => do
        let src_instr ← s.instr? src
        let src_is_call_like := Instr.isCallLike src_instr
        if !(src_is_call_like || src_instr.isPhi) then none
        else if src_is_call_like && (s.next? src).any (Instr.movesSecond · second) then none
        else
          let (instr2, s) := s.placeAfter data_type src instr
            (if src_is_call_like then .kMove else .kPhi)
          let s := { s with seen_srcs := (src, instr2) :: s.seen_srcs }
          if src_is_call_like then
            return (instr2, s.addOperands instr2 [⟨.phyReg second, data_type⟩])
          else do
            let s ← populateLoadSecondCallResultPhi
              (getSecondCallResult second data_type fuel none) data_type instr2 src_instr.inputs s
            return (instr2, s)

/-- Each source that is looked at inside another one has an instruction of its own. -/
def rewriteLoadSecondCallResult (second : Nat) (instr : Instruction) (s : State) : Option State :=
  match instr.output, instr.inputs with
  | .vreg v, input :: _ => do
      let src ← define? input
      let (_, s) ← getSecondCallResult second (s.dataType v) (s.instrs.length + 1) (some v) src
        { s with seen_srcs := [] }
      return s
  | _, _ => none

def rewriteAll (second : Nat) : Nat → State → Option State
  | 0, s => if s.instrs.any Instr.isLoadSecondCallResult then none else some s
  | fuel + 1, s =>
    match s.instrs.find? Instr.isLoadSecondCallResult with
    | none => some s
    | some instr => do rewriteAll second fuel (← rewriteLoadSecondCallResult second instr s)

/-! ## Functions with parallel instructions -/

structure Parallel where
  vreg : VReg
  opcode : Opcode
  inputs : List Input

def Parallel.instr (p : Parallel) : Instruction := ⟨p.opcode, .vreg p.vreg, p.inputs⟩

def parallels (par : VReg → List Parallel) (instr : Instruction) : List Instruction :=
  match instr.output with
  | .vreg w => (par w).map Parallel.instr
  | _ => []

def renderInstrs (par : VReg → List Parallel) (instrs : List Instruction) : List Instruction :=
  instrs.flatMap fun instr => instr :: parallels par instr

def render (par : VReg → List Parallel) (blocks : List BasicBlock) : List BasicBlock :=
  blocks.map fun bb => { bb with instrs := renderInstrs par bb.instrs }

variable {par : VReg → List Parallel} {instrs : List Instruction} {instr : Instruction}
  {blocks : List BasicBlock} {s : State} {v w src : VReg} {second : Nat}

theorem Instr.defines_iff : Instr.defines instr v = true ↔ instr.output = .vreg v := by
  simp [Instr.defines]

@[simp]
theorem Instr.defines_parallel (p : Parallel) : Instr.defines p.instr v = decide (p.vreg = v) := by
  simp [Instr.defines, Parallel.instr]

variable {other : Instruction}

theorem exists_of_mem_parallels (h : other ∈ parallels par instr) :
    ∃ w, instr.output = .vreg w ∧ ∃ p ∈ par w, other = p.instr := by
  unfold parallels at h
  split at h
  next w hw =>
    obtain ⟨p, hp, rfl⟩ := List.mem_map.mp h
    exact ⟨w, hw, p, hp, rfl⟩
  next => cases h

theorem parallels_of_defines (h : Instr.defines instr w = true) :
    parallels par instr = (par w).map Parallel.instr := by
  rw [parallels, Instr.defines_iff.mp h]

@[simp]
theorem renderInstrs_cons : renderInstrs par (instr :: instrs) =
    instr :: (parallels par instr ++ renderInstrs par instrs) := rfl

@[simp]
theorem renderInstrs_append {instrs' : List Instruction} : renderInstrs par (instrs ++ instrs') =
    renderInstrs par instrs ++ renderInstrs par instrs' := flatMap_append

theorem mem_renderInstrs : instr ∈ renderInstrs par instrs ↔
    instr ∈ instrs ∨ ∃ other ∈ instrs, instr ∈ parallels par other := by
  simp only [renderInstrs, mem_flatMap, mem_cons]
  constructor
  · rintro ⟨other, hother, rfl | hmem⟩
    · exact Or.inl hother
    · exact Or.inr ⟨other, hother, hmem⟩
  · rintro (hmem | ⟨other, hother, hmem⟩)
    · exact ⟨instr, hmem, Or.inl rfl⟩
    · exact ⟨other, hother, Or.inr hmem⟩

/-- Nothing that stands behind an instruction defines the register. -/
def Apart (par : VReg → List Parallel) (v : VReg) : Prop := ∀ w, ∀ p ∈ par w, p.vreg ≠ v

theorem Apart.not_defines (h : Apart par v) (hmem : other ∈ parallels par instr) :
    Instr.defines other v = false := by
  obtain ⟨w, -, p, hp, rfl⟩ := exists_of_mem_parallels hmem
  simpa using h w p hp

theorem insertAfter_renderInstrs (h : Apart par src) (new : Parallel) (instrs : List Instruction) :
    (renderInstrs par instrs).flatMap (fun instr =>
      if Instr.defines instr src then [instr, new.instr] else [instr]) =
        renderInstrs (Function.update par src (new :: par src)) instrs := by
  induction instrs with
  | nil => rfl
  | cons instr instrs ih =>
    have hparallels : (parallels par instr).flatMap (fun instr =>
        if Instr.defines instr src then [instr, new.instr] else [instr]) =
          parallels par instr := by
      have hsame : ∀ other ∈ parallels par instr,
          (if Instr.defines other src then [other, new.instr] else [other]) = [other] :=
        fun other hother => if_neg (by simp [h.not_defines hother])
      rw [flatMap_congr hsame, flatMap_singleton']
    rw [renderInstrs_cons, renderInstrs_cons, flatMap_cons, flatMap_append, hparallels,
      ih]
    by_cases hdefines : Instr.defines instr src = true
    · rw [if_pos hdefines, parallels_of_defines hdefines, parallels_of_defines hdefines,
        Function.update_self]
      rfl
    · have hother : parallels (Function.update par src (new :: par src)) instr =
          parallels par instr := by
        unfold parallels
        split
        next w hw =>
          rw [Function.update_of_ne]
          rintro rfl
          exact hdefines (Instr.defines_iff.mpr hw)
        next => rfl
      rw [if_neg hdefines, hother]
      rfl

def Parallel.addTo (v : VReg) (operands : List Input) (p : Parallel) : Parallel :=
  if p.vreg = v then { p with inputs := p.inputs ++ operands } else p

theorem addOperands_renderInstrs (operands : List Input)
    (h : ∀ instr ∈ instrs, Instr.defines instr v = false) :
    (renderInstrs par instrs).map (fun instr =>
      if Instr.defines instr v then { instr with inputs := instr.inputs ++ operands } else instr) =
        renderInstrs (fun w => (par w).map (Parallel.addTo v operands)) instrs := by
  induction instrs with
  | nil => rfl
  | cons instr instrs ih =>
    obtain ⟨hinstr, hrest⟩ := forall_mem_cons.mp h
    have hparallels : (parallels par instr).map (fun instr =>
        if Instr.defines instr v then { instr with inputs := instr.inputs ++ operands }
        else instr) = parallels (fun w => (par w).map (Parallel.addTo v operands)) instr := by
      unfold parallels
      split
      next w _ =>
        rw [List.map_map, List.map_map]
        refine map_congr_left fun p _ => ?_
        by_cases hp : p.vreg = v <;> simp [hp, Parallel.addTo, Parallel.instr, Instr.defines]
      next => rfl
    rw [renderInstrs_cons, renderInstrs_cons, map_cons, map_append, hparallels, ih hrest,
      if_neg (by simp [hinstr])]

theorem removeInstr_renderInstrs (h : Apart par v) (hnil : par v = []) (instrs : List Instruction) :
    (renderInstrs par instrs).filter (fun instr => !Instr.defines instr v) =
      renderInstrs par (instrs.filter fun instr => !Instr.defines instr v) := by
  induction instrs with
  | nil => rfl
  | cons instr instrs ih =>
    have hparallels : (parallels par instr).filter (fun instr => !Instr.defines instr v) =
        parallels par instr :=
      filter_eq_self.mpr fun other hother => by simp [h.not_defines hother]
    rw [renderInstrs_cons, filter_cons, filter_append, hparallels, ih, filter_cons]
    by_cases hdefines : Instr.defines instr v = true
    · rw [if_neg (by simp [hdefines]), if_neg (by simp [hdefines]),
        parallels_of_defines hdefines, hnil]
      rfl
    · rw [if_pos (by simp [hdefines]), if_pos (by simp [hdefines]), renderInstrs_cons]

theorem find?_renderInstrs {p : Instruction → Bool}
    (h : ∀ instr ∈ instrs, ∀ other ∈ parallels par instr, p other = false) :
    (renderInstrs par instrs).find? p = instrs.find? p := by
  induction instrs with
  | nil => rfl
  | cons instr instrs ih =>
    obtain ⟨hinstr, hrest⟩ := forall_mem_cons.mp h
    have hnone : (parallels par instr).find? p = none :=
      find?_eq_none.mpr fun other hother => by simp [hinstr other hother]
    rw [renderInstrs_cons, find?_cons, find?_append, hnone, ih hrest, find?_cons]
    cases p instr <;> rfl

theorem behind_cons : behind (instr :: instrs) src =
    if Instr.defines instr src then instrs.head? else behind instrs src := by
  unfold behind
  by_cases hdefines : Instr.defines instr src = true
  · rw [dropWhile_cons_of_neg (by simp [hdefines]), if_pos hdefines]
    cases instrs <;> rfl
  · rw [dropWhile_cons_of_pos (by simp [hdefines]), if_neg hdefines]

theorem behind_renderInstrs (h : Apart par src) (hnil : par src = []) :
    behind (renderInstrs par instrs) src = behind instrs src := by
  induction instrs with
  | nil => rfl
  | cons instr instrs ih =>
    rw [renderInstrs_cons, behind_cons, behind_cons]
    by_cases hdefines : Instr.defines instr src = true
    · rw [if_pos hdefines, if_pos hdefines, parallels_of_defines hdefines, hnil]
      cases instrs <;> rfl
    · rw [if_neg hdefines, if_neg hdefines, ← ih, behind, behind, dropWhile_append_of_pos]
      exact fun other hother => by simp [h.not_defines hother]

/-! ## One register -/

def instrsOf (blocks : List BasicBlock) : List Instruction := blocks.flatMap BasicBlock.instrs

def outputsOf (blocks : List BasicBlock) : List VReg :=
  (instrsOf blocks).filterMap fun instr =>
    match instr.output with
    | .vreg v => some v
    | _ => none

theorem mem_outputsOf : v ∈ outputsOf blocks ↔ ∃ instr ∈ instrsOf blocks, Instr.defines instr v =
    true := by
  rw [outputsOf, mem_filterMap]
  refine exists_congr fun instr => and_congr_right fun _ => ?_
  rw [Instr.defines_iff]
  split <;> simp_all

theorem instrsOf_render : instrsOf (render par blocks) = renderInstrs par (instrsOf blocks) := by
  induction blocks with
  | nil => rfl
  | cons bb blocks ih =>
    have hsplit : instrsOf (bb :: blocks) = bb.instrs ++ instrsOf blocks := rfl
    rw [hsplit, renderInstrs_append, ← ih]
    rfl

inductive Linked (web : VReg → Prop) : List Input → Prop
  | nil : Linked web []
  | cons {label value : Input} {rest : List Input} {x : VReg} (hx : define? value = some x)
      (hweb : web x) (h : Linked web rest) : Linked web (label :: value :: rest)

inductive Mirrors (names : VReg → Option VReg) : List Input → List Input → Prop
  | nil : Mirrors names [] []
  | cons {label value value' : Input} {rest rest' : List Input} {x v : VReg}
      (hx : define? value = some x) (hname : names x = some v) (hv : define? value' = some v)
      (h : Mirrors names rest rest') :
      Mirrors names (label :: value :: rest) (label :: value' :: rest')

variable {names names' : VReg → Option VReg}

theorem Mirrors.mono {inputs inputs' : List Input} (h : Mirrors names inputs inputs')
    (hnames : ∀ x v, names x = some v → names' x = some v) : Mirrors names' inputs inputs' := by
  induction h with
  | nil => exact .nil
  | cons hx hname hv _ ih => exact .cons hx (hnames _ _ hname) hv ih

def namesOf (par : VReg → Option Parallel) (w : VReg) : Option VReg := (par w).map Parallel.vreg

def Closed (second : Nat) (base : List BasicBlock) (names : VReg → Option VReg) (w : VReg)
    (p : Parallel) : Prop :=
  ∃ instr ∈ instrsOf base, Instr.defines instr w = true ∧
    (Instr.isCallLike instr = true ∧ p.opcode = .kMove ∧
        (∃ type, p.inputs = [⟨.phyReg second, type⟩]) ∨
      instr.isPhi = true ∧ p.opcode = .kPhi ∧ Mirrors names instr.inputs p.inputs)

variable {base : List BasicBlock}

theorem Closed.mono {p : Parallel} (h : Closed second base names w p)
    (hnames : ∀ x v, names x = some v → names' x = some v) : Closed second base names' w p := by
  obtain ⟨instr, hinstr, hdefines, hcall | ⟨hphi, hopcode, hmirrors⟩⟩ := h
  · exact ⟨instr, hinstr, hdefines, Or.inl hcall⟩
  · exact ⟨instr, hinstr, hdefines, Or.inr ⟨hphi, hopcode, hmirrors.mono hnames⟩⟩

def NoSecond (second : Nat) (blocks : List BasicBlock) (w : VReg) : Prop :=
  ∀ call ∈ instrsOf blocks, Instr.defines call w = true → Instr.isCallLike call = true →
    ∀ bb ∈ blocks, ∀ other, behind bb.instrs w = some other → Instr.movesSecond other second = false

/-- The registers that can be looked at: calls that nothing has been done for, and phis of them. -/
structure Web (second : Nat) (base : List BasicBlock) (bg : VReg → List Parallel)
    (web : VReg → Prop) : Prop where
  unique : (outputsOf base).Nodup
  apart : ∀ v ∈ outputsOf base, Apart bg v
  noSecond : ∀ w, web w → NoSecond second base w
  source : ∀ w, web w → ∃ instr ∈ instrsOf base, Instr.defines instr w = true ∧
    (Instr.isCallLike instr = true ∧ bg w = [] ∨ instr.isPhi = true ∧ Linked web instr.inputs)

/-- The parallel instructions so far: those of this rewrite, and those of earlier ones. -/
structure Progress (base : List BasicBlock) (bg : VReg → List Parallel)
    (par : VReg → Option Parallel) (s : State) : Prop where
  blocks : s.blocks = render (fun w => (par w).toList ++ bg w) base
  seen : ∀ w, s.seen_srcs.lookup w = namesOf par w
  fresh : ∀ w p, par w = some p →
    p.vreg < s.nextVReg ∧ p.vreg ∉ outputsOf base ∧ Apart bg p.vreg
  inj : ∀ w w' p p', par w = some p → par w' = some p' → p.vreg = p'.vreg → w = w'
  below : ∀ v ∈ outputsOf base, v < s.nextVReg
  bgBelow : ∀ w, ∀ p ∈ bg w, p.vreg < s.nextVReg

namespace Progress

variable {base : List BasicBlock} {bg : VReg → List Parallel} {par : VReg → Option Parallel}
  {op : Opcode} {p : Parallel}

theorem apart (h : Progress base bg par s) (hv : v ∈ outputsOf base) (hbg : Apart bg v) :
    Apart (fun w => (par w).toList ++ bg w) v := by
  intro w p hp
  rcases mem_append.mp hp with hp | hp
  · rintro rfl
    exact (h.fresh w p (by simpa using hp)).2.1 hv
  · exact hbg w p hp

theorem blocks_insertAfter (hblocks : s.blocks = render (fun w => (par w).toList ++ bg w) base)
    (hapart : Apart (fun w => (par w).toList ++ bg w) src) (hnone : par src = none)
    (new : Parallel) :
    (s.insertAfter src new.instr).blocks =
      render (fun w => (Function.update par src (some new) w).toList ++ bg w) base := by
  have hpar : Function.update (fun w => (par w).toList ++ bg w) src
      (new :: ((par src).toList ++ bg src)) =
        fun w => (Function.update par src (some new) w).toList ++ bg w := by
    funext w
    by_cases hw : w = src
    · subst hw
      simp [hnone]
    · simp [Function.update_of_ne hw]
  simp only [State.insertAfter, State.mapInstrs, hblocks, render, List.map_map]
  refine map_congr_left fun bb _ => ?_
  simp only [Function.comp_apply, insertAfter_renderInstrs hapart, hpar]

variable (op) in
theorem placed (hblocks : s.blocks = render (fun w => (par w).toList ++ bg w) base)
    (hseen : ∀ w, s.seen_srcs.lookup w = namesOf par w)
    (hfresh : ∀ w p, par w = some p →
      p.vreg < s.nextVReg ∧ p.vreg ∉ outputsOf base ∧ Apart bg p.vreg ∧ p.vreg ≠ v)
    (hinj : ∀ w w' p p', par w = some p → par w' = some p' → p.vreg = p'.vreg → w = w')
    (hbelow : ∀ u ∈ outputsOf base, u < s.nextVReg) (hbg : ∀ w, ∀ p ∈ bg w, p.vreg < s.nextVReg)
    (hapart : Apart (fun w => (par w).toList ++ bg w) src) (hnone : par src = none)
    (hv : v < s.nextVReg ∧ v ∉ outputsOf base ∧ Apart bg v) :
    Progress base bg (Function.update par src (some ⟨v, op, []⟩))
      { s.insertAfter src ⟨op, .vreg v, []⟩ with seen_srcs := (src, v) :: s.seen_srcs } where
  blocks := blocks_insertAfter hblocks hapart hnone ⟨v, op, []⟩
  seen w := by
    unfold namesOf
    by_cases hw : w = src
    · subst hw
      simp
    · have hlookup : ((src, v) :: s.seen_srcs).lookup w = s.seen_srcs.lookup w := by
        rw [lookup_cons, beq_false_of_ne hw]
      rw [Function.update_of_ne hw]
      exact hlookup.trans (hseen w)
  fresh w p hp := by
    by_cases hw : w = src
    · subst hw
      obtain rfl : (⟨v, op, []⟩ : Parallel) = p := by simpa using hp
      exact hv
    · rw [Function.update_of_ne hw] at hp
      obtain ⟨hlt, hnot, hapart, -⟩ := hfresh w p hp
      exact ⟨hlt, hnot, hapart⟩
  inj w w' p p' hp hp' hsame := by
    by_cases hw : w = src <;> by_cases hw' : w' = src
    · rw [hw, hw']
    · subst hw
      obtain rfl : (⟨v, op, []⟩ : Parallel) = p := by simpa using hp
      rw [Function.update_of_ne hw'] at hp'
      exact absurd hsame.symm (hfresh w' p' hp').2.2.2
    · subst hw'
      obtain rfl : (⟨v, op, []⟩ : Parallel) = p' := by simpa using hp'
      rw [Function.update_of_ne hw] at hp
      exact absurd hsame (hfresh w p hp).2.2.2
    · rw [Function.update_of_ne hw] at hp
      rw [Function.update_of_ne hw'] at hp'
      exact hinj w w' p p' hp hp' hsame
  below := hbelow
  bgBelow := hbg

theorem addOperands (h : Progress base bg par s) (hp : par src = some p) (operands : List Input) :
    Progress base bg (Function.update par src (some { p with inputs := p.inputs ++ operands }))
      (s.addOperands p.vreg operands) := by
  obtain ⟨hlt, hnot, hapart⟩ := h.fresh src p hp
  have hpar : (fun w => ((par w).toList ++ bg w).map (Parallel.addTo p.vreg operands)) =
      fun w => (Function.update par src (some { p with inputs := p.inputs ++ operands }) w).toList
        ++
        bg w := by
    funext w
    have hbg : (bg w).map (Parallel.addTo p.vreg operands) = bg w :=
      (map_congr_left fun q hq => if_neg (hapart w q hq)).trans (List.map_id _)
    rw [map_append, hbg]
    by_cases hw : w = src
    · subst hw
      simp [hp, Parallel.addTo]
    · rw [Function.update_of_ne hw]
      cases hq : par w with
      | none => rfl
      | some q =>
        have hne : q.vreg ≠ p.vreg := fun hsame => hw (h.inj w src q p hq hp hsame)
        simp [Parallel.addTo, hne]
  have hbase : ∀ bb ∈ base, ∀ instr ∈ bb.instrs, Instr.defines instr p.vreg = false := by
    intro bb hbb instr hinstr
    refine Bool.eq_false_iff.mpr fun hdefines => hnot ?_
    exact mem_outputsOf.mpr ⟨instr, mem_flatMap.mpr ⟨bb, hbb, hinstr⟩, hdefines⟩
  have hvreg : ∀ w q, Function.update par src (some { p with inputs := p.inputs ++ operands }) w =
      some q → ∃ q', par w = some q' ∧ q'.vreg = q.vreg := by
    intro w q hq
    by_cases hw : w = src
    · subst hw
      obtain rfl : ({ p with inputs := p.inputs ++ operands } : Parallel) = q := by simpa using hq
      exact ⟨p, hp, rfl⟩
    · rw [Function.update_of_ne hw] at hq
      exact ⟨q, hq, rfl⟩
  refine ⟨?_, fun w => ?_, fun w q hq => ?_, fun w w' q q' hq hq' hsame => ?_, h.below, h.bgBelow⟩
  · simp only [State.addOperands, State.mapInstrs, h.blocks, render, List.map_map]
    refine map_congr_left fun bb hbb => ?_
    simp only [Function.comp_apply, addOperands_renderInstrs operands (hbase bb hbb), hpar]
  · refine (h.seen w).trans ?_
    unfold namesOf
    by_cases hw : w = src
    · subst hw
      simp [hp]
    · rw [Function.update_of_ne hw]
  · obtain ⟨q', hq', hsame⟩ := hvreg w q hq
    exact hsame ▸ h.fresh w q' hq'
  · obtain ⟨r, hr, hrq⟩ := hvreg w q hq
    obtain ⟨r', hr', hrq'⟩ := hvreg w' q' hq'
    exact h.inj w w' r r' hr hr' (hrq.trans (hsame.trans hrq'.symm))

end Progress

/-! ## Looking at a register -/

theorem eq_of_defines (h : (outputsOf blocks).Nodup) (hinstr : instr ∈ instrsOf blocks)
    (hother : other ∈ instrsOf blocks) (hdefines : Instr.defines instr v = true)
    (hdefines' : Instr.defines other v = true) : instr = other := by
  refine Foundation.eq_of_nodup_filterMap h hinstr hother (b := v) ?_ ?_
  · simp [Instr.defines_iff.mp hdefines]
  · simp [Instr.defines_iff.mp hdefines']

theorem State.instr?_eq (hblocks : s.blocks = render par blocks) (hapart : Apart par src)
    (hunique : (outputsOf blocks).Nodup) (hinstr : instr ∈ instrsOf blocks)
    (hdefines : Instr.defines instr src = true) : s.instr? src = some instr := by
  have hinstrs : s.instrs = renderInstrs par (instrsOf blocks) := by
    rw [← instrsOf_render, ← hblocks]
    rfl
  rw [State.instr?, hinstrs, find?_renderInstrs fun _ _ _ hother => hapart.not_defines hother]
  cases hfind : (instrsOf blocks).find? (Instr.defines · src) with
  | none => simpa [hdefines] using find?_eq_none.mp hfind instr hinstr
  | some other =>
    have hother : Instr.defines other src = true :=
      find?_some (p := fun instr => Instr.defines instr src) hfind
    rw [eq_of_defines hunique hinstr (mem_of_find?_eq_some hfind) hdefines hother]

theorem State.next?_eq (hblocks : s.blocks = render par blocks) (hapart : Apart par src)
    (hnil : par src = []) (hnext : s.next? src = some instr) :
    ∃ bb ∈ blocks, behind bb.instrs src = some instr := by
  rw [State.next?, hblocks, render, findSome?_map] at hnext
  obtain ⟨bb, hbb, hfound⟩ := exists_of_findSome?_eq_some hnext
  exact ⟨bb, hbb, (behind_renderInstrs hapart hnil).symm.trans hfound⟩

structure Grows (second : Nat) (base : List BasicBlock) (web : VReg → Prop)
    (par par' : VReg → Option Parallel) : Prop where
  kept : ∀ w p, par w = some p → par' w = some p
  new : ∀ w p, par w = none → par' w = some p → web w ∧ Closed second base (namesOf par') w p

def remaining (base : List BasicBlock) (par : VReg → Option Parallel) : Nat :=
  (outputsOf base).countP fun w => (par w).isNone

theorem remaining_le {par par' : VReg → Option Parallel}
    (h : ∀ w p, par w = some p → ∃ p', par' w = some p') :
    remaining base par' ≤ remaining base par := by
  refine countP_mono_left fun w _ hw => ?_
  cases hp : par w with
  | none => rfl
  | some p =>
    obtain ⟨p', hp'⟩ := h w p hp
    simp [hp'] at hw

theorem remaining_update_lt {par : VReg → Option Parallel} (hmem : src ∈ outputsOf base)
    (hnone : par src = none) (p : Parallel) :
    remaining base (Function.update par src (some p)) < remaining base par := by
  unfold remaining
  generalize outputsOf base = outputs at hmem
  induction outputs with
  | nil => cases hmem
  | cons x outputs ih =>
    have hle : outputs.countP (fun w => (Function.update par src (some p) w).isNone) ≤
        outputs.countP fun w => (par w).isNone := by
      refine countP_mono_left fun w _ hw => ?_
      by_cases hsame : w = src
      · simp [hsame] at hw
      · simpa [Function.update_of_ne hsame] using hw
    rw [countP_cons, countP_cons]
    by_cases hx : x = src
    · simp only [hx, Function.update_self, hnone, isNone_some, isNone_none,
        Bool.false_eq_true, if_true, if_false]
      omega
    · have hlt := ih ((mem_cons.mp hmem).resolve_left (Ne.symm hx))
      rw [Function.update_of_ne hx]
      omega

/-- What is to be shown of the function for so many sources inside one another. -/
def GetSpec (second : Nat) (base : List BasicBlock) (bg : VReg → List Parallel) (web : VReg → Prop)
    (get : VReg → State → Option (VReg × State)) (fuel : Nat) : Prop :=
  ∀ src s par, Progress base bg par s → web src → remaining base par < fuel →
    ∃ v s' par', get src s = some (v, s') ∧ Progress base bg par' s' ∧
      Grows second base web par par' ∧ namesOf par' src = some v

section Spec

variable {base : List BasicBlock} {bg : VReg → List Parallel} {web : VReg → Prop} {fuel : Nat}
  {data_type : DataType} {get : VReg → State → Option (VReg × State)}

variable (data_type) in
theorem populate_spec (hget : GetSpec second base bg web get fuel) {inputs : List Input}
    (hlinked : Linked web inputs) {p : Parallel} {par : VReg → Option Parallel}
    (h : Progress base bg par s) (hp : par src = some p) (hfuel : remaining base par < fuel) :
    ∃ s' par' inputs', populateLoadSecondCallResultPhi get data_type p.vreg inputs s = some s' ∧
      Progress base bg par' s' ∧ par' src = some { p with inputs := p.inputs ++ inputs' } ∧
      Mirrors (namesOf par') inputs inputs' ∧
      (∀ w ≠ src, ∀ q, par w = some q → par' w = some q) ∧
      ∀ w ≠ src, ∀ q, par w = none → par' w = some q →
        web w ∧ Closed second base (namesOf par') w q := by
  induction hlinked generalizing s par p with
  | nil =>
    refine ⟨s, par, [], rfl, h, ?_, .nil, fun _ _ _ hq => hq, fun w _ q hnone hq => ?_⟩
    · rw [hp, append_nil]
    · rw [hnone] at hq
      cases hq
  | @cons label value rest x hx hweb _ ih =>
    obtain ⟨v, s₁, par₁, hcall, h₁, hgrows, hname⟩ := hget x s par h hweb hfuel
    have hp₁ := hgrows.kept src p hp
    obtain ⟨operands, hoperands⟩ : ∃ operands : List Input,
        operands = [label, ⟨.vreg ⟨s₁.nextOperand, v⟩, data_type⟩] := ⟨_, rfl⟩
    obtain ⟨par₂, hpar₂⟩ : ∃ par₂, par₂ =
        Function.update par₁ src (some { p with inputs := p.inputs ++ operands }) := ⟨_, rfl⟩
    have h₂ : Progress base bg par₂
        { s₁.addOperands p.vreg operands with nextOperand := s₁.nextOperand + 1 } := by
      have hadded := h₁.addOperands hp₁ operands
      rw [← hpar₂] at hadded
      exact ⟨hadded.blocks, hadded.seen, hadded.fresh, hadded.inj, hadded.below, hadded.bgBelow⟩
    have hp₂ : par₂ src = some { p with inputs := p.inputs ++ operands } := by
      rw [hpar₂, Function.update_self]
    have hother : ∀ w ≠ src, par₂ w = par₁ w := fun w hw => by
      rw [hpar₂, Function.update_of_ne hw]
    have hnames : namesOf par₂ = namesOf par₁ := by
      funext w
      by_cases hw : w = src
      · subst hw
        simp [namesOf, hp₂, hp₁]
      · simp [namesOf, hother w hw]
    have hfuel₂ : remaining base par₂ < fuel := by
      refine Nat.lt_of_le_of_lt (remaining_le fun w q hq => ?_) hfuel
      by_cases hw : w = src
      · exact ⟨_, hw ▸ hp₂⟩
      · exact ⟨q, (hother w hw).trans (hgrows.kept w q hq)⟩
    obtain ⟨s', par', inputs', hrest, h', hp', hmirrors, hkept, hnew⟩ := ih h₂ hp₂ hfuel₂
    have hnames' : ∀ y u, namesOf par₁ y = some u → namesOf par' y = some u := by
      intro y u hy
      rw [← hnames] at hy
      obtain ⟨q, hq, rfl⟩ := map_eq_some_iff.mp hy
      by_cases hw : y = src
      · subst hw
        obtain rfl := Option.some.inj (hp₂.symm.trans hq)
        simp [namesOf, hp']
      · simp [namesOf, hkept y hw q hq]
    refine ⟨s', par', label :: ⟨.vreg ⟨s₁.nextOperand, v⟩, data_type⟩ :: inputs', ?_, h', ?_,
      .cons hx (hnames' x v hname) rfl hmirrors, fun w hw q hq => ?_, fun w hw q hnone hq => ?_⟩
    · simp only [populateLoadSecondCallResultPhi, hx, hcall, bind_eq_bind, bind_some,
        ← hoperands]
      exact hrest
    · rw [hp', hoperands, append_assoc]
      rfl
    · exact hkept w hw q ((hother w hw).trans (hgrows.kept w q hq))
    · cases hq₁ : par₁ w with
      | none => exact hnew w hw q ((hother w hw).trans hq₁) hq
      | some q₁ =>
        obtain rfl := Option.some.inj
          ((hkept w hw q₁ ((hother w hw).trans hq₁)).symm.trans hq)
        obtain ⟨hw', hclosed⟩ := hgrows.new w q₁ hnone hq₁
        exact ⟨hw', hclosed.mono hnames'⟩

variable (data_type) in
theorem finish_spec (hget : GetSpec second base bg web get fuel)
    (hinstr : instr ∈ instrsOf base) (hdefines : Instr.defines instr src = true)
    (hkind : Instr.isCallLike instr = true ∨
      Instr.isCallLike instr = false ∧ instr.isPhi = true ∧ Linked web instr.inputs)
    {par : VReg → Option Parallel} (h : Progress base bg par s)
    (hpar : par src =
      some ⟨v, if Instr.isCallLike instr then .kMove else .kPhi, []⟩)
    (hfuel : remaining base par < fuel) :
    ∃ s' par' p', (if Instr.isCallLike instr then
        some (v, s.addOperands v [⟨.phyReg second, data_type⟩])
      else do
        let s ← populateLoadSecondCallResultPhi get data_type v instr.inputs s
        return (v, s)) = some (v, s') ∧ Progress base bg par' s' ∧
      par' src = some p' ∧ p'.vreg = v ∧ Closed second base (namesOf par') src p' ∧
      (∀ w ≠ src, ∀ q, par w = some q → par' w = some q) ∧
      ∀ w ≠ src, ∀ q, par w = none → par' w = some q →
        web w ∧ Closed second base (namesOf par') w q := by
  rcases hkind with hcall | ⟨hcall, hphi, hlinked⟩
  · rw [if_pos hcall] at hpar ⊢
    have hadded := h.addOperands hpar [⟨.phyReg second, data_type⟩]
    refine ⟨_, _, _, rfl, hadded, Function.update_self _ _ _, rfl,
      ⟨instr, hinstr, hdefines, Or.inl ⟨hcall, rfl, data_type, rfl⟩⟩, fun w hw q hq => ?_,
      fun w hw q hnone hq => ?_⟩
    · rwa [Function.update_of_ne hw]
    · rw [Function.update_of_ne hw, hnone] at hq
      cases hq
  · rw [if_neg (by simp [hcall])] at hpar ⊢
    obtain ⟨s', par', inputs', hpopulate, h', hp', hmirrors, hkept, hnew⟩ :=
      populate_spec data_type hget hlinked h hpar hfuel
    refine ⟨s', par', _, ?_, h', hp', rfl,
      ⟨instr, hinstr, hdefines, Or.inr ⟨hphi, rfl, hmirrors⟩⟩, hkept, hnew⟩
    simp only [hpopulate, bind_eq_bind, bind_some, Option.pure_def]

variable (data_type) in
theorem getSecondCallResult_succ (hweb : Web second base bg web) (hsrc : web src)
    {base' : List BasicBlock} (hsub : ∀ instr ∈ instrsOf base, instr ∈ instrsOf base')
    (hunique : (outputsOf base').Nodup)
    (hnoSecond : NoSecond second base' src)
    (hblocks : s.blocks = render par base') (hapart : Apart par src)
    (hpar : par src = bg src) (hseen : s.seen_srcs.lookup src = none) (fuel : Nat)
    (reused : Option VReg) : ∃ instr ∈ instrsOf base, Instr.defines instr src = true ∧
      (Instr.isCallLike instr = true ∨
        Instr.isCallLike instr = false ∧ instr.isPhi = true ∧ Linked web instr.inputs) ∧
      getSecondCallResult second data_type (fuel + 1) reused src s =
        (let (instr2, s) := s.placeAfter data_type src reused
          (if Instr.isCallLike instr then .kMove else .kPhi)
        let s := { s with seen_srcs := (src, instr2) :: s.seen_srcs }
        if Instr.isCallLike instr then
          some (instr2, s.addOperands instr2 [⟨.phyReg second, data_type⟩])
        else do
          let s ← populateLoadSecondCallResultPhi
            (getSecondCallResult second data_type fuel none) data_type instr2 instr.inputs s
          return (instr2, s)) := by
  obtain ⟨instr, hinstr, hdefines, hkind⟩ := hweb.source src hsrc
  have hfound := State.instr?_eq hblocks hapart hunique (hsub instr hinstr) hdefines
  have hcheck : (!(Instr.isCallLike instr || instr.isPhi)) = false := by
    rcases hkind with ⟨hcall, -⟩ | ⟨hphi, -⟩
    · simp [hcall]
    · simp [hphi]
  have hnext : (Instr.isCallLike instr && (s.next? src).any (Instr.movesSecond · second)) =
    false := by
    rcases hkind with ⟨hcall, hnil⟩ | ⟨hphi, -⟩
    · rw [hcall, Bool.true_and]
      cases hnext : s.next? src with
      | none => rfl
      | some other =>
        obtain ⟨bb, hbb, hbehind⟩ := State.next?_eq hblocks hapart (hpar.trans hnil) hnext
        exact hnoSecond instr (hsub instr hinstr) hdefines hcall bb hbb other hbehind
    · have hcall : Instr.isCallLike instr = false := by
        simp only [Instruction.isPhi, decide_eq_true_eq] at hphi
        simp [Instr.isCallLike, hphi]
      rw [hcall, Bool.false_and]
  refine ⟨instr, hinstr, hdefines, ?_, ?_⟩
  · rcases hkind with ⟨hcall, -⟩ | ⟨hphi, hlinked⟩
    · exact Or.inl hcall
    · refine Or.inr ⟨?_, hphi, hlinked⟩
      simp only [Instruction.isPhi, decide_eq_true_eq] at hphi
      simp [Instr.isCallLike, hphi]
  · rw [getSecondCallResult]
    simp only [hseen, hfound, bind_eq_bind, bind_some, hcheck, hnext,
      Bool.false_eq_true, if_false]
    rfl

variable (data_type) in
theorem get_spec (hweb : Web second base bg web) (fuel : Nat) :
    GetSpec second base bg web (getSecondCallResult second data_type fuel none) fuel := by
  induction fuel with
  | zero => exact fun _ _ _ _ _ hfuel => absurd hfuel (Nat.not_lt_zero _)
  | succ fuel ih =>
    intro src s par h hsrc hfuel
    cases hp : par src with
    | some p =>
      have hseen : s.seen_srcs.lookup src = some p.vreg := by rw [h.seen, namesOf, hp]; rfl
      refine ⟨p.vreg, s, par, by simp [getSecondCallResult, hseen], h,
        ⟨fun _ _ hq => hq, fun w q hnone hq => ?_⟩, by simp [namesOf, hp]⟩
      rw [hnone] at hq
      cases hq
    | none =>
      have hseen : s.seen_srcs.lookup src = none := by rw [h.seen, namesOf, hp]; rfl
      have hmem : src ∈ outputsOf base := by
        obtain ⟨instr, hinstr, hdefines, -⟩ := hweb.source src hsrc
        exact mem_outputsOf.mpr ⟨instr, hinstr, hdefines⟩
      have hapart := h.apart hmem (hweb.apart src hmem)
      obtain ⟨instr, hinstr, hdefines, hkind, heq⟩ :=
        getSecondCallResult_succ data_type hweb hsrc (fun _ hin => hin)
          hweb.unique (hweb.noSecond src hsrc) h.blocks hapart (by simp [hp]) hseen fuel none
      have hplaced := Progress.placed (if Instr.isCallLike instr then .kMove else .kPhi)
        (s := { s with
          dataType := Function.update s.dataType s.nextVReg data_type
          nextVReg := s.nextVReg + 1 }) (v := s.nextVReg) h.blocks h.seen
        (fun w p hw => ⟨Nat.lt_succ_of_lt (h.fresh w p hw).1, (h.fresh w p hw).2.1,
          (h.fresh w p hw).2.2, Nat.ne_of_lt (h.fresh w p hw).1⟩) h.inj
        (fun v hv => Nat.lt_succ_of_lt (h.below v hv))
        (fun w p hw => Nat.lt_succ_of_lt (h.bgBelow w p hw)) hapart hp
        ⟨Nat.lt_succ_self _, fun hv => Nat.lt_irrefl _ (h.below _ hv),
          fun w p hw => Nat.ne_of_lt (h.bgBelow w p hw)⟩
      have hless := remaining_update_lt hmem hp
        ⟨s.nextVReg, if Instr.isCallLike instr then .kMove else .kPhi, []⟩
      obtain ⟨s', par', p', hfinish, h', hp', hname, hclosed, hkept, hnew⟩ :=
        finish_spec data_type ih hinstr hdefines hkind hplaced
          (Function.update_self _ _ _) (by omega)
      refine ⟨s.nextVReg, s', par', heq.trans hfinish, h',
        ⟨fun w q hq => ?_, fun w q hnone hq => ?_⟩,
        by simp [namesOf, hp', hname]⟩
      · have hw : w ≠ src := by
          rintro rfl
          rw [hp] at hq
          cases hq
        exact hkept w hw q (by rwa [Function.update_of_ne hw])
      · by_cases hw : w = src
        · subst hw
          obtain rfl := Option.some.inj (hp'.symm.trans hq)
          exact ⟨hsrc, hclosed⟩
        · exact hnew w hw q (by rwa [Function.update_of_ne hw]) hq

end Spec

end CinderX.Jit.Lir.SecondCallResult
