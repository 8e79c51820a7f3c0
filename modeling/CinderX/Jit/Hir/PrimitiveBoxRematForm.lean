import CinderX.Jit.Hir.PrimitiveBoxRemat

/-!
# Moved boxes and SSA form

A removed box may still be the guilty register of a deopt or the iterator of a
`yield from`: the pass counts neither as a use and replaces neither.  Apart from
these, all that a function uses stays defined.
-/

namespace CinderX.Jit.Hir

open Foundation List Hir.Function Instr

variable {n : Nat} {f : Function n} {moves : List (BoxMove n)}

namespace Instr

variable (rename : Register n → Register n) (instr : Instr n)

@[simp] theorem mapFrames_opcode : (instr.mapFrames rename).opcode = instr.opcode := rfl

@[simp] theorem mapFrames_output : (instr.mapFrames rename).output = instr.output := rfl

@[simp] theorem mapFrames_operands : (instr.mapFrames rename).operands = instr.operands := rfl

@[simp] theorem mapFrames_successors : (instr.mapFrames rename).successors = instr.successors := rfl

@[simp] theorem mapFrames_basicBlocks :
    (instr.mapFrames rename).basicBlocks = instr.basicBlocks := rfl

@[simp] theorem mapFrames_isPhi : (instr.mapFrames rename).isPhi = instr.isPhi := rfl

@[simp] theorem mapFrames_isPrologueLoad :
    (instr.mapFrames rename).isPrologueLoad = instr.isPrologueLoad := rfl

@[simp] theorem mapFrames_phiOperand? (pred : BlockId) :
    (instr.mapFrames rename).phiOperand? pred = instr.phiOperand? pred := rfl

@[simp] theorem mapFrames_otherUses : (instr.mapFrames rename).otherUses = instr.otherUses := by
  cases hdeopt : instr.deopt <;> simp [mapFrames, otherUses, hdeopt]

theorem mapFrames_frameUses :
    (instr.mapFrames rename).frameUses = instr.frameUses.map rename := by
  cases hdeopt : instr.deopt <;>
    simp [mapFrames, frameUses, frames, hdeopt, uses_mapUses]

variable {rename instr} {reg : Register n}

theorem mem_visitUses :
    reg ∈ instr.visitUses ↔ reg ∈ instr.operands ∨ reg ∈ instr.frameUses ∨
      reg ∈ instr.otherUses := by
  cases hdeopt : instr.deopt with
  | none =>
    simp only [visitUses, frameUses, frames, otherUses, hdeopt, mem_append, nil_append]
    tauto
  | some info =>
    simp only [visitUses, frameUses, frames, otherUses, hdeopt, mem_append,
      flatMap_append]
    tauto

theorem length_visitUses : instr.visitUses.length =
    instr.operands.length + instr.frameUses.length + instr.otherUses.length := by
  cases hdeopt : instr.deopt with
  | none => simp [visitUses, frameUses, frames, otherUses, hdeopt, Nat.add_assoc]
  | some info =>
    simp only [visitUses, frameUses, frames, otherUses, hdeopt, length_append,
      flatMap_append]
    omega

theorem WellShaped.uses_phi (h : instr.WellShaped) (hphi : instr.isPhi = true) :
    instr.frameUses = [] ∧ instr.otherUses = [] := by
  have hlength : instr.visitUses.length = instr.operands.length + instr.frameUses.length +
      instr.otherUses.length := length_visitUses
  rw [h.phi hphi] at hlength
  exact ⟨length_eq_zero_iff.mp (by omega), length_eq_zero_iff.mp (by omega)⟩

theorem visitUses_of_frameUses (hframes : instr.frameUses = []) (hother : instr.otherUses = []) :
    instr.visitUses = instr.operands := by
  have hlength : instr.visitUses.length = instr.operands.length + instr.frameUses.length +
      instr.otherUses.length := length_visitUses
  rw [hframes, hother] at hlength
  have hsplit : ∃ rest, instr.visitUses = instr.operands ++ rest := by
    simp only [visitUses, append_assoc]
    exact ⟨_, rfl⟩
  obtain ⟨rest, hrest⟩ := hsplit
  have hnil : rest = [] := by simpa [hrest] using hlength
  rw [hrest, hnil, append_nil]

theorem WellShaped.mapFrames (h : instr.WellShaped) : (instr.mapFrames rename).WellShaped where
  output := h.output
  edges := h.edges
  phi hphi := by
    obtain ⟨hframes, hother⟩ := h.uses_phi hphi
    exact visitUses_of_frameUses (by rw [mapFrames_frameUses, hframes, map_nil])
      (by rw [mapFrames_otherUses, hother])
  phi_output := h.phi_output
  assign := h.assign
  snapshot := h.snapshot

end Instr

/-- What the constructors of the instructions that the pass looks at guarantee. -/
structure Instr.BoxCreated (instr : Instr n) : Prop where
  inPlaceOp : instr.opcode = .kInPlaceOp → instr.output.isSome = true
  useType : instr.opcode = .kUseType → instr.output = none
  otherUses : instr.opcode = .kPrimitiveBox ∨ instr.opcode = .kUseType ∨ instr.opcode = .kAssign →
    instr.otherUses = []

instance (instr : Instr n) : Decidable instr.BoxCreated :=
  decidable_of_iff ((instr.opcode = .kInPlaceOp → instr.output.isSome = true) ∧
      (instr.opcode = .kUseType → instr.output = none) ∧
      (instr.opcode = .kPrimitiveBox ∨ instr.opcode = .kUseType ∨ instr.opcode = .kAssign →
        instr.otherUses = []))
    ⟨fun h => ⟨h.1, h.2.1, h.2.2⟩, fun h => ⟨h.inPlaceOp, h.useType, h.otherUses⟩⟩

variable {instr : Instr n}

theorem Instr.BoxCreated.mapFrames (h : instr.BoxCreated) (rename : Register n → Register n) :
    (instr.mapFrames rename).BoxCreated where
  inPlaceOp := h.inPlaceOp
  useType := h.useType
  otherUses hop := by
    rw [mapFrames_otherUses]
    exact h.otherUses hop

/-! ## Moves -/

structure Function.Moves (f : Function n) (moves : List (BoxMove n)) : Prop where
  box : ∀ move ∈ moves, move.box ∈ f.instrs ∧ move.box.isDoubleBox = true ∧
    move.box.output = some move.boxed ∧ move.box.operands = [move.unboxed]
  users : ∀ move ∈ moves, ∀ instr ∈ f.instrs, move.boxed ∈ instr.operands →
    instr.opcode = .kUseType ∨ ∃ block ∈ f.blocks, move.target = some block.id ∧
      instr.opcode = .kInPlaceOp ∧ block.instrs.head? = some instr
  target : ∀ move ∈ moves, ∀ id, move.target = some id → moves = [move] ∧
    ∃ block ∈ f.blocks, block.id = id ∧ ∃ consumer, block.instrs.head? = some consumer ∧
      consumer.opcode = .kInPlaceOp ∧ move.boxed ∈ consumer.operands

/-- What the pass gets, and what it keeps whether or not the function stays in SSA form. -/
structure Function.Boxable (f : Function n) : Prop where
  wellShaped : ∀ instr ∈ f.instrs, instr.WellShaped
  created : ∀ instr ∈ f.instrs, instr.BoxCreated
  nodup_outputs : (f.blocks.flatMap BasicBlock.outputs).Nodup

theorem Function.Boxable.successors_of_opcode (h : f.Boxable) (hinstr : instr ∈ f.instrs)
    (hop : instr.opcode = .kPrimitiveBox ∨ instr.opcode = .kUseType) :
    instr.successors = [] := by
  by_contra hne
  have hterm := (h.wellShaped instr hinstr).successors hne
  cases hop with
  | inl hop => simp [hop, Opcode.isTerminator] at hterm
  | inr hop => simp [hop, Opcode.isTerminator] at hterm

theorem isUnlinked_iff : isUnlinked moves instr = true ↔
    ∃ move ∈ moves, instr = move.box ∨ instr.opcode = .kUseType ∧ move.boxed ∈ instr.operands := by
  simp [isUnlinked]

theorem mem_keptIn {instrs : List (Instr n)} : instr ∈ keptIn moves instrs ↔
    ∃ old ∈ instrs, isUnlinked moves old = false ∧ instr = old.mapFrames (unboxedIn moves) := by
  simp only [keptIn, List.mem_map, mem_filter, Bool.not_eq_true']
  constructor
  · rintro ⟨old, ⟨hold, hkept⟩, rfl⟩
    exact ⟨old, hold, hkept, rfl⟩
  · rintro ⟨old, hold, hkept, rfl⟩
    exact ⟨old, ⟨hold, hkept⟩, rfl⟩

theorem mem_insertedIn {id : BlockId} : instr ∈ insertedIn moves id ↔
    ∃ move ∈ moves, move.target = some id ∧ instr = move.box := by
  simp only [insertedIn, List.mem_map, mem_filter, decide_eq_true_eq]
  constructor
  · rintro ⟨move, ⟨hmove, htarget⟩, rfl⟩
    exact ⟨move, hmove, htarget, rfl⟩
  · rintro ⟨move, hmove, htarget, rfl⟩
    exact ⟨move, ⟨hmove, htarget⟩, rfl⟩

theorem keptIn_append (instrs rest : List (Instr n)) :
    keptIn moves (instrs ++ rest) = keptIn moves instrs ++ keptIn moves rest := by
  simp [keptIn]

theorem keptIn_split {instrs pre post : List (Instr n)}
    (heq : keptIn moves instrs = pre ++ instr :: post) :
    ∃ pre' old post', instrs = pre' ++ old :: post' ∧ isUnlinked moves old = false ∧
      instr = old.mapFrames (unboxedIn moves) ∧ pre = keptIn moves pre' := by
  obtain ⟨front, back, hsplit, rfl, hback⟩ := map_eq_append_iff.mp heq
  obtain ⟨old, back', rfl, rfl, rfl⟩ := map_eq_cons_iff.mp hback
  obtain ⟨pre', post', rfl, hkept, rfl, -⟩ := filter_eq_append_cons hsplit
  exact ⟨pre', old, post', rfl, by simpa using hkept, rfl, rfl⟩

theorem unboxedIn_of_forall_ne {reg : Register n} (hne : ∀ move ∈ moves, move.boxed ≠ reg) :
    unboxedIn moves reg = reg := by
  have hfind : (moves.find? fun move => move.boxed = reg) = none :=
    find?_eq_none.mpr fun move hmove => by simpa using hne move hmove
  simp [unboxedIn, hfind]

theorem unboxedIn_of_mem {move : BoxMove n} (hmove : move ∈ moves) :
    ∃ other ∈ moves, other.boxed = move.boxed ∧ unboxedIn moves move.boxed = other.unboxed := by
  cases hfind : moves.find? fun other => other.boxed = move.boxed with
  | none => simpa using find?_eq_none.mp hfind move hmove
  | some other =>
    exact ⟨other, mem_of_find?_eq_some hfind, by simpa using find?_some hfind,
      by simp [unboxedIn, hfind]⟩

theorem Function.of_mem_moveBoxes {block : BasicBlock n}
    (hinstr : instr ∈ insertedIn moves block.id ++ keptIn moves block.instrs) :
    (∃ move ∈ moves, move.target = some block.id ∧ instr = move.box) ∨
      ∃ old ∈ block.instrs, isUnlinked moves old = false ∧
        instr = old.mapFrames (unboxedIn moves) :=
  (mem_append.mp hinstr).imp mem_insertedIn.mp mem_keptIn.mp

namespace Function.Moves

variable (h : f.Moves moves)

include h

variable {move : BoxMove n}

theorem opcode_box (hmove : move ∈ moves) : move.box.opcode = .kPrimitiveBox := by
  have hbox := (h.box move hmove).2.1
  simp only [isDoubleBox, Bool.and_eq_true, decide_eq_true_eq] at hbox
  exact hbox.1

theorem isPhi_box (hmove : move ∈ moves) : move.box.isPhi = false := by
  simp [isPhi, h.opcode_box hmove]

theorem opcode_of_isUnlinked {instr : Instr n} (hunlinked : isUnlinked moves instr = true) :
    instr.opcode = .kPrimitiveBox ∨ instr.opcode = .kUseType := by
  obtain ⟨move, hmove, rfl | ⟨huse, -⟩⟩ := isUnlinked_iff.mp hunlinked
  · exact .inl (h.opcode_box hmove)
  · exact .inr huse

theorem isUnlinked_of_opcode {instr : Instr n} (hbox : instr.opcode ≠ .kPrimitiveBox)
    (huse : instr.opcode ≠ .kUseType) : isUnlinked moves instr = false := by
  cases hunlinked : isUnlinked moves instr with
  | false => rfl
  | true =>
    cases h.opcode_of_isUnlinked hunlinked with
    | inl hop => exact absurd hop hbox
    | inr hop => exact absurd hop huse

theorem insertedIn_cases (id : BlockId) : insertedIn moves id = [] ∨
    ∃ move, moves = [move] ∧ move.target = some id ∧ insertedIn moves id = [move.box] := by
  cases hinserted : insertedIn moves id with
  | nil => exact .inl rfl
  | cons instr rest =>
    obtain ⟨move, hmove, htarget, -⟩ := mem_insertedIn.mp (hinserted ▸ mem_cons_self)
    have hall := (h.target move hmove id htarget).1
    have hsingle : insertedIn moves id = [move.box] := by simp [hall, insertedIn, htarget]
    exact .inr ⟨move, hall, htarget, hinserted ▸ hsingle⟩

theorem unboxed_ne {other : BoxMove n} (hmove : move ∈ moves) (hother : other ∈ moves) :
    other.boxed ≠ move.unboxed := by
  intro heq
  obtain ⟨hmem, -, -, hoperands⟩ := h.box move hmove
  have hop := h.opcode_box hmove
  cases h.users other hother move.box hmem (by simp [hoperands, heq]) with
  | inl huse => simp [hop] at huse
  | inr huse =>
    obtain ⟨-, -, -, huse, -⟩ := huse
    simp [hop] at huse

theorem not_mem_phi_operands (hmove : move ∈ moves) {phi : Instr n} (hphi : phi ∈ f.instrs)
    (hisPhi : phi.isPhi = true) : move.boxed ∉ phi.operands := by
  intro hoperand
  have hop : phi.opcode = .kPhi := by simpa [isPhi] using hisPhi
  cases h.users move hmove phi hphi hoperand with
  | inl huse => simp [hop] at huse
  | inr huse =>
    obtain ⟨-, -, -, huse, -⟩ := huse
    simp [hop] at huse

theorem unboxedIn_ne (reg : Register n) (hmove : move ∈ moves) :
    move.boxed ≠ unboxedIn moves reg := by
  cases hfind : moves.find? fun other => other.boxed = reg with
  | some other =>
    have hunboxed : unboxedIn moves reg = other.unboxed := by simp [unboxedIn, hfind]
    rw [hunboxed]
    exact h.unboxed_ne (mem_of_find?_eq_some hfind) hmove
  | none =>
    have hunboxed : unboxedIn moves reg = reg := by simp [unboxedIn, hfind]
    rw [hunboxed]
    simpa using find?_eq_none.mp hfind move hmove

section

variable (hbox : f.Boxable)

include hbox

variable {block : BasicBlock n}

theorem wellShaped_of_mem (hblock : block ∈ f.blocks) {instr : Instr n}
    (hinstr : instr ∈ insertedIn moves block.id ++ keptIn moves block.instrs) :
    instr.WellShaped ∧ instr.BoxCreated := by
  cases of_mem_moveBoxes hinstr with
  | inl hmoved =>
    obtain ⟨move, hmove, -, rfl⟩ := hmoved
    have hmem := (h.box move hmove).1
    exact ⟨hbox.wellShaped _ hmem, hbox.created _ hmem⟩
  | inr hkept =>
    obtain ⟨old, hold, -, rfl⟩ := hkept
    have hmem := mem_instrs.mpr ⟨block, hblock, hold⟩
    exact ⟨(hbox.wellShaped old hmem).mapFrames, (hbox.created old hmem).mapFrames _⟩

theorem keepsEdges :
    f.KeepsEdges fun block => insertedIn moves block.id ++ keptIn moves block.instrs := by
  intro block hblock
  have hinserted : (insertedIn moves block.id).flatMap successors = [] := by
    refine flatMap_eq_nil_iff.mpr fun instr hinstr => ?_
    obtain ⟨move, hmove, -, rfl⟩ := mem_insertedIn.mp hinstr
    exact hbox.successors_of_opcode (h.box move hmove).1 (.inl (h.opcode_box hmove))
  have hkept : (keptIn moves block.instrs).flatMap successors = block.outEdges := by
    simp only [keptIn, flatMap_map, mapFrames_successors]
    refine flatMap_successors_filter fun instr hinstr hunlinked => ?_
    exact hbox.successors_of_opcode (mem_instrs.mpr ⟨block, hblock, hinstr⟩)
      (h.opcode_of_isUnlinked (by simpa using hunlinked))
  rw [flatMap_append, hinserted, hkept, nil_append]

theorem mem_definedBy_of_keptIn {instrs : List (Instr n)}
    (hsub : ∀ instr ∈ instrs, instr ∈ f.instrs)
    {reg : Register n} (hreg : reg ∈ definedBy (keptIn moves instrs)) :
    reg ∈ definedBy instrs ∧ ∀ move ∈ moves, move.boxed ≠ reg := by
  obtain ⟨d, hd, houtput⟩ := mem_filterMap.mp hreg
  obtain ⟨old, hold, hkept, rfl⟩ := mem_keptIn.mp hd
  refine ⟨mem_filterMap.mpr ⟨old, hold, houtput⟩, ?_⟩
  rintro move hmove rfl
  obtain ⟨hmem, -, houtput', -⟩ := h.box move hmove
  have hsame := def_unique hbox.nodup_outputs (hsub old hold) hmem houtput houtput'
  have hunlinked := isUnlinked_iff.mpr ⟨move, hmove, .inl hsame⟩
  simp [hkept] at hunlinked

theorem mem_definedBy_of_moved (hblock : block ∈ f.blocks) {reg : Register n}
    (hreg : reg ∈ definedBy (insertedIn moves block.id ++ keptIn moves block.instrs)) :
    (∃ move ∈ moves, move.target = some block.id ∧ move.boxed = reg) ∨
      reg ∈ block.outputs ∧ ∀ move ∈ moves, move.boxed ≠ reg := by
  rw [definedBy, filterMap_append] at hreg
  cases mem_append.mp hreg with
  | inl hinserted =>
    obtain ⟨d, hd, houtput⟩ := mem_filterMap.mp hinserted
    obtain ⟨move, hmove, htarget, rfl⟩ := mem_insertedIn.mp hd
    have hboxed := (h.box move hmove).2.2.1
    exact .inl ⟨move, hmove, htarget, Option.some.inj (hboxed.symm.trans houtput)⟩
  | inr hkept =>
    exact .inr (h.mem_definedBy_of_keptIn hbox
      (fun d hd => mem_instrs.mpr ⟨block, hblock, hd⟩) hkept)

theorem nodup_definedBy_moved (hblock : block ∈ f.blocks) :
    (definedBy (insertedIn moves block.id ++ keptIn moves block.instrs)).Nodup := by
  have hkept : (definedBy (keptIn moves block.instrs)).Nodup := by
    have hsub : (definedBy (keptIn moves block.instrs)).Sublist block.outputs := by
      rw [definedBy, keptIn, filterMap_map, BasicBlock.outputs]
      exact filter_sublist.filterMap _
    exact hsub.nodup ((nodup_flatMap.mp hbox.nodup_outputs).1 block hblock)
  obtain hnil | ⟨move, hall, htarget, hsingle⟩ := h.insertedIn_cases block.id
  · rwa [hnil, nil_append]
  · have hmove : move ∈ moves := by simp [hall]
    rw [hsingle, singleton_append, definedBy, filterMap_cons_some (h.box move hmove).2.2.1]
    refine nodup_cons.mpr ⟨fun hmem => ?_, hkept⟩
    exact (h.mem_definedBy_of_keptIn hbox
      (fun d hd => mem_instrs.mpr ⟨block, hblock, hd⟩) hmem).2 move hmove rfl

theorem nodup_outputs : ((f.moveBoxes moves).blocks.flatMap BasicBlock.outputs).Nodup := by
  rw [moveBoxes, mapBlocks, flatMap_map]
  refine nodup_flatMap.mpr ⟨fun block hblock => h.nodup_definedBy_moved hbox hblock, ?_⟩
  refine (pairwise_map.mp f.nodupIds).imp_of_mem fun {block other} hblock hother hne reg hreg hreg'
    => ?_
  obtain ⟨move, hmove, htarget, rfl⟩ | ⟨hout, hnot⟩ := h.mem_definedBy_of_moved hbox hblock hreg
  · obtain ⟨move', hmove', htarget', hsame⟩ | ⟨-, hnot⟩ :=
      h.mem_definedBy_of_moved hbox hother hreg'
    · have hall := (h.target move hmove _ htarget).1
      rw [hall, mem_singleton] at hmove'
      rw [hmove'] at htarget'
      exact hne (Option.some.inj (htarget.symm.trans htarget'))
    · exact hnot move hmove rfl
  · obtain ⟨move', hmove', -, hsame⟩ | ⟨hout', -⟩ := h.mem_definedBy_of_moved hbox hother hreg'
    · exact hnot move' hmove' hsame
    · exact hne (congrArg BasicBlock.id (block_unique hbox.nodup_outputs hblock hother hout hout'))

theorem boxable : (f.moveBoxes moves).Boxable := by
  have hall : ∀ instr ∈ (f.moveBoxes moves).instrs, instr.WellShaped ∧ instr.BoxCreated := by
    intro instr hinstr
    obtain ⟨block, hblock, hin⟩ := mem_instrs.mp hinstr
    obtain ⟨old, hold, rfl⟩ := mem_mapBlocks.mp hblock
    exact h.wellShaped_of_mem hbox hold hin
  exact ⟨fun instr hinstr => (hall instr hinstr).1, fun instr hinstr => (hall instr hinstr).2,
    h.nodup_outputs hbox⟩

end

end Function.Moves

/-- Guilty registers and iterators of a `yield from` that hold a box do so behind the block to which
the box is moved. -/
def Function.OtherUsesBehind (f : Function n) (move : BoxMove n) : Prop :=
  ∀ block ∈ f.blocks, ∀ instr ∈ block.instrs, move.boxed ∈ instr.otherUses →
    ∃ id, move.target = some id ∧ ∀ walked, f.Walk walked block.id → id ∈ block.id :: walked

namespace Function.Moves

variable (h : f.Moves moves) (hbox : f.Boxable) (hf : InSsaForm f)

include h

variable {move : BoxMove n}

include hf in
theorem unboxedIn_boxed (hmove : move ∈ moves) :
    unboxedIn moves move.boxed = move.unboxed := by
  obtain ⟨other, hother, hboxed, hunboxed⟩ := unboxedIn_of_mem hmove
  obtain ⟨hmem, -, houtput, hoperands⟩ := h.box move hmove
  obtain ⟨hmem', -, houtput', hoperands'⟩ := h.box other hother
  have hsame := hf.wellFormed.def_unique hmem hmem' houtput (hboxed ▸ houtput')
  rw [hunboxed]
  simpa [← hsame, hoperands] using hoperands'.symm

variable {id : BlockId}

include hf in
theorem definedAt_unboxed (hmove : move ∈ moves) {pre post : List (Instr n)}
    (hpre : f.instrsOf id = pre ++ post) (hreg : f.DefinedAt id pre move.boxed) :
    f.DefinedAt id pre move.unboxed := by
  obtain ⟨hmem, -, houtput, hoperands⟩ := h.box move hmove
  have hphi := h.isPhi_box hmove
  exact hf.wellFormed.definedAt_of_dependsOn ⟨move.box, hmem, hphi, houtput, by simp [hoperands]⟩
    hpre hreg

include hbox

theorem mem_definedBy_keptIn {instrs : List (Instr n)} (hsub : ∀ instr ∈ instrs, instr ∈ f.instrs)
    {reg : Register n} (hne : ∀ move ∈ moves, move.boxed ≠ reg) (hreg : reg ∈ definedBy instrs) :
    reg ∈ definedBy (keptIn moves instrs) := by
  obtain ⟨d, hd, houtput⟩ := mem_filterMap.mp hreg
  have hkept : isUnlinked moves d = false := by
    by_contra hunlinked
    obtain ⟨move, hmove, rfl | ⟨huse, -⟩⟩ := isUnlinked_iff.mp (by simpa using hunlinked)
    · have hboxed := (h.box move hmove).2.2.1
      exact hne move hmove (Option.some.inj (hboxed.symm.trans houtput))
    · simp [(hbox.created d (hsub d hd)).useType huse] at houtput
  exact mem_filterMap.mpr ⟨_, mem_keptIn.mpr ⟨d, hd, hkept, rfl⟩, houtput⟩

theorem definedAt_moveBoxes {reg : Register n} (hne : ∀ move ∈ moves, move.boxed ≠ reg)
    {pre front : List (Instr n)} (hsub : ∀ instr ∈ pre, instr ∈ f.instrs)
    (hreg : f.DefinedAt id pre reg) :
    (f.moveBoxes moves).DefinedAt id (front ++ keptIn moves pre) reg := by
  have hmono : ∀ {kept front : List (Instr n)}, reg ∈ definedBy kept →
    reg ∈ definedBy (front ++ kept) := by
    intro kept front hmem
    rw [definedBy, filterMap_append]
    exact mem_append_right _ hmem
  refine definedAt_mapBlocks (h.keepsEdges hbox) (fun block hblock hout => ?_)
    (fun hdefined => ?_) hreg
  · exact hmono (h.mem_definedBy_keptIn hbox (fun d hd => mem_instrs.mpr ⟨block, hblock, hd⟩)
      hne hout)
  · exact hmono (h.mem_definedBy_keptIn hbox hsub hne hdefined)

theorem definedAt_boxed (hmove : move ∈ moves) (htarget : move.target = some id)
    {block : BasicBlock n} (hbehind : ∀ walked, f.Walk walked block.id → id ∈ block.id :: walked)
    (instrs : List (Instr n)) :
    (f.moveBoxes moves).DefinedAt block.id (insertedIn moves block.id ++ instrs) move.boxed := by
  have hdefined : ∀ target rest, move.target = some target →
      move.boxed ∈ definedBy (insertedIn moves target ++ rest) := by
    intro target rest htarget
    refine mem_filterMap.mpr ⟨move.box, ?_, (h.box move hmove).2.2.1⟩
    exact mem_append_left _ (mem_insertedIn.mpr ⟨move, hmove, htarget, rfl⟩)
  intro walked hwalk
  have hwalk' := (walk_mapBlocks (h.keepsEdges hbox)).mp hwalk
  cases mem_cons.mp (hbehind walked hwalk') with
  | inl hsame => exact .inr (hdefined _ _ (hsame ▸ htarget))
  | inr hbefore =>
    refine .inl ⟨id, hbefore, ?_⟩
    obtain ⟨-, home, hhome, rfl, -⟩ := h.target move hmove id htarget
    rw [moveBoxes, outputsOf_mapBlocks, block?_of_mem hhome]
    exact hdefined _ _ htarget

end Function.Moves

/-! ## The result is in SSA form -/

namespace Function.Moves

variable (h : f.Moves moves) (hbox : f.Boxable) (hf : InSsaForm f)

include h

include hbox hf

variable {block : BasicBlock n} {pre post : List (Instr n)}

theorem definedAt_of_kept (hcond : ∀ move ∈ moves, f.OtherUsesBehind move)
    (hblock : block ∈ f.blocks) {old : Instr n}
    (heq : block.instrs = pre ++ old :: post) (hkept : isUnlinked moves old = false)
    (hphi : old.isPhi = false) {reg : Register n}
    (hreg : reg ∈ (old.mapFrames (unboxedIn moves)).visitUses) :
    (f.moveBoxes moves).DefinedAt block.id (insertedIn moves block.id ++ keptIn moves pre) reg := by
  have hin : old ∈ block.instrs := by simp [heq]
  have hinstr : old ∈ f.instrs := mem_instrs.mpr ⟨block, hblock, hin⟩
  have hsub : ∀ instr ∈ pre, instr ∈ f.instrs :=
    fun instr hmem => mem_instrs.mpr ⟨block, hblock, by simp [heq, hmem]⟩
  have hpre := (instrsOf_of_mem hblock).trans heq
  have huse : ∀ use ∈ old.visitUses, f.DefinedAt block.id pre use :=
    fun use hmem => hf.uses block hblock pre old post heq hphi use hmem
  cases mem_visitUses.mp hreg with
  | inl hoperand =>
    by_cases hne : ∀ move ∈ moves, move.boxed ≠ reg
    · exact h.definedAt_moveBoxes hbox hne hsub (huse reg (mem_visitUses.mpr (.inl hoperand)))
    · push Not at hne
      obtain ⟨move, hmove, rfl⟩ := hne
      obtain huseType | ⟨slow, hslow, htarget, hop, hhead⟩ := h.users move hmove old hinstr hoperand
      · have hunlinked := isUnlinked_iff.mpr ⟨move, hmove, .inr ⟨huseType, hoperand⟩⟩
        simp [hkept] at hunlinked
      -- the in-place operation has an output, so that it is in no other block
      · obtain ⟨out, hout⟩ := Option.isSome_iff_exists.mp ((hbox.created old hinstr).inPlaceOp hop)
        obtain rfl := hf.wellFormed.block_unique hslow hblock
          (BasicBlock.mem_outputs (mem_of_head? hhead) hout) (BasicBlock.mem_outputs hin hout)
        exact h.definedAt_boxed hbox hmove htarget (fun _ _ => mem_cons_self) _
  | inr hrest =>
    cases hrest with
    | inl hframe =>
      rw [mapFrames_frameUses] at hframe
      obtain ⟨use, hmem, rfl⟩ := List.mem_map.mp hframe
      have hdefined := huse use (mem_visitUses.mpr (.inr (.inl hmem)))
      refine h.definedAt_moveBoxes hbox (fun move hmove => h.unboxedIn_ne use hmove) hsub ?_
      by_cases hne : ∀ move ∈ moves, move.boxed ≠ use
      · rwa [unboxedIn_of_forall_ne hne]
      · push Not at hne
        obtain ⟨move, hmove, rfl⟩ := hne
        rw [h.unboxedIn_boxed hf hmove]
        exact h.definedAt_unboxed hf hmove hpre hdefined
    | inr hother =>
      rw [mapFrames_otherUses] at hother
      by_cases hne : ∀ move ∈ moves, move.boxed ≠ reg
      · exact h.definedAt_moveBoxes hbox hne hsub
          (huse reg (mem_visitUses.mpr (.inr (.inr hother))))
      · push Not at hne
        obtain ⟨move, hmove, rfl⟩ := hne
        obtain ⟨id, htarget, hbehind⟩ := hcond move hmove block hblock old hin hother
        exact h.definedAt_boxed hbox hmove htarget hbehind _

variable {move : BoxMove n}

omit hbox in
theorem definedAt_of_inserted (hmove : move ∈ moves) {id : BlockId}
    (htarget : move.target = some id) {reg : Register n} (hreg : reg ∈ move.box.visitUses) :
    f.DefinedAt id [] reg ∧ ∀ other ∈ moves, other.boxed ≠ reg := by
  obtain ⟨hmem, -, houtput, -⟩ := h.box move hmove
  obtain ⟨hall, slow, hslow, rfl, consumer, hhead, hop, hoperand⟩ := h.target move hmove id htarget
  obtain ⟨home, pre, hpos⟩ := exists_position hmem
  obtain ⟨post, heq⟩ := hpos.split
  have hphi := h.isPhi_box hmove
  have hconsumerPhi : consumer.isPhi = false := by simp [isPhi, hop]
  obtain ⟨rest, hinstrs⟩ := head?_eq_some_iff.mp hhead
  have hboxed : f.DefinedAt slow.id [] move.boxed := hf.uses slow hslow [] consumer rest hinstrs
    hconsumerPhi _ (mem_visitUses.mpr (.inl hoperand))
  have hdefined := hf.uses home hpos.mem pre move.box post heq hphi reg hreg
  refine ⟨hf.wellFormed.definedAt_of_position hpos houtput hdefined rfl hboxed, ?_⟩
  rintro other hother rfl
  rw [hall, mem_singleton] at hother
  exact hf.wellFormed.not_definedAt hpos.mem heq houtput (hother ▸ hdefined)

omit hbox in
theorem target_ne_entry (hmove : move ∈ moves) {id : BlockId} (htarget : move.target = some id) :
    id ≠ f.entryBlock := by
  rintro rfl
  have huse : move.unboxed ∈ move.box.visitUses :=
    mem_visitUses.mpr (.inl (by simp [(h.box move hmove).2.2.2]))
  cases (h.definedAt_of_inserted hf hmove htarget huse).1 [] .entry with
  | inl hon => simp [definesOn] at hon
  | inr hnil => simp [definedBy] at hnil

omit hbox hf in
theorem split_cases {instr : Instr n}
    (heq : insertedIn moves block.id ++ keptIn moves block.instrs = pre ++ instr :: post) :
    (∃ move ∈ moves, move.target = some block.id ∧ instr = move.box ∧ pre = []) ∨
      ∃ pre' old post', block.instrs = pre' ++ old :: post' ∧ isUnlinked moves old = false ∧
        instr = old.mapFrames (unboxedIn moves) ∧
          pre = insertedIn moves block.id ++ keptIn moves pre' := by
  obtain hnil | ⟨move, hall, htarget, hsingle⟩ := h.insertedIn_cases block.id
  · rw [hnil, nil_append] at heq
    obtain ⟨pre', old, post', hsplit, hkept, rfl, rfl⟩ := keptIn_split heq
    exact .inr ⟨pre', old, post', hsplit, hkept, rfl, by simp [hnil]⟩
  · rw [hsingle, singleton_append] at heq
    cases pre with
    | nil =>
      obtain ⟨rfl, -⟩ := List.cons.inj heq
      exact .inl ⟨move, by simp [hall], htarget, rfl, rfl⟩
    | cons first pre =>
      obtain ⟨rfl, hrest⟩ := List.cons.inj heq
      obtain ⟨pre', old, post', hsplit, hkept, rfl, rfl⟩ := keptIn_split hrest
      exact .inr ⟨pre', old, post', hsplit, hkept, rfl, by simp [hsingle]⟩

omit hbox hf in
theorem keptIn_phis {phis : List (Instr n)} (hphis : ∀ phi ∈ phis, phi.isPhi = true) :
    keptIn moves phis = phis.map (Instr.mapFrames (unboxedIn moves)) := by
  rw [keptIn, filter_eq_self.mpr]
  intro phi hphi
  have hop : phi.opcode = .kPhi := by simpa [isPhi] using hphis phi hphi
  simp [h.isUnlinked_of_opcode (by simp [hop]) (by simp [hop] : phi.opcode ≠ .kUseType)]

omit hbox hf in
theorem phis_eq_nil (hblock : block ∈ f.blocks) (hmove : move ∈ moves)
    (htarget : move.target = some block.id) : block.phis = [] := by
  obtain ⟨-, slow, hslow, hid, consumer, hhead, hop, -⟩ := h.target move hmove _ htarget
  obtain rfl := inj_on_of_nodup_map f.nodupIds hslow hblock hid
  obtain ⟨rest, hinstrs⟩ := head?_eq_some_iff.mp hhead
  simp [BasicBlock.phis, hinstrs, isPhi, hop]

omit hbox hf in
theorem shaped_keptIn {instrs : List (Instr n)} (hshaped : Shaped instrs) :
    Shaped (keptIn moves instrs) := by
  cases hshaped with
  | mk phis middle last hphis hmiddle hlast =>
    have hkept : isUnlinked moves last = false := by
      refine h.isUnlinked_of_opcode ?_ ?_
      · rintro hop; simp [hop, Opcode.isTerminator] at hlast
      · rintro hop; simp [hop, Opcode.isTerminator] at hlast
    have hend : keptIn moves [last] = [last.mapFrames (unboxedIn moves)] := by simp [keptIn, hkept]
    rw [keptIn_append, keptIn_append, hend]
    refine .mk _ _ _ (fun phi hphi => ?_) (fun instr hinstr => ?_) hlast
    · obtain ⟨old, hold, -, rfl⟩ := mem_keptIn.mp hphi
      exact hphis old hold
    · obtain ⟨old, hold, -, rfl⟩ := mem_keptIn.mp hinstr
      exact hmiddle old hold

omit hbox in
theorem shaped_moveBoxes (hblock : block ∈ f.blocks) :
    Shaped (insertedIn moves block.id ++ keptIn moves block.instrs) := by
  have hshaped := h.shaped_keptIn (hf.wellFormed.shaped hblock)
  obtain hnil | ⟨move, hall, htarget, hsingle⟩ := h.insertedIn_cases block.id
  · rwa [hnil, nil_append]
  · have hmove : move ∈ moves := by simp [hall]
    have hop := h.opcode_box hmove
    have hnotPhi : ∀ instr ∈ keptIn moves block.instrs, instr.isPhi = false := by
      intro instr hinstr
      obtain ⟨old, hold, -, rfl⟩ := mem_keptIn.mp hinstr
      rw [block.instrs_eq, h.phis_eq_nil hblock hmove htarget, nil_append] at hold
      exact (mapFrames_isPhi _ old).trans (hf.wellFormed.not_isPhi_of_mem_body hblock hold)
    rw [hsingle]
    generalize keptIn moves block.instrs = instrs at hshaped hnotPhi
    cases hshaped with
    | mk phis middle last hphis hmiddle hlast =>
      have hnone : phis = [] := by
        refine eq_nil_iff_forall_not_mem.mpr fun phi hphi => ?_
        simpa [hphis phi hphi] using hnotPhi phi (by simp [hphi])
      rw [hnone, nil_append]
      refine .mk [] (move.box :: middle) last (by simp) (fun instr hinstr => ?_) hlast
      cases mem_cons.mp hinstr with
      | inl hbox => simp [hbox, isPhi, hop, Opcode.isTerminator]
      | inr hrest => exact hmiddle instr hrest

theorem inSsaForm (hcond : ∀ move ∈ moves, f.OtherUsesBehind move) :
    InSsaForm (f.moveBoxes moves) := by
  have hf' := hf.wellFormed
  have hedges := h.keepsEdges hbox
  have hmem : ∀ {block instr}, block ∈ f.blocks → instr ∈ block.instrs → instr ∈ f.instrs :=
    fun hblock hinstr => mem_instrs.mpr ⟨_, hblock, hinstr⟩
  have hnotPhi : ∀ {move : BoxMove n}, move ∈ moves → move.box.isPhi = false :=
    fun hmove => by simp [isPhi, h.opcode_box hmove]
  refine hf.of_mapBlocks id hedges (h.nodup_outputs hbox)
    (fun old hold => h.shaped_moveBoxes hf hold) ?_ ?_ ?_ ?_
  · intro old hold instr hinstr
    exact (h.boxable hbox).wellShaped instr
      (mem_instrs.mpr ⟨_, mem_mapBlocks.mpr ⟨old, hold, rfl⟩, hinstr⟩)
  · intro old hold pre instr post heq hload
    obtain ⟨move, hmove, -, rfl, -⟩ | ⟨pre', instr, post', heq', -, rfl, rfl⟩ := h.split_cases heq
    · simp [isPrologueLoad, h.opcode_box hmove] at hload
    · obtain ⟨hentry, hall⟩ := hf'.prologue old hold pre' instr post' heq' hload
      refine ⟨hentry, fun other hother => ?_⟩
      cases mem_append.mp hother with
      | inl hinserted =>
        obtain ⟨move, hmove, htarget, -⟩ := mem_insertedIn.mp hinserted
        exact absurd hentry (h.target_ne_entry hf hmove htarget)
      | inr hkept =>
        obtain ⟨other, hin, -, rfl⟩ := mem_keptIn.mp hkept
        exact hall other hin
  · intro old hold pre instr post heq hphi reg hreg
    obtain ⟨move, hmove, htarget, rfl, rfl⟩ | ⟨pre', instr, post', heq', hkept, rfl, rfl⟩ :=
      h.split_cases heq
    · obtain ⟨hdefined, hne⟩ := h.definedAt_of_inserted hf hmove htarget hreg
      have hnil : [] ++ keptIn moves [] = [] := rfl
      exact hnil ▸ h.definedAt_moveBoxes hbox hne (by simp) hdefined
    · exact h.definedAt_of_kept hbox hf hcond hold heq' hkept hphi hreg
  · intro old hold phi hphi hisPhi
    obtain ⟨move, hmove, -, rfl⟩ | ⟨phi, hin, -, rfl⟩ := of_mem_moveBoxes hphi
    · simp [hnotPhi hmove] at hisPhi
    · exact ⟨phi, hin, hisPhi, rfl, (map_id _).symm, fun source hsource reg hreg hdefined =>
        h.definedAt_moveBoxes hbox (fun move hmove heq =>
          h.not_mem_phi_operands hmove (hmem hold hin) hisPhi (heq ▸ hreg))
          (fun d hd => hmem hsource hd) hdefined⟩

end Function.Moves

end CinderX.Jit.Hir
