import CinderX.Compiler.FlattenCorrect

/-!
# Choosing the direction of jumps

`normalize_jumps` of the 3.12 and 3.14 flow graphs, with `resolve_unconditional_jumps`
of 3.14.  Afterwards every jump goes the way its opcode counts.
-/

namespace CinderX.Compiler

structure JumpOpcodes (Op : Type) extends Opcodes Op where
  JUMP : Op
  JUMP_NO_INTERRUPT : Op
  JUMP_FORWARD : Op
  JUMP_BACKWARD : Op
  JUMP_BACKWARD_NO_INTERRUPT : Op
  NOT_TAKEN : Op
  reversedJumps : Op → Option Op
  isBackward_forward : isBackward JUMP_FORWARD = false
  isBackward_backward : isBackward JUMP_BACKWARD
  isBackward_noInterrupt : isBackward JUMP_BACKWARD_NO_INTERRUPT
  hasJump_jump : hasJump JUMP ∧ hasJump JUMP_NO_INTERRUPT
  hasJump_notTaken : hasJump NOT_TAKEN = false
  reversedJumps_spec : ∀ op op', reversedJumps op = some op' →
    hasJump op ∧ isBackward op = false ∧ isBackward op' = false ∧
      op ≠ JUMP ∧ op ≠ JUMP_NO_INTERRUPT

structure LinkedBlock (Op : Type) where
  bid : Nat
  insts : List (Inst Op)
  next : Option Nat
  deriving DecidableEq

def LinkedBlock.block {Op : Type} (b : LinkedBlock Op) : Block Op := ⟨b.bid, b.insts⟩

section Normalize

variable {Op : Type} [DecidableEq Op] (opcodes : JumpOpcodes Op)

/-- The reversed conditional jump over the new block `fresh`, which jumps back. -/
def jumpOver (b : LinkedBlock Op) (last : Inst Op) (reversed : Op) (fresh : Nat)
    (inserted : List (Inst Op)) : List (LinkedBlock Op) :=
  [⟨b.bid, b.insts.dropLast ++ [{ last with opname := reversed, target := b.next }],
      some fresh⟩,
    ⟨fresh, inserted ++ [⟨opcodes.JUMP_BACKWARD, last.oparg, 0, last.target⟩], b.next⟩]

/-- `normalize_jumps_in_block` of 3.12: the block with what follows it; `none` is a jump
without target, or one that has no reverse. -/
def normalizeInBlock312 (seen : List Nat) (fresh : Nat) (b : LinkedBlock Op) :
    Option (List (LinkedBlock Op)) :=
  match b.insts.getLast? with
  | none => some [b]
  | some last =>
    if opcodes.hasJump last.opname = false then some [b]
    else do
      let target ← last.target
      let isForward := target ∉ seen
      let renamed opname : List (LinkedBlock Op) :=
        [{ b with insts := b.insts.dropLast ++ [{ last with opname }] }]
      if last.opname = opcodes.JUMP then
        return renamed (if isForward then opcodes.JUMP_FORWARD else opcodes.JUMP_BACKWARD)
      else if last.opname = opcodes.JUMP_NO_INTERRUPT then
        return renamed
          (if isForward then opcodes.JUMP_FORWARD else opcodes.JUMP_BACKWARD_NO_INTERRUPT)
      else if isForward then return [b]
      else
        let reversed ← opcodes.reversedJumps last.opname
        return jumpOver opcodes b last reversed fresh []

def normalizeInBlock314 (seen : List Nat) (fresh : Nat) (b : LinkedBlock Op) :
    Option (List (LinkedBlock Op)) :=
  match b.insts.getLast? with
  | none => some [b]
  | some last =>
    match opcodes.reversedJumps last.opname with
    | none => some [b]
    | some reversed => do
        let target ← last.target
        let notTaken : Inst Op := ⟨opcodes.NOT_TAKEN, 0, 0, none⟩
        if target ∉ seen then return [{ b with insts := b.insts ++ [notTaken] }]
        else return jumpOver opcodes b last reversed fresh [notTaken]

def normalizeInBlock (v314 : Bool) (seen : List Nat) (fresh : Nat) (b : LinkedBlock Op) :
    Option (List (LinkedBlock Op)) :=
  if v314 then normalizeInBlock314 opcodes seen fresh b
  else normalizeInBlock312 opcodes seen fresh b

/-- `normalize_jumps`; `fresh` is what `get_new_block_id` gives next. -/
def normalizeJumps (v314 : Bool) :
    List Nat → Nat → List (LinkedBlock Op) → Option (List (LinkedBlock Op))
  | _, _, [] => some []
  | seen, fresh, b :: g => do
      let seen := b.bid :: seen
      let blocks ← normalizeInBlock opcodes v314 seen fresh b
      let rest ← normalizeJumps v314 seen (if blocks.length = 2 then fresh + 1 else fresh) g
      return blocks ++ rest

def resolveInst (seen : List Nat) (inst : Inst Op) : Option (Inst Op) :=
  if inst.opname = opcodes.JUMP then do
    let target ← inst.target
    return { inst with opname :=
      if target ∉ seen then opcodes.JUMP_FORWARD else opcodes.JUMP_BACKWARD }
  else if inst.opname = opcodes.JUMP_NO_INTERRUPT then do
    let target ← inst.target
    return { inst with opname :=
      if target ∉ seen then opcodes.JUMP_FORWARD else opcodes.JUMP_BACKWARD_NO_INTERRUPT }
  else some inst

def resolveUnconditionalJumps :
    List Nat → List (LinkedBlock Op) → Option (List (LinkedBlock Op))
  | _, [] => some []
  | seen, b :: g => do
      let seen := b.bid :: seen
      let insts ← b.insts.mapM (resolveInst opcodes seen)
      let rest ← resolveUnconditionalJumps seen g
      return { b with insts } :: rest

/-- The passes of `assemble_final_code` that give jumps their direction. -/
def directJumps (v314 : Bool) (fresh : Nat) (g : List (LinkedBlock Op)) :
    Option (List (LinkedBlock Op)) := do
  let g ← normalizeJumps opcodes v314 [] fresh g
  if v314 then resolveUnconditionalJumps opcodes [] g else return g

end Normalize

section Directed

variable {Op : Type}

def bids (g : List (LinkedBlock Op)) : List Nat := g.map (·.bid)

/-- Jumps that are not left for later go the way their opcodes count: to a block that
lies behind, the own block among them, or to one that lies ahead. -/
def JumpsTo (opcodes : Opcodes Op) (pending : Op → Prop) (behind ahead : List Nat)
    (insts : List (Inst Op)) : Prop :=
  ∀ inst ∈ insts, opcodes.hasJump inst.opname →
    ∃ t, inst.target = some t ∧ (t ∈ behind ∨ t ∈ ahead) ∧
      (¬pending inst.opname → if opcodes.isBackward inst.opname then t ∈ behind else t ∈ ahead)

/-- The blocks of `g` jump like this, those of `seen` lying behind them. -/
def Directed (opcodes : Opcodes Op) (pending : Op → Prop) :
    List Nat → List (LinkedBlock Op) → Prop
  | _, [] => True
  | seen, b :: g =>
    JumpsTo opcodes pending (b.bid :: seen) (bids g) b.insts ∧
      Directed opcodes pending (b.bid :: seen) g

/-- How a block's jumps have to be before the passes: to blocks of the graph, those
before the last instruction in their direction already, and the last instruction either
one of those the passes choose for, or in its direction; a block that ends in a
conditional jump falls through to the next one. -/
def BlockReady [DecidableEq Op] (opcodes : JumpOpcodes Op) (seen : List Nat)
    (b : LinkedBlock Op) (later : List Nat) : Prop :=
  JumpsTo opcodes.toOpcodes (fun _ => False) seen later b.insts.dropLast ∧
    ∀ last, b.insts.getLast? = some last → opcodes.hasJump last.opname →
      ∃ t, last.target = some t ∧ (t ∈ seen ∨ t ∈ later) ∧
        (last.opname = opcodes.JUMP ∨ last.opname = opcodes.JUMP_NO_INTERRUPT ∨
          (opcodes.reversedJumps last.opname).isSome ∧ b.next.isSome ∧ b.next = later.head? ∨
          opcodes.reversedJumps last.opname = none ∧
            if opcodes.isBackward last.opname then t ∈ seen else t ∈ later)

def Ready [DecidableEq Op] (opcodes : JumpOpcodes Op) : List Nat → List (LinkedBlock Op) → Prop
  | _, [] => True
  | seen, b :: g =>
    BlockReady opcodes (b.bid :: seen) b (bids g) ∧ Ready opcodes (b.bid :: seen) g

end Directed

/-! ## The passes direct the jumps -/

variable {Op : Type} {opcodes : JumpOpcodes Op} {pending : Op → Prop}

variable {behind ahead : List Nat} {insts : List (Inst Op)}

theorem JumpsTo.mono {behind' ahead' : List Nat}
    (h : JumpsTo opcodes.toOpcodes pending behind ahead insts) (hbehind : behind ⊆ behind')
    (hahead : ahead ⊆ ahead') : JumpsTo opcodes.toOpcodes pending behind' ahead' insts := by
  intro inst hinst hjump
  obtain ⟨t, htarget, hsomewhere, hdirection⟩ := h inst hinst hjump
  refine ⟨t, htarget, hsomewhere.imp (@hbehind t) (@hahead t), fun hpending => ?_⟩
  have hway := hdirection hpending
  split
  next hback =>
    rw [if_pos hback] at hway
    exact hbehind hway
  next hback =>
    rw [if_neg hback] at hway
    exact hahead hway

theorem JumpsTo.weaken (h : JumpsTo opcodes.toOpcodes (fun _ => False) behind ahead insts) :
    JumpsTo opcodes.toOpcodes pending behind ahead insts := by
  intro inst hinst hjump
  obtain ⟨t, htarget, hsomewhere, hdirection⟩ := h inst hinst hjump
  exact ⟨t, htarget, hsomewhere, fun _ => hdirection id⟩

theorem JumpsTo.append {insts' : List (Inst Op)}
    (h : JumpsTo opcodes.toOpcodes pending behind ahead insts)
    (h' : JumpsTo opcodes.toOpcodes pending behind ahead insts') :
    JumpsTo opcodes.toOpcodes pending behind ahead (insts ++ insts') := by
  intro inst hinst
  exact (List.mem_append.mp hinst).elim (h inst) (h' inst)

variable {t : Nat} {last : Inst Op} {blocks : List (LinkedBlock Op)}

theorem jumpsTo_of_last (hinit : JumpsTo opcodes.toOpcodes (fun _ => False) behind ahead insts)
    (htarget : last.target = some t) (hsomewhere : t ∈ behind ∨ t ∈ ahead)
    (hway : ¬pending last.opname →
      if opcodes.isBackward last.opname then t ∈ behind else t ∈ ahead) :
    JumpsTo opcodes.toOpcodes pending behind ahead (insts ++ [last]) := by
  apply hinit.weaken.append
  intro inst hinst _
  obtain rfl := List.mem_singleton.mp hinst
  exact ⟨t, htarget, hsomewhere, hway⟩

theorem jumpsTo_of_no_jump (h : ∀ inst ∈ insts, opcodes.hasJump inst.opname = false) :
    JumpsTo opcodes.toOpcodes pending behind ahead insts := by
  intro inst hinst hjump
  rw [h inst hinst] at hjump
  cases hjump

variable {seen later : List Nat}

theorem way_of_choice {back : Op} (hsomewhere : t ∈ seen ∨ t ∈ later)
    (hback : opcodes.isBackward back) :
    if opcodes.isBackward (if t ∉ seen then opcodes.JUMP_FORWARD else back) then t ∈ seen
    else t ∈ later := by
  by_cases hseen : t ∈ seen
  · rw [if_neg (not_not_intro hseen), if_pos hback]
    exact hseen
  · rw [if_pos hseen, if_neg (by simp [opcodes.isBackward_forward])]
    exact hsomewhere.resolve_left hseen

variable [DecidableEq Op]

/-- What stands in a block's place: the block with its jump directed, or the reversed
jump and the new block that jumps back. -/
inductive Replaces (opcodes : JumpOpcodes Op) (pending : Op → Prop) (seen later : List Nat)
    (b : LinkedBlock Op) (fresh : Nat) : List (LinkedBlock Op) → Prop
  | same {b'} (hbid : b'.bid = b.bid)
      (h : JumpsTo opcodes.toOpcodes pending seen later b'.insts) :
      Replaces opcodes pending seen later b fresh [b']
  | inverted {b' new} (hbid : b'.bid = b.bid) (hnew : new.bid = fresh)
      (h : JumpsTo opcodes.toOpcodes pending seen later b'.insts)
      (h' : JumpsTo opcodes.toOpcodes pending seen later new.insts) :
      Replaces opcodes pending seen later b fresh [b', new]

variable {b : LinkedBlock Op} {fresh : Nat}

omit [DecidableEq Op] in
theorem replaces_jumpOver {reversed : Op} {inserted : List (Inst Op)}
    (hinit : JumpsTo opcodes.toOpcodes (fun _ => False) seen later b.insts.dropLast)
    (hreversed : opcodes.reversedJumps last.opname = some reversed)
    (hnext : b.next.isSome ∧ b.next = later.head?) (htarget : last.target = some t)
    (hseen : t ∈ seen) (hinserted : ∀ inst ∈ inserted, opcodes.hasJump inst.opname = false) :
    Replaces opcodes pending seen later b fresh
      (jumpOver opcodes b last reversed fresh inserted) := by
  obtain ⟨next, hsome⟩ := Option.isSome_iff_exists.mp hnext.1
  have hlater : next ∈ later := List.mem_of_mem_head? (hnext.2 ▸ hsome)
  unfold jumpOver
  refine .inverted rfl rfl ?_ ?_
  · apply jumpsTo_of_last hinit hsome (.inr hlater)
    intro _
    rw [if_neg]
    · exact hlater
    · simp [(opcodes.reversedJumps_spec _ _ hreversed).2.2.1]
  · refine jumpsTo_of_last (jumpsTo_of_no_jump hinserted) htarget (.inl hseen) fun _ => ?_
    rw [if_pos opcodes.isBackward_backward]
    exact hseen

theorem normalizeInBlock312_replaces (hready : BlockReady opcodes seen b later)
    (h : normalizeInBlock312 opcodes seen fresh b = some blocks) :
    Replaces opcodes pending seen later b fresh blocks := by
  obtain ⟨hinit, hlast⟩ := hready
  unfold normalizeInBlock312 at h
  cases hgetLast : b.insts.getLast? with
  | none =>
    rw [hgetLast] at h
    cases h
    have hnil := List.getLast?_eq_none_iff.mp hgetLast
    exact .same rfl (by simp [hnil, JumpsTo])
  | some last =>
    rw [hgetLast] at h
    have hsplit : b.insts = b.insts.dropLast ++ [last] :=
      (List.dropLast_append_getLast? last hgetLast).symm
    dsimp only at h
    split at h
    next hnoJump =>
      cases h
      apply Replaces.same rfl
      rw [hsplit]
      apply hinit.weaken.append
      apply jumpsTo_of_no_jump
      intro inst hinst
      obtain rfl := List.mem_singleton.mp hinst
      exact hnoJump
    next hjump =>
      obtain ⟨t, htarget, hsomewhere, hkind⟩ := hlast last hgetLast (by simpa using hjump)
      rw [htarget] at h
      simp only [Option.bind_eq_bind, Option.bind_some] at h
      split at h
      next =>
        cases h
        exact .same rfl (jumpsTo_of_last hinit rfl hsomewhere fun _ =>
          way_of_choice hsomewhere opcodes.isBackward_backward)
      split at h
      next =>
        cases h
        exact .same rfl (jumpsTo_of_last hinit rfl hsomewhere fun _ =>
          way_of_choice hsomewhere opcodes.isBackward_noInterrupt)
      next hnoJump hnoInterrupt =>
        split at h
        next hforward =>
          cases h
          apply Replaces.same rfl
          rw [hsplit]
          apply jumpsTo_of_last hinit htarget hsomewhere
          intro _
          have hahead := hsomewhere.resolve_left hforward
          rcases hkind with hkind | hkind | hkind | hkind
          · exact absurd hkind hnoJump
          · exact absurd hkind hnoInterrupt
          · obtain ⟨reversed, hreversed⟩ := Option.isSome_iff_exists.mp hkind.1
            rw [if_neg (by simp [(opcodes.reversedJumps_spec _ _ hreversed).2.1])]
            exact hahead
          · exact hkind.2
        next hback =>
          obtain ⟨reversed, hreversed, h⟩ := Option.bind_eq_some_iff.mp h
          cases h
          rcases hkind with hkind | hkind | hkind | hkind
          · exact absurd hkind hnoJump
          · exact absurd hkind hnoInterrupt
          · exact replaces_jumpOver hinit hreversed hkind.2 htarget (not_not.mp hback) nofun
          · rw [hkind.1] at hreversed
            cases hreversed

theorem normalizeInBlock314_replaces (hready : BlockReady opcodes seen b later)
    (h : normalizeInBlock314 opcodes seen fresh b = some blocks) :
    Replaces opcodes (fun op => op = opcodes.JUMP ∨ op = opcodes.JUMP_NO_INTERRUPT) seen later
      b fresh blocks := by
  obtain ⟨hinit, hlast⟩ := hready
  unfold normalizeInBlock314 at h
  cases hgetLast : b.insts.getLast? with
  | none =>
    rw [hgetLast] at h
    cases h
    have hnil := List.getLast?_eq_none_iff.mp hgetLast
    exact .same rfl (by simp [hnil, JumpsTo])
  | some last =>
    rw [hgetLast] at h
    have hsplit : b.insts = b.insts.dropLast ++ [last] :=
      (List.dropLast_append_getLast? last hgetLast).symm
    dsimp only at h
    cases hreversed : opcodes.reversedJumps last.opname with
    | none =>
      rw [hreversed] at h
      cases h
      apply Replaces.same rfl
      rw [hsplit]
      apply hinit.weaken.append
      intro inst hinst hjump
      obtain rfl := List.mem_singleton.mp hinst
      obtain ⟨t, htarget, hsomewhere, hkind⟩ := hlast inst hgetLast hjump
      refine ⟨t, htarget, hsomewhere, fun hpending => ?_⟩
      rcases hkind with hkind | hkind | hkind | hkind
      · exact absurd (.inl hkind) hpending
      · exact absurd (.inr hkind) hpending
      · rw [hreversed] at hkind
        cases hkind.1
      · exact hkind.2
    | some reversed =>
      rw [hreversed] at h
      obtain ⟨hjump, hforwardOp, -, hnoJump, hnoInterrupt⟩ :=
        opcodes.reversedJumps_spec _ _ hreversed
      obtain ⟨t, htarget, hsomewhere, hkind⟩ := hlast last hgetLast hjump
      rw [htarget] at h
      simp only [Option.bind_eq_bind, Option.bind_some] at h
      have hnext : b.next.isSome ∧ b.next = later.head? := by
        rcases hkind with hkind | hkind | hkind | hkind
        · exact absurd hkind hnoJump
        · exact absurd hkind hnoInterrupt
        · exact hkind.2
        · rw [hreversed] at hkind
          cases hkind.1
      have hnotTaken : ∀ inst ∈ [(⟨opcodes.NOT_TAKEN, 0, 0, none⟩ : Inst Op)],
          opcodes.hasJump inst.opname = false := by
        intro inst hinst
        obtain rfl := List.mem_singleton.mp hinst
        exact opcodes.hasJump_notTaken
      split at h
      next hforward =>
        cases h
        refine .same rfl ?_
        dsimp only
        rw [hsplit]
        have hahead := hsomewhere.resolve_left hforward
        apply JumpsTo.append
        · apply jumpsTo_of_last hinit htarget hsomewhere
          intro _
          rw [if_neg (by simp [hforwardOp])]
          exact hahead
        · exact jumpsTo_of_no_jump hnotTaken
      next hback =>
        cases h
        exact replaces_jumpOver hinit hreversed hnext htarget (not_not.mp hback) hnotTaken

end CinderX.Compiler
