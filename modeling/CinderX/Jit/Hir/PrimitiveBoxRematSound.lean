import CinderX.Jit.Hir.PrimitiveBoxRematRuns

/-!
# Rematerialization of boxed doubles is sound

Each box that is sunk is one move, and all boxes that are removed are another.
What the moves leave alone stays as it was, in particular the guilty registers
and iterators that may hold a box.
-/

namespace CinderX.Jit.Hir

open Foundation List Hir.Function

variable {n : Nat} {f : Function n}

namespace Function

variable {boxed : Register n}

theorem inPlaceUser_spec {consumer : Instr n} (h : f.inPlaceUser? boxed = some consumer) :
    consumer.opcode = .kInPlaceOp ∧ boxed ∈ consumer.operands ∧
      ∀ instr ∈ f.instrs, boxed ∈ instr.operands → instr.opcode = .kUseType ∨ instr = consumer := by
  unfold inPlaceUser? at h
  split at h
  next found heq =>
    split at h
    next left right hoperands =>
      split at h
      next hall =>
        cases h
        obtain ⟨hop, -, hright, -⟩ := hall
        refine ⟨hop, by simp [hoperands, hright], fun instr hinstr hreg => ?_⟩
        by_cases huse : instr.opcode = .kUseType
        · exact .inl huse
        · have hmem : instr ∈ (f.directRegUses boxed).filter fun use => use.opcode ≠ .kUseType := by
            simp [directRegUses, hinstr, hreg, huse]
          rw [heq, mem_singleton] at hmem
          exact .inr hmem
      next => simp at h
    next => simp at h
  next => simp at h

theorem mem_rematCandidates {isCDouble : Register n → Bool} {move : BoxMove n}
    (hmove : move ∈ f.rematCandidates isCDouble) : move.box ∈ f.instrs ∧
      move.box.isDoubleBox = true ∧ move.box.output = some move.boxed ∧
      move.box.operands = [move.unboxed] ∧ move.target = none ∧
      ∀ instr ∈ f.instrs, move.boxed ∈ instr.operands → instr.opcode = .kUseType := by
  obtain ⟨box, hbox, hcandidate⟩ := mem_filterMap.mp hmove
  split at hcandidate
  next boxed unboxed houtput hoperands =>
    split at hcandidate
    next hall =>
      cases hcandidate
      obtain ⟨hdouble, -, hremovable⟩ := hall
      refine ⟨hbox, hdouble, houtput, hoperands, rfl, fun instr hinstr hreg => ?_⟩
      unfold collectRemovableUses at hremovable
      split at hremovable
      next huses => exact huses instr (by simp [directRegUses, hinstr, hreg])
      next => simp at hremovable
    next => simp at hcandidate
  next => simp at hcandidate

end Function

namespace InlinedFunction

variable {f : InlinedFunction n} {boxed : Register n}

theorem sinkTarget_spec {box : Instr n} {id : BlockId} (h : f.sinkTarget? box boxed = some id) :
    ∃ consumer, f.inPlaceUser? boxed = some consumer ∧
      ∃ slow ∈ f.blocks, slow.id = id ∧ slow.instrs.head? = some consumer := by
  unfold sinkTarget? at h
  split at h
  next => simp at h
  next =>
    split at h
    next => simp at h
    next consumer hconsumer =>
      split at h
      next source slow hsource hslow =>
        split at h
        next => simp at h
        next branch hbranch =>
          split at h
          next hall =>
            exact ⟨consumer, hconsumer, slow, mem_of_find?_eq_some hslow, Option.some.inj h,
              hall.2.2.2.1⟩
          next => simp at h
      next => simp at h

theorem moves_of_sink {move : BoxMove n} (h : f.sink? boxed = some move) :
    f.Moves [move] ∧ move.boxed = boxed := by
  unfold sink? at h
  split at h
  next => simp at h
  next box hbox =>
    split at h
    next value hoperands =>
      split at h
      next hdouble =>
        obtain ⟨slowId, htarget, rfl⟩ := Option.map_eq_some_iff.mp h
        obtain ⟨consumer, hconsumer, slow, hslow, rfl, hhead⟩ := sinkTarget_spec htarget
        obtain ⟨hop, hreg, hall⟩ := inPlaceUser_spec hconsumer
        obtain ⟨hmem, houtput⟩ := mem_instrs_of_instr? hbox
        refine ⟨⟨?_, ?_, ?_⟩, rfl⟩
        · simpa using ⟨hmem, hdouble, houtput, hoperands⟩
        · simp only [mem_singleton, forall_eq]
          intro instr hinstr huse
          cases hall instr hinstr huse with
          | inl huseType => exact .inl huseType
          | inr hsame => exact .inr ⟨slow, hslow, rfl, hsame ▸ hop, hsame ▸ hhead⟩
        · simp only [mem_singleton, forall_eq, Option.some.injEq]
          rintro id rfl
          exact ⟨trivial, slow, hslow, rfl, consumer, hhead, hop, hreg⟩
      next => simp at h
    next => simp at h

theorem moves_rematerialized (isCDouble : Register n → Bool) :
    f.Moves (f.rematerialized isCDouble) := by
  have hall : ∀ move ∈ f.rematerialized isCDouble, move ∈ f.rematCandidates isCDouble :=
    fun move hmove => (mem_filter.mp hmove).1
  refine ⟨fun move hmove => ?_, fun move hmove instr hinstr hreg => ?_,
    fun move hmove id htarget => ?_⟩
  · obtain ⟨hmem, hdouble, houtput, hoperands, -⟩ := mem_rematCandidates (hall move hmove)
    exact ⟨hmem, hdouble, houtput, hoperands⟩
  · obtain ⟨-, -, -, -, -, huses⟩ := mem_rematCandidates (hall move hmove)
    exact .inl (huses instr hinstr hreg)
  · obtain ⟨-, -, -, -, hnone, -⟩ := mem_rematCandidates (hall move hmove)
    simp [hnone] at htarget

end InlinedFunction

inductive InlinedFunction.MovesTo (f : InlinedFunction n) :
    InlinedFunction n → List (BoxMove n) → Prop
  | refl : MovesTo f f []
  | step {g : InlinedFunction n} {moves next : List (BoxMove n)} (hmoves : MovesTo f g moves)
      (hnext : g.Moves next)
      (hnew : ∀ move ∈ moves, ∀ other ∈ next, move.boxed = other.boxed → other.target = none) :
      MovesTo f (g.moveBoxes next) (moves ++ next)

theorem Function.Boxable.nodup_doubleBoxes (h : f.Boxable) : f.doubleBoxes.Nodup := by
  have hnodup : (f.instrs.filterMap Instr.output).Nodup := outputs_eq f ▸ h.nodup_outputs
  have hfilter : f.doubleBoxes = (f.instrs.filter Instr.isDoubleBox).filterMap Instr.output := by
    rw [filterMap_filter]
    rfl
  rw [hfilter]
  exact (filter_sublist.filterMap _).nodup hnodup

namespace InlinedFunction

variable {f : InlinedFunction n}

theorem MovesTo.sinkBoxes {boxes : List (Register n)} (hnodup : boxes.Nodup) {g : InlinedFunction n}
    {moves : List (BoxMove n)} (hmoves : f.MovesTo g moves)
    (hnew : ∀ move ∈ moves, move.boxed ∉ boxes) :
    f.MovesTo (sinkBoxes boxes g).1 (moves ++ (sinkBoxes boxes g).2) := by
  induction boxes generalizing g moves with
  | nil => simpa [InlinedFunction.sinkBoxes] using hmoves
  | cons boxed rest ih =>
    have hrest := (nodup_cons.mp hnodup).2
    have hfirst := (nodup_cons.mp hnodup).1
    unfold InlinedFunction.sinkBoxes
    cases hsink : g.sink? boxed with
    | none =>
      exact ih hrest hmoves fun move hmove hmem => hnew move hmove (mem_cons_of_mem _ hmem)
    | some move =>
      obtain ⟨hnext, hboxed⟩ := moves_of_sink hsink
      have hstep : f.MovesTo (g.moveBoxes [move]) (moves ++ [move]) := by
        refine .step hmoves hnext fun other hother last hlast hsame => ?_
        rw [mem_singleton] at hlast
        rw [hlast, hboxed] at hsame
        exact absurd mem_cons_self (hsame ▸ hnew other hother)
      have hlater := ih hrest hstep fun other hother hmem => by
        cases mem_append.mp hother with
        | inl hearlier => exact hnew other hearlier (mem_cons_of_mem _ hmem)
        | inr hlast =>
          rw [mem_singleton] at hlast
          rw [hlast, hboxed] at hmem
          exact hfirst hmem
      simpa using hlater

theorem movesTo (h : f.Boxable) (beforePy312 : Bool) (isCDouble : Register n → Bool) :
    f.MovesTo (f.movedBoxes beforePy312 isCDouble).1 (f.movedBoxes beforePy312 isCDouble).2 := by
  unfold movedBoxes
  have hsunk : f.MovesTo (if beforePy312 then f.sinkInPlaceTemporaryBoxes else (f, [])).1
      (if beforePy312 then f.sinkInPlaceTemporaryBoxes else (f, [])).2 := by
    cases beforePy312 with
    | false => exact .refl
    | true =>
      simpa [sinkInPlaceTemporaryBoxes] using
        MovesTo.sinkBoxes h.nodup_doubleBoxes .refl (by simp)
  refine .step hsunk (moves_rematerialized isCDouble) fun move hmove other hother hsame => ?_
  exact (mem_rematCandidates (mem_filter.mp hother).1).2.2.2.2.1

end InlinedFunction

namespace Function

def HasOtherUse (f : Function n) (id : BlockId) (reg : Register n) : Prop :=
  ∃ block ∈ f.blocks, block.id = id ∧ ∃ instr ∈ block.instrs, reg ∈ instr.otherUses

theorem otherUsesBehind_iff {move : BoxMove n} : f.OtherUsesBehind move ↔
    ∀ id, f.HasOtherUse id move.boxed →
      ∃ target, move.target = some target ∧ ∀ walked, f.Walk walked id → target ∈ id :: walked := by
  constructor
  · rintro h _ ⟨block, hblock, rfl, instr, hinstr, hreg⟩
    exact h block hblock instr hinstr hreg
  · exact fun h block hblock instr hinstr hreg =>
      h block.id ⟨block, hblock, rfl, instr, hinstr, hreg⟩

variable {moves : List (BoxMove n)}

theorem Moves.hasOtherUse (h : f.Moves moves) (hbox : f.Boxable) {id : BlockId} {reg : Register n} :
    (f.moveBoxes moves).HasOtherUse id reg ↔ f.HasOtherUse id reg := by
  constructor
  · rintro ⟨block, hblock, rfl, instr, hinstr, hreg⟩
    obtain ⟨old, hold, rfl⟩ := mem_mapBlocks.mp hblock
    obtain ⟨move, hmove, -, rfl⟩ | ⟨instr, hin, -, rfl⟩ := of_mem_moveBoxes hinstr
    · have hnone := (hbox.created move.box (h.box move hmove).1).otherUses
        (.inl (h.opcode_box hmove))
      simp [hnone] at hreg
    · rw [Instr.mapFrames_otherUses] at hreg
      exact ⟨old, hold, rfl, instr, hin, hreg⟩
  · rintro ⟨block, hblock, rfl, instr, hinstr, hreg⟩
    have hkept : isUnlinked moves instr = false := by
      by_contra hunlinked
      have hnone := (hbox.created instr (mem_instrs.mpr ⟨block, hblock, hinstr⟩)).otherUses
        ((h.opcode_of_isUnlinked (by simpa using hunlinked)).imp_right .inl)
      simp [hnone] at hreg
    refine ⟨_, mem_mapBlocks.mpr ⟨block, hblock, rfl⟩, rfl, instr.mapFrames (unboxedIn moves), ?_,
      ?_⟩
    · exact mem_append_right _ (mem_keptIn.mpr ⟨instr, hinstr, hkept, rfl⟩)
    · rwa [Instr.mapFrames_otherUses]

structure Moved (f g : Function n) (moves : List (BoxMove n)) : Prop where
  boxable : g.Boxable
  walk : ∀ walked id, g.Walk walked id ↔ f.Walk walked id
  otherUse : ∀ id reg, g.HasOtherUse id reg ↔ f.HasOtherUse id reg
  boxes : ∀ move ∈ moves, ∀ block ∈ g.blocks, ∀ instr ∈ block.instrs,
    instr.output = some move.boxed → move.target = some block.id ∧ instr.opcode = .kPrimitiveBox

variable {g : Function n}

theorem Moves.exists_def (h : f.Moves moves) (hbox : f.Boxable) {reg : Register n}
    (hne : ∀ move ∈ moves, move.boxed ≠ reg) (hdef : ∃ d ∈ f.instrs, d.output = some reg) :
    ∃ d ∈ (f.moveBoxes moves).instrs, d.output = some reg := by
  obtain ⟨d, hd, houtput⟩ := hdef
  obtain ⟨block, hblock, hin⟩ := mem_instrs.mp hd
  obtain ⟨kept, hkept, houtput'⟩ := mem_filterMap.mp <| h.mem_definedBy_keptIn hbox
    (fun instr hinstr => mem_instrs.mpr ⟨block, hblock, hinstr⟩) hne
    (mem_filterMap.mpr ⟨d, hin, houtput⟩)
  have hmem := mem_append_right (insertedIn moves block.id) hkept
  exact ⟨kept, mem_instrs.mpr ⟨_, mem_mapBlocks.mpr ⟨block, hblock, rfl⟩, hmem⟩, houtput'⟩

theorem Moved.moveBoxes {next : List (BoxMove n)} (h : f.Moved g moves) (hnext : g.Moves next)
    (hnew : ∀ move ∈ moves, ∀ other ∈ next, move.boxed = other.boxed → other.target = none) :
    f.Moved (g.moveBoxes next) (moves ++ next) := by
  refine ⟨hnext.boxable h.boxable, fun walked id => ?_, fun id reg => ?_, ?_⟩
  · rw [Function.moveBoxes, walk_mapBlocks (hnext.keepsEdges h.boxable), h.walk]
  · rw [hnext.hasOtherUse h.boxable, h.otherUse]
  · intro move hmove block hblock instr hinstr houtput
    obtain ⟨old, hold, rfl⟩ := mem_mapBlocks.mp hblock
    obtain ⟨other, hother, htarget, rfl⟩ | ⟨instr, hin, hkept, rfl⟩ := of_mem_moveBoxes hinstr
    · have hboxed := (hnext.box other hother).2.2.1
      have hsame : move.boxed = other.boxed := Option.some.inj (houtput.symm.trans hboxed)
      cases mem_append.mp hmove with
      | inl hearlier => simp [hnew move hearlier other hother hsame] at htarget
      | inr hlast =>
        have hall := (hnext.target other hother _ htarget).1
        rw [hall, mem_singleton] at hlast
        exact ⟨hlast ▸ htarget, hnext.opcode_box hother⟩
    · cases mem_append.mp hmove with
      | inl hearlier => exact h.boxes move hearlier old hold instr hin houtput
      | inr hlast =>
        obtain ⟨hmem, -, hboxed, -⟩ := hnext.box move hlast
        have hsame := def_unique h.boxable.nodup_outputs
          (mem_instrs.mpr ⟨old, hold, hin⟩) hmem houtput hboxed
        have hunlinked := isUnlinked_iff.mpr ⟨move, hlast, .inl hsame⟩
        simp [hkept] at hunlinked

theorem Moved.otherUsesBehind (h : f.Moved g moves) {move : BoxMove n} :
    g.OtherUsesBehind move ↔ f.OtherUsesBehind move := by
  simp only [otherUsesBehind_iff, h.otherUse, h.walk]

end Function

namespace InlinedFunction

variable {f g : InlinedFunction n} {moves : List (BoxMove n)}

theorem MovesTo.moved (hbox : f.Boxable) (hmoves : f.MovesTo g moves) :
    f.Moved g.toFunction moves := by
  induction hmoves with
  | refl => exact ⟨hbox, fun _ _ => .rfl, fun _ _ => .rfl, by simp⟩
  | step hmoves hnext hnew ih => exact ih.moveBoxes hnext hnew

theorem MovesTo.inSsaForm (hbox : f.Boxable) (hf : InSsaForm f.toFunction)
    (hmoves : f.MovesTo g moves)
    (hcond : ∀ move ∈ moves, f.OtherUsesBehind move) : InSsaForm g.toFunction := by
  induction hmoves with
  | refl => exact hf
  | @step g moves next hmoves hnext hnew ih =>
    have hmoved := hmoves.moved hbox
    have hg := ih fun move hmove => hcond move (mem_append_left _ hmove)
    exact hnext.inSsaForm hmoved.boxable hg fun move hmove =>
      hmoved.otherUsesBehind.mpr (hcond move (mem_append_right _ hmove))

/-- The registers of the frame states that `BeginInlinedFunction`s own are outputs of
instructions. -/
def CallersDefined (f : InlinedFunction n) : Prop :=
  ∀ caller ∈ f.callers, ∀ reg ∈ caller.frame.uses, ∃ d ∈ f.instrs, d.output = some reg

instance : Decidable f.CallersDefined :=
  inferInstanceAs (Decidable (∀ caller ∈ f.callers, ∀ reg ∈ caller.frame.uses, ∃ d ∈ f.instrs,
    d.output = some reg))

theorem CallersDefined.moveBoxes (hcallers : f.CallersDefined) (hbox : f.Boxable)
    (hf : InSsaForm f.toFunction) (hmoves : f.Moves moves) :
    (f.moveBoxes moves).CallersDefined := by
  intro caller hcaller reg hreg
  obtain ⟨old, hold, rfl⟩ := List.mem_map.mp hcaller
  rw [Frame.uses_mapUses] at hreg
  obtain ⟨use, huse, rfl⟩ := List.mem_map.mp hreg
  refine hmoves.exists_def hbox (fun move hmove => hmoves.unboxedIn_ne use hmove) ?_
  by_cases hne : ∀ move ∈ moves, move.boxed ≠ use
  · rw [unboxedIn_of_forall_ne hne]
    exact hcallers old hold use huse
  · push Not at hne
    obtain ⟨move, hmove, rfl⟩ := hne
    obtain ⟨hmem, -, -, hoperands⟩ := hmoves.box move hmove
    obtain ⟨d, hd⟩ := hf.exists_def hmem
      (Instr.mem_visitUses.mpr (.inl (by simp [hoperands] : move.unboxed ∈ move.box.operands)))
    rw [hmoves.unboxedIn_boxed hf hmove]
    exact ⟨d, mem_instrs_of_instr? hd⟩

theorem MovesTo.callersDefined (hbox : f.Boxable) (hf : InSsaForm f.toFunction)
    (hcallers : f.CallersDefined) (hmoves : f.MovesTo g moves)
    (hcond : ∀ move ∈ moves, f.OtherUsesBehind move) : g.CallersDefined := by
  induction hmoves with
  | refl => exact hcallers
  | step hmoves hnext hnew ih =>
    have hbefore : ∀ move ∈ _, f.OtherUsesBehind move :=
      fun move hmove => hcond move (mem_append_left _ hmove)
    exact (ih hbefore).moveBoxes (hmoves.moved hbox).boxable
      (hmoves.inSsaForm hbox hf hbefore) hnext

theorem MovesTo.run (hbox : f.Boxable) (hf : InSsaForm f.toFunction) (hmoves : f.MovesTo g moves)
    (hcond : ∀ move ∈ moves, f.OtherUsesBehind move) {V W : Type}
    {exec : Request V → W → Outcome V W} {values : Reification V} (hexec : RunsBoxes exec values)
    {seen : List (BoxMove n)} (hseen : moves ⊆ seen) (fuel : Nat) (regs : Register n → V)
    (world : W) : observe (boxEvent seen values.reify) (f.execute exec fuel regs world) =
      observe (boxEvent seen values.reify) (g.execute exec fuel regs world) := by
  induction hmoves with
  | refl => rfl
  | @step g moves next hmoves hnext hnew ih =>
    have hcondLeft : ∀ move ∈ moves, f.OtherUsesBehind move :=
      fun move hmove => hcond move (mem_append_left _ hmove)
    have hg := hmoves.inSsaForm hbox hf hcondLeft
    have hgNext := (MovesTo.step hmoves hnext hnew).inSsaForm hbox hf hcond
    have hbefore := ih hcondLeft fun move hmove => hseen (mem_append_left _ hmove)
    have hlast := hnext.run_moveBoxes hg (hmoves.moved hbox).boxable hgNext hexec
      (fun move hmove => hseen (mem_append_right _ hmove)) fuel regs world
    exact hbefore.trans hlast

end InlinedFunction

/-! ## Copy propagation afterwards -/

theorem Instr.mem_otherUses_mapUses {rename : Register n → Register n} {instr : Instr n}
    {reg : Register n} (hreg : reg ∈ instr.otherUses) :
    rename reg ∈ (instr.mapUses rename).otherUses := by
  cases hdeopt : instr.deopt with
  | none =>
    simp only [otherUses, hdeopt, nil_append, Option.mem_toList] at hreg
    simp [mapUses, otherUses, hdeopt, hreg]
  | some info =>
    simp only [otherUses, hdeopt, mem_append, Option.mem_toList] at hreg
    simp only [mapUses, otherUses, hdeopt, Option.map_some, mem_append, Option.mem_toList]
    exact hreg.imp (fun hguilty => by simp [hguilty]) fun hiter => by simp [hiter]

def Function.propagateReached (f : Function n) (reachable : List BlockId) (block : BasicBlock n) :
    List (Instr n) :=
  if block.id ∈ reachable then propagateIn f block.instrs else block.instrs

theorem exists_of_copyPropagation {g : Function n} (h : copyPropagation f = some g) :
    ∃ reachable, g = f.mapBlocks (f.propagateReached reachable) := by
  unfold copyPropagation at h
  split at h
  next => simp at h
  next reachable hreachable =>
    split at h
    next => exact ⟨reachable, (Option.some.inj h).symm⟩
    next => simp at h

namespace Function

variable {reachable : List BlockId}

theorem mem_of_mem_propagateReached {block : BasicBlock n} {instr : Instr n}
    (h : instr ∈ f.propagateReached reachable block) :
    ∃ old ∈ block.instrs, instr.output = old.output := by
  unfold propagateReached at h
  split at h
  next =>
    obtain ⟨old, hold, -, rfl⟩ := mem_propagateIn.mp h
    exact ⟨old, hold, rfl⟩
  next => exact ⟨instr, h, rfl⟩

theorem Boxable.keepsEdges_propagateReached (h : f.Boxable) (reachable : List BlockId) :
    f.KeepsEdges (f.propagateReached reachable) := by
  intro block hblock
  unfold propagateReached
  split
  next =>
    refine keepsEdges_propagateIn (fun block hblock instr hinstr hassign => ?_) block hblock
    by_contra hne
    have hterm := (h.wellShaped instr (mem_instrs.mpr ⟨block, hblock, hinstr⟩)).successors hne
    simp [hassign, Opcode.isTerminator] at hterm
  next => rfl

variable {g : Function n} {moves : List (BoxMove n)}

variable {move : BoxMove n}

theorem Moved.propagatedTo (h : f.Moved g moves) (hmove : move ∈ moves) :
    g.propagatedTo move.boxed = move.boxed := by
  have hnone : g.assignOperand? move.boxed = none := by
    unfold assignOperand?
    split
    next instr hfind =>
      obtain ⟨hmem, houtput⟩ := mem_instrs_of_instr? hfind
      obtain ⟨block, hblock, hin⟩ := mem_instrs.mp hmem
      have hop := (h.boxes move hmove block hblock instr hin houtput).2
      simp [hop]
    next => rfl
  have hchase : g.chaseAssignOperand move.boxed = some move.boxed := by
    unfold chaseAssignOperand
    cases n with
    | zero => simp [chase, hnone]
    | succ n => simp [chase, hnone]
  simp [Function.propagatedTo, hchase]

theorem Moved.hasOtherUse_propagateReached (h : f.Moved g moves) (hmove : move ∈ moves)
    {id : BlockId} (huse : f.HasOtherUse id move.boxed) :
    (g.mapBlocks (g.propagateReached reachable)).HasOtherUse id move.boxed := by
  obtain ⟨block, hblock, rfl, instr, hinstr, hreg⟩ := (h.otherUse id move.boxed).mpr huse
  have hassign : instr.opcode ≠ .kAssign := by
    intro hassign
    have hnone := (h.boxable.created instr (mem_instrs.mpr ⟨block, hblock, hinstr⟩)).otherUses
      (.inr (.inr hassign))
    simp [hnone] at hreg
  refine ⟨_, mem_mapBlocks.mpr ⟨block, hblock, rfl⟩, rfl, ?_⟩
  simp only [propagateReached]
  split
  next =>
    refine ⟨_, mem_propagateIn.mpr ⟨instr, hinstr, hassign, rfl⟩, ?_⟩
    exact h.propagatedTo hmove ▸ Instr.mem_otherUses_mapUses hreg
  next => exact ⟨instr, hinstr, hreg⟩

theorem Moved.otherUsesBehind_of_inSsaForm (hf : InSsaForm f) (h : f.Moved g moves)
    (hresult : InSsaForm (g.mapBlocks (g.propagateReached reachable))) (hmove : move ∈ moves) :
    f.OtherUsesBehind move := by
  rw [otherUsesBehind_iff]
  intro id huse
  have hid : id ∈ f.blockIds := by
    obtain ⟨block, hblock, rfl, -⟩ := huse
    exact mem_blockIds.mpr ⟨block, hblock, rfl⟩
  obtain ⟨block, hblock, rfl, instr, hinstr, hreg⟩ := h.hasOtherUse_propagateReached hmove huse
  have hphi : instr.isPhi = false := by
    cases hisPhi : instr.isPhi with
    | false => rfl
    | true => simp [((hresult.wellShaped block hblock instr hinstr).uses_phi hisPhi).2] at hreg
  obtain ⟨pre, post, heq⟩ := append_of_mem hinstr
  have hdefined := hresult.uses block hblock pre instr post heq hphi move.boxed
    (Instr.mem_visitUses.mpr (.inr (.inr hreg)))
  have hplace : ∀ other, move.boxed ∈ (g.mapBlocks (g.propagateReached reachable)).outputsOf other →
      move.target = some other := by
    intro other hout
    obtain ⟨home, hhome, rfl, hdefines⟩ := mem_outputsOf.mp hout
    obtain ⟨old, hold, rfl⟩ := mem_mapBlocks.mp hhome
    obtain ⟨d, hd, houtput⟩ := mem_filterMap.mp hdefines
    obtain ⟨d', hd', hsame⟩ := mem_of_mem_propagateReached hd
    exact (h.boxes move hmove old hold d' hd' (hsame ▸ houtput)).1
  have hwalks : ∀ walked, f.Walk walked block.id →
      ∃ other ∈ block.id :: walked, move.target = some other := by
    intro walked hwalk
    have hwalk' := (walk_mapBlocks (h.boxable.keepsEdges_propagateReached reachable)).mpr
      ((h.walk walked block.id).mpr hwalk)
    cases hdefined walked hwalk' with
    | inl hon =>
      obtain ⟨other, hother, hout⟩ := hon
      exact ⟨other, mem_cons_of_mem _ hother, hplace other hout⟩
    | inr hpre =>
      refine ⟨block.id, mem_cons_self, hplace block.id ?_⟩
      rw [outputsOf_of_mem hblock, BasicBlock.outputs, heq, filterMap_append]
      exact mem_append_left _ hpre
  obtain ⟨walked, hwalk⟩ := hf.wellFormed.cfg.reachable block.id hid
  obtain ⟨target, -, htarget⟩ := hwalks walked hwalk
  refine ⟨target, htarget, fun walked hwalk => ?_⟩
  obtain ⟨other, hother, htarget'⟩ := hwalks walked hwalk
  rwa [Option.some.inj (htarget.symm.trans htarget')]

end Function

namespace InlinedFunction

variable {f g : InlinedFunction n}

/-- No frame state that only a `BeginInlinedFunction` has holds the output of an `Assign`. -/
def CopiesShared (f : InlinedFunction n) : Prop :=
  ∀ caller ∈ f.callers, caller.shared = false → ∀ reg ∈ caller.frame.uses, ∀ d ∈ f.instrs,
    d.output = some reg → d.opcode ≠ .kAssign

instance : Decidable f.CopiesShared :=
  inferInstanceAs (Decidable (∀ caller ∈ f.callers, caller.shared = false →
    ∀ reg ∈ caller.frame.uses, ∀ d ∈ f.instrs, d.output = some reg → d.opcode ≠ .kAssign))

theorem copyPropagation_eq (hf : InSsaForm f.toFunction) : f.copyPropagation =
    some ⟨f.mapBlocks fun block => propagateIn f.toFunction block.instrs,
      f.callers.map (Caller.mapUses f.propagatedTo)⟩ := by
  rw [InlinedFunction.copyPropagation, hf.copyPropagation_eq]
  rfl

theorem exists_def_propagateIn {reg : Register n} :
    (∃ d ∈ (f.mapBlocks fun block => propagateIn f.toFunction block.instrs).instrs,
        d.output = some reg) ↔
      ∃ d ∈ f.instrs, d.output = some reg ∧ d.opcode ≠ .kAssign := by
  constructor
  · rintro ⟨d, hd, houtput⟩
    obtain ⟨block, hblock, hin⟩ := mem_instrs.mp hd
    obtain ⟨old, hold, rfl⟩ := mem_mapBlocks.mp hblock
    obtain ⟨instr, hinstr, hassign, rfl⟩ := mem_propagateIn.mp hin
    exact ⟨instr, mem_instrs.mpr ⟨old, hold, hinstr⟩, houtput, hassign⟩
  · rintro ⟨d, hd, houtput, hassign⟩
    obtain ⟨block, hblock, hin⟩ := mem_instrs.mp hd
    refine ⟨d.mapUses f.propagatedTo, mem_instrs.mpr ?_, houtput⟩
    exact ⟨_, mem_mapBlocks.mpr ⟨block, hblock, rfl⟩, mem_propagateIn.mpr ⟨d, hin, hassign, rfl⟩⟩

theorem exists_def_propagatedTo (hf : InSsaForm f.toFunction) {reg : Register n}
    (hdef : ∃ d ∈ f.instrs, d.output = some reg) :
    ∃ d ∈ f.instrs, d.output = some (f.propagatedTo reg) ∧ d.opcode ≠ .kAssign := by
  have hroot : ∃ d ∈ f.instrs, d.output = some (f.propagatedTo reg) := by
    cases (hf.wellFormed.propagatedTo_chain reg).cases_tail with
    | inl hself => rwa [hself]
    | inr hlast =>
      obtain ⟨-, -, copy, hcopy, -, -, huse⟩ := hlast
      obtain ⟨d, hd⟩ := hf.exists_def hcopy (Instr.mem_visitUses.mpr (.inl huse))
      exact ⟨d, mem_instrs_of_instr? hd⟩
  obtain ⟨d, hd, houtput⟩ := hroot
  have hend := (hf.propagatedTo_spec reg).2
  exact ⟨d, hd, houtput, hf.opcode_ne_of_assignOperand? hend hd houtput⟩

theorem callersDefined_copyPropagation (hf : InSsaForm f.toFunction)
    (hcallers : f.CallersDefined) (hg : f.copyPropagation = some g) :
    g.CallersDefined ↔ f.CopiesShared := by
  rw [copyPropagation_eq hf, Option.some.injEq] at hg
  subst hg
  simp only [CallersDefined, exists_def_propagateIn, List.forall_mem_map]
  refine forall₂_congr fun caller hcaller => ?_
  cases hshared : caller.shared with
  | true =>
    simp only [Caller.mapUses, hshared, if_true, reduceCtorEq, false_implies, iff_true]
    intro reg hreg
    rw [Frame.uses_mapUses] at hreg
    obtain ⟨use, huse, rfl⟩ := List.mem_map.mp hreg
    exact exists_def_propagatedTo hf (hcallers caller hcaller use huse)
  | false =>
    simp only [Caller.mapUses, hshared, Bool.false_eq_true, if_false, true_implies]
    refine forall₂_congr fun reg hreg => ⟨?_, fun hcopies => ?_⟩
    · rintro ⟨d, hd, houtput, hassign⟩ other hother houtput'
      rwa [hf.wellFormed.def_unique hother hd houtput' houtput]
    · obtain ⟨d, hd, houtput⟩ := hcallers caller hcaller reg hreg
      exact ⟨d, hd, houtput, hcopies d hd houtput⟩

end InlinedFunction

/-- What the pass has to do: whatever the result uses is defined, and it runs like the function.
All instructions but copies, `UseType`s and the moved boxes get the same operands, and the slots of
their frame states stand for the same Python values. -/
structure RematSound (f g : InlinedFunction n) (moves : List (BoxMove n)) : Prop where
  form : InSsaForm g.toFunction
  callers : g.CallersDefined
  runs : ∀ (V W : Type) (exec : Request V → W → Outcome V W) (values : Reification V),
    RunsBoxes exec values → ∀ (fuel : Nat) (regs : Register n → V) (world : W),
      observe (boxEvent moves values.reify) (f.execute exec fuel regs world) =
        observe (boxEvent moves values.reify) (g.execute exec fuel regs world)

section

variable {f : InlinedFunction n}

theorem InlinedFunction.MovesTo.rematSound (hbox : f.Boxable) (hf : InSsaForm f.toFunction)
    (hcallers : f.CallersDefined) {g result : InlinedFunction n} {moves : List (BoxMove n)}
    (hmoves : f.MovesTo g moves) (hcond : ∀ move ∈ moves, f.OtherUsesBehind move)
    (hresult : g.copyPropagation = some result) :
    RematSound f result moves ↔ g.CopiesShared := by
  have hg := hmoves.inSsaForm hbox hf hcond
  have hdefined := callersDefined_copyPropagation hg
    (hmoves.callersDefined hbox hf hcallers hcond) hresult
  refine ⟨fun hsound => hdefined.mp hsound.callers, fun hcopies => ?_⟩
  have hdefined := hdefined.mpr hcopies
  rw [copyPropagation_eq hg, Option.some.injEq] at hresult
  subst hresult
  refine ⟨hg.propagated, hdefined, ?_⟩
  intro V W exec values hexec fuel regs world
  have hbefore := hmoves.run hbox hf hcond hexec (fun _ hmem => hmem) fuel regs world
  exact hbefore.trans (hg.run_propagated_of (ignoresCopies_boxEvent _ _) hexec.toRunsAssigns fuel
    regs world)

theorem primitiveBoxRemat_sound_iff (beforePy312 : Bool) (isCDouble : Register n → Bool)
    (hform : InSsaForm f.toFunction) (hcreated : ∀ instr ∈ f.instrs, instr.BoxCreated)
    (hcallers : f.CallersDefined) :
    (∃ g, primitiveBoxRemat beforePy312 isCDouble f = some g ∧
        RematSound f g (f.movedBoxes beforePy312 isCDouble).2) ↔
      (∀ move ∈ (f.movedBoxes beforePy312 isCDouble).2, f.OtherUsesBehind move) ∧
        ((f.movedBoxes beforePy312 isCDouble).2 ≠ [] →
          (f.movedBoxes beforePy312 isCDouble).1.CopiesShared) := by
  have hwell : ∀ instr ∈ f.instrs, instr.WellShaped := by
    intro instr hinstr
    obtain ⟨block, hblock, hin⟩ := mem_instrs.mp hinstr
    exact hform.wellShaped block hblock instr hin
  have hbox : f.Boxable := ⟨hwell, hcreated, hform.wellFormed.nodup_outputs⟩
  have hmoves := InlinedFunction.movesTo hbox beforePy312 isCDouble
  unfold primitiveBoxRemat
  by_cases hnone : (f.movedBoxes beforePy312 isCDouble).2 = []
  · simp only [hnone, if_true, not_mem_nil, false_implies, implies_true, ne_eq, not_true, true_and,
      iff_true]
    exact ⟨f, rfl, hform, hcallers, fun _ _ _ _ _ _ _ _ => rfl⟩
  · simp only [hnone, if_false, ne_eq, not_false_eq_true, true_implies]
    constructor
    · rintro ⟨result, hresult, hsound⟩
      have hcond : ∀ move ∈ (f.movedBoxes beforePy312 isCDouble).2, f.OtherUsesBehind move := by
        intro move hmove
        obtain ⟨propagated, hpropagated, rfl⟩ := Option.map_eq_some_iff.mp hresult
        obtain ⟨reachable, rfl⟩ := exists_of_copyPropagation hpropagated
        exact (hmoves.moved hbox).otherUsesBehind_of_inSsaForm hform hsound.form hmove
      exact ⟨hcond, (hmoves.rematSound hbox hform hcallers hcond hresult).mp hsound⟩
    · rintro ⟨hcond, hcopies⟩
      have hresult := InlinedFunction.copyPropagation_eq (hmoves.inSsaForm hbox hform hcond)
      exact ⟨_, hresult, (hmoves.rematSound hbox hform hcallers hcond hresult).mpr hcopies⟩

end

/-- One box is used on the slow path of an addition only, another one by frame states only, also by
that of a function that is left before anything in it can deopt. -/
def addToDouble : InlinedFunction 7 where
  toFunction := .ofObjects [⟨0, [{ opcode := .kLoadArg, output := some 0 },
      { opcode := .kLoadArg, immediate := 1, output := some 1 },
      .primitiveUnbox 2 1 TCDouble,
      { opcode := .kPrimitiveBox, immediate := TCDouble, output := some 3, operands := [2] },
      { opcode := .kAssign, output := some 6, operands := [0] },
      { opcode := .kBeginInlinedFunction },
      { opcode := .kSnapshot, snapshotState := [⟨[some 0], [], 0⟩, ⟨[some 6, some 3], [], 2⟩] },
      { opcode := .kEndInlinedFunction },
      { opcode := .kBeginInlinedFunction },
      { opcode := .kEndInlinedFunction },
      { opcode := .kPrimitiveBox, immediate := TCDouble, output := some 4, operands := [2] },
      { opcode := .kSnapshot, snapshotState := [⟨[some 0], [0, 4], 2⟩] },
      { opcode := .kUseType, operands := [4] },
      { opcode := .kCondBranchCheckType, immediate := TFloatExact, operands := [0],
        successors := [1, 2] }]⟩,
    ⟨1, [{ opcode := .kReturn, operands := [0] }]⟩,
    ⟨2, [{ opcode := .kInPlaceOp, output := some 5, operands := [0, 4] },
      { opcode := .kReturn, operands := [5] }]⟩] (by simp)
  callers := [⟨⟨[some 6, some 3], [], 2⟩, true⟩, ⟨⟨[some 0, some 3], [], 4⟩, false⟩]

/-- Numbers with a mark on the boxed ones. -/
def markedDoubles : Reification (Nat × Bool) where
  box value := (value.1, true)
  reify value := (value.1, true)
  reify_box _ := rfl

def execMarked (request : Request (Nat × Bool)) (world : Nat) : Outcome (Nat × Bool) Nat :=
  match request.opcode, request.operands with
  | .kAssign, [value] => .next value world
  | .kPrimitiveBox, [value] => .next (value.1, true) world
  | .kUseType, _ => .next (0, false) world
  | .kCondBranchCheckType, _ => .jump 1 world
  | .kReturn, _ => .leave world
  | _, _ => .next (world, false) (world + 1)

theorem runsBoxes_execMarked : RunsBoxes execMarked markedDoubles where
  next request value world hop hoperands := by rw [execMarked, hop, hoperands]
  reified request request' world h := by
    have hop := congrArg Request.opcode h
    have hoperands := congrArg Request.operands h
    change request.opcode = request'.opcode at hop
    change request.operands = request'.operands at hoperands
    rw [execMarked, execMarked, hop, hoperands]
  useType request world hop := ⟨(0, false), by rw [execMarked, hop]⟩
  box request value world hop _ hoperands := by
    rw [execMarked, hop, hoperands]
    rfl

theorem primitiveBoxRemat_addToDouble :
    (addToDouble.movedBoxes true fun reg => reg = 2).2.map (fun move => (move.boxed, move.target)) =
        [(4, some 2), (3, none)] ∧
      ∃ g, primitiveBoxRemat true (fun reg => reg = 2) addToDouble = some g ∧
        RematSound addToDouble g (addToDouble.movedBoxes true fun reg => reg = 2).2 ∧
        observe (boxEvent (addToDouble.movedBoxes true fun reg => reg = 2).2 markedDoubles.reify)
            (addToDouble.execute execMarked 3 (fun _ => (0, false)) 1) =
          observe (boxEvent (addToDouble.movedBoxes true fun reg => reg = 2).2 markedDoubles.reify)
            (g.execute execMarked 3 (fun _ => (0, false)) 1) := by
  have hnone : ∀ block ∈ addToDouble.blocks, ∀ instr ∈ block.instrs, instr.otherUses = [] := by
    decide
  obtain ⟨g, hg, hsound⟩ : ∃ g, primitiveBoxRemat true (fun reg => reg = 2) addToDouble = some g ∧
      RematSound addToDouble g (addToDouble.movedBoxes true fun reg => reg = 2).2 := by
    refine (primitiveBoxRemat_sound_iff true (fun reg => decide (reg = 2))
      (checkSsaForm_iff.mp (by decide)) (by decide) (by decide)).mpr ⟨?_, fun _ => by decide⟩
    intro move hmove block hblock instr hinstr hreg
    simp [hnone block hblock instr hinstr] at hreg
  exact ⟨by decide, g, hg, hsound, hsound.runs _ _ _ _ runsBoxes_execMarked 3 _ 1⟩

/-- `a, b = x + 1.0` for a `float`: the deopt blames the boxed sum, which is on the stack before. -/
def unpackDouble : InlinedFunction 3 where
  toFunction := .ofObjects [⟨0, [{ opcode := .kLoadArg, output := some 0 },
      .primitiveUnbox 1 0 TCDouble,
      { opcode := .kPrimitiveBox, immediate := TCDouble, output := some 2, operands := [1] },
      { opcode := .kSnapshot, snapshotState := [⟨[some 0], [2], 4⟩] },
      { opcode := .kDeopt, deopt := some ⟨[⟨[some 0], [2], 4⟩], some 2⟩ }]⟩] (by simp)

theorem primitiveBoxRemat_unpackDouble : InSsaForm unpackDouble.toFunction ∧
    (∀ instr ∈ unpackDouble.instrs, instr.BoxCreated) ∧ unpackDouble.CallersDefined ∧
    ¬∃ g, primitiveBoxRemat false (fun reg => reg = 1) unpackDouble = some g ∧
      RematSound unpackDouble g (unpackDouble.movedBoxes false fun reg => reg = 1).2 := by
  refine ⟨checkSsaForm_iff.mp (by decide), by decide, by decide, ?_⟩
  rintro ⟨g, hg, hsound⟩
  have hresult : (primitiveBoxRemat false (fun reg => reg = 1) unpackDouble).all
      fun g => !checkSsaForm g.toFunction := by decide
  rw [hg] at hresult
  simp [checkSsaForm_iff.mpr hsound.form] at hresult

end CinderX.Jit.Hir
