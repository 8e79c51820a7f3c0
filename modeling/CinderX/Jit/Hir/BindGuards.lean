import CinderX.Jit.Hir.DeadCode

/-!
# Binding guards to frame states

`bindGuards` goes forward through a block and keeps the frame state of the last
snapshot; `getDominatingFrameState` looks for it backward from an instruction.
-/

namespace CinderX.Jit.Hir

variable {n : Nat} {f : Function n}

def Opcode.isGuardLike : Opcode → Bool
  | kGuard | kGuardIs | kGuardType | kDeopt | kDeoptPatchpoint | kOSREntry => true
  | _ => false

namespace Instr

def isSnapshot (instr : Instr n) : Bool := instr.opcode = .kSnapshot

def setFrameState (instr : Instr n) (fs : FrameState n) : Instr n :=
  { instr with deopt := some ⟨fs, instr.deopt.bind DeoptInfo.guiltyReg⟩ }

end Instr

def nextFrame (fs : FrameState n) (instr : Instr n) : FrameState n :=
  if instr.isSnapshot then instr.snapshotState
  else if instr.opcode.isGuardLike then fs
  else if !instr.opcode.isReplayable then []
  else fs

def withFrames : FrameState n → List (Instr n) → List (Instr n × FrameState n)
  | _, [] => []
  | fs, instr :: rest => (instr, fs) :: withFrames (nextFrame fs instr) rest

def bindGuard (pair : Instr n × FrameState n) : Instr n :=
  if pair.1.opcode.isGuardLike then pair.1.setFrameState pair.2 else pair.1

def guardsDominated (f : Function n) : Bool :=
  f.blocks.all fun block => (withFrames [] block.instrs).all fun pair =>
    !pair.1.opcode.isGuardLike || pair.2 ≠ []

def bindGuards (freeThreaded : Bool) (f : Function n) : Option (Function n) :=
  if guardsDominated f then
    deadCodeElimination freeThreaded
      ((f.mapBlocks fun block => (withFrames [] block.instrs).map bindGuard).filterInstrs
        fun instr => !instr.isSnapshot)
  else none

def getDominatingFrameState : List (Instr n) → FrameState n
  | [] => []
  | instr :: rest =>
    if instr.isSnapshot then instr.snapshotState
    else if !instr.opcode.isReplayable then []
    else getDominatingFrameState rest

theorem withFrames_append (fs : FrameState n) (pre post : List (Instr n)) :
    withFrames fs (pre ++ post) =
      withFrames fs pre ++ withFrames (pre.foldl nextFrame fs) post := by
  induction pre generalizing fs with
  | nil => rfl
  | cons instr pre ih => simp [withFrames, ih]

theorem mem_withFrames {fs fs' : FrameState n} {instrs : List (Instr n)} {instr : Instr n} :
    (instr, fs') ∈ withFrames fs instrs ↔
      ∃ pre post, instrs = pre ++ instr :: post ∧ fs' = pre.foldl nextFrame fs := by
  constructor
  · intro h
    induction instrs generalizing fs with
    | nil => simp [withFrames] at h
    | cons first rest ih =>
      obtain heq | h := List.mem_cons.mp h
      · obtain ⟨rfl, rfl⟩ : instr = first ∧ fs' = fs := by simpa using heq
        exact ⟨[], rest, rfl, rfl⟩
      · obtain ⟨pre, post, rfl, rfl⟩ := ih h
        exact ⟨first :: pre, post, rfl, rfl⟩
  · rintro ⟨pre, post, rfl, rfl⟩
    rw [withFrames_append]
    exact List.mem_append_right _ (by simp [withFrames])

theorem foldl_nextFrame_spec (pre : List (Instr n)) (h : pre.foldl nextFrame [] ≠ []) :
    ∃ front snapshot between, pre = front ++ snapshot :: between ∧ snapshot.isSnapshot = true ∧
      pre.foldl nextFrame [] = snapshot.snapshotState ∧
      ∀ instr ∈ between, instr.isSnapshot = false ∧
        (instr.opcode.isReplayable = true ∨ instr.opcode.isGuardLike = true) := by
  induction pre using List.reverseRecOn with
  | nil => simp at h
  | append_singleton pre last ih =>
    rw [List.foldl_append, List.foldl_cons, List.foldl_nil] at h ⊢
    cases hsnapshot : last.isSnapshot with
    | true => exact ⟨pre, last, [], rfl, hsnapshot, by simp [nextFrame, hsnapshot], by simp⟩
    | false =>
      by_cases hkeeps : last.opcode.isReplayable = true ∨ last.opcode.isGuardLike = true
      · have hlast : nextFrame (pre.foldl nextFrame []) last = pre.foldl nextFrame [] := by
          obtain hreplay | hguard := hkeeps
          · simp [nextFrame, hsnapshot, hreplay]
          · simp [nextFrame, hsnapshot, hguard]
        rw [hlast] at h ⊢
        obtain ⟨front, snapshot, between, rfl, hisSnapshot, heq, hall⟩ := ih h
        refine ⟨front, snapshot, between ++ [last], by simp, hisSnapshot, heq, ?_⟩
        intro instr hinstr
        obtain hinstr | hinstr := List.mem_append.mp hinstr
        · exact hall instr hinstr
        · obtain rfl : instr = last := by simpa using hinstr
          exact ⟨hsnapshot, hkeeps⟩
      · have hnull : nextFrame (pre.foldl nextFrame []) last = [] := by
          rw [not_or] at hkeeps
          simp [nextFrame, hsnapshot, hkeeps.1, hkeeps.2]
        exact absurd hnull h

theorem getDominatingFrameState_eq {front between : List (Instr n)} {snapshot : Instr n}
    (hsnapshot : snapshot.isSnapshot = true)
    (hbetween : ∀ instr ∈ between, instr.isSnapshot = false) :
    getDominatingFrameState (front ++ snapshot :: between).reverse =
      if between.all fun instr => instr.opcode.isReplayable then snapshot.snapshotState else
        [] := by
  induction between using List.reverseRecOn with
  | nil => simp [getDominatingFrameState, hsnapshot]
  | append_singleton between last ih =>
    have hlast := hbetween last (by simp)
    have hrest := ih fun instr hinstr => hbetween instr (by simp [hinstr])
    have hsplit : (front ++ snapshot :: (between ++ [last])).reverse =
        last :: (front ++ snapshot :: between).reverse := by simp
    rw [hsplit, getDominatingFrameState, hlast, hrest]
    cases hreplay : last.opcode.isReplayable with
    | true => simp [hreplay]
    | false => simp [hreplay]

theorem isGuardLike_bindGuard (pair : Instr n × FrameState n) :
    (bindGuard pair).opcode = pair.1.opcode := by
  unfold bindGuard
  split <;> rfl

variable {freeThreaded : Bool} {g : Function n} {block : BasicBlock n}

theorem bindGuards_blocks (h : bindGuards freeThreaded f = some g) (hblock : block ∈ f.blocks) :
    ∃ block' ∈ g.blocks, block'.id = block.id ∧
      ∀ guard', guard'.opcode.isGuardLike = true → (guard' ∈ block'.instrs ↔
        ∃ pre guard post, block.instrs = pre ++ guard :: post ∧
          guard' = guard.setFrameState (pre.foldl nextFrame [])) := by
  unfold bindGuards at h
  split at h
  case isFalse => simp at h
  case isTrue =>
    obtain ⟨live, hlive, rfl⟩ := Option.map_eq_some_iff.mp h
    refine ⟨_, Function.mem_mapBlocks.mpr ⟨_, Function.mem_mapBlocks.mpr ⟨_,
      Function.mem_mapBlocks.mpr ⟨block, hblock, rfl⟩, rfl⟩, rfl⟩, rfl, fun guard' hguard' => ?_⟩
    have hsnapshot : guard'.isSnapshot = false := by
      cases hopcode : guard'.opcode <;> simp_all [Opcode.isGuardLike, Instr.isSnapshot]
    simp only [List.mem_filter, List.mem_map, decide_eq_true_eq, hsnapshot, Bool.not_false,
      and_true]
    constructor
    · rintro ⟨⟨⟨guard, fs⟩, hpair, rfl⟩, -⟩
      rw [isGuardLike_bindGuard] at hguard'
      obtain ⟨pre, post, heq, rfl⟩ := mem_withFrames.mp hpair
      exact ⟨pre, guard, post, heq, by simp [bindGuard, hguard']⟩
    · rintro ⟨pre, guard, post, heq, rfl⟩
      have hguard : guard.opcode.isGuardLike = true := hguard'
      have hmem : (guard, pre.foldl nextFrame []) ∈ withFrames [] block.instrs :=
        mem_withFrames.mpr ⟨pre, post, heq, rfl⟩
      have hbound : bindGuard (guard, pre.foldl nextFrame []) =
          guard.setFrameState (pre.foldl nextFrame []) := by simp [bindGuard, hguard]
      refine ⟨⟨_, hmem, hbound⟩, ?_⟩
      -- a guard can deopt, so dead code elimination keeps it
      refine (Function.marked_of_liveSet hlive).useful _ ?_ ?_
      · rw [Function.instrs_filterInstrs]
        refine List.mem_filter.mpr ⟨Function.mem_instrs.mpr ⟨_, Function.mem_mapBlocks.mpr
          ⟨block, hblock, rfl⟩, List.mem_map.mpr ⟨_, hmem, hbound⟩⟩, by simp [hsnapshot]⟩
      · have hbox : guard.opcode ≠ .kPrimitiveBox := by
          rintro hbox
          simp [hbox, Opcode.isGuardLike] at hguard
        simp [isUseful, Instr.setFrameState, hbox]

theorem snapshot_of_guard (h : bindGuards freeThreaded f = some g) (hblock : block ∈ f.blocks)
    {pre post : List (Instr n)} {guard : Instr n} (heq : block.instrs = pre ++ guard :: post)
    (hguard : guard.opcode.isGuardLike = true) :
    ∃ front snapshot between, pre = front ++ snapshot :: between ∧ snapshot.isSnapshot = true ∧
      pre.foldl nextFrame [] = snapshot.snapshotState ∧
      ∀ instr ∈ between, instr.isSnapshot = false ∧
        (instr.opcode.isReplayable = true ∨ instr.opcode.isGuardLike = true) := by
  unfold bindGuards at h
  split at h
  case isFalse => simp at h
  case isTrue hall =>
    simp only [guardsDominated, List.all_eq_true] at hall
    have hpair := hall block hblock (guard, pre.foldl nextFrame [])
      (mem_withFrames.mpr ⟨pre, post, heq, rfl⟩)
    exact foldl_nextFrame_spec pre (by simpa [hguard] using hpair)

/-- After `bindGuards` a guard has the frame state of the latest snapshot before it, and between
the two stand instructions that can be replayed and other guards.  If all of them can be replayed,
it is the frame state that `getDominatingFrameState` found; otherwise that found none. -/
theorem bindGuards_bound {freeThreaded : Bool} {g : Function n}
    (h : bindGuards freeThreaded f = some g) (block : BasicBlock n) (hblock : block ∈ f.blocks) :
    ∃ block' ∈ g.blocks, block'.id = block.id ∧
      (∀ guard' ∈ block'.instrs, guard'.opcode.isGuardLike = true →
        ∃ front snapshot between guard post,
          block.instrs = front ++ snapshot :: between ++ guard :: post ∧
          snapshot.isSnapshot = true ∧ (∀ instr ∈ between, instr.isSnapshot = false) ∧
          guard' = guard.setFrameState snapshot.snapshotState) ∧
      ∀ pre guard post, block.instrs = pre ++ guard :: post → guard.opcode.isGuardLike = true →
        ∃ front snapshot between, pre = front ++ snapshot :: between ∧
          snapshot.isSnapshot = true ∧
          (∀ instr ∈ between, instr.isSnapshot = false ∧
            (instr.opcode.isReplayable = true ∨ instr.opcode.isGuardLike = true)) ∧
          guard.setFrameState snapshot.snapshotState ∈ block'.instrs ∧
          getDominatingFrameState pre.reverse =
            if between.all fun instr => instr.opcode.isReplayable then snapshot.snapshotState
            else [] := by
  obtain ⟨block', hblock', hid, hguards⟩ := bindGuards_blocks h hblock
  refine ⟨block', hblock', hid, fun guard' hmem hguard' => ?_, fun pre guard post heq hguard => ?_⟩
  · obtain ⟨pre, guard, post, heq, rfl⟩ := (hguards guard' hguard').mp hmem
    obtain ⟨front, snapshot, between, rfl, hsnapshot, hframe, hbetween⟩ :=
      snapshot_of_guard h hblock heq hguard'
    exact ⟨front, snapshot, between, guard, post, heq, hsnapshot,
      fun instr hinstr => (hbetween instr hinstr).1, by rw [hframe]⟩
  · obtain ⟨front, snapshot, between, rfl, hsnapshot, hframe, hbetween⟩ :=
      snapshot_of_guard h hblock heq hguard
    have hbound := (hguards (guard.setFrameState snapshot.snapshotState) hguard).mpr
      ⟨_, guard, post, heq, by rw [hframe]⟩
    exact ⟨front, snapshot, between, rfl, hsnapshot, hbetween, hbound,
      getDominatingFrameState_eq hsnapshot fun instr hinstr => (hbetween instr hinstr).1⟩

def patchedGuard : Function 1 := .ofObjects [⟨0, [{ opcode := .kLoadConst, output := some 0 },
    { opcode := .kSnapshot, snapshotState := [⟨[some 0], [], 0⟩] },
    { opcode := .kDeoptPatchpoint, deopt := some ⟨[], none⟩ },
    { opcode := .kGuard, operands := [0], deopt := some ⟨[], none⟩ },
    { opcode := .kReturn, operands := [0] }]⟩] (by decide)

theorem bindGuards_patchedGuard_isSome : (bindGuards false patchedGuard).isSome = true := by
  decide

theorem bindGuards_bound_patchedGuard : ∃ g, bindGuards false patchedGuard = some g ∧
    ∃ block' ∈ g.blocks, block'.id = 0 := by
  obtain ⟨g, hg⟩ := Option.isSome_iff_exists.mp bindGuards_patchedGuard_isSome
  obtain ⟨block', hblock', hid, -⟩ :=
    bindGuards_bound hg (patchedGuard.blocks.head (by decide)) (by decide)
  exact ⟨g, hg, block', hblock', hid⟩

/-- The backward scan stops at the patchpoint, which the forward scan passes. -/
theorem bindGuards_passes_patchpoint :
    ¬∀ (n : Nat) (freeThreaded : Bool) (f g : Function n), bindGuards freeThreaded f = some g →
      ∀ block ∈ f.blocks, ∀ (pre : List (Instr n)) (guard : Instr n) (post : List (Instr n)),
        block.instrs = pre ++ guard :: post → guard.opcode.isGuardLike = true →
        ∃ block' ∈ g.blocks, block'.id = block.id ∧
          guard.setFrameState (getDominatingFrameState pre.reverse) ∈ block'.instrs := by
  intro hbound
  obtain ⟨g, hg⟩ := Option.isSome_iff_exists.mp bindGuards_patchedGuard_isSome
  obtain ⟨block', hblock', hid, hmem⟩ := hbound 1 false patchedGuard g hg
    (patchedGuard.blocks.head (by decide)) (by decide)
    [{ opcode := .kLoadConst, output := some 0 },
      { opcode := .kSnapshot, snapshotState := [⟨[some 0], [], 0⟩] },
      { opcode := .kDeoptPatchpoint, deopt := some ⟨[], none⟩ }]
    { opcode := .kGuard, operands := [0], deopt := some ⟨[], none⟩ }
    [{ opcode := .kReturn, operands := [0] }] rfl rfl
  have hnone : ((bindGuards false patchedGuard).map fun g => g.blocks.all fun block =>
      decide ({ opcode := .kGuard, operands := [0], deopt := some ⟨[], none⟩ } ∉ block.instrs)) =
        some true := by
    decide
  rw [hg] at hnone
  simp only [Option.map_some, Option.some.injEq, List.all_eq_true, decide_eq_true_eq] at hnone
  exact hnone block' hblock' hmem

end CinderX.Jit.Hir
