import CinderX.ParallelGC.WsDequeSteps

/-!
# The work-stealing deque neither loses nor duplicates objects

This holds in every state that can be reached as long as `bot` has not wrapped:
indices are never used again, so that the 2⁶⁴ - 1st push brings `bot` to 0.
-/

namespace CinderX.ParallelGC

open Foundation List

variable {α τ : Type}

/-! ## Every step keeps the invariant -/

namespace State

variable {s s' : State α τ}

theorem Inv.ownerStep (h : s.Inv) (hwithin : s.Within) (hwithin' : s'.Within)
    (hstep : s.ownerStep = some s') : s'.Inv := by
  cases howner : s.owner with
  | idle => simp [State.ownerStep, howner] at hstep
  | takeLoadBot =>
    obtain rfl : _ = s' := by simpa [State.ownerStep, howner] using hstep
    exact h.takeLoadBot hwithin howner
  | takeLoadArr bot =>
    obtain rfl : _ = s' := by simpa [State.ownerStep, howner] using hstep
    exact h.setOwner howner rfl rfl ⟨h.ok_of howner, rfl⟩ rfl
  | takeStoreBot bot arr =>
    obtain rfl : _ = s' := by simpa [State.ownerStep, howner] using hstep
    exact h.takeStoreBot howner
  | takeLoadTop bot arr => exact h.takeLoadTop howner hstep
  | takeGet bot arr top => exact h.takeGet howner hstep
  | takeCas bot top res => exact h.takeCas hwithin howner hstep
  | takeRestoreBot bot res =>
    obtain rfl : _ = s' := by simpa [State.ownerStep, howner] using hstep
    exact h.takeRestoreBot hwithin howner
  | pushLoadBot obj =>
    obtain rfl : _ = s' := by simpa [State.ownerStep, howner] using hstep
    exact h.setOwner howner rfl rfl rfl rfl
  | pushLoadTop obj bot =>
    obtain rfl : _ = s' := by simpa [State.ownerStep, howner] using hstep
    exact h.pushLoadTop howner
  | pushLoadArr obj bot top => exact h.pushLoadArr hwithin howner hstep
  | growGet obj bot top arr newArr i =>
    obtain rfl : _ = s' := by simpa [State.ownerStep, howner] using hstep
    obtain ⟨hgrowing, rfl, hlt⟩ := h.ok_of howner
    exact h.setOwner howner rfl rfl ⟨hgrowing, rfl, hlt, rfl⟩ rfl
  | growPut obj bot top arr newArr i val =>
    obtain rfl : _ = s' := by simpa [State.ownerStep, howner] using hstep
    exact h.growPut howner
  | pushStoreArr obj bot top newArr =>
    obtain rfl : _ = s' := by simpa [State.ownerStep, howner] using hstep
    exact h.pushStoreArr howner
  | pushReloadArr obj bot top =>
    obtain rfl : _ = s' := by simpa [State.ownerStep, howner] using hstep
    exact h.setOwner howner rfl rfl ⟨h.ok_of howner, rfl⟩ rfl
  | pushCountResize obj bot top arr =>
    obtain rfl : _ = s' := by simpa [State.ownerStep, howner] using hstep
    obtain ⟨hplacing, rfl⟩ := h.ok_of howner
    refine h.relabel howner s.deque.bot (s.deque.numResizes + 1) s.returned rfl rfl
      ⟨⟨⟨?_, ?_, ?_, ?_⟩, ?_⟩, rfl⟩ rfl
    · exact hplacing.bot_eq
    · exact hplacing.read_le
    · exact hplacing.le
    · exact hplacing.room
    · exact hplacing.free
  | pushPut obj bot top arr =>
    obtain rfl : _ = s' := by simpa [State.ownerStep, howner] using hstep
    exact h.pushPut howner
  | pushStoreBot obj bot top =>
    obtain rfl : _ = s' := by simpa [State.ownerStep, howner] using hstep
    exact h.pushStoreBot howner hwithin'

variable [DecidableEq τ] {t : τ}

omit [DecidableEq τ] in
theorem Inv.thief_of {thief : Thief α} (h : s.Inv) (hthief : s.thieves t = thief) :
    thief.Ok s.deque s.limit := hthief ▸ h.thief t

omit [DecidableEq τ] in
theorem Inv.steal {res : Option α} (h : s.Inv) (hwithin : s.Within)
    (hthief : s.thieves t = .cas s.deque.top res) :
    ({ s with
      deque := { s.deque with top := incr s.deque.top }
      returned := s.returned ++ res.toList } : State α τ).Inv := by
  obtain ⟨hlt, hres⟩ := (h.thief_of hthief).2 rfl
  have hincr : incr s.deque.top = s.deque.top + 1 := incr_eq (by have := h.limit_lt hwithin; omega)
  have hcontents : s.contents =
      s.deque.array.get s.deque.top :: s.deque.between (s.deque.top + 1) s.limit :=
    WSDeque.between_cons hlt
  obtain ⟨x, hx⟩ := h.exists_some
    (mem_append_right _ (by rw [hcontents]; exact mem_cons_self))
  have hroom := h.room
  constructor
  case allocated => exact h.allocated
  case size => exact h.size
  case top_pos =>
    simp only [hincr]
    omega
  case top_le =>
    simp only [hincr]
    exact hlt
  case room =>
    refine hroom.trans ?_
    simp only [hincr]
    exact Nat.add_le_add_right (Nat.le_succ _) _
  case limit_le => exact h.limit_le
  case owner =>
    have hok := h.owner
    have hlimit := hlt
    unfold State.limit at hlimit
    have hmono : ∀ {a}, a ≤ s.deque.top → a ≤ incr s.deque.top := by
      intro a ha
      omega
    have hpushing : ∀ {bot top}, s.deque.Pushing bot top →
        WSDeque.Pushing { s.deque with top := incr s.deque.top } bot top :=
      fun hp => ⟨hp.bot_eq, hmono hp.read_le, hp.le, hp.room⟩
    have hgrowing : ∀ {bot top newArr i}, s.deque.Growing bot top newArr i →
        WSDeque.Growing { s.deque with top := incr s.deque.top } bot top newArr i :=
      fun hg => ⟨hpushing hg.toPushing, hg.newArr_eq, hg.size, hg.lower, hg.copied⟩
    have hplacing : ∀ {bot top}, s.deque.Placing bot top →
        WSDeque.Placing { s.deque with top := incr s.deque.top } bot top :=
      fun hp => ⟨hpushing hp.toPushing, hp.free⟩
    cases howner : s.owner with
    | idle => trivial
    | takeLoadBot => trivial
    | pushLoadBot obj => trivial
    | takeLoadArr bot => exact h.ok_of howner
    | takeStoreBot bot arr => exact h.ok_of howner
    | takeLoadTop bot arr => exact h.ok_of howner
    | takeGet bot arr top =>
      obtain ⟨hbot, harr, hle, hread⟩ := h.ok_of howner
      exact ⟨hbot, harr, hle, hmono hread⟩
    | takeCas bot top res =>
      obtain ⟨hbot, heq, hread, -⟩ := h.ok_of howner
      refine ⟨hbot, heq, hmono hread, fun hsame => ?_⟩
      simp only [hincr] at hsame
      omega
    | takeRestoreBot bot res =>
      obtain ⟨hbot, htop⟩ := h.ok_of howner
      rw [howner, Owner.limit] at hlimit
      omega
    | pushLoadTop obj bot => exact h.ok_of howner
    | pushLoadArr obj bot top => exact hpushing (h.ok_of howner)
    | growGet obj bot top arr newArr i => exact ⟨hgrowing (h.ok_of howner).1, (h.ok_of howner).2⟩
    | growPut obj bot top arr newArr i val =>
        exact ⟨hgrowing (h.ok_of howner).1, (h.ok_of howner).2⟩
    | pushStoreArr obj bot top newArr => exact hgrowing (h.ok_of howner)
    | pushReloadArr obj bot top => exact hplacing (h.ok_of howner)
    | pushCountResize obj bot top arr => exact ⟨hplacing (h.ok_of howner).1, (h.ok_of howner).2⟩
    | pushPut obj bot top arr => exact ⟨hplacing (h.ok_of howner).1, (h.ok_of howner).2⟩
    | pushStoreBot obj bot top => exact ⟨hplacing (h.ok_of howner).1, (h.ok_of howner).2⟩
  case thief =>
    intro other
    have hframe : s.deque.Frame { s.deque with top := incr s.deque.top } s.limit s.limit :=
      .of_lt (by simp only [hincr]; omega) le_rfl
    exact (h.thief other).frame hframe
  case account =>
    have hbefore := h.account
    have hsame : WSDeque.between { s.deque with top := incr s.deque.top }
        (incr s.deque.top) s.limit =
        s.deque.between (s.deque.top + 1) s.limit := by
      rw [hincr]
      rfl
    have hheld : s.owner.held { s.deque with top := incr s.deque.top } = s.owner.held s.deque := by
      cases s.owner <;> rfl
    rw [hcontents, hx] at hbefore
    change (s.pushed.map some).Perm ((s.returned ++ res.toList).map some ++
      s.owner.held { s.deque with top := incr s.deque.top } ++
        WSDeque.between { s.deque with top := incr s.deque.top } (incr s.deque.top) s.limit)
    rw [hsame, hheld, hres, hx, Option.toList_some, map_append, map_singleton]
    refine hbefore.trans ?_
    rw [append_assoc, append_assoc, append_assoc]
    exact List.Perm.append_left _ perm_middle

theorem Inv.thiefStep (h : s.Inv) (hwithin : s.Within) (hstep : s.thiefStep t = some s') :
    s'.Inv := by
  cases hthief : s.thieves t with
  | idle => simp [State.thiefStep, hthief] at hstep
  | loadTop =>
    obtain rfl : _ = s' := by simpa [State.thiefStep, hthief] using hstep
    exact h.setThief (le_refl s.deque.top)
  | loadBot top =>
    have hread : top ≤ s.deque.top := h.thief_of hthief
    simp only [State.thiefStep, hthief] at hstep
    split at hstep
    next hlt =>
      cases hstep
      have hbot : s.deque.bot ≤ s.limit := by
        unfold State.limit Owner.limit
        split <;> first | omega | (split <;> omega)
      exact h.setThief ⟨hread, fun _ => lt_of_lt_of_le hlt hbot⟩
    next =>
      cases hstep
      exact h.setThief trivial
  | loadArr top =>
    obtain rfl : _ = s' := by simpa [State.thiefStep, hthief] using hstep
    obtain ⟨hread, hlt⟩ := h.thief_of hthief
    exact h.setThief ⟨hread, le_refl _, fun heq => ⟨hlt heq, rfl⟩⟩
  | get top arr =>
    obtain rfl : _ = s' := by simpa [State.thiefStep, hthief] using hstep
    obtain ⟨hread, -, hsame⟩ := h.thief_of hthief
    exact h.setThief ⟨hread, hsame⟩
  | cas top res =>
    simp only [State.thiefStep, hthief] at hstep
    split at hstep
    next heq =>
      cases hstep
      subst heq
      exact (h.steal hwithin hthief).setThief trivial
    next =>
      cases hstep
      exact h.setThief trivial

omit [DecidableEq τ] in
theorem pushed_ownerStep (hstep : s.ownerStep = some s') :
    s'.pushed = s.pushed ∨ ∃ obj, s'.pushed = s.pushed ++ [obj] := by
  unfold State.ownerStep State.grow State.growLoop State.ownerReturns at hstep
  (repeat' split at hstep) <;> cases hstep <;> simp

theorem step_within {move : Move α τ} (hstep : s.step move = some s') (h : s'.Within) :
    s.Within := by
  have hpushed : s.pushed.length ≤ s'.pushed.length := by
    cases move with
    | push obj | take | steal t =>
      simp only [State.step] at hstep
      split at hstep <;> cases hstep
      rfl
    | owner =>
      cases pushed_ownerStep hstep with
      | inl hsame => rw [hsame]
      | inr hpush =>
        obtain ⟨obj, hobj⟩ := hpush
        simp [hobj]
    | thief t =>
      simp only [State.step, State.thiefStep] at hstep
      (repeat' split at hstep) <;> cases hstep <;> rfl
  unfold State.Within at h ⊢
  omega

theorem Inv.step {move : Move α τ} (h : s.Inv) (hstep : s.step move = some s')
    (hwithin : s'.Within) : s'.Inv := by
  have hbefore := step_within hstep hwithin
  cases move with
  | push obj | take =>
    simp only [State.step] at hstep
    split at hstep
    next howner =>
      cases hstep
      exact h.setOwner howner rfl rfl trivial rfl
    next => simp at hstep
  | steal t =>
    simp only [State.step] at hstep
    split at hstep
    next =>
      cases hstep
      exact h.setThief trivial
    next => simp at hstep
  | owner => exact h.ownerStep hbefore hwithin hstep
  | thief t => exact h.thiefStep hbefore hstep

end State

/-- Every pushed object is returned at most once, and is in the deque until then.  `bot` is at
least 0 during a `Take` and at least its initial value between the operations of the owner. -/
structure State.NothingLost (s : State α τ) : Prop where
  returned : s.returned.Subperm s.pushed
  quiescent : s.Quiescent → (s.pushed.map some).Perm (s.returned.map some ++ s.deque.objects)
  top_le : s.deque.top ≤ s.deque.bot + 1
  bot_le : s.deque.bot ≤ s.pushed.length + 1
  bot_pos : s.owner = .idle → 1 ≤ s.deque.bot

namespace State

variable {s : State α τ}

theorem Inv.nothingLost (h : s.Inv) : s.NothingLost where
  returned := by
    have hsub : (s.returned.map some).Subperm (s.pushed.map some) := by
      refine List.Subperm.trans ?_ h.account.symm.subperm
      rw [append_assoc]
      exact (sublist_append_left _ _).subperm
    have hback : ∀ objs : List α, (objs.map some).filterMap id = objs := by
      intro objs
      simp [filterMap_map]
    obtain ⟨objs, hperm, hsublist⟩ := hsub
    refine ⟨objs.filterMap id, ?_, ?_⟩
    · exact hback s.returned ▸ hperm.filterMap id
    · exact hback s.pushed ▸ hsublist.filterMap id
  quiescent hquiet := by
    have haccount := h.account
    rw [hquiet.1, contents, limit, hquiet.1] at haccount
    simpa [Owner.held, Owner.limit, WSDeque.objects_eq] using haccount
  top_le := by
    refine h.top_le.trans ?_
    unfold limit Owner.limit
    split <;> first | omega | (split <;> omega)
  bot_le := by
    refine le_trans ?_ h.limit_le
    unfold limit Owner.limit
    split <;> first | omega | (split <;> omega)
  bot_pos hidle := by
    have htop := h.top_le
    rw [limit, hidle] at htop
    exact h.top_pos.trans htop

theorem Inv.of_reachable [DecidableEq τ] (h : Reachable State.step init s) (hwithin : s.Within) :
    s.Inv :=
  h.invariant_within inv_init (fun _ _ _ hstep => step_within hstep)
    (fun _ _ _ hinv hstep => hinv.step hstep) hwithin

end State

theorem wsDeque_nothing_lost [DecidableEq τ] {s : State α τ}
    (h : Reachable State.step State.init s) (hpushed : s.pushed.length < 2 ^ 64 - 1) :
    s.NothingLost :=
  (State.Inv.of_reachable h (by unfold State.Within sizeMax; omega)).nothingLost

/-- Two objects are pushed.  The owner has lowered `bot` to the second one when a thief steals the
first, and there is only one left for the owner and another thief. -/
def contendedRun : List (Move Nat Bool) :=
  (Move.push 7 :: replicate 5 Move.owner) ++ (Move.push 8 :: replicate 5 Move.owner) ++
    [Move.take, .owner, .owner, .owner, .steal true, .thief true, .thief true, .thief true,
      .thief true,
      .thief true, .steal false, .thief false, .thief false, .owner, .owner, .owner, .owner]

theorem wsDeque_contendedRun : ∃ s : State Nat Bool,
    runMoves State.step State.init contendedRun = some s ∧ s.pushed = [7, 8] ∧
      s.returned = [7, 8] ∧ s.NothingLost := by
  have hrun : (runMoves State.step (State.init : State Nat Bool) contendedRun).map
      (fun s => (s.pushed, s.returned)) = some ([7, 8], [7, 8]) := by decide
  obtain ⟨s, hs, heq⟩ := Option.map_eq_some_iff.mp hrun
  obtain ⟨hpushed, hreturned⟩ := Prod.mk.inj heq
  refine ⟨s, hs, hpushed, hreturned, wsDeque_nothing_lost (Reachable.init.run hs) ?_⟩
  rw [hpushed]
  decide

/-! ## A run in which `bot` wraps -/

def pushTake : List (Move Unit Unit) :=
  (.push () :: replicate 5 .owner) ++ (.take :: replicate 7 .owner)

theorem minus_self {a : Nat} (h : a < sizeMax) : minus a a = 0 := by
  rw [minus_eq le_rfl h, Nat.sub_self]

theorem minus_incr {a : Nat} (h : a < sizeMax) : minus (incr a) 1 = a := by
  unfold minus incr
  rw [Nat.mod_add_mod, Nat.add_assoc, show 1 + (sizeMax - 1) = sizeMax by decide, Nat.add_mod_right,
    Nat.mod_eq_of_lt h]

section

variable {bot arr numResizes allocated : Nat} {arrays : Nat → WSArray Unit}
  {thieves : Unit → Thief Unit} {pushed returned : List Unit}

theorem push_run (hbot : bot < sizeMax) (moves : List (Move Unit Unit)) :
    runMoves State.step
        ⟨⟨bot, bot, arr, numResizes, arrays, allocated⟩, .idle, thieves, pushed, returned⟩
        (.push () :: .owner :: .owner :: .owner :: .owner :: .owner :: moves) =
      runMoves State.step
        ⟨⟨bot, incr bot, arr, numResizes,
          Function.update arrays arr ((arrays arr).put bot (some ())), allocated⟩, .idle, thieves,
          pushed ++ [()], returned⟩ moves := by
  have hfree : ¬minus bot bot > minus (arrays arr).size 1 := by
    rw [minus_self hbot]
    exact Nat.not_lt_zero _
  have hload : State.step (τ := Unit) ⟨⟨bot, bot, arr, numResizes, arrays, allocated⟩,
      .pushLoadArr () bot bot, thieves, pushed, returned⟩ .owner =
        some ⟨⟨bot, bot, arr, numResizes, arrays, allocated⟩, .pushPut () bot bot arr, thieves,
          pushed,
          returned⟩ := by
    simp only [State.step, State.ownerStep]
    exact if_neg hfree
  iterate 3 rw [runMoves_cons (show State.step _ _ = some _ from rfl)]
  rw [runMoves_cons hload]
  iterate 2 rw [runMoves_cons (show State.step _ _ = some _ from rfl)]
  rfl

theorem take_run (hbot : bot < sizeMax) (hget : (arrays arr).get bot = some ())
    (moves : List (Move Unit Unit)) :
    runMoves State.step
        ⟨⟨bot, incr bot, arr, numResizes, arrays, allocated⟩, .idle, thieves, pushed, returned⟩
        (.take :: .owner :: .owner :: .owner :: .owner :: .owner :: .owner :: .owner :: moves) =
      runMoves State.step
        ⟨⟨incr bot, incr bot, arr, numResizes, arrays, allocated⟩, .idle, thieves, pushed,
          returned ++ [()]⟩ moves := by
  have hload : State.step (τ := Unit) ⟨⟨bot, incr bot, arr, numResizes, arrays, allocated⟩,
      .takeLoadBot, thieves, pushed, returned⟩ .owner =
        some ⟨⟨bot, incr bot, arr, numResizes, arrays, allocated⟩, .takeLoadArr bot, thieves,
          pushed,
          returned⟩ := by
    simp only [State.step, State.ownerStep, minus_incr hbot]
  have htop : State.step (τ := Unit) ⟨⟨bot, bot, arr, numResizes, arrays, allocated⟩,
      .takeLoadTop bot arr, thieves, pushed, returned⟩ .owner =
        some ⟨⟨bot, bot, arr, numResizes, arrays, allocated⟩, .takeGet bot arr bot, thieves, pushed,
          returned⟩ := by
    simp only [State.step, State.ownerStep, le_refl, if_true]
  have hread : State.step (τ := Unit) ⟨⟨bot, bot, arr, numResizes, arrays, allocated⟩,
      .takeGet bot arr bot, thieves, pushed, returned⟩ .owner =
        some ⟨⟨bot, bot, arr, numResizes, arrays, allocated⟩, .takeCas bot bot (some ()), thieves,
          pushed, returned⟩ := by
    simp only [State.step, State.ownerStep, hget, if_true]
  have hcas : State.step (τ := Unit) ⟨⟨bot, bot, arr, numResizes, arrays, allocated⟩,
      .takeCas bot bot (some ()), thieves, pushed, returned⟩ .owner =
        some ⟨⟨incr bot, bot, arr, numResizes, arrays, allocated⟩, .takeRestoreBot bot (some ()),
          thieves, pushed, returned⟩ := by
    simp only [State.step, State.ownerStep, if_true]
  rw [runMoves_cons (show State.step _ _ = some _ from rfl), runMoves_cons hload]
  iterate 2 rw [runMoves_cons (show State.step _ _ = some _ from rfl)]
  rw [runMoves_cons htop, runMoves_cons hread, runMoves_cons hcas,
    runMoves_cons (show State.step _ _ = some _ from rfl)]
  rfl

end

/-- The state between two operations of an owner who takes all that it pushes. -/
structure State.Emptied (s : State Unit Unit) (count bot : Nat) : Prop where
  owner : s.owner = .idle
  top : s.deque.top = bot
  bot : s.deque.bot = bot
  pushed : s.pushed.length = count
  returned : s.returned.length = count

namespace State.Emptied

variable {s : State Unit Unit} {count bot : Nat}

theorem pushTake (h : s.Emptied count bot) (hbot : bot < sizeMax) :
    ∃ s', runMoves State.step s pushTake = some s' ∧ s'.Emptied (count + 1) (incr bot) ∧
      s'.deque.array.get bot = some () := by
  obtain ⟨⟨top, bot', arr, numResizes, arrays, allocated⟩, owner, thieves, pushed, returned⟩ := s
  obtain ⟨howner, htop, hbot', hpushed, hreturned⟩ := h
  simp only at howner htop hbot' hpushed hreturned
  subst howner htop hbot'
  have hget : (Function.update arrays arr ((arrays arr).put bot' (some ())) arr).get bot' =
      some () := by
    rw [Function.update_self, WSArray.get_put_self]
  refine ⟨_, (push_run hbot _).trans (take_run hbot hget []), ⟨rfl, rfl, rfl, ?_, ?_⟩, hget⟩
  · simp [hpushed]
  · simp [hreturned]

theorem pushTakes (h : s.Emptied count bot) (hbot : bot < sizeMax) (times : Nat) :
    ∃ s', runMoves State.step s (replicate times ParallelGC.pushTake).flatten = some s' ∧
      s'.Emptied (count + times) ((bot + times) % sizeMax) := by
  induction times with
  | zero => exact ⟨s, rfl, by simpa [Nat.mod_eq_of_lt hbot] using h⟩
  | succ times ih =>
    obtain ⟨s', hrun, hemptied⟩ := ih
    obtain ⟨s'', hlast, hdone, -⟩ := hemptied.pushTake (Nat.mod_lt _ (by decide))
    refine ⟨s'', ?_, ?_⟩
    · rw [replicate_succ', flatten_concat, runMoves_append hrun, hlast]
    · rwa [incr, Nat.mod_add_mod, Nat.add_assoc bot, Nat.add_assoc count] at hdone

end State.Emptied

/-- After the last push `bot` and `top` are 0, and another `Take` finds an object. -/
def wrappingRun : List (Move Unit Unit) :=
  (replicate (sizeMax - 2) pushTake).flatten ++
    (pushTake ++ [.take, .owner, .owner, .owner, .owner, .owner])

theorem wsDeque_wrappingRun : ∃ s : State Unit Unit,
    runMoves State.step State.init wrappingRun = some s ∧ ¬ s.NothingLost := by
  have hinit : (State.init : State Unit Unit).Emptied 0 1 := ⟨rfl, rfl, rfl, rfl, rfl⟩
  obtain ⟨s, hrun, hemptied⟩ := hinit.pushTakes (by decide) (sizeMax - 2)
  rw [show (1 + (sizeMax - 2)) % sizeMax = sizeMax - 1 by decide] at hemptied
  obtain ⟨s', hrun', hwrapped, hget⟩ := hemptied.pushTake (by decide)
  rw [show incr (sizeMax - 1) = 0 by decide] at hwrapped
  obtain ⟨⟨top, bot, arr, numResizes, arrays, allocated⟩, owner, thieves, pushed, returned⟩ := s'
  obtain ⟨howner, htop, hbot, hpushed, hreturned⟩ := hwrapped
  simp only [WSDeque.array] at howner htop hbot hpushed hreturned hget
  subst howner htop hbot
  have hload : State.step (τ := Unit) ⟨⟨0, 0, arr, numResizes, arrays, allocated⟩, .takeLoadBot,
      thieves, pushed, returned⟩ .owner = some ⟨⟨0, 0, arr, numResizes, arrays, allocated⟩,
        .takeLoadArr (sizeMax - 1), thieves, pushed, returned⟩ := by
    simp only [State.step, State.ownerStep, show minus 0 1 = sizeMax - 1 by decide]
  have hempty : State.step (τ := Unit) ⟨⟨0, sizeMax - 1, arr, numResizes, arrays, allocated⟩,
      .takeLoadTop (sizeMax - 1) arr, thieves, pushed, returned⟩ .owner =
        some ⟨⟨0, sizeMax - 1, arr, numResizes, arrays, allocated⟩, .takeGet (sizeMax - 1) arr 0,
          thieves, pushed, returned⟩ := by
    simp only [State.step, State.ownerStep, Nat.zero_le, if_true]
  have hread : State.step (τ := Unit) ⟨⟨0, sizeMax - 1, arr, numResizes, arrays, allocated⟩,
      .takeGet (sizeMax - 1) arr 0, thieves, pushed, returned⟩ .owner =
        some ⟨⟨0, sizeMax - 1, arr, numResizes, arrays, allocated⟩, .idle, thieves, pushed,
          returned ++ [()]⟩ := by
    simp only [State.step, State.ownerStep, hget, show ¬0 = sizeMax - 1 by decide, if_false]
    rfl
  refine ⟨⟨⟨0, sizeMax - 1, arr, numResizes, arrays, allocated⟩, .idle, thieves, pushed,
    returned ++ [()]⟩, ?_, ?_⟩
  · rw [wrappingRun, runMoves_append hrun, runMoves_append hrun',
      runMoves_cons (show State.step _ _ = some _ from rfl), runMoves_cons hload]
    iterate 2 rw [runMoves_cons (show State.step _ _ = some _ from rfl)]
    rw [runMoves_cons hempty, runMoves_cons hread]
    rfl
  -- more objects have been returned than pushed
  · intro hkept
    have hlength := hkept.returned.length_le
    simp only [length_append, length_singleton, hpushed, hreturned] at hlength
    omega

end CinderX.ParallelGC
