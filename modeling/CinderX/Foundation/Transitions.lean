import CinderX.Foundation.Basic

/-!
# Runs of a transition system

A step is given by a move, which may not be possible.  An invariant holds in all
states that can be reached from the first one.
-/

namespace CinderX.Foundation

variable {State Move : Type*}

inductive Reachable (step : State → Move → Option State) (init : State) : State → Prop
  | init : Reachable step init init
  | step {s s' : State} (h : Reachable step init s) (move : Move) (hstep : step s move = some s') :
      Reachable step init s'

variable {step : State → Move → Option State} {init s s' : State}

/-- `none` as soon as a move is not possible. -/
def runMoves (step : State → Move → Option State) (s : State) (moves : List Move) : Option State :=
  moves.foldlM step s

theorem runMoves_cons {move : Move} (h : step s move = some s') (moves : List Move) :
    runMoves step s (move :: moves) = runMoves step s' moves := by
  rw [runMoves, List.foldlM_cons, h]
  rfl

theorem runMoves_append {moves : List Move} (h : runMoves step s moves = some s')
    (rest : List Move) : runMoves step s (moves ++ rest) = runMoves step s' rest := by
  rw [runMoves, List.foldlM_append]
  exact congrArg (· >>= fun s => runMoves step s rest) h

theorem Reachable.run (h : Reachable step init s) {moves : List Move}
    (hrun : runMoves step s moves = some s') : Reachable step init s' := by
  induction moves generalizing s with
  | nil =>
    obtain rfl : s = s' := by simpa [runMoves] using hrun
    exact h
  | cons move moves ih =>
    rw [runMoves, List.foldlM_cons] at hrun
    cases hnext : step s move with
    | none => simp [hnext] at hrun
    | some next =>
      rw [hnext] at hrun
      exact ih (h.step move hnext) hrun

theorem Reachable.invariant {Inv : State → Prop} (hinit : Inv init)
    (hnext : ∀ s move s', Inv s → step s move = some s' → Inv s')
    (h : Reachable step init s) : Inv s := by
  induction h with
  | init => exact hinit
  | step _ move hstep ih => exact hnext _ move _ ih hstep

theorem Reachable.invariant_within {Inv Within : State → Prop} (hinit : Inv init)
    (hwithin : ∀ s move s', step s move = some s' → Within s' → Within s)
    (hnext : ∀ s move s', Inv s → step s move = some s' → Within s' → Inv s')
    (h : Reachable step init s) (hs : Within s) : Inv s := by
  induction h with
  | init => exact hinit
  | step _ move hstep ih => exact hnext _ move _ (ih (hwithin _ move _ hstep hs)) hstep hs

end CinderX.Foundation
