import CinderX.Foundation.Basic

/-!
# Behaviours with abrupt completion

A behaviour relates a start state to the events it emits, the way it completes
and its end state.  `stopped` is the completion of a run observed only up to
some moment, so what is proved of every run of a behaviour is proved of every
prefix of its infinite runs too.

`Meets` is the triple for such behaviours.  Events are of two kinds there: what
is assumed of each event, and what is concluded about each of them.
-/

namespace CinderX.Foundation

inductive Completion where
  | normal | raised | returned | broken | continued | stopped
  deriving DecidableEq, Repr

def Behaviour (σ ε : Type) := σ → List ε → Completion → σ → Prop

namespace Behaviour

variable {σ ε : Type}

def ends (o : Completion) : Behaviour σ ε :=
  fun s t o' s' => t = [] ∧ o' = o ∧ s' = s

def skip : Behaviour σ ε := ends .normal

def update (f : σ → σ) : Behaviour σ ε :=
  fun s t o s' => t = [] ∧ o = .normal ∧ s' = f s

def emit (event : σ → ε) : Behaviour σ ε :=
  fun s t o s' => t = [event s] ∧ o = .normal ∧ s' = s

def choice (a b : Behaviour σ ε) : Behaviour σ ε :=
  fun s t o s' => a s t o s' ∨ b s t o s'

def bind (a : Behaviour σ ε) (next : Completion → Behaviour σ ε) : Behaviour σ ε :=
  fun s t o s' => ∃ t₁ o₁ s₁ t₂,
    a s t₁ o₁ s₁ ∧ next o₁ s₁ t₂ o s' ∧ t = t₁ ++ t₂

def seq (a b : Behaviour σ ε) : Behaviour σ ε :=
  bind a fun o => if o = .normal then b else ends o

def withEntry (a : σ → Behaviour σ ε) : Behaviour σ ε :=
  fun s => a s s

/-- Rounds until `leave` is taken or a round breaks off. -/
inductive loop (round leave : Behaviour σ ε) : Behaviour σ ε
  | leave {s t o s'} : leave s t o s' → loop round leave s t o s'
  | again {s t₁ s₁ t₂ o s'} :
      round s t₁ .normal s₁ → loop round leave s₁ t₂ o s' →
      loop round leave s (t₁ ++ t₂) o s'
  | broke {s t s'} : round s t .broken s' → loop round leave s t .normal s'
  | out {s t o s'} :
      round s t o s' → o ≠ .normal → o ≠ .broken → loop round leave s t o s'

theorem seq_normal {a b : Behaviour σ ε} {s s₁ s' : σ} {t₁ t₂ : List ε} {o : Completion}
    (ha : a s t₁ .normal s₁) (hb : b s₁ t₂ o s') : a.seq b s (t₁ ++ t₂) o s' :=
  ⟨t₁, .normal, s₁, t₂, ha, hb, rfl⟩

/-! ## Triples -/

/-- Every run of `a` from a state in `P` whose events are all `assumed` emits
only `good` events and completes with `o` in a state in `Q o`. -/
def Meets (assumed : ε → Prop) (P : σ → Prop) (a : Behaviour σ ε)
    (good : ε → Prop) (Q : Completion → σ → Prop) : Prop :=
  ∀ s t o s', a s t o s' → (∀ e ∈ t, assumed e) → P s →
    (∀ e ∈ t, good e) ∧ Q o s'

section Rules

variable {assumed : ε → Prop} {P P' : σ → Prop} {good good' : ε → Prop}
  {Q Q' : Completion → σ → Prop} {a b : Behaviour σ ε}

theorem Meets.weaken (h : Meets assumed P a good Q) (hP : ∀ s, P' s → P s)
    (hgood : ∀ e, good e → good' e) (hQ : ∀ o s, Q o s → Q' o s) :
    Meets assumed P' a good' Q' := by
  intro s t o s' hrun hassumed hs
  have hmeets := h s t o s' hrun hassumed (hP s hs)
  constructor
  · intro e he
    exact hgood e (hmeets.1 e he)
  · exact hQ o s' hmeets.2

theorem Meets.strengthen (h : Meets assumed P a good Q) (hP : ∀ s, P' s → P s) :
    Meets assumed P' a good Q :=
  h.weaken hP (fun _ he => he) fun _ _ hq => hq

theorem meets_ends {o : Completion} (h : ∀ s, P s → Q o s) :
    Meets assumed P (ends o) good Q := by
  intro s t o' s' hrun _ hs
  obtain ⟨rfl, rfl, rfl⟩ := hrun
  simp [h s' hs]

theorem meets_skip (h : ∀ s, P s → Q .normal s) : Meets assumed P skip good Q :=
  meets_ends h

variable {f : σ → σ} {event : σ → ε} {R : σ → Prop}

theorem meets_update (h : ∀ s, P s → Q .normal (f s)) :
    Meets assumed P (update f) good Q := by
  intro s t o s' hrun _ hs
  obtain ⟨rfl, rfl, rfl⟩ := hrun
  simp [h s hs]

theorem meets_emit (h : ∀ s, P s → assumed (event s) → good (event s) ∧ Q .normal s) :
    Meets assumed P (emit event) good Q := by
  intro s t o s' hrun hassumed hs
  obtain ⟨rfl, rfl, rfl⟩ := hrun
  simpa using h s' hs (hassumed _ (by simp))

theorem Meets.choice (ha : Meets assumed P a good Q) (hb : Meets assumed P b good Q) :
    Meets assumed P (a.choice b) good Q := by
  intro s t o s' hrun
  cases hrun with
  | inl hrun => exact ha s t o s' hrun
  | inr hrun => exact hb s t o s' hrun

theorem Meets.bind {next : Completion → Behaviour σ ε}
    (ha : Meets assumed P a good Q) (hnext : ∀ o, Meets assumed (Q o) (next o) good Q') :
    Meets assumed P (a.bind next) good Q' := by
  intro s t o s' hrun hassumed hs
  obtain ⟨t₁, o₁, s₁, t₂, hfirst, hsecond, rfl⟩ := hrun
  have h₁ := ha s t₁ o₁ s₁ hfirst
    (fun e he => hassumed e (List.mem_append_left _ he)) hs
  have h₂ := hnext o₁ s₁ t₂ o s' hsecond
    (fun e he => hassumed e (List.mem_append_right _ he)) h₁.2
  constructor
  · intro e he
    cases List.mem_append.mp he with
    | inl he => exact h₁.1 e he
    | inr he => exact h₂.1 e he
  · exact h₂.2

/-- Only the normal completion of `a` needs to be known to `b`; every other
one is the completion of the whole. -/
theorem Meets.seq (ha : Meets assumed P a good fun o s => if o = .normal then R s else Q o s)
    (hb : Meets assumed R b good Q) : Meets assumed P (a.seq b) good Q := by
  refine ha.bind fun o => ?_
  by_cases ho : o = .normal
  · simpa [ho] using hb
  · simp only [ho, if_false]
    exact meets_ends fun _ h => h

theorem meets_emit_seq (h : ∀ s, P s → assumed (event s) → good (event s) ∧ R s)
    (hb : Meets assumed R b good Q) : Meets assumed P ((emit event).seq b) good Q :=
  Meets.seq (R := R) (meets_emit fun s hs he => by simpa using h s hs he) hb

theorem meets_update_seq (h : ∀ s, P s → R (f s))
    (hb : Meets assumed R b good Q) : Meets assumed P ((update f).seq b) good Q :=
  Meets.seq (R := R) (meets_update fun s hs => by simpa using h s hs) hb

theorem meets_withEntry {a : σ → Behaviour σ ε}
    (h : ∀ entry, P entry → Meets assumed (fun s => s = entry) (a entry) good Q) :
    Meets assumed P (withEntry a) good Q := by
  intro s t o s' hrun hassumed hs
  exact h s hs s t o s' hrun hassumed rfl

theorem Meets.by_cases (R : σ → Prop)
    (hyes : Meets assumed (fun s => P s ∧ R s) a good Q)
    (hno : Meets assumed (fun s => P s ∧ ¬ R s) a good Q) :
    Meets assumed P a good Q := by
  intro s t o s' hrun hassumed hs
  by_cases hr : R s
  · exact hyes s t o s' hrun hassumed ⟨hs, hr⟩
  · exact hno s t o s' hrun hassumed ⟨hs, hr⟩

theorem meets_of_false : Meets assumed (fun _ => False) a good Q := by
  intro s t o s' _ _ hs
  exact hs.elim

theorem meets_loop {round leave : Behaviour σ ε}
    (hround : Meets assumed P round good fun o s =>
      match o with
      | .normal => P s
      | .broken => Q .normal s
      | o => Q o s)
    (hleave : Meets assumed P leave good Q) :
    Meets assumed P (loop round leave) good Q := by
  intro s t o s' hrun
  induction hrun with
  | leave hrun => exact hleave _ _ _ _ hrun
  | again hrun _ ih =>
    intro hassumed hs
    have h₁ := hround _ _ _ _ hrun
      (fun e he => hassumed e (List.mem_append_left _ he)) hs
    have h₂ := ih (fun e he => hassumed e (List.mem_append_right _ he)) h₁.2
    constructor
    · intro e he
      cases List.mem_append.mp he with
      | inl he => exact h₁.1 e he
      | inr he => exact h₂.1 e he
    · exact h₂.2
  | broke hrun =>
    intro hassumed hs
    exact hround _ _ _ _ hrun hassumed hs
  | out hrun hnormal hbroken =>
    intro hassumed hs
    have h := hround _ _ _ _ hrun hassumed hs
    revert h
    cases ‹Completion› <;> simp_all

end Rules

section Invariants

variable {assumed : ε → Prop} {good : ε → Prop} {I : σ → Prop} {K : Completion → Prop}
  {a b : Behaviour σ ε}

def within (K : Completion → Prop) (I : σ → Prop) (o : Completion) (s : σ) : Prop :=
  K o ∧ I s

theorem Meets.seq_invariant (ha : Meets assumed I a good (within K I))
    (hb : Meets assumed I b good (within K I)) :
    Meets assumed I (a.seq b) good (within K I) :=
  (ha.weaken (fun _ hs => hs) (fun _ he => he) fun o s hs => by
    split
    · exact hs.2
    · exact hs).seq hb

theorem Meets.loop_invariant (hK : K .normal)
    (ha : Meets assumed I a good (within K I))
    (hb : Meets assumed I b good (within K I)) :
    Meets assumed I (loop a b) good (within K I) :=
  meets_loop
    (ha.weaken (fun _ hs => hs) (fun _ he => he) fun o s hs => by
      cases o with
      | normal => exact hs.2
      | broken => exact ⟨hK, hs.2⟩
      | _ => exact hs)
    hb

theorem Meets.and {P P' : σ → Prop} {good' : ε → Prop} {Q Q' : Completion → σ → Prop}
    (h : Meets assumed P a good Q) (h' : Meets assumed P' a good' Q') :
    Meets assumed (fun s => P s ∧ P' s) a good fun o s => Q o s ∧ Q' o s := by
  intro s t o s' hrun hassumed hs
  have hfirst := h s t o s' hrun hassumed hs.1
  have hsecond := h' s t o s' hrun hassumed hs.2
  exact ⟨hfirst.1, hfirst.2, hsecond.2⟩

end Invariants

end Behaviour

end CinderX.Foundation
