import CinderX.Compiler.ReferenceMoves

/-!
# The simulation follows the references

What is on the simulated stack for each entry of the operand stack, and what one
instruction does to both.
-/

namespace CinderX.Compiler.LoadFast

open List

open List (Forall₂)

/-- A borrowed reference is simulated as what it is, and its local is not null.  `base`
says which references there can be. -/
def MatchesRef (base : Nat → Nat → Prop) (locals : Nat → Value) (v : Value) (r : Ref) : Prop :=
  ∀ k loc, v = .borrowed k loc → r = ⟨some k, some loc⟩ ∧ base k loc ∧ locals loc ≠ .null

structure Related (base : Nat → Nat → Prop) (s : State) (a : Analysis) : Prop where
  stack : Forall₂ (MatchesRef base s.locals) s.stack a.refs
  locals : ∀ loc, (s.locals loc).isNew

def Write.Clean (w : Write) : Prop :=
  ∀ k, .borrowed k w.loc ∉ w.frame.stack ∧ ∀ loc, w.frame.locals loc ≠ .borrowed k w.loc

variable {base : Nat → Nat → Prop} {locals : Nat → Value}

variable {v : Value}

theorem matchesRef_of_new (h : v.isNew) (r : Ref) : MatchesRef base locals v r := by
  rintro k loc rfl
  cases h

theorem matches_new {new : List Value} (h : ∀ v ∈ new, v.isNew) (r : Ref) :
    Forall₂ (MatchesRef base locals) new (replicate new.length r) := by
  induction new with
  | nil => exact .nil
  | cons v new ih =>
    obtain ⟨hv, hnew⟩ := forall_mem_cons.mp h
    exact .cons (matchesRef_of_new hv r) (ih hnew)

variable {vs : List Value} {rs : List Ref} {vs' : List Value} {rs' : List Ref} {k : Nat}
  {a : Analysis}

theorem matches_append
    (h : Forall₂ (MatchesRef base locals) vs rs) (h' : Forall₂ (MatchesRef base locals) vs' rs') :
    Forall₂ (MatchesRef base locals) (vs ++ vs') (rs ++ rs') := rel_append h h'

theorem matches_drop (h : Forall₂ (MatchesRef base locals) vs rs) (n : Nat) :
    Forall₂ (MatchesRef base locals) (vs.drop n) (rs.drop n) := forall₂_drop n h

theorem matches_getElem (h : Forall₂ (MatchesRef base locals) vs rs) :
    ∀ {n : Nat} {v : Value} {r : Ref}, vs[n]? = some v → rs[n]? = some r →
      MatchesRef base locals v r := by
  induction h with
  | nil => exact nofun
  | cons hhead _ ih =>
    intro n v r hv hr
    cases n with
    | zero =>
      cases hv
      cases hr
      exact hhead
    | succ n => exact ih hv hr

theorem matches_set (h : Forall₂ (MatchesRef base locals) vs rs) {r : Ref}
    (hv : MatchesRef base locals v r) :
    ∀ n, Forall₂ (MatchesRef base locals) (vs.set n v) (rs.set n r) := by
  induction h with
  | nil => exact fun _ => .nil
  | cons hhead htail ih =>
    intro n
    cases n with
    | zero => exact .cons hv htail
    | succ n => exact .cons hhead (ih n)

theorem matches_swap {n : Nat}
    (h : Forall₂ (MatchesRef base locals) vs rs) (hv : swapTop n vs = some vs')
    (hr : swapTop n rs = some rs') : Forall₂ (MatchesRef base locals) vs' rs' := by
  obtain ⟨vtop, hvtop, hv⟩ := Option.bind_eq_some_iff.mp hv
  obtain ⟨vlow, hvlow, hv⟩ := Option.bind_eq_some_iff.mp hv
  obtain ⟨rtop, hrtop, hr⟩ := Option.bind_eq_some_iff.mp hr
  obtain ⟨rlow, hrlow, hr⟩ := Option.bind_eq_some_iff.mp hr
  cases hv
  cases hr
  exact matches_set (matches_set h (matches_getElem h hvtop hrtop) _)
    (matches_getElem h hvlow hrlow) _

variable {loc : Nat}

theorem exists_ref_of_borrowed (h : Forall₂ (MatchesRef base locals) vs rs)
    (hmem : .borrowed k loc ∈ vs) :
    (⟨some k, some loc⟩ : Ref) ∈ rs ∧ base k loc ∧ locals loc ≠ .null := by
  obtain ⟨n, hn⟩ := mem_iff_getElem?.mp hmem
  obtain ⟨hlt, -⟩ := List.getElem?_eq_some_iff.mp hn
  have hlt' : n < rs.length := h.length_eq ▸ hlt
  have hr : rs[n]? = some rs[n] := getElem?_eq_getElem hlt'
  obtain ⟨href, hbase⟩ := matches_getElem h hn hr k loc rfl
  exact ⟨href ▸ mem_of_getElem? hr, hbase⟩

theorem matches_update (h : Forall₂ (MatchesRef base locals) vs rs) {locals' : Nat → Value}
    (hsame : ∀ k loc, .borrowed k loc ∈ vs → locals' loc = locals loc) :
    Forall₂ (MatchesRef base locals') vs rs := by
  induction h with
  | nil => exact .nil
  | @cons v r vs rs hhead htail ih =>
    refine .cons ?_ (ih fun k loc hmem => hsame k loc (mem_cons_of_mem _ hmem))
    rintro k loc rfl
    obtain ⟨href, hbase, hnull⟩ := hhead k loc rfl
    exact ⟨href, hbase, hsame k loc mem_cons_self ▸ hnull⟩

theorem flagged_subset_killLocal (a : Analysis) (loc : Nat) :
    a.flagged ⊆ (a.killLocal loc).flagged := subset_append_right _ _

theorem mem_killLocal (h : (⟨some k, some loc⟩ : Ref) ∈ a.refs) :
    k ∈ (a.killLocal loc).flagged := by
  apply mem_append_left
  rw [mem_filterMap]
  exact ⟨_, mem_filter.mpr ⟨h, by simp⟩, rfl⟩

theorem not_borrowed_of_killLocal {flagged : List Nat}
    (hbase : ∀ k loc, base k loc → k ∉ flagged) (h : Forall₂ (MatchesRef base locals) vs a.refs)
    (hkill : (a.killLocal loc).flagged ⊆ flagged) (k : Nat) : .borrowed k loc ∉ vs := by
  intro hmem
  obtain ⟨href, hk, -⟩ := exists_ref_of_borrowed h hmem
  exact hbase k loc hk (hkill (mem_killLocal href))

theorem isNew_update (h : ∀ loc, (locals loc).isNew) (hv : v.isNew) :
    ∀ loc', (Function.update locals loc v loc').isNew := by
  intro loc'
  by_cases heq : loc' = loc
  · subst heq
    rw [Function.update_self]
    exact hv
  · rw [Function.update_of_ne heq]
    exact h loc'

theorem matches_update_local (h : Forall₂ (MatchesRef base locals) vs rs)
    (hnot : ∀ k, .borrowed k loc ∉ vs) :
    Forall₂ (MatchesRef base (Function.update locals loc v)) vs rs := by
  apply matches_update h
  intro k loc' hmem
  apply Function.update_of_ne
  rintro rfl
  exact hnot k hmem

theorem Write.clean_of_not_mem (h : ∀ loc, (locals loc).isNew) (hnot : ∀ k, .borrowed k loc ∉ vs) :
    Write.Clean ⟨loc, ⟨vs, locals⟩⟩ := by
  refine fun k => ⟨hnot k, fun loc' heq => ?_⟩
  have hnew := h loc'
  dsimp only at heq
  rw [heq] at hnew
  cases hnew

end CinderX.Compiler.LoadFast
