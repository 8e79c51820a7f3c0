import CinderX.Compiler.BorrowedLoads

/-!
# One instruction, simulated and executed

One lemma for each kind of instruction: the stacks still match, and what is overwritten
has no borrowed references left.
-/

namespace CinderX.Compiler.LoadFast

open List Option

open List (Forall₂)

section Operations

variable (a : Analysis)

@[simp]
theorem Analysis.push_flagged (r : Ref) : (a.push r).flagged = a.flagged := rfl

@[simp]
theorem Analysis.pushNew_refs (i n : Nat) :
    (a.pushNew i n).refs = replicate n ⟨some i, none⟩ ++ a.refs := rfl

@[simp]
theorem Analysis.pushNew_flagged (i n : Nat) : (a.pushNew i n).flagged = a.flagged := rfl

@[simp]
theorem Analysis.storeLocal_refs (loc : Nat) (r : Ref) : (a.storeLocal loc r).refs = a.refs := rfl

theorem Analysis.killLocal_subset_storeLocal (loc : Nat) (r : Ref) :
    (a.killLocal loc).flagged ⊆ (a.storeLocal loc r).flagged := subset_append_right _ _

variable {a}

variable {a' : Analysis}

theorem Analysis.pop_eq {r : Ref} (h : a.pop = some (r, a')) :
    a.refs = r :: a'.refs ∧ a'.flagged = a.flagged := by
  unfold Analysis.pop at h
  split at h
  next => cases h
  next hrefs =>
    cases h
    exact ⟨hrefs, rfl⟩

theorem Analysis.popMany_eq {n : Nat} (h : a.popMany n = some a') :
    n ≤ a.refs.length ∧ a'.refs = a.refs.drop n ∧ a'.flagged = a.flagged := by
  unfold Analysis.popMany at h
  split at h
  next hle =>
    cases h
    exact ⟨hle, rfl, rfl⟩
  next => cases h

theorem analyzePlain_eq {i : Nat} {inst : Instr} (h : analyzePlain i inst a = some a') :
    inst.popped ≤ a.refs.length ∧
      a'.refs = replicate inst.pushed ⟨some i, none⟩ ++ a.refs.drop inst.popped ∧
      a'.flagged = a.flagged := by
  obtain ⟨a₁, hpop, h⟩ := bind_eq_some_iff.mp h
  cases h
  obtain ⟨hle, hrefs, hflagged⟩ := Analysis.popMany_eq hpop
  rw [Analysis.pushNew_refs, Analysis.pushNew_flagged, hrefs, hflagged]
  cases htarget : inst.target with
  | none =>
    simp only [htarget] at hle
    exact ⟨hle, rfl, rfl⟩
  | some target =>
    simp only [htarget] at hle
    exact ⟨hle, rfl, rfl⟩

end Operations

variable {base : Nat → Nat → Prop} {flagged : List Nat} {i : Nat} {a a' : Analysis}

/-! ## Related frames -/

section Related

variable {locals : Nat → Value} {stack : List Value}

variable {v : Value}

theorem Related.push (h : Related base ⟨stack, locals⟩ a) {r : Ref}
    (hv : MatchesRef base locals v r) : Related base ⟨v :: stack, locals⟩ (a.push r) :=
  ⟨.cons hv h.stack, h.locals⟩

theorem Related.push_local (h : Related base ⟨stack, locals⟩ a) (loc : Nat) (r : Ref) :
    Related base ⟨locals loc :: stack, locals⟩ (a.push r) :=
  h.push (matchesRef_of_new (h.locals loc) r)

theorem Related.pushNew (h : Related base ⟨stack, locals⟩ a) {new : List Value} {n : Nat}
    (hlength : new.length = n) (hnew : ∀ v ∈ new, v.isNew) :
    Related base ⟨new ++ stack, locals⟩ (a.pushNew i n) := by
  subst hlength
  exact ⟨matches_append (matches_new hnew _) h.stack, h.locals⟩

theorem Related.push_one (h : Related base ⟨stack, locals⟩ a) (hnew : v.isNew) :
    Related base ⟨v :: stack, locals⟩ (a.pushNew i 1) :=
  ⟨.cons (matchesRef_of_new hnew _) h.stack, h.locals⟩

theorem Related.pushBlock {s : State} (h : Related base s a) (target : Nat) (depth : Int) :
    Related base s (a.pushBlock target depth) := ⟨h.stack, h.locals⟩

theorem Related.pop {r : Ref} (h : Related base ⟨v :: stack, locals⟩ a)
    (hpop : a.pop = some (r, a')) :
    MatchesRef base locals v r ∧ Related base ⟨stack, locals⟩ a' := by
  obtain ⟨hstack, hlocals⟩ := h
  rw [(Analysis.pop_eq hpop).1] at hstack
  cases hstack with
  | cons hv hstack => exact ⟨hv, hstack, hlocals⟩

theorem Related.popMany {args : List Value} {n : Nat}
    (h : Related base ⟨args ++ stack, locals⟩ a) (hlength : args.length = n)
    (hpop : a.popMany n = some a') : Related base ⟨stack, locals⟩ a' := by
  obtain ⟨-, hrefs, -⟩ := Analysis.popMany_eq hpop
  have hstack := matches_drop h.stack n
  rw [drop_left' hlength, ← hrefs] at hstack
  exact ⟨hstack, h.locals⟩

end Related

variable {locals : Nat → Value} {v : Value} {r : Ref}

theorem isNew_of_flagged (hbase : ∀ k loc, base k loc → k ∉ flagged)
    (h : MatchesRef base locals v r) (hflagged : ∀ k, r.instr = some k → k ∈ flagged) :
    v.isNew := by
  cases v with
  | null => rfl
  | owned => rfl
  | borrowed k loc =>
    obtain ⟨rfl, hk, -⟩ := h k loc rfl
    exact absurd (hflagged k rfl) (hbase k loc hk)

theorem store_related {stack : List Value} {loc : Nat} (hbase : ∀ k loc, base k loc → k ∉ flagged)
    (hrel : Related base ⟨stack, locals⟩ a) (hv : MatchesRef base locals v r)
    (hflagged : (a.storeLocal loc r).flagged ⊆ flagged) :
    Related base ⟨stack, Function.update locals loc v⟩ (a.storeLocal loc r) ∧
      Write.Clean ⟨loc, ⟨stack, locals⟩⟩ := by
  have hnew : v.isNew := by
    apply isNew_of_flagged hbase hv
    intro k hk
    apply hflagged
    apply mem_append_left
    rw [hk]
    exact mem_singleton_self k
  have hnot : ∀ k, .borrowed k loc ∉ stack :=
    not_borrowed_of_killLocal hbase hrel.stack
      (List.Subset.trans (a.killLocal_subset_storeLocal loc r) hflagged)
  exact ⟨⟨matches_update_local hrel.stack hnot, isNew_update hrel.locals hnew⟩,
    Write.clean_of_not_mem hrel.locals hnot⟩

variable {inst : Instr} {s s' : State} {writes : List Write}

theorem step_store (hbase : ∀ k loc, base k loc → k ∉ flagged) (hrel : Related base s a)
    (hflagged : a'.flagged ⊆ flagged) (hsim : analyzeInst i inst a = some a')
    (hstep : Completes i inst s writes s')
    (hinst : (∃ loc, inst = .DELETE_FAST loc ∨ inst = .LOAD_FAST_AND_CLEAR loc ∨
      inst = .STORE_FAST loc) ∨
      ∃ ioparg, inst = .STORE_FAST_LOAD_FAST ioparg ∨ inst = .STORE_FAST_STORE_FAST ioparg) :
    Related base s' a' ∧ ∀ w ∈ writes, w.Clean := by
  rcases hinst with ⟨loc, rfl | rfl | rfl⟩ | ⟨ioparg, rfl | rfl⟩
  · -- `DELETE_FAST`
    cases hsim
    cases hstep with
    | DELETE_FAST h =>
      have hnot := fun k => not_borrowed_of_killLocal hbase hrel.stack hflagged k
      exact ⟨⟨matches_update_local hrel.stack hnot, isNew_update hrel.locals rfl⟩,
        forall_mem_singleton.mpr (Write.clean_of_not_mem hrel.locals hnot)⟩
  · -- `LOAD_FAST_AND_CLEAR`
    cases hsim
    cases hstep with
    | LOAD_FAST_AND_CLEAR =>
      have hnot := fun k => not_borrowed_of_killLocal hbase hrel.stack hflagged k
      refine ⟨⟨.cons (matchesRef_of_new (hrel.locals loc) _)
        (matches_update_local hrel.stack hnot), isNew_update hrel.locals rfl⟩,
        forall_mem_singleton.mpr (Write.clean_of_not_mem hrel.locals hnot)⟩
  · -- `STORE_FAST`
    obtain ⟨⟨r, a₁⟩, hpop, h⟩ := bind_eq_some_iff.mp hsim
    cases h
    cases hstep with
    | STORE_FAST =>
      obtain ⟨hv, hrest⟩ := hrel.pop hpop
      obtain ⟨hrel', hclean⟩ := store_related hbase hrest hv hflagged
      exact ⟨hrel', forall_mem_singleton.mpr hclean⟩
  · -- `STORE_FAST_LOAD_FAST`
    obtain ⟨⟨r, a₁⟩, hpop, h⟩ := bind_eq_some_iff.mp hsim
    cases h
    cases hstep with
    | STORE_FAST_LOAD_FAST h h' =>
      subst h
      obtain ⟨hv, hrest⟩ := hrel.pop hpop
      obtain ⟨hrel', hclean⟩ := store_related hbase hrest hv hflagged
      exact ⟨hrel'.push_local _ _, forall_mem_singleton.mpr hclean⟩
  · -- `STORE_FAST_STORE_FAST`: the second value is on the stack at the first store
    obtain ⟨⟨r, a₁⟩, hpop, h⟩ := bind_eq_some_iff.mp hsim
    obtain ⟨⟨r', a₂⟩, hpop', h⟩ := bind_eq_some_iff.mp h
    cases h
    have hfirst : (a₁.storeLocal (firstLocal ioparg) r).flagged ⊆ flagged := by
      rw [← (Analysis.pop_eq hpop').2]
      exact List.Subset.trans (List.Subset.trans (flagged_subset_killLocal a₂ _)
        (a₂.killLocal_subset_storeLocal _ r')) hflagged
    cases hstep with
    | STORE_FAST_STORE_FAST =>
      obtain ⟨hv, hrest⟩ := hrel.pop hpop
      obtain ⟨hrel₁, hclean₁⟩ := store_related hbase hrest hv hfirst
      obtain ⟨hv', hrest₁⟩ := hrel₁.pop hpop'
      obtain ⟨hrel₂, hclean₂⟩ := store_related hbase hrest₁ hv' hflagged
      refine ⟨hrel₂, fun w hw => ?_⟩
      cases mem_cons.mp hw with
      | inl heq => exact heq ▸ hclean₁
      | inr hmem => exact mem_singleton.mp hmem ▸ hclean₂

theorem step_load (hload : i ∉ flagged → ∀ loc ∈ inst.loads, base i loc) (hrel : Related base s a)
    (hsim : analyzeInst i inst a = some a')
    (hstep : Completes i (if i ∈ flagged then inst else inst.borrow) s writes s')
    (hinst : (∃ loc, inst = .LOAD_FAST loc) ∨ ∃ ioparg, inst = .LOAD_FAST_LOAD_FAST ioparg) :
    Related base s' a' ∧ ∀ w ∈ writes, w.Clean := by
  rcases hinst with ⟨loc, rfl⟩ | ⟨ioparg, rfl⟩
  · cases hsim
    split at hstep
    next =>
      cases hstep with
      | LOAD_FAST h => exact ⟨hrel.push_local _ _, nofun⟩
    next hborrow =>
      have hbase := hload hborrow
      cases hstep with
      | LOAD_FAST_BORROW h =>
        refine ⟨hrel.push fun k loc' heq => ?_, nofun⟩
        cases heq
        exact ⟨rfl, hbase _ mem_cons_self, h⟩
  · cases hsim
    split at hstep
    next =>
      cases hstep with
      | LOAD_FAST_LOAD_FAST h₁ h₂ =>
        exact ⟨(hrel.push_local (firstLocal ioparg) _).push_local (secondLocal ioparg) _, nofun⟩
    next hborrow =>
      have hbase := hload hborrow
      obtain ⟨stack, locals⟩ := s
      cases hstep with
      | LOAD_FAST_BORROW_LOAD_FAST_BORROW h₁ h₂ =>
        have hmatches : ∀ loc, locals loc ≠ .null → base i loc →
            MatchesRef base locals (.borrowed i loc) ⟨some i, some loc⟩ := by
          intro loc hnull hloc k loc' heq
          cases heq
          exact ⟨rfl, hloc, hnull⟩
        exact ⟨(hrel.push (hmatches _ h₁ (hbase _ mem_cons_self))).push
          (hmatches _ h₂ (hbase _ (mem_cons_of_mem _ mem_cons_self))), nofun⟩

theorem matches_self {self : Value} (h : MatchesRef base locals self r)
    (hself : selfOrNull self v) :
    MatchesRef base locals v r := by
  rcases hself with rfl | rfl
  · exact h
  · exact matchesRef_of_new rfl r

theorem step_move (hrel : Related base s a) (hsim : analyzeInst i inst a = some a')
    (hstep : Completes i inst s writes s')
    (hinst : inst = .END_SEND ∨ inst = .SET_FUNCTION_ATTRIBUTE ∨ inst = .CHECK_EXC_MATCH ∨
      inst = .LOAD_SPECIAL ∨ inst = .PUSH_EXC_INFO ∨ ∃ target, inst = .SEND target) :
    Related base s' a' ∧ ∀ w ∈ writes, w.Clean := by
  rcases hinst with rfl | rfl | rfl | rfl | rfl | ⟨target, rfl⟩
  · -- `END_SEND`
    obtain ⟨⟨tos, a₁⟩, hpop, h⟩ := bind_eq_some_iff.mp hsim
    obtain ⟨⟨_, a₂⟩, hpop', h⟩ := bind_eq_some_iff.mp h
    cases h
    cases hstep with
    | END_SEND =>
      obtain ⟨hv, hrest⟩ := hrel.pop hpop
      exact ⟨(hrest.pop hpop').2.push hv, nofun⟩
  · -- `SET_FUNCTION_ATTRIBUTE`
    obtain ⟨⟨tos, a₁⟩, hpop, h⟩ := bind_eq_some_iff.mp hsim
    obtain ⟨⟨_, a₂⟩, hpop', h⟩ := bind_eq_some_iff.mp h
    cases h
    cases hstep with
    | SET_FUNCTION_ATTRIBUTE =>
      obtain ⟨hv, hrest⟩ := hrel.pop hpop
      exact ⟨(hrest.pop hpop').2.push hv, nofun⟩
  · -- `CHECK_EXC_MATCH`
    obtain ⟨⟨_, a₁⟩, hpop, h⟩ := bind_eq_some_iff.mp hsim
    cases h
    cases hstep with
    | CHECK_EXC_MATCH hnew => exact ⟨(hrel.pop hpop).2.push_one hnew, nofun⟩
  · -- `LOAD_SPECIAL`
    obtain ⟨⟨tos, a₁⟩, hpop, h⟩ := bind_eq_some_iff.mp hsim
    cases h
    cases hstep with
    | LOAD_SPECIAL hnew hself =>
      obtain ⟨hv, hrest⟩ := hrel.pop hpop
      exact ⟨(hrest.push_one hnew).push (matches_self hv hself), nofun⟩
  · -- `PUSH_EXC_INFO`
    obtain ⟨⟨tos, a₁⟩, hpop, h⟩ := bind_eq_some_iff.mp hsim
    cases h
    cases hstep with
    | PUSH_EXC_INFO hnew =>
      obtain ⟨hv, hrest⟩ := hrel.pop hpop
      exact ⟨(hrest.push_one hnew).push hv, nofun⟩
  · -- `SEND`
    obtain ⟨⟨_, a₁⟩, hpop, h⟩ := bind_eq_some_iff.mp hsim
    cases h
    cases hstep with
    | SEND hnew => exact ⟨((hrel.pushBlock _ _).pop hpop).2.push_one hnew, nofun⟩

theorem step_copy_swap (hrel : Related base s a) (hsim : analyzeInst i inst a = some a')
    (hstep : Completes i inst s writes s')
    (hinst : ∃ ioparg, inst = .COPY ioparg ∨ inst = .SWAP ioparg) :
    Related base s' a' ∧ ∀ w ∈ writes, w.Clean := by
  obtain ⟨ioparg, rfl | rfl⟩ := hinst
  · simp only [analyzeInst] at hsim
    split at hsim
    next =>
      obtain ⟨r, hr, h⟩ := bind_eq_some_iff.mp hsim
      cases h
      cases hstep with
      | COPY hpos hv => exact ⟨hrel.push (matches_getElem hrel.stack hv hr), nofun⟩
    next => cases hsim
  · simp only [analyzeInst] at hsim
    split at hsim
    next =>
      obtain ⟨refs, hrefs, h⟩ := bind_eq_some_iff.mp hsim
      cases h
      cases hstep with
      | SWAP hpos hv => exact ⟨⟨matches_swap hrel.stack hv hrefs, hrel.locals⟩, nofun⟩
    next => cases hsim

theorem step_loadAttr (hrel : Related base s a) (hsim : analyzeInst i inst a = some a')
    (hstep : Completes i inst s writes s')
    (hinst : ∃ ioparg, inst = .LOAD_ATTR ioparg ∨ inst = .LOAD_SUPER_ATTR ioparg) :
    Related base s' a' ∧ ∀ w ∈ writes, w.Clean := by
  obtain ⟨ioparg, rfl | rfl⟩ := hinst
  · obtain ⟨⟨self, a₁⟩, hpop, h⟩ := bind_eq_some_iff.mp hsim
    cases h
    cases hstep with
    | LOAD_ATTR hmethod hnew =>
      rw [if_neg hmethod]
      exact ⟨(hrel.pop hpop).2.push_one hnew, nofun⟩
    | LOAD_ATTR_method hmethod hnew hself =>
      obtain ⟨hv, hrest⟩ := hrel.pop hpop
      rw [if_pos hmethod]
      exact ⟨(hrest.push_one hnew).push (matches_self hv hself), nofun⟩
  · obtain ⟨⟨self, a₁⟩, hpop, h⟩ := bind_eq_some_iff.mp hsim
    obtain ⟨a₂, hpopMany, h⟩ := bind_eq_some_iff.mp h
    cases h
    cases hstep with
    | @LOAD_SUPER_ATTR _ _ cls sup _ _ _ hmethod hnew =>
      have hrest : Related base ⟨[cls, sup] ++ _, _⟩ a₁ := (hrel.pop hpop).2
      rw [if_neg hmethod]
      exact ⟨(hrest.popMany rfl hpopMany).push_one hnew, nofun⟩
    | @LOAD_SUPER_ATTR_method _ _ cls sup _ _ _ _ hmethod hnew hself =>
      obtain ⟨hv, hrest⟩ := hrel.pop hpop
      have hrest : Related base ⟨[cls, sup] ++ _, _⟩ a₁ := hrest
      rw [if_pos hmethod]
      exact ⟨((hrest.popMany rfl hpopMany).push_one hnew).push (matches_self hv hself), nofun⟩

theorem step_partial (hrel : Related base s a) (hsim : analyzeInst i inst a = some a')
    (hstep : Completes i inst s writes s')
    (hinst : (∃ op, inst = .noInput op) ∨ (∃ op oparg, inst = .partly op oparg) ∨
      ∃ target, inst = .FOR_ITER target) :
    Related base s' a' ∧ ∀ w ∈ writes, w.Clean := by
  rcases hinst with ⟨op, rfl⟩ | ⟨op, oparg, rfl⟩ | ⟨target, rfl⟩
  · cases hsim
    cases hstep with
    | noInput hlength hnew => exact ⟨hrel.pushNew hlength hnew, nofun⟩
    | noInput_replaced hop hnew =>
      -- the simulation keeps the reference that has been replaced
      have hdelta : op.delta = 0 := by
        rcases hop with rfl | rfl <;> rfl
      obtain ⟨hstack, hlocals⟩ := hrel
      rw [hdelta]
      refine ⟨⟨?_, hlocals⟩, nofun⟩
      rw [Analysis.pushNew_refs, replicate_zero, nil_append]
      cases hrefs : a.refs with
      | nil =>
        rw [hrefs] at hstack
        cases hstack
      | cons r refs =>
        rw [hrefs] at hstack
        cases hstack with
        | cons _ hstack => exact .cons (matchesRef_of_new hnew r) hstack
  · cases hstep with
    | partly hlength => exact ⟨hrel.popMany hlength hsim, nofun⟩
  · cases hsim
    cases hstep with
    | FOR_ITER hnew => exact ⟨(hrel.pushBlock _ _).push_one hnew, nofun⟩

/-! ## The last branch -/

theorem Related.plain {locals : Nat → Value} {args new stack : List Value} {inst : Instr}
    (h : Related base ⟨args ++ stack, locals⟩ a) (hargs : args.length = inst.popped)
    (hlength : new.length = inst.pushed) (hnew : ∀ v ∈ new, v.isNew)
    (hsim : analyzePlain i inst a = some a') : Related base ⟨new ++ stack, locals⟩ a' := by
  obtain ⟨-, hrefs, -⟩ := analyzePlain_eq hsim
  have hstack := matches_drop h.stack inst.popped
  rw [drop_left' hargs] at hstack
  refine ⟨?_, h.locals⟩
  rw [hrefs, ← hlength]
  exact matches_append (matches_new hnew _) hstack

theorem Related.update {stack : List Value} {loc : Nat} (h : Related base ⟨stack, locals⟩ a)
    (hnot : ∀ k, .borrowed k loc ∉ stack) (hv : v.isNew) :
    Related base ⟨stack, Function.update locals loc v⟩ a :=
  ⟨matches_update_local h.stack hnot, isNew_update h.locals hv⟩

theorem Related.copyFreeVars {locals : Nat → Value} {stack : List Value} {first count : Nat}
    (h : Related base ⟨stack, locals⟩ a)
    (hnot : ∀ loc ∈ range' first count, ∀ k, .borrowed k loc ∉ stack) :
    Related base ⟨stack, copyFreeVars locals first count⟩ a := by
  constructor
  · apply matches_update h.stack
    intro k loc hmem
    apply if_neg
    intro hrange
    exact hnot loc (mem_range'_1.mpr hrange) k hmem
  · intro loc
    unfold LoadFast.copyFreeVars
    dsimp only
    split
    · rfl
    · exact h.locals loc

theorem step_plain (hrel : Related base s a) (hsim : analyzePlain i inst a = some a')
    (hstep : Completes i inst s writes s')
    (hpasses : inst.passes → ∀ v, s.stack.head? = some v → v.isNew)
    (hoverwrites : ∀ loc ∈ inst.overwrites, ∀ k, .borrowed k loc ∉ s.stack)
    (hinst : (∃ op oparg target, inst = .plain op oparg target) ∨
      (∃ loc, inst = .LOAD_FAST_CHECK loc ∨ inst = .MAKE_CELL loc ∨ inst = .LOAD_LOCAL loc) ∨
      (∃ first count, inst = .COPY_FREE_VARS first count) ∨
      (∃ loc isDouble, inst = .STORE_LOCAL loc isDouble) ∨ inst = .REFINE_TYPE ∨
      inst = .PRIMITIVE_BOX ∨ inst = .PRIMITIVE_UNBOX ∨ inst = .LOAD_METHOD_STATIC) :
    Related base s' a' ∧ ∀ w ∈ writes, w.Clean := by
  obtain ⟨stack, locals⟩ := s
  have hnone : Related base ⟨[] ++ stack, locals⟩ a := hrel
  rcases hinst with ⟨op, oparg, target, rfl⟩ | ⟨loc, rfl | rfl | rfl⟩ | ⟨first, count, rfl⟩ |
    ⟨loc, isDouble, rfl⟩ | rfl | rfl | rfl | rfl
  · cases hstep with
    | plain hargs hlength hnew =>
      have hpopped : _ = (Instr.plain op oparg target).popped := hargs
      exact ⟨hrel.plain hpopped hlength hnew hsim, nofun⟩
  · -- `LOAD_FAST_CHECK`
    cases hstep with
    | LOAD_FAST_CHECK h =>
      have hone : ∀ v ∈ [locals loc], v.isNew := forall_mem_singleton.mpr (hrel.locals loc)
      exact ⟨hnone.plain rfl rfl hone hsim, nofun⟩
  · -- `MAKE_CELL`
    have hnot := hoverwrites loc (mem_singleton_self loc)
    cases hstep with
    | MAKE_CELL =>
      have hrest : Related base ⟨[] ++ stack, locals⟩ a' := hnone.plain rfl rfl nofun hsim
      exact ⟨hrest.update hnot rfl,
        forall_mem_singleton.mpr (Write.clean_of_not_mem hrel.locals hnot)⟩
  · -- `LOAD_LOCAL`
    cases hstep with
    | LOAD_LOCAL h =>
      have hone : ∀ v ∈ [locals loc], v.isNew := forall_mem_singleton.mpr (hrel.locals loc)
      exact ⟨hnone.plain rfl rfl hone hsim, nofun⟩
    | LOAD_LOCAL_default h =>
      have hnot : ∀ k, .borrowed k loc ∉ stack := fun k hmem =>
        (exists_ref_of_borrowed hrel.stack hmem).2.2 h
      have hone : ∀ v ∈ [Value.owned], v.isNew := forall_mem_singleton.mpr rfl
      have hupdate : Related base ⟨[] ++ stack, Function.update locals loc .owned⟩ a :=
        hrel.update hnot rfl
      exact ⟨hupdate.plain rfl rfl hone hsim,
        forall_mem_singleton.mpr (Write.clean_of_not_mem hrel.locals hnot)⟩
  · -- `COPY_FREE_VARS`
    cases hstep with
    | COPY_FREE_VARS =>
      have hrest : Related base ⟨[] ++ stack, locals⟩ a' := hnone.plain rfl rfl nofun hsim
      refine ⟨hrest.copyFreeVars hoverwrites, fun w hw => ?_⟩
      obtain ⟨loc, hloc, rfl⟩ := List.mem_map.mp hw
      exact Write.clean_of_not_mem hrel.locals (hoverwrites loc hloc)
  · -- `STORE_LOCAL`
    have hnot := hoverwrites loc (mem_singleton_self loc)
    cases hstep with
    | @STORE_LOCAL _ _ v stack _ =>
      have hnotRest : ∀ k, .borrowed k loc ∉ stack := fun k hmem =>
        hnot k (mem_cons_of_mem _ hmem)
      have hinput : Related base ⟨[v] ++ stack, locals⟩ a := hrel
      have hrest : Related base ⟨[] ++ stack, locals⟩ a' := hinput.plain rfl rfl nofun hsim
      have hv : (if isDouble then v else .owned).isNew := by
        split
        next hdouble => exact hpasses hdouble v rfl
        next => rfl
      exact ⟨hrest.update hnotRest hv,
        forall_mem_singleton.mpr (Write.clean_of_not_mem hrel.locals hnot)⟩
  · -- `REFINE_TYPE`
    cases hstep with
    | @REFINE_TYPE v _ _ =>
      have hone : ∀ v' ∈ [v], v'.isNew := forall_mem_singleton.mpr (hpasses rfl v rfl)
      have hinput : Related base ⟨[v] ++ _, locals⟩ a := hrel
      exact ⟨hinput.plain rfl rfl hone hsim, nofun⟩
  · -- `PRIMITIVE_BOX`
    cases hstep with
    | @PRIMITIVE_BOX v v' _ _ h =>
      have hv' : v'.isNew := by
        rcases h with rfl | hnew
        · exact hpasses rfl v' rfl
        · exact hnew
      have hone : ∀ v ∈ [v'], v.isNew := forall_mem_singleton.mpr hv'
      have hinput : Related base ⟨[v] ++ _, locals⟩ a := hrel
      exact ⟨hinput.plain rfl rfl hone hsim, nofun⟩
  · -- `PRIMITIVE_UNBOX`
    cases hstep with
    | @PRIMITIVE_UNBOX v _ _ =>
      have hone : ∀ v' ∈ [v], v'.isNew := forall_mem_singleton.mpr (hpasses rfl v rfl)
      have hinput : Related base ⟨[v] ++ _, locals⟩ a := hrel
      exact ⟨hinput.plain rfl rfl hone hsim, nofun⟩
  · -- `LOAD_METHOD_STATIC`
    cases hstep with
    | @LOAD_METHOD_STATIC self func _ _ hnew =>
      have hboth : ∀ v ∈ [self, func], v.isNew :=
        forall_mem_cons.mpr ⟨hpasses rfl self rfl, forall_mem_singleton.mpr hnew⟩
      have hinput : Related base ⟨[self] ++ _, locals⟩ a := hrel
      exact ⟨hinput.plain rfl rfl hboth hsim, nofun⟩

def Instr.isBorrow : Instr → Bool
  | LOAD_FAST_BORROW _ | LOAD_FAST_BORROW_LOAD_FAST_BORROW _ => true
  | _ => false

theorem step_related (hbase : ∀ k loc, base k loc → k ∉ flagged)
    (hload : i ∉ flagged → ∀ loc ∈ inst.loads, base i loc) (hnotBorrow : inst.isBorrow = false)
    (hrel : Related base s a) (hflagged : a'.flagged ⊆ flagged)
    (hsim : analyzeInst i inst a = some a')
    (hstep : Completes i (if i ∈ flagged then inst else inst.borrow) s writes s')
    (hpasses : inst.passes → ∀ v, s.stack.head? = some v → v.isNew)
    (hoverwrites : ∀ loc ∈ inst.overwrites, ∀ k, .borrowed k loc ∉ s.stack) :
    Related base s' a' ∧ ∀ w ∈ writes, w.Clean := by
  by_cases hloads : (∃ loc, inst = .LOAD_FAST loc) ∨ ∃ ioparg, inst = .LOAD_FAST_LOAD_FAST ioparg
  · exact step_load hload hrel hsim hstep hloads
  · have hsame : (if i ∈ flagged then inst else inst.borrow) = inst := by
      rw [ite_eq_left_iff]
      intro _
      cases inst <;> first | rfl | exact absurd (.inl ⟨_, rfl⟩) hloads |
        exact absurd (.inr ⟨_, rfl⟩) hloads
    rw [hsame] at hstep
    cases inst with
    | LOAD_FAST loc => exact absurd (.inl ⟨_, rfl⟩) hloads
    | LOAD_FAST_LOAD_FAST ioparg => exact absurd (.inr ⟨_, rfl⟩) hloads
    | LOAD_FAST_BORROW loc => cases hnotBorrow
    | LOAD_FAST_BORROW_LOAD_FAST_BORROW ioparg => cases hnotBorrow
    | DELETE_FAST | LOAD_FAST_AND_CLEAR | STORE_FAST | STORE_FAST_LOAD_FAST
    | STORE_FAST_STORE_FAST =>
      exact step_store hbase hrel hflagged hsim hstep (by simp)
    | COPY | SWAP => exact step_copy_swap hrel hsim hstep (by simp)
    | noInput | partly | FOR_ITER => exact step_partial hrel hsim hstep (by simp)
    | END_SEND | SET_FUNCTION_ATTRIBUTE | CHECK_EXC_MATCH | LOAD_SPECIAL | PUSH_EXC_INFO | SEND =>
      exact step_move hrel hsim hstep (by simp)
    | LOAD_ATTR | LOAD_SUPER_ATTR => exact step_loadAttr hrel hsim hstep (by simp)
    | plain | LOAD_FAST_CHECK | MAKE_CELL | COPY_FREE_VARS | LOAD_LOCAL | STORE_LOCAL | REFINE_TYPE
    | PRIMITIVE_BOX | PRIMITIVE_UNBOX | LOAD_METHOD_STATIC =>
      exact step_plain hrel hsim hstep hpasses hoverwrites (by simp)

end CinderX.Compiler.LoadFast
