import CinderX.Compiler.NormalizeJumps
import CinderX.Foundation.Fold

/-!
# The directions of the jumps

Over the whole graph the passes leave every jump directed, the new blocks with ids of
their own.
-/

namespace CinderX.Compiler

open List

variable {Op : Type} {opcodes : JumpOpcodes Op} {pending : Op → Prop}

@[simp]
theorem bids_cons (b : LinkedBlock Op) (g : List (LinkedBlock Op)) :
    bids (b :: g) = b.bid :: bids g := rfl

section Normalize

variable [DecidableEq Op]

/-- The jumps that `normalize_jumps` leaves to `resolve_unconditional_jumps`. -/
def leftFor (opcodes : JumpOpcodes Op) (v314 : Bool) (op : Op) : Prop :=
  v314 ∧ (op = opcodes.JUMP ∨ op = opcodes.JUMP_NO_INTERRUPT)

variable {v314 : Bool} {fresh : Nat}

theorem normalizeInBlock_replaces {seen later : List Nat}
    {b : LinkedBlock Op} {blocks : List (LinkedBlock Op)} (hready : BlockReady opcodes seen b later)
    (h : normalizeInBlock opcodes v314 seen fresh b = some blocks) :
    Replaces opcodes (leftFor opcodes v314) seen later b fresh blocks := by
  cases v314 with
  | false => exact normalizeInBlock312_replaces hready h
  | true =>
    have hreplaces := normalizeInBlock314_replaces hready h
    have hleft : leftFor opcodes true =
        fun op => op = opcodes.JUMP ∨ op = opcodes.JUMP_NO_INTERRUPT := by
      funext op
      simp [leftFor]
    rw [hleft]
    exact hreplaces

theorem normalizeJumps_directed (g : List (LinkedBlock Op)) :
    ∀ {seen seen' : List Nat} {fresh : Nat} {g' : List (LinkedBlock Op)},
      Ready opcodes seen g → normalizeJumps opcodes v314 seen fresh g = some g' →
      seen ⊆ seen' →
      Directed opcodes.toOpcodes (leftFor opcodes v314) seen' g' ∧ bids g ⊆ bids g' := by
  induction g with
  | nil =>
    intro seen seen' fresh g' _ h _
    cases h
    exact ⟨trivial, List.Subset.refl _⟩
  | cons b g ih =>
    intro seen seen' fresh g' hready h hsub
    obtain ⟨blocks, hblocks, h⟩ := Option.bind_eq_some_iff.mp h
    obtain ⟨rest, hrest, h⟩ := Option.bind_eq_some_iff.mp h
    cases h
    cases normalizeInBlock_replaces hready.1 hblocks with
    | @same b' hbid hjumps =>
      have hbehind : b.bid :: seen ⊆ b'.bid :: seen' := hbid ▸ cons_subset_cons _ hsub
      obtain ⟨hdirected, hbids⟩ := ih hready.2 hrest hbehind
      refine ⟨⟨hjumps.mono hbehind hbids, hdirected⟩, ?_⟩
      rw [cons_append, nil_append, bids_cons, bids_cons, hbid]
      exact cons_subset_cons _ hbids
    | @inverted b' new hbid hnew hjumps hback =>
      have hbehind : b.bid :: seen ⊆ b'.bid :: seen' := hbid ▸ cons_subset_cons _ hsub
      have hbehind' : b.bid :: seen ⊆ new.bid :: b'.bid :: seen' :=
        subset_cons_of_subset _ hbehind
      obtain ⟨hdirected, hbids⟩ := ih hready.2 hrest hbehind'
      refine ⟨⟨hjumps.mono hbehind (subset_cons_of_subset _ hbids),
        hback.mono hbehind' hbids, hdirected⟩, ?_⟩
      rw [cons_append, cons_append, nil_append, bids_cons, bids_cons, bids_cons,
        hbid]
      exact cons_subset_cons _ (subset_cons_of_subset _ hbids)

theorem normalizeJumps_nodup (g : List (LinkedBlock Op)) :
    ∀ {seen : List Nat} {fresh : Nat} {g' : List (LinkedBlock Op)},
      Ready opcodes seen g → normalizeJumps opcodes v314 seen fresh g = some g' →
      (bids g).Nodup → (∀ bid ∈ bids g, bid < fresh) →
      (bids g').Nodup ∧ ∀ bid ∈ bids g', bid ∈ bids g ∨ fresh ≤ bid := by
  induction g with
  | nil =>
    intro seen fresh g' _ h _ _
    cases h
    exact ⟨nodup_nil, nofun⟩
  | cons b g ih =>
    intro seen fresh g' hready h hnodup hfresh
    obtain ⟨blocks, hblocks, h⟩ := Option.bind_eq_some_iff.mp h
    obtain ⟨rest, hrest, h⟩ := Option.bind_eq_some_iff.mp h
    cases h
    rw [bids_cons, nodup_cons] at hnodup
    obtain ⟨hbound, hbounds⟩ := forall_mem_cons.mp (bids_cons b g ▸ hfresh)
    cases normalizeInBlock_replaces hready.1 hblocks with
    | @same b' hbid _ =>
      obtain ⟨hrestNodup, hrestMem⟩ := ih hready.2 hrest hnodup.2 hbounds
      rw [if_neg (by simp)] at hrestMem
      rw [cons_append, nil_append, bids_cons, bids_cons, hbid, nodup_cons]
      refine ⟨⟨fun hmem => ?_, hrestNodup⟩, fun bid hmem => ?_⟩
      · cases hrestMem _ hmem with
        | inl hold => exact hnodup.1 hold
        | inr hnew => omega
      · cases mem_cons.mp hmem with
        | inl heq => exact .inl (heq ▸ mem_cons_self)
        | inr hmem => exact (hrestMem bid hmem).imp_left (mem_cons_of_mem _)
    | @inverted b' new hbid hnew _ _ =>
      obtain ⟨hrestNodup, hrestMem⟩ := ih hready.2 hrest hnodup.2
        (fun bid hmem => Nat.lt_succ_of_lt (hbounds bid hmem))
      simp only [length_cons, length_nil, if_true] at hrestMem
      rw [cons_append, cons_append, nil_append, bids_cons, bids_cons, bids_cons,
        hbid, hnew, nodup_cons, nodup_cons]
      refine ⟨⟨fun hmem => ?_, fun hmem => ?_, hrestNodup⟩, fun bid hmem => ?_⟩
      · cases mem_cons.mp hmem with
        | inl heq => omega
        | inr hmem =>
          cases hrestMem _ hmem with
          | inl hold => exact hnodup.1 hold
          | inr hnew => omega
      · cases hrestMem _ hmem with
        | inl hold =>
          have hlt := hbounds _ hold
          omega
        | inr hnew => omega
      · cases mem_cons.mp hmem with
        | inl heq => exact .inl (heq ▸ mem_cons_self)
        | inr hmem =>
          cases mem_cons.mp hmem with
          | inl heq => exact .inr (Nat.le_of_eq heq.symm)
          | inr hmem =>
            exact (hrestMem bid hmem).imp (mem_cons_of_mem _) Nat.le_of_succ_le

theorem resolveInst_jumpsTo {behind ahead : List Nat} {insts insts' : List (Inst Op)}
    (hjumps : JumpsTo opcodes.toOpcodes (leftFor opcodes true) behind ahead insts)
    (h : insts.mapM (resolveInst opcodes behind) = some insts') :
    JumpsTo opcodes.toOpcodes (fun _ => False) behind ahead insts' := by
  intro inst' hmem hjump
  obtain ⟨inst, hinst, hresolve⟩ := Foundation.exists_of_mem_mapM h hmem
  unfold resolveInst at hresolve
  split at hresolve
  next heq =>
    obtain ⟨t, htarget, hsomewhere, -⟩ := hjumps inst hinst (heq ▸ opcodes.hasJump_jump.1)
    rw [htarget] at hresolve
    cases hresolve
    exact ⟨t, rfl, hsomewhere, fun _ =>
      way_of_choice hsomewhere opcodes.isBackward_backward⟩
  split at hresolve
  next heq =>
    obtain ⟨t, htarget, hsomewhere, -⟩ := hjumps inst hinst (heq ▸ opcodes.hasJump_jump.2)
    rw [htarget] at hresolve
    cases hresolve
    exact ⟨t, rfl, hsomewhere, fun _ =>
      way_of_choice hsomewhere opcodes.isBackward_noInterrupt⟩
  next hnoJump hnoInterrupt =>
    obtain rfl := Option.some.inj hresolve
    obtain ⟨t, htarget, hsomewhere, hway⟩ := hjumps inst hinst hjump
    refine ⟨t, htarget, hsomewhere, fun _ => hway fun hleft => ?_⟩
    exact hleft.2.elim hnoJump hnoInterrupt

theorem resolveUnconditionalJumps_directed (g : List (LinkedBlock Op)) :
    ∀ {seen : List Nat} {g' : List (LinkedBlock Op)},
      Directed opcodes.toOpcodes (leftFor opcodes true) seen g →
      resolveUnconditionalJumps opcodes seen g = some g' →
      Directed opcodes.toOpcodes (fun _ => False) seen g' ∧ bids g' = bids g := by
  induction g with
  | nil =>
    intro seen g' _ h
    cases h
    exact ⟨trivial, rfl⟩
  | cons b g ih =>
    intro seen g' hdirected h
    obtain ⟨insts, hinsts, h⟩ := Option.bind_eq_some_iff.mp h
    obtain ⟨rest, hrest, h⟩ := Option.bind_eq_some_iff.mp h
    cases h
    obtain ⟨hrestDirected, hbids⟩ := ih hdirected.2 hrest
    refine ⟨⟨?_, hrestDirected⟩, by simp [hbids]⟩
    rw [hbids]
    exact resolveInst_jumpsTo hdirected.1 hinsts

theorem directJumps_directed {g g' : List (LinkedBlock Op)}
    (hready : Ready opcodes [] g) (hnodup : (bids g).Nodup) (hfresh : ∀ bid ∈ bids g, bid < fresh)
    (h : directJumps opcodes v314 fresh g = some g') :
    Directed opcodes.toOpcodes (fun _ => False) [] g' ∧ (bids g').Nodup := by
  obtain ⟨g₁, hnormal, h⟩ := Option.bind_eq_some_iff.mp h
  obtain ⟨hdirected, -⟩ := normalizeJumps_directed g hready hnormal (List.Subset.refl _)
  obtain ⟨hnodup', -⟩ := normalizeJumps_nodup g hready hnormal hnodup hfresh
  cases v314 with
  | false =>
    cases h
    have hleft : leftFor opcodes false = fun _ => False := by
      funext op
      simp [leftFor]
    rw [hleft] at hdirected
    exact ⟨hdirected, hnodup'⟩
  | true =>
    obtain ⟨hresolved, hbids⟩ := resolveUnconditionalJumps_directed g₁ hdirected h
    exact ⟨hresolved, hbids ▸ hnodup'⟩

end Normalize

variable {g : List (LinkedBlock Op)}

theorem Directed.jumpsTo :
    ∀ {seen : List Nat}, Directed opcodes.toOpcodes pending seen g →
      ∀ {k : Nat} {b : LinkedBlock Op}, g[k]? = some b →
        JumpsTo opcodes.toOpcodes pending (bids (g.take (k + 1)) ++ seen) (bids (g.drop (k + 1)))
          b.insts := by
  induction g with
  | nil => exact nofun
  | cons b' g ih =>
    intro seen h k b hk
    cases k with
    | zero =>
      obtain rfl : b' = b := by simpa using hk
      simpa [bids] using h.1
    | succ k =>
      rw [getElem?_cons_succ] at hk
      have hrest := ih h.2 hk
      refine hrest.mono (fun t ht => ?_) (by simp)
      simp only [take_succ_cons, bids_cons, cons_append, mem_cons,
        mem_append] at ht ⊢
      tauto

theorem Directed.target_index
    (h : Directed opcodes.toOpcodes (fun _ => False) [] g) {k : Nat} {b : LinkedBlock Op}
    (hk : g[k]? = some b) {inst : Inst Op} (hinst : inst ∈ b.insts)
    (hjump : opcodes.hasJump inst.opname) :
    ∃ j b', g[j]? = some b' ∧ inst.target = some b'.bid ∧
      if opcodes.isBackward inst.opname then j ≤ k else k < j := by
  obtain ⟨t, htarget, -, hway⟩ := h.jumpsTo hk inst hinst hjump
  have hway := hway id
  rw [append_nil] at hway
  split at hway
  next hback =>
    obtain ⟨b', hb', rfl⟩ := List.mem_map.mp hway
    obtain ⟨j, hj, rfl⟩ := mem_iff_getElem.mp hb'
    rw [length_take] at hj
    refine ⟨j, _, getElem?_eq_getElem (by omega), ?_, ?_⟩
    · rw [htarget, getElem_take]
    · rw [if_pos hback]
      omega
  next hback =>
    obtain ⟨b', hb', rfl⟩ := List.mem_map.mp hway
    obtain ⟨j, hj, rfl⟩ := mem_iff_getElem.mp hb'
    rw [length_drop] at hj
    refine ⟨k + 1 + j, _, getElem?_eq_getElem (by omega), ?_, ?_⟩
    · rw [htarget, getElem_drop]
    · rw [if_neg hback]
      omega

end CinderX.Compiler
