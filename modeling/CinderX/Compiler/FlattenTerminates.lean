import CinderX.Compiler.AssembledCode

/-!
# Whether flattening stops

`flatten_graph` repeats its pass until no size changes.  A pass keeps the order of sizes, so
from a pass on that only lengthens or only shortens jumps, all do.  On 3.12 that is the
first one, as the operands start at zero; on 3.14 they start at the indices of the targets,
and the passes can go round in a circle.
-/

namespace CinderX.Compiler

open List Option

variable {Op : Type} (opcodes : Opcodes Op)

def TargetsIn (g : List (Block Op)) : Prop :=
  ∀ inst ∈ flatInsts g, opcodes.hasJump inst.opname →
    ∃ target, inst.target = some target ∧ target ∈ g.map (·.bid)

def Shorter (inst inst' : Inst Op) : Prop :=
  inst.core opcodes = inst'.core opcodes ∧ instSize opcodes inst ≤ instSize opcodes inst'

structure Le (g g' : List (Block Op)) : Prop where
  shape : (g.map fun b => (b.bid, b.insts.length)) = g'.map fun b => (b.bid, b.insts.length)
  insts : List.Forall₂ (Shorter opcodes) (flatInsts g) (flatInsts g')

variable {opcodes}

theorem opargSize_mono {a b : Int} (h : a ≤ b) : opargSize a ≤ opargSize b := by
  unfold opargSize
  split_ifs <;> omega

theorem instsSize_cons (inst : Inst Op) (insts : List (Inst Op)) :
    instsSize opcodes (inst :: insts) = instSize opcodes inst + instsSize opcodes insts := by
  simp [instsSize]

variable {insts insts' : List (Inst Op)}

theorem instsSize_take_le_of_shorter (h : List.Forall₂ (Shorter opcodes) insts insts') (k : Nat) :
    instsSize opcodes (insts.take k) ≤ instsSize opcodes (insts'.take k) := by
  induction h generalizing k with
  | nil => simp
  | cons hinst _ ih =>
    cases k with
    | zero => simp [instsSize]
    | succ k =>
      simp only [take_succ_cons, instsSize_cons]
      exact Nat.add_le_add hinst.2 (ih k)

theorem Shorter.jump {inst inst' : Inst Op} (h : Shorter opcodes inst inst') :
    inst.opname = inst'.opname ∧ inst.oparg = inst'.oparg ∧ inst.target = inst'.target := by
  have hopname := congrArg Inst.opname h.1
  have hoparg := congrArg Inst.oparg h.1
  have htarget := congrArg Inst.target h.1
  simp only [Inst.core] at hopname hoparg htarget
  split_ifs at hopname hoparg htarget <;> exact ⟨hopname, hoparg, htarget⟩

/-- Where a block lies in two codes: behind both positions, no farther in the first, or a
number of instructions ahead of them. -/
def Lies (opcodes : Opcodes Op) (insts insts' : List (Inst Op))
    (pc pc' offset offset' : Nat) : Prop :=
  (offset ≤ pc ∧ offset' ≤ pc' ∧ pc + offset' ≤ pc' + offset) ∨
    ∃ k, offset = pc + instsSize opcodes (insts.take k) ∧
      offset' = pc' + instsSize opcodes (insts'.take k)

theorem flatInsts_cons_take (b : Block Op) (g : List (Block Op)) (k : Nat) :
    instsSize opcodes ((flatInsts (b :: g)).take (b.insts.length + k)) =
      instsSize opcodes b.insts + instsSize opcodes ((flatInsts g).take k) := by
  rw [flatInsts, flatMap_cons, take_length_add_append]
  simp [instsSize, flatInsts]

variable {g g' : List (Block Op)} {pc : Nat}

theorem lookup_blockOffsets_lies
    (h : (g.map fun b => (b.bid, b.insts.length)) = g'.map fun b => (b.bid, b.insts.length))
    {target offset : Nat} (pc' : Nat)
    (hlookup : (blockOffsets opcodes pc g).lookup target = some offset) :
    ∃ k, offset = pc + instsSize opcodes ((flatInsts g).take k) ∧
      (blockOffsets opcodes pc' g').lookup target =
        some (pc' + instsSize opcodes ((flatInsts g').take k)) := by
  induction g generalizing g' pc pc' with
  | nil => simp [blockOffsets] at hlookup
  | cons b g ih =>
    cases g' with
    | nil => simp at h
    | cons b' g' =>
      simp only [map_cons, List.cons.injEq, Prod.mk.injEq] at h
      obtain ⟨⟨hbid, hlength⟩, hrest⟩ := h
      simp only [blockOffsets, lookup_cons, ← hbid] at hlookup ⊢
      split at hlookup
      · cases hlookup
        exact ⟨0, by simp [instsSize]⟩
      · obtain ⟨k, hk, hk'⟩ := ih hrest (pc' + instsSize opcodes b'.insts) hlookup
        refine ⟨b.insts.length + k, ?_, ?_⟩
        · rw [hk, flatInsts_cons_take, Nat.add_assoc]
        · rw [hk', hlength, flatInsts_cons_take, Nat.add_assoc]

variable [DecidableEq Op]

/-- The offsets of a block in two codes, on the same side of two positions and no nearer in
the second code. -/
def Farther (pc pc' offset offset' : Nat) : Prop :=
  (offset ≤ pc ∧ offset' ≤ pc' ∧ pc + offset' ≤ pc' + offset) ∨
    (pc ≤ offset ∧ pc' ≤ offset' ∧ offset + pc' ≤ offset' + pc)

variable {offsets : List (Nat × Nat)} {inst : Inst Op} {offsets' : List (Nat × Nat)}
  {inst' : Inst Op} {pc' : Nat} {s : List (Block Op)}

theorem flattenJump_mono {o o' : Int} (hinst : Shorter opcodes inst inst')
    (hlies : ∀ target offset, offsets.lookup target = some offset →
      ∃ offset', offsets'.lookup target = some offset' ∧ Farther pc pc' offset offset')
    (h : flattenJump opcodes offsets inst pc = some o)
    (h' : flattenJump opcodes offsets' inst' pc' = some o') : o ≤ o' := by
  obtain ⟨hopname, -, htarget⟩ := hinst.jump
  obtain ⟨target, ht, h⟩ := bind_eq_some_iff.mp h
  obtain ⟨offset, hoffset, h⟩ := bind_eq_some_iff.mp h
  obtain ⟨offset', hoffset', hle⟩ := hlies target offset hoffset
  simp only [flattenJump, ← htarget, ht, hoffset', bind_eq_bind, bind_some,
    ← hopname, Option.pure_def, Option.some.injEq] at h h'
  unfold Farther at hle
  split_ifs at h h' <;> omega

theorem flattenInsts_cons {r : List (Inst Op) × Bool}
    (h : flattenInsts opcodes offsets pc (inst :: insts) = some r) :
    ∃ first rest recompile, r.1 = first :: rest ∧
      flattenInsts opcodes offsets (pc + instSize opcodes inst) insts = some (rest, recompile) ∧
      (if opcodes.hasJump inst.opname then
        ∃ o, flattenJump opcodes offsets inst (pc + instSize opcodes inst) = some o ∧
          first = { inst with ioparg := o }
      else first = inst) ∧
      (r.2 = true ↔ recompile = true ∨ instSize opcodes inst ≠ instSize opcodes first) := by
  obtain ⟨⟨rest, recompile⟩, hrest, h⟩ := bind_eq_some_iff.mp h
  dsimp only at h
  split at h
  · next hjump =>
      obtain ⟨o, ho, h⟩ := bind_eq_some_iff.mp h
      cases h
      refine ⟨_, rest, recompile, rfl, hrest, by rw [if_pos hjump]; exact ⟨o, ho, rfl⟩, ?_⟩
      exact (Bool.or_eq_true_iff).trans (or_congr_right bne_iff_ne)
  · next hjump =>
      cases h
      exact ⟨inst, rest, recompile, rfl, hrest, by rw [if_neg hjump], by simp⟩

theorem flattenInsts_mono (hinsts : List.Forall₂ (Shorter opcodes) insts insts')
    (hlies : ∀ target offset, offsets.lookup target = some offset →
      ∃ offset', offsets'.lookup target = some offset' ∧
        Lies opcodes insts insts' pc pc' offset offset') {r r' : List (Inst Op) × Bool}
    (h : flattenInsts opcodes offsets pc insts = some r)
    (h' : flattenInsts opcodes offsets' pc' insts' = some r') :
    List.Forall₂ (Shorter opcodes) r.1 r'.1 := by
  induction hinsts generalizing pc pc' r r' with
  | nil =>
    cases h
    cases h'
    exact .nil
  | @cons inst inst' insts insts' hinst hinsts ih =>
    obtain ⟨first, rest, _, hr, hrest, hfirst, -⟩ := flattenInsts_cons h
    obtain ⟨first', rest', _, hr', hrest', hfirst', -⟩ := flattenInsts_cons h'
    rw [hr, hr']
    -- a block that lies at an instruction is behind its end, else as far ahead as before
    have hnext : ∀ target offset, offsets.lookup target = some offset →
        ∃ offset', offsets'.lookup target = some offset' ∧
          Lies opcodes insts insts' (pc + instSize opcodes inst)
            (pc' + instSize opcodes inst') offset offset' := by
      intro target offset hoffset
      obtain ⟨offset', hoffset', hlie⟩ := hlies target offset hoffset
      have hsize := hinst.2
      refine ⟨offset', hoffset', ?_⟩
      rcases hlie with hbehind | ⟨k, hk, hk'⟩
      · exact .inl (by omega)
      · cases k with
        | zero =>
          simp only [take_zero, instsSize, map_nil, sum_nil] at hk hk'
          exact .inl (by omega)
        | succ k =>
          simp only [take_succ_cons, instsSize_cons] at hk hk'
          exact .inr ⟨k, by omega, by omega⟩
    refine .cons ?_ (ih hnext hrest hrest')
    obtain ⟨hopname, hoparg, htarget⟩ := hinst.jump
    rw [← hopname] at hfirst'
    split at hfirst
    · next hjump =>
        rw [if_pos hjump] at hfirst'
        obtain ⟨o, ho, rfl⟩ := hfirst
        obtain ⟨o', ho', rfl⟩ := hfirst'
        have hjump' : opcodes.hasJump inst'.opname := hopname ▸ hjump
        refine ⟨by simp [Inst.core, hopname, hoparg, htarget, hjump'], ?_⟩
        have hle : o ≤ o' := by
          refine flattenJump_mono hinst (fun target offset hoffset => ?_) ho ho'
          obtain ⟨offset', hoffset', hlie⟩ := hnext target offset hoffset
          refine ⟨offset', hoffset', ?_⟩
          rcases hlie with hbehind | ⟨k, hk, hk'⟩
          · exact .inl hbehind
          · have hle := instsSize_take_le_of_shorter hinsts k
            exact .inr (by omega)
        have hsize := opargSize_mono hle
        simp only [instSize, instrsize, getExtOparg, hopname, hoparg]
        omega
    · next hjump =>
        rw [if_neg hjump] at hfirst'
        obtain rfl := hfirst
        obtain rfl := hfirst'
        exact hinst

variable {recompile : Bool}

theorem flattenInsts_append {rest rest' : List (Inst Op)} {recompile' : Bool}
    (h : flattenInsts opcodes offsets pc insts = some (insts', recompile))
    (h' : flattenInsts opcodes offsets (pc + instsSize opcodes insts) rest =
      some (rest', recompile')) :
    flattenInsts opcodes offsets pc (insts ++ rest) =
      some (insts' ++ rest', recompile || recompile') := by
  induction insts generalizing pc insts' recompile with
  | nil =>
    cases h
    simpa [instsSize] using h'
  | cons inst insts ih =>
    obtain ⟨⟨tail, r⟩, htail, h⟩ := bind_eq_some_iff.mp h
    have hall := ih htail (by rwa [instsSize_cons, ← Nat.add_assoc] at h')
    rw [cons_append, flattenInsts, hall]
    dsimp only [bind_eq_bind, bind_some] at h ⊢
    split at h
    · next hjump =>
        obtain ⟨o, ho, h⟩ := bind_eq_some_iff.mp h
        cases h
        simp [hjump, ho, Bool.or_right_comm]
    · next hjump =>
        cases h
        simp [hjump]

theorem flattenBlocks_flat (h : flattenBlocks opcodes offsets pc g = some (g', recompile)) :
    flattenInsts opcodes offsets pc (flatInsts g) = some (flatInsts g', recompile) := by
  induction g generalizing pc g' recompile with
  | nil =>
    cases h
    rfl
  | cons b g ih =>
    obtain ⟨⟨insts, r⟩, hinsts, h⟩ := bind_eq_some_iff.mp h
    obtain ⟨⟨bs, r'⟩, hrest, h⟩ := bind_eq_some_iff.mp h
    cases h
    exact flattenInsts_append hinsts (ih hrest)

omit [DecidableEq Op] in
theorem shape_of_core (h : g'.map (Block.core opcodes) = g.map (Block.core opcodes)) :
    (g'.map fun b => (b.bid, b.insts.length)) = g.map fun b => (b.bid, b.insts.length) := by
  have hmap := congrArg (List.map fun b : Block Op => (b.bid, b.insts.length)) h
  simpa [Block.core, Function.comp_def] using hmap

variable {r : Bool}

theorem flattenStep_mono {h h' : List (Block Op)} {r' : Bool} (hle : Le opcodes g h)
    (hg : flattenStep opcodes g = some (g', r)) (hh : flattenStep opcodes h = some (h', r')) :
    Le opcodes g' h' := by
  refine ⟨?_, flattenInsts_mono hle.insts (fun target offset hoffset => ?_)
    (flattenBlocks_flat hg) (flattenBlocks_flat hh)⟩
  · rw [shape_of_core (flattenBlocks_core g hg), shape_of_core (flattenBlocks_core h hh), hle.shape]
  · obtain ⟨k, hk, hk'⟩ := lookup_blockOffsets_lies hle.shape 0 hoffset
    exact ⟨_, hk', .inr ⟨k, hk, rfl⟩⟩

/-! ## Termination -/

omit [DecidableEq Op] in
theorem size_le (h : List.Forall₂ (Shorter opcodes) insts insts') :
    instsSize opcodes insts ≤ instsSize opcodes insts' := by
  have hle := instsSize_take_le_of_shorter h insts.length
  rwa [take_length, h.length_eq, take_length] at hle

theorem size_ne (h : flattenInsts opcodes offsets pc insts = some (insts', true))
    (hle : List.Forall₂ (Shorter opcodes) insts insts' ∨
      List.Forall₂ (Shorter opcodes) insts' insts) :
    instsSize opcodes insts ≠ instsSize opcodes insts' := by
  induction insts generalizing pc insts' with
  | nil => cases h
  | cons inst insts ih =>
    obtain ⟨first, rest, recompile, rfl, hrest, -, hrecompile⟩ := flattenInsts_cons h
    rw [instsSize_cons, instsSize_cons]
    rcases hle with hle | hle
    · obtain ⟨hfirst, hle⟩ := forall₂_cons.mp hle
      have hsizes := size_le hle
      have hsize := hfirst.2
      rcases hrecompile.mp rfl with rfl | hne
      · have hne := ih hrest (.inl hle)
        omega
      · omega
    · obtain ⟨hfirst, hle⟩ := forall₂_cons.mp hle
      have hsizes := size_le hle
      have hsize := hfirst.2
      rcases hrecompile.mp rfl with rfl | hne
      · have hne := ih hrest (.inr hle)
        omega
      · omega

theorem flattenInsts_isSome (pc : Nat)
    (h : ∀ inst ∈ insts, opcodes.hasJump inst.opname →
      ∃ target offset, inst.target = some target ∧ offsets.lookup target = some offset) :
    ∃ r, flattenInsts opcodes offsets pc insts = some r := by
  induction insts generalizing pc with
  | nil => exact ⟨_, rfl⟩
  | cons inst insts ih =>
    obtain ⟨hinst, hinsts⟩ := forall_mem_cons.mp h
    obtain ⟨r, hr⟩ := ih (pc + instSize opcodes inst) hinsts
    rw [flattenInsts, hr]
    by_cases hjump : opcodes.hasJump inst.opname
    · obtain ⟨target, offset, htarget, hoffset⟩ := hinst hjump
      simp [hjump, flattenJump, htarget, hoffset]
    · simp [hjump]

omit [DecidableEq Op] in
variable (opcodes) in
theorem blockOffsets_isSome {target : Nat} (pc : Nat) (h : target ∈ g.map (·.bid)) :
    ∃ offset, (blockOffsets opcodes pc g).lookup target = some offset := by
  induction g generalizing pc with
  | nil => simp at h
  | cons b g ih =>
    rw [blockOffsets, lookup_cons]
    split
    · exact ⟨_, rfl⟩
    · next hne =>
        refine ih _ ((mem_cons.mp h).resolve_left fun heq => ?_)
        simp [heq] at hne

theorem flattenStep_isSome (h : TargetsIn opcodes g) :
    ∃ r, flattenStep opcodes g = some r := by
  have hlookup : ∀ inst ∈ flatInsts g, opcodes.hasJump inst.opname → ∃ target offset,
      inst.target = some target ∧ (blockOffsets opcodes 0 g).lookup target = some offset := by
    intro inst hinst hjump
    obtain ⟨target, htarget, hmem⟩ := h inst hinst hjump
    obtain ⟨offset, hoffset⟩ := blockOffsets_isSome opcodes 0 hmem
    exact ⟨target, offset, htarget, hoffset⟩
  unfold flattenStep
  generalize blockOffsets opcodes 0 g = offsets at hlookup
  generalize 0 = pc
  clear h
  induction g generalizing pc with
  | nil => exact ⟨_, rfl⟩
  | cons b g ih =>
    simp only [flatInsts, flatMap_cons, mem_append] at hlookup
    obtain ⟨r, hr⟩ := flattenInsts_isSome pc fun inst hinst => hlookup inst (.inl hinst)
    obtain ⟨r', hr'⟩ := ih (fun inst hinst => hlookup inst (.inr hinst))
      (pc + instsSize opcodes b.insts)
    exact ⟨_, by rw [flattenBlocks, hr, bind_eq_bind, bind_some, hr']; rfl⟩

omit [DecidableEq Op] in
theorem flatInsts_core (h : g'.map (Block.core opcodes) = g.map (Block.core opcodes)) :
    (flatInsts g').map (Inst.core opcodes) = (flatInsts g).map (Inst.core opcodes) := by
  have hmap := congrArg (flatMap (·.insts)) h
  simpa [Block.core, flatMap_map, map_flatMap, flatInsts] using hmap

omit [DecidableEq Op] in
theorem TargetsIn.of_core (h : TargetsIn opcodes g)
    (hcore : g'.map (Block.core opcodes) = g.map (Block.core opcodes)) : TargetsIn opcodes g' := by
  have hbids : g'.map (·.bid) = g.map (·.bid) := by
    have hmap := congrArg (List.map (·.bid)) hcore
    simpa [Block.core, Function.comp_def] using hmap
  intro inst' hinst' hjump
  have hmem := List.mem_map_of_mem (f := Inst.core opcodes) hinst'
  rw [flatInsts_core hcore] at hmem
  obtain ⟨inst, hinst, heq⟩ := List.mem_map.mp hmem
  have hopname : inst.opname = inst'.opname := by
    simpa using congrArg Inst.opname heq
  have htarget : inst.target = inst'.target := by
    simpa using congrArg Inst.target heq
  obtain ⟨target, ht, hmem⟩ := h inst hinst (hopname ▸ hjump)
  exact ⟨target, htarget ▸ ht, hbids ▸ hmem⟩

variable (opcodes) in
def longest (inst : Inst Op) : Nat := instrsize opcodes inst 0x1000000

omit [DecidableEq Op] in
variable (opcodes) in
theorem size_le_longest (insts : List (Inst Op)) :
    instsSize opcodes insts ≤ (insts.map (longest opcodes)).sum := by
  induction insts with
  | nil => simp [instsSize]
  | cons inst insts ih =>
    rw [instsSize_cons, map_cons, sum_cons]
    refine Nat.add_le_add ?_ ih
    unfold instSize longest instrsize opargSize
    split_ifs <;> omega

omit [DecidableEq Op] in
theorem longest_core (inst : Inst Op) : longest opcodes (inst.core opcodes) =
    longest opcodes inst := by
  unfold Inst.core
  split <;> rfl

omit [DecidableEq Op] in
theorem longest_of_core (h : g'.map (Block.core opcodes) = g.map (Block.core opcodes)) :
    ((flatInsts g').map (longest opcodes)).sum = ((flatInsts g).map (longest opcodes)).sum := by
  have hmap := congrArg (fun insts => (insts.map (longest opcodes)).sum) (flatInsts_core h)
  simpa [Function.comp_def, longest_core] using hmap

theorem flattens_of_le (htargets : TargetsIn opcodes g)
    (hstep : flattenStep opcodes g = some (g', r)) (hle : Le opcodes g g') :
    ∃ g'', FlattensTo opcodes g g'' := by
  induction hn : ((flatInsts g).map (longest opcodes)).sum - instsSize opcodes (flatInsts g)
    using Nat.strongRecOn generalizing g g' r with
  | _ n ih =>
    have hcore : g'.map (Block.core opcodes) = g.map (Block.core opcodes) :=
      flattenBlocks_core g hstep
    cases r with
    | false => exact ⟨g', .done hstep⟩
    | true =>
      obtain ⟨⟨g'', r'⟩, hstep'⟩ := flattenStep_isSome (htargets.of_core hcore)
      have hsize := size_le hle.insts
      have hne := size_ne (flattenBlocks_flat hstep) (.inl hle.insts)
      have hbound := size_le_longest opcodes (flatInsts g')
      have hlongest := longest_of_core hcore
      obtain ⟨g₁, hg₁⟩ := ih _ (by omega) (htargets.of_core hcore) hstep'
        (flattenStep_mono hle hstep hstep') rfl
      exact ⟨g₁, .again hstep hg₁⟩

theorem flattens_of_ge (htargets : TargetsIn opcodes g)
    (hstep : flattenStep opcodes g = some (g', r)) (hle : Le opcodes g' g) :
    ∃ g'', FlattensTo opcodes g g'' := by
  induction hn : instsSize opcodes (flatInsts g)
    using Nat.strongRecOn generalizing g g' r with
  | _ n ih =>
    have hcore : g'.map (Block.core opcodes) = g.map (Block.core opcodes) :=
      flattenBlocks_core g hstep
    cases r with
    | false => exact ⟨g', .done hstep⟩
    | true =>
      obtain ⟨⟨g'', r'⟩, hstep'⟩ := flattenStep_isSome (htargets.of_core hcore)
      have hsize := size_le hle.insts
      have hne := size_ne (flattenBlocks_flat hstep) (.inr hle.insts)
      obtain ⟨g₁, hg₁⟩ := ih _ (by omega) (htargets.of_core hcore) hstep'
        (flattenStep_mono hle hstep' hstep) rfl
      exact ⟨g₁, .again hstep hg₁⟩

/-! ## Which loops stop -/

variable (opcodes) in
/-- How the operand of each jump compares in size with the one that `flatten_jump` gives. -/
def Sizes (r : Nat → Nat → Prop) (offsets : List (Nat × Nat)) (pc : Nat)
    (insts : List (Inst Op)) : Prop :=
  ∀ i inst o, insts[i]? = some inst → opcodes.hasJump inst.opname →
    flattenJump opcodes offsets inst (pc + instsSize opcodes (insts.take (i + 1))) = some o →
    r (opargSize inst.ioparg) (opargSize o)

variable (opcodes) in
/-- There are not both a jump with too short an operand and one with too long a one. -/
def OneWay (g : List (Block Op)) : Prop :=
  Sizes opcodes (· ≤ ·) (blockOffsets opcodes 0 g) 0 (flatInsts g) ∨
    Sizes opcodes (· ≥ ·) (blockOffsets opcodes 0 g) 0 (flatInsts g)

theorem Sizes.tail {r : Nat → Nat → Prop} {offsets : List (Nat × Nat)} {pc : Nat}
    {inst : Inst Op} {insts : List (Inst Op)} (h : Sizes opcodes r offsets pc (inst :: insts)) :
    Sizes opcodes r offsets (pc + instSize opcodes inst) insts := by
  intro i inst' o hi hjump ho
  refine h (i + 1) inst' o hi hjump ?_
  rwa [take_succ_cons, instsSize_cons, ← Nat.add_assoc]

theorem Sizes.forall₂ {r : Nat → Nat → Prop} (hr : ∀ n, r n n)
    (h : flattenInsts opcodes offsets pc insts = some (insts', recompile))
    (hsizes : Sizes opcodes r offsets pc insts) :
    List.Forall₂ (fun inst inst' => inst.core opcodes = inst'.core opcodes ∧
      r (opargSize inst.ioparg) (opargSize inst'.ioparg)) insts insts' := by
  induction insts generalizing pc insts' recompile with
  | nil =>
    obtain ⟨rfl, -⟩ := Prod.mk.inj (Option.some.inj h)
    exact .nil
  | cons inst insts ih =>
    obtain ⟨first, rest, _, rfl, hrest, hfirst, -⟩ := flattenInsts_cons h
    refine .cons ?_ (ih hrest hsizes.tail)
    split at hfirst
    · next hjump =>
        obtain ⟨o, ho, rfl⟩ := hfirst
        exact ⟨by simp [Inst.core, hjump],
          hsizes 0 inst o rfl hjump (by simpa [instsSize] using ho)⟩
    · obtain rfl := hfirst
      exact ⟨rfl, hr _⟩

omit [DecidableEq Op] in
theorem shorter_of_opargSize (h : inst.core opcodes = inst'.core opcodes)
    (hsize : opargSize inst.ioparg ≤ opargSize inst'.ioparg) : Shorter opcodes inst inst' := by
  have hopname : inst.opname = inst'.opname := by
    simpa using congrArg Inst.opname h
  have hoparg : inst.oparg = inst'.oparg := by
    have hoparg := congrArg Inst.oparg h
    simp only [Inst.core] at hoparg
    split_ifs at hoparg <;> exact hoparg
  refine ⟨h, ?_⟩
  simp only [instSize, instrsize, getExtOparg, hopname, hoparg]
  omega

theorem sizes_of_final (h : flattenInsts opcodes offsets pc insts = some (insts', false)) :
    Sizes opcodes (· ≤ ·) offsets pc insts := by
  induction insts generalizing pc insts' with
  | nil => exact fun i inst o hi => by simp at hi
  | cons inst insts ih =>
    obtain ⟨first, rest, recompile, -, hrest, hfirst, hrecompile⟩ := flattenInsts_cons h
    have hdone : ¬ (recompile = true ∨ instSize opcodes inst ≠ instSize opcodes first) :=
      fun hagain => Bool.false_ne_true (hrecompile.mpr hagain)
    obtain ⟨hrecompile, hsize⟩ := not_or.mp hdone
    obtain rfl := Bool.eq_false_iff.mpr hrecompile
    intro i inst' o hi hjump ho
    cases i with
    | zero =>
      obtain rfl : inst = inst' := by simpa using hi
      rw [if_pos hjump] at hfirst
      obtain ⟨o', ho', rfl⟩ := hfirst
      obtain rfl : o' = o := by
        simpa [instsSize, ho'] using ho
      simp only [instSize, instrsize, getExtOparg] at hsize
      show opargSize inst.ioparg ≤ opargSize o'
      omega
    | succ i =>
      rw [take_succ_cons, instsSize_cons, ← Nat.add_assoc] at ho
      exact ih hrest i inst' o hi hjump ho

/-- A pass that goes one way is followed by such passes only, and there are only so many
sizes. -/
theorem OneWay.flattens (h : OneWay opcodes g) (htargets : TargetsIn opcodes g) :
    ∃ g', FlattensTo opcodes g g' := by
  obtain ⟨⟨g', r⟩, hstep⟩ := flattenStep_isSome htargets
  have hshape := shape_of_core (flattenBlocks_core g hstep)
  rcases h with h | h
  · refine flattens_of_le htargets hstep ⟨hshape.symm, ?_⟩
    exact (h.forall₂ Nat.le_refl (flattenBlocks_flat hstep)).imp
      fun _ _ hinst => shorter_of_opargSize hinst.1 hinst.2
  · refine flattens_of_ge htargets hstep ⟨hshape, List.Forall₂.flip ?_⟩
    exact (h.forall₂ (r := (· ≥ ·)) Nat.le_refl (flattenBlocks_flat hstep)).imp
      fun _ _ hinst => shorter_of_opargSize hinst.1.symm hinst.2

variable (opcodes) in
def Pass (g g' : List (Block Op)) : Prop := flattenStep opcodes g = some (g', true)

theorem FlattensTo.oneWay (h : FlattensTo opcodes g g') :
    ∃ s, Relation.ReflTransGen (Pass opcodes) g s ∧ OneWay opcodes s := by
  induction h with
  | done h => exact ⟨_, .refl, .inl (sizes_of_final (flattenBlocks_flat h))⟩
  | again h _ ih =>
    obtain ⟨s, hpasses, hs⟩ := ih
    exact ⟨s, .head h hpasses, hs⟩

theorem not_flattensTo {gs : List (List (Block Op))} (h : ∀ s ∈ gs, ∃ s' ∈ gs, Pass opcodes s s')
    (hg : g ∈ gs) :
    ¬ FlattensTo opcodes g g' := by
  intro hflat
  induction hflat with
  | done hstep =>
    obtain ⟨s', -, hpass⟩ := h _ hg
    cases hstep.symm.trans hpass
  | again hstep _ ih =>
    obtain ⟨s', hs', hpass⟩ := h _ hg
    cases hstep.symm.trans hpass
    exact ih hs'

theorem flattens_of_passes (h : Relation.ReflTransGen (Pass opcodes) g s)
    (hs : FlattensTo opcodes s g') : FlattensTo opcodes g g' := by
  induction h using Relation.ReflTransGen.head_induction_on with
  | refl => exact hs
  | head hpass _ ih => exact .again hpass ih

theorem targetsIn_of_passes (h : Relation.ReflTransGen (Pass opcodes) g s)
    (htargets : TargetsIn opcodes g) : TargetsIn opcodes s := by
  induction h with
  | refl => exact htargets
  | tail _ hpass ih => exact ih.of_core (flattenBlocks_core _ hpass)

theorem oneWay_init (g : List (Block Op)) : OneWay opcodes (initOperands opcodes false g) := by
  refine .inl fun i inst o hi hjump _ => ?_
  obtain ⟨b, hb, hinst⟩ := mem_flatMap.mp (mem_of_getElem? hi)
  obtain ⟨b₀, -, rfl⟩ := List.mem_map.mp hb
  obtain ⟨inst₀, -, rfl⟩ := List.mem_map.mp hinst
  have hjump₀ : opcodes.hasJump inst₀.opname := by
    unfold initOperand at hjump
    split at hjump <;> assumption
  simp only [initOperand, hjump₀, if_true, Bool.false_eq_true, if_false]
  show opargSize 0 ≤ opargSize o
  exact opargSize_pos o

variable (opcodes) in
/-- The loop stops, and the jumps have the operands for the final sizes. -/
def Resolves (g : List (Block Op)) : Prop :=
  ∃ g', FlattensTo opcodes g g' ∧ ∀ k b, g'[k]? = some b →
    JumpsFlat opcodes (blockOffsets opcodes 0 g') (blockOffset opcodes g' k) b.insts

/-- With operands that start at zero the loop stops.  With the indices of the targets it
stops if and only if it comes to a graph in which not some jumps are too short and others
too long. -/
theorem flattenGraph_resolves_iff (htargets : TargetsIn opcodes g) :
    Resolves opcodes (initOperands opcodes false g) ∧
      (Resolves opcodes (initOperands opcodes true g) ↔
        ∃ s, Relation.ReflTransGen (Pass opcodes) (initOperands opcodes true g) s ∧
          OneWay opcodes s) := by
  have hresolves : ∀ v314 s,
      Relation.ReflTransGen (Pass opcodes) (initOperands opcodes v314 g) s → OneWay opcodes s →
      Resolves opcodes (initOperands opcodes v314 g) := by
    intro v314 s hpasses hs
    have hinit : TargetsIn opcodes (initOperands opcodes v314 g) :=
      htargets.of_core (initOperands_core v314 g)
    obtain ⟨g', hg'⟩ := hs.flattens (targetsIn_of_passes hpasses hinit)
    have hflat := flattens_of_passes hpasses hg'
    exact ⟨g', hflat, hflat.jumpsFlat⟩
  refine ⟨hresolves false _ .refl (oneWay_init g), fun ⟨g', hg', _⟩ => hg'.oneWay, ?_⟩
  rintro ⟨s, hpasses, hs⟩
  exact hresolves true s hpasses hs

def loads (n : Nat) (i : Nat) : List (Inst SampleOp) := replicate n ⟨.LOAD_FAST, i, i, none⟩

def branch (ioparg : Int) (target : Nat) : Inst SampleOp :=
  ⟨.POP_JUMP_IF_FALSE, 0, ioparg, some target⟩

def notTaken : Inst SampleOp := ⟨.NOT_TAKEN, 0, 0, none⟩

def crossing (o₀ o₁ o₂ o₃ o₄ o₅ : Int) : List (Block SampleOp) :=
  [⟨0, loads 3 0 ++ loads 116 256 ++ [branch o₀ 7]⟩,
    ⟨1, [notTaken, branch o₁ 6]⟩,
    ⟨2, [notTaken, branch o₂ 8]⟩,
    ⟨3, [notTaken, branch o₃ 9]⟩,
    ⟨4, notTaken :: loads 1 0 ++ [branch o₄ 10]⟩,
    ⟨5, [notTaken, ⟨.JUMP_BACKWARD, 0, o₅, some 0⟩]⟩,
    ⟨6, loads 119 256⟩,
    ⟨7, loads 2 0 ++ loads 2 256⟩,
    ⟨8, loads 2 256⟩,
    ⟨9, loads 2 256⟩,
    ⟨10, loads 1 0⟩]

theorem crossing_targetsIn (o₀ o₁ o₂ o₃ o₄ o₅ : Int) :
    TargetsIn sampleOpcodes.toOpcodes (crossing o₀ o₁ o₂ o₃ o₄ o₅) := by
  intro inst hinst hjump
  have hload : ∀ n i, inst ∉ loads n i := by
    intro n i hmem
    obtain ⟨-, rfl⟩ := mem_replicate.mp hmem
    cases hjump
  simp only [flatInsts, crossing, flatMap_cons, flatMap_nil, mem_append,
    mem_cons, hload, not_mem_nil, or_false, false_or, append_nil, cons_append,
    nil_append] at hinst
  rcases hinst with rfl | rfl | rfl | rfl | rfl | rfl | rfl | rfl | rfl | rfl | rfl
  all_goals first
    | exact ⟨_, rfl, by simp [crossing]⟩
    | cases hjump

theorem crossing_resolves :
    Resolves sampleOpcodes.toOpcodes
      (initOperands sampleOpcodes.toOpcodes false (crossing 0 0 0 0 0 0)) :=
  (flattenGraph_resolves_iff (crossing_targetsIn 0 0 0 0 0 0)).1

/-- The operands of the first pass are the indices of the targets; from the second pass on
they come round every third one. -/
theorem crossing_not_resolves :
    ¬ Resolves sampleOpcodes.toOpcodes
      (initOperands sampleOpcodes.toOpcodes true (crossing 0 0 0 0 0 0)) := by
  rintro ⟨g', hflat, -⟩
  have hinit : initOperands sampleOpcodes.toOpcodes true (crossing 0 0 0 0 0 0) =
      crossing 250 131 254 256 258 0 := by
    decide +kernel
  have h₀ : Pass sampleOpcodes.toOpcodes (crossing 250 131 254 256 258 0)
      (crossing 256 15 256 256 255 255) := by
    unfold Pass
    decide +kernel
  have h₁ : Pass sampleOpcodes.toOpcodes (crossing 256 15 256 256 255 255)
      (crossing 256 15 255 255 255 256) := by
    unfold Pass
    decide +kernel
  have h₂ : Pass sampleOpcodes.toOpcodes (crossing 256 15 255 255 255 256)
      (crossing 255 14 255 256 256 255) := by
    unfold Pass
    decide +kernel
  have h₃ : Pass sampleOpcodes.toOpcodes (crossing 255 14 255 256 256 255)
      (crossing 256 15 256 256 255 255) := by
    unfold Pass
    decide +kernel
  rw [hinit] at hflat
  have hnext : ∀ s ∈ [crossing 250 131 254 256 258 0, crossing 256 15 256 256 255 255,
      crossing 256 15 255 255 255 256, crossing 255 14 255 256 256 255],
      ∃ s' ∈ [crossing 250 131 254 256 258 0, crossing 256 15 256 256 255 255,
        crossing 256 15 255 255 255 256, crossing 255 14 255 256 256 255],
        Pass sampleOpcodes.toOpcodes s s' := by
    simp only [forall_mem_cons]
    exact ⟨⟨_, by simp, h₀⟩, ⟨_, by simp, h₁⟩, ⟨_, by simp, h₂⟩, ⟨_, by simp, h₃⟩, by simp⟩
  exact not_flattensTo hnext (by simp) hflat

end CinderX.Compiler
