import CinderX.Foundation.Basic

/-!
# The depth of the operand stack

`stackdepth_walk` gives every block the depth it is entered with and finds the largest
depth of all.
-/

namespace CinderX.Compiler.StackDepth

open Finset

structure Opcodes (Op Arg : Type) where
  stack_effect_raw : Op → Arg → Bool → Int
  has_jump : Op → Bool
  SETUP_OPCODES : Op → Bool
  SCOPE_EXIT_OPCODES : Op → Bool
  UNCONDITIONAL_JUMP_OPCODES : Op → Bool
  END_ASYNC_FOR : Op → Bool

/-- `target` is the index of a block, as `next` is. -/
structure Instruction (Op Arg : Type) where
  opname : Op
  oparg : Arg
  target : Option Nat

structure Block (Op Arg : Type) where
  insts : List (Instruction Op Arg)
  next : Option Nat

structure Walk where
  worklist : List Nat
  startdepth : Nat → Int
  maxdepth : Int

inductive Failure
  | assertion
  | fuel
  deriving DecidableEq

variable {Op Arg : Type} (opcodes : Opcodes Op Arg) (v314 : Bool)

def getStackEffects (inst : Instruction Op Arg) (jump : Bool) : Int :=
  if v314 ∧ opcodes.SETUP_OPCODES inst.opname ∧ ¬jump then 0
  else opcodes.stack_effect_raw inst.opname inst.oparg jump

def initialStackDepth (generator : Bool) : Int := if generator ∧ ¬v314 then 1 else 0

def jumps (inst : Instruction Op Arg) : Bool :=
  (opcodes.has_jump inst.opname || opcodes.SETUP_OPCODES inst.opname) &&
    !opcodes.END_ASYNC_FOR inst.opname

def exits (inst : Instruction Op Arg) : Bool :=
  opcodes.SCOPE_EXIT_OPCODES inst.opname || opcodes.UNCONDITIONAL_JUMP_OPCODES inst.opname

variable (g : List (Block Op Arg))

def pushBlock (w : Walk) (block : Nat) (depth : Int) : Except Failure Walk :=
  if block < g.length ∧ (w.startdepth block < 0 ∨ w.startdepth block ≥ depth) then
    if w.startdepth block < depth then
      .ok { w with
        startdepth := Function.update w.startdepth block depth
        worklist := block :: w.worklist }
    else .ok w
  else .error .assertion

def Walk.see (w : Walk) (depth : Int) : Walk := { w with maxdepth := max w.maxdepth depth }

def pushTarget (w : Walk) (target : Option Nat) (depth : Int) : Except Failure Walk :=
  match target with
  | some block => pushBlock g w block depth
  | none => .error .assertion

def newDepth (depth : Int) (inst : Instruction Op Arg) : Int :=
  depth + getStackEffects opcodes v314 inst false

def targetDepth (depth : Int) (inst : Instruction Op Arg) : Int :=
  depth + getStackEffects opcodes v314 inst true

def scanTarget (w : Walk) (depth : Int) (inst : Instruction Op Arg) : Except Failure Walk :=
  if jumps opcodes inst then
    if targetDepth opcodes v314 depth inst < 0 then .error .assertion
    else
      pushTarget g (w.see (targetDepth opcodes v314 depth inst)) inst.target
        (targetDepth opcodes v314 depth inst)
  else .ok w

def scan (next : Option Nat) :
    Walk → Int → List (Instruction Op Arg) → Except Failure Walk
  | w, depth, [] => if next.isSome then pushTarget g w next depth else .ok w
  | w, depth, inst :: insts =>
    if newDepth opcodes v314 depth inst < 0 then .error .assertion
    else
      match scanTarget opcodes v314 g (w.see (newDepth opcodes v314 depth inst)) depth inst with
      | .error e => .error e
      | .ok w =>
        if exits opcodes inst then .ok w
        else scan next w (newDepth opcodes v314 depth inst) insts

def walk : Nat → Walk → Except Failure Walk
  | 0, _ => .error .fuel
  | fuel + 1, w =>
    match w.worklist with
    | [] => .ok w
    | block :: rest =>
      match g[block]? with
      | none => .error .assertion
      | some b =>
        if w.startdepth block < 0 then .error .assertion
        else
          match scan opcodes v314 g b.next { w with worklist := rest }
              (w.startdepth block) b.insts with
          | .error e => .error e
          | .ok w => walk fuel w

def stackdepthWalk (generator : Bool) (entry : Nat) : Except Failure Walk :=
  match pushBlock g ⟨[], fun _ => -1, 0⟩ entry (initialStackDepth v314 generator) with
  | .error e => .error e
  | .ok w => walk opcodes v314 g (g.length + 1) w

/-- A path from the entry comes to an instruction of a block with a depth.  A handler is
entered with the depth that its `SETUP` instruction has recorded. -/
inductive Comes (generator : Bool) (entry : Nat) : Nat → Nat → Int → Prop
  | entry : Comes generator entry entry 0 (initialStackDepth v314 generator)
  | step {block k depth b inst} (h : Comes generator entry block k depth)
      (hb : g[block]? = some b) (hinst : b.insts[k]? = some inst)
      (hexits : exits opcodes inst = false) :
      Comes generator entry block (k + 1) (newDepth opcodes v314 depth inst)
  | jump {block k depth b inst target} (h : Comes generator entry block k depth)
      (hb : g[block]? = some b) (hinst : b.insts[k]? = some inst)
      (hjumps : jumps opcodes inst) (htarget : inst.target = some target) :
      Comes generator entry target 0 (targetDepth opcodes v314 depth inst)
  | fall {block depth b next} (h : Comes generator entry block k depth)
      (hb : g[block]? = some b) (hend : k = b.insts.length) (hnext : b.next = some next) :
      Comes generator entry next 0 depth

/-- The depths of a block, from `depth` on, are related to the depths its successors are
entered with. -/
def Edges (rel : Int → Int → Prop) (startdepth : Nat → Int) (next : Option Nat) :
    Int → List (Instruction Op Arg) → Prop
  | depth, [] => ∀ block, next = some block → rel depth (startdepth block)
  | depth, inst :: insts =>
    (jumps opcodes inst → ∀ block, inst.target = some block →
      rel (targetDepth opcodes v314 depth inst) (startdepth block)) ∧
    (exits opcodes inst = false →
      Edges rel startdepth next (newDepth opcodes v314 depth inst) insts)

/-- The depths of a block, from `depth` on, are not negative and not above a bound. -/
def Bounded (bound : Int) : Int → List (Instruction Op Arg) → Prop
  | _, [] => True
  | depth, inst :: insts =>
    0 ≤ newDepth opcodes v314 depth inst ∧
    newDepth opcodes v314 depth inst ≤ bound ∧
    (jumps opcodes inst → 0 ≤ targetDepth opcodes v314 depth inst ∧
      targetDepth opcodes v314 depth inst ≤ bound) ∧
    (exits opcodes inst = false →
      Bounded bound (newDepth opcodes v314 depth inst) insts)

variable {opcodes v314 g}

structure Grows (n : Nat) (w w' : Walk) : Prop where
  kept : ∀ b, 0 ≤ w.startdepth b → w'.startdepth b = w.startdepth b
  le_max : w.maxdepth ≤ w'.maxdepth
  found : ∀ b, 0 ≤ w'.startdepth b → 0 ≤ w.startdepth b ∨ b ∈ w'.worklist
  waits : w.worklist ⊆ w'.worklist
  pending : w'.worklist.length + ((range n).filter (w'.startdepth · < 0)).card =
    w.worklist.length + ((range n).filter (w.startdepth · < 0)).card

theorem Grows.refl (n : Nat) (w : Walk) : Grows n w w :=
  ⟨fun _ _ => rfl, le_rfl, fun _ h => .inl h, List.Subset.refl _, rfl⟩

variable {w w' : Walk}

theorem Grows.trans {n : Nat} {w'' : Walk} (h : Grows n w w') (h' : Grows n w' w'') :
    Grows n w w'' where
  kept b hb := by
    have hkept := h.kept b hb
    rw [h'.kept b (hkept ▸ hb), hkept]
  le_max := h.le_max.trans h'.le_max
  found b hb := by
    rcases h'.found b hb with hb | hb
    · exact (h.found b hb).imp_right (h'.waits ·)
    · exact .inr hb
  waits b hb := h'.waits (h.waits hb)
  pending := h'.pending.trans h.pending

theorem Grows.see (n : Nat) (w : Walk) (depth : Int) : Grows n w (w.see depth) :=
  ⟨fun _ _ => rfl, le_max_left _ _, fun _ h => .inl h, List.Subset.refl _, rfl⟩

variable {block : Nat} {depth : Int}

theorem pushBlock_spec (hdepth : 0 ≤ depth) (h : pushBlock g w block depth = .ok w') :
    Grows g.length w w' ∧ depth ≤ w'.startdepth block := by
  unfold pushBlock at h
  split at h
  swap
  · cases h
  next hassert =>
  split at h
  · next hlt =>
      cases h
      have hneg : w.startdepth block < 0 := by
        rcases hassert.2 with hneg | hge
        · exact hneg
        · omega
      refine ⟨⟨fun b hb => ?_, le_rfl, fun b hb => ?_, List.subset_cons_self _ _, ?_⟩, ?_⟩
      · exact Function.update_of_ne (by rintro rfl; omega) _ _
      · by_cases hblock : b = block
        · exact .inr (hblock ▸ List.mem_cons_self)
        · exact .inl (by simpa [hblock] using hb)
      · -- the block is not among those that have no depth any more
        have herase : (range g.length).filter
              (Function.update w.startdepth block depth · < 0) =
            ((range g.length).filter (w.startdepth · < 0)).erase block := by
          ext b
          by_cases hblock : b = block
          · subst hblock
            simp [hdepth]
          · simp [hblock]
        have hmem : block ∈ (range g.length).filter (w.startdepth · < 0) := by
          simp [hassert.1, hneg]
        have hcard := card_erase_add_one hmem
        simp only [herase, List.length_cons]
        omega
      · simp
  · next hge =>
      cases h
      exact ⟨.refl _ _, by omega⟩

variable {target : Option Nat} {fuel entry : Nat} {e : Failure} {generator : Bool}

theorem pushTarget_spec (hdepth : 0 ≤ depth) (h : pushTarget g w target depth = .ok w') :
    Grows g.length w w' ∧ ∀ block, target = some block → depth ≤ w'.startdepth block := by
  cases target with
  | none => cases h
  | some block =>
    obtain ⟨hgrows, hle⟩ := pushBlock_spec hdepth h
    exact ⟨hgrows, fun b hb => Option.some.inj hb ▸ hle⟩

/-! ## One block -/

variable {next : Option Nat} {insts : List (Instruction Op Arg)}

theorem Edges.mono {startdepth startdepth' : Nat → Int} {bound : Int} (hdepth : 0 ≤ depth)
    (hkept : ∀ b, 0 ≤ startdepth b → startdepth' b = startdepth b)
    (hbounded : Bounded opcodes v314 bound depth insts)
    (h : Edges opcodes v314 (· ≤ ·) startdepth next depth insts) :
    Edges opcodes v314 (· ≤ ·) startdepth' next depth insts := by
  induction insts generalizing depth with
  | nil =>
    intro block hblock
    have hle := h block hblock
    rwa [hkept block (hdepth.trans hle)]
  | cons inst insts ih =>
    obtain ⟨hnew, -, htarget, hrest⟩ := hbounded
    refine ⟨fun hjumps block hblock => ?_, fun hexits => ih hnew (hrest hexits) (h.2 hexits)⟩
    have hle := h.1 hjumps block hblock
    rwa [hkept block ((htarget hjumps).1.trans hle)]

theorem Bounded.mono {bound bound' : Int} (hle : bound ≤ bound')
    (h : Bounded opcodes v314 bound depth insts) :
    Bounded opcodes v314 bound' depth insts := by
  induction insts generalizing depth with
  | nil => trivial
  | cons inst insts ih =>
    obtain ⟨hnew, hmax, htarget, hrest⟩ := h
    exact ⟨hnew, hmax.trans hle, fun hjumps => ⟨(htarget hjumps).1, (htarget hjumps).2.trans hle⟩,
      fun hexits => ih (hrest hexits)⟩

theorem scanTarget_spec {inst : Instruction Op Arg}
    (h : scanTarget opcodes v314 g w depth inst = .ok w') :
    Grows g.length w w' ∧
      (jumps opcodes inst → 0 ≤ targetDepth opcodes v314 depth inst ∧
        targetDepth opcodes v314 depth inst ≤ w'.maxdepth) ∧
      (jumps opcodes inst → 0 ≤ targetDepth opcodes v314 depth inst ∧
        ∀ block, inst.target = some block →
          targetDepth opcodes v314 depth inst ≤ w'.startdepth block) := by
  unfold scanTarget at h
  split at h
  · split at h
    · cases h
    · obtain ⟨hgrows, hle⟩ := pushTarget_spec (by omega) h
      refine ⟨(Grows.see _ _ _).trans hgrows, fun _ => ⟨by omega, ?_⟩, fun _ => ⟨by omega, hle⟩⟩
      exact (le_max_right _ _).trans hgrows.le_max
  · next hjumps =>
      cases h
      exact ⟨.refl _ _, fun h => absurd h hjumps, fun h => absurd h hjumps⟩

theorem scan_spec (hdepth : 0 ≤ depth) (h : scan opcodes v314 g next w depth insts = .ok w') :
    Grows g.length w w' ∧ Edges opcodes v314 (· ≤ ·) w'.startdepth next depth insts ∧
      Bounded opcodes v314 w'.maxdepth depth insts := by
  induction insts generalizing w depth with
  | nil =>
    unfold scan at h
    split at h
    · obtain ⟨hgrows, hle⟩ := pushTarget_spec hdepth h
      exact ⟨hgrows, hle, trivial⟩
    · next hnone =>
        cases h
        exact ⟨.refl _ _, fun block hblock => by simp [hblock] at hnone, trivial⟩
  | cons inst insts ih =>
    unfold scan at h
    split at h
    · cases h
    next hnew =>
    split at h
    · cases h
    next w₁ htarget =>
    have hnew : 0 ≤ newDepth opcodes v314 depth inst := by omega
    obtain ⟨hgrows₁, hmax₁, hpushed⟩ := scanTarget_spec htarget
    have hsee := (Grows.see g.length w (newDepth opcodes v314 depth inst)).trans hgrows₁
    have hle₁ : newDepth opcodes v314 depth inst ≤ w₁.maxdepth :=
      (le_max_right _ _).trans hgrows₁.le_max
    split at h
    · next hexits =>
        cases h
        exact ⟨hsee, ⟨fun hjumps => (hpushed hjumps).2, by simp [hexits]⟩,
          hnew, hle₁, hmax₁, by simp [hexits]⟩
    · next hexits =>
        obtain ⟨hgrows, hedges, hbounded⟩ := ih hnew h
        refine ⟨hsee.trans hgrows, ⟨fun hjumps block hblock => ?_, fun _ => hedges⟩, hnew,
          hle₁.trans hgrows.le_max, fun hjumps => ?_, fun _ => hbounded⟩
        · obtain ⟨hpos, hle⟩ := hpushed hjumps
          rw [hgrows.kept block (hpos.trans (hle block hblock))]
          exact hle block hblock
        · exact ⟨(hmax₁ hjumps).1, (hmax₁ hjumps).2.trans hgrows.le_max⟩

variable (opcodes v314 g) in
/-- The blocks that have a depth wait in the worklist or have been scanned. -/
structure Inv (w : Walk) : Prop where
  scanned : ∀ b, 0 ≤ w.startdepth b → b ∈ w.worklist ∨ ∃ blk, g[b]? = some blk ∧
    Edges opcodes v314 (· ≤ ·) w.startdepth blk.next (w.startdepth b) blk.insts ∧
    Bounded opcodes v314 w.maxdepth (w.startdepth b) blk.insts

theorem Inv.scan {rest : List Nat} {b : Block Op Arg} (h : Inv opcodes v314 g w)
    (hwork : w.worklist = block :: rest) (hb : g[block]? = some b)
    (hdepth : 0 ≤ w.startdepth block)
    (hscan : StackDepth.scan opcodes v314 g b.next { w with worklist := rest }
      (w.startdepth block) b.insts = .ok w') :
    Inv opcodes v314 g w' := by
  obtain ⟨hgrows, hedges, hbounded⟩ := scan_spec hdepth hscan
  refine ⟨fun c hc => ?_⟩
  rcases hgrows.found c hc with hold | hnew
  swap
  · exact .inl hnew
  have hkept : w'.startdepth c = w.startdepth c := hgrows.kept c hold
  by_cases hblock : c = block
  · subst hblock
    exact .inr ⟨b, hb, hkept ▸ hedges, hkept ▸ hbounded⟩
  · rcases h.scanned c hold with hmem | ⟨blk, hblk, hedges', hbounded'⟩
    · rw [hwork] at hmem
      exact .inl (hgrows.waits (List.mem_of_ne_of_mem hblock hmem))
    · rw [hkept]
      exact .inr ⟨blk, hblk, hedges'.mono hold hgrows.kept hbounded',
        hbounded'.mono hgrows.le_max⟩

theorem walk_spec (h : Inv opcodes v314 g w) (hwalk : walk opcodes v314 g fuel w = .ok w') :
    Inv opcodes v314 g w' ∧ w'.worklist = [] ∧
      ∀ b, 0 ≤ w.startdepth b → w'.startdepth b = w.startdepth b := by
  induction fuel generalizing w with
  | zero => cases hwalk
  | succ fuel ih =>
    unfold walk at hwalk
    split at hwalk
    · next hwork =>
        cases hwalk
        exact ⟨h, hwork, fun _ _ => rfl⟩
    · next block rest hwork =>
        split at hwalk
        · cases hwalk
        next b hb =>
        split at hwalk
        · cases hwalk
        next hdepth =>
        split at hwalk
        · cases hwalk
        next w₁ hscan =>
        obtain ⟨hinv, hnil, hkept⟩ := ih (h.scan hwork hb (by omega) hscan) hwalk
        refine ⟨hinv, hnil, fun c hc => ?_⟩
        have hkept₁ : w₁.startdepth c = w.startdepth c :=
          (scan_spec (by omega) hscan).1.kept c hc
        rw [hkept c (hkept₁ ▸ hc), hkept₁]

theorem pushTarget_error (h : pushTarget g w target depth = .error e) : e = .assertion := by
  unfold pushTarget pushBlock at h
  grind

theorem scan_error (h : scan opcodes v314 g next w depth insts = .error e) :
    e = .assertion := by
  induction insts generalizing w depth with
  | nil =>
    unfold scan at h
    split at h
    · exact pushTarget_error h
    · cases h
  | cons inst insts ih =>
    unfold scan at h
    split at h
    · exact (Except.error.inj h).symm
    split at h
    · next e' htarget =>
        cases h
        unfold scanTarget at htarget
        split at htarget
        · split at htarget
          · exact (Except.error.inj htarget).symm
          · exact pushTarget_error htarget
        · cases htarget
    · split at h
      · cases h
      · exact ih h

theorem walk_ends
    (hfuel : w.worklist.length + ((range g.length).filter (w.startdepth · < 0)).card < fuel) :
    walk opcodes v314 g fuel w ≠ .error .fuel := by
  induction fuel generalizing w with
  | zero => omega
  | succ fuel ih =>
    unfold walk
    split
    · simp
    · next block rest hwork =>
        split
        · simp
        split
        · simp
        next b hb hdepth =>
        split
        · next e hscan =>
            rw [scan_error hscan]
            simp
        · next w' hscan =>
            have hpending := (scan_spec (by omega) hscan).1.pending
            rw [hwork, List.length_cons] at hfuel
            dsimp only at hpending
            exact ih (by omega)

variable (opcodes v314 g) in
/-- A path that comes to an instruction with a depth is related to the depth of the walk. -/
def Follows (rel : Int → Int → Prop) (w : Walk) (block k : Nat) (depth : Int) : Prop :=
  ∃ blk walked, g[block]? = some blk ∧ 0 ≤ walked ∧ rel depth walked ∧
    (k = 0 → walked = w.startdepth block) ∧
    Edges opcodes v314 rel w.startdepth blk.next walked (blk.insts.drop k) ∧
    Bounded opcodes v314 w.maxdepth walked (blk.insts.drop k)

/-- The relations between the depths of a path and those of the walk. -/
structure Compares (rel : Int → Int → Prop) : Prop where
  refl : ∀ a, rel a a
  trans : ∀ {a b c}, rel a b → rel b c → rel a c
  add : ∀ {a b} c, rel a b → rel (a + c) (b + c)
  le : ∀ {a b}, rel a b → a ≤ b

theorem compares_le : Compares (· ≤ ·) :=
  ⟨fun _ => le_rfl, fun h h' => h.trans h', fun c h => Int.add_le_add_right h c, fun h => h⟩

theorem compares_eq : Compares (· = ·) :=
  ⟨fun _ => rfl, fun h h' => h.trans h', fun c h => by rw [h], fun h => h.le⟩

theorem Comes.follows {rel : Int → Int → Prop} (hrel : Compares rel)
    (hentry : w.startdepth entry = initialStackDepth v314 generator)
    (hscanned : ∀ b, 0 ≤ w.startdepth b → ∃ blk, g[b]? = some blk ∧
      Edges opcodes v314 rel w.startdepth blk.next (w.startdepth b) blk.insts ∧
      Bounded opcodes v314 w.maxdepth (w.startdepth b) blk.insts) {k : Nat}
    (h : Comes opcodes v314 g generator entry block k depth) :
    Follows opcodes v314 g rel w block k depth := by
  -- a block is entered as it has been scanned
  have henter : ∀ {block depth}, 0 ≤ w.startdepth block → rel depth (w.startdepth block) →
      Follows opcodes v314 g rel w block 0 depth := by
    intro block depth hpos hdepth
    obtain ⟨blk, hblk, hedges, hbounded⟩ := hscanned block hpos
    exact ⟨blk, _, hblk, hpos, hdepth, fun _ => rfl, hedges, hbounded⟩
  induction h with
  | entry =>
    refine henter ?_ (hentry ▸ hrel.refl _)
    rw [hentry]
    unfold initialStackDepth
    split <;> omega
  | @step block k depth b inst h hb hinst hexits ih =>
    obtain ⟨blk, walked, hblk, hpos, hdepth, -, hedges, hbounded⟩ := ih
    obtain rfl := Option.some.inj (hb.symm.trans hblk)
    rw [List.drop_eq_getElem?_toList_append, hinst] at hedges hbounded
    exact ⟨b, _, hb, hbounded.1, hrel.add _ hdepth, by simp, hedges.2 hexits,
      hbounded.2.2.2 hexits⟩
  | @jump block k depth b inst target h hb hinst hjumps htarget ih =>
    obtain ⟨blk, walked, hblk, hpos, hdepth, -, hedges, hbounded⟩ := ih
    obtain rfl := Option.some.inj (hb.symm.trans hblk)
    rw [List.drop_eq_getElem?_toList_append, hinst] at hedges hbounded
    have hedge := hedges.1 hjumps target htarget
    exact henter ((hbounded.2.2.1 hjumps).1.trans (hrel.le hedge))
      (hrel.trans (hrel.add _ hdepth) hedge)
  | @fall block k depth b next h hb hend hnext ih =>
    obtain ⟨blk, walked, hblk, hpos, hdepth, -, hedges, -⟩ := ih
    obtain rfl := Option.some.inj (hb.symm.trans hblk)
    rw [hend, List.drop_length] at hedges
    have hedge := hedges next hnext
    exact henter (hpos.trans (hrel.le hedge)) (hrel.trans hdepth hedge)

theorem stackdepthWalk_spec (h : stackdepthWalk opcodes v314 g generator entry = .ok w) :
    w.startdepth entry = initialStackDepth v314 generator ∧
      ∀ b, 0 ≤ w.startdepth b → ∃ blk, g[b]? = some blk ∧
        Edges opcodes v314 (· ≤ ·) w.startdepth blk.next (w.startdepth b) blk.insts ∧
        Bounded opcodes v314 w.maxdepth (w.startdepth b) blk.insts := by
  have hpos : 0 ≤ initialStackDepth v314 generator := by
    unfold initialStackDepth
    split <;> omega
  unfold stackdepthWalk at h
  split at h
  · cases h
  next w₀ hpush =>
  have hw₀ : w₀ = ⟨[entry], Function.update (fun _ => -1) entry
      (initialStackDepth v314 generator), 0⟩ := by
    unfold pushBlock at hpush
    grind
  have hinv : Inv opcodes v314 g w₀ := by
    refine ⟨fun b hb => .inl ?_⟩
    rw [hw₀] at hb ⊢
    by_cases hentry : b = entry
    · simp [hentry]
    · simp [hentry] at hb
  obtain ⟨hfinal, hnil, hkept⟩ := walk_spec hinv h
  refine ⟨?_, fun b hb => (hfinal.scanned b hb).resolve_left (by simp [hnil])⟩
  rw [hkept entry (by simp [hw₀, hpos]), hw₀]
  simp

/-- The walk ends.  The depth it finds is enough for every path, and the depths of the
blocks are at least those they are entered with; where no block is pushed with a smaller
depth than it has, they are those, and no path takes too much from the stack. -/
theorem stackdepthWalk_sound (opcodes : Opcodes Op Arg) (v314 : Bool) (g : List (Block Op Arg))
    (generator : Bool) (entry : Nat) :
    stackdepthWalk opcodes v314 g generator entry ≠ .error .fuel ∧
    ∀ w, stackdepthWalk opcodes v314 g generator entry = .ok w →
      (∀ block k depth, Comes opcodes v314 g generator entry block k depth →
        (k = 0 → depth ≤ w.startdepth block) ∧
        ∀ b inst, g[block]? = some b → b.insts[k]? = some inst →
          newDepth opcodes v314 depth inst ≤ w.maxdepth ∧
          (jumps opcodes inst → targetDepth opcodes v314 depth inst ≤ w.maxdepth)) ∧
      ((∀ b blk, 0 ≤ w.startdepth b → g[b]? = some blk →
          Edges opcodes v314 (· = ·) w.startdepth blk.next (w.startdepth b) blk.insts) →
        ∀ block k depth, Comes opcodes v314 g generator entry block k depth →
          0 ≤ depth ∧ (k = 0 → w.startdepth block = depth) ∧
          ∀ b inst, g[block]? = some b → b.insts[k]? = some inst →
            0 ≤ newDepth opcodes v314 depth inst ∧
            (jumps opcodes inst → 0 ≤ targetDepth opcodes v314 depth inst)) := by
  refine ⟨?_, fun w h => ?_⟩
  · unfold stackdepthWalk
    split
    · next e hpush =>
        rw [pushTarget_error (show pushTarget g _ (some entry) _ = _ from hpush)]
        simp
    · next w₀ hpush =>
        have hpos : 0 ≤ initialStackDepth v314 generator := by
          unfold initialStackDepth
          split <;> omega
        have hpending := (pushBlock_spec hpos hpush).1.pending
        have hcard := card_filter_le (range g.length) fun b => (-1 : Int) < 0
        rw [card_range] at hcard
        refine walk_ends ?_
        simp only [List.length_nil] at hpending
        omega
  obtain ⟨hentry, hscanned⟩ := stackdepthWalk_spec h
  refine ⟨fun block k depth hcomes => ?_, fun hexact block k depth hcomes => ?_⟩
  · obtain ⟨blk, walked, hblk, -, hle, hstart, -, hbounded⟩ :=
      hcomes.follows compares_le hentry hscanned
    refine ⟨fun hk => hstart hk ▸ hle, fun b inst hb hinst => ?_⟩
    obtain rfl := Option.some.inj (hb.symm.trans hblk)
    rw [List.drop_eq_getElem?_toList_append, hinst] at hbounded
    refine ⟨(Int.add_le_add_right hle _).trans hbounded.2.1, fun hjumps => ?_⟩
    exact (Int.add_le_add_right hle _).trans (hbounded.2.2.1 hjumps).2
  · have hscanned' : ∀ b, 0 ≤ w.startdepth b → ∃ blk, g[b]? = some blk ∧
        Edges opcodes v314 (· = ·) w.startdepth blk.next (w.startdepth b) blk.insts ∧
        Bounded opcodes v314 w.maxdepth (w.startdepth b) blk.insts := by
      intro b hb
      obtain ⟨blk, hblk, -, hbounded⟩ := hscanned b hb
      exact ⟨blk, hblk, hexact b blk hb hblk, hbounded⟩
    obtain ⟨blk, walked, hblk, hpos, rfl, hstart, -, hbounded⟩ :=
      hcomes.follows compares_eq hentry hscanned'
    refine ⟨hpos, fun hk => (hstart hk).symm, fun b inst hb hinst => ?_⟩
    obtain rfl := Option.some.inj (hb.symm.trans hblk)
    rw [List.drop_eq_getElem?_toList_append, hinst] at hbounded
    exact ⟨hbounded.1, fun hjumps => (hbounded.2.2.1 hjumps).1⟩

inductive Sample
  | LOAD_CONST
  | POP_JUMP_IF_FALSE
  | POP_TOP
  | RETURN_VALUE
  | SETUP_FINALLY
  | JUMP
  | RERAISE
  deriving DecidableEq

def Sample.table : Opcodes Sample Unit where
  stack_effect_raw op _ _ :=
    match op with
    | .LOAD_CONST | .SETUP_FINALLY => 1
    | .JUMP => 0
    | _ => -1
  has_jump op := op = .POP_JUMP_IF_FALSE ∨ op = .JUMP
  SETUP_OPCODES op := op = .SETUP_FINALLY
  SCOPE_EXIT_OPCODES op := op = .RETURN_VALUE ∨ op = .RERAISE
  UNCONDITIONAL_JUMP_OPCODES op := op = .JUMP
  END_ASYNC_FOR _ := false

/-- A loop under a handler: the blocks are the head, the body, the handler and the end. -/
def guardedLoop : List (Block Sample Unit) :=
  [⟨[⟨.SETUP_FINALLY, (), some 2⟩, ⟨.LOAD_CONST, (), none⟩, ⟨.POP_JUMP_IF_FALSE, (), some 3⟩],
      some 1⟩,
    ⟨[⟨.LOAD_CONST, (), none⟩, ⟨.POP_TOP, (), none⟩, ⟨.JUMP, (), some 0⟩], some 2⟩,
    ⟨[⟨.RERAISE, (), none⟩], none⟩,
    ⟨[⟨.LOAD_CONST, (), none⟩, ⟨.RETURN_VALUE, (), none⟩], none⟩]

theorem stackdepthWalk_sound_guardedLoop :
    ∃ w, stackdepthWalk Sample.table true guardedLoop false 0 = .ok w ∧ w.maxdepth = 1 ∧
      ∀ block k depth, Comes Sample.table true guardedLoop false 0 block k depth →
        0 ≤ depth ∧ (k = 0 → w.startdepth block = depth) := by
  refine ⟨_, rfl, rfl, fun block k depth hcomes => ?_⟩
  have hedges := ((stackdepthWalk_sound Sample.table true guardedLoop false 0).2 _ rfl).2 ?_
    block k depth hcomes
  · exact ⟨hedges.1, hedges.2.1⟩
  intro b blk _ hblk
  have hlt : b < 4 := (List.getElem?_eq_some_iff.mp hblk).1
  interval_cases b <;> cases hblk <;> simp [Edges] <;> decide

/-- The jump enters the last block with a value, the block between without. -/
def twoWays : List (Block Sample Unit) :=
  [⟨[⟨.LOAD_CONST, (), none⟩, ⟨.LOAD_CONST, (), none⟩, ⟨.POP_JUMP_IF_FALSE, (), some 2⟩], some 1⟩,
    ⟨[⟨.POP_TOP, (), none⟩], some 2⟩,
    ⟨[⟨.RETURN_VALUE, (), none⟩], none⟩]

theorem twoWays_accepted : ∃ w, stackdepthWalk Sample.table true twoWays false 0 = .ok w ∧
    w.startdepth 2 = 1 ∧ Comes Sample.table true twoWays false 0 2 0 0 ∧
    newDepth Sample.table true 0 (⟨.RETURN_VALUE, (), none⟩ : Instruction Sample Unit) < 0 := by
  refine ⟨_, rfl, rfl, ?_, by decide⟩
  have h₁ : Comes Sample.table true twoWays false 0 0 0 0 := .entry
  have h₂ := ((h₁.step rfl rfl rfl).step rfl rfl rfl).step rfl rfl rfl
  exact (((h₂.fall rfl rfl rfl).step rfl rfl rfl).fall rfl rfl rfl)

end CinderX.Compiler.StackDepth
