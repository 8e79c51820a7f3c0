import CinderX.Jit.BitVectorSets
import CinderX.Jit.DataFlow

/-!
# The analyzer reflects the calls

After any calls the vectors of a block hold the bits that have been set, but for those that
the analyzer has forgotten.
-/

namespace CinderX.Jit.Optimizer

open BitVector Option Finset Function

variable {T : Type} [DecidableEq T]

def indices (objects : List T) (s : Finset T) : Finset Nat := s.image (objects.idxOf ·)

def BitSets.shown (s : BitSets T) (objects : List T) (b : Nat) : Finset Nat :=
  indices objects (s.bits b \ s.forgotten b)

structure BitSets.Known (s : BitSets T) (objects : List T) (blocks : List Nat) : Prop where
  known : ∀ {b o}, o ∈ s.bits b → b ∈ blocks ∧ o ∈ objects
  forgotten : ∀ b, s.forgotten b ⊆ s.bits b

namespace BitSets

variable {s : BitSets T} {objects : List T} {blocks : List Nat} {b : Nat} {o : T}

theorem mem_indices {i : Nat} {set : Finset T} :
    i ∈ indices objects set ↔ ∃ o ∈ set, objects.idxOf o = i := by
  simp [indices]

theorem idxOf_mem_shown (h : s.Known objects blocks) (ho : o ∈ objects) :
    objects.idxOf o ∈ s.shown objects b ↔ o ∈ s.bits b \ s.forgotten b := by
  unfold shown
  rw [mem_indices]
  constructor
  · rintro ⟨o', ho', heq⟩
    have hmem : o' ∈ objects := (h.known (mem_sdiff.mp ho').1).2
    obtain rfl := (List.idxOf_inj hmem).mp heq
    exact ho'
  · exact fun hmem => ⟨o, hmem, rfl⟩

omit [DecidableEq T] in
theorem Known.mono (h : s.Known objects blocks) {blocks' : List Nat} (hsub : blocks ⊆ blocks') :
    s.Known objects blocks' :=
  ⟨fun ho => ⟨hsub (h.known ho).1, (h.known ho).2⟩, h.forgotten⟩

theorem shown_of_not_mem (h : s.Known objects blocks) (hb : b ∉ blocks) :
    s.shown objects b = ∅ := by
  have hempty : s.bits b = ∅ :=
    eq_empty_of_forall_notMem fun o ho => hb (h.known ho).1
  simp [shown, indices, hempty]

theorem Known.set (h : s.Known objects blocks) (hb : b ∈ blocks) (ho : o ∈ objects) :
    (s.set b o).Known objects blocks := by
  refine ⟨fun {c o'} ho' => ?_, fun c => ?_⟩
  · simp only [BitSets.set] at ho'
    by_cases hc : c = b
    · subst hc
      rw [update_self, mem_insert] at ho'
      rcases ho' with rfl | ho'
      · exact ⟨hb, ho⟩
      · exact h.known ho'
    · rw [update_of_ne hc] at ho'
      exact h.known ho'
  · simp only [BitSets.set]
    by_cases hc : c = b
    · subst hc
      rw [update_self, update_self]
      exact (erase_subset _ _).trans ((h.forgotten c).trans (subset_insert _ _))
    · rw [update_of_ne hc, update_of_ne hc]
      exact h.forgotten c

theorem shown_set_self : (s.set b o).shown objects b =
    insert (objects.idxOf o) (s.shown objects b) := by
  refine Eq.trans (congrArg (indices objects) ?_) (image_insert (objects.idxOf ·) o _)
  ext o'
  simp only [BitSets.set, update_self, mem_sdiff, mem_insert,
    mem_erase]
  tauto

theorem shown_set_of_ne {c : Nat} (hc : c ≠ b) :
    (s.set b o).shown objects c = s.shown objects c := by
  simp [shown, BitSets.set, hc]

variable {objs : List T}

theorem Known.widen (h : s.Known objects blocks) (width : Nat) :
    (s.widen (objects ++ objs) width).Known (objects ++ objs) blocks := by
  refine ⟨fun ho => ⟨(h.known ho).1, List.mem_append_left _ (h.known ho).2⟩, fun c => ?_⟩
  exact union_subset (h.forgotten c) (filter_subset _ _)

theorem shown_widen (h : s.Known objects blocks) {width : Nat} (hwidth : objects.length ≤ width) :
    (s.widen (objects ++ objs) width).shown (objects ++ objs) b =
      (s.shown objects b).filter fun i => i < width ∧ (width % 64 ≠ 0 ∨ i + 64 < width) := by
  have hidx : ∀ o ∈ s.bits b, (objects ++ objs).idxOf o = objects.idxOf o ∧
      objects.idxOf o < width := fun o ho =>
    ⟨List.idxOf_append_of_mem (h.known ho).2,
      Nat.lt_of_lt_of_le (List.idxOf_lt_length_of_mem (h.known ho).2) hwidth⟩
  ext i
  simp only [shown, mem_indices, BitSets.widen, mem_sdiff, mem_union,
    mem_filter]
  constructor
  · rintro ⟨o, ⟨ho, hnot⟩, rfl⟩
    obtain ⟨heq, hlt⟩ := hidx o ho
    simp only [heq] at hnot ⊢
    refine ⟨⟨o, ⟨ho, fun hf => hnot (Or.inl hf)⟩, rfl⟩, hlt, ?_⟩
    by_contra hcut
    exact hnot (Or.inr ⟨ho, by omega⟩)
  · rintro ⟨⟨o, ⟨ho, hnot⟩, rfl⟩, -, hcut⟩
    obtain ⟨heq, -⟩ := hidx o ho
    refine ⟨o, ⟨ho, ?_⟩, heq⟩
    rintro (hf | ⟨-, hzero, hlast⟩)
    · exact hnot hf
    · rw [heq] at hlast
      omega

end BitSets

structure DataFlowBlock.Holds (block : DataFlowBlock) (width : Nat) (gen kill : Finset Nat) :
    Prop where
  gen : HoldsSet block.gen_ width gen
  kill : HoldsSet block.kill_ width kill
  ins : HoldsSet block.in_ width ∅
  outs : HoldsSet block.out_ width ∅

namespace DataFlowBlock

variable {block : DataFlowBlock} {width n : Nat} {gen kill : Finset Nat}

theorem holds_empty : ({} : DataFlowBlock).Holds 0 ∅ ∅ :=
  ⟨empty_holdsSet, empty_holdsSet, empty_holdsSet, empty_holdsSet⟩

theorem setBitWidth_holds (h : block.Holds width gen kill) (hn : n ≠ width) :
    ∃ res, block.setBitWidth n = some res ∧ res.pred_ = block.pred_ ∧ res.succ_ = block.succ_ ∧
      res.Holds n (gen.filter fun i => i < n ∧ (n % 64 ≠ 0 ∨ i + 64 < n))
        (kill.filter fun i => i < n ∧ (n % 64 ≠ 0 ∨ i + 64 < n)) := by
  obtain ⟨gen', hgen', hgen⟩ := setBitWidth_holdsSet h.gen hn
  obtain ⟨kill', hkill', hkill⟩ := setBitWidth_holdsSet h.kill hn
  obtain ⟨in', hin', hins⟩ := setBitWidth_holdsSet h.ins hn
  obtain ⟨out', hout', houts⟩ := setBitWidth_holdsSet h.outs hn
  refine ⟨{ block with gen_ := gen', kill_ := kill', in_ := in', out_ := out' }, ?_, rfl, rfl,
    ⟨hgen, hkill, by simpa using hins, by simpa using houts⟩⟩
  simp [setBitWidth, hgen', hkill', hin', hout']

theorem setBitWidth_self (h : block.Holds width gen kill) :
    block.setBitWidth width = some block := by
  have hsame : ∀ {bv : BitVector} {s}, HoldsSet bv width s → bv.setBitWidth width = some bv :=
    fun hs => if_pos (by rw [hs.holds.num_bits, length_bitsOf])
  simp [setBitWidth, hsame h.gen, hsame h.kill, hsame h.ins, hsame h.outs]

theorem addBits_eq (h : block.Holds width gen kill) {i : Nat} (hi : width + i < 2 ^ 64) :
    block.addBits i = block.setBitWidth (width + i) := by
  have hwidth : ∀ {bv : BitVector} {s}, HoldsSet bv width s →
      bv.addBits i = (bv.setBitWidth (width + i)).map fun res => (width + i, res) := by
    intro bv s hs
    rw [BitVector.addBits, hs.holds.num_bits, length_bitsOf, Nat.mod_eq_of_lt hi]
    cases bv.setBitWidth (width + i) <;> rfl
  unfold addBits setBitWidth
  rw [hwidth h.gen, hwidth h.kill, hwidth h.ins, hwidth h.outs]
  simp only [bind_eq_bind, Option.pure_def, bind_map, comp_def]

end DataFlowBlock

/-! ## The analyzer -/

def Problem.width (p : Problem T) (b : Nat) : Nat := if b ∈ p.blocks then p.objects.length else 0

structure Reflects (a : DataFlowAnalyzer T) (p : Problem T) : Prop where
  names : a.index_to_obj_map_ = p.objects
  index : ∀ o, a.obj_to_index_map_ o = if o ∈ p.objects then some (p.objects.idxOf o) else none
  num_bits : a.num_bits_ = p.objects.length
  blocks : a.blocks_ = p.blocks
  nodup : p.blocks.Nodup
  pred : ∀ b, (a.block b).pred_ = p.pred b
  succ : ∀ b, (a.block b).succ_ = p.succ b
  edge : ∀ b c, c ∈ p.succ b ↔ b ∈ p.pred c
  gen : p.gen.Known p.objects p.blocks
  kill : p.kill.Known p.objects p.blocks
  holds : ∀ b, (a.block b).Holds (p.width b) (p.gen.shown p.objects b) (p.kill.shown p.objects b)

namespace Reflects

variable {a a' : DataFlowAnalyzer T} {p : Problem T}

theorem empty : Reflects ({} : DataFlowAnalyzer T) {} where
  names := rfl
  index _ := rfl
  num_bits := rfl
  blocks := rfl
  nodup := List.nodup_nil
  pred _ := rfl
  succ _ := rfl
  edge _ _ := by simp
  gen := ⟨fun ho => by simp at ho, fun _ => by simp⟩
  kill := ⟨fun ho => by simp at ho, fun _ => by simp⟩
  holds _ := DataFlowBlock.holds_empty

theorem modify (h : Reflects a p) {b : Nat} {block : DataFlowBlock} {p' : Problem T}
    (hobjects : p'.objects = p.objects) (hblocks : p'.blocks = p.blocks) (hpred : p'.pred = p.pred)
    (hsucc : p'.succ = p.succ) (hgen : p'.gen.Known p.objects p.blocks)
    (hkill : p'.kill.Known p.objects p.blocks) (hpred' : block.pred_ = (a.block b).pred_)
    (hsucc' : block.succ_ = (a.block b).succ_)
    (hholds : block.Holds (p.width b) (p'.gen.shown p.objects b) (p'.kill.shown p.objects b))
    (hothers : ∀ c, c ≠ b → p'.gen.shown p.objects c = p.gen.shown p.objects c ∧
      p'.kill.shown p.objects c = p.kill.shown p.objects c) :
    Reflects { a with block := Function.update a.block b block } p' where
  names := hobjects ▸ h.names
  index o := hobjects ▸ h.index o
  num_bits := hobjects ▸ h.num_bits
  blocks := hblocks ▸ h.blocks
  nodup := hblocks ▸ h.nodup
  pred c := by
    dsimp only
    by_cases hc : c = b
    · subst hc
      rw [update_self, hpred', hpred, h.pred]
    · rw [update_of_ne hc, hpred, h.pred]
  succ c := by
    dsimp only
    by_cases hc : c = b
    · subst hc
      rw [update_self, hsucc', hsucc, h.succ]
    · rw [update_of_ne hc, hsucc, h.succ]
  edge b c := by rw [hsucc, hpred, h.edge]
  gen := by rwa [hobjects, hblocks]
  kill := by rwa [hobjects, hblocks]
  holds c := by
    have hwidth : p'.width c = p.width c := by rw [Problem.width, Problem.width, hblocks, hobjects]
    rw [hobjects, hwidth]
    dsimp only
    by_cases hc : c = b
    · subst hc
      rw [update_self]
      exact hholds
    · rw [update_of_ne hc, (hothers c hc).1, (hothers c hc).2]
      exact h.holds c

theorem setBit (h : Reflects a p) {b : Nat} {bit : T} {pos : Nat} {bv res : BitVector}
    {s : Finset Nat} (hpos : a.obj_to_index_map_ bit = some pos) (hbv : HoldsSet bv (p.width b) s)
    (hres : bv.setBit pos true = some res) :
    b ∈ p.blocks ∧ bit ∈ p.objects ∧
      HoldsSet res (p.width b) (insert (p.objects.idxOf bit) s) := by
  rw [h.index] at hpos
  split at hpos
  next hbit =>
    cases hpos
    by_cases hlt : p.objects.idxOf bit < p.width b
    · obtain ⟨res', hres', hholds⟩ := setBit_holdsSet hbv hlt
      obtain rfl := Option.some.inj (hres.symm.trans hres')
      refine ⟨?_, hbit, hholds⟩
      by_contra hb
      rw [Problem.width, if_neg hb] at hlt
      exact Nat.not_lt_zero _ hlt
    · rw [setBit_none hbv hlt] at hres
      cases hres
  next => cases hpos

theorem setBlockGenBit (h : Reflects a p) {b : Nat} {bit : T}
    (hcall : a.SetBlockGenBit b bit = some a') :
    Reflects a' { p with gen := p.gen.set b bit } := by
  obtain ⟨pos, hpos, hcall⟩ := bind_eq_some_iff.mp hcall
  obtain ⟨block, hblock, hcall⟩ := bind_eq_some_iff.mp hcall
  obtain ⟨gen, hgen, hblock⟩ := bind_eq_some_iff.mp hblock
  cases hcall
  cases hblock
  obtain ⟨hb, hbit, hholds⟩ := h.setBit hpos (h.holds b).gen hgen
  refine h.modify rfl rfl rfl rfl (h.gen.set hb hbit) h.kill rfl rfl ?_ fun c hc =>
    ⟨BitSets.shown_set_of_ne hc, rfl⟩
  rw [BitSets.shown_set_self]
  exact { h.holds b with gen := hholds }

theorem setBlockKillBit (h : Reflects a p) {b : Nat} {bit : T}
    (hcall : a.SetBlockKillBit b bit = some a') :
    Reflects a' { p with kill := p.kill.set b bit } := by
  obtain ⟨pos, hpos, hcall⟩ := bind_eq_some_iff.mp hcall
  obtain ⟨block, hblock, hcall⟩ := bind_eq_some_iff.mp hcall
  obtain ⟨kill, hkill, hblock⟩ := bind_eq_some_iff.mp hblock
  cases hcall
  cases hblock
  obtain ⟨hb, hbit, hholds⟩ := h.setBit hpos (h.holds b).kill hkill
  refine h.modify rfl rfl rfl rfl h.gen (h.kill.set hb hbit) rfl rfl ?_ fun c hc =>
    ⟨rfl, BitSets.shown_set_of_ne hc⟩
  rw [BitSets.shown_set_self]
  exact { h.holds b with kill := hholds }

theorem setBlockGenBits {b : Nat} (bits : List T) : ∀ {a : DataFlowAnalyzer T} {p : Problem T},
    Reflects a p → a.SetBlockGenBits b bits = some a' →
      Reflects a' { p with gen := bits.foldl (·.set b) p.gen } := by
  induction bits with
  | nil =>
    intro a p h hcall
    cases hcall
    exact h
  | cons bit bits ih =>
    intro a p h hcall
    obtain ⟨a₁, hbit, hcall⟩ := bind_eq_some_iff.mp hcall
    exact ih (h.setBlockGenBit hbit) hcall

theorem setBlockKillBits {b : Nat} (bits : List T) : ∀ {a : DataFlowAnalyzer T} {p : Problem T},
    Reflects a p → a.SetBlockKillBits b bits = some a' →
      Reflects a' { p with kill := bits.foldl (·.set b) p.kill } := by
  induction bits with
  | nil =>
    intro a p h hcall
    cases hcall
    exact h
  | cons bit bits ih =>
    intro a p h hcall
    obtain ⟨a₁, hbit, hcall⟩ := bind_eq_some_iff.mp hcall
    exact ih (h.setBlockKillBit hbit) hcall

theorem connectTo (h : Reflects a p) (source target : Nat)
    (hcall : a.ConnectTo source target = some a') :
    Reflects a' (p.call (.connectTo source target)) := by
  cases hcall
  refine ⟨h.names, h.index, h.num_bits, h.blocks, h.nodup, fun b => ?_, fun b => ?_, fun b c => ?_,
    h.gen, h.kill, fun b => ?_⟩
  · simp only [Problem.call, update_apply]
    have hpred := h.pred
    split <;> split <;> simp_all
  · simp only [Problem.call, update_apply]
    have hsucc := h.succ
    split <;> split <;> simp_all
  · simp only [Problem.call, update_apply]
    have hedge := h.edge b c
    have htarget := h.edge b target
    have hsource := h.edge source c
    split <;> split <;> simp_all
  · have hblock := h.holds b
    simp only [update_apply]
    split
    · split
      · subst b
        rename_i heq
        subst heq
        exact ⟨hblock.gen, hblock.kill, hblock.ins, hblock.outs⟩
      · subst b
        exact ⟨hblock.gen, hblock.kill, hblock.ins, hblock.outs⟩
    · split
      · subst b
        exact ⟨hblock.gen, hblock.kill, hblock.ins, hblock.outs⟩
      · exact hblock

theorem addBlock (h : Reflects a p) (b : Nat) (hcall : a.AddBlock b = some a') :
    Reflects a' (p.call (.addBlock b)) := by
  obtain ⟨block, hblock, hcall⟩ := bind_eq_some_iff.mp hcall
  cases hcall
  have hsub : p.blocks ⊆ p.blocks.insert b := fun _ => List.mem_insert_of_mem
  -- what the block holds afterwards
  have hholds : block.pred_ = (a.block b).pred_ ∧ block.succ_ = (a.block b).succ_ ∧
      block.Holds p.objects.length (p.gen.shown p.objects b) (p.kill.shown p.objects b) := by
    have hb := h.holds b
    dsimp only at hblock
    rw [h.num_bits] at hblock
    by_cases hmem : p.objects.length = p.width b
    · rw [hmem, DataFlowBlock.setBitWidth_self hb] at hblock
      cases hblock
      exact ⟨rfl, rfl, hmem ▸ hb⟩
    · obtain ⟨res, hres, hpred, hsucc, hres'⟩ := DataFlowBlock.setBitWidth_holds hb hmem
      obtain rfl := Option.some.inj (hblock.symm.trans hres)
      have hnot : b ∉ p.blocks := fun hin => hmem (if_pos hin).symm
      rw [BitSets.shown_of_not_mem h.gen hnot, BitSets.shown_of_not_mem h.kill hnot] at hres' ⊢
      exact ⟨hpred, hsucc, by simpa using hres'⟩
  refine ⟨h.names, h.index, h.num_bits, ?_, h.nodup.insert, fun c => ?_, fun c => ?_, h.edge,
    h.gen.mono hsub, h.kill.mono hsub, fun c => ?_⟩
  · exact congrArg (·.insert b) h.blocks
  · dsimp only
    by_cases hc : c = b
    · subst hc
      rw [update_self, hholds.1]
      exact h.pred c
    · rw [update_of_ne hc]
      exact h.pred c
  · dsimp only
    by_cases hc : c = b
    · subst hc
      rw [update_self, hholds.2.1]
      exact h.succ c
    · rw [update_of_ne hc]
      exact h.succ c
  · dsimp only [Problem.call, Problem.width]
    by_cases hc : c = b
    · subst hc
      rw [update_self, if_pos List.mem_insert_self]
      exact hholds.2.2
    · rw [update_of_ne hc]
      have hiff : c ∈ p.blocks.insert b ↔ c ∈ p.blocks := by simp [hc]
      simp only [hiff]
      exact h.holds c

/-! ## Interning -/

omit [DecidableEq T] in
theorem modifyAll {f : DataFlowBlock → Option DataFlowBlock} {g : Nat → DataFlowBlock}
    (hnodup : a.blocks_.Nodup) (hf : ∀ b ∈ a.blocks_, f (a.block b) = some (g b)) :
    a.modifyAll f =
      some { a with block := fun b => if b ∈ a.blocks_ then g b else a.block b } := by
  have hlist : ∀ (l : List Nat) (a : DataFlowAnalyzer T), l.Nodup →
      (∀ b ∈ l, f (a.block b) = some (g b)) → l.foldlM (fun a b => a.modify b f) a =
        some { a with block := fun b => if b ∈ l then g b else a.block b } := by
    intro l
    induction l with
    | nil =>
      intro a _ _
      simp
    | cons b l ih =>
      intro a hnodup hf
      obtain ⟨hb, hl⟩ := List.nodup_cons.mp hnodup
      have hmodify : a.modify b f = some { a with block := Function.update a.block b (g b) } := by
        rw [DataFlowAnalyzer.modify, hf b List.mem_cons_self]
        rfl
      rw [List.foldlM_cons, hmodify]
      refine (ih _ hl fun c hc => ?_).trans (congrArg some ?_)
      · have hne : c ≠ b := fun heq => hb (heq ▸ hc)
        dsimp only
        rw [update_of_ne hne]
        exact hf c (List.mem_cons_of_mem _ hc)
      · congr 1
        funext c
        by_cases hc : c = b
        · subst hc
          simp [hb]
        · simp [hc]
  exact hlist a.blocks_ a hnodup hf

theorem intern (h : a.index_to_obj_map_ = p.objects ∧ a.num_bits_ = p.objects.length ∧
    ∀ o, a.obj_to_index_map_ o = if o ∈ p.objects then some (p.objects.idxOf o) else none)
    (objs : List T) (hfew : (p.objects ++ objs).length < 2 ^ 64) :
    (objs.foldl DataFlowAnalyzer.intern a).index_to_obj_map_ = p.objects ++ objs ∧
      (objs.foldl DataFlowAnalyzer.intern a).num_bits_ = (p.objects ++ objs).length ∧
      ∀ o, (objs.foldl DataFlowAnalyzer.intern a).obj_to_index_map_ o =
        if o ∈ p.objects ++ objs then some ((p.objects ++ objs).idxOf o) else none := by
  induction objs generalizing a p with
  | nil => simpa using h
  | cons obj objs ih =>
    obtain ⟨hnames, hnum, hindex⟩ := h
    rw [List.length_append, List.length_cons] at hfew
    have hnext := @ih (a.intern obj) { p with objects := p.objects ++ [obj] }
      ⟨by simp [DataFlowAnalyzer.intern, hnames], ?_, ?_⟩ (by simp; omega)
    · simpa using hnext
    · simp only [DataFlowAnalyzer.intern, hnum, List.length_append, List.length_singleton]
      omega
    · intro o
      simp only [DataFlowAnalyzer.intern, hindex, hnum]
      by_cases hobj : obj ∈ p.objects
      · by_cases ho : o ∈ p.objects
        · simp [hobj, ho, hindex, List.idxOf_append_of_mem]
        · have hne : o ≠ obj := fun heq => ho (heq ▸ hobj)
          simp [hobj, ho, hne, hindex]
      · by_cases ho : o ∈ p.objects
        · have hne : o ≠ obj := fun heq => hobj (heq ▸ ho)
          simp [hobj, ho, hne, hindex, List.idxOf_append_of_mem]
        · by_cases heq : o = obj
          · subst heq
            simp [hobj, List.idxOf_append_of_notMem]
          · simp [hobj, ho, heq, hindex]

theorem foldl_intern_block (objs : List T) (a : DataFlowAnalyzer T) :
    (objs.foldl DataFlowAnalyzer.intern a).block = a.block ∧
      (objs.foldl DataFlowAnalyzer.intern a).blocks_ = a.blocks_ ∧
      (objs.foldl DataFlowAnalyzer.intern a).entry_block_ = a.entry_block_ := by
  induction objs generalizing a with
  | nil => exact ⟨rfl, rfl, rfl⟩
  | cons obj objs ih => exact ih (a.intern obj)

theorem addObjects (h : Reflects a p) (objs : List T) (hfew : (p.objects ++ objs).length < 2 ^ 64)
    (hcall : a.AddObjects objs = some a') : Reflects a' (p.addObjects objs) := by
  by_cases hnil : objs = []
  · -- nothing is interned, and the widths stay
    subst hnil
    have hblocks : a.AddObjects ([] : List T) = some a := by
      refine (modifyAll (h.blocks ▸ h.nodup) (g := a.block) fun b hb => ?_).trans ?_
      · have hb' := h.holds b
        have hlt : p.width b + 0 < 2 ^ 64 := by
          have hmem : b ∈ p.blocks := h.blocks ▸ hb
          rw [Problem.width, if_pos hmem]
          simpa using hfew
        exact (DataFlowBlock.addBits_eq hb' hlt).trans (DataFlowBlock.setBitWidth_self hb')
      · have hsame : (fun b => if b ∈ a.blocks_ then a.block b else a.block b) = a.block :=
          funext fun _ => ite_self _
        exact congrArg (fun block => some { a with block := block }) hsame
    obtain rfl := Option.some.inj (hblocks.symm.trans hcall)
    rw [Problem.addObjects, if_pos rfl]
    exact h
  · obtain ⟨hnames, hnum, hindex⟩ := intern ⟨h.names, h.num_bits, h.index⟩ objs hfew
    obtain ⟨hblock, hblocks, -⟩ := foldl_intern_block objs a
    have hpos : 0 < objs.length := List.length_pos_iff.mpr hnil
    rw [List.length_append] at hfew
    -- what the blocks hold afterwards
    have hwide : ∀ b, ∃ res, b ∈ p.blocks → (a.block b).addBits objs.length = some res ∧
        res.pred_ = (a.block b).pred_ ∧ res.succ_ = (a.block b).succ_ ∧
        res.Holds (p.objects ++ objs).length
          ((p.gen.widen (p.objects ++ objs) (p.objects ++ objs).length).shown (p.objects ++ objs) b)
          ((p.kill.widen (p.objects ++ objs) (p.objects ++ objs).length).shown
            (p.objects ++ objs) b)
        := by
      intro b
      by_cases hb : b ∈ p.blocks
      · have hb' := h.holds b
        have hwidth : p.width b = p.objects.length := if_pos hb
        rw [hwidth] at hb'
        obtain ⟨res, hres, hpred, hsucc, hholds⟩ :=
          DataFlowBlock.setBitWidth_holds hb' (n := p.objects.length + objs.length) (by omega)
        refine ⟨res, fun _ => ⟨?_, hpred, hsucc, ?_⟩⟩
        · rw [DataFlowBlock.addBits_eq hb' hfew, hres]
        · rw [BitSets.shown_widen h.gen (by simp), BitSets.shown_widen h.kill (by simp),
            List.length_append]
          exact hholds
      · exact ⟨a.block b, fun hin => absurd hin hb⟩
    choose g hg using hwide
    have hall := modifyAll (a := objs.foldl DataFlowAnalyzer.intern a)
      (f := fun b => b.addBits objs.length) (g := g)
      (by rw [hblocks, h.blocks]; exact h.nodup) (fun b hb => by
        rw [hblocks, h.blocks] at hb
        rw [hblock]
        exact (hg b hb).1)
    obtain rfl := Option.some.inj (hall.symm.trans hcall)
    rw [Problem.addObjects, if_neg hnil]
    refine ⟨hnames, hindex, hnum, hblocks.trans h.blocks, h.nodup, fun b => ?_, fun b => ?_, h.edge,
      h.gen.widen _, h.kill.widen _, fun b => ?_⟩
    all_goals dsimp only
    all_goals rw [hblocks, hblock, h.blocks]
    all_goals by_cases hb : b ∈ p.blocks
    · rw [if_pos hb, (hg b hb).2.1, h.pred]
    · rw [if_neg hb, h.pred]
    · rw [if_pos hb, (hg b hb).2.2.1, h.succ]
    · rw [if_neg hb, h.succ]
    · rw [if_pos hb, Problem.width, if_pos hb]
      exact (hg b hb).2.2.2
    · have hb' := h.holds b
      rw [Problem.width, if_neg hb, BitSets.shown_of_not_mem h.gen hb,
        BitSets.shown_of_not_mem h.kill hb] at hb'
      rw [if_neg hb, Problem.width, if_neg hb, BitSets.shown_of_not_mem (h.gen.widen _) hb,
        BitSets.shown_of_not_mem (h.kill.widen _) hb]
      exact hb'

theorem call (h : Reflects a p) (c : Call T) (hfew : (p.call c).objects.length < 2 ^ 64)
    (hcall : a.call c = some a') : Reflects a' (p.call c) := by
  cases c with
  | addBlock b => exact h.addBlock b hcall
  | connectTo source target => exact h.connectTo source target hcall
  | addObject obj => exact h.addObjects [obj] hfew hcall
  | addObjects objs =>
    refine h.addObjects objs ?_ hcall
    by_cases hnil : objs = []
    · simpa [Problem.call, Problem.addObjects, hnil] using hfew
    · simpa [Problem.call, Problem.addObjects, hnil] using hfew
  | setBlockGenBit b bit => exact h.setBlockGenBit hcall
  | setBlockGenBits b bits => exact h.setBlockGenBits bits hcall
  | setBlockKillBit b bit => exact h.setBlockKillBit hcall
  | setBlockKillBits b bits => exact h.setBlockKillBits bits hcall
  | setEntryBlock b =>
    cases hcall
    exact { h with }
  | setExitBlock b =>
    cases hcall
    exact { h with }

theorem length_objects_call (c : Call T) : p.objects.length ≤ (p.call c).objects.length := by
  have hadd : ∀ objs, p.objects.length ≤ (p.addObjects objs).objects.length := by
    intro objs
    unfold Problem.addObjects
    split <;> simp
  cases c with
  | addObject obj => exact hadd [obj]
  | addObjects objs => exact hadd objs
  | _ => exact le_rfl

theorem build {calls : List (Call T)} (hfew : (Problem.ofCalls calls).objects.length < 2 ^ 64)
    (hbuild : DataFlowAnalyzer.build calls = some a) : Reflects a (Problem.ofCalls calls) := by
  have hrun : ∀ (calls : List (Call T)) {a a' : DataFlowAnalyzer T} {p : Problem T}, Reflects a p →
      (calls.foldl Problem.call p).objects.length < 2 ^ 64 →
      calls.foldlM DataFlowAnalyzer.call a = some a' →
        Reflects a' (calls.foldl Problem.call p) := by
    intro calls
    induction calls with
    | nil =>
      intro a a' p h _ hrun
      cases hrun
      exact h
    | cons c calls ih =>
      intro a a' p h hfew hrun
      obtain ⟨a₁, hcall, hrun⟩ := bind_eq_some_iff.mp hrun
      have hgrow : ∀ (calls : List (Call T)) (p : Problem T),
          p.objects.length ≤ (calls.foldl Problem.call p).objects.length := by
        intro calls
        induction calls with
        | nil => exact fun _ => le_rfl
        | cons c calls ih => exact fun p => (length_objects_call c).trans (ih (p.call c))
      exact ih (h.call c (Nat.lt_of_le_of_lt (hgrow calls _) hfew) hcall) hfew hrun
  exact hrun calls empty hfew hbuild

end Reflects

end CinderX.Jit.Optimizer
