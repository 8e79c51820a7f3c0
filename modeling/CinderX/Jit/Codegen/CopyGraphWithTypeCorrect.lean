import CinderX.Jit.Codegen.CopyGraphCorrect
import CinderX.Jit.Codegen.CopyGraph

/-!
# Widths of typed copies

An operation at an `n`-bit type moves only the low `n` bits.  What becomes of
the other bits of its destination differs between machines and is left open: it
is a function `upper` of the width and of the old value.

In a cycle of registers the value of the leader travels through all exchanges,
each of which is typed after the locations it joins and not after the value
that is passing.  The theorems below say exactly when that loses bits.
-/

namespace CinderX.Jit.Codegen

open Foundation.ParallelAssignment List Option Function
open Lir (DataType bitSize bitSize_le resolveDataType)

abbrev Word := BitVec 64

def AgreeLow (n : Nat) (v w : Word) : Prop :=
  ∀ i < n, v.getLsbD i = w.getLsbD i

theorem AgreeLow.refl (n : Nat) (v : Word) : AgreeLow n v v := fun _ _ => rfl

variable {n : Nat}

theorem AgreeLow.trans {u v w : Word} (h : AgreeLow n u v) (h' : AgreeLow n v w) : AgreeLow n u w :=
  fun i hi => (h i hi).trans (h' i hi)

theorem setWidth_eq_iff {v w : Word} :
    v.setWidth n = w.setWidth n ↔ AgreeLow n v w := by
  constructor
  · intro h i hi
    have hbit := congrArg (fun u : BitVec n => u.getLsbD i) h
    simpa [BitVec.getLsbD_setWidth, hi] using hbit
  · intro h
    apply BitVec.eq_of_getLsbD_eq
    intro i hi
    simp [hi, h i hi]

/-- Moving the low `n` bits of `source` into a location that held `target`. -/
def transfer (upper : Nat → Word → Word) (n : Nat) (target source : Word) : Word :=
  let mask : Word := BitVec.setWidth 64 (BitVec.allOnes n)
  (upper n target &&& ~~~mask) ||| (source &&& mask)

theorem getLsbD_transfer (upper : Nat → Word → Word) {i : Nat} (target source : Word)
    (hi : i < 64) :
    (transfer upper n target source).getLsbD i =
      if i < n then source.getLsbD i else (upper n target).getLsbD i := by
  by_cases hin : i < n
  · simp [transfer, hi, hin]
  · simp [transfer, hi, hin]

theorem transfer_agreeLow (upper : Nat → Word → Word) {m : Nat} (hm : m ≤ n) (hn : n ≤ 64)
    (target source : Word) :
    AgreeLow m (transfer upper n target source) source := by
  intro i hi
  rw [getLsbD_transfer upper target source (by omega), if_pos (by omega)]

def TypedOp.execute (upper : Nat → Word → Word) (σ : Loc → Word) (t : TypedOp) :
    Loc → Word :=
  let move := transfer upper (bitSize t.type)
  match t.op.kind with
  | .kCopy =>
    Function.update σ t.op.toLoc (move (σ t.op.toLoc) (σ t.op.fromLoc))
  | .kExchange =>
    Function.update
      (Function.update σ t.op.fromLoc (move (σ t.op.fromLoc) (σ t.op.toLoc)))
      t.op.toLoc (move (σ t.op.toLoc) (σ t.op.fromLoc))

def executeTyped (upper : Nat → Word → Word) (σ : Loc → Word)
    (ops : List TypedOp) : Loc → Word :=
  ops.foldl (TypedOp.execute upper) σ

@[simp] theorem executeTyped_cons (upper : Nat → Word → Word) (σ : Loc → Word)
    (t : TypedOp) (ops : List TypedOp) :
    executeTyped upper σ (t :: ops) = executeTyped upper (t.execute upper σ) ops :=
  rfl

@[simp] theorem executeTyped_append (upper : Nat → Word → Word) (σ : Loc → Word)
    (ts us : List TypedOp) :
    executeTyped upper σ (ts ++ us) =
      executeTyped upper (executeTyped upper σ ts) us := by
  simp [executeTyped]

variable {source target : Loc}

theorem TypedOp.execute_copy_of_ne (upper : Nat → Word → Word) (σ : Loc → Word) {z : Loc}
    (type : DataType) (hz : z ≠ target) :
    TypedOp.execute upper σ ⟨⟨.kCopy, source, target⟩, type⟩ z = σ z := by
  simp [TypedOp.execute, hz]

def toOp : Instr Loc → Op
  | .assign source target => ⟨.kCopy, source, target⟩
  | .swap first second => ⟨.kExchange, first, second⟩

theorem map_toOp_toInstr (ops : List Op) : (ops.map Op.toInstr).map toOp = ops := by
  rw [List.map_map]
  apply map_id''
  rintro ⟨kind, fromLoc, toLoc⟩
  cases kind <;> rfl

def Types (types : FromTypes) (instrs : List (Instr Loc)) (ops : List TypedOp) :
    Prop :=
  CopyGraphWithType.typeOps types (instrs.map toOp) = some ops

variable {types : FromTypes} {ops : List TypedOp}

theorem Types.nil (h : Types types [] ops) :
    ops = [] := by
  simpa [Types, CopyGraphWithType.typeOps] using h.symm

variable {instrs : List (Instr Loc)}

theorem Types.assign (h : Types types (.assign source target :: instrs) ops) :
    ∃ type rest, types source = some type ∧
      ops = ⟨⟨.kCopy, source, target⟩, type⟩ :: rest ∧
      Types (if target = kTempLoc then Function.update types kTempLoc (some type)
        else types) instrs rest := by
  simp only [Types, map_cons, toOp, CopyGraphWithType.typeOps,
    CopyGraphWithType.opType, bind_eq_bind, bind_eq_some_iff] at h
  obtain ⟨type, ⟨fromType, hfrom, htype⟩, rest, hrest, hops⟩ := h
  cases htype
  exact ⟨type, rest, hfrom, (Option.some.inj hops).symm, hrest⟩

variable {first second : Loc} {fromType toType : DataType} {k : Nat}

theorem Types.swap {rest : List Loc} (noTemp : kTempLoc ∉ second :: rest)
    (h : Types types (.swap first second :: instrs) ops) :
    kTempLoc ∉ rest ∧ ∃ fromType toType type tail, types first = some fromType ∧
      types second = some toType ∧ resolveDataType fromType toType = some type ∧
      ops = ⟨⟨.kExchange, first, second⟩, type⟩ :: tail ∧
      Types types instrs tail := by
  obtain ⟨hsecond, hrest⟩ := not_or.mp (mem_cons.not.mp noTemp)
  simp only [Types, map_cons, toOp, CopyGraphWithType.typeOps,
    CopyGraphWithType.opType, bind_eq_bind, bind_eq_some_iff,
    if_neg (Ne.symm hsecond)] at h
  obtain ⟨type, ⟨fromType, hfrom, toType, hto, htype⟩, tail, htail, hops⟩ := h
  exact ⟨hrest, fromType, toType, type, tail, hfrom, hto, htype, (Option.some.inj hops).symm, htail⟩

variable {type : DataType}

theorem Types.of_assign (hsource : types source = some type)
    (htail : Types (if target = kTempLoc then
      Function.update types kTempLoc (some type) else types) instrs ops) :
    Types types (.assign source target :: instrs)
      (⟨⟨.kCopy, source, target⟩, type⟩ :: ops) := by
  simp only [Types] at htail
  simp [Types, toOp, CopyGraphWithType.typeOps, CopyGraphWithType.opType, hsource, htail]

theorem Types.of_swap (hsecond : second ≠ kTempLoc) (hfrom : types first = some fromType)
    (hto : types second = some toType) (htype : resolveDataType fromType toType = some type)
    (htail : Types types instrs ops) :
    Types types (.swap first second :: instrs)
      (⟨⟨.kExchange, first, second⟩, type⟩ :: ops) := by
  simp only [Types] at htail
  simp [Types, toOp, CopyGraphWithType.typeOps, CopyGraphWithType.opType, hfrom, hto,
    htype, hsecond, htail]

theorem Types.chainSwaps_append {leader : Loc} {rest : List Loc} (noTemp : kTempLoc ∉ rest)
    (h : Types types (chainSwaps leader rest ++ instrs) ops) :
    ∃ ops₁ ops₂, ops = ops₁ ++ ops₂ ∧ Types types (chainSwaps leader rest) ops₁ ∧
      Types types instrs ops₂ := by
  induction rest generalizing leader ops with
  | nil => exact ⟨[], ops, rfl, rfl, h⟩
  | cons y rest ih =>
    have hy : y ≠ kTempLoc := fun heq => noTemp (heq ▸ mem_cons_self)
    obtain ⟨noTemp, fromType, toType, type, tail, hfrom, hto, htype, rfl, htail⟩ := h.swap noTemp
    obtain ⟨ops₁, ops₂, rfl, h₁, h₂⟩ := ih noTemp htail
    exact ⟨⟨⟨.kExchange, leader, y⟩, type⟩ :: ops₁, ops₂, rfl,
      Types.of_swap hy hfrom hto htype h₁, h₂⟩

def typeBits (type : Option DataType) : Nat := (type.map bitSize).getD 0

theorem typeBits_le (type : Option DataType) : typeBits type ≤ 64 := by
  cases type with
  | none => simp [typeBits]
  | some type => simpa [typeBits] using bitSize_le type

def exchangeBits (types : FromTypes) (x y : Loc) : Nat :=
  typeBits (do resolveDataType (← types x) (← types y))

theorem exchangeBits_eq {x y : Loc} (hx : types x = some fromType)
    (hy : types y = some toType) (htype : resolveDataType fromType toType = some type) :
    exchangeBits types x y = bitSize type := by
  simp [exchangeBits, typeBits, hx, hy, htype]

section Rotation

variable {upper : Nat → Word → Word} {types : FromTypes} {x : Loc} {rest : List Loc}
  {ops : List TypedOp} {par : Loc → Option Loc}

theorem executeTyped_chain_notMem (noTemp : kTempLoc ∉ rest)
    (htypes : Types types (chainSwaps x rest) ops) (σ : Loc → Word) {z : Loc}
    (hz : z ∉ x :: rest) : executeTyped upper σ ops z = σ z := by
  induction rest generalizing x σ ops with
  | nil =>
    rw [htypes.nil]
    rfl
  | cons y rest ih =>
    simp only [mem_cons, not_or] at hz
    obtain ⟨noTemp, fromType, toType, type, tail, hfrom, hto, htype, rfl, htail⟩ :=
      htypes.swap noTemp
    rw [executeTyped_cons, ih noTemp htail _ (by simp [hz])]
    simp [TypedOp.execute, hz]

variable {k : Nat}

theorem executeTyped_chain_last (nodup : (x :: rest).Nodup)
    (noTemp : kTempLoc ∉ rest) (htypes : Types types (chainSwaps x rest) ops)
    (wide : (x :: rest).IsChain (fun a b => k ≤ exchangeBits types a b)) (σ : Loc → Word) :
    AgreeLow k (executeTyped upper σ ops ((x :: rest).getLast (by simp))) (σ x) := by
  induction rest generalizing x σ ops with
  | nil =>
    rw [htypes.nil]
    exact AgreeLow.refl _ _
  | cons y rest ih =>
    obtain ⟨noTemp, fromType, toType, type, tail, hfrom, hto, htype, rfl, htail⟩ :=
      htypes.swap noTemp
    obtain ⟨hk, hwide⟩ := isChain_cons_cons.mp wide
    rw [exchangeBits_eq hfrom hto htype] at hk
    rw [executeTyped_cons, getLast_cons (by simp)]
    refine (ih nodup.of_cons noTemp htail hwide _).trans ?_
    simpa [TypedOp.execute] using
      transfer_agreeLow upper hk (bitSize_le type) (σ y) (σ x)

theorem executeTyped_chain_mem (nodup : (x :: rest).Nodup) (noTemp : kTempLoc ∉ rest)
    (htypes : Types types (chainSwaps x rest) ops)
    (chain : (x :: rest).IsChain (fun a b => par a = some b)) (σ : Loc → Word)
    {z p : Loc} (hz : z ∈ x :: rest) (hlast : z ≠ (x :: rest).getLast (by simp))
    (hp : par z = some p) :
    AgreeLow (typeBits (types p)) (executeTyped upper σ ops z) (σ p) := by
  induction rest generalizing x σ ops with
  | nil => simp_all
  | cons y rest ih =>
    obtain ⟨noTemp, fromType, toType, type, tail, hfrom, hto, htype, rfl, htail⟩ :=
      htypes.swap noTemp
    obtain ⟨hy, hchain⟩ := isChain_cons_cons.mp chain
    have hnotMem : x ∉ y :: rest := (nodup_cons.mp nodup).1
    rw [executeTyped_cons]
    rcases mem_cons.mp hz with rfl | hz
    · have hpy : p = y := by simpa [hy] using hp.symm
      subst p
      have hne : z ≠ y := fun heq => hnotMem (heq ▸ mem_cons_self)
      rw [executeTyped_chain_notMem noTemp htail _ hnotMem]
      have hwidth : typeBits (types y) ≤ bitSize type := by
        simpa [typeBits, hto] using (Lir.le_bitSize_resolve htype).2
      simpa [TypedOp.execute, hne] using
        transfer_agreeLow upper hwidth (bitSize_le type) (σ z) (σ y)
    · rw [getLast_cons (by simp)] at hlast
      have hpMem := chain_succ_mem hchain hz hlast hp
      have hpx : p ≠ x := fun heq => hnotMem (heq ▸ mem_cons_of_mem _ hpMem)
      have hpy : p ≠ y :=
        fun heq => (nodup_cons.mp nodup.of_cons).1 (heq ▸ hpMem)
      have htailAgree := ih nodup.of_cons noTemp htail hchain
        (TypedOp.execute upper σ ⟨⟨.kExchange, x, y⟩, type⟩) hz hlast
      simpa [TypedOp.execute, hpx, hpy] using htailAgree

variable (upper) in
/--
Past an exchange narrower than `k`, some bit below `k` of the last location is
settled by the locations after the first alone.  The last narrow exchange of
the rotation decides which bit.
-/
theorem executeTyped_chain_narrow (hk : k ≤ 64) (nodup : (x :: rest).Nodup)
    (noTemp : kTempLoc ∉ rest) (htypes : Types types (chainSwaps x rest) ops)
    (narrow : ¬ (x :: rest).IsChain (fun a b => k ≤ exchangeBits types a b)) :
    ∃ i < k, ∀ σ σ' : Loc → Word, (∀ y ∈ rest, σ y = σ' y) →
      (executeTyped upper σ ops ((x :: rest).getLast (by simp))).getLsbD i =
        (executeTyped upper σ' ops ((x :: rest).getLast (by simp))).getLsbD i := by
  induction rest generalizing x ops with
  | nil => simp at narrow
  | cons y rest ih =>
    obtain ⟨noTemp, fromType, toType, type, tail, hfrom, hto, htype, rfl, htail⟩ :=
      htypes.swap noTemp
    have hnotMem : x ∉ y :: rest := (nodup_cons.mp nodup).1
    have hyRest : y ∉ rest := (nodup_cons.mp nodup.of_cons).1
    have hsame : ∀ (σ : Loc → Word), ∀ z ∈ rest,
        TypedOp.execute upper σ ⟨⟨.kExchange, x, y⟩, type⟩ z = σ z := by
      intro σ z hz
      have hzx : z ≠ x := fun heq => hnotMem (heq ▸ mem_cons_of_mem _ hz)
      have hzy : z ≠ y := fun heq => hyRest (heq ▸ hz)
      simp [TypedOp.execute, hzx, hzy]
    simp only [executeTyped_cons, getLast_cons (cons_ne_nil y rest)]
    by_cases hwide : (y :: rest).IsChain (fun a b => k ≤ exchangeBits types a b)
    · have hnarrow : bitSize type < k := by
        rw [isChain_cons_cons, exchangeBits_eq hfrom hto htype] at narrow
        by_contra hle
        exact narrow ⟨not_lt.mp hle, hwide⟩
      refine ⟨bitSize type, hnarrow, fun σ σ' hσ => ?_⟩
      have hbit : ∀ σ : Loc → Word, (executeTyped upper
          (TypedOp.execute upper σ ⟨⟨.kExchange, x, y⟩, type⟩) tail
          ((y :: rest).getLast (by simp))).getLsbD (bitSize type) =
            (upper (bitSize type) (σ y)).getLsbD (bitSize type) := by
        intro σ
        rw [executeTyped_chain_last nodup.of_cons noTemp htail hwide _ _ hnarrow]
        simp [TypedOp.execute, getLsbD_transfer upper _ _ (show bitSize type < 64 by omega)]
      rw [hbit σ, hbit σ', hσ y (by simp)]
    · obtain ⟨i, hi, hsettled⟩ := ih nodup.of_cons noTemp htail hwide
      refine ⟨i, hi, fun σ σ' hσ => hsettled _ _ fun z hz => ?_⟩
      rw [hsame σ z hz, hsame σ' z hz, hσ z (mem_cons_of_mem _ hz)]

end Rotation

/-! ## Which cycles keep their widths -/

def NoNarrowPair (types : FromTypes) (k : Nat) (xs : List Loc) : Prop :=
  xs.IsChain fun x y => types x = types y → k ≤ typeBits (types x)

variable {types : FromTypes} {rest : List Loc}

theorem wide_iff_noNarrowPair {x : Loc} {ops : List TypedOp} (hk : k ≤ 64)
    (noTemp : kTempLoc ∉ rest) (htypes : Types types (chainSwaps x rest) ops) :
    (x :: rest).IsChain (fun a b => k ≤ exchangeBits types a b) ↔
      NoNarrowPair types k (x :: rest) := by
  induction rest generalizing x ops with
  | nil => simp [NoNarrowPair]
  | cons y rest ih =>
    obtain ⟨noTemp, fromType, toType, type, tail, hfrom, hto, htype, rfl, htail⟩ :=
      htypes.swap noTemp
    rw [isChain_cons_cons, NoNarrowPair, isChain_cons_cons,
      ih noTemp htail, exchangeBits_eq hfrom hto htype, hfrom, hto]
    refine and_congr_left fun _ => ?_
    by_cases heq : fromType = toType
    · subst toType
      rw [Lir.resolveDataType_self] at htype
      cases htype
      simp [typeBits]
    · simp [heq, Lir.bitSize_resolve_of_ne htype heq, hk]

variable {leader : Loc}

theorem noNarrowPair_cons :
    NoNarrowPair types (typeBits (types leader)) (leader :: rest) ↔
      NoNarrowPair types (typeBits (types leader)) rest := by
  cases rest with
  | nil => simp [NoNarrowPair]
  | cons y rest => simp [NoNarrowPair, isChain_cons_cons]

structure RegisterCycle (par : Loc → Option Loc) (leader : Loc) (rest : List Loc) :
    Prop extends ClosedChain par leader rest where
  registers : ∀ x ∈ leader :: rest, 0 ≤ x
  least : ∀ x ∈ rest, leader ≤ x

def WidthSafe (par : Loc → Option Loc) (types : FromTypes) : Prop :=
  ∀ leader rest, RegisterCycle par leader rest →
    NoNarrowPair types (typeBits (types leader)) rest

theorem RegisterCycle.congr {par par' : Loc → Option Loc} (h : RegisterCycle par leader rest)
    (agree : ∀ x ∈ leader :: rest, par' x = par x) : RegisterCycle par' leader rest :=
  ⟨h.toClosedChain.congr agree, h.registers, h.least⟩

theorem RegisterCycle.notMem_of_none {par : Loc → Option Loc} (h : RegisterCycle par leader rest)
    {x : Loc} (hx : par x = none) : x ∉ leader :: rest := by
  intro hmem
  obtain ⟨p, -, hp⟩ := h.exists_succ hmem
  simp [hx] at hp

theorem NoNarrowPair.congr {types' : FromTypes} {xs : List Loc}
    (h : NoNarrowPair types k xs) (agree : ∀ x ∈ xs, types' x = types x) :
    NoNarrowPair types' k xs := by
  induction xs with
  | nil => simp [NoNarrowPair]
  | cons x xs ih =>
    cases xs with
    | nil => simp [NoNarrowPair]
    | cons y xs =>
      obtain ⟨hxy, htail⟩ := isChain_cons_cons.mp h
      refine isChain_cons_cons.mpr
        ⟨?_, ih htail fun z hz => agree z (mem_cons_of_mem _ hz)⟩
      rw [agree x (by simp), agree y (by simp)]
      exact hxy

section Schedules

variable {upper : Nat → Word → Word} {types : FromTypes} {par : Loc → Option Loc}
  {instrs : List (Instr Loc)} {ops : List TypedOp}

theorem ne_of_reads {x y p : Loc} (hy : par y = none) (reads : par x = some p) : y ≠ x := by
  rintro rfl
  simp [hy] at reads

theorem WidthSafe.save {x p : Loc} (safe : WidthSafe par types)
    (hfresh : par kTempLoc = none) (hx : par x = some p) (type : Option DataType) :
    WidthSafe (Function.update par x (some kTempLoc))
      (Function.update types kTempLoc type) := by
  intro leader rest hcycle
  have hxTemp : kTempLoc ≠ x := by
    rintro rfl
    simp [hfresh] at hx
  have hnoTemp : kTempLoc ∉ leader :: rest :=
    hcycle.notMem_of_none (by simpa [hxTemp] using hfresh)
  have hnotMem : x ∉ leader :: rest := by
    intro hmem
    exact hnoTemp (hcycle.mem_follows x kTempLoc hmem (by simp))
  have hagree : ∀ y ∈ leader :: rest, Function.update types kTempLoc type y = types y := by
    intro y hy
    exact update_of_ne (ne_of_mem_of_not_mem hy hnoTemp) _ _
  have hold := safe leader rest (hcycle.congr fun y hy => by
    rw [update_of_ne (ne_of_mem_of_not_mem hy hnotMem)])
  rw [hagree leader (by simp)]
  exact hold.congr fun y hy => hagree y (mem_cons_of_mem _ hy)

theorem WidthSafe.leaf {x : Loc} (safe : WidthSafe par types) :
    WidthSafe (Function.update par x none) types := by
  intro leader rest hcycle
  have hnotMem : x ∉ leader :: rest := hcycle.notMem_of_none (by simp)
  exact safe leader rest (hcycle.congr fun y hy => by
    rw [update_of_ne (ne_of_mem_of_not_mem hy hnotMem)])

theorem WidthSafe.retire {xs : List Loc} (safe : WidthSafe par types) :
    WidthSafe (retire par xs) types := by
  intro leader rest hcycle
  refine safe leader rest (hcycle.congr fun y hy => ?_)
  by_cases hmem : y ∈ xs
  · exact absurd hy (hcycle.notMem_of_none (by simp [Foundation.ParallelAssignment.retire, hmem]))
  · simp [Foundation.ParallelAssignment.retire, hmem]

theorem executeTyped_untouched
    (schedule : Schedule kTempLoc (0 ≤ ·) par instrs) (hfresh : par kTempLoc = none)
    (htypes : Types types instrs ops) (σ : Loc → Word) {z : Loc}
    (hz : par z = none) (htemp : z ≠ kTempLoc) : executeTyped upper σ ops z = σ z := by
  induction schedule generalizing types ops σ with
  | done idle =>
    rw [htypes.nil]
    rfl
  | @leaf par instrs x p reads unread tail ih =>
    have hxTemp := ne_of_reads hfresh reads
    have hzx := ne_of_reads hz reads
    obtain ⟨type, rest, -, rfl, hrest⟩ := htypes.assign
    rw [executeTyped_cons, ih (by simpa [hxTemp] using hfresh) hrest _
      (by simpa [hzx] using hz)]
    simp [TypedOp.execute, hzx]
  | @save par instrs x p reads memory fresh unread tail ih =>
    have hxTemp := ne_of_reads hfresh reads
    have hzx := ne_of_reads hz reads
    obtain ⟨type, rest, -, rfl, hrest⟩ := htypes.assign
    rw [executeTyped_cons, ih (by simpa [hxTemp] using hfresh) hrest _
      (by simpa [hzx] using hz)]
    simp [TypedOp.execute, htemp]
  | @cycle par instrs leader rest isCycle registers least tail ih =>
    have hcycle : RegisterCycle par leader rest :=
      ⟨isCycle.toClosedChain, registers, least⟩
    have hnoTemp := hcycle.notMem_of_none hfresh
    have hnotMem := hcycle.notMem_of_none hz
    obtain ⟨ops₁, ops₂, rfl, h₁, h₂⟩ :=
      htypes.chainSwaps_append (fun hmem => hnoTemp (mem_cons_of_mem _ hmem))
    rw [executeTyped_append, ih (by simp [Foundation.ParallelAssignment.retire, hfresh])
      h₂ _ (by simp [Foundation.ParallelAssignment.retire, hz])]
    exact executeTyped_chain_notMem
      (fun hmem => hnoTemp (mem_cons_of_mem _ hmem)) h₁ σ hnotMem

theorem executeTyped_of_widthSafe
    (schedule : Schedule kTempLoc (0 ≤ ·) par instrs) (hfresh : par kTempLoc = none)
    (htypes : Types types instrs ops) (safe : WidthSafe par types) (σ : Loc → Word)
    {z q : Loc} (hz : par z = some q) :
    AgreeLow (typeBits (types q)) (executeTyped upper σ ops z) (σ q) := by
  induction schedule generalizing types ops σ q with
  | done idle => simp [idle z] at hz
  | @leaf par instrs x p reads unread tail ih =>
    have hxTemp := ne_of_reads hfresh reads
    obtain ⟨type, rest, hp, rfl, hrest⟩ := htypes.assign
    rw [if_neg (Ne.symm hxTemp)] at hrest
    have hfresh' : Function.update par x none kTempLoc = none := by
      simpa [hxTemp] using hfresh
    rw [executeTyped_cons]
    by_cases hzx : z = x
    · subst z
      have hqp : q = p := by simpa [hz] using reads
      subst q
      rw [executeTyped_untouched tail hfresh' hrest _ (by simp) (Ne.symm hxTemp)]
      simpa [TypedOp.execute, typeBits, hp] using
        transfer_agreeLow upper le_rfl (bitSize_le type) (σ x) (σ p)
    · have hqx : q ≠ x := fun heq => unread z (heq ▸ hz)
      have htail := ih hfresh' hrest safe.leaf
        (TypedOp.execute upper σ ⟨⟨.kCopy, p, x⟩, type⟩) (q := q)
        (by simpa [hzx] using hz)
      rwa [TypedOp.execute_copy_of_ne upper σ type hqx] at htail
  | @save par instrs x p reads memory fresh unread tail ih =>
    have hxTemp := ne_of_reads hfresh reads
    obtain ⟨type, rest, hp, rfl, hrest⟩ := htypes.assign
    rw [if_pos rfl] at hrest
    have hfresh' : Function.update par x (some kTempLoc) kTempLoc = none := by
      simpa [hxTemp] using hfresh
    rw [executeTyped_cons]
    by_cases hzx : z = x
    · subst z
      have hqp : q = p := by simpa [hz] using reads
      subst q
      have hsaved := ih hfresh' hrest (safe.save hfresh reads (some type))
        (TypedOp.execute upper σ ⟨⟨.kCopy, p, kTempLoc⟩, type⟩)
        (q := kTempLoc) (by simp)
      have hcopied : AgreeLow (bitSize type)
          (TypedOp.execute upper σ ⟨⟨.kCopy, p, kTempLoc⟩, type⟩ kTempLoc) (σ p) := by
        simpa [TypedOp.execute] using
          transfer_agreeLow upper le_rfl (bitSize_le type) (σ kTempLoc) (σ p)
      simp only [update_self, typeBits, map_some, getD_some]
        at hsaved
      simpa [typeBits, hp] using hsaved.trans hcopied
    · have hq : q ≠ kTempLoc := fun heq => unread z (heq ▸ hz)
      have htail := ih hfresh' hrest (safe.save hfresh reads (some type))
        (TypedOp.execute upper σ ⟨⟨.kCopy, p, kTempLoc⟩, type⟩) (q := q)
        (by simpa [hzx] using hz)
      rwa [TypedOp.execute_copy_of_ne upper σ type hq,
        update_of_ne hq] at htail
  | @cycle par instrs leader rest isCycle registers least tail ih =>
    have hcycle : RegisterCycle par leader rest :=
      ⟨isCycle.toClosedChain, registers, least⟩
    have hnoTemp := hcycle.notMem_of_none hfresh
    have hnoTempRest : kTempLoc ∉ rest :=
      fun hmem => hnoTemp (mem_cons_of_mem _ hmem)
    obtain ⟨ops₁, ops₂, rfl, h₁, h₂⟩ := htypes.chainSwaps_append hnoTempRest
    have hfresh' : retire par (leader :: rest) kTempLoc = none := by
      simp [retire, hfresh]
    rw [executeTyped_append]
    by_cases hmem : z ∈ leader :: rest
    · rw [executeTyped_untouched tail hfresh' h₂ _ (by simp [retire, hmem])
        (ne_of_mem_of_not_mem hmem hnoTemp)]
      by_cases hlast : z = (leader :: rest).getLast (by simp)
      · have hq : q = leader := by
          have hcloses := hcycle.closes
          rw [← hlast, hz] at hcloses
          exact Option.some.inj hcloses
        subst z q
        refine executeTyped_chain_last hcycle.nodup hnoTempRest h₁ ?_ σ
        rw [wide_iff_noNarrowPair (typeBits_le _) hnoTempRest h₁, noNarrowPair_cons]
        exact safe leader rest hcycle
      · exact executeTyped_chain_mem hcycle.nodup hnoTempRest h₁ hcycle.chain σ hmem
          hlast hz
    · have hq : q ∉ leader :: rest := fun h => hmem (isCycle.unshared z q hz h)
      have htail := ih hfresh' h₂ safe.retire (executeTyped upper σ ops₁) (q := q)
        (by simpa [retire, hmem] using hz)
      rwa [executeTyped_chain_notMem hnoTempRest h₁ σ hq] at htail

variable (upper) in
theorem executeTyped_settled
    (schedule : Schedule kTempLoc (0 ≤ ·) par instrs) (hfresh : par kTempLoc = none)
    (htypes : Types types instrs ops) {leader : Loc} {rest : List Loc}
    (hcycle : RegisterCycle par leader rest)
    (narrow : ¬ NoNarrowPair types (typeBits (types leader)) rest) :
    ∃ i < typeBits (types leader), ∀ σ σ' : Loc → Word, (∀ y ∈ rest, σ y = σ' y) →
      (executeTyped upper σ ops ((leader :: rest).getLast (by simp))).getLsbD i =
        (executeTyped upper σ' ops ((leader :: rest).getLast (by simp))).getLsbD i := by
  induction schedule generalizing types ops with
  | done idle => exact absurd mem_cons_self (hcycle.notMem_of_none (idle leader))
  | @leaf par instrs x p reads unread tail ih =>
    have hxTemp := ne_of_reads hfresh reads
    have hnotMem : x ∉ leader :: rest := by
      intro hmem
      obtain ⟨y, hy⟩ := hcycle.exists_pred hmem
      exact unread y hy
    obtain ⟨type, tailOps, hp, rfl, hrest⟩ := htypes.assign
    rw [if_neg (Ne.symm hxTemp)] at hrest
    obtain ⟨i, hi, hsettled⟩ := ih (by simpa [hxTemp] using hfresh) hrest
      (hcycle.congr fun y hy => by
        rw [update_of_ne (ne_of_mem_of_not_mem hy hnotMem)]) narrow
    refine ⟨i, hi, fun σ σ' hσ => hsettled _ _ fun y hy => ?_⟩
    have hyx := ne_of_mem_of_not_mem (mem_cons_of_mem leader hy) hnotMem
    simp [TypedOp.execute, hyx, hσ y hy]
  | @save par instrs x p reads memory fresh unread tail ih =>
    have hxTemp := ne_of_reads hfresh reads
    have hnoTemp := hcycle.notMem_of_none hfresh
    have hnotMem : x ∉ leader :: rest := by
      intro hmem
      exact memory (hcycle.registers p (hcycle.mem_follows x p hmem reads))
    obtain ⟨type, tailOps, hp, rfl, hrest⟩ := htypes.assign
    rw [if_pos rfl] at hrest
    have hagree : ∀ y ∈ leader :: rest,
        types y = Function.update types kTempLoc (some type) y := by
      intro y hy
      rw [update_of_ne (ne_of_mem_of_not_mem hy hnoTemp)]
    rw [hagree leader (by simp)] at narrow ⊢
    obtain ⟨i, hi, hsettled⟩ := ih (by simpa [hxTemp] using hfresh) hrest
      (hcycle.congr fun y hy => by
        rw [update_of_ne (ne_of_mem_of_not_mem hy hnotMem)])
      (fun h => narrow (h.congr fun y hy => hagree y (mem_cons_of_mem _ hy)))
    refine ⟨i, hi, fun σ σ' hσ => hsettled _ _ fun y hy => ?_⟩
    have hy' := ne_of_mem_of_not_mem (mem_cons_of_mem leader hy) hnoTemp
    simp [TypedOp.execute, hy', hσ y hy]
  | @cycle par instrs leader' rest' isCycle registers least tail ih =>
    have hcycle' : RegisterCycle par leader' rest' :=
      ⟨isCycle.toClosedChain, registers, least⟩
    have hnoTemp' := hcycle'.notMem_of_none hfresh
    have hnoTempRest' : kTempLoc ∉ rest' :=
      fun hmem => hnoTemp' (mem_cons_of_mem _ hmem)
    obtain ⟨ops₁, ops₂, rfl, h₁, h₂⟩ := htypes.chainSwaps_append hnoTempRest'
    have hfresh' : retire par (leader' :: rest') kTempLoc = none := by
      simp [retire, hfresh]
    simp only [executeTyped_append]
    by_cases hshare : ∃ x ∈ leader :: rest, x ∈ leader' :: rest'
    · obtain ⟨x, hx, hx'⟩ := hshare
      obtain ⟨rfl, rfl⟩ := hcycle.toClosedChain.eq_of_mem hcycle'.toClosedChain
        hcycle.least hcycle'.least hx hx'
      have hlast := getLast_mem (l := leader :: rest) (by simp)
      obtain ⟨i, hi, hsettled⟩ := executeTyped_chain_narrow upper
        (typeBits_le (types leader)) hcycle.nodup hnoTempRest' h₁ (by
          rwa [wide_iff_noNarrowPair (typeBits_le _) hnoTempRest' h₁, noNarrowPair_cons])
      refine ⟨i, hi, fun σ σ' hσ => ?_⟩
      rw [executeTyped_untouched tail hfresh' h₂ _ (by simp [retire])
          (ne_of_mem_of_not_mem hlast hnoTemp'),
        executeTyped_untouched tail hfresh' h₂ _ (by simp [retire])
          (ne_of_mem_of_not_mem hlast hnoTemp')]
      exact hsettled σ σ' hσ
    · have hout : ∀ y ∈ leader :: rest, y ∉ leader' :: rest' :=
        fun y hy hy' => hshare ⟨y, hy, hy'⟩
      obtain ⟨i, hi, hsettled⟩ := ih hfresh' h₂
        (hcycle.congr fun y hy => by simp only [retire, if_neg (hout y hy)]) narrow
      refine ⟨i, hi, fun σ σ' hσ => hsettled _ _ fun y hy => ?_⟩
      have hy' := hout y (mem_cons_of_mem leader hy)
      rw [executeTyped_chain_notMem hnoTempRest' h₁ σ hy',
        executeTyped_chain_notMem hnoTempRest' h₁ σ' hy', hσ y hy]

variable (upper) in
theorem executeTyped_iff_widthSafe
    (schedule : Schedule kTempLoc (0 ≤ ·) par instrs) (hfresh : par kTempLoc = none)
    (htypes : Types types instrs ops) :
    (∀ (σ : Loc → Word) z q, par z = some q →
      AgreeLow (typeBits (types q)) (executeTyped upper σ ops z) (σ q)) ↔
      WidthSafe par types := by
  constructor
  · intro hall leader rest hcycle
    by_contra narrow
    obtain ⟨i, hi, hsettled⟩ := executeTyped_settled upper schedule hfresh
      htypes hcycle narrow
    have hout : leader ∉ rest := (nodup_cons.mp hcycle.nodup).1
    have hzero := hall (fun _ => 0#64) _ _ hcycle.closes i hi
    have hones := hall (Function.update (fun _ => 0#64) leader (BitVec.allOnes 64)) _ _
      hcycle.closes i hi
    have hsame := hsettled (fun _ => 0#64)
      (Function.update (fun _ => 0#64) leader (BitVec.allOnes 64)) (fun y hy => by
        rw [update_of_ne (ne_of_mem_of_not_mem hy hout)])
    have hi64 : i < 64 := Nat.lt_of_lt_of_le hi (typeBits_le _)
    rw [hzero, hones, update_self, BitVec.getLsbD_allOnes] at hsame
    simp [hi64] at hsame
  · intro safe σ z q hz
    exact executeTyped_of_widthSafe schedule hfresh htypes safe σ hz

end Schedules

def UniformClass (par : Loc → Option Loc) (types : FromTypes) : Prop :=
  ∀ leader rest, RegisterCycle par leader rest →
    ∀ x ∈ leader :: rest, ∀ y ∈ leader :: rest,
      types x = some .kDouble → types y = some .kDouble

def SourcesTyped (par : Loc → Option Loc) (types : FromTypes) : Prop :=
  ∀ z q, par z = some q → ∃ type, types q = some type

theorem resolveDataType_isSome (h : fromType = .kDouble ↔ toType = .kDouble) :
    ∃ type, resolveDataType fromType toType = some type := by
  cases fromType <;> cases toType <;> simp_all [resolveDataType]

theorem Types.exists_chainSwaps {types : FromTypes} {x : Loc} {rest : List Loc}
    (noTemp : kTempLoc ∉ rest) (typed : ∀ y ∈ x :: rest, ∃ type, types y = some type)
    (uniform : ∀ y ∈ x :: rest, ∀ z ∈ x :: rest,
      types y = some .kDouble → types z = some .kDouble)
    {instrs : List (Instr Loc)} {ops : List TypedOp} (htail : Types types instrs ops) :
    ∃ ops', Types types (chainSwaps x rest ++ instrs) ops' := by
  induction rest generalizing x with
  | nil => exact ⟨ops, htail⟩
  | cons y rest ih =>
    simp only [mem_cons, not_or] at noTemp
    obtain ⟨fromType, hfrom⟩ := typed x (by simp)
    obtain ⟨toType, hto⟩ := typed y (by simp)
    obtain ⟨type, htype⟩ : ∃ type, resolveDataType fromType toType = some type := by
      apply resolveDataType_isSome
      have hxy := uniform x (by simp) y (by simp)
      have hyx := uniform y (by simp) x (by simp)
      simp only [hfrom, hto, Option.some.injEq] at hxy hyx
      exact ⟨hxy, hyx⟩
    obtain ⟨ops', hops'⟩ := ih noTemp.2
      (fun z hz => typed z (mem_cons_of_mem _ hz))
      (fun a ha b hb => uniform a (mem_cons_of_mem _ ha) b (mem_cons_of_mem _ hb))
    exact ⟨_, Types.of_swap (Ne.symm noTemp.1) hfrom hto htype hops'⟩

theorem Types.exists_of_schedule {types : FromTypes} {par : Loc → Option Loc}
    {instrs : List (Instr Loc)} (schedule : Schedule kTempLoc (0 ≤ ·) par instrs)
    (hfresh : par kTempLoc = none) (typed : SourcesTyped par types)
    (uniform : UniformClass par types) : ∃ ops, Types types instrs ops := by
  induction schedule generalizing types with
  | done idle => exact ⟨[], rfl⟩
  | @leaf par instrs x p reads unread tail ih =>
    have hxTemp := ne_of_reads hfresh reads
    obtain ⟨type, hp⟩ := typed x p reads
    obtain ⟨ops, hops⟩ := @ih types (by simpa [hxTemp] using hfresh)
      (fun z q hz => by
        by_cases hzx : z = x
        · simp [hzx] at hz
        · exact typed z q (by simpa [hzx] using hz))
      (fun leader rest hcycle => uniform leader rest (hcycle.congr fun y hy => by
        have hnotMem : x ∉ leader :: rest := hcycle.notMem_of_none (by simp)
        rw [update_of_ne (ne_of_mem_of_not_mem hy hnotMem)]))
    exact ⟨_, Types.of_assign hp (by rwa [if_neg (Ne.symm hxTemp)])⟩
  | @save par instrs x p reads memory fresh unread tail ih =>
    have hxTemp := ne_of_reads hfresh reads
    obtain ⟨type, hp⟩ := typed x p reads
    have hfresh' : Function.update par x (some kTempLoc) kTempLoc = none := by
      simpa [hxTemp] using hfresh
    obtain ⟨ops, hops⟩ := @ih (Function.update types kTempLoc (some type)) hfresh'
      (fun z q hz => by
        by_cases hq : q = kTempLoc
        · exact ⟨type, by simp [hq]⟩
        · have hzx : z ≠ x := by
            rintro rfl
            exact hq (by simpa using hz.symm)
          obtain ⟨t, ht⟩ := typed z q (by simpa [hzx] using hz)
          exact ⟨t, by simpa [hq] using ht⟩)
      (fun leader rest hcycle a ha b hb => by
        have hnoTemp : kTempLoc ∉ leader :: rest := hcycle.notMem_of_none hfresh'
        have hnotMem : x ∉ leader :: rest := fun hmem =>
          hnoTemp (hcycle.mem_follows x kTempLoc hmem (by simp))
        rw [update_of_ne (ne_of_mem_of_not_mem ha hnoTemp),
          update_of_ne (ne_of_mem_of_not_mem hb hnoTemp)]
        exact uniform leader rest (hcycle.congr fun y hy => by
          rw [update_of_ne (ne_of_mem_of_not_mem hy hnotMem)]) a ha b hb)
    exact ⟨_, Types.of_assign hp (by rwa [if_pos rfl])⟩
  | @cycle par instrs leader rest isCycle registers least tail ih =>
    have hcycle : RegisterCycle par leader rest :=
      ⟨isCycle.toClosedChain, registers, least⟩
    obtain ⟨ops, hops⟩ := @ih types (by simp [retire, hfresh])
      (fun z q hz => by
        by_cases hmem : z ∈ leader :: rest
        · simp [retire, hmem] at hz
        · exact typed z q (by simpa [retire, hmem] using hz))
      (fun leader' rest' hcycle' => uniform leader' rest' (hcycle'.congr fun y hy => by
        by_cases hmem : y ∈ leader :: rest
        · exact absurd hy (hcycle'.notMem_of_none (by simp [retire, hmem]))
        · simp only [retire, if_neg hmem]))
    refine Types.exists_chainSwaps ?_ ?_ (uniform leader rest hcycle) hops
    · exact fun hmem => hcycle.notMem_of_none hfresh (mem_cons_of_mem _ hmem)
    · intro y hy
      obtain ⟨z, hz⟩ := hcycle.exists_pred hy
      exact typed z y hz

/-! ## Typed edge lists -/

def sourceOf (edges : List TypedEdge) (x : Loc) : Option Loc :=
  (edges.find? fun e => e.toLoc = x).map TypedEdge.fromLoc

def typeOf (edges : List TypedEdge) : FromTypes := fun x =>
  (edges.find? fun e => e.fromLoc = x).map TypedEdge.type

structure Accepted (edges : List TypedEdge) : Prop where
  admissible : CopyGraph.Admissible (edges.map TypedEdge.endpoints)
  one_type : ∀ e ∈ edges, ∀ e' ∈ edges, e.fromLoc = e'.fromLoc → e.type = e'.type
  uniform : UniformClass (sourceOf edges) (typeOf edges)

variable {edges : List TypedEdge}

theorem Accepted.typeOf_fromLoc (h : Accepted edges) {e : TypedEdge} (he : e ∈ edges) :
    typeOf edges e.fromLoc = some e.type := by
  cases hfind : edges.find? fun e' => e'.fromLoc = e.fromLoc with
  | none =>
    have := find?_eq_none.mp hfind e he
    simp at this
  | some e' =>
    have hmem := mem_of_find?_eq_some hfind
    have heq : e'.fromLoc = e.fromLoc := by simpa using find?_some hfind
    simp [typeOf, hfind, h.one_type e' hmem e he heq]

theorem Accepted.sourceOf_iff (h : Accepted edges) {x p : Loc} :
    sourceOf edges x = some p ↔ (p, x) ∈ edges.map TypedEdge.endpoints := by
  constructor
  · intro hx
    obtain ⟨e, hfind, rfl⟩ := map_eq_some_iff.mp hx
    refine List.mem_map.mpr ⟨e, mem_of_find?_eq_some hfind, ?_⟩
    have : e.toLoc = x := by simpa using find?_some hfind
    simp [TypedEdge.endpoints, this]
  · intro hmem
    obtain ⟨e, he, heq⟩ := List.mem_map.mp hmem
    cases hfind : edges.find? fun e' => e'.toLoc = x with
    | none =>
      have := find?_eq_none.mp hfind e he
      simp [TypedEdge.endpoints] at heq
      simp [heq.2] at this
    | some e' =>
      have hmem' := mem_of_find?_eq_some hfind
      have hto : e'.toLoc = x := by simpa using find?_some hfind
      have hpair : e'.endpoints = e.endpoints := by
        have hsnd : e'.endpoints.2 = e.endpoints.2 := by
          rw [heq]
          exact hto
        exact inj_on_of_nodup_map h.admissible.targets
          (List.mem_map_of_mem hmem') (List.mem_map_of_mem he) hsnd
      rw [heq] at hpair
      have : e'.fromLoc = p := congrArg Prod.fst hpair
      simp [sourceOf, hfind, this]

theorem addEdges_typed {g : CopyGraphWithType} {graph : CopyGraph}
    (hgraph : g.graph.addEdges (edges.map TypedEdge.endpoints) = some graph)
    (recorded : ∀ e ∈ edges, ∀ type, g.fromTypes e.fromLoc = some type → type = e.type)
    (one_type : ∀ e ∈ edges, ∀ e' ∈ edges, e.fromLoc = e'.fromLoc → e.type = e'.type) :
    ∃ types, g.addEdges edges = some ⟨graph, types⟩ ∧
      ∀ x, types x = (g.fromTypes x).or (typeOf edges x) := by
  induction edges generalizing g with
  | nil =>
    cases Option.some.inj hgraph
    exact ⟨g.fromTypes, rfl, fun x => by simp [typeOf]⟩
  | cons e edges ih =>
    simp only [map_cons, CopyGraph.addEdges, TypedEdge.endpoints,
      bind_eq_bind, bind_eq_some_iff] at hgraph
    obtain ⟨graph₁, hadd, hrest⟩ := hgraph
    have htype : (g.fromTypes e.fromLoc).getD e.type = e.type := by
      cases hrec : g.fromTypes e.fromLoc with
      | none => rfl
      | some type => exact recorded e (by simp) type hrec
    obtain ⟨types, hedges, htypes⟩ := ih
      (g := ⟨graph₁, Function.update g.fromTypes e.fromLoc (some e.type)⟩) hrest
      (fun e' he' type hrec => by
        by_cases hloc : e'.fromLoc = e.fromLoc
        · rw [← one_type e (by simp) e' (mem_cons_of_mem _ he') hloc.symm]
          simpa [hloc, eq_comm] using hrec
        · exact recorded e' (mem_cons_of_mem _ he') type (by simpa [hloc] using hrec))
      (fun a ha b hb => one_type a (mem_cons_of_mem _ ha) b (mem_cons_of_mem _ hb))
    refine ⟨types, ?_, fun x => ?_⟩
    · simp [CopyGraphWithType.addEdges, CopyGraphWithType.addEdge, htype, hadd, hedges]
    · rw [htypes x]
      by_cases hx : x = e.fromLoc
      · subst x
        have hfirst : typeOf (e :: edges) e.fromLoc = some e.type := by
          simp [typeOf]
        cases hrec : g.fromTypes e.fromLoc with
        | none => simp [hfirst]
        | some type => simp [recorded e (by simp) type hrec]
      · have hskip : typeOf (e :: edges) x = typeOf edges x := by
          simp [typeOf, Ne.symm hx]
        simp [hx, hskip]

theorem Accepted.sourceOf_temp (h : Accepted edges) :
    sourceOf edges kTempLoc = none := by
  cases hx : sourceOf edges kTempLoc with
  | none => rfl
  | some p => exact absurd rfl (h.admissible.no_temp _ (h.sourceOf_iff.mp hx)).2

theorem Accepted.process (h : Accepted edges) {fuel : Nat} (hfuel : 2 * edges.length + 1 < fuel) :
    ∃ g ops instrs, CopyGraphWithType.empty.addEdges edges = some g ∧
      g.process fuel = some ops ∧
      Schedule kTempLoc (0 ≤ ·) (sourceOf edges) instrs ∧
      Types (typeOf edges) instrs ops := by
  obtain ⟨graph, hgraph, hadded⟩ := h.admissible.addEdges
  have hfuel : 2 * (edges.map TypedEdge.endpoints).length + 1 < fuel := by
    simpa using hfuel
  obtain ⟨graph', plain, hrun, -, hschedule⟩ := h.admissible.process hadded hfuel
  have hparent : graph.parent = sourceOf edges := by
    funext x
    apply ext
    intro p
    rw [CopyGraph.Admissible.parent_iff hadded, h.sourceOf_iff]
  rw [hparent] at hschedule
  obtain ⟨types, hedges, htypes⟩ := addEdges_typed (g := CopyGraphWithType.empty) hgraph
    (by simp [CopyGraphWithType.empty]) h.one_type
  have htypes : types = typeOf edges := by
    funext x
    simp [htypes x, CopyGraphWithType.empty]
  subst types
  obtain ⟨ops, hops⟩ := Types.exists_of_schedule hschedule h.sourceOf_temp
    (fun z q hz => by
      obtain ⟨e, he, heq⟩ := List.mem_map.mp (h.sourceOf_iff.mp hz)
      have : e.fromLoc = q := congrArg Prod.fst heq
      exact ⟨e.type, this ▸ h.typeOf_fromLoc he⟩) h.uniform
  have hplain : CopyGraphWithType.typeOps (typeOf edges) plain = some ops := by
    have := hops
    rwa [Types, map_toOp_toInstr] at this
  exact ⟨_, ops, _, hedges, by simp [CopyGraphWithType.process, hrun, hplain],
    hschedule, hops⟩

/--
The typed operations of an accepted edge list give every target the full width
of its source, from every initial state, if and only if no register cycle has
two neighbours, both past its least register, that share a type narrower than
the type of that least register.
-/
theorem process_keeps_width_iff (upper : Nat → Word → Word) (edges : List TypedEdge)
    (h : Accepted edges) (fuel : Nat) (hfuel : 2 * edges.length + 1 < fuel) :
    ∃ g ops, CopyGraphWithType.empty.addEdges edges = some g ∧
      g.process fuel = some ops ∧
      ((∀ σ : Loc → Word, ∀ e ∈ edges,
          (executeTyped upper σ ops e.toLoc).setWidth (bitSize e.type) =
            (σ e.fromLoc).setWidth (bitSize e.type)) ↔
        WidthSafe (sourceOf edges) (typeOf edges)) := by
  obtain ⟨g, ops, instrs, hadd, hrun, hschedule, htypes⟩ := h.process hfuel
  refine ⟨g, ops, hadd, hrun, ?_⟩
  rw [← executeTyped_iff_widthSafe upper hschedule h.sourceOf_temp htypes]
  refine forall_congr' fun σ => ⟨fun hall z q hz => ?_, fun hall e he => ?_⟩
  · obtain ⟨e, he, heq⟩ := List.mem_map.mp (h.sourceOf_iff.mp hz)
    obtain ⟨rfl, rfl⟩ : e.fromLoc = q ∧ e.toLoc = z := by
      simpa [TypedEdge.endpoints] using heq
    rw [h.typeOf_fromLoc he]
    exact setWidth_eq_iff.mp (hall e he)
  · have hsource : sourceOf edges e.toLoc = some e.fromLoc :=
      h.sourceOf_iff.mpr (List.mem_map_of_mem he)
    have := hall e.toLoc e.fromLoc hsource
    rw [h.typeOf_fromLoc he] at this
    exact setWidth_eq_iff.mpr this

def threeCycle : List TypedEdge :=
  [⟨0, 2, .kObject⟩, ⟨1, 0, .k32bit⟩, ⟨2, 1, .k32bit⟩]

theorem threeCycle_accepted : Accepted threeCycle where
  admissible := ⟨by decide, by decide, by decide⟩
  one_type := by decide
  uniform := by
    intro leader rest _ x _ y _ hx
    obtain ⟨e, hfind, htype⟩ := map_eq_some_iff.mp hx
    have hmem := mem_of_find?_eq_some hfind
    have hnone : ∀ e ∈ threeCycle, e.type ≠ .kDouble := by decide
    exact absurd htype (hnone e hmem)

theorem process_keeps_width_iff_threeCycle :
    ∃ g ops, CopyGraphWithType.empty.addEdges threeCycle = some g ∧
      g.process 8 = some ops ∧
      ((∀ σ : Loc → Word, ∀ e ∈ threeCycle,
          (executeTyped (fun _ _ => 0) σ ops e.toLoc).setWidth (bitSize e.type) =
            (σ e.fromLoc).setWidth (bitSize e.type)) ↔
        WidthSafe (sourceOf threeCycle) (typeOf threeCycle)) :=
  process_keeps_width_iff (fun _ _ => 0) threeCycle threeCycle_accepted 8 (by decide)

/-- The pointer is cut to 32 bits by the second exchange of the cycle. -/
theorem process_truncates_threeCycle :
    Accepted threeCycle ∧
    ∃ g ops, CopyGraphWithType.empty.addEdges threeCycle = some g ∧
      g.process 8 = some ops ∧
      ∃ σ : Loc → Word, ∃ e ∈ threeCycle,
        (executeTyped (fun _ _ => 0) σ ops e.toLoc).setWidth (bitSize e.type) ≠
          (σ e.fromLoc).setWidth (bitSize e.type) := by
  refine ⟨threeCycle_accepted, _, [⟨⟨.kExchange, 0, 1⟩, .kObject⟩,
    ⟨⟨.kExchange, 1, 2⟩, .k32bit⟩], rfl, by decide, fun _ => BitVec.allOnes 64,
    ⟨0, 2, .kObject⟩, by decide, by decide⟩

end CinderX.Jit.Codegen
