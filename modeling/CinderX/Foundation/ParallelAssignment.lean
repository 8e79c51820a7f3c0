import CinderX.Foundation.Basic

/-!
# Sequential schedules of parallel assignments

A parallel assignment is a partial map `par`: location `x` receives the value
that `par x` held at the start.  A `Schedule` of it is a sequence of
assignments and swaps that retires the map step by step: a location nobody
reads any more may be written, a location may be saved to a temporary, and a
closed cycle of swappable locations may be rotated by swaps.
-/

namespace CinderX.Foundation.ParallelAssignment

open List

variable {α V : Type*}

inductive Instr (α : Type*) where
  | assign (source target : α)
  | swap (first second : α)
  deriving DecidableEq

section Execution

variable [DecidableEq α]

def Instr.run (σ : α → V) : Instr α → α → V
  | .assign source target => Function.update σ target (σ source)
  | .swap first second =>
    Function.update (Function.update σ first (σ second)) second (σ first)

def runAll (σ : α → V) (instrs : List (Instr α)) : α → V :=
  instrs.foldl Instr.run σ

@[simp] theorem runAll_nil (σ : α → V) : runAll σ [] = σ := rfl

@[simp] theorem runAll_cons (σ : α → V) (i : Instr α) (is : List (Instr α)) :
    runAll σ (i :: is) = runAll (i.run σ) is := rfl

@[simp] theorem runAll_append (σ : α → V) (is js : List (Instr α)) :
    runAll σ (is ++ js) = runAll (runAll σ is) js := by
  simp [runAll]

end Execution

def assigned (par : α → Option α) (σ : α → V) (x : α) : V :=
  match par x with
  | none => σ x
  | some p => σ p

section Chains

variable {par : α → Option α} {x : α}

theorem assigned_none (h : par x = none) (σ : α → V) : assigned par σ x = σ x := by
  simp [assigned, h]

variable {p : α}

theorem assigned_some (h : par x = some p) (σ : α → V) : assigned par σ x = σ p := by
  simp [assigned, h]

variable {leader : α} {rest : List α}

theorem chain_succ_mem (chain : (leader :: rest).IsChain (fun x y => par x = some y))
    (hx : x ∈ leader :: rest) (hlast : x ≠ (leader :: rest).getLast (by simp))
    (hp : par x = some p) :
    p ∈ rest := by
  induction rest generalizing leader with
  | nil => simp_all
  | cons y rest ih =>
    obtain ⟨hy, htail⟩ := isChain_cons_cons.mp chain
    rcases mem_cons.mp hx with rfl | hx
    · have : p = y := by simpa [hy] using hp.symm
      simp [this]
    · rw [getLast_cons (by simp)] at hlast
      exact mem_cons_of_mem _ (ih htail hx hlast)

theorem chain_exists_succ (chain : (leader :: rest).IsChain (fun x y => par x = some y))
    (hx : x ∈ leader :: rest) (hlast : x ≠ (leader :: rest).getLast (by simp)) :
    ∃ p, par x = some p := by
  induction rest generalizing leader with
  | nil => simp_all
  | cons y rest ih =>
    obtain ⟨hy, htail⟩ := isChain_cons_cons.mp chain
    rcases mem_cons.mp hx with rfl | hx
    · exact ⟨y, hy⟩
    · rw [getLast_cons (by simp)] at hlast
      exact ih htail hx hlast

theorem chain_exists_pred (chain : (leader :: rest).IsChain (fun x y => par x = some y))
    (hp : p ∈ rest) : ∃ q ∈ (leader :: rest).dropLast, par q = some p := by
  induction rest generalizing leader with
  | nil => simp at hp
  | cons y rest ih =>
    obtain ⟨hy, htail⟩ := isChain_cons_cons.mp chain
    rw [dropLast_cons_of_ne_nil (by simp)]
    rcases mem_cons.mp hp with rfl | hp
    · exact ⟨leader, by simp, hy⟩
    · obtain ⟨q, hq, hqp⟩ := ih htail hp
      exact ⟨q, mem_cons_of_mem _ hq, hqp⟩

variable {par' : α → Option α} {l rest' : List α}

theorem chain_congr
    (chain : l.IsChain (fun x y => par x = some y)) (agree : ∀ x ∈ l.dropLast, par' x = par x) :
    l.IsChain (fun x y => par' x = some y) := by
  induction l with
  | nil => simp
  | cons x l ih =>
    cases l with
    | nil => simp
    | cons y l =>
      rw [dropLast_cons_of_ne_nil (by simp)] at agree
      obtain ⟨hy, htail⟩ := isChain_cons_cons.mp chain
      refine isChain_cons_cons.mpr ⟨?_, ih htail fun z hz => ?_⟩
      · rw [agree x (by simp), hy]
      · exact agree z (mem_cons_of_mem _ hz)

def chainSwaps : α → List α → List (Instr α)
  | _, [] => []
  | x, y :: rest => .swap x y :: chainSwaps y rest

/-- Following `par` from `leader` passes through `rest` and comes back. -/
structure ClosedChain (par : α → Option α) (leader : α) (rest : List α) : Prop where
  nodup : (leader :: rest).Nodup
  chain : (leader :: rest).IsChain (fun x y => par x = some y)
  closes : par ((leader :: rest).getLast (by simp)) = some leader

structure IsCycle (par : α → Option α) (leader : α) (rest : List α) : Prop
    extends ClosedChain par leader rest where
  unshared : ∀ x p, par x = some p → p ∈ leader :: rest → x ∈ leader :: rest

theorem ClosedChain.exists_succ (hcycle : ClosedChain par leader rest) (hx : x ∈ leader :: rest) :
    ∃ p ∈ leader :: rest, par x = some p := by
  by_cases hlast : x = (leader :: rest).getLast (by simp)
  · exact ⟨leader, by simp, hlast ▸ hcycle.closes⟩
  · obtain ⟨p, hp⟩ := chain_exists_succ hcycle.chain hx hlast
    exact ⟨p, mem_cons_of_mem _ (chain_succ_mem hcycle.chain hx hlast hp), hp⟩

theorem ClosedChain.exists_pred (hcycle : ClosedChain par leader rest) (hp : p ∈ leader :: rest) :
    ∃ q, par q = some p := by
  rcases mem_cons.mp hp with rfl | hp
  · exact ⟨_, hcycle.closes⟩
  · obtain ⟨q, -, hq⟩ := chain_exists_pred hcycle.chain hp
    exact ⟨q, hq⟩

theorem ClosedChain.congr (hcycle : ClosedChain par leader rest)
    (agree : ∀ x ∈ leader :: rest, par' x = par x) :
    ClosedChain par' leader rest where
  nodup := hcycle.nodup
  chain := chain_congr hcycle.chain fun x hx => agree x (dropLast_subset _ hx)
  closes := (agree _ (getLast_mem _)).trans hcycle.closes

variable {S : α → Prop}

theorem chain_last_mem (follows : ∀ x p, S x → par x = some p → S p)
    (chain : (leader :: rest).IsChain (fun x y => par x = some y)) (hx : x ∈ leader :: rest)
    (hS : S x) :
    S ((leader :: rest).getLast (by simp)) := by
  induction rest generalizing leader x with
  | nil => simpa [mem_singleton.mp hx] using hS
  | cons y rest ih =>
    obtain ⟨hy, htail⟩ := isChain_cons_cons.mp chain
    rw [getLast_cons (by simp)]
    rcases mem_cons.mp hx with rfl | hx
    · exact ih htail (by simp) (follows _ _ hS hy)
    · exact ih htail hx hS

theorem chain_subset (follows : ∀ x p, S x → par x = some p → S p)
    (chain : (leader :: rest).IsChain (fun x y => par x = some y)) (hS : S leader) :
    ∀ x ∈ leader :: rest, S x := by
  induction rest generalizing leader with
  | nil => simpa using hS
  | cons y rest ih =>
    obtain ⟨hy, htail⟩ := isChain_cons_cons.mp chain
    intro x hx
    rcases mem_cons.mp hx with rfl | hx
    · exact hS
    · exact ih htail (follows _ _ hS hy) x hx

theorem ClosedChain.subset (follows : ∀ x p, S x → par x = some p → S p)
    (hcycle : ClosedChain par leader rest) (hx : x ∈ leader :: rest) (hS : S x) :
    ∀ y ∈ leader :: rest, S y :=
  chain_subset follows hcycle.chain
    (follows _ _ (chain_last_mem follows hcycle.chain hx hS) hcycle.closes)

theorem ClosedChain.mem_follows (hcycle : ClosedChain par leader rest) (x p : α)
    (hx : x ∈ leader :: rest) (hp : par x = some p) : p ∈ leader :: rest := by
  obtain ⟨q, hq, hxq⟩ := hcycle.exists_succ hx
  rw [hp] at hxq
  exact Option.some.inj hxq ▸ hq

theorem chain_unique {start stop : α} (chain : (start :: rest).IsChain (fun x y => par x = some y))
    (chain' : (start :: rest').IsChain (fun x y => par x = some y))
    (ends : par ((start :: rest).getLast (by simp)) = some stop)
    (ends' : par ((start :: rest').getLast (by simp)) = some stop) (hstop : stop ∉ rest)
    (hstop' : stop ∉ rest') : rest = rest' := by
  induction rest generalizing start rest' with
  | nil =>
    cases rest' with
    | nil => rfl
    | cons y' rest' =>
      have hy' := (isChain_cons_cons.mp chain').1
      have hstart : par start = some stop := ends
      rw [hstart] at hy'
      exact absurd (by simp [Option.some.inj hy']) hstop'
  | cons y rest ih =>
    obtain ⟨hy, htail⟩ := isChain_cons_cons.mp chain
    cases rest' with
    | nil =>
      have hstart : par start = some stop := ends'
      rw [hstart] at hy
      exact absurd (by simp [Option.some.inj hy]) hstop
    | cons y' rest' =>
      obtain ⟨hy', htail'⟩ := isChain_cons_cons.mp chain'
      have heq : y' = y := by simpa [hy] using hy'.symm
      subst y'
      rw [getLast_cons (by simp)] at ends ends'
      rw [ih htail htail' ends ends'
        (fun hmem => hstop (mem_cons_of_mem _ hmem))
        (fun hmem => hstop' (mem_cons_of_mem _ hmem))]

theorem ClosedChain.eq_of_mem [PartialOrder α] {leader' : α}
    (hcycle : ClosedChain par leader rest) (hcycle' : ClosedChain par leader' rest')
    (least : ∀ x ∈ rest, leader ≤ x) (least' : ∀ x ∈ rest', leader' ≤ x) (hx : x ∈ leader :: rest)
    (hx' : x ∈ leader' :: rest') :
    leader = leader' ∧ rest = rest' := by
  have hsub := hcycle.subset (S := (· ∈ leader' :: rest')) hcycle'.mem_follows hx hx'
  have hsub' := hcycle'.subset (S := (· ∈ leader :: rest)) hcycle.mem_follows hx' hx
  have heq : leader = leader' := by
    rcases mem_cons.mp (hsub leader (by simp)) with heq | hmem
    · exact heq
    · rcases mem_cons.mp (hsub' leader' (by simp)) with heq | hmem'
      · exact heq.symm
      · exact le_antisymm (least leader' hmem') (least' leader hmem)
  subst leader'
  exact ⟨rfl, chain_unique hcycle.chain hcycle'.chain hcycle.closes hcycle'.closes
    (nodup_cons.mp hcycle.nodup).1 (nodup_cons.mp hcycle'.nodup).1⟩

theorem getLast_notMem_dropLast (hne : l ≠ []) (nodup : l.Nodup) :
    l.getLast hne ∉ l.dropLast := by
  intro hmem
  rw [← dropLast_append_getLast hne, nodup_append] at nodup
  exact nodup.2.2 _ hmem _ (by simp) rfl

theorem walk_closes_or_leaves (injective : ∀ {x y p}, par x = some p → par y = some p → x = y)
    (nodup : (leader :: rest).Nodup)
    (chain : (leader :: rest).IsChain (fun x y => par x = some y))
    (hp : par ((leader :: rest).getLast (by simp)) = some p) :
    p = leader ∨ p ∉ leader :: rest := by
  by_cases hmem : p ∈ rest
  · obtain ⟨q, hq, hqp⟩ := chain_exists_pred chain hmem
    rw [injective hqp hp] at hq
    exact absurd hq (getLast_notMem_dropLast (by simp) nodup)
  · by_cases heq : p = leader
    · exact .inl heq
    · exact .inr (by simp [heq, hmem])

/--
Where `par` permutes a finite set, following it from any element closes a
cycle.  The induction is on the number of elements the walk has not met yet.
-/
theorem exists_isCycle {nodes : List α} (total : ∀ x ∈ nodes, ∃ p ∈ nodes, par x = some p)
    (injective : ∀ {x y p}, par x = some p → par y = some p → x = y) (hleader : leader ∈ nodes) :
    ∃ rest, IsCycle par leader rest ∧ ∀ x ∈ rest, x ∈ nodes := by
  suffices grow : ∀ k rest, nodes.length + 1 ≤ (leader :: rest).length + k →
      (leader :: rest).Nodup →
      (leader :: rest).IsChain (fun x y => par x = some y) →
      (∀ x ∈ rest, x ∈ nodes) →
      ∃ rest, IsCycle par leader rest ∧ ∀ x ∈ rest, x ∈ nodes by
    exact grow nodes.length [] (by rw [length_singleton]; omega) (by simp) (by simp) (by simp)
  intro k
  induction k with
  | zero =>
    intro rest hlength nodup chain hmem
    have hsubset : leader :: rest ⊆ nodes :=
      cons_subset.mpr ⟨hleader, hmem⟩
    have := (nodup.subperm hsubset).length_le
    omega
  | succ k ih =>
    intro rest hlength nodup chain hmem
    have hlast : (leader :: rest).getLast (by simp) ∈ nodes := by
      rcases mem_cons.mp (getLast_mem (l := leader :: rest) (by simp))
        with heq | hin
      · rwa [heq]
      · exact hmem _ hin
    obtain ⟨p, hpmem, hp⟩ := total _ hlast
    rcases walk_closes_or_leaves injective nodup chain hp with rfl | hout
    · refine ⟨rest, ⟨⟨nodup, chain, hp⟩, ?_⟩, hmem⟩
      intro x q hx hq
      rcases mem_cons.mp hq with rfl | hq
      · rw [injective hx hp]
        exact getLast_mem _
      · obtain ⟨y, hy, hyq⟩ := chain_exists_pred chain hq
        rw [injective hx hyq]
        exact dropLast_subset _ hy
    · have happend : leader :: (rest ++ [p]) = (leader :: rest) ++ [p] := rfl
      refine ih (rest ++ [p]) ?_ ?_ ?_ ?_
      · simp at hlength ⊢
        omega
      · rw [happend, nodup_append]
        exact ⟨nodup, by simp, by
          intro x hx y hy
          rw [mem_singleton.mp hy]
          rintro rfl
          exact hout hx⟩
      · rw [happend, isChain_append]
        refine ⟨chain, by simp, ?_⟩
        intro x hx y hy
        rw [getLast?_eq_some_getLast (by simp)] at hx
        simp only [Option.mem_def, Option.some.injEq, head?_cons] at hx hy
        rw [← hx, ← hy]
        exact hp
      · intro x hx
        rcases mem_append.mp hx with hx | hx
        · exact hmem x hx
        · rwa [mem_singleton.mp hx]

end Chains

def retire [DecidableEq α] (par : α → Option α) (xs : List α) (x : α) : Option α :=
  if x ∈ xs then none else par x

inductive Schedule [DecidableEq α] [LE α] (temp : α) (swappable : α → Prop) :
    (α → Option α) → List (Instr α) → Prop where
  | done {par} (idle : ∀ x, par x = none) : Schedule temp swappable par []
  | leaf {par instrs} (x p : α) (reads : par x = some p)
      (unread : ∀ y, par y ≠ some x)
      (tail : Schedule temp swappable (Function.update par x none) instrs) :
      Schedule temp swappable par (.assign p x :: instrs)
  | save {par instrs} (x p : α) (reads : par x = some p)
      (memory : ¬ swappable p) (fresh : par temp = none)
      (unread : ∀ y, par y ≠ some temp)
      (tail : Schedule temp swappable (Function.update par x (some temp)) instrs) :
      Schedule temp swappable par (.assign p temp :: instrs)
  | cycle {par instrs} (leader : α) (rest : List α)
      (isCycle : IsCycle par leader rest)
      (registers : ∀ x ∈ leader :: rest, swappable x)
      (least : ∀ x ∈ rest, leader ≤ x)
      (tail : Schedule temp swappable (retire par (leader :: rest)) instrs) :
      Schedule temp swappable par (chainSwaps leader rest ++ instrs)

variable [DecidableEq α] {par : α → Option α} {x p leader : α} {rest : List α} {S : α → Prop}

theorem runAll_chainSwaps_notMem (σ : α → V) (hx : x ∉ leader :: rest) :
    runAll σ (chainSwaps leader rest) x = σ x := by
  induction rest generalizing leader σ with
  | nil => rfl
  | cons y rest ih =>
    rw [chainSwaps, runAll_cons, ih]
    · simp only [mem_cons, not_or] at hx
      simp [Instr.run, hx.1, hx.2.1]
    · exact fun h => hx (mem_cons_of_mem _ h)

theorem runAll_chainSwaps_last (σ : α → V) (nodup : (leader :: rest).Nodup) :
    runAll σ (chainSwaps leader rest) ((leader :: rest).getLast (by simp)) =
      σ leader := by
  induction rest generalizing leader σ with
  | nil => rfl
  | cons y rest ih =>
    rw [chainSwaps, runAll_cons, getLast_cons (by simp)]
    rw [ih _ nodup.of_cons]
    simp [Instr.run]

theorem runAll_chainSwaps_mem (σ : α → V) (nodup : (leader :: rest).Nodup)
    (chain : (leader :: rest).IsChain (fun x y => par x = some y)) (hx : x ∈ leader :: rest)
    (hlast : x ≠ (leader :: rest).getLast (by simp)) (hp : par x = some p) :
    runAll σ (chainSwaps leader rest) x = σ p := by
  induction rest generalizing leader σ with
  | nil => simp_all
  | cons y rest ih =>
    have hy : par leader = some y := (isChain_cons_cons.mp chain).1
    have hnotMem : leader ∉ y :: rest := (nodup_cons.mp nodup).1
    rw [chainSwaps, runAll_cons]
    rcases mem_cons.mp hx with rfl | htail
    · have hpy : p = y := by simpa [hy] using hp.symm
      rw [runAll_chainSwaps_notMem _ hnotMem]
      have hne : x ≠ y := fun h => hnotMem (h ▸ mem_cons_self)
      simp [Instr.run, hne, hpy]
    · have hne : x ≠ leader := fun h => hnotMem (h ▸ htail)
      rw [getLast_cons (by simp)] at hlast
      rw [ih _ nodup.of_cons (isChain_cons_cons.mp chain).2 htail hlast]
      have hpMem : p ∈ rest :=
        chain_succ_mem (isChain_cons_cons.mp chain).2 htail hlast hp
      have hpLeader : p ≠ leader :=
        fun h => hnotMem (h ▸ mem_cons_of_mem _ hpMem)
      have hpy : p ≠ y := fun h =>
        (nodup_cons.mp nodup.of_cons).1 (h ▸ hpMem)
      simp [Instr.run, hpLeader, hpy]

theorem runAll_cycle (hcycle : IsCycle par leader rest) (σ : α → V) (hx : x ∈ leader :: rest) :
    runAll σ (chainSwaps leader rest) x = assigned par σ x := by
  by_cases hlast : x = (leader :: rest).getLast (by simp)
  · rw [hlast, runAll_chainSwaps_last σ hcycle.nodup]
    exact (assigned_some hcycle.closes σ).symm
  · obtain ⟨p, -, hp⟩ := hcycle.exists_succ hx
    rw [runAll_chainSwaps_mem σ hcycle.nodup hcycle.chain hx hlast hp]
    exact (assigned_some hp σ).symm

variable {temp y : α} {swappable : α → Prop} {instrs : List (Instr α)}

theorem Schedule.runAll_eq [LE α]
    (schedule : Schedule temp swappable par instrs) (σ : α → V) (hx : x ≠ temp) :
    runAll σ instrs x = assigned par σ x := by
  induction schedule generalizing σ with
  | done idle => simp [assigned_none (idle x)]
  | @leaf par instrs y p reads unread tail ih =>
    rw [runAll_cons, ih]
    by_cases hxy : x = y
    · subst x
      rw [assigned_none (by simp), assigned_some reads]
      simp [Instr.run]
    · cases hpx : par x with
      | none => rw [assigned_none (by simp [hxy, hpx]), assigned_none hpx]; simp [Instr.run, hxy]
      | some q =>
        have hqy : q ≠ y := fun h => unread x (h ▸ hpx)
        rw [assigned_some (by simp [hxy, hpx]; rfl), assigned_some hpx]
        simp [Instr.run, hqy]
  | @save par instrs y p reads memory fresh unread tail ih =>
    rw [runAll_cons, ih]
    by_cases hxy : x = y
    · subst x
      rw [assigned_some (by simp; rfl), assigned_some reads]
      simp [Instr.run]
    · cases hpx : par x with
      | none => rw [assigned_none (by simp [hxy, hpx]), assigned_none hpx]; simp [Instr.run, hx]
      | some q =>
        have hq : q ≠ temp := fun h => unread x (h ▸ hpx)
        rw [assigned_some (by simp [hxy, hpx]; rfl), assigned_some hpx]
        simp [Instr.run, hq]
  | @cycle par instrs leader rest isCycle registers least tail ih =>
    rw [runAll_append, ih]
    by_cases hmem : x ∈ leader :: rest
    · rw [assigned_none (by simp [retire, hmem]), runAll_cycle isCycle σ hmem]
    · cases hpx : par x with
      | none =>
        rw [assigned_none (by simp [retire, hpx]), assigned_none hpx]
        exact runAll_chainSwaps_notMem σ hmem
      | some q =>
        have hq : q ∉ leader :: rest :=
          fun h => hmem (isCycle.unshared x q hpx h)
        rw [assigned_some (by simpa [retire, hmem] using hpx), assigned_some hpx]
        exact runAll_chainSwaps_notMem σ hq

omit [DecidableEq α] in
theorem swap_mem_chainSwaps (h : Instr.swap x y ∈ chainSwaps leader rest) :
    x ∈ leader :: rest ∧ y ∈ leader :: rest := by
  induction rest generalizing leader with
  | nil => simp [chainSwaps] at h
  | cons z rest ih =>
    rcases mem_cons.mp h with heq | h
    · cases heq
      simp
    · obtain ⟨hx, hy⟩ := ih h
      exact ⟨mem_cons_of_mem _ hx, mem_cons_of_mem _ hy⟩

theorem Schedule.swap_swappable [LE α]
    (schedule : Schedule temp swappable par instrs) (h : Instr.swap x y ∈ instrs) :
    swappable x ∧ swappable y := by
  induction schedule with
  | done => simp at h
  | leaf _ _ _ _ _ ih => exact ih (by simpa using h)
  | save _ _ _ _ _ _ _ ih => exact ih (by simpa using h)
  | cycle leader rest isCycle registers _ _ ih =>
    rcases mem_append.mp h with h | h
    · obtain ⟨hx, hy⟩ := swap_mem_chainSwaps h
      exact ⟨registers x hx, registers y hy⟩
    · exact ih h

end CinderX.Foundation.ParallelAssignment
