import CinderX.Foundation.Dominance

/-!
# Trees that approximate the dominators

A tree is a map from nodes to their parents.  The nodes are numbered such that an edge leads
either forward or back to a node from which its source is reached forward.  In each pass the
parent of every node becomes the lowest common ancestor of its predecessors.
-/

namespace CinderX.Foundation.Dominance

open Relation List Function

variable {α : Type*}

def Chain (D : α → Option α) : α → α → Prop := ReflTransGen fun a b => D a = some b

section Chains

variable {D E : α → Option α} {a b c : α}

theorem Chain.cons (h : D a = some b) (h' : Chain D b c) : Chain D a c := .head h h'

theorem chain_iff (h : D a = some b) : Chain D a c ↔ c = a ∨ Chain D b c := by
  constructor
  · intro hchain
    rcases ReflTransGen.cases_head hchain with rfl | ⟨b', hb', hrest⟩
    · exact Or.inl rfl
    · obtain rfl := Option.some.inj (h.symm.trans hb')
      exact Or.inr hrest
  · rintro (rfl | hchain)
    · exact .refl
    · exact .cons h hchain

theorem Chain.congr {S : α → Prop} (h : Chain D a b) (ha : S a) (heq : ∀ x, S x → D x = E x)
    (hclosed : ∀ x y, S x → D x = some y → S y) : Chain E a b := by
  induction h using ReflTransGen.head_induction_on with
  | refl => exact .refl
  | head hlink _ ih =>
    refine .cons ((heq _ ha).symm.trans hlink) (ih (hclosed _ _ ha hlink))

end Chains

section Forward

variable (edge : α → α → Prop) (idx : α → Nat)

def Forward (a b : α) : Prop := edge a b ∧ idx a < idx b

/-- `nodes` are the reachable nodes; their numbers follow a depth-first search. -/
structure Numbering (entry : α) (nodes : List α) : Prop where
  entry_mem : entry ∈ nodes
  injective : ∀ a ∈ nodes, ∀ b ∈ nodes, idx a = idx b → a = b
  closed : ∀ a ∈ nodes, ∀ b, edge a b → b ∈ nodes
  reached : ∀ a ∈ nodes, ReflTransGen (Forward edge idx) entry a
  edges : ∀ a ∈ nodes, ∀ b, edge a b →
    idx a < idx b ∨ ReflTransGen (Forward edge idx) b a

end Forward

variable {edge : α → α → Prop} {idx : α → Nat} {entry : α} {nodes : List α}

theorem le_of_forward {a b : α} (h : ReflTransGen (Forward edge idx) a b) : idx a ≤ idx b := by
  induction h with
  | refl => exact le_rfl
  | tail _ hforward ih => exact ih.trans hforward.2.le

theorem reachable_of_forward {a : α} (h : ReflTransGen (Forward edge idx) entry a) :
    Reachable edge entry a := by
  induction h with
  | refl => exact ⟨[], .entry⟩
  | tail _ hforward ih =>
    obtain ⟨walked, hwalk⟩ := ih
    exact ⟨_, .step hwalk hforward.1⟩

theorem Dominates.of_forward {a b z : α} (h : ReflTransGen (Forward edge idx) a b)
    (hz : Dominates edge entry z b) (hlt : idx z < idx a) : Dominates edge entry z a := by
  induction h with
  | refl => exact hz
  | tail hreach hforward ih =>
    refine ih (hz.of_edge ?_ hforward.1)
    rintro rfl
    have hle := le_of_forward hreach
    have hlt' := hforward.2
    omega

namespace Numbering

variable (n : Numbering edge idx entry nodes)

include n in
theorem mem_of_walk {walked : List α} {a : α} (h : Walk edge entry walked a) : a ∈ nodes := by
  induction h with
  | entry => exact n.entry_mem
  | step _ hedge ih => exact n.closed _ ih _ hedge

include n in
theorem reachable_iff {a : α} : Reachable edge entry a ↔ a ∈ nodes := by
  constructor
  · rintro ⟨walked, hwalk⟩
    exact n.mem_of_walk hwalk
  · exact fun ha => reachable_of_forward (n.reached a ha)

include n in
theorem exists_forward {a : α} (ha : a ∈ nodes) (hne : a ≠ entry) :
    ∃ p ∈ nodes, Forward edge idx p a := by
  rcases ReflTransGen.cases_tail (n.reached a ha) with rfl | ⟨p, hp, hforward⟩
  · exact absurd rfl hne
  · refine ⟨p, ?_, hforward⟩
    clear hforward
    induction hp with
    | refl => exact n.entry_mem
    | tail _ hforward ih => exact n.closed _ ih _ hforward.1

end Numbering

structure Tree (idx : α → Nat) (entry : α) (D : α → Option α) : Prop where
  root : D entry = some entry
  parent : ∀ {a b}, D a = some b → a ≠ entry → idx b < idx a ∧ (D b).isSome

namespace Tree

variable {D : α → Option α} (t : Tree idx entry D) {a b z : α}

include t

theorem le (h : D a = some b) : idx b ≤ idx a := by
  by_cases ha : a = entry
  · subst ha
    obtain rfl := Option.some.inj (t.root.symm.trans h)
    exact le_rfl
  · exact (t.parent h ha).1.le

theorem isSome (h : D a = some b) : (D b).isSome := by
  by_cases ha : a = entry
  · subst ha
    obtain rfl := Option.some.inj (t.root.symm.trans h)
    simp [t.root]
  · exact (t.parent h ha).2

theorem isSome_of_chain (h : Chain D a z) (ha : (D a).isSome) : (D z).isSome := by
  induction h with
  | refl => exact ha
  | tail _ hlink _ => exact t.isSome hlink

theorem chain_entry (h : Chain D entry z) : z = entry := by
  induction h with
  | refl => rfl
  | tail _ hlink ih =>
    subst ih
    exact (Option.some.inj (t.root.symm.trans hlink)).symm

theorem chain_lt (h : Chain D a z) (hne : z ≠ a) : idx z < idx a := by
  induction h using ReflTransGen.head_induction_on with
  | refl => exact absurd rfl hne
  | @head a c hlink hrest ih =>
    have ha : a ≠ entry := by
      rintro rfl
      exact hne (t.chain_entry (.cons hlink hrest))
    have hlt := (t.parent hlink ha).1
    by_cases hz : z = c
    · exact hz ▸ hlt
    · exact (ih hz).trans hlt

theorem chain_le (h : Chain D a z) : idx z ≤ idx a := by
  by_cases hne : z = a
  · exact hne ▸ le_rfl
  · exact (t.chain_lt h hne).le

theorem chain_congr {E : α → Option α} {bound : Nat} (h : Chain D a z) (ha : idx a < bound)
    (heq : ∀ x, idx x < bound → D x = E x) : Chain E a z :=
  h.congr (S := fun x => idx x < bound) ha heq fun _ _ hx hlink => (t.le hlink).trans_lt hx

theorem chain_of_isSome (ha : (D a).isSome) : Chain D a entry := by
  induction hidx : idx a using Nat.strongRecOn generalizing a with
  | ind i ih =>
    obtain ⟨b, hb⟩ := Option.isSome_iff_exists.mp ha
    by_cases hne : a = entry
    · subst hne
      exact .refl
    · obtain ⟨hlt, hsome⟩ := t.parent hb hne
      exact .cons hb (ih (idx b) (hidx ▸ hlt) hsome rfl)

end Tree

variable (edge) in
/-- The ancestors of `m` are the common ancestors of the predecessors that have a parent. -/
def Meets (D : α → Option α) (b m : α) : Prop :=
  ∀ z, Chain D m z ↔ ∀ p, edge p b → (D p).isSome → Chain D p z

variable (edge idx entry nodes) in
structure Approximates (D : α → Option α) : Prop extends Tree idx entry D where
  mem : ∀ {a}, (D a).isSome → a ∈ nodes
  forward : ∀ {a b}, D a = some b → ReflTransGen (Forward edge idx) b a
  dominators : ∀ {a z}, (D a).isSome → Dominates edge entry z a → Chain D a z

section Update

variable [DecidableEq α] {D : α → Option α} {b m : α}

theorem Chain.update {a z : α} (h : Chain D a z) : Chain (Function.update D b (some m)) a z ∨
    Chain D a b ∧ Chain (Function.update D b (some m)) a b ∧ z ≠ b ∧ Chain D b z := by
  induction h using ReflTransGen.head_induction_on with
  | refl => exact Or.inl .refl
  | @head a c hlink hrest ih =>
    by_cases ha : a = b
    · subst ha
      by_cases hz : z = a
      · exact Or.inl (hz ▸ .refl)
      · exact Or.inr ⟨.refl, .refl, hz, .cons hlink hrest⟩
    · have hlink' : Function.update D b (some m) a = some c := by
        rwa [update_of_ne ha]
      rcases ih with hchain | ⟨hb, hb', hrest⟩
      · exact Or.inl (.cons hlink' hchain)
      · exact Or.inr ⟨.cons hlink hb, .cons hlink' hb', hrest⟩

namespace Approximates

variable (h : Approximates edge idx entry nodes D)

omit [DecidableEq α] in
include h in
theorem forward_of_chain {a z : α} (hchain : Chain D a z) :
    ReflTransGen (Forward edge idx) z a := by
  induction hchain with
  | refl => exact .refl
  | tail _ hlink ih => exact (h.forward hlink).trans ih

include h in
theorem update (hb : b ∈ nodes) (hne : b ≠ entry) (hmeets : Meets edge D b m) {q : α}
    (hq : Forward edge idx q b) (hsome : (D q).isSome) :
    Approximates edge idx entry nodes (Function.update D b (some m)) ∧ idx m < idx b := by
  have hqm : Chain D q m := (hmeets m).mp .refl q hq.1 hsome
  have hlt : idx m < idx b := (h.toTree.chain_le hqm).trans_lt hq.2
  have hm : (D m).isSome := h.toTree.isSome_of_chain hqm hsome
  have hbelow : ∀ x, idx x < idx b → D x = Function.update D b (some m) x := by
    intro x hx
    rw [update_of_ne]
    rintro rfl
    exact hx.false
  have hkept : ∀ {x}, (D x).isSome → (Function.update D b (some m) x).isSome := by
    intro x hx
    by_cases hxb : x = b
    · subst hxb
      simp
    · rwa [update_of_ne hxb]
  -- the dominators of the node itself
  have hown : ∀ {z}, Dominates edge entry z b → Chain (Function.update D b (some m)) b z := by
    intro z hz
    by_cases hzb : z = b
    · exact hzb ▸ .refl
    · have hchain : Chain D m z := (hmeets z).mpr fun p hp hsome =>
        h.dominators hsome (hz.of_edge hzb hp)
      exact .cons (update_self _ _ _) (h.toTree.chain_congr hchain hlt hbelow)
  refine ⟨⟨⟨?_, fun {a c} hlink ha => ?_⟩, fun {a} ha => ?_, fun {a c} hlink => ?_,
    fun {a z} ha hz => ?_⟩, hlt⟩
  · rw [update_of_ne hne.symm]
    exact h.root
  · by_cases hab : a = b
    · subst hab
      rw [update_self] at hlink
      cases hlink
      exact ⟨hlt, hkept hm⟩
    · rw [update_of_ne hab] at hlink
      obtain ⟨hlt', hsome'⟩ := h.parent hlink ha
      exact ⟨hlt', hkept hsome'⟩
  · by_cases hab : a = b
    · exact hab ▸ hb
    · rw [update_of_ne hab] at ha
      exact h.mem ha
  · by_cases hab : a = b
    · subst hab
      rw [update_self] at hlink
      cases hlink
      exact (h.forward_of_chain hqm).tail hq
    · rw [update_of_ne hab] at hlink
      exact h.forward hlink
  · by_cases hab : a = b
    · subst hab
      exact hown hz
    · rw [update_of_ne hab] at ha
      rcases (h.dominators ha hz).update (b := b) (m := m) with hchain | ⟨hab', hab'', hzb, hbz⟩
      · exact hchain
      · refine hab''.trans (hown ?_)
        exact .of_forward (h.forward_of_chain hab') hz (h.toTree.chain_lt hbz hzb)

end Approximates

end Update

/-! ## Passes -/

def mix (idx : α → Nat) (D' D : α → Option α) (b : α) : α → Option α :=
  fun x => if idx x < idx b then D' x else D x

@[simp]
theorem mix_self (D : α → Option α) (b : α) : mix idx D D b = D := by
  funext x
  simp [mix]

variable (edge idx entry nodes) in
/-- Every node has got the lowest common ancestor of its predecessors, in their order. -/
def Pass (D D' : α → Option α) : Prop :=
  ∀ b ∈ nodes, b ≠ entry → ∃ m, D' b = some m ∧ Meets edge (mix idx D' D b) b m

variable (edge) in
inductive Sweep [DecidableEq α] : (α → Option α) → List α → (α → Option α) → Prop
  | nil {D : α → Option α} : Sweep D [] D
  | cons {D D' : α → Option α} {b m : α} {bs : List α} (hmeets : Meets edge D b m)
      (h : Sweep (Function.update D b (some m)) bs D') : Sweep D (b :: bs) D'

namespace Sweep

variable [DecidableEq α] {D D' : α → Option α} {bs : List α}

theorem eq_of_notMem (h : Sweep edge D bs D') {x : α} (hx : x ∉ bs) : D' x = D x := by
  induction h with
  | nil => rfl
  | cons _ _ ih =>
    obtain ⟨hne, hx⟩ := not_or.mp (fun hmem => hx (mem_cons.mpr hmem))
    rw [ih hx, update_of_ne hne]

theorem meets (h : Sweep edge D bs D') (hsorted : bs.Pairwise fun a b => idx a < idx b) {b : α}
    (hb : b ∈ bs) : ∃ m, D' b = some m ∧
      Meets edge (fun x => if x ∈ bs ∧ idx x < idx b then D' x else D x) b m := by
  induction h with
  | nil => cases hb
  | @cons D D' c m bs hmeets h ih =>
    obtain ⟨hfirst, hsorted⟩ := pairwise_cons.mp hsorted
    have hc : c ∉ bs := fun hmem => (hfirst c hmem).false
    have hvalue : D' c = some m := by rw [h.eq_of_notMem hc, update_self]
    by_cases hbc : b = c
    · subst hbc
      refine ⟨m, hvalue, ?_⟩
      convert hmeets using 1
      funext x
      refine if_neg fun hx => ?_
      rcases mem_cons.mp hx.1 with rfl | hmem
      · exact hx.2.false
      · exact (hx.2.trans (hfirst x hmem)).false
    · have hbs := (mem_cons.mp hb).resolve_left hbc
      obtain ⟨m', hm', hmeets'⟩ := ih hsorted hbs
      refine ⟨m', hm', ?_⟩
      convert hmeets' using 1
      funext x
      by_cases hxc : x = c
      · subst hxc
        rw [if_pos ⟨mem_cons_self, hfirst b hbs⟩, if_neg fun hx => hc hx.1,
          update_self, hvalue]
      · simp only [mem_cons, hxc, false_or, update_of_ne hxc]

theorem pass (h : Sweep edge D bs D') (hnodes : nodes = entry :: bs)
    (hsorted : nodes.Pairwise fun a b => idx a < idx b) (hmem : ∀ x, (D x).isSome → x ∈ nodes) :
    Pass edge idx entry nodes D D' := by
  intro b hb hne
  subst hnodes
  obtain ⟨hfirst, hsorted⟩ := pairwise_cons.mp hsorted
  obtain ⟨m, hm, hmeets⟩ := h.meets hsorted ((mem_cons.mp hb).resolve_left hne)
  refine ⟨m, hm, ?_⟩
  convert hmeets using 1
  funext x
  by_cases hx : x ∈ bs
  · simp [mix, hx]
  · simp [mix, hx, h.eq_of_notMem hx]

end Sweep

section Passes

variable (n : Numbering edge idx entry nodes) {D₀ D₁ D₂ : α → Option α} {a b p z : α}

theorem chain_mix_iff (t : Tree idx entry D₁) (hp : idx p < idx b) :
    Chain (mix idx D₁ D₀ b) p z ↔ Chain D₁ p z := by
  have heq : ∀ x, idx x < idx b → mix idx D₁ D₀ b x = D₁ x := fun x hx => if_pos hx
  constructor
  · intro h
    refine h.congr (S := fun x => idx x < idx b) hp heq fun x y hx hlink => ?_
    rw [heq x hx] at hlink
    exact (t.le hlink).trans_lt hx
  · intro h
    exact t.chain_congr h hp fun x hx => (heq x hx).symm

theorem Chain.enter (t : Tree idx entry D₁) (h : Chain (mix idx D₁ D₀ b) p z)
    (hp : idx b ≤ idx p) (hz : idx z < idx b) :
    ∃ u, idx u < idx b ∧ Chain D₀ p u ∧ Chain D₁ u z := by
  induction h using ReflTransGen.head_induction_on with
  | refl => omega
  | @head p q hlink hrest ih =>
    have hlink' : D₀ p = some q := by
      rwa [mix, if_neg (Nat.not_lt.mpr hp)] at hlink
    by_cases hq : idx q < idx b
    · exact ⟨q, hq, .single hlink', (chain_mix_iff t hq).mp hrest⟩
    · obtain ⟨u, hu, hchain, hrest⟩ := ih (Nat.not_lt.mp hq)
      exact ⟨u, hu, .cons hlink' hchain, hrest⟩

namespace Pass

variable (h : Pass edge idx entry nodes D₀ D₁) (t : Tree idx entry D₁)

include h t

theorem isSome (hb : b ∈ nodes) : (D₁ b).isSome := by
  by_cases hne : b = entry
  · subst hne
    simp [t.root]
  · obtain ⟨m, hm, -⟩ := h b hb hne
    simp [hm]

include n

theorem chain_of_edge (hb : b ∈ nodes) (hp : p ∈ nodes) (hforward : Forward edge idx p b)
    (hchain : Chain D₁ b z) (hz : z ≠ b) : Chain D₁ p z := by
  have hne : b ≠ entry := by
    rintro rfl
    exact (hforward.2.trans_le (le_of_forward (n.reached p hp))).false
  obtain ⟨m, hm, hmeets⟩ := h b hb hne
  have hlt := (t.parent hm hne).1
  have hrest := ((chain_iff hm).mp hchain).resolve_left hz
  have hmix := (hmeets z).mp ((chain_mix_iff t hlt).mpr hrest) p hforward.1
  rw [mix, if_pos hforward.2] at hmix
  exact (chain_mix_iff t hforward.2).mp (hmix (h.isSome t hp))

theorem chain_of_forward (hb : b ∈ nodes) (hforward : ReflTransGen (Forward edge idx) b p)
    (hchain : Chain D₁ p z) (hz : idx z < idx b) : p ∈ nodes ∧ Chain D₁ b z := by
  induction hforward with
  | refl => exact ⟨hb, hchain⟩
  | @tail q p hreach hforward ih =>
    have hq : q ∈ nodes := by
      clear ih hforward hchain
      induction hreach with
      | refl => exact hb
      | tail _ hforward ih => exact n.closed _ ih _ hforward.1
    have hp := n.closed q hq p hforward.1
    have hle := le_of_forward hreach
    have hlt := hforward.2
    have hzp : z ≠ p := by
      rintro rfl
      omega
    exact ⟨hp, (ih (h.chain_of_edge n t hp hq hforward hchain hzp)).2⟩

theorem chain_subset (hmem₀ : ∀ {a}, (D₀ a).isSome → a ∈ nodes)
    (hmem : ∀ {a}, (D₁ a).isSome → a ∈ nodes) (h' : Pass edge idx entry nodes D₁ D₂)
    (t' : Tree idx entry D₂)
    (hb : b ∈ nodes) (hchain : Chain D₂ b z) : Chain D₁ b z := by
  induction hidx : idx b using Nat.strongRecOn generalizing b z with
  | ind i ih =>
    by_cases hz : z = b
    · exact hz ▸ .refl
    by_cases hne : b = entry
    · subst hne
      exact t'.chain_entry hchain ▸ .refl
    obtain ⟨m₁, hm₁, hmeets₁⟩ := h b hb hne
    obtain ⟨m₂, hm₂, hmeets₂⟩ := h' b hb hne
    have hlt₁ := (t.parent hm₁ hne).1
    have hlt₂ := (t'.parent hm₂ hne).1
    have hchain₂ := ((chain_iff hm₂).mp hchain).resolve_left hz
    have hlt := t'.chain_lt hchain hz
    have hcommon := (hmeets₂ z).mp ((chain_mix_iff t' hlt₂).mpr hchain₂)
    refine .cons hm₁ ((chain_mix_iff t hlt₁).mp ((hmeets₁ z).mpr fun p hp hsome => ?_))
    by_cases hpb : idx p < idx b
    · -- the new chain of the predecessor was part of the old one
      rw [mix, if_pos hpb] at hsome
      have hpn : p ∈ nodes := hmem hsome
      have hmix : (mix idx D₂ D₁ b p).isSome := by
        rw [mix, if_pos hpb]
        exact h'.isSome t' hpn
      have hp₂ := (chain_mix_iff t' hpb).mp (hcommon p hp hmix)
      exact (chain_mix_iff t hpb).mpr (ih (idx p) (hidx ▸ hpb) hpn hp₂ rfl)
    · -- the predecessor is reached from `b`, so its chain comes to an ancestor of `b`
      have hle := Nat.not_lt.mp hpb
      rw [mix, if_neg hpb] at hsome
      have hpn : p ∈ nodes := hmem₀ hsome
      have hmix : (mix idx D₂ D₁ b p).isSome := by
        rw [mix, if_neg hpb]
        exact h.isSome t hpn
      obtain ⟨u, hu, hpu, huz⟩ := (hcommon p hp hmix).enter t' hle hlt
      have hforward := (n.edges p hpn b hp).resolve_left hpb
      have hbu : Chain D₁ b u := (h.chain_of_forward n t hb hforward hpu hu).2
      have hune : u ≠ b := by
        rintro rfl
        exact hu.false
      have hun : u ∈ nodes := hmem (t.isSome_of_chain hbu (h.isSome t hb))
      have huz₁ : Chain D₁ u z := ih (idx u) (hidx ▸ hu) hun huz rfl
      have hm₁u := ((chain_iff hm₁).mp hbu).resolve_left hune
      have hsome' : (mix idx D₁ D₀ b p).isSome := by
        rwa [mix, if_neg hpb]
      have hmixu := (hmeets₁ u).mp ((chain_mix_iff t hlt₁).mpr hm₁u) p hp hsome'
      exact hmixu.trans ((chain_mix_iff t hu).mpr huz₁)

end Pass

def height (idx : α → Nat) (nodes : List α) (D : α → Option α) : Nat :=
  (nodes.map fun a => ((D a).map idx).getD 0).sum

omit n in
theorem height_le {D : α → Option α} {bound : Nat}
    (h : ∀ {a b}, D a = some b → idx b ≤ bound) :
    height idx nodes D ≤ nodes.length * bound := by
  refine (sum_le_card_nsmul _ bound fun x hx => ?_).trans (by simp)
  obtain ⟨a, -, rfl⟩ := List.mem_map.mp hx
  cases ha : D a with
  | none => simp
  | some b => simpa using h ha

include n in
theorem Pass.height_lt (h : Pass edge idx entry nodes D₀ D₁) (t : Tree idx entry D₁)
    (h' : Pass edge idx entry nodes D₁ D₂) (t' : Tree idx entry D₂)
    (hmem₀ : ∀ {a}, (D₀ a).isSome → a ∈ nodes) (hmem₁ : ∀ {a}, (D₁ a).isSome → a ∈ nodes)
    (hmem₂ : ∀ {a}, (D₂ a).isSome → a ∈ nodes) (hne : D₂ ≠ D₁) :
    height idx nodes D₂ < height idx nodes D₁ := by
  have hle : ∀ a ∈ nodes, ∃ m₁ m₂, D₁ a = some m₁ ∧ D₂ a = some m₂ ∧
      (m₂ = m₁ ∨ idx m₂ < idx m₁) := by
    intro a ha
    obtain ⟨m₁, hm₁⟩ := Option.isSome_iff_exists.mp (h.isSome t ha)
    obtain ⟨m₂, hm₂⟩ := Option.isSome_iff_exists.mp (h'.isSome t' ha)
    refine ⟨m₁, m₂, hm₁, hm₂, ?_⟩
    by_cases hentry : a = entry
    · subst hentry
      rw [t.root] at hm₁
      rw [t'.root] at hm₂
      exact Or.inl (Option.some.inj (hm₂.symm.trans hm₁))
    · have hchain : Chain D₁ a m₂ := h.chain_subset n t hmem₀ hmem₁ h' t' ha (.single hm₂)
      have hlt := (t'.parent hm₂ hentry).1
      have hne : m₂ ≠ a := by
        rintro rfl
        exact hlt.false
      have hrest := ((chain_iff hm₁).mp hchain).resolve_left hne
      by_cases heq : m₂ = m₁
      · exact Or.inl heq
      · exact Or.inr (t.chain_lt hrest heq)
  obtain ⟨a, ha⟩ := ne_iff.mp hne
  have han : a ∈ nodes := by
    by_contra hnot
    have h₁ : D₁ a = none := Option.not_isSome_iff_eq_none.mp fun h => hnot (hmem₁ h)
    have h₂ : D₂ a = none := Option.not_isSome_iff_eq_none.mp fun h => hnot (hmem₂ h)
    exact ha (h₂.trans h₁.symm)
  refine sum_lt_sum _ _ (fun b hb => ?_) ⟨a, han, ?_⟩
  · obtain ⟨m₁, m₂, hm₁, hm₂, rfl | hlt⟩ := hle b hb
    · simp [hm₁, hm₂]
    · simpa [hm₁, hm₂] using hlt.le
  · obtain ⟨m₁, m₂, hm₁, hm₂, rfl | hlt⟩ := hle a han
    · exact absurd (hm₂.trans hm₁.symm) ha
    · simpa [hm₁, hm₂] using hlt

namespace Approximates

variable {D : α → Option α} (h : Approximates edge idx entry nodes D)
  (hpass : Pass edge idx entry nodes D D)

include n h hpass

theorem chain_iff_dominates (hb : b ∈ nodes) : Chain D b z ↔ Dominates edge entry z b := by
  constructor
  · intro hchain walked hwalk
    clear hb
    induction hwalk generalizing z with
    | entry => simp [h.toTree.chain_entry hchain]
    | @step walked a b hwalk hedge ih =>
      have ha := n.mem_of_walk hwalk
      by_cases hz : z = b
      · simp [hz]
      · refine mem_cons_of_mem _ (ih ?_)
        have hne : b ≠ entry := by
          rintro rfl
          exact hz (h.toTree.chain_entry hchain)
        obtain ⟨m, hm, hmeets⟩ := hpass b (n.closed a ha b hedge) hne
        rw [mix_self] at hmeets
        exact (hmeets z).mp (((chain_iff hm).mp hchain).resolve_left hz) a hedge
          (hpass.isSome h.toTree ha)
  · exact h.dominators (hpass.isSome h.toTree hb)

theorem immediatelyDominates {d : α} (hb : b ∈ nodes) (hne : b ≠ entry) (hd : D b = some d) :
    ImmediatelyDominates edge entry d b := by
  have hlt := (h.parent hd hne).1
  refine ⟨⟨?_, (h.chain_iff_dominates n hpass hb).mp (.single hd)⟩, fun a ha => ?_⟩
  · rintro rfl
    exact hlt.false
  · have hchain := (h.chain_iff_dominates n hpass hb).mpr ha.2
    have hrest := ((chain_iff hd).mp hchain).resolve_left ha.1
    have hdn : d ∈ nodes := h.mem (h.toTree.isSome hd)
    exact (h.chain_iff_dominates n hpass hdn).mp hrest

end Approximates

end Passes

end CinderX.Foundation.Dominance
