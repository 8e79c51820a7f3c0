import CinderX.Foundation.Basic

/-!
# Depth-first search

A node is listed when all nodes that it leads to have been visited.  An edge either leads to a
node that is listed earlier, or back to a node from which its source has been found.
-/

namespace CinderX.Foundation.DepthFirst

open List

variable {α : Type*}

/-- The nodes that have been left, and those that have been entered. -/
structure Progress (α : Type*) where
  traversal : List α := []
  visited : Finset α := ∅

/-- The search from a node that has not been entered; `next` is `none` where it fails. -/
def visit [DecidableEq α] (next : α → Option (List α)) :
    Nat → α → Progress α → Option (Progress α)
  | 0, _, _ => none
  | fuel + 1, node, s => do
      let found ← next node
      let s ← found.foldlM
        (fun s succ => if succ ∈ s.visited then some s else visit next fuel succ s)
        { s with visited := insert node s.visited }
      return { s with traversal := s.traversal ++ [node] }

variable (next : α → Option (List α))

def Edge (a b : α) : Prop := ∃ found, next a = some found ∧ b ∈ found

def Forward (l : List α) (a b : α) : Prop := Edge next a b ∧ [b, a].Sublist l

def Descends (l : List α) : α → α → Prop := Relation.ReflTransGen (Forward next l)

variable {next} {l l' : List α} {a b node : α} {s s' s'' : Progress α}

theorem Descends.mono (h : Descends next l a b) (hl : l.Sublist l') : Descends next l' a b :=
  Relation.ReflTransGen.mono (fun _ _ hforward => ⟨hforward.1, hforward.2.trans hl⟩) _ _ h

theorem pair_sublist_append (ha : a ∈ l) (hb : b ∈ l') : [a, b].Sublist (l ++ l') :=
  List.Sublist.append (singleton_sublist.mpr ha) (singleton_sublist.mpr hb)

/-! ## What a search adds -/

variable (next) in
structure Extends (s s' : Progress α) (new : List α) : Prop where
  traversal : s'.traversal = s.traversal ++ new
  visited : ∀ a, a ∈ s'.visited ↔ a ∈ s.visited ∨ a ∈ new
  fresh : ∀ a ∈ new, a ∉ s.visited
  nodup : new.Nodup
  edges : ∀ a ∈ new, ∀ b, Edge next a b →
    b ∈ s.visited ∨ b ∈ new ∧ ([b, a].Sublist new ∨ Descends next new b a)
  expanded : ∀ a ∈ new, (next a).isSome

theorem Extends.refl (s : Progress α) : Extends next s s [] where
  traversal := by simp
  visited := by simp
  fresh := by simp
  nodup := nodup_nil
  edges := by simp
  expanded := by simp

theorem Extends.trans (h : Extends next s s' l) (h' : Extends next s' s'' l') :
    Extends next s s'' (l ++ l') where
  traversal := by rw [h'.traversal, h.traversal, append_assoc]
  visited a := by rw [h'.visited, h.visited, mem_append, or_assoc]
  fresh a ha := by
    rcases mem_append.mp ha with ha | ha
    · exact h.fresh a ha
    · exact fun hold => h'.fresh a ha ((h.visited a).mpr (Or.inl hold))
  nodup := by
    refine nodup_append'.mpr ⟨h.nodup, h'.nodup, fun a ha ha' => ?_⟩
    exact h'.fresh a ha' ((h.visited a).mpr (Or.inr ha))
  edges a ha b hedge := by
    rcases mem_append.mp ha with ha | ha
    · rcases h.edges a ha b hedge with hold | ⟨hb, hpair | hdescends⟩
      · exact Or.inl hold
      · exact Or.inr ⟨mem_append_left _ hb,
          Or.inl (hpair.trans (sublist_append_left _ _))⟩
      · exact Or.inr ⟨mem_append_left _ hb,
          Or.inr (hdescends.mono (sublist_append_left _ _))⟩
    · rcases h'.edges a ha b hedge with hold | ⟨hb, hpair | hdescends⟩
      · rcases (h.visited b).mp hold with hold | hb
        · exact Or.inl hold
        · exact Or.inr ⟨mem_append_left _ hb, Or.inl (pair_sublist_append hb ha)⟩
      · exact Or.inr ⟨mem_append_right _ hb,
          Or.inl (hpair.trans (sublist_append_right _ _))⟩
      · exact Or.inr ⟨mem_append_right _ hb,
          Or.inr (hdescends.mono (sublist_append_right _ _))⟩
  expanded a ha := by
    rcases mem_append.mp ha with ha | ha
    · exact h.expanded a ha
    · exact h'.expanded a ha

/-- The node that is left last has found all nodes that have been entered after it. -/
structure Visited (next : α → Option (List α)) (s s' : Progress α) (node : α) (new : List α) :
    Prop extends Extends next s s' (new ++ [node]) where
  descends : ∀ a ∈ new ++ [node], Descends next (new ++ [node]) node a

variable [DecidableEq α] {found : List α} {fuel : Nat}

theorem Extends.leave (h : Extends next { s with visited := insert node s.visited } s' l)
    (hnext : next node = some found) (hfresh : node ∉ s.visited)
    (hfound : ∀ b ∈ found, b ∈ s'.visited)
    (hroots : ∀ a ∈ l, ∃ b ∈ found, b ∈ l ∧ Descends next l b a) :
    Visited next s { s' with traversal := s'.traversal ++ [node] } node l := by
  have hdescends : ∀ a ∈ l ++ [node], Descends next (l ++ [node]) node a := by
    intro a ha
    rcases mem_append.mp ha with ha | ha
    · obtain ⟨b, hb, hbl, hdescends⟩ := hroots a ha
      refine .head ⟨⟨found, hnext, hb⟩, pair_sublist_append hbl (by simp)⟩ ?_
      exact hdescends.mono (sublist_append_left _ _)
    · rw [mem_singleton.mp ha]
      exact .refl
  have hold : ∀ b ∈ insert node s.visited, b ∈ s.visited ∨ b = node := fun b hb =>
    (Finset.mem_insert.mp hb).symm
  have hleft : node ∉ l := fun hnode => h.fresh node hnode (Finset.mem_insert_self _ _)
  refine ⟨⟨?_, fun a => ?_, fun a ha => ?_, ?_, fun a ha b hedge => ?_, fun a ha => ?_⟩, hdescends⟩
  · simp only [h.traversal, append_assoc]
  · have hvisited := h.visited a
    simp only [Finset.mem_insert] at hvisited
    simp only [hvisited, mem_append, mem_singleton]
    tauto
  · rcases mem_append.mp ha with ha | ha
    · exact fun hmem => h.fresh a ha (Finset.mem_insert_of_mem hmem)
    · rwa [mem_singleton.mp ha]
  · exact nodup_append'.mpr ⟨h.nodup, nodup_singleton _, by simpa using hleft⟩
  · rcases mem_append.mp ha with hal | hnode
    · rcases h.edges a hal b hedge with hmem | ⟨hb, hpair | hback⟩
      · rcases hold b hmem with hmem | rfl
        · exact Or.inl hmem
        · exact Or.inr ⟨by simp, Or.inr (hdescends a ha)⟩
      · exact Or.inr ⟨mem_append_left _ hb,
          Or.inl (hpair.trans (sublist_append_left _ _))⟩
      · exact Or.inr ⟨mem_append_left _ hb,
          Or.inr (hback.mono (sublist_append_left _ _))⟩
    · obtain rfl := mem_singleton.mp hnode
      obtain ⟨found', hnext', hb⟩ := hedge
      obtain rfl := Option.some.inj (hnext.symm.trans hnext')
      rcases (h.visited b).mp (hfound b hb) with hmem | hbl
      · rcases hold b hmem with hmem | rfl
        · exact Or.inl hmem
        · exact Or.inr ⟨by simp, Or.inr .refl⟩
      · exact Or.inr ⟨mem_append_left _ hbl, Or.inl (pair_sublist_append hbl (by simp))⟩
  · rcases mem_append.mp ha with ha | ha
    · exact h.expanded a ha
    · rw [mem_singleton.mp ha, hnext]
      rfl

theorem foldlM_extends (ih : ∀ {a s s'}, visit next fuel a s = some s' → a ∉ s.visited →
      ∃ new, Visited next s s' a new)
    (h : found.foldlM (fun s succ => if succ ∈ s.visited then some s else visit next fuel succ s)
      s =
      some s') :
    ∃ new, Extends next s s' new ∧ (∀ b ∈ found, b ∈ s'.visited) ∧
      ∀ a ∈ new, ∃ b ∈ found, b ∈ new ∧ Descends next new b a := by
  induction found generalizing s with
  | nil =>
    cases h
    exact ⟨[], .refl _, by simp, by simp⟩
  | cons succ found ihfound =>
    obtain ⟨s₁, hfirst, hrest⟩ := Option.bind_eq_some_iff.mp h
    obtain ⟨new, hnew, hfound, hroots⟩ := ihfound hrest
    dsimp only at hfirst
    split at hfirst
    next hvisited =>
      cases hfirst
      refine ⟨new, hnew, forall_mem_cons.mpr ⟨?_, hfound⟩, fun a ha => ?_⟩
      · exact (hnew.visited succ).mpr (Or.inl hvisited)
      · obtain ⟨b, hb, hrest⟩ := hroots a ha
        exact ⟨b, mem_cons_of_mem _ hb, hrest⟩
    next hvisited =>
      obtain ⟨new', hnew'⟩ := ih hfirst hvisited
      refine ⟨(new' ++ [succ]) ++ new, hnew'.toExtends.trans hnew,
        forall_mem_cons.mpr ⟨?_, hfound⟩, fun a ha => ?_⟩
      · exact (hnew.visited succ).mpr (Or.inl ((hnew'.visited succ).mpr (Or.inr (by simp))))
      · rcases mem_append.mp ha with ha | ha
        · exact ⟨succ, by simp, by simp,
            (hnew'.descends a ha).mono (sublist_append_left _ _)⟩
        · obtain ⟨b, hb, hmem, hdescends⟩ := hroots a ha
          exact ⟨b, mem_cons_of_mem _ hb, mem_append_right _ hmem,
            hdescends.mono (sublist_append_right _ _)⟩

theorem visit_extends (h : visit next fuel node s = some s')
    (hfresh : node ∉ s.visited) : ∃ new, Visited next s s' node new := by
  induction fuel generalizing node s s' with
  | zero => cases h
  | succ fuel ih =>
    obtain ⟨found, hnext, h⟩ := Option.bind_eq_some_iff.mp h
    obtain ⟨s₁, hfold, h⟩ := Option.bind_eq_some_iff.mp h
    cases h
    obtain ⟨new, hnew, hfound, hroots⟩ := foldlM_extends ih hfold
    exact ⟨new, hnew.leave hnext hfresh hfound hroots⟩

theorem visit_isSome {all : Finset α}
    (hall : ∀ a ∈ all, ∃ found, next a = some found ∧ ∀ b ∈ found, b ∈ all)
    (hnode : node ∈ all) (hfresh : node ∉ s.visited) (hfuel : (all \ s.visited).card ≤ fuel) :
    ∃ s', visit next fuel node s = some s' := by
  induction fuel generalizing node s with
  | zero =>
    have hempty := Finset.card_eq_zero.mp (Nat.le_zero.mp hfuel)
    exact absurd (Finset.mem_sdiff.mpr ⟨hnode, hfresh⟩) (by simp [hempty])
  | succ fuel ih =>
    obtain ⟨found, hnext, hfound⟩ := hall node hnode
    have hfold : ∀ (found : List α) (s₁ : Progress α), (∀ b ∈ found, b ∈ all) →
        (all \ s₁.visited).card ≤ fuel → ∃ s', found.foldlM (fun s succ =>
          if succ ∈ s.visited then some s else visit next fuel succ s) s₁ = some s' := by
      intro found
      induction found with
      | nil => exact fun s₁ _ _ => ⟨s₁, rfl⟩
      | cons succ found ihfound =>
        intro s₁ hfound hcard
        obtain ⟨hsucc, hfound⟩ := forall_mem_cons.mp hfound
        by_cases hvisited : succ ∈ s₁.visited
        · obtain ⟨s', hs'⟩ := ihfound s₁ hfound hcard
          exact ⟨s', by simpa [hvisited] using hs'⟩
        · obtain ⟨s₂, hs₂⟩ := ih hsucc hvisited hcard
          obtain ⟨new, hnew⟩ := visit_extends hs₂ hvisited
          have hgrown : (all \ s₂.visited).card ≤ (all \ s₁.visited).card :=
            Finset.card_le_card (Finset.sdiff_subset_sdiff le_rfl fun a ha =>
              (hnew.visited a).mpr (Or.inl ha))
          obtain ⟨s', hs'⟩ := ihfound s₂ hfound (hgrown.trans hcard)
          exact ⟨s', by simpa [hvisited, hs₂] using hs'⟩
    have hless : (all \ insert node s.visited).card < (all \ s.visited).card := by
      refine Finset.card_lt_card ((Finset.ssubset_iff_of_subset ?_).mpr
        ⟨node, by simp [hnode, hfresh], by simp⟩)
      exact Finset.sdiff_subset_sdiff le_rfl (Finset.subset_insert _ _)
    have hcard : (all \ insert node s.visited).card ≤ fuel := by omega
    obtain ⟨s', hs'⟩ := hfold found { s with visited := insert node s.visited } hfound hcard
    exact ⟨{ s' with traversal := s'.traversal ++ [node] }, by simp [visit, hnext, hs']⟩

end CinderX.Foundation.DepthFirst
