import CinderX.Jit.Codegen.CopyGraph

/-!
# The invariant of the copy graph

`Linked` says that the node map, the parent pointers and the child lists agree;
it survives every edit of the graph.  `WellFormed` adds what holds between two
turns of the loops: the leaf list holds exactly the nodes without children, and
each of those still has a parent to copy from.
-/

namespace CinderX.Jit.Codegen.CopyGraph

open List Function

variable {g : CopyGraph}

structure Linked (g : CopyGraph) : Prop where
  sorted : g.nodes.Pairwise (· < ·)
  parent_mem : ∀ {x p}, g.parent x = some p → x ∈ g.nodes ∧ p ∈ g.nodes
  children_iff : ∀ {x p}, x ∈ g.children p ↔ g.parent x = some p
  children_nodup : ∀ p, (g.children p).Nodup
  no_self : ∀ {x p}, g.parent x = some p → x ≠ p

structure WellFormed (g : CopyGraph) : Prop extends Linked g where
  leaf_iff : ∀ {x}, x ∈ g.leafNodes ↔ x ∈ g.nodes ∧ g.children x = []
  leaf_nodup : g.leafNodes.Nodup
  attached : ∀ {x}, x ∈ g.nodes → g.children x = [] → ∃ p, g.parent x = some p

theorem Linked.nodup (h : Linked g) : g.nodes.Nodup :=
  h.sorted.imp fun hlt => ne_of_lt hlt

variable {x : Loc}

theorem Linked.parent_eq_none (h : Linked g) (hx : x ∉ g.nodes) :
    g.parent x = none := by
  cases hp : g.parent x with
  | none => rfl
  | some p => exact absurd (h.parent_mem hp).1 hx

theorem Linked.children_eq_nil (h : Linked g) (hx : x ∉ g.nodes) :
    g.children x = [] := by
  apply eq_nil_iff_forall_not_mem.mpr
  intro y hy
  exact hx (h.parent_mem (h.children_iff.mp hy)).2

theorem Linked.unread (h : Linked g) (hx : g.children x = []) (y : Loc) :
    g.parent y ≠ some x := by
  intro hy
  have := h.children_iff.mpr hy
  simp [hx] at this

theorem Linked.children_eq_nil_of_unread (h : Linked g) (hx : ∀ y, g.parent y ≠ some x) :
    g.children x = [] := by
  apply eq_nil_iff_forall_not_mem.mpr
  exact fun y hy => hx y (h.children_iff.mp hy)

@[simp] theorem unlinkChild_nodes (x : Loc) : (g.unlinkChild x).nodes = g.nodes := by
  unfold unlinkChild
  split <;> rfl

@[simp] theorem unlinkChild_parent (x : Loc) :
    (g.unlinkChild x).parent = g.parent := by
  unfold unlinkChild
  split <;> rfl

@[simp] theorem unlinkChild_leafNodes (x : Loc) :
    (g.unlinkChild x).leafNodes = g.leafNodes := by
  unfold unlinkChild
  split <;> rfl

theorem Linked.unlinkChild_children (h : Linked g) (x p : Loc) :
    (g.unlinkChild x).children p = (g.children p).erase x := by
  have hskip : g.parent x ≠ some p → (g.children p).erase x = g.children p := by
    intro hne
    exact erase_of_not_mem fun hmem => hne (h.children_iff.mp hmem)
  unfold unlinkChild
  split
  · next hnone => rw [hskip (by simp [hnone])]
  · next q hq =>
      by_cases hpq : p = q
      · subst q
        simp
      · have : g.parent x ≠ some p := by
          rw [hq]
          simpa using fun heq => hpq heq.symm
        simp [update_of_ne hpq, hskip this]

@[simp] theorem eraseNode_nodes (x : Loc) :
    (g.eraseNode x).nodes = g.nodes.erase x := by
  simp [eraseNode]

@[simp] theorem eraseNode_parent (x : Loc) :
    (g.eraseNode x).parent = Function.update g.parent x none := by
  simp [eraseNode]

@[simp] theorem eraseNode_leafNodes (x : Loc) :
    (g.eraseNode x).leafNodes = g.leafNodes.erase x := by
  simp [eraseNode]

variable {p : Loc}

theorem Linked.eraseNode_children (h : Linked g) (hp : p ≠ x) :
    (g.eraseNode x).children p = (g.children p).erase x := by
  simp [eraseNode, update_of_ne hp, h.unlinkChild_children]

@[simp] theorem eraseNode_children_self (x : Loc) :
    (g.eraseNode x).children x = [] := by
  simp [eraseNode]

theorem Linked.eraseNode (h : Linked g) (hx : g.children x = []) :
    Linked (g.eraseNode x) where
  sorted := by
    rw [eraseNode_nodes]
    exact h.sorted.sublist erase_sublist
  parent_mem := by
    intro y p hy
    rw [eraseNode_parent] at hy
    by_cases hyx : y = x
    · simp [hyx] at hy
    · rw [update_of_ne hyx] at hy
      have hpx : p ≠ x := fun heq => h.unread hx y (heq ▸ hy)
      rw [eraseNode_nodes]
      exact ⟨(mem_erase_of_ne hyx).mpr (h.parent_mem hy).1,
        (mem_erase_of_ne hpx).mpr (h.parent_mem hy).2⟩
  children_iff := by
    intro y p
    rw [eraseNode_parent]
    by_cases hpx : p = x
    · subst p
      rw [eraseNode_children_self]
      by_cases hyx : y = x
      · simp [hyx]
      · simpa [update_of_ne hyx] using h.unread hx y
    · rw [h.eraseNode_children hpx, (h.children_nodup p).mem_erase_iff,
        h.children_iff]
      by_cases hyx : y = x
      · simp [hyx]
      · simp [hyx]
  children_nodup := by
    intro p
    by_cases hpx : p = x
    · simp [hpx]
    · rw [h.eraseNode_children hpx]
      exact (h.children_nodup p).erase x
  no_self := by
    intro y p hy
    rw [eraseNode_parent] at hy
    by_cases hyx : y = x
    · simp [hyx] at hy
    · exact h.no_self (by simpa [update_of_ne hyx] using hy)

theorem Linked.withLeafNodes (h : Linked g) (leaves : List Loc) :
    Linked { g with leafNodes := leaves } :=
  ⟨h.sorted, h.parent_mem, h.children_iff, h.children_nodup, h.no_self⟩

theorem Linked.setParent_none (h : Linked g) (child : Loc) :
    Linked (g.setParent child none) where
  sorted := by simpa [setParent] using h.sorted
  parent_mem := by
    intro x p hx
    by_cases hxc : x = child
    · simp [setParent, hxc] at hx
    · exact by simpa [setParent] using h.parent_mem (by
        simpa [setParent, hxc] using hx)
  children_iff := by
    intro x p
    simp only [setParent, unlinkChild_parent, h.unlinkChild_children,
      (h.children_nodup p).mem_erase_iff, h.children_iff]
    by_cases hxc : x = child
    · simp [hxc]
    · simp [hxc]
  children_nodup := by
    intro p
    simpa [setParent, h.unlinkChild_children] using (h.children_nodup p).erase child
  no_self := by
    intro x p hx
    by_cases hxc : x = child
    · simp [setParent, hxc] at hx
    · exact h.no_self (by simpa [setParent, hxc] using hx)

theorem orderedInsert_ascending {nodes : List Loc} (h : nodes.Pairwise (· < ·)) (hx : x ∉ nodes) :
    (nodes.orderedInsert (· ≤ ·) x).Pairwise (· < ·) := by
  induction nodes with
  | nil => simp
  | cons y nodes ih =>
    rw [pairwise_cons] at h
    simp only [mem_cons, not_or] at hx
    rw [orderedInsert_cons]
    split
    · next hle =>
        have hlt : x < y := lt_of_le_of_ne hle hx.1
        refine pairwise_cons.mpr ⟨?_, pairwise_cons.mpr h⟩
        intro z hz
        rcases mem_cons.mp hz with rfl | hz
        · exact hlt
        · exact hlt.trans (h.1 z hz)
    · next hle =>
        refine pairwise_cons.mpr ⟨?_, ih h.2 hx.2⟩
        intro z hz
        rcases (mem_orderedInsert _).mp hz with rfl | hz
        · exact not_le.mp hle
        · exact h.1 z hz

theorem getNode_of_mem (hx : x ∈ g.nodes) : g.getNode x = g := by
  simp [getNode, hx]

theorem Linked.getNode (h : Linked g) (x : Loc) : Linked (g.getNode x) := by
  by_cases hx : x ∈ g.nodes
  · rwa [getNode_of_mem hx]
  · have hparent : Function.update g.parent x none = g.parent := by
      rw [← h.parent_eq_none hx, update_eq_self]
    have hchildren : Function.update g.children x [] = g.children := by
      rw [← h.children_eq_nil hx, update_eq_self]
    simp only [CopyGraph.getNode, if_neg hx, hparent, hchildren]
    refine ⟨?_, ?_, h.children_iff, h.children_nodup, h.no_self⟩
    · exact orderedInsert_ascending h.sorted hx
    · intro y p hy
      simpa using ⟨.inr (h.parent_mem hy).1, .inr (h.parent_mem hy).2⟩

theorem Linked.getNode_parent (h : Linked g) (x : Loc) :
    (g.getNode x).parent = g.parent := by
  unfold CopyGraph.getNode
  split
  · rfl
  · next hx =>
      exact (congrArg (Function.update g.parent x) (h.parent_eq_none hx).symm).trans
        (update_eq_self x g.parent)

theorem Linked.getNode_children (h : Linked g) (x : Loc) :
    (g.getNode x).children = g.children := by
  unfold CopyGraph.getNode
  split
  · rfl
  · next hx =>
      exact (congrArg (Function.update g.children x) (h.children_eq_nil hx).symm).trans
        (update_eq_self x g.children)

theorem mem_getNode_nodes {y : Loc} :
    y ∈ (g.getNode x).nodes ↔ y = x ∨ y ∈ g.nodes := by
  unfold getNode
  split
  · next hx => exact ⟨.inr, fun hy => hy.elim (fun heq => heq ▸ hx) id⟩
  · simp

@[simp] theorem setParent_nodes (child : Loc) (parent : Option Loc) :
    (g.setParent child parent).nodes = g.nodes := by
  cases parent <;> simp [setParent]

@[simp] theorem setParent_parent (child : Loc) (parent : Option Loc) :
    (g.setParent child parent).parent = Function.update g.parent child parent := by
  cases parent <;> simp [setParent]

theorem Linked.mem_setParent_children (h : Linked g) {child q : Loc} :
    x ∈ (g.setParent child (some p)).children q ↔
      (x ≠ child ∧ g.parent x = some q) ∨ (x = child ∧ q = p) := by
  by_cases hqp : q = p
  · subst q
    simp [setParent, h.unlinkChild_children, (h.children_nodup p).mem_erase_iff,
      h.children_iff]
  · simp [setParent, hqp, h.unlinkChild_children, (h.children_nodup q).mem_erase_iff,
      h.children_iff]

theorem Linked.setParent_some (h : Linked g) {child : Loc} (hchild : child ∈ g.nodes)
    (hp : p ∈ g.nodes) (hne : child ≠ p) :
    Linked (g.setParent child (some p)) where
  sorted := by simpa using h.sorted
  parent_mem := by
    intro x q hx
    rw [setParent_parent] at hx
    rw [setParent_nodes]
    by_cases hxc : x = child
    · have hqp : p = q := by simpa [hxc] using hx
      exact ⟨hxc ▸ hchild, hqp ▸ hp⟩
    · exact h.parent_mem (by simpa [hxc] using hx)
  children_iff := by
    intro x q
    rw [h.mem_setParent_children, setParent_parent]
    by_cases hxc : x = child
    · simp [hxc, eq_comm]
    · simp [hxc]
  children_nodup := by
    intro q
    have herase := (h.children_nodup q).erase child
    by_cases hqp : q = p
    · subst q
      simp only [setParent, h.unlinkChild_children, update_self]
      rw [nodup_append]
      refine ⟨herase, by simp, ?_⟩
      intro x hx y hy
      rw [mem_singleton.mp hy]
      exact ((h.children_nodup p).mem_erase_iff.mp hx).1
    · simpa [setParent, hqp, h.unlinkChild_children] using herase
  no_self := by
    intro x q hx
    rw [setParent_parent] at hx
    by_cases hxc : x = child
    · have hqp : p = q := by simpa [hxc] using hx
      exact hxc ▸ hqp ▸ hne
    · exact h.no_self (by simpa [hxc] using hx)

variable {node parent : Loc}

theorem Linked.eraseNode_children_other (h : Linked g) (hnode : g.children node = [])
    (hparent : g.parent node = some parent) (hx : x ≠ parent) :
    (g.eraseNode node).children x = g.children x := by
  by_cases hxn : x = node
  · subst x
    rw [eraseNode_children_self, hnode]
  · rw [h.eraseNode_children hxn]
    apply erase_of_not_mem
    intro hmem
    rw [h.children_iff, hparent] at hmem
    exact hx (Option.some.inj hmem).symm

structure LeafErased (g g' : CopyGraph) (node parent : Loc) : Prop where
  linked : Linked g'
  nodes_eq : g'.nodes = g.nodes.erase node
  parent_eq : g'.parent = Function.update g.parent node none
  children_eq : ∀ x ≠ parent, g'.children x = g.children x
  leaf_nodup : g'.leafNodes.Nodup
  leaf_iff : ∀ x, x ∈ g'.leafNodes ↔
    x ≠ parent ∧ x ∈ g'.nodes ∧ g'.children x = []

variable {leaves : List Loc} {g' : CopyGraph} {fromLoc toLoc : Loc}

theorem WellFormed.eraseLeaf (h : WellFormed g)
    (hleaves : g.leafNodes = node :: leaves) (hparent : g.parent node = some parent) :
    LeafErased g ({ g with leafNodes := leaves }.eraseNode node) node parent := by
  obtain ⟨hnode, hchildren⟩ : node ∈ g.nodes ∧ g.children node = [] :=
    h.leaf_iff.mp (by simp [hleaves])
  have hnodup := h.leaf_nodup
  rw [hleaves, nodup_cons] at hnodup
  have hlinked := h.toLinked.withLeafNodes leaves
  have hother : ∀ x ≠ parent,
      ({ g with leafNodes := leaves }.eraseNode node).children x = g.children x :=
    fun x hx => hlinked.eraseNode_children_other hchildren hparent hx
  refine ⟨hlinked.eraseNode hchildren, by simp, by simp, hother, ?_, ?_⟩
  · simpa using hnodup.2.erase node
  · intro x
    rw [eraseNode_leafNodes, eraseNode_nodes]
    change x ∈ leaves.erase node ↔ x ≠ parent ∧ x ∈ g.nodes.erase node ∧ _
    rw [erase_of_not_mem hnodup.1, h.nodup.mem_erase_iff]
    have hleaf := @h.leaf_iff x
    rw [hleaves, mem_cons] at hleaf
    constructor
    · intro hx
      have hxc := hleaf.mp (.inr hx)
      have hxp : x ≠ parent := by
        rintro rfl
        exact h.unread hxc.2 node hparent
      rw [hother x hxp]
      exact ⟨hxp, ⟨fun heq => hnodup.1 (heq ▸ hx), hxc.1⟩, hxc.2⟩
    · rintro ⟨hxp, ⟨hxn, hx⟩, hxc⟩
      rw [hother x hxp] at hxc
      exact (hleaf.mpr ⟨hx, hxc⟩).resolve_left hxn

structure LeafTurn (g g' : CopyGraph) (node : Loc) : Prop where
  wellFormed : WellFormed g'
  parent_eq : g'.parent = Function.update g.parent node none
  nodes_subset : g'.nodes ⊆ g.nodes.erase node

theorem WellFormed.attached_of_ne (h : WellFormed g)
    (he : LeafErased g g' node parent) (hxp : x ≠ parent) (hx : x ∈ g'.nodes)
    (hxc : g'.children x = []) :
    ∃ p, g'.parent x = some p := by
  rw [he.nodes_eq, h.nodup.mem_erase_iff] at hx
  rw [he.children_eq x hxp] at hxc
  obtain ⟨p, hp⟩ := h.attached hx.2 hxc
  exact ⟨p, by rw [he.parent_eq, update_of_ne hx.1, hp]⟩

theorem WellFormed.retireLeaf (h : WellFormed g)
    (hleaves : g.leafNodes = node :: leaves) (hparent : g.parent node = some parent) :
    LeafTurn g ({ g with leafNodes := leaves }.retireLeaf node parent) node := by
  have he := h.eraseLeaf hleaves hparent
  have hne : parent ≠ node := (h.no_self hparent).symm
  unfold CopyGraph.retireLeaf
  generalize ({ g with leafNodes := leaves }.eraseNode node) = g' at he ⊢
  have hpmem : parent ∈ g'.nodes := by
    rw [he.nodes_eq, mem_erase_of_ne hne]
    exact (h.parent_mem hparent).2
  have hattached : ∀ {x}, x ≠ parent → x ∈ g'.nodes → g'.children x = [] →
      ∃ p, g'.parent x = some p := h.attached_of_ne he
  simp only
  split
  · next hempty =>
      split
      · next hroot =>
          have hskip : Function.update g'.parent parent none = g'.parent := by
            rw [← hroot, update_eq_self]
          have hchildren : ∀ x, (g'.eraseNode parent).children x = g'.children x := by
            intro x
            by_cases hxp : x = parent
            · rw [hxp, eraseNode_children_self, hempty]
            · rw [he.linked.eraseNode_children hxp]
              apply erase_of_not_mem
              intro hmem
              simp [he.linked.children_iff, hroot] at hmem
          refine ⟨⟨he.linked.eraseNode hempty, ?_, ?_, ?_⟩, ?_, ?_⟩
          · intro x
            rw [eraseNode_leafNodes, eraseNode_nodes, hchildren,
              he.leaf_nodup.mem_erase_iff, he.linked.nodup.mem_erase_iff, he.leaf_iff]
            tauto
          · simpa using he.leaf_nodup.erase parent
          · intro x hx hxc
            rw [eraseNode_nodes, he.linked.nodup.mem_erase_iff] at hx
            rw [hchildren] at hxc
            rw [eraseNode_parent, hskip]
            exact hattached hx.1 hx.2 hxc
          · rw [eraseNode_parent, hskip, he.parent_eq]
          · rw [eraseNode_nodes, he.nodes_eq]
            exact erase_subset
      · next p hp =>
          refine ⟨⟨he.linked.withLeafNodes _, ?_, ?_, ?_⟩, he.parent_eq, ?_⟩
          · intro x
            simp only [mem_cons, he.leaf_iff]
            by_cases hxp : x = parent
            · simp [hxp, hpmem, hempty]
            · simp [hxp]
          · exact nodup_cons.mpr ⟨by simp [he.leaf_iff], he.leaf_nodup⟩
          · intro x hx hxc
            by_cases hxp : x = parent
            · exact ⟨p, hxp ▸ hp⟩
            · exact hattached hxp hx hxc
          · simp [he.nodes_eq]
  · next hfull =>
      have hxp : ∀ {x}, g'.children x = [] → x ≠ parent :=
        fun hxc heq => hfull (heq ▸ hxc)
      refine ⟨⟨he.linked, ?_, he.leaf_nodup, ?_⟩, he.parent_eq, by simp [he.nodes_eq]⟩
      · intro x
        rw [he.leaf_iff]
        exact ⟨And.right, fun hx => ⟨hxp hx.2, hx⟩⟩
      · intro x hx hxc
        exact hattached (hxp hxc) hx hxc

/-! ## Building a graph -/

theorem empty_wellFormed : WellFormed empty where
  sorted := by simp [empty]
  parent_mem := by simp [empty]
  children_iff := by simp [empty]
  children_nodup := by simp [empty]
  no_self := by simp [empty]
  leaf_iff := by simp [empty]
  leaf_nodup := by simp [empty]
  attached := by simp [empty]

/-- The part of `WellFormed` that a fresh, still unattached node keeps. -/
structure LeafListed (g : CopyGraph) : Prop extends Linked g where
  leaf_iff : ∀ {x}, x ∈ g.leafNodes ↔ x ∈ g.nodes ∧ g.children x = []
  leaf_nodup : g.leafNodes.Nodup

theorem LeafListed.getNode (h : LeafListed g) (x : Loc) :
    LeafListed (g.getNode x) := by
  refine ⟨h.toLinked.getNode x, ?_, ?_⟩
  · intro y
    rw [mem_getNode_nodes, h.toLinked.getNode_children]
    by_cases hx : x ∈ g.nodes
    · rw [getNode_of_mem hx, h.leaf_iff]
      constructor
      · exact fun hy => ⟨.inr hy.1, hy.2⟩
      · exact fun hy => ⟨hy.1.elim (fun heq => heq ▸ hx) id, hy.2⟩
    · simp only [CopyGraph.getNode, if_neg hx, mem_append, mem_singleton,
        h.leaf_iff]
      by_cases hyx : y = x
      · simp [hyx, h.children_eq_nil hx]
      · simp [hyx]
  · by_cases hx : x ∈ g.nodes
    · rw [getNode_of_mem hx]
      exact h.leaf_nodup
    · simp only [CopyGraph.getNode, if_neg hx]
      rw [nodup_append]
      refine ⟨h.leaf_nodup, by simp, ?_⟩
      intro y hy z hz
      rw [mem_singleton.mp hz]
      rintro rfl
      exact hx (h.leaf_iff.mp hy).1

structure EdgeAdded (g g' : CopyGraph) (fromLoc toLoc : Loc) : Prop where
  wellFormed : WellFormed g'
  parent_eq : g'.parent = Function.update g.parent toLoc (some fromLoc)
  mem_nodes : ∀ {x}, x ∈ g'.nodes ↔ x = toLoc ∨ x = fromLoc ∨ x ∈ g.nodes

theorem WellFormed.addEdge (h : WellFormed g)
    (hfree : g.parent toLoc = none) (hne : fromLoc ≠ toLoc) :
    ∃ g', g.addEdge fromLoc toLoc = some g' ∧ EdgeAdded g g' fromLoc toLoc := by
  have hlisted : LeafListed ((g.getNode fromLoc).getNode toLoc) :=
    (LeafListed.getNode ⟨h.toLinked, h.leaf_iff, h.leaf_nodup⟩ fromLoc).getNode toLoc
  have hparent : ((g.getNode fromLoc).getNode toLoc).parent = g.parent := by
    rw [(h.toLinked.getNode fromLoc).getNode_parent, h.toLinked.getNode_parent]
  have hnodes : ∀ {x}, x ∈ ((g.getNode fromLoc).getNode toLoc).nodes ↔
      x = toLoc ∨ x = fromLoc ∨ x ∈ g.nodes := by
    simp [mem_getNode_nodes]
  refine ⟨((g.getNode fromLoc).getNode toLoc).setParent toLoc (some fromLoc),
    by simp [CopyGraph.addEdge, hparent, hfree], ?_, by simp [hparent], by simp [hnodes]⟩
  generalize (g.getNode fromLoc).getNode toLoc = g₁ at *
  have hlinked : Linked (g₁.setParent toLoc (some fromLoc)) :=
    hlisted.toLinked.setParent_some (hnodes.mpr (.inl rfl))
      (hnodes.mpr (.inr (.inl rfl))) hne.symm
  have hchildren : ∀ {x}, (g₁.setParent toLoc (some fromLoc)).children x = [] ↔
      x ≠ fromLoc ∧ g₁.children x = [] := by
    intro x
    simp only [eq_nil_iff_forall_not_mem, hlisted.toLinked.mem_setParent_children,
      hlisted.children_iff]
    constructor
    · intro hx
      refine ⟨fun heq => hx toLoc (.inr ⟨rfl, heq⟩), fun y hy => ?_⟩
      by_cases hyt : y = toLoc
      · simp [hyt, hparent, hfree] at hy
      · exact hx y (.inl ⟨hyt, hy⟩)
    · rintro ⟨hxf, hx⟩ y (⟨-, hy⟩ | ⟨-, heq⟩)
      · exact hx y hy
      · exact hxf heq
  refine ⟨hlinked, ?_, ?_, ?_⟩
  · intro x
    have hleaves : (g₁.setParent toLoc (some fromLoc)).leafNodes =
        g₁.leafNodes.erase fromLoc := by simp [setParent]
    rw [hleaves, hlisted.leaf_nodup.mem_erase_iff, hlisted.leaf_iff, hchildren,
      setParent_nodes]
    tauto
  · simpa [setParent] using hlisted.leaf_nodup.erase fromLoc
  · intro x hx hnil
    rw [hchildren] at hnil
    rw [setParent_nodes, hnodes] at hx
    rw [setParent_parent, hparent]
    by_cases hxt : x = toLoc
    · exact ⟨fromLoc, by simp [hxt]⟩
    · have hx : x ∈ g.nodes := (hx.resolve_left hxt).resolve_left hnil.1
      have hxc : g.children x = [] := by
        apply h.toLinked.children_eq_nil_of_unread
        intro y hy
        have := hlisted.toLinked.unread hnil.2 y
        exact this (by rw [hparent, hy])
      obtain ⟨p, hp⟩ := h.attached hx hxc
      exact ⟨p, by simpa [hxt] using hp⟩

structure EdgesAdded (g g' : CopyGraph) (edges : List (Loc × Loc)) : Prop where
  wellFormed : WellFormed g'
  parent_iff : ∀ {x p}, g'.parent x = some p ↔ g.parent x = some p ∨ (p, x) ∈ edges
  mem_nodes : ∀ {x}, x ∈ g'.nodes →
    x ∈ g.nodes ∨ ∃ e ∈ edges, x = e.1 ∨ x = e.2
  nodes_length : g'.nodes.length ≤ g.nodes.length + 2 * edges.length

theorem getNode_nodes_length (x : Loc) :
    (g.getNode x).nodes.length ≤ g.nodes.length + 1 := by
  unfold getNode
  split
  · omega
  · simp [orderedInsert_length]

theorem addEdge_nodes_length (h : g.addEdge fromLoc toLoc = some g') :
    g'.nodes.length ≤ g.nodes.length + 2 := by
  unfold addEdge at h
  have h₁ := getNode_nodes_length (g := g) fromLoc
  have h₂ := getNode_nodes_length (g := g.getNode fromLoc) toLoc
  simp only at h
  split at h
  · rw [← Option.some.inj h, setParent_nodes]
    omega
  · simp at h

theorem WellFormed.addEdges (h : WellFormed g) {edges : List (Loc × Loc)}
    (targets : (edges.map Prod.snd).Nodup)
    (hfree : ∀ e ∈ edges, g.parent e.2 = none) (hne : ∀ e ∈ edges, e.1 ≠ e.2) :
    ∃ g', g.addEdges edges = some g' ∧ EdgesAdded g g' edges := by
  induction edges generalizing g with
  | nil => exact ⟨g, rfl, h, by simp, fun hx => .inl hx, by simp⟩
  | cons e edges ih =>
    rw [map_cons, nodup_cons] at targets
    obtain ⟨g₁, hadd, hadded⟩ := h.addEdge (hfree e (by simp)) (hne e (by simp))
    have hfree₁ : ∀ e' ∈ edges, g₁.parent e'.2 = none := by
      intro e' he'
      have hdiff : e'.2 ≠ e.2 :=
        fun heq => targets.1 (heq ▸ List.mem_map_of_mem he')
      rw [hadded.parent_eq, update_of_ne hdiff]
      exact hfree e' (mem_cons_of_mem _ he')
    obtain ⟨g', hrest, hrested⟩ := ih hadded.wellFormed targets.2 hfree₁
      (fun e' he' => hne e' (mem_cons_of_mem _ he'))
    refine ⟨g', by simp [CopyGraph.addEdges, hadd, hrest], hrested.wellFormed, ?_, ?_, ?_⟩
    · intro x p
      rw [hrested.parent_iff, hadded.parent_eq]
      by_cases hx : x = e.2
      · subst x
        have hx := hfree e (by simp)
        simp [hx, Prod.ext_iff, eq_comm]
      · have hpair : (p, x) ≠ e := fun heq => hx (by simp [← heq])
        simp [hx, hpair]
    · intro x hx
      rcases hrested.mem_nodes hx with hx | ⟨e', he', hx⟩
      · rcases hadded.mem_nodes.mp hx with hx | hx | hx
        · exact .inr ⟨e, by simp, .inr hx⟩
        · exact .inr ⟨e, by simp, .inl hx⟩
        · exact .inl hx
      · exact .inr ⟨e', mem_cons_of_mem _ he', hx⟩
    · have h₁ := hrested.nodes_length
      have h₂ := addEdge_nodes_length hadd
      simp only [length_cons]
      omega

end CinderX.Jit.Codegen.CopyGraph
