import CinderX.Foundation.ParallelAssignment
import CinderX.Jit.Codegen.CopyGraphInvariant

/-!
# Correctness of the copy graph

Every run of `process` on a well-formed graph emits a schedule, in the sense of
`ParallelAssignment`, of the assignment its parent pointers describe.
-/

namespace CinderX.Jit.Codegen

open Foundation.ParallelAssignment List

def Op.toInstr (op : Op) : Instr Loc :=
  match op.kind with
  | .kCopy => .assign op.fromLoc op.toLoc
  | .kExchange => .swap op.fromLoc op.toLoc

def Op.execute {V : Type*} (σ : Loc → V) (op : Op) : Loc → V :=
  match op.kind with
  | .kCopy => Function.update σ op.toLoc (σ op.fromLoc)
  | .kExchange =>
    Function.update (Function.update σ op.fromLoc (σ op.toLoc))
      op.toLoc (σ op.fromLoc)

def executeAll {V : Type*} (σ : Loc → V) (ops : List Op) : Loc → V :=
  ops.foldl Op.execute σ

theorem executeAll_eq_runAll {V : Type*} (σ : Loc → V) (ops : List Op) :
    executeAll σ ops = runAll σ (ops.map Op.toInstr) := by
  induction ops generalizing σ with
  | nil => rfl
  | cons op ops ih =>
    have hstep : op.execute σ = op.toInstr.run σ := by
      rcases op with ⟨kind, fromLoc, toLoc⟩
      cases kind <;> rfl
    rw [map_cons, runAll_cons, ← hstep]
    exact ih (op.execute σ)

abbrev Scheduled (par : Loc → Option Loc) (ops : List Op) : Prop :=
  Schedule kTempLoc (0 ≤ ·) par (ops.map Op.toInstr)

namespace CopyGraph

variable {g g' : CopyGraph} {ops : List Op}

structure LeafRun (g g' : CopyGraph) (ops : List Op) : Prop where
  wellFormed : WellFormed g'
  leafNodes_eq : g'.leafNodes = []
  nodes_subset : g'.nodes ⊆ g.nodes
  parent_sub : ∀ {x p}, g'.parent x = some p → g.parent x = some p
  schedule : ∀ rest, Scheduled g'.parent rest → Scheduled g.parent (ops ++ rest)

variable {fuel : Nat}

theorem processLeafNodes_spec (h : WellFormed g) (hfuel : g.nodes.length < fuel) :
    ∃ g' ops, processLeafNodes fuel g = some (g', ops) ∧ LeafRun g g' ops := by
  induction fuel generalizing g with
  | zero => omega
  | succ fuel ih =>
    cases hleaves : g.leafNodes with
    | nil =>
      refine ⟨g, [], by simp [processLeafNodes, hleaves], h, hleaves, ?_, ?_, ?_⟩
      · exact List.Subset.refl _
      · exact fun hp => hp
      · exact fun _ hrest => hrest
    | cons node leaves =>
      obtain ⟨hnode, hchildren⟩ : node ∈ g.nodes ∧ g.children node = [] :=
        h.leaf_iff.mp (by simp [hleaves])
      obtain ⟨parent, hparent⟩ := h.attached hnode hchildren
      have turn := h.retireLeaf hleaves hparent
      have hlength := length_erase_of_mem hnode
      have hle := turn.wellFormed.nodup.subperm turn.nodes_subset |>.length_le
      have hpos := length_pos_of_mem hnode
      obtain ⟨g', ops, hrun, hleafRun⟩ := ih turn.wellFormed (by omega)
      refine ⟨g', ⟨.kCopy, parent, node⟩ :: ops, ?_, hleafRun.wellFormed,
        hleafRun.leafNodes_eq, ?_, ?_, ?_⟩
      · simp [processLeafNodes, hleaves, hparent, hrun]
      · exact fun x hx =>
          mem_of_mem_erase (turn.nodes_subset (hleafRun.nodes_subset hx))
      · intro x p hp
        have hx := hleafRun.parent_sub hp
        rw [turn.parent_eq] at hx
        by_cases hxn : x = node
        · simp [hxn] at hx
        · rwa [Function.update_of_ne hxn] at hx
      · intro rest hrest
        have htail := hleafRun.schedule rest hrest
        rw [turn.parent_eq] at htail
        exact .leaf node parent hparent (h.unread hchildren) htail

/-! ## Graphs without leaves -/

structure Cyclic (g : CopyGraph) : Prop extends WellFormed g where
  leafless : g.leafNodes = []

variable {x : Loc}

theorem Cyclic.exists_child (h : Cyclic g) (hx : x ∈ g.nodes) :
    ∃ c, g.parent c = some x := by
  have hne : g.children x ≠ [] := by
    intro hnil
    have := h.leaf_iff.mpr ⟨hx, hnil⟩
    simp [h.leafless] at this
  obtain ⟨c, hc⟩ := exists_mem_of_ne_nil _ hne
  exact ⟨c, h.children_iff.mp hc⟩

theorem Cyclic.exists_childMap (h : Cyclic g) :
    ∃ child : Loc → Loc, (∀ x ∈ g.nodes, g.parent (child x) = some x) ∧
      ∀ x ∈ g.nodes, ∃ y ∈ g.nodes, child y = x := by
  choose! child hchild using fun (y : Loc) (hy : y ∈ g.nodes) => h.exists_child hy
  have hmaps : Set.MapsTo child g.nodes.toFinset g.nodes.toFinset := by
    intro y hy
    have hy : y ∈ g.nodes := by simpa using hy
    simpa using (h.parent_mem (hchild y hy)).1
  have hinj : Set.InjOn child g.nodes.toFinset := by
    intro y hy z hz heq
    have hy := hchild y (by simpa using hy)
    have hz := hchild z (by simpa using hz)
    rw [heq, hz] at hy
    exact (Option.some.inj hy).symm
  refine ⟨child, hchild, fun x hx => ?_⟩
  obtain ⟨y, hy, rfl⟩ :=
    Finset.surjOn_of_injOn_of_card_le child hmaps hinj le_rfl
      (show x ∈ (g.nodes.toFinset : Set Loc) by simpa using hx)
  exact ⟨y, by simpa using hy, rfl⟩

theorem Cyclic.exists_parent (h : Cyclic g) (hx : x ∈ g.nodes) :
    ∃ p ∈ g.nodes, g.parent x = some p := by
  obtain ⟨child, hchild, honto⟩ := h.exists_childMap
  obtain ⟨p, hp, rfl⟩ := honto x hx
  exact ⟨p, hp, hchild p hp⟩

theorem Cyclic.parent_injective (h : Cyclic g) {y p : Loc} (hx : g.parent x = some p)
    (hy : g.parent y = some p) : x = y := by
  obtain ⟨child, hchild, honto⟩ := h.exists_childMap
  have key : ∀ {z}, g.parent z = some p → z = child p := by
    intro z hz
    obtain ⟨q, hq, rfl⟩ := honto z (h.parent_mem hz).1
    rw [hchild q hq] at hz
    rw [Option.some.inj hz]
  rw [key hx, key hy]

variable {node : Loc}

theorem Cyclic.exists_isCycle (h : Cyclic g) (hnode : node ∈ g.nodes) :
    ∃ rest, IsCycle g.parent node rest ∧ ∀ x ∈ rest, x ∈ g.nodes :=
  Foundation.ParallelAssignment.exists_isCycle
    (fun _ hx => h.exists_parent hx) h.parent_injective hnode

variable {rest : List Loc}

theorem inRegisterCycleFrom_eq_true (chain : (x :: rest).IsChain (fun x y => g.parent x = some y))
    (closes : g.parent ((x :: rest).getLast (by simp)) = some node) (hnode : node ∉ rest)
    (registers : ∀ y ∈ x :: rest, 0 ≤ y) (hfuel : rest.length < fuel) :
    g.inRegisterCycleFrom node fuel x = some true := by
  induction rest generalizing x fuel with
  | nil =>
    obtain ⟨fuel, rfl⟩ := Nat.exists_eq_add_one.mpr hfuel
    have hx : ¬ x < 0 := not_lt.mpr (registers x (by simp))
    have hparent : g.parent x = some node := closes
    simp [inRegisterCycleFrom, hx, hparent]
  | cons y rest ih =>
    obtain ⟨fuel, rfl⟩ := Nat.exists_eq_add_one.mpr (Nat.zero_lt_of_lt hfuel)
    obtain ⟨hy, htail⟩ := isChain_cons_cons.mp chain
    have hx : ¬ x < 0 := not_lt.mpr (registers x (by simp))
    have hne : y ≠ node := fun heq => hnode (by simp [heq])
    rw [getLast_cons (by simp)] at closes
    simp only [inRegisterCycleFrom, hx, hy, hne, if_false]
    exact ih htail closes (fun hmem => hnode (mem_cons_of_mem _ hmem))
      (fun z hz => registers z (mem_cons_of_mem _ hz))
      (by simpa using hfuel)

structure ChainErased (g g' : CopyGraph) (xs : List Loc) : Prop where
  linked : Linked g'
  parent_eq : g'.parent = retire g.parent xs
  mem_nodes : ∀ {x}, x ∈ g'.nodes ↔ x ∈ g.nodes ∧ x ∉ xs
  leafNodes_subset : g'.leafNodes ⊆ g.leafNodes

theorem exchangeChain_spec (h : Linked g) (nodup : (node :: rest).Nodup)
    (chain : (node :: rest).IsChain (fun x y => g.parent x = some y))
    (root : g.parent ((node :: rest).getLast (by simp)) = none)
    (unread : ∀ y, g.parent y ≠ some node)
    (unshared : ∀ x p, g.parent x = some p → p ∈ node :: rest → x ∈ node :: rest)
    (hfuel : rest.length < fuel) :
    ∃ g' ops, exchangeChain fuel g node = some (g', ops) ∧
      ops.map Op.toInstr = chainSwaps node rest ∧
      ChainErased g g' (node :: rest) := by
  have herased := h.eraseNode (h.children_eq_nil_of_unread unread)
  induction rest generalizing g node fuel with
  | nil =>
    obtain ⟨fuel, rfl⟩ := Nat.exists_eq_add_one.mpr hfuel
    have hparent : g.parent node = none := root
    refine ⟨g.eraseNode node, [], by simp [exchangeChain, hparent], rfl,
      herased, ?_, ?_, ?_⟩
    · funext x
      by_cases hx : x = node
      · simp [retire, hx]
      · simp [retire, hx]
    · intro x
      rw [eraseNode_nodes, h.nodup.mem_erase_iff]
      simp [and_comm]
    · rw [eraseNode_leafNodes]
      exact erase_subset
  | cons next rest ih =>
    obtain ⟨fuel, rfl⟩ := Nat.exists_eq_add_one.mpr (Nat.zero_lt_of_lt hfuel)
    obtain ⟨hnext, htail⟩ := isChain_cons_cons.mp chain
    have hnotMem : node ∉ next :: rest := (nodup_cons.mp nodup).1
    rw [getLast_cons (by simp)] at root
    have hsame : ∀ x ∈ next :: rest, (g.eraseNode node).parent x = g.parent x := by
      intro x hx
      have hne : x ≠ node := fun heq => hnotMem (heq ▸ hx)
      simp [hne]
    have hbelow : ∀ {x p}, (g.eraseNode node).parent x = some p →
        x ≠ node ∧ g.parent x = some p := by
      intro x p hx
      by_cases hxn : x = node
      · simp [hxn] at hx
      · exact ⟨hxn, by simpa [hxn] using hx⟩
    have hunshared : ∀ x p, (g.eraseNode node).parent x = some p →
        p ∈ next :: rest → x ∈ next :: rest := by
      intro x p hx hp
      obtain ⟨hxn, hx⟩ := hbelow hx
      exact (mem_cons.mp (unshared x p hx (mem_cons_of_mem _ hp))).resolve_left hxn
    have hunread : ∀ y, (g.eraseNode node).parent y ≠ some next := by
      intro y hy
      have hmem := hunshared y next hy (by simp)
      have hy := (hbelow hy).2
      have hlast : y ≠ (next :: rest).getLast (by simp) := by
        rintro rfl
        simp [root] at hy
      exact (nodup_cons.mp nodup.of_cons).1 (chain_succ_mem htail hmem hlast hy)
    obtain ⟨g', ops, hrun, hops, hchain⟩ := ih herased nodup.of_cons
      (chain_congr htail fun x hx => hsame x (dropLast_subset _ hx))
      (by rw [hsame _ (getLast_mem _)]; exact root)
      hunread hunshared (by simpa using hfuel)
      (herased.eraseNode (herased.children_eq_nil_of_unread hunread))
    refine ⟨g', ⟨.kExchange, node, next⟩ :: ops, ?_, ?_, hchain.linked, ?_, ?_, ?_⟩
    · simp [exchangeChain, hnext, hrun]
    · simp [hops, Op.toInstr, chainSwaps]
    · rw [hchain.parent_eq]
      funext x
      by_cases hxn : x = node
      · simp [retire, hxn]
      · simp [retire, hxn]
    · intro x
      rw [hchain.mem_nodes, eraseNode_nodes, h.nodup.mem_erase_iff, mem_cons (a := x) (b := node)]
      tauto
    · intro x hx
      have := hchain.leafNodes_subset hx
      rw [eraseNode_leafNodes] at this
      exact mem_of_mem_erase this

/-! ## One turn of the cycle loop -/

structure CycleRun (g g' : CopyGraph) (ops : List Op) : Prop where
  cyclic : Cyclic g'
  noTemp : kTempLoc ∉ g'.nodes
  nodes_length : g'.nodes.length < g.nodes.length
  schedule : ∀ rest, Scheduled g'.parent rest → Scheduled g.parent (ops ++ rest)

variable {child : Loc}

theorem Cyclic.head?_children (h : Cyclic g) (hchild : g.parent child = some node) :
    (g.children node).head? = some child := by
  have hmem := h.children_iff.mpr hchild
  cases hlist : g.children node with
  | nil => simp [hlist] at hmem
  | cons c cs =>
    have hc : g.parent c = some node := h.children_iff.mp (by simp [hlist])
    simp [h.parent_injective hc hchild]

theorem nodes_length_lt {g g' : CopyGraph} (h' : Linked g')
    (hsub : ∀ x ∈ g'.nodes, x ∈ g.nodes ∧ x ≠ node) (hnode : node ∈ g.nodes) :
    g'.nodes.length < g.nodes.length := by
  have hsubset : node :: g'.nodes ⊆ g.nodes := by
    intro x hx
    rcases mem_cons.mp hx with rfl | hx
    · exact hnode
    · exact (hsub x hx).1
  have hnodup : (node :: g'.nodes).Nodup :=
    nodup_cons.mpr ⟨fun hmem => (hsub node hmem).2 rfl, h'.nodup⟩
  exact (hnodup.subperm hsubset).length_le

theorem Cyclic.of_chainErased (h : Cyclic g) {g' : CopyGraph}
    (hcycle : IsCycle g.parent node rest) (hlinked : Linked g')
    (hparent : g'.parent = retire g.parent (node :: rest))
    (hnodes : ∀ {x}, x ∈ g'.nodes ↔ x ∈ g.nodes ∧ x ∉ node :: rest) (hleaf : g'.leafNodes = []) :
    Cyclic g' := by
  have hchildren : ∀ {x}, x ∈ g'.nodes → g'.children x ≠ [] := by
    intro x hx hnil
    obtain ⟨hx, hout⟩ := hnodes.mp hx
    obtain ⟨c, hc⟩ := h.exists_child hx
    have hcout : c ∉ node :: rest := by
      intro hmem
      obtain ⟨p, hp, hcp⟩ := hcycle.exists_succ hmem
      rw [hc] at hcp
      exact hout (Option.some.inj hcp ▸ hp)
    have : g'.parent c = some x := by simpa [hparent, retire, hcout] using hc
    exact hlinked.unread hnil c this
  refine ⟨⟨hlinked, ?_, by simp [hleaf], ?_⟩, hleaf⟩
  · intro x
    rw [hleaf]
    constructor
    · simp
    · exact fun hx => absurd hx.2 (hchildren hx.1)
  · exact fun hx hnil => absurd hnil (hchildren hx)

theorem processCycle_register (h : Cyclic g) (noTemp : kTempLoc ∉ g.nodes)
    (hnode : node ∈ g.nodes) (least : ∀ x ∈ g.nodes, node ≤ x) (hreg : 0 ≤ node)
    (hfuel : g.nodes.length < fuel) :
    ∃ g' ops, processCycle fuel g node = some (g', ops) ∧ CycleRun g g' ops := by
  obtain ⟨rest, hcycle, hrest⟩ := h.exists_isCycle hnode
  have hmem : ∀ x ∈ node :: rest, x ∈ g.nodes := by
    intro x hx
    rcases mem_cons.mp hx with rfl | hx
    · exact hnode
    · exact hrest x hx
  have hregisters : ∀ x ∈ node :: rest, 0 ≤ x :=
    fun x hx => hreg.trans (least x (hmem x hx))
  have hlength : rest.length < fuel := by
    have := (hcycle.nodup.subperm hmem).length_le
    simp at this
    omega
  have hloop : inRegisterCycle fuel g node = some true :=
    inRegisterCycleFrom_eq_true hcycle.chain hcycle.closes
      (nodup_cons.mp hcycle.nodup).1 hregisters hlength
  have hhead := h.head?_children hcycle.closes
  generalize hlast : (node :: rest).getLast (by simp) = last at hhead
  have hlastMem : last ∈ node :: rest := hlast ▸ getLast_mem _
  have hparent : ∀ {x p}, (g.setParent last none).parent x = some p →
      x ≠ last ∧ g.parent x = some p := by
    intro x p hx
    by_cases hxl : x = last
    · simp [hxl] at hx
    · exact ⟨hxl, by simpa [hxl] using hx⟩
  obtain ⟨g', ops, hrun, hops, herased⟩ :=
    exchangeChain_spec (h.toLinked.setParent_none last) hcycle.nodup
      (chain_congr hcycle.chain fun x hx => by
        have hne : x ≠ last := by
          rintro rfl
          exact getLast_notMem_dropLast (by simp) hcycle.nodup (hlast ▸ hx)
        simp [hne])
      (by simp [hlast])
      (fun y hy => (hparent hy).1
        (h.parent_injective (hparent hy).2 (hlast ▸ hcycle.closes)))
      (fun x p hx hp => hcycle.unshared x p (hparent hx).2 hp)
      hlength
  have hretire : g'.parent = retire g.parent (node :: rest) := by
    rw [herased.parent_eq]
    funext x
    by_cases hx : x ∈ node :: rest
    · simp only [retire, hx, if_true]
    · have hne : x ≠ last := fun heq => hx (heq ▸ hlastMem)
      simp only [retire, hx, if_false, setParent_parent, Function.update_of_ne hne]
  have hnodes : ∀ {x}, x ∈ g'.nodes ↔ x ∈ g.nodes ∧ x ∉ node :: rest := by
    intro x
    simpa using herased.mem_nodes (x := x)
  have hleaf : g'.leafNodes = [] := by
    have := herased.leafNodes_subset
    simpa [setParent, h.leafless] using this
  refine ⟨g', ops, by simp [processCycle, hloop, hhead, hrun],
    h.of_chainErased hcycle herased.linked hretire hnodes hleaf,
    fun hx => noTemp (hnodes.mp hx).1, ?_, ?_⟩
  · refine nodes_length_lt herased.linked (fun x hx => ?_) hnode
    exact ⟨(hnodes.mp hx).1, fun heq => (hnodes.mp hx).2 (by simp [heq])⟩
  · intro tail htail
    rw [Scheduled, map_append, hops]
    refine .cycle node rest hcycle hregisters (fun x hx => least x (hrest x hx)) ?_
    rwa [Scheduled, hretire] at htail

theorem Cyclic.saveToTemp_parent (h : Cyclic g) (node child : Loc) :
    (g.saveToTemp node child).parent =
      Function.update g.parent child (some kTempLoc) := by
  simp [saveToTemp, h.toLinked.getNode_parent]

theorem Cyclic.saveToTemp_unread (h : Cyclic g) (noTemp : kTempLoc ∉ g.nodes)
    (hchild : g.parent child = some node) (y : Loc) :
    (g.saveToTemp node child).parent y ≠ some node := by
  rw [h.saveToTemp_parent]
  intro hy
  have hnode := (h.parent_mem hchild).2
  by_cases hyc : y = child
  · have htemp : kTempLoc = node := by simpa [hyc] using hy
    exact noTemp (htemp ▸ hnode)
  · exact hyc (h.parent_injective (by simpa [hyc] using hy) hchild)

theorem Cyclic.saveToTemp_wellFormed (h : Cyclic g) (noTemp : kTempLoc ∉ g.nodes)
    (hchild : g.parent child = some node) :
    WellFormed (g.saveToTemp node child) := by
  have hnodes : ∀ {x}, x ∈ (g.saveToTemp node child).nodes ↔
      x = kTempLoc ∨ x ∈ g.nodes := by
    intro x
    simp [saveToTemp, mem_getNode_nodes]
  have hchildMem := (h.parent_mem hchild).1
  have hnode := (h.parent_mem hchild).2
  have hne : child ≠ kTempLoc := fun heq => noTemp (heq ▸ hchildMem)
  have hlinked : Linked (g.saveToTemp node child) :=
    ((h.toLinked.getNode kTempLoc).setParent_some
      (mem_getNode_nodes.mpr (.inr hchildMem))
      (mem_getNode_nodes.mpr (.inl rfl)) hne).withLeafNodes _
  have hunread := hlinked.children_eq_nil_of_unread
    (h.saveToTemp_unread noTemp hchild)
  have hleaves : (g.saveToTemp node child).leafNodes = [node] := by
    simp [saveToTemp, setParent, getNode, noTemp, h.leafless]
  have hread : ∀ {x}, x ∈ (g.saveToTemp node child).nodes → x ≠ node →
      (g.saveToTemp node child).children x ≠ [] := by
    intro x hx hxn hnil
    rcases hnodes.mp hx with rfl | hx
    · refine hlinked.unread hnil child ?_
      simp [h.saveToTemp_parent]
    · obtain ⟨c, hc⟩ := h.exists_child hx
      have hcc : c ≠ child := by
        rintro rfl
        rw [hchild] at hc
        exact hxn (Option.some.inj hc).symm
      exact hlinked.unread hnil c (by simpa [h.saveToTemp_parent, hcc] using hc)
  refine ⟨hlinked, ?_, by simp [hleaves], ?_⟩
  · intro x
    rw [hleaves, mem_singleton]
    constructor
    · rintro rfl
      exact ⟨hnodes.mpr (.inr hnode), hunread⟩
    · rintro ⟨hx, hnil⟩
      by_contra hxn
      exact hread hx hxn hnil
  · intro x hx hnil
    by_cases hxn : x = node
    · subst x
      obtain ⟨p, -, hp⟩ := h.exists_parent hnode
      have hnc : node ≠ child := (h.no_self hchild).symm
      exact ⟨p, by simpa [h.saveToTemp_parent, hnc] using hp⟩
    · exact absurd hnil (hread hx hxn)

theorem processCycle_memory (h : Cyclic g) (noTemp : kTempLoc ∉ g.nodes) (hnode : node ∈ g.nodes)
    (hmemory : node < 0) (hfuel : g.nodes.length + 1 < fuel) :
    ∃ g' ops, processCycle fuel g node = some (g', ops) ∧ CycleRun g g' ops := by
  obtain ⟨child, hchild⟩ := h.exists_child hnode
  have hhead := h.head?_children hchild
  have hloop : inRegisterCycle fuel g node = some false := by
    obtain ⟨fuel, rfl⟩ := Nat.exists_eq_add_one.mpr (Nat.zero_lt_of_lt hfuel)
    simp [inRegisterCycle, inRegisterCycleFrom, hmemory]
  have hlength : (g.saveToTemp node child).nodes.length < fuel := by
    simpa [saveToTemp, getNode, noTemp, orderedInsert_length] using hfuel
  obtain ⟨g', ops, hrun, hleafRun⟩ :=
    processLeafNodes_spec (h.saveToTemp_wellFormed noTemp hchild) hlength
  have hcyclic : Cyclic g' := ⟨hleafRun.wellFormed, hleafRun.leafNodes_eq⟩
  have hparentTemp := h.parent_eq_none noTemp
  have hchildTemp : kTempLoc ≠ child :=
    fun heq => noTemp (heq ▸ (h.parent_mem hchild).1)
  have hnoTemp : kTempLoc ∉ g'.nodes := by
    intro hx
    obtain ⟨p, -, hp⟩ := hcyclic.exists_parent hx
    have := hleafRun.parent_sub hp
    simp [h.saveToTemp_parent, hchildTemp, hparentTemp] at this
  refine ⟨g', ⟨.kCopy, node, kTempLoc⟩ :: ops, ?_, hcyclic, hnoTemp, ?_, ?_⟩
  · simp [processCycle, hloop, hhead, hrun]
  · refine nodes_length_lt hcyclic.toLinked (fun x hx => ?_) hnode
    constructor
    · have hsub := hleafRun.nodes_subset hx
      simp only [saveToTemp, setParent_nodes, mem_getNode_nodes] at hsub
      exact hsub.resolve_left fun heq => hnoTemp (heq ▸ hx)
    · rintro rfl
      obtain ⟨c, hc⟩ := hcyclic.exists_child hx
      exact h.saveToTemp_unread noTemp hchild c (hleafRun.parent_sub hc)
  · intro rest hrest
    have htail := hleafRun.schedule rest hrest
    rw [h.saveToTemp_parent] at htail
    exact .save child node hchild (not_le.mpr hmemory) hparentTemp
      (fun y hy => noTemp (h.parent_mem hy).2) htail

theorem processCycles_spec (h : Cyclic g) (noTemp : kTempLoc ∉ g.nodes)
    (hfuel : g.nodes.length + 1 < fuel) :
    ∃ g' ops, processCycles fuel g = some (g', ops) ∧ g'.isEmpty = true ∧
      Scheduled g.parent ops := by
  induction fuel generalizing g with
  | zero => omega
  | succ fuel ih =>
    cases hnodes : g.nodes with
    | nil =>
      refine ⟨g, [], by simp [processCycles, hnodes], by simp [isEmpty, hnodes], ?_⟩
      exact .done fun x => h.parent_eq_none (by simp [hnodes])
    | cons node others =>
      have hnode : node ∈ g.nodes := by simp [hnodes]
      have hleast : ∀ x ∈ g.nodes, node ≤ x := by
        have hsorted := h.sorted
        rw [hnodes, pairwise_cons] at hsorted
        intro x hx
        rw [hnodes] at hx
        rcases mem_cons.mp hx with rfl | hx
        · exact le_rfl
        · exact (hsorted.1 x hx).le
      have hturn : ∃ g' ops, processCycle (fuel + 1) g node = some (g', ops) ∧
          CycleRun g g' ops := by
        rcases lt_or_ge node 0 with hmemory | hreg
        · exact processCycle_memory h noTemp hnode hmemory hfuel
        · exact processCycle_register h noTemp hnode hleast hreg (by omega)
      obtain ⟨g₁, ops, hrun, hcycleRun⟩ := hturn
      have hlength := hcycleRun.nodes_length
      obtain ⟨g', rest, hrest, hempty, hschedule⟩ :=
        ih hcycleRun.cyclic hcycleRun.noTemp (by omega)
      exact ⟨g', ops ++ rest, by simp [processCycles, hnodes, hrun, hrest],
        hempty, hcycleRun.schedule rest hschedule⟩

theorem process_spec (h : WellFormed g) (noTemp : kTempLoc ∉ g.nodes)
    (hfuel : g.nodes.length + 1 < fuel) :
    ∃ g' ops, process fuel g = some (g', ops) ∧ g'.isEmpty = true ∧
      Scheduled g.parent ops := by
  obtain ⟨g₁, ops, hrun, hleafRun⟩ :=
    processLeafNodes_spec h (show g.nodes.length < fuel by omega)
  have hlength := (hleafRun.wellFormed.nodup.subperm hleafRun.nodes_subset).length_le
  obtain ⟨g', rest, hrest, hempty, hschedule⟩ :=
    processCycles_spec ⟨hleafRun.wellFormed, hleafRun.leafNodes_eq⟩
      (fun hx => noTemp (hleafRun.nodes_subset hx))
      (show g₁.nodes.length + 1 < fuel by omega)
  exact ⟨g', ops ++ rest, by simp [process, hrun, hrest], hempty,
    hleafRun.schedule rest hschedule⟩

/-- An edge list the graph accepts: no two copies write one location. -/
structure Admissible (edges : List (Loc × Loc)) : Prop where
  targets : (edges.map Prod.snd).Nodup
  no_self : ∀ e ∈ edges, e.1 ≠ e.2
  no_temp : ∀ e ∈ edges, e.1 ≠ kTempLoc ∧ e.2 ≠ kTempLoc

variable {edges : List (Loc × Loc)}

theorem Admissible.addEdges (h : Admissible edges) :
    ∃ g, empty.addEdges edges = some g ∧ EdgesAdded empty g edges :=
  empty_wellFormed.addEdges h.targets (fun _ _ => rfl) h.no_self

theorem Admissible.parent_iff {g : CopyGraph} (hadded : EdgesAdded empty g edges) {p : Loc} :
    g.parent x = some p ↔ (p, x) ∈ edges := by
  simpa [empty] using hadded.parent_iff (x := x) (p := p)

theorem Admissible.process (h : Admissible edges)
    {g : CopyGraph} (hadded : EdgesAdded empty g edges) {fuel : Nat}
    (hfuel : 2 * edges.length + 1 < fuel) :
    ∃ g' ops, process fuel g = some (g', ops) ∧ g'.isEmpty = true ∧
      Scheduled g.parent ops := by
  have hnoTemp : kTempLoc ∉ g.nodes := by
    intro hx
    rcases hadded.mem_nodes hx with hx | ⟨e, he, hx | hx⟩
    · simp [empty] at hx
    · exact (h.no_temp e he).1 hx.symm
    · exact (h.no_temp e he).2 hx.symm
  have hlength := hadded.nodes_length
  have hempty : empty.nodes.length = 0 := rfl
  exact process_spec hadded.wellFormed hnoTemp (by omega)

theorem exchange_registers {par : Loc → Option Loc} {ops : List Op}
    (h : Scheduled par ops) {op : Op} (hop : op ∈ ops) (hkind : op.kind = .kExchange) :
    0 ≤ op.fromLoc ∧ 0 ≤ op.toLoc := by
  have hmem : Instr.swap op.fromLoc op.toLoc ∈ ops.map Op.toInstr := by
    refine List.mem_map.mpr ⟨op, hop, ?_⟩
    simp [Op.toInstr, hkind]
  exact h.swap_swappable hmem

/--
The list returned by `process` performs all the copies of an admissible edge
list at once, touches nothing but its targets and the temporary, exchanges only
registers, and leaves the graph empty.
-/
theorem process_parallel_copy (edges : List (Loc × Loc)) (h : Admissible edges)
    (fuel : Nat) (hfuel : 2 * edges.length + 1 < fuel) :
    ∃ g g' ops, empty.addEdges edges = some g ∧
      CopyGraph.process fuel g = some (g', ops) ∧ g'.isEmpty = true ∧
      (∀ op ∈ ops, op.kind = .kExchange → 0 ≤ op.fromLoc ∧ 0 ≤ op.toLoc) ∧
      ∀ (V : Type) (σ : Loc → V),
        (∀ e ∈ edges, executeAll σ ops e.2 = σ e.1) ∧
        ∀ x, x ∉ edges.map Prod.snd → x ≠ kTempLoc → executeAll σ ops x = σ x := by
  obtain ⟨g, hadd, hadded⟩ := h.addEdges
  obtain ⟨g', ops, hrun, hempty, hschedule⟩ := h.process hadded hfuel
  refine ⟨g, g', ops, hadd, hrun, hempty,
    fun op hop hkind => exchange_registers hschedule hop hkind, fun V σ => ⟨?_, ?_⟩⟩
  · intro e he
    rw [executeAll_eq_runAll, hschedule.runAll_eq σ (h.no_temp e he).2]
    exact assigned_some ((Admissible.parent_iff hadded).mpr he) σ
  · intro x hx htemp
    rw [executeAll_eq_runAll, hschedule.runAll_eq σ htemp]
    apply assigned_none
    cases hp : g.parent x with
    | none => rfl
    | some p =>
      have hmem := (Admissible.parent_iff hadded).mp hp
      exact absurd (List.mem_map_of_mem (f := Prod.snd) hmem) hx

/-- A cycle through memory and a register cycle with a copy hanging off it. -/
theorem process_parallel_copy_two_cycles :
    ∃ g g' ops, empty.addEdges [(1, 2), (2, 1), (2, 3), (8, -9), (-9, 8)] = some g ∧
      CopyGraph.process 12 g = some (g', ops) ∧ g'.isEmpty = true ∧
      ∀ σ : Loc → Nat, executeAll σ ops 3 = σ 2 ∧ executeAll σ ops 8 = σ (-9) := by
  obtain ⟨g, g', ops, hadd, hrun, hempty, -, hcopies⟩ :=
    process_parallel_copy [(1, 2), (2, 1), (2, 3), (8, -9), (-9, 8)]
      ⟨by decide, by decide, by decide⟩ 12 (by decide)
  refine ⟨g, g', ops, hadd, hrun, hempty, fun σ => ?_⟩
  exact ⟨(hcopies Nat σ).1 (2, 3) (by decide), (hcopies Nat σ).1 (-9, 8) (by decide)⟩

end CopyGraph

end CinderX.Jit.Codegen
