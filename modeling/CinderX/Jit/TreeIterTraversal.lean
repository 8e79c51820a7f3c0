import CinderX.Jit.TreeIterSteps

/-!
# The traversal of a tree

On a finite tree of nodes of one type, within the depth budget, the tree
iterator yields the values in order.
-/

namespace CinderX.Jit.TreeIter

open List

variable {Node Value : Type}

def inorder : BinaryTree Node → List Node
  | .nil => []
  | .node node left right => inorder left ++ node :: inorder right

def Represents (env : Env Node Value) : BinaryTree Node → Option Node → Prop
  | .nil, child => child = none
  | .node node left right, child =>
    child = some node ∧ Represents env left (env.fields node).left ∧
      Represents env right (env.fields node).right

/-- The nodes of a tree are different objects of one type, and the levels from its root on are
within the budget and in what the stack can hold. -/
structure Fits (env : Env Node Value) (nodeType : Nat) (budget : Int) (level : Nat)
    (tree : BinaryTree Node) : Prop where
  nodup : (inorder tree).Nodup
  types : ∀ node ∈ inorder tree, env.typeOf node = nodeType
  budget : 0 < budget → level + tree.height ≤ budget
  room : level + tree.height ≤ 1073741825

structure Env.Allocates (env : Env Node Value) : Prop where
  grows : ∀ capacity, env.grows capacity = true
  hashes : ∀ nodes, env.hashes nodes = true

variable {env : Env Node Value} {nodeType level : Nat} {budget : Int} {node child : Node}
  {left right : BinaryTree Node}

theorem Fits.of_left (h : Fits env nodeType budget level (.node node left right)) :
    Fits env nodeType budget (level + 1) left := by
  obtain ⟨hnodup, htypes, hbudget, hroom⟩ := h
  simp only [inorder, BinaryTree.height, nodup_append, mem_append] at *
  refine ⟨hnodup.1, fun id hid => htypes id (.inl hid), fun hpos => ?_, by omega⟩
  have hlevel := hbudget hpos
  omega

theorem Fits.of_right (h : Fits env nodeType budget level (.node node left right)) :
    Fits env nodeType budget (level + 1) right := by
  obtain ⟨hnodup, htypes, hbudget, hroom⟩ := h
  simp only [inorder, BinaryTree.height, nodup_append, mem_append] at *
  refine ⟨(nodup_cons.mp hnodup.2.1).2, fun id hid => htypes id (.inr (.tail _ hid)),
    fun hpos => ?_, by omega⟩
  have hlevel := hbudget hpos
  omega

section Enter

open Config

variable [DecidableEq Node] {m : Machine Node} {phase ifNone resume : TreeIterPhase}
  {entries : List (TreeIterStackEntry Node)} {fields : NodeFields Node Value → Option Node}

theorem treeIterActivePathInsert_eq (hmemory : env.Allocates) (nodes : Finset Node) (node : Node) :
    TreeIterState.treeIterActivePathInsert env nodes node = .ok (insert node nodes) := by
  unfold TreeIterState.treeIterActivePathInsert
  split
  next hmem => rw [Finset.insert_eq_of_mem hmem]
  next => rw [if_pos (hmemory.hashes _)]

theorem checkActivePath_isOk (hmemory : env.Allocates) (state : TreeIterState Node)
    {nodes : Finset Node} (hunseen : child ∉ insert node nodes) :
    ∃ state', state.checkActivePath env node child nodes = .ok state' := by
  refine ⟨{ state with activePath := some (insert child (insert node nodes)) }, ?_⟩
  simp only [TreeIterState.checkActivePath, treeIterActivePathInsert_eq hmemory, bind, Except.bind,
    if_neg hunseen]
  rfl

theorem checkTreeIterChildEntry_isOk (hmemory : env.Allocates) (h : m.At node phase entries)
    (htype : env.typeOf child = env.typeOf node)
    (hbudget : 0 < m.state.depthBudget → (entries.length : Int) + 1 < m.state.depthBudget)
    (hunseen : child ∉ insert node m.state.visited) :
    ∃ state, m.state.checkTreeIterChildEntry env child = .ok state := by
  have htop : m.state.stackTop = entries.length := by
    rw [← Machine.length_entries h.wellFormed, h.entries]
  have hdepth : ¬ (m.state.depthBudget > 0 ∧
    (m.state.stackTop : Int) + 1 ≥ m.state.depthBudget) := by
    rintro ⟨hpos, hge⟩
    have hlt := hbudget hpos
    omega
  unfold TreeIterState.checkTreeIterChildEntry
  simp only [h.node, htype, ne_eq, not_true, if_false, if_neg hdepth]
  cases hactive : m.state.activePath with
  | some nodes =>
    rw [TreeIterState.visited, hactive, Option.getD_some] at hunseen
    exact checkActivePath_isOk hmemory _ hunseen
  | none =>
    rw [TreeIterState.visited, hactive, Option.getD_none] at hunseen
    simp only
    split
    · rw [Finset.mem_insert, not_or, List.mem_toFinset, TreeIterState.mem_path_iff h.node,
        not_or] at hunseen
      rw [if_neg hunseen.1, if_neg hunseen.2.2]
      exact ⟨_, rfl⟩
    · have hnodes : m.state.treeIterMaterializeActivePath env = .ok m.state.path.toFinset :=
        if_pos (hmemory.hashes _)
      simp only [hnodes, bind, Except.bind]
      exact checkActivePath_isOk hmemory _ hunseen

omit [DecidableEq Node] in
theorem grownStack_isSome (hmemory : env.Allocates) {state : TreeIterState Node}
    (hroom : state.stackTop ≤ 1073741823) : ∃ stack, Machine.grownStack env state = some stack := by
  unfold Machine.grownStack
  split
  · rw [if_neg (by omega), if_pos (hmemory.grows _)]
    exact ⟨_, rfl⟩
  · exact ⟨_, rfl⟩

theorem childPhase_enters (ifNone resume : TreeIterPhase) (hmemory : env.Allocates)
    (h : m.At node phase entries)
    (hchild : fields (env.fields node) = some child) (htype : env.typeOf child = env.typeOf node)
    (hbudget : 0 < m.state.depthBudget → (entries.length : Int) + 1 < m.state.depthBudget)
    (hroom : entries.length ≤ 1073741823) (hunseen : child ∉ insert node m.state.visited) :
    ∃ m', childPhase env fields ifNone resume m = some (.running m') ∧
      m'.At child .kLeft (entries ++ [⟨some node, resume⟩]) ∧
      m'.state.depthBudget = m.state.depthBudget ∧ m'.state.depth = m.state.depth + 1 ∧
      m'.state.visited ⊆ insert child (insert node m.state.visited) ∧
      (m'.state.activePath = none → entries.length < kTreeIterActivePathHashThreshold) := by
  obtain ⟨state, hcheck⟩ := checkTreeIterChildEntry_isOk hmemory h htype hbudget hunseen
  have hat := h.checked hcheck
  have htop : state.stackTop = entries.length := by
    rw [← Machine.length_entries hat.wellFormed, hat.entries]
  obtain ⟨stack, hstack⟩ := grownStack_isSome hmemory (htop.trans_le hroom)
  have hpush : ∃ m', ({ m with state := state }.incref node).stateStackPush env node resume =
      some m' := ⟨_, congrArg (Option.bind · _) hstack⟩
  obtain ⟨m', hpush⟩ := hpush
  obtain ⟨hactive, hdepth, hbudget', -⟩ := pushedPhase_state child hat hpush
  have hentered : (pushedPhase node child m').At child .kLeft _ := pushedPhase_at hat hpush
  refine ⟨_, childPhase_pushed h hchild hcheck hpush, hentered, ?_⟩
  rw [hbudget', hdepth, TreeIterState.visited, hactive]
  obtain ⟨-, ⟨rfl, hnone, hshallow⟩ | rfl⟩ :=
    TreeIterState.checkTreeIterChildEntry_ok h.node hcheck
  · refine ⟨rfl, rfl, ?_, fun _ => htop ▸ hshallow⟩
    rw [hnone, TreeIterState.visited, hnone]
    intro other hother
    simp only [Option.getD_none, Finset.mem_insert, List.mem_toFinset,
      h.mem_path_push hentered] at hother ⊢
    exact hother.imp_right .inr
  · exact ⟨rfl, rfl, Finset.Subset.refl _, fun hnone => by cases hnone⟩

variable (env) in
theorem backtrackPhase_pops (h : m.At child .kBacktrack (entries ++ [⟨some node, resume⟩])) :
    ∃ m', Config.step env (.running m) = some (.running m') ∧ m'.At node resume entries ∧
      m'.state.depthBudget = m.state.depthBudget ∧ m'.state.depth = m.state.depth - 1 ∧
      m'.state.activePath = (m.state.activePath.map fun nodes => nodes \ m.state.erased) ∧
      m'.state.visited ⊆ m.state.visited := by
  obtain ⟨m', hpop, hat, -, hstate⟩ := popPhase_spec Value h
  have htop : m.state.stackTop ≠ 0 := by
    rw [← Machine.length_entries h.wellFormed, h.entries, length_append]
    exact Nat.succ_ne_zero _
  have hactive : m'.state.activePath =
      m.state.activePath.map fun nodes => nodes \ m.state.erased := by
    rw [hstate]
    exact TreeIterState.activePath_treeIterLeaveCurrentNode _
  refine ⟨m', ?_, hat, ?_, ?_, hactive, ?_⟩
  · rw [step_kBacktrack h.phase, backtrackPhase, if_neg htop, hpop]
  · rw [hstate]
    exact TreeIterState.depthBudget_treeIterLeaveCurrentNode _
  · rw [hstate]
    exact TreeIterState.depth_treeIterLeaveCurrentNode _
  · exact TreeIterState.visited_subset
      (fun other hother => (hat.mem_path_push h).mpr (.inr hother)) hactive

theorem exitPhase_leaves (h : m.At node .kExit entries) :
    ∃ m', Config.step env (.running m) = some (.running m') ∧ m'.At node .kBacktrack entries ∧
      m'.state.depthBudget = m.state.depthBudget ∧ m'.state.visited ⊆ m.state.visited := by
  have hat := exitPhase_at h
  refine ⟨_, step_kExit h.phase, hat, TreeIterState.depthBudget_treeIterLeaveCurrentNode _, ?_⟩
  refine TreeIterState.visited_subset (fun other hother => ?_)
    (TreeIterState.activePath_treeIterLeaveCurrentNode _)
  rwa [h.mem_path_iff, ← hat.mem_path_iff]

def Traverses (env : Env Node Value) (tree : BinaryTree Node) : Prop :=
  ∀ {m : Machine Node} {node : Node} {entries : List (TreeIterStackEntry Node)},
    m.At node .kLeft entries → Represents env tree (some node) →
    Fits env (env.typeOf node) m.state.depthBudget entries.length tree →
    (∀ other ∈ inorder tree, other ≠ node → other ∉ m.state.visited) →
    ∃ m', Run env (.running m) ((inorder tree).map fun node => (env.fields node).value)
        (.running m') ∧
      m'.At node .kBacktrack entries ∧ m'.state.depthBudget = m.state.depthBudget ∧
      m'.state.visited ⊆ m.state.visited ∪ (inorder tree).toFinset

theorem traverses_field (hmemory : env.Allocates) {tree : BinaryTree Node}
    (ih : Traverses env tree) (h : m.At node phase entries)
    (hstep : Config.step env (.running m) = childPhase env fields ifNone resume m)
    (hrep : Represents env tree (fields (env.fields node)))
    (hfits : Fits env (env.typeOf node) m.state.depthBudget (entries.length + 1) tree)
    (hnode : node ∉ inorder tree) (hunseen : ∀ other ∈ inorder tree, other ∉ m.state.visited) :
    ∃ m' phase', Run env (.running m) ((inorder tree).map fun node => (env.fields node).value)
        (.running m') ∧
      m'.At node phase' entries ∧ (phase' = ifNone ∨ phase' = resume) ∧
      m'.state.depthBudget = m.state.depthBudget ∧
      m'.state.visited ⊆ insert node m.state.visited ∪ (inorder tree).toFinset := by
  cases tree with
  | nil =>
    have hnone : childPhase env fields ifNone resume m = _ := childPhase_none h hrep
    refine ⟨_, ifNone, .step (hstep.trans hnone) (.refl _), h.savePhase ifNone, .inl rfl, rfl, ?_⟩
    exact (Finset.subset_insert _ _).trans Finset.subset_union_left
  | node child left right =>
    have hchild : fields (env.fields node) = some child := hrep.1
    have hmem : child ∈ inorder (.node child left right) := by simp [inorder]
    have hlevel := hfits.budget
    have hroom := hfits.room
    rw [BinaryTree.height] at hlevel hroom
    have hunvisited : child ∉ insert node m.state.visited := by
      rw [Finset.mem_insert, not_or]
      exact ⟨fun heq => hnode (heq ▸ hmem), hunseen child hmem⟩
    obtain ⟨entered, henter, hentered, hbudget, -, hvisited, -⟩ := childPhase_enters ifNone resume
      hmemory h hchild (hfits.types child hmem) (by omega) (by omega) hunvisited
    have hfits' : Fits env (env.typeOf child) entered.state.depthBudget
        (entries ++ [TreeIterStackEntry.mk (some node) resume]).length
          (.node child left right) := by
      rw [hfits.types child hmem, hbudget, length_append]
      exact hfits
    have hunseen' : ∀ other ∈ inorder (.node child left right), other ≠ child →
        other ∉ entered.state.visited := by
      intro other hother hne hvisit
      rcases Finset.mem_insert.mp (hvisited hvisit) with heq | hvisit
      · exact hne heq
      · rcases Finset.mem_insert.mp hvisit with rfl | hvisit
        · exact hnode hother
        · exact hunseen other hother hvisit
    obtain ⟨below, hrun, hbelow, hbudget', hvisited'⟩ := ih hentered (hchild ▸ hrep) hfits' hunseen'
    obtain ⟨back, hback, hat, hbudget'', -, -, hvisited''⟩ :=
      backtrackPhase_pops env hbelow
    refine ⟨back, resume, ?_, hat, .inr rfl, hbudget''.trans (hbudget'.trans hbudget), ?_⟩
    · have hsteps := Run.step (hstep.trans henter) (hrun.trans (.step hback (.refl _)))
      simpa only [output, nil_append, append_nil] using hsteps
    · intro other hother
      have hbelow := hvisited' (hvisited'' hother)
      simp only [Finset.mem_union, Finset.mem_insert, List.mem_toFinset] at hbelow ⊢
      rcases hbelow with hbelow | hbelow
      · have hparent := hvisited hbelow
        simp only [Finset.mem_insert] at hparent
        rcases hparent with rfl | hparent | hparent
        · exact .inr hmem
        · exact .inl (.inl hparent)
        · exact .inl (.inr hparent)
      · exact .inr hbelow

theorem traverses (hmemory : env.Allocates) (tree : BinaryTree Node) : Traverses env tree := by
  induction tree with
  | nil =>
    intro m node entries h hrep
    cases hrep
  | node root left right ihLeft ihRight =>
    intro m node entries h hrep hfits hunseen
    obtain ⟨hroot, hleft, hright⟩ := hrep
    obtain rfl := Option.some.inj hroot
    have hnodup := hfits.nodup
    rw [inorder, nodup_append, nodup_cons] at hnodup
    obtain ⟨-, ⟨hnotRight, -⟩, hdisjoint⟩ := hnodup
    have hnotLeft : node ∉ inorder left := fun hmem => hdisjoint _ hmem _ (.head _) rfl
    have hunseenLeft : ∀ other ∈ inorder left, other ∉ m.state.visited := fun other hother =>
      hunseen other (mem_append_left _ hother) fun heq => hnotLeft (heq ▸ hother)
    obtain ⟨m₁, phase₁, hrun₁, hat₁, hphase₁, hbudget₁, hvisited₁⟩ := traverses_field hmemory
      ihLeft h (step_kLeft h.phase) hleft hfits.of_left hnotLeft hunseenLeft
    obtain rfl : phase₁ = .kYield := hphase₁.elim id id
    have hsuspend : Config.step env (.running m₁) = some (.suspended m₁ (env.fields node).value) :=
      (step_kYield hat₁.phase).trans (yieldPhase_eq hat₁)
    have hat₂ := hat₁.savePhase .kRight
    have hfits₂ : Fits env (env.typeOf node) m₁.state.depthBudget (entries.length + 1) right :=
      hbudget₁ ▸ hfits.of_right
    have hunseenRight : ∀ other ∈ inorder right, other ∉ m₁.state.visited := by
      intro other hother hvisit
      have hne : other ≠ node := fun heq => hnotRight (heq ▸ hother)
      rcases Finset.mem_union.mp (hvisited₁ hvisit) with hvisit | hvisit
      · refine hunseen other (mem_append_right _ (.tail _ hother)) hne ?_
        exact Finset.mem_of_mem_insert_of_ne hvisit hne
      · exact hdisjoint _ (List.mem_toFinset.mp hvisit) _ (.tail _ hother) rfl
    obtain ⟨m₃, phase₃, hrun₃, hat₃, hphase₃, hbudget₃, hvisited₃⟩ := traverses_field hmemory
      ihRight hat₂ (step_kRight hat₂.phase) hright hfits₂ hnotRight hunseenRight
    obtain ⟨m₄, hrun₄, hat₄, hbudget₄, hvisited₄⟩ : ∃ m₄, Run env (.running m₃) [] (.running m₄) ∧
        m₄.At node .kBacktrack entries ∧ m₄.state.depthBudget = m₃.state.depthBudget ∧
        m₄.state.visited ⊆ m₃.state.visited := by
      rcases hphase₃ with rfl | rfl
      · exact ⟨m₃, .refl _, hat₃, rfl, Finset.Subset.refl _⟩
      · obtain ⟨m₄, hexit, hat₄, hbudget₄, hvisited₄⟩ := exitPhase_leaves hat₃
        exact ⟨m₄, .step hexit (.refl _), hat₄, hbudget₄, hvisited₄⟩
    refine ⟨m₄, ?_, hat₄, hbudget₄.trans (hbudget₃.trans hbudget₁), ?_⟩
    · have hyield := Run.step hsuspend (.step (by rfl) hrun₃)
      have hsteps := hrun₁.trans (hyield.trans hrun₄)
      simpa [output, inorder] using hsteps
    · intro other hother
      have hright := hvisited₃ (hvisited₄ hother)
      simp only [inorder, Finset.mem_union, Finset.mem_insert, List.mem_toFinset, mem_append,
        mem_cons] at hright ⊢
      rcases hright with (heq | hmem) | hmem
      · exact .inr (.inr (.inl heq))
      · have hleft := hvisited₁ hmem
        simp only [Finset.mem_union, Finset.mem_insert, List.mem_toFinset] at hleft
        rcases hleft with (heq | hmem) | hmem
        · exact .inr (.inr (.inl heq))
        · exact .inl hmem
        · exact .inr (.inl hmem)
      · exact .inr (.inr (.inr hmem))

theorem Run.rest {c c' last : Config Node Value} {values values' : List Value}
    (h : Run env c values last) (hlast : ∀ next, Config.step env last ≠ some next)
    (h' : Run env c values' c') : ∃ rest, Run env c' rest last ∧ values = values' ++ rest := by
  induction h' generalizing values with
  | refl => exact ⟨values, h, rfl⟩
  | step hstep rest ih =>
    cases h with
    | refl => exact absurd hstep (hlast _)
    | step hnext h =>
      obtain rfl := Option.some.inj (hstep.symm.trans hnext)
      obtain ⟨rest, hrest, hvalues⟩ := ih h
      exact ⟨rest, hrest, by rw [hvalues, append_assoc]⟩

/-- The traversal ends with an empty stack, and every run on the way to this end has one reference
for each node that is being visited, steps that never fail, and room for the stack to grow. -/
theorem run_inorder (recursionLimit : Int) (root : Node) (tree : BinaryTree Node)
    (hmemory : env.Allocates) (hrep : Represents env tree (some root))
    (hfits : Fits env (env.typeOf root) recursionLimit 0 tree) :
    (∃ m, Run env (start recursionLimit root)
        ((inorder tree).map fun node => (env.fields node).value) (.running m) ∧
      m.state.currentPhase = .kBacktrack ∧ m.state.stackTop = 0 ∧
      Config.step env (.running m) = some (.returned fun _ => 0)) ∧
    ∀ values c, Run env (start recursionLimit root) values c →
      (c.Live → ∃ next, Config.step env c = some next) ∧
      (∃ rest, Run env c rest (.returned fun _ => 0) ∧
        values ++ rest = (inorder tree).map fun node => (env.fields node).value) ∧
      ∀ m, (c = .running m ∨ ∃ value, c = .suspended m value) →
        (∀ node, m.refs node = m.state.path.count node) ∧
        ∀ node phase m', m.stateStackPush env node phase = some m' →
          m'.state.entries = m.state.entries ++ [⟨some node, phase⟩] := by
  obtain ⟨first, hfirst, hat, hstate⟩ := start_eq Value recursionLimit root
  have hlimit : first.state.depthBudget = recursionLimit := by rw [hstate]; rfl
  have hunseen : ∀ other ∈ inorder tree, other ≠ root → other ∉ first.state.visited := by
    intro other _ hne hvisit
    rw [TreeIterState.visited, hstate] at hvisit
    exact hne (mem_singleton.mp (List.mem_toFinset.mp hvisit))
  obtain ⟨m, hrun, hend, -⟩ := traverses hmemory tree hat hrep (hlimit ▸ hfits) hunseen
  rw [← hfirst] at hrun
  have htop : m.state.stackTop = 0 := by
    rw [← Machine.length_entries hend.wellFormed, hend.entries, length_nil]
  have hdone : Config.step env (.running m) = some (.returned fun _ => 0) := by
    rw [step_kBacktrack hend.phase, backtrackPhase, if_pos htop, donePhase_eq hend]
  refine ⟨⟨m, hrun, hend.phase, htop, hdone⟩, ?_⟩
  intro values c hreach
  have hgood : c.Good := hreach.good (hfirst ▸ hat.wellFormed)
  refine ⟨fun hlive => ?_, ?_, ?_⟩
  · obtain ⟨next, hnext, -⟩ := good_step env hgood hlive
    exact ⟨next, hnext⟩
  · have hwhole := hrun.trans (.step hdone (.refl _))
    obtain ⟨rest, hrest, hvalues⟩ := Run.rest hwhole (fun next h => by cases h) hreach
    refine ⟨rest, hrest, hvalues.symm.trans ?_⟩
    exact append_nil _
  · rintro m (rfl | ⟨value, rfl⟩)
    · exact ⟨hgood.refs, fun node phase m' hpush => Machine.entries_stateStackPush hpush hgood⟩
    · exact ⟨hgood.refs, fun node phase m' hpush => Machine.entries_stateStackPush hpush hgood⟩

end Enter

def threeNodes : Env Nat Nat where
  fields node := if node = 1 then ⟨some 0, 1, some 2⟩ else ⟨none, node, none⟩
  typeOf _ := 0
  grows _ := true
  hashes _ := true

def threeNodesTree : BinaryTree Nat :=
  .node 1 (.node 0 .nil .nil) (.node 2 .nil .nil)

theorem run_inorder_threeNodes :
    ∃ m, Config.Run threeNodes (Config.start 1000 1) [0, 1, 2] (.running m) ∧ m.state.stackTop =
      0 := by
  have hfits : Fits threeNodes 0 1000 0 threeNodesTree :=
    ⟨by decide, fun _ _ => rfl, fun _ => by decide, by decide⟩
  have hrep : Represents threeNodes threeNodesTree (some 1) := by
    simp [threeNodesTree, threeNodes, Represents]
  obtain ⟨m, hrun, -, htop, -⟩ :=
    (run_inorder 1000 1 threeNodesTree ⟨fun _ => rfl, fun _ => rfl⟩ hrep hfits).1
  exact ⟨m, hrun, htop⟩

def spine (size : Nat) : Env Nat Nat where
  fields node := ⟨if node + 1 < size then some (node + 1) else none, node, none⟩
  typeOf _ := 0
  grows _ := true
  hashes _ := true

def spineTree : Nat → Nat → BinaryTree Nat
  | 0, _ => .nil
  | count + 1, first => .node first (spineTree count (first + 1)) .nil

theorem inorder_spineTree (count first : Nat) :
    inorder (spineTree count first) = (range' first count).reverse := by
  induction count generalizing first with
  | zero => rfl
  | succ count ih => rw [spineTree, inorder, ih, range'_succ, reverse_cons]; rfl

theorem height_spineTree (count first : Nat) : (spineTree count first).height = count := by
  induction count generalizing first with
  | zero => rfl
  | succ count ih => rw [spineTree, BinaryTree.height, ih, BinaryTree.height, Nat.max_zero]

theorem represents_spineTree (count first : Nat) :
    Represents (spine (first + count)) (spineTree count first)
      (if 0 < count then some first else none) := by
  induction count generalizing first with
  | zero => rfl
  | succ count ih =>
    have hsize : first + (count + 1) = first + 1 + count := by omega
    have hleft : ((spine (first + (count + 1))).fields first).left =
        if 0 < count then some (first + 1) else none := by
      by_cases hcount : 0 < count
      · rw [if_pos hcount]
        exact if_pos (by omega)
      · rw [if_neg hcount]
        exact if_neg (by omega)
    refine ⟨rfl, ?_, rfl⟩
    rw [hleft, hsize]
    exact ih (first + 1)

def Descending (c : Config Nat Nat) : Prop :=
  (∃ m node entries places, c = .running m ∧ m.At node .kLeft entries ∧ entries.length = node ∧
    places ≤ 30 ∧ m.state.stack.length = 2 ^ places) ∨ ∃ refs error, c = .raised refs error

theorem length_stateStackPush {env : Env Nat Nat} {m m' : Machine Nat} {node : Nat}
    {phase : TreeIterPhase} {places : Nat} (h : m.stateStackPush env node phase = some m')
    (hplaces : places ≤ 30) (hlength : m.state.stack.length = 2 ^ places) :
    ∃ places ≤ 30, m'.state.stack.length = 2 ^ places := by
  unfold Machine.stateStackPush at h
  simp only [Option.bind_eq_bind, Option.bind_eq_some_iff, Option.pure_def, Option.some.injEq] at h
  obtain ⟨stack, hstack, rfl⟩ := h
  unfold Machine.grownStack at hstack
  split at hstack
  · split at hstack
    · cases hstack
    next hroom =>
      split at hstack
      · cases hstack
        have hlt : places ≠ 30 := by
          rintro rfl
          omega
        refine ⟨places + 1, by omega, ?_⟩
        rw [length_set, length_append, length_replicate, hlength, Nat.pow_succ]
        omega
      · cases hstack
  · cases hstack
    exact ⟨places, hplaces, by rw [length_set, hlength]⟩

open Config in
theorem Descending.step {size : Nat} {c c' : Config Nat Nat} (hsize : 1073741826 ≤ size)
    (h : Descending c) (hstep : c.step (spine size) = some c') :
    Descending c' ∧ c'.output = [] := by
  rcases h with ⟨m, node, entries, places, rfl, hat, hnode, hplaces, hlength⟩ | ⟨refs, error, rfl⟩
  · have hbound : node ≤ 1073741824 := by
      have hle := hat.wellFormed.top_le
      rw [← Machine.length_entries hat.wellFormed, hat.entries, hnode, hlength] at hle
      exact hle.trans (Nat.pow_le_pow_right (by decide) hplaces)
    have hchild : ((spine size).fields node).left = some (node + 1) := if_pos (by omega)
    rw [step_kLeft hat.phase] at hstep
    cases hcheck : m.state.checkTreeIterChildEntry (spine size) (node + 1) with
    | error error =>
      rw [childPhase_error hat hchild hcheck] at hstep
      cases hstep
      exact ⟨.inr ⟨_, _, rfl⟩, rfl⟩
    | ok state =>
      cases hpush : ({ m with state := state }.incref node).stateStackPush (spine size) node
          .kYield with
      | none =>
        rw [childPhase_full hat hchild hcheck hpush] at hstep
        cases hstep
        exact ⟨.inr ⟨_, _, rfl⟩, rfl⟩
      | some m' =>
        rw [childPhase_pushed hat hchild hcheck hpush] at hstep
        cases hstep
        have hlength' : state.stack.length = 2 ^ places := by
          obtain ⟨-, ⟨rfl, -⟩ | rfl⟩ := TreeIterState.checkTreeIterChildEntry_ok hat.node hcheck
          · exact hlength
          · exact hlength
        obtain ⟨places', hplaces', hstack⟩ := length_stateStackPush hpush hplaces hlength'
        have hat' := hat.checked hcheck
        obtain ⟨-, -, -, hsame⟩ := pushedPhase_state (node + 1) hat' hpush
        refine ⟨.inl ⟨_, node + 1, _, places', rfl, pushedPhase_at hat' hpush, ?_, hplaces', ?_⟩,
          rfl⟩
        · rw [length_append, hnode, length_singleton]
        · rw [hsame, hstack]
  · cases hstep

open Config in
/-- A tree within the budget that is too deep for the stack: nothing is ever yielded. -/
theorem spine_yieldsNothing :
    (spine 1073741826).Allocates ∧
      Represents (spine 1073741826) (spineTree 1073741826 0) (some 0) ∧
      (inorder (spineTree 1073741826 0)).Nodup ∧
      (∀ node ∈ inorder (spineTree 1073741826 0),
        (spine 1073741826).typeOf node = (spine 1073741826).typeOf 0) ∧
      (spineTree 1073741826 0).height ≤ 2147483647 ∧
      0 ∈ inorder (spineTree 1073741826 0) ∧
      ∀ values c, Run (spine 1073741826) (start 2147483647 0) values c → values = [] := by
  have hrep := represents_spineTree 1073741826 0
  rw [Nat.zero_add, if_pos (by decide)] at hrep
  refine ⟨⟨fun _ => rfl, fun _ => rfl⟩, hrep, ?_, fun _ _ => rfl, ?_, ?_, ?_⟩
  · rw [inorder_spineTree, nodup_reverse]
    exact nodup_range'
  · rw [height_spineTree]
    decide
  · rw [inorder_spineTree, mem_reverse, mem_range'_1]
    decide
  · have hrun : ∀ c values c', Run (spine 1073741826) c values c' → Descending c → values = [] := by
      intro c values c' h
      induction h with
      | refl => exact fun _ => rfl
      | step hstep rest ih =>
        intro hdescending
        obtain ⟨hdescending', houtput⟩ := hdescending.step (Nat.le_refl _) hstep
        rw [houtput, ih hdescending', append_nil]
    intro values c h
    obtain ⟨first, hfirst, hat, hstate⟩ := start_eq Nat 2147483647 0
    refine hrun _ _ _ h (.inl ⟨first, 0, [], 4, hfirst, hat, rfl, by decide, ?_⟩)
    rw [hstate]
    rfl

end CinderX.Jit.TreeIter
