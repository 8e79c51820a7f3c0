import CinderX.Jit.TreeIter

/-!
# Steps of the tree iterator

What each phase does to the current node, the stack and the active path.  In
every configuration the machine owns one reference for the current node and one
for each entry of the stack, and there is always a node where one is needed.
-/

namespace CinderX.Jit.TreeIter

open List Option

variable {Node Value : Type} {m m' : Machine Node} {node other child : Node}
  {phase : TreeIterPhase} {entries : List (TreeIterStackEntry Node)}

/-- One reference for every node that is being visited, and memory for the stack. -/
structure Machine.WellFormed [DecidableEq Node] (m : Machine Node) : Prop where
  current : m.state.currentNode ≠ none
  top_le : m.state.stackTop ≤ m.state.stack.length
  room : 0 < m.state.stack.length
  nodes : ∀ entry ∈ m.state.entries, entry.node ≠ none
  refs : ∀ node, m.refs node = m.state.path.count node

namespace Machine

theorem length_entries [DecidableEq Node] (h : m.WellFormed) :
    m.state.entries.length = m.state.stackTop :=
  (length_take ..).trans (Nat.min_eq_left h.top_le)

section Refs

variable [DecidableEq Node]

theorem refs_incref : (m.incref node).refs other = m.refs other + if other =
    node then 1 else 0 := by
  by_cases hother : other = node <;> simp [incref, hother]

theorem refs_decref : (m.decref node).refs other = m.refs other - if other =
    node then 1 else 0 := by
  by_cases hother : other = node <;> simp [decref, hother]

theorem decref_incref : (m.incref node).decref node = m := by
  have hrefs : ((m.incref node).decref node).refs = m.refs := by
    funext other
    rw [refs_decref, refs_incref]
    ring
  exact congrArg (Machine.mk m.state) hrefs

@[simp]
theorem state_incref : (m.incref node).state = m.state := rfl

@[simp]
theorem state_decref : (m.decref node).state = m.state := rfl

omit [DecidableEq Node] in
@[simp]
theorem state_savePhase : (m.savePhase phase).state = { m.state with currentPhase := phase } := rfl

omit [DecidableEq Node] in
@[simp]
theorem refs_savePhase : (m.savePhase phase).refs = m.refs := rfl

theorem saveCurrentNode_eq (hcurrent : m.state.currentNode = some other) :
    m.saveCurrentNode node = { (m.incref node).decref other with
      state := { m.state with currentNode := some node } } := by
  simp [saveCurrentNode, hcurrent, xdecref, decref, incref]

theorem count_path {state : TreeIterState Node} (hcurrent : state.currentNode = some node) :
    (state.path.count other : Int) = (state.entries.filterMap TreeIterStackEntry.node).count other +
      if other = node then 1 else 0 := by
  rw [TreeIterState.path, hcurrent, toList_some, singleton_append, count_cons]
  by_cases hother : other = node
  · simp [hother]
  · simp [hother, Ne.symm hother]

theorem count_push :
    (((entries ++ [TreeIterStackEntry.mk (some node) phase]).filterMap
      TreeIterStackEntry.node).count other : Int) =
      (entries.filterMap TreeIterStackEntry.node).count other + if other = node then 1 else 0 := by
  rw [filterMap_append, count_append]
  by_cases hother : other = node
  · simp [hother]
  · simp [hother, Ne.symm hother]

theorem clear_eq_zero (h : m.WellFormed) : m.clear = fun _ => 0 := by
  have hfold : ∀ (nodes : List Node) (m : Machine Node) (other : Node),
      (nodes.foldl decref m).refs other = m.refs other - nodes.count other := by
    intro nodes
    induction nodes with
    | nil => simp
    | cons node nodes ih =>
      intro m other
      rw [foldl_cons, ih, refs_decref, count_cons]
      by_cases hother : other = node
      · simp only [hother, if_true, beq_self_eq_true]
        push_cast
        ring
      · have hne : (node == other) = false := by simpa using Ne.symm hother
        simp [hother, hne]
  funext other
  rw [clear, hfold, h.refs, sub_self]

end Refs

theorem length_grownStack {env : Env Node Value} {state : TreeIterState Node}
    {stack : List (TreeIterStackEntry Node)} (h : grownStack env state = some stack)
    (hle : state.stackTop ≤ state.stack.length) (hroom : 0 < state.stack.length) :
    state.stackTop < stack.length ∧ stack.take state.stackTop = state.entries := by
  unfold grownStack at h
  split at h
  next hfull =>
    split at h
    · cases h
    · split at h
      · cases h
        rw [length_append, length_replicate]
        exact ⟨by omega, take_append_of_le_length hle⟩
      · cases h
  next hspace =>
    cases h
    exact ⟨by omega, rfl⟩

theorem stateStackPush_spec [DecidableEq Node] {env : Env Node Value}
    (h : m.stateStackPush env node phase = some m') (hle : m.state.stackTop ≤ m.state.stack.length)
    (hroom : 0 < m.state.stack.length) :
    ∃ stack, m.state.stackTop + 1 ≤ stack.length ∧
      stack.take (m.state.stackTop + 1) = m.state.entries ++ [⟨some node, phase⟩] ∧
      m' = { m.incref node with
        state := { m.state with stack := stack, stackTop := m.state.stackTop + 1 } } := by
  unfold stateStackPush at h
  simp only [bind_eq_bind, bind_eq_some_iff, Option.pure_def, Option.some.injEq] at h
  obtain ⟨stack, hstack, rfl⟩ := h
  obtain ⟨hlt, htake⟩ := length_grownStack hstack hle hroom
  refine ⟨stack.set m.state.stackTop ⟨some node, phase⟩, ?_, ?_, rfl⟩
  · rw [length_set]
    exact hlt
  · rw [take_add_one, take_set_of_le (Nat.le_refl _), getElem?_set_self hlt, htake]
    rfl

theorem entries_stateStackPush [DecidableEq Node] {env : Env Node Value}
    (h : m.stateStackPush env node phase = some m') (hwell : m.WellFormed) :
    m'.state.entries = m.state.entries ++ [⟨some node, phase⟩] := by
  obtain ⟨stack, -, htake, rfl⟩ := stateStackPush_spec h hwell.top_le hwell.room
  exact htake

theorem stateStackPop_spec {top : Nat} (htop : m.state.stackTop = top + 1)
    (hle : m.state.stackTop ≤ m.state.stack.length) :
    ∃ entry m', m.state.entries = m'.state.entries ++ [entry] ∧
      m.stateStackPop = some (m', entry.node) ∧ m'.refs = m.refs ∧
      m'.state.stack.length = m.state.stack.length ∧
      m'.state = { m.state with
        stackTop := top, poppedPhase := entry.phase, stack := m'.state.stack } := by
  have hlt : top < m.state.stack.length := by omega
  refine ⟨m.state.stack[top], { m with state := { m.state with
    stackTop := top
    poppedPhase := m.state.stack[top].phase
    stack := m.state.stack.set top emptyEntry } }, ?_, ?_, rfl, ?_, rfl⟩
  · rw [TreeIterState.entries, TreeIterState.entries, htop, take_add_one,
      getElem?_eq_getElem hlt, take_set_of_le (Nat.le_refl _)]
    rfl
  · unfold stateStackPop
    split
    next hzero => omega
    next top' htop' =>
      obtain rfl : top = top' := by omega
      simp [getElem?_eq_getElem hlt]
  · exact length_set

end Machine

section Check

variable [DecidableEq Node] {env : Env Node Value} {state state' : TreeIterState Node}
  {current : Node} {nodes nodes' : Finset Node}

namespace TreeIterState

theorem stack_treeIterLeaveCurrentNode (state : TreeIterState Node) :
    state.treeIterLeaveCurrentNode.stack = state.stack := by
  unfold treeIterLeaveCurrentNode
  split <;> rfl

theorem depthBudget_treeIterLeaveCurrentNode (state : TreeIterState Node) :
    state.treeIterLeaveCurrentNode.depthBudget = state.depthBudget := by
  unfold treeIterLeaveCurrentNode
  split <;> rfl

theorem depth_treeIterLeaveCurrentNode (state : TreeIterState Node) :
    state.treeIterLeaveCurrentNode.depth = state.depth - 1 := by
  unfold treeIterLeaveCurrentNode
  split
  · rfl
  · omega

def erased (state : TreeIterState Node) : Finset Node :=
  if 0 < state.depth then state.currentNode.toFinset else ∅

theorem activePath_treeIterLeaveCurrentNode (state : TreeIterState Node) :
    state.treeIterLeaveCurrentNode.activePath =
      state.activePath.map fun nodes => nodes \ state.erased := by
  unfold treeIterLeaveCurrentNode erased
  split
  · rfl
  · cases state.activePath <;> simp

theorem treeIterActivePathInsert_ok (h : treeIterActivePathInsert env nodes node = .ok nodes') :
    nodes' = insert node nodes := by
  unfold treeIterActivePathInsert at h
  split at h
  next hmem => rw [← Except.ok.inj h, Finset.insert_eq_of_mem hmem]
  next =>
    split at h
    · exact (Except.ok.inj h).symm
    · cases h

theorem checkActivePath_cases (h : state.checkActivePath env current child nodes = .ok state') :
    child ∉ insert current nodes ∧
      state' = { state with activePath := some (insert child (insert current nodes)) } := by
  unfold checkActivePath at h
  cases hcurrent : treeIterActivePathInsert env nodes current with
  | error error => simp [hcurrent, bind, Except.bind] at h
  | ok withCurrent =>
    obtain rfl := treeIterActivePathInsert_ok hcurrent
    simp only [hcurrent, bind, Except.bind] at h
    split at h
    · cases h
    next hchild =>
      cases hinsert : treeIterActivePathInsert env (insert current nodes) child with
      | error error => simp [hinsert] at h
      | ok withChild =>
        obtain rfl := treeIterActivePathInsert_ok hinsert
        simp only [hinsert, pure, Except.pure, Except.ok.injEq] at h
        exact ⟨hchild, h.symm⟩

omit [DecidableEq Node] in
theorem mem_path_iff (hcurrent : state.currentNode = some current) :
    child ∈ state.path ↔ child = current ∨ ∃ entry ∈ state.entries, entry.node = some child := by
  simp [path, hcurrent]

def visited (state : TreeIterState Node) : Finset Node :=
  state.activePath.getD state.path.toFinset

theorem visited_subset {erased : Finset Node} (hpath : ∀ node ∈ state'.path, node ∈ state.path)
    (hactive : state'.activePath = state.activePath.map fun nodes => nodes \ erased) :
    state'.visited ⊆ state.visited := by
  cases hnodes : state.activePath with
  | none =>
    rw [visited, visited, hactive, hnodes]
    intro node hnode
    exact List.mem_toFinset.mpr (hpath node (List.mem_toFinset.mp hnode))
  | some nodes =>
    rw [visited, visited, hactive, hnodes]
    exact Finset.sdiff_subset

theorem treeIterMaterializeActivePath_ok (hnone : state.activePath = none)
    (h : state.treeIterMaterializeActivePath env = .ok nodes) : nodes = state.visited := by
  unfold treeIterMaterializeActivePath at h
  split at h
  · rw [← Except.ok.inj h, visited, hnone, getD_none]
  · cases h

theorem checkTreeIterChildEntry_ok (hcurrent : state.currentNode = some current)
    (h : state.checkTreeIterChildEntry env child = .ok state') :
    child ∉ insert current state.visited ∧
      (state' = state ∧ state.activePath = none ∧
        state.stackTop < kTreeIterActivePathHashThreshold ∨
        state' = { state with
          activePath := some (insert child (insert current state.visited)) }) := by
  unfold checkTreeIterChildEntry at h
  simp only [hcurrent] at h
  split at h
  · cases h
  split at h
  · cases h
  cases hactive : state.activePath with
  | some nodes =>
    obtain rfl : state.visited = nodes := by rw [visited, hactive, getD_some]
    simp only [hactive] at h
    exact ⟨(checkActivePath_cases h).1, .inr (checkActivePath_cases h).2⟩
  | none =>
    simp only [hactive] at h
    split at h
    next hshallow =>
      split at h
      · cases h
      split at h
      · cases h
      next hne hstack =>
        have hpath : child ∉ state.path := by
          rw [mem_path_iff hcurrent]
          exact not_or.mpr ⟨hne, hstack⟩
        have hvisited : child ∉ insert current state.visited := by
          rw [visited, hactive, getD_none, Finset.mem_insert, List.mem_toFinset]
          exact not_or.mpr ⟨hne, hpath⟩
        exact ⟨hvisited, .inl ⟨(Except.ok.inj h).symm, rfl, hshallow⟩⟩
    next =>
      cases hnodes : state.treeIterMaterializeActivePath env with
      | error error => simp [hnodes, bind, Except.bind] at h
      | ok nodes =>
        obtain rfl := treeIterMaterializeActivePath_ok hactive hnodes
        simp only [hnodes, bind, Except.bind] at h
        exact ⟨(checkActivePath_cases h).1, .inr (checkActivePath_cases h).2⟩

end TreeIterState

end Check

/-! ## Phases -/

section Phases

variable [DecidableEq Node] {env : Env Node Value} {fields : NodeFields Node Value → Option Node}
  {ifNone resume : TreeIterPhase}

/-- Where the machine is: its node, its phase and the entries of its stack. -/
structure Machine.At (m : Machine Node) (node : Node) (phase : TreeIterPhase)
    (entries : List (TreeIterStackEntry Node)) : Prop where
  wellFormed : m.WellFormed
  node : m.state.currentNode = some node
  phase : m.state.currentPhase = phase
  entries : m.state.entries = entries

theorem Machine.WellFormed.at (h : m.WellFormed) :
    ∃ node, m.At node m.state.currentPhase m.state.entries := by
  obtain ⟨node, hnode⟩ := ne_none_iff_exists'.mp h.current
  exact ⟨node, h, hnode, rfl, rfl⟩

theorem Machine.WellFormed.exists_concat (h : m.WellFormed) (htop : m.state.stackTop ≠ 0) :
    ∃ below parent resume, m.state.entries = below ++ [⟨some parent, resume⟩] := by
  rcases eq_nil_or_concat m.state.entries with hnil | ⟨below, ⟨entryNode, resume⟩, hentries⟩
  · rw [← Machine.length_entries h, hnil] at htop
    exact absurd rfl htop
  · rw [concat_eq_append] at hentries
    have hmem : ⟨entryNode, resume⟩ ∈ m.state.entries := by rw [hentries]; simp
    obtain ⟨parent, rfl⟩ := ne_none_iff_exists'.mp (h.nodes _ hmem)
    exact ⟨below, parent, resume, hentries⟩

theorem Machine.At.savePhase (h : m.At node phase entries) (phase' : TreeIterPhase) :
    (m.savePhase phase').At node phase' entries :=
  ⟨⟨h.wellFormed.current, h.wellFormed.top_le, h.wellFormed.room, h.wellFormed.nodes,
    h.wellFormed.refs⟩, h.node, rfl, h.entries⟩

theorem Machine.At.withActivePath (h : m.At node phase entries) (nodes : Option (Finset Node)) :
    Machine.At { m with state := { m.state with activePath := nodes } } node phase entries :=
  ⟨⟨h.wellFormed.current, h.wellFormed.top_le, h.wellFormed.room, h.wellFormed.nodes,
    h.wellFormed.refs⟩, h.node, h.phase, h.entries⟩

theorem Machine.At.mem_path_iff (h : m.At node phase entries) :
    other ∈ m.state.path ↔ other = node ∨ ∃ entry ∈ entries, entry.node = some other := by
  rw [TreeIterState.mem_path_iff h.node, h.entries]

theorem Machine.At.mem_path_push {phase' : TreeIterPhase} (h : m.At node phase entries)
    (h' : m'.At child phase' (entries ++ [⟨some node, resume⟩])) :
    other ∈ m'.state.path ↔ other = child ∨ other ∈ m.state.path := by
  rw [h'.mem_path_iff, h.mem_path_iff]
  simp only [mem_append, mem_singleton, or_and_right, exists_or, exists_eq_left,
    Option.some.injEq]
  rw [or_comm (a := other = node), eq_comm (a := node)]

theorem Machine.At.checked (h : m.At node phase entries) {state : TreeIterState Node}
    (hcheck : m.state.checkTreeIterChildEntry env child = .ok state) :
    Machine.At { m with state := state } node phase entries := by
  obtain ⟨-, ⟨rfl, -⟩ | rfl⟩ := TreeIterState.checkTreeIterChildEntry_ok h.node hcheck
  · exact h
  · exact h.withActivePath _

namespace Config

theorem loadCurrentNode_eq (h : m.At node phase entries) :
    m.loadCurrentNode = some (m.incref node, node) := by
  rw [Machine.loadCurrentNode, h.node, map_some]

theorem yieldPhase_eq (h : m.At node phase entries) :
    yieldPhase env m = some (.suspended m (env.fields node).value) := by
  simp [yieldPhase, loadCurrentNode_eq h, Machine.decref_incref]

theorem childPhase_none (h : m.At node phase entries) (hchild : fields (env.fields node) = none) :
    childPhase env fields ifNone resume m = some (.running (m.savePhase ifNone)) := by
  simp [childPhase, loadCurrentNode_eq h, hchild, Machine.decref_incref]

theorem childPhase_error (h : m.At node phase entries)
    (hchild : fields (env.fields node) = some child)
    {error : TreeIterError} (hcheck : m.state.checkTreeIterChildEntry env child = .error error) :
    childPhase env fields ifNone resume m = some (.raised m.clear error) := by
  simp [childPhase, loadCurrentNode_eq h, hchild, hcheck, Machine.decref_incref]

theorem pushedPhase_eq (hcurrent : m.state.currentNode = some node) :
    pushedPhase node child m = { ((m.decref node).incref child).decref node with
      state := { m.state with
        currentNode := some child, currentPhase := .kLeft, depth := m.state.depth + 1 } } := by
  dsimp only [pushedPhase]
  rw [Machine.saveCurrentNode_eq (by exact hcurrent)]
  rfl

theorem pushedPhase_at (h : m.At node phase entries)
    (hpush : (m.incref node).stateStackPush env node resume = some m') :
    (pushedPhase node child m').At child .kLeft (entries ++ [⟨some node, resume⟩]) := by
  obtain ⟨stack, hlength, htake, rfl⟩ :=
    Machine.stateStackPush_spec hpush h.wellFormed.top_le h.wellFormed.room
  have hentries : stack.take (m.state.stackTop + 1) = entries ++ [⟨some node, resume⟩] := by
    rw [← h.entries]
    exact htake
  rw [pushedPhase_eq (by exact h.node)]
  have hroom : 0 < stack.length := Nat.lt_of_lt_of_le (Nat.succ_pos _) hlength
  refine ⟨⟨some_ne_none _, hlength, hroom, ?_, ?_⟩, rfl, rfl, hentries⟩
  · change ∀ entry ∈ stack.take (m.state.stackTop + 1), entry.node ≠ none
    rw [hentries]
    intro entry hentry
    rcases mem_append.mp hentry with hentry | hentry
    · exact h.wellFormed.nodes entry (h.entries ▸ hentry)
    · rw [mem_singleton.mp hentry]
      exact some_ne_none _
  · intro other
    have hrefs := h.wellFormed.refs other
    rw [Machine.count_path h.node, h.entries] at hrefs
    refine Eq.trans ?_ (Machine.count_path rfl).symm
    change _ = (((stack.take (m.state.stackTop + 1)).filterMap TreeIterStackEntry.node).count other
      : Int) + _
    rw [hentries, Machine.count_push]
    simp only [Machine.refs_decref, Machine.refs_incref, hrefs]
    ring

variable (child) in
theorem pushedPhase_state (h : m.At node phase entries)
    (hpush : (m.incref node).stateStackPush env node resume = some m') :
    (pushedPhase node child m').state.activePath = m.state.activePath ∧
      (pushedPhase node child m').state.depth = m.state.depth + 1 ∧
      (pushedPhase node child m').state.depthBudget = m.state.depthBudget ∧
      (pushedPhase node child m').state.stack = m'.state.stack := by
  obtain ⟨stack, -, -, rfl⟩ :=
    Machine.stateStackPush_spec hpush h.wellFormed.top_le h.wellFormed.room
  rw [pushedPhase_eq (by exact h.node)]
  exact ⟨rfl, rfl, rfl, rfl⟩

theorem childPhase_pushed (h : m.At node phase entries)
    (hchild : fields (env.fields node) = some child) {state : TreeIterState Node}
    (hcheck : m.state.checkTreeIterChildEntry env child = .ok state)
    (hpush : ({ m with state := state }.incref node).stateStackPush env node resume = some m') :
    childPhase env fields ifNone resume m = some (.running (pushedPhase node child m')) := by
  have hpush' : Machine.stateStackPush env ⟨state, (m.incref node).refs⟩ node resume = some m' :=
    hpush
  simp [childPhase, loadCurrentNode_eq h, hchild, hcheck, hpush']

theorem childPhase_full (h : m.At node phase entries)
    (hchild : fields (env.fields node) = some child) {state : TreeIterState Node}
    (hcheck : m.state.checkTreeIterChildEntry env child = .ok state)
    (hpush : ({ m with state := state }.incref node).stateStackPush env node resume = none) :
    childPhase env fields ifNone resume m = some (.raised m.clear .noMemory) := by
  have hpush' : Machine.stateStackPush env ⟨state, (m.incref node).refs⟩ node resume = none := hpush
  simp [childPhase, loadCurrentNode_eq h, hchild, hcheck, hpush', Machine.decref_incref]

/-! Leaving a node. -/

theorem leaveCurrentNode_at (h : m.At node phase entries) :
    m.leaveCurrentNode.At node phase entries := by
  unfold Machine.leaveCurrentNode TreeIterState.treeIterLeaveCurrentNode
  split
  · exact ⟨⟨h.wellFormed.current, h.wellFormed.top_le, h.wellFormed.room, h.wellFormed.nodes,
      h.wellFormed.refs⟩, h.node, h.phase, h.entries⟩
  · exact h

variable (Value) in
theorem popPhase_spec {parent : Node} (h : m.At node phase (entries ++ [⟨some parent, resume⟩])) :
    ∃ m', popPhase m = some (.running m' : Config Node Value) ∧ m'.At parent resume entries ∧
      m'.state.stack.length = m.state.stack.length ∧
      m'.state = { m.state.treeIterLeaveCurrentNode with
        currentNode := some parent
        currentPhase := resume
        stack := m'.state.stack
        stackTop := entries.length
        poppedPhase := resume } := by
  have hleft := leaveCurrentNode_at h
  have htop : m.leaveCurrentNode.state.stackTop = entries.length + 1 := by
    rw [← Machine.length_entries hleft.wellFormed, hleft.entries, length_append,
      length_singleton]
  obtain ⟨entry, popped, hentries, hpop, hrefs, hlength, hstate⟩ :=
    Machine.stateStackPop_spec htop hleft.wellFormed.top_le
  obtain ⟨hbelow, hentry⟩ := append_inj' (hleft.entries.symm.trans hentries) rfl
  obtain rfl := head_eq_of_cons_eq hentry
  have hcurrent : popped.state.currentNode = some node := by
    rw [hstate]
    exact hleft.node
  have hsave : popped.saveCurrentNode parent = _ := Machine.saveCurrentNode_eq hcurrent
  refine ⟨((popped.saveCurrentNode parent).decref parent).savePhase resume, ?_, ?_, ?_, ?_⟩
  · have hphase : popped.state.poppedPhase = resume := by rw [hstate]
    simp [popPhase, hpop, hsave, hphase]
  · rw [hsave]
    have htop' : popped.state.stackTop = entries.length := by rw [hstate]
    have hle := hleft.wellFormed.top_le
    refine ⟨⟨some_ne_none _, ?_, ?_, ?_, ?_⟩, rfl, rfl, hbelow.symm⟩
    · change popped.state.stackTop ≤ popped.state.stack.length
      omega
    · exact hlength.symm ▸ hleft.wellFormed.room
    · intro entry hentry
      refine hleft.wellFormed.nodes entry ?_
      rw [hentries]
      exact mem_append_left _ hentry
    · intro other
      have hcount := hleft.wellFormed.refs other
      rw [Machine.count_path hleft.node, hleft.entries, Machine.count_push] at hcount
      refine Eq.trans ?_ (Machine.count_path rfl).symm
      change _ = ((popped.state.entries.filterMap TreeIterStackEntry.node).count other : Int) + _
      simp only [Machine.refs_savePhase, Machine.refs_decref, Machine.refs_incref, hrefs, hcount,
        ← hbelow]
      ring
  · rw [hsave]
    exact hlength.trans (congrArg List.length (TreeIterState.stack_treeIterLeaveCurrentNode _))
  · rw [hsave]
    exact congrArg (fun state : TreeIterState Node =>
      { state with currentNode := some parent, currentPhase := resume }) hstate

theorem exitPhase_at (h : m.At node phase entries) :
    (m.leaveCurrentNode.savePhase .kBacktrack).At node .kBacktrack entries :=
  (leaveCurrentNode_at h).savePhase .kBacktrack

theorem donePhase_eq (h : m.At node phase entries) :
    donePhase m = (.returned fun _ => 0 : Config Node Value) := by
  rw [donePhase, Machine.clear_eq_zero (leaveCurrentNode_at h).wellFormed]

def Good : Config Node Value → Prop
  | running m => m.WellFormed
  | suspended m _ => m.WellFormed
  | returned refs => refs = fun _ => 0
  | raised refs _ => refs = fun _ => 0

theorem step_kLeft (hphase : m.state.currentPhase = .kLeft) :
    step env (.running m) = childPhase env NodeFields.left .kYield .kYield m := by
  rw [step, hphase]
  rfl

theorem step_kYield (hphase : m.state.currentPhase = .kYield) :
    step env (.running m) = yieldPhase env m := by
  rw [step, hphase]

theorem step_kRight (hphase : m.state.currentPhase = .kRight) :
    step env (.running m) = childPhase env NodeFields.right .kBacktrack .kExit m := by
  rw [step, hphase]
  rfl

theorem step_kBacktrack (hphase : m.state.currentPhase = .kBacktrack) :
    step env (.running m) = backtrackPhase m := by
  rw [step, hphase]

theorem step_kExit (hphase : m.state.currentPhase = .kExit) :
    step env (.running m) = some (.running (m.leaveCurrentNode.savePhase .kBacktrack)) := by
  rw [step, hphase]
  rfl

theorem good_childPhase (h : m.WellFormed) :
    ∃ c, childPhase env fields ifNone resume m = some c ∧ c.Good := by
  obtain ⟨node, hat⟩ := h.at
  cases hchild : fields (env.fields node) with
  | none => exact ⟨_, childPhase_none hat hchild, (hat.savePhase ifNone).wellFormed⟩
  | some child =>
    cases hcheck : m.state.checkTreeIterChildEntry env child with
    | error error => exact ⟨_, childPhase_error hat hchild hcheck, Machine.clear_eq_zero h⟩
    | ok state =>
      cases hpush : ({ m with state := state }.incref node).stateStackPush env node resume with
      | none => exact ⟨_, childPhase_full hat hchild hcheck hpush, Machine.clear_eq_zero h⟩
      | some m' =>
        refine ⟨_, childPhase_pushed hat hchild hcheck hpush, ?_⟩
        exact (pushedPhase_at (hat.checked hcheck) hpush).wellFormed

theorem good_backtrackPhase (h : m.WellFormed) :
    ∃ c : Config Node Value, backtrackPhase m = some c ∧ c.Good := by
  obtain ⟨node, hat⟩ := h.at
  unfold backtrackPhase
  split
  next => exact ⟨_, rfl, (congrArg Good (donePhase_eq hat)).mpr rfl⟩
  next htop =>
    obtain ⟨below, parent, resume, hentries⟩ := h.exists_concat htop
    rw [hentries] at hat
    obtain ⟨m', hpop, hat', -⟩ := popPhase_spec Value hat
    exact ⟨_, hpop, hat'.wellFormed⟩

variable {c c' : Config Node Value}

theorem good_step (env : Env Node Value) (hgood : c.Good) (hlive : c.Live) :
    ∃ c', c.step env = some c' ∧ c'.Good := by
  cases c with
  | running m =>
    obtain ⟨node, hat⟩ := Machine.WellFormed.at hgood
    cases hphase : m.state.currentPhase with
    | kLeft =>
      rw [step_kLeft hphase]
      exact good_childPhase hgood
    | kYield => exact ⟨_, (step_kYield hphase).trans (yieldPhase_eq hat), hgood⟩
    | kRight =>
      rw [step_kRight hphase]
      exact good_childPhase hgood
    | kBacktrack =>
      rw [step_kBacktrack hphase]
      exact good_backtrackPhase hgood
    | kExit => exact ⟨_, step_kExit hphase, (exitPhase_at hat).wellFormed⟩
  | suspended m value =>
    obtain ⟨node, hat⟩ := Machine.WellFormed.at hgood
    exact ⟨_, rfl, (hat.savePhase .kRight).wellFormed⟩
  | returned refs => exact hlive.elim
  | raised refs error => exact hlive.elim

theorem live_of_step (h : c.step env = some c') : c.Live := by
  cases c with
  | running m => exact trivial
  | suspended m value => exact trivial
  | returned refs => cases h
  | raised refs error => cases h

theorem Run.good {values : List Value} (h : Run env c values c') (hgood : c.Good) : c'.Good := by
  induction h with
  | refl => exact hgood
  | step hstep rest ih =>
    obtain ⟨next, hnext, hgood'⟩ := good_step env hgood (live_of_step hstep)
    obtain rfl := Option.some.inj (hstep.symm.trans hnext)
    exact ih hgood'

theorem Run.trans {c c' c'' : Config Node Value} {values values' : List Value}
    (h : Run env c values c') (h' : Run env c' values' c'') : Run env c
      (values ++ values') c'' := by
  induction h with
  | refl => exact h'
  | step hstep rest ih =>
    rw [append_assoc]
    exact .step hstep (ih h')

variable (Value) in
theorem start_eq (recursionLimit : Int) (root : Node) :
    ∃ m : Machine Node, start recursionLimit root = (.running m : Config Node Value) ∧
      m.At root .kLeft [] ∧ m.state = { TreeIterState.allocate recursionLimit with
        currentNode := some root } := by
  refine ⟨_, rfl, ⟨⟨some_ne_none _, Nat.zero_le _, Nat.succ_pos 15, ?_, ?_⟩, rfl, rfl, rfl⟩,
    rfl⟩
  · intro entry hentry
    cases hentry
  · intro other
    change (Machine.incref ⟨_, fun _ => 0⟩ root).refs other =
      (([root] : List Node).count other : Int)
    rw [Machine.refs_incref]
    by_cases hother : other = root
    · simp [hother]
    · simp [hother, Ne.symm hother]

end Config

end Phases

end CinderX.Jit.TreeIter
