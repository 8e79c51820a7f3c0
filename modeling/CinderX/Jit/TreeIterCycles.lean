import CinderX.Jit.TreeIterTraversal

/-!
# Cycles on the active path

The check reports a cycle exactly for the children that are being visited, as
long as every node that is left is erased from the active path.  A node with a
right child is left twice, so that the depth reaches zero before the stack is
empty: from there on, the active path keeps nodes that were left.
-/

namespace CinderX.Jit.TreeIter

open Option Finset

variable {Node Value : Type} [DecidableEq Node] {env : Env Node Value} {m m' : Machine Node}
  {node child : Node} {phase resume : TreeIterPhase} {entries : List (TreeIterStackEntry Node)}

/-- The check reports a cycle, unless it fails for another reason, for the nodes of the path; the
active path has these nodes, but for a current node that was left in `bb_exit`. -/
structure ExactPath (env : Env Node Value) (m : Machine Node) : Prop where
  reports : ∀ child, (m.state.checkTreeIterChildEntry env child = .error .cycle ∨
      ∃ state, m.state.checkTreeIterChildEntry env child = .ok state) →
    (m.state.checkTreeIterChildEntry env child = .error .cycle ↔ child ∈ m.state.path)
  covers : ∀ nodes, m.state.activePath = some nodes →
    nodes ∪ m.state.currentNode.toFinset = m.state.path.toFinset
  equals : ∀ nodes, m.state.activePath = some nodes → m.state.currentPhase ≠ .kBacktrack →
    nodes = m.state.path.toFinset

def Config.Exact (env : Env Node Value) : Config Node Value → Prop
  | .running m => ExactPath env m
  | .suspended m _ => ExactPath env m
  | .returned _ => True
  | .raised .. => True

/-- The node that is popped is erased from the active path: it is counted in the depth, or was
erased before. -/
def Config.Erases : Config Node Value → Prop
  | .running m => m.state.currentPhase = .kBacktrack → m.state.stackTop ≠ 0 →
      ∀ nodes, m.state.activePath = some nodes → 0 < m.state.depth ∨
        Disjoint nodes m.state.currentNode.toFinset
  | _ => True

structure Machine.Tracked (m : Machine Node) : Prop where
  wellFormed : m.WellFormed
  nodup : m.state.path.Nodup
  covers : m.state.visited ∪ m.state.currentNode.toFinset = m.state.path.toFinset
  equals : m.state.currentPhase ≠ .kBacktrack → m.state.visited = m.state.path.toFinset

namespace TreeIterState

variable {state : TreeIterState Node} {current : Node} {nodes : Finset Node}

theorem treeIterActivePathInsert_ne_cycle :
    treeIterActivePathInsert env nodes node ≠ .error .cycle := by
  intro h
  unfold treeIterActivePathInsert at h
  split at h
  · cases h
  · split at h
    · cases h
    · cases h

theorem checkActivePath_cycle
    (h : state.checkActivePath env current child nodes = .error .cycle) :
    child ∈ insert current nodes := by
  unfold checkActivePath at h
  cases hcurrent : treeIterActivePathInsert env nodes current with
  | error error =>
    simp only [hcurrent, bind, Except.bind, Except.error.injEq] at h
    exact absurd (h ▸ hcurrent) treeIterActivePathInsert_ne_cycle
  | ok withCurrent =>
    obtain rfl := treeIterActivePathInsert_ok hcurrent
    simp only [hcurrent, bind, Except.bind] at h
    split at h
    next hmem => exact hmem
    next =>
      cases hchild : treeIterActivePathInsert env (insert current nodes) child with
      | error error =>
        simp only [hchild, Except.error.injEq] at h
        exact absurd (h ▸ hchild) treeIterActivePathInsert_ne_cycle
      | ok withChild =>
        rw [hchild] at h
        cases h

theorem checkTreeIterChildEntry_cycle (hcurrent : state.currentNode = some current)
    (h : state.checkTreeIterChildEntry env child = .error .cycle) :
    child ∈ insert current state.visited := by
  unfold checkTreeIterChildEntry at h
  simp only [hcurrent] at h
  split at h
  · cases h
  split at h
  · cases h
  cases hactive : state.activePath with
  | some nodes =>
    rw [visited, hactive, getD_some]
    simp only [hactive] at h
    exact checkActivePath_cycle h
  | none =>
    rw [visited, hactive, getD_none, mem_insert, List.mem_toFinset,
      mem_path_iff hcurrent]
    simp only [hactive] at h
    split at h
    next =>
      split at h
      next heq => exact .inl heq
      split at h
      next hstack => exact .inr (.inr hstack)
      next => cases h
    next =>
      cases hnodes : state.treeIterMaterializeActivePath env with
      | error error =>
        unfold treeIterMaterializeActivePath at hnodes
        split at hnodes
        · cases hnodes
        · cases hnodes
          rw [treeIterMaterializeActivePath, if_neg ‹_›] at h
          cases h
      | ok nodes =>
        obtain rfl := treeIterMaterializeActivePath_ok hactive hnodes
        simp only [hnodes, bind, Except.bind] at h
        have hmem := checkActivePath_cycle h
        rwa [visited, hactive, getD_none, mem_insert, List.mem_toFinset,
          mem_path_iff hcurrent] at hmem

end TreeIterState

/-! ## Steps -/

theorem Machine.At.path_eq (h : m.At node phase entries) :
    m.state.path = node :: entries.filterMap TreeIterStackEntry.node := by
  rw [TreeIterState.path, h.node, h.entries, toList_some, List.singleton_append]

theorem Machine.At.eq_of_mem_erased (h : m.At node phase entries) {other : Node}
    (hmem : other ∈ m.state.erased) : other = node := by
  rw [TreeIterState.erased, h.node] at hmem
  split at hmem
  · exact mem_singleton.mp hmem
  · exact absurd hmem (notMem_empty _)

theorem Machine.At.path_perm_push {phase' : TreeIterPhase} (h : m.At node phase entries)
    (h' : m'.At child phase' (entries ++ [⟨some node, resume⟩])) :
    List.Perm m'.state.path (child :: m.state.path) := by
  rw [h'.path_eq, h.path_eq, List.filterMap_append]
  exact (List.perm_append_singleton _ _).cons _

namespace Machine.Tracked

theorem exact (h : m.Tracked) : ExactPath env m := by
  obtain ⟨node, hat⟩ := h.wellFormed.at
  have hchecked : insert node m.state.visited = m.state.path.toFinset := by
    rw [← h.covers, hat.node, toFinset_some, Finset.union_comm]
    rfl
  have hvisited : ∀ nodes, m.state.activePath = some nodes → m.state.visited = nodes := by
    intro nodes hnodes
    rw [TreeIterState.visited, hnodes, getD_some]
  refine ⟨fun child hanswer => ⟨fun hcycle => ?_, fun hmem => ?_⟩, fun nodes hnodes => ?_,
    fun nodes hnodes hphase => ?_⟩
  · have hchild := TreeIterState.checkTreeIterChildEntry_cycle hat.node hcycle
    rwa [hchecked, List.mem_toFinset] at hchild
  · rcases hanswer with hcycle | ⟨state, hok⟩
    · exact hcycle
    · have hchild := (TreeIterState.checkTreeIterChildEntry_ok hat.node hok).1
      rw [hchecked, List.mem_toFinset] at hchild
      exact absurd hmem hchild
  · rw [← hvisited nodes hnodes, h.covers]
  · rw [← hvisited nodes hnodes, h.equals hphase]

theorem savePhase (h : m.Tracked) (hphase : m.state.visited = m.state.path.toFinset) :
    (m.savePhase phase).Tracked := by
  obtain ⟨node, hat⟩ := h.wellFormed.at
  exact ⟨(hat.savePhase phase).wellFormed, h.nodup, h.covers, fun _ => hphase⟩

theorem pushed (h : m.Tracked) (hat : m.At node phase entries) {state : TreeIterState Node}
    (hcheck : m.state.checkTreeIterChildEntry env child = .ok state)
    (hpush : ({ m with state := state }.incref node).stateStackPush env node resume = some m') :
    (Config.pushedPhase node child m').Tracked := by
  have hentered : (Config.pushedPhase node child m').At child .kLeft _ :=
    Config.pushedPhase_at (hat.checked hcheck) hpush
  obtain ⟨hactive, -⟩ := Config.pushedPhase_state child (hat.checked hcheck) hpush
  have hchecked : insert node m.state.visited = m.state.path.toFinset := by
    rw [← h.covers, hat.node, toFinset_some, Finset.union_comm]
    rfl
  obtain ⟨hnew, hstate⟩ := TreeIterState.checkTreeIterChildEntry_ok hat.node hcheck
  have hperm := hat.path_perm_push hentered
  rw [hchecked] at hnew hstate
  have hvisited : (Config.pushedPhase node child m').state.visited =
      (Config.pushedPhase node child m').state.path.toFinset := by
    rcases hstate with ⟨rfl, hnone, -⟩ | rfl
    · rw [TreeIterState.visited, hactive, hnone, getD_none]
    · rw [TreeIterState.visited, hactive, getD_some, List.toFinset_eq_of_perm _ _ hperm,
        List.toFinset_cons]
  refine ⟨hentered.wellFormed, ?_, ?_, fun _ => hvisited⟩
  · have hfresh : child ∉ m.state.path := fun hmem => hnew (List.mem_toFinset.mpr hmem)
    exact hperm.nodup_iff.mpr (List.nodup_cons.mpr ⟨hfresh, h.nodup⟩)
  · rw [hvisited, hentered.node, toFinset_some, union_eq_left,
      singleton_subset_iff, List.mem_toFinset, hentered.path_eq]
    exact List.mem_cons_self

theorem leaveCurrentNode (h : m.Tracked) :
    (m.leaveCurrentNode.savePhase .kBacktrack).Tracked := by
  obtain ⟨node, hat⟩ := h.wellFormed.at
  have hleft := Config.exitPhase_at hat
  have hpath : (m.leaveCurrentNode.savePhase .kBacktrack).state.path = m.state.path := by
    rw [hleft.path_eq, hat.path_eq]
  have hactive := TreeIterState.activePath_treeIterLeaveCurrentNode m.state
  refine ⟨hleft.wellFormed, hpath ▸ h.nodup, ?_, fun hphase => absurd rfl hphase⟩
  have hcovers := h.covers
  rw [hleft.node, hpath, TreeIterState.visited, hpath]
  rw [hat.node] at hcovers
  change (m.state.treeIterLeaveCurrentNode.activePath.getD m.state.path.toFinset) ∪ _ = _
  rw [hactive]
  cases hnodes : m.state.activePath with
  | none =>
    rw [TreeIterState.visited, hnodes] at hcovers
    exact hcovers
  | some nodes =>
    rw [TreeIterState.visited, hnodes, getD_some] at hcovers
    rw [map_some, getD_some, ← hcovers]
    ext other
    rw [toFinset_some, mem_union, mem_union, mem_sdiff,
      mem_singleton]
    by_cases hother : other = node
    · simp [hother]
    · have hkept : other ∉ m.state.erased := fun hmem => hother (hat.eq_of_mem_erased hmem)
      simp [hother, hkept]

theorem popped (h : m.Tracked) {parent : Node}
    (hat : m.At node .kBacktrack (entries ++ [⟨some parent, resume⟩]))
    (hat' : m'.At parent resume entries)
    (hactive : m'.state.activePath = m.state.activePath.map fun nodes => nodes \ m.state.erased)
    (herases : ∀ nodes, m.state.activePath = some nodes → node ∉ nodes \ m.state.erased) :
    m'.Tracked := by
  have hperm := hat'.path_perm_push hat
  have hnodup := hperm.nodup_iff.mp h.nodup
  have hvisited : m'.state.visited = m'.state.path.toFinset := by
    cases hnodes : m.state.activePath with
    | none => rw [TreeIterState.visited, hactive, hnodes, map_none, getD_none]
    | some nodes =>
      have hcovers := h.covers
      have hnot := herases nodes hnodes
      rw [TreeIterState.visited, hnodes, getD_some, hat.node,
        List.toFinset_eq_of_perm _ _ hperm, List.toFinset_cons] at hcovers
      rw [TreeIterState.visited, hactive, hnodes, map_some, getD_some]
      ext other
      have hother := congrArg (other ∈ ·) hcovers
      simp only [toFinset_some, mem_union, mem_singleton, mem_insert,
        List.mem_toFinset, eq_iff_iff] at hother
      rw [List.mem_toFinset]
      by_cases hnode : other = node
      · subst hnode
        exact iff_of_false hnot (List.nodup_cons.mp hnodup).1
      · have hkept : other ∉ m.state.erased := fun hmem => hnode (hat.eq_of_mem_erased hmem)
        simpa [hnode, hkept] using hother
  refine ⟨hat'.wellFormed, (List.nodup_cons.mp hnodup).2, ?_, fun _ => hvisited⟩
  rw [hvisited, hat'.node, toFinset_some, union_eq_left,
    singleton_subset_iff, List.mem_toFinset, hat'.path_eq]
  exact List.mem_cons_self

end Machine.Tracked

namespace Config

def Tracked : Config Node Value → Prop
  | running m => m.Tracked
  | suspended m _ => m.Tracked ∧ m.state.currentPhase ≠ .kBacktrack
  | _ => True

variable {c : Config Node Value}

theorem Tracked.exact (h : c.Tracked) : c.Exact env := by
  cases c with
  | running m => exact Machine.Tracked.exact h
  | suspended m value => exact Machine.Tracked.exact h.1
  | returned refs => exact trivial
  | raised refs error => exact trivial

theorem tracked_childPhase {fields : NodeFields Node Value → Option Node} {ifNone : TreeIterPhase}
    (h : m.Tracked) (hphase : m.state.currentPhase ≠ .kBacktrack)
    (hstep : childPhase env fields ifNone resume m = some c) : c.Tracked := by
  obtain ⟨node, hat⟩ := h.wellFormed.at
  cases hchild : fields (env.fields node) with
  | none =>
    rw [childPhase_none hat hchild] at hstep
    cases hstep
    exact h.savePhase (h.equals hphase)
  | some child =>
    cases hcheck : m.state.checkTreeIterChildEntry env child with
    | error error =>
      rw [childPhase_error hat hchild hcheck] at hstep
      cases hstep
      exact trivial
    | ok state =>
      cases hpush : ({ m with state := state }.incref node).stateStackPush env node resume with
      | none =>
        rw [childPhase_full hat hchild hcheck hpush] at hstep
        cases hstep
        exact trivial
      | some m' =>
        rw [childPhase_pushed hat hchild hcheck hpush] at hstep
        cases hstep
        exact h.pushed hat hcheck hpush

theorem backtrackPhase_cases (hwell : m.WellFormed) (hphase : m.state.currentPhase = .kBacktrack)
    (hstep : backtrackPhase m = some c) :
    m.state.stackTop = 0 ∧ (∃ refs, c = .returned refs) ∨
      ∃ node parent resume entries m', m.state.stackTop ≠ 0 ∧ c = .running m' ∧
        m.At node .kBacktrack (entries ++ [⟨some parent, resume⟩]) ∧ m'.At parent resume entries ∧
        m'.state.activePath = m.state.activePath.map fun nodes => nodes \ m.state.erased := by
  obtain ⟨node, hat⟩ := hwell.at
  rw [hphase] at hat
  unfold backtrackPhase at hstep
  split at hstep
  next htop => exact .inl ⟨htop, _, (Option.some.inj hstep).symm⟩
  next htop =>
    obtain ⟨below, parent, resume, hentries⟩ := hwell.exists_concat htop
    rw [hentries] at hat
    obtain ⟨m', hpop, hat', -, hstate⟩ := popPhase_spec Value hat
    obtain rfl := Option.some.inj (hpop.symm.trans hstep)
    refine .inr ⟨node, parent, resume, below, m', htop, rfl, hat, hat', ?_⟩
    rw [hstate]
    exact TreeIterState.activePath_treeIterLeaveCurrentNode _

theorem erases_iff (hat : m.At node .kBacktrack entries) (htop : m.state.stackTop ≠ 0) :
    (running m : Config Node Value).Erases ↔
      ∀ nodes, m.state.activePath = some nodes → node ∉ nodes \ m.state.erased := by
  simp only [Erases, hat.phase, hat.node, TreeIterState.erased, toFinset_some,
    disjoint_singleton_right, forall_const, mem_sdiff]
  refine ⟨fun h nodes hnodes => ?_, fun h _ nodes hnodes => ?_⟩
  · rcases h htop nodes hnodes with hdepth | hdisjoint
    · simp [hdepth]
    · simp [hdisjoint]
  · by_cases hdepth : 0 < m.state.depth
    · exact .inl hdepth
    · simpa [hdepth] using h nodes hnodes

theorem tracked_step {c c' : Config Node Value} (h : c.Tracked) (hstep : c.step env = some c')
    (herases : c.Erases) : c'.Tracked := by
  cases c with
  | running m =>
    have hm : m.Tracked := h
    obtain ⟨node, hat⟩ := hm.wellFormed.at
    cases hphase : m.state.currentPhase with
    | kLeft =>
      rw [step_kLeft hphase] at hstep
      exact tracked_childPhase hm (by simp [hphase]) hstep
    | kYield =>
      rw [step_kYield hphase, yieldPhase_eq hat] at hstep
      cases hstep
      exact ⟨hm, by simp [hphase]⟩
    | kRight =>
      rw [step_kRight hphase] at hstep
      exact tracked_childPhase hm (by simp [hphase]) hstep
    | kBacktrack =>
      rw [step_kBacktrack hphase] at hstep
      obtain ⟨-, refs, rfl⟩ | ⟨node, parent, resume, entries, m', htop, rfl, hat, hat', hactive⟩ :=
        backtrackPhase_cases hm.wellFormed hphase hstep
      · exact trivial
      · exact hm.popped hat hat' hactive ((erases_iff hat htop).mp herases)
    | kExit =>
      rw [step_kExit hphase] at hstep
      cases hstep
      exact hm.leaveCurrentNode
  | suspended m value =>
    cases hstep
    exact h.1.savePhase (h.1.equals h.2)
  | returned refs => cases hstep
  | raised refs error => cases hstep

theorem not_exact_of_not_erases {c c' : Config Node Value} (h : c.Tracked)
    (hstep : c.step env = some c') (herases : ¬ c.Erases) : ¬ c'.Exact env := by
  cases c with
  | running m =>
    have hm : m.Tracked := h
    by_cases hphase : m.state.currentPhase = .kBacktrack
    · rw [step_kBacktrack hphase] at hstep
      obtain ⟨htop, -⟩ | ⟨node, parent, resume, entries, m', htop, rfl, hat, hat', hactive⟩ :=
        backtrackPhase_cases hm.wellFormed hphase hstep
      · exact absurd (fun _ hne => absurd htop hne) herases
      · intro hexact
        refine herases ((erases_iff hat htop).mpr fun nodes hnodes hmem => ?_)
        rw [hnodes] at hactive
        have hcovers := ExactPath.covers hexact _ hactive
        have hpath : node ∈ m'.state.path := by
          rw [← List.mem_toFinset, ← hcovers]
          exact mem_union_left _ hmem
        have hnodup := (hat'.path_perm_push hat).nodup_iff.mp hm.nodup
        exact (List.nodup_cons.mp hnodup).1 hpath
    · exact absurd (fun hback => absurd hback hphase) herases
  | suspended m value => exact absurd trivial herases
  | returned refs => exact absurd trivial herases
  | raised refs error => exact absurd trivial herases

theorem tracked_start (recursionLimit : Int) (root : Node) :
    (start recursionLimit root : Config Node Value).Tracked := by
  obtain ⟨m, hstart, hat, hstate⟩ := start_eq Value recursionLimit root
  have hactive : m.state.activePath = none := by rw [hstate]; rfl
  have hvisited : m.state.visited = m.state.path.toFinset := by
    rw [TreeIterState.visited, hactive, getD_none]
  rw [hstart]
  refine ⟨hat.wellFormed, ?_, ?_, fun _ => hvisited⟩
  · rw [hat.path_eq]
    exact List.nodup_singleton _
  · rw [hvisited, hat.node, hat.path_eq]
    exact Finset.union_self _

/-- As long as every popped node is erased, the check is exact in every state; it ceases to be so
with the first one that is not. -/
theorem run_exact (recursionLimit : Int) (root : Node) (c : Config Node Value)
    (h : Relation.ReflTransGen (fun c c' => c.step env = some c' ∧ c.Erases)
      (start recursionLimit root) c) :
    c.Exact env ∧ ∀ c', c.step env = some c' → (c'.Exact env ↔ c.Erases) := by
  have htracked : c.Tracked := by
    induction h with
    | refl => exact tracked_start recursionLimit root
    | tail _ hstep ih => exact tracked_step ih hstep.1 hstep.2
  refine ⟨htracked.exact, fun c' hstep => ⟨fun hexact => ?_, fun herases => ?_⟩⟩
  · by_contra hnot
    exact not_exact_of_not_erases htracked hstep hnot hexact
  · exact (tracked_step htracked hstep herases).exact

end Config

/-! ## A shared subtree -/

def sharedChain : Env Nat Nat where
  fields node :=
    if node = 0 then ⟨some 1, 0, some 1⟩
    else ⟨none, node, if node < 129 then some (node + 1) else none⟩
  typeOf _ := 0
  grows _ := true
  hashes _ := true

def chainEntries : Nat → List (TreeIterStackEntry Nat)
  | 0 => []
  | node + 1 => chainEntries node ++ [⟨some node, if node = 0 then .kYield else .kExit⟩]

theorem length_chainEntries (node : Nat) : (chainEntries node).length = node := by
  induction node with
  | zero => rfl
  | succ node ih => rw [chainEntries, List.length_append, ih, List.length_singleton]

theorem lt_of_mem_chainEntries {node other : Nat}
    (h : ∃ entry ∈ chainEntries node, entry.node = some other) : other < node := by
  induction node with
  | zero =>
    obtain ⟨entry, hentry, -⟩ := h
    cases hentry
  | succ node ih =>
    obtain ⟨entry, hentry, hother⟩ := h
    rcases List.mem_append.mp hentry with hentry | hentry
    · exact Nat.lt_succ_of_lt (ih ⟨entry, hentry, hother⟩)
    · rw [List.mem_singleton.mp hentry] at hother
      exact Nat.lt_succ_of_le (Nat.le_of_eq (Option.some.inj hother).symm)

theorem mem_chainEntries {node other : Nat} (h : other < node) :
    ∃ entry ∈ chainEntries node, entry.node = some other := by
  induction node with
  | zero => omega
  | succ node ih =>
    rw [chainEntries]
    by_cases hother : other = node
    · exact ⟨_, List.mem_append_right _ (.head _), by rw [hother]⟩
    · obtain ⟨entry, hentry, hnode⟩ := ih (by omega)
      exact ⟨entry, List.mem_append_left _ hentry, hnode⟩

open Config

def Erasing (c c' : Config Nat Nat) : Prop := c.step sharedChain = some c' ∧ c.Erases

theorem exists_run {c c' : Config Nat Nat} (h : Relation.ReflTransGen Erasing c c') :
    ∃ values, Run sharedChain c values c' := by
  induction h using Relation.ReflTransGen.head_induction_on with
  | refl => exact ⟨_, .refl _⟩
  | head hstep _ ih =>
    obtain ⟨values, hrun⟩ := ih
    exact ⟨_, .step hstep.1 hrun⟩

structure Descended (node : Nat) (m : Machine Nat) : Prop where
  run : Relation.ReflTransGen Erasing (start 1000 0) (.running m)
  tracked : m.Tracked
  place : m.At node .kLeft (chainEntries node)
  depth : m.state.depth = node
  budget : m.state.depthBudget = 1000
  active : node = 129 → m.state.activePath ≠ none

variable {m : Machine Nat} {node : Nat} {entries : List (TreeIterStackEntry Nat)}

theorem steps_toRight (h : m.At node .kLeft entries) (hnode : node ≠ 0) :
    Relation.ReflTransGen Erasing (.running m)
      (.running ((m.savePhase .kYield).savePhase .kRight)) := by
  have hfields : sharedChain.fields node =
      ⟨none, node, if node < 129 then some (node + 1) else none⟩ := if_neg hnode
  have hleft : Config.step sharedChain (.running m) = some (.running (m.savePhase .kYield)) :=
    (step_kLeft h.phase).trans (childPhase_none h (by rw [hfields]))
  have hyield : Config.step sharedChain (.running (m.savePhase .kYield)) =
      some (.suspended (m.savePhase .kYield) node) := by
    rw [step_kYield rfl, yieldPhase_eq (h.savePhase .kYield), hfields]
  have hresume : Config.step sharedChain (.suspended (m.savePhase .kYield) node) =
      some (.running ((m.savePhase .kYield).savePhase .kRight)) := rfl
  exact .head ⟨hleft, fun hphase => by cases h.phase.symm.trans hphase⟩
    (.head ⟨hyield, nofun⟩ (.single ⟨hresume, trivial⟩))

theorem descended_next (h : Descended (node + 1) m) (hnode : node + 1 < 129) :
    ∃ m', Descended (node + 2) m' := by
  have hvisited := h.tracked.equals (by rw [h.place.phase]; simp)
  have hat := (h.place.savePhase .kYield).savePhase .kRight
  have htracked : ((m.savePhase .kYield).savePhase .kRight).Tracked :=
    (h.tracked.savePhase hvisited).savePhase hvisited
  have hright : (sharedChain.fields (node + 1)).right = some (node + 2) := if_pos hnode
  have hunseen : node + 2 ∉ insert (node + 1)
      ((m.savePhase .kYield).savePhase .kRight).state.visited := by
    rw [mem_insert, not_or]
    refine ⟨by omega, fun hmem => ?_⟩
    rw [htracked.equals (by simp), List.mem_toFinset, hat.mem_path_iff] at hmem
    rcases hmem with heq | hentry
    · omega
    · have hlt := lt_of_mem_chainEntries hentry
      omega
  have hbudget : (((chainEntries (node + 1)).length : Nat) : Int) + 1 < 1000 := by
    rw [length_chainEntries]
    omega
  have hroom : (chainEntries (node + 1)).length ≤ 1073741823 := by
    rw [length_chainEntries]
    omega
  obtain ⟨m', henter, hat', hbudget', hdepth', -, hactive'⟩ := childPhase_enters .kBacktrack .kExit
    ⟨fun _ => rfl, fun _ => rfl⟩ hat hright rfl
      (fun _ => hbudget.trans_eq h.budget.symm) hroom hunseen
  have hstep := (step_kRight hat.phase).trans henter
  refine ⟨m', h.run.trans ((steps_toRight h.place (by omega)).tail ⟨hstep, nofun⟩),
    tracked_step (c := .running _) htracked hstep nofun, hat', ?_, hbudget'.trans h.budget, ?_⟩
  · exact hdepth'.trans (congrArg (· + 1) h.depth)
  · intro hlast hnone
    have hlt := hactive' hnone
    rw [length_chainEntries, kTreeIterActivePathHashThreshold] at hlt
    omega

theorem descended_one : ∃ m, Descended 1 m := by
  obtain ⟨m, hstart, hat, hstate⟩ := start_eq Nat 1000 0
  have htracked : (start 1000 0 : Config Nat Nat).Tracked := tracked_start 1000 0
  rw [hstart] at htracked
  have hbudget : m.state.depthBudget = 1000 := by rw [hstate]; rfl
  have hdepth : m.state.depth = 0 := by rw [hstate]; rfl
  have hvisited : m.state.visited = {0} := by
    rw [Machine.Tracked.equals htracked (by rw [hat.phase]; simp), hat.path_eq]
    rfl
  have hchild : (sharedChain.fields 0).left = some 1 := rfl
  have hlevel : 0 < m.state.depthBudget → (([] : List (TreeIterStackEntry Nat)).length : Int) + 1 <
      m.state.depthBudget := fun _ => by rw [hbudget]; decide
  have hunseen : 1 ∉ insert 0 m.state.visited := by
    rw [hvisited]
    decide
  obtain ⟨m', henter, hat', hbudget', hdepth', -, -⟩ := childPhase_enters .kYield .kYield
    ⟨fun _ => rfl, fun _ => rfl⟩ hat hchild rfl hlevel (by decide) hunseen
  have hstep := (step_kLeft hat.phase).trans henter
  have herases : (.running m : Config Nat Nat).Erases :=
    fun hphase => by cases hat.phase.symm.trans hphase
  refine ⟨m', ?_, tracked_step htracked hstep herases, hat', ?_, hbudget'.trans hbudget, ?_⟩
  · rw [hstart]
    exact .single ⟨hstep, herases⟩
  · rw [hdepth', hdepth]
  · intro hlast
    cases hlast

theorem exists_descended (node : Nat) (hnode : node < 129) : ∃ m, Descended (node + 1) m := by
  induction node with
  | zero => exact descended_one
  | succ node ih =>
    obtain ⟨m, h⟩ := ih (by omega)
    exact descended_next h hnode

/-- A node of the chain on the way up, with the first one still in the active path. -/
structure Ascended (node : Nat) (m : Machine Nat) : Prop where
  run : ∃ values, Run sharedChain (start 1000 0) values (.running m)
  place : m.At node .kExit (chainEntries node)
  depth : m.state.depth = 2 * (node - 64)
  budget : m.state.depthBudget = 1000
  active : ∃ nodes, m.state.activePath = some nodes ∧ 1 ∈ nodes

theorem mem_sdiff_erased {phase : TreeIterPhase} (h : m.At (node + 1) phase entries)
    {nodes : Finset Nat} (hkept : 1 ∈ nodes) (hnode : node ≠ 0 ∨ m.state.depth = 0) :
    1 ∈ nodes \ m.state.erased := by
  refine mem_sdiff.mpr ⟨hkept, fun herased => ?_⟩
  rcases hnode with hnode | hzero
  · have heq := h.eq_of_mem_erased herased
    omega
  · rw [TreeIterState.erased, if_neg (by omega)] at herased
    exact notMem_empty _ herased

theorem ascended_back (h : Ascended (node + 1) m) :
    ∃ m', (∃ values, Run sharedChain (start 1000 0) values (.running m')) ∧
      m'.At node (if node = 0 then .kYield else .kExit) (chainEntries node) ∧
      m'.state.depth = 2 * (node - 64) ∧ m'.state.depthBudget = 1000 ∧
      ∃ nodes, m'.state.activePath = some nodes ∧ 1 ∈ nodes := by
  obtain ⟨nodes, hactive, hkept⟩ := h.active
  have hdepth := h.depth
  have hexit := exitPhase_at h.place
  have hleft : (m.leaveCurrentNode.savePhase .kBacktrack).state.activePath =
      some (nodes \ m.state.erased) := by
    refine (TreeIterState.activePath_treeIterLeaveCurrentNode m.state).trans ?_
    rw [hactive, map_some]
  have hdepthExit : (m.leaveCurrentNode.savePhase .kBacktrack).state.depth = m.state.depth - 1 :=
    TreeIterState.depth_treeIterLeaveCurrentNode m.state
  obtain ⟨m', hpop, hat, hbudgetPop, hdepthPop, hactivePop, -⟩ :=
    backtrackPhase_pops sharedChain hexit
  rw [hleft, map_some] at hactivePop
  obtain ⟨values, hrun⟩ := h.run
  refine ⟨m', ⟨_, hrun.trans (.step (step_kExit h.place.phase) (.step hpop (.refl _)))⟩, hat, ?_,
    ?_,
    _, hactivePop, ?_⟩
  · omega
  · exact hbudgetPop.trans ((TreeIterState.depthBudget_treeIterLeaveCurrentNode m.state).trans
      h.budget)
  · exact mem_sdiff_erased hexit (mem_sdiff_erased h.place hkept (by omega)) (by omega)

/-- The last node is about to be popped, from a path that is kept as a set. -/
theorem exists_backtracking : ∃ m, Relation.ReflTransGen Erasing (start 1000 0) (.running m) ∧
    m.At 129 .kBacktrack (chainEntries 129) ∧ m.state.depth = 129 ∧
    m.state.depthBudget = 1000 ∧ ∃ nodes, m.state.activePath = some nodes ∧ 1 ∈ nodes := by
  obtain ⟨m, h⟩ := exists_descended 128 (by decide)
  obtain ⟨nodes, hactive⟩ := ne_none_iff_exists'.mp (h.active rfl)
  have hkept : 1 ∈ nodes := by
    have hvisited := h.tracked.equals (by rw [h.place.phase]; simp)
    rw [TreeIterState.visited, hactive, getD_some] at hvisited
    rw [hvisited, List.mem_toFinset, h.place.mem_path_iff]
    exact .inr (mem_chainEntries (by decide))
  have hright := (h.place.savePhase .kYield).savePhase .kRight
  have hback : Config.step sharedChain (.running ((m.savePhase .kYield).savePhase .kRight)) =
      some (.running (((m.savePhase .kYield).savePhase .kRight).savePhase .kBacktrack)) :=
    (step_kRight hright.phase).trans (childPhase_none hright rfl)
  have herases : (.running ((m.savePhase .kYield).savePhase .kRight) : Config Nat Nat).Erases :=
    fun hphase => by cases hright.phase.symm.trans hphase
  exact ⟨_, h.run.trans ((steps_toRight h.place (by decide)).tail ⟨hback, herases⟩),
    hright.savePhase .kBacktrack, h.depth, h.budget, nodes, hactive, hkept⟩

theorem ascended_last : ∃ m, Ascended 128 m := by
  obtain ⟨m, hsteps, hend, hdepth, hbudget, nodes, hactive, hkept⟩ := exists_backtracking
  obtain ⟨m', hpop, hat, hbudget', hdepth', hactive', -⟩ := backtrackPhase_pops sharedChain hend
  obtain ⟨values, hrun⟩ := exists_run hsteps
  refine ⟨m', ⟨_, hrun.trans (.step hpop (.refl _))⟩, hat, ?_, hbudget'.trans hbudget, _,
    hactive'.trans (congrArg (Option.map _) hactive),
    mem_sdiff_erased hend hkept (.inl (by decide))⟩
  exact hdepth'.trans (congrArg (· - 1) hdepth)

theorem exists_ascended (count : Nat) (hcount : count < 128) : ∃ m, Ascended (128 - count) m := by
  induction count with
  | zero => exact ascended_last
  | succ count ih =>
    obtain ⟨m, h⟩ := ih (by omega)
    obtain ⟨node, hnode⟩ : ∃ node, 128 - count = node + 2 := ⟨126 - count, by omega⟩
    rw [hnode] at h
    obtain ⟨m', hrun, hat, hdepth, hbudget, hactive⟩ := ascended_back h
    rw [if_neg (Nat.succ_ne_zero _)] at hat
    have hnext : 128 - (count + 1) = node + 1 := by omega
    rw [hnext]
    exact ⟨m', hrun, hat, hdepth, hbudget, hactive⟩

/-- Back at the first node, with an empty stack, the shared child is reported as a cycle. -/
theorem sharedChain_reported :
    ∃ values m, Run sharedChain (start 1000 0) values (.running m) ∧
      m.state.currentPhase = .kRight ∧ m.state.path = [0] ∧
      (sharedChain.fields 0).right = some 1 ∧
      m.state.checkTreeIterChildEntry sharedChain 1 = .error .cycle := by
  obtain ⟨first, h⟩ := exists_ascended 127 (by decide)
  obtain ⟨m, ⟨values, hrun⟩, hat, -, hbudget, nodes, hactive, hkept⟩ := ascended_back h
  have hyield : Config.step sharedChain (.running m) = some (.suspended m 0) :=
    (step_kYield hat.phase).trans (yieldPhase_eq hat)
  have hresume : Config.step sharedChain (.suspended m 0) = some (.running (m.savePhase .kRight)) :=
    rfl
  have hright := hat.savePhase .kRight
  refine ⟨_, m.savePhase .kRight, hrun.trans (.step hyield (.step hresume (.refl _))), rfl,
    hright.path_eq, rfl, ?_⟩
  have htop : m.state.stackTop = 0 := by
    rw [← Machine.length_entries hat.wellFormed, hat.entries]
    rfl
  have hmemory : sharedChain.Allocates := ⟨fun _ => rfl, fun _ => rfl⟩
  have hdepth : ¬ ((m.savePhase .kRight).state.depthBudget > 0 ∧
      ((m.savePhase .kRight).state.stackTop : Int) + 1 ≥
        (m.savePhase .kRight).state.depthBudget) := by
    simp [hbudget, htop]
  have hseen : 1 ∈ insert 0 nodes := mem_insert_of_mem hkept
  have hnodes : (m.savePhase .kRight).state.activePath = some nodes := hactive
  unfold TreeIterState.checkTreeIterChildEntry
  have htype : sharedChain.typeOf 1 = sharedChain.typeOf 0 := rfl
  simp only [hright.node, htype, ne_eq, not_true, if_false, if_neg hdepth, hnodes]
  simp only [TreeIterState.checkActivePath, treeIterActivePathInsert_eq hmemory, bind, Except.bind,
    if_pos hseen]

/-- The last node of the chain is popped, and the set follows. -/
theorem run_exact_sharedChain :
    ∃ m c, Relation.ReflTransGen (fun c c' => c.step sharedChain = some c' ∧ c.Erases)
        (start 1000 0) (.running m) ∧ m.state.currentPhase = .kBacktrack ∧
      m.state.activePath ≠ none ∧ (Config.running m).step sharedChain = some c ∧
      c.Exact sharedChain := by
  obtain ⟨m, hsteps, hend, hdepth, -, nodes, hactive, -⟩ := exists_backtracking
  obtain ⟨m', hpop, -⟩ := backtrackPhase_pops sharedChain hend
  have herases : (Config.running m : Config Nat Nat).Erases := fun _ _ _ _ => .inl (by omega)
  exact ⟨m, _, hsteps, hend.phase, by simp [hactive], hpop,
    ((run_exact 1000 0 _ hsteps).2 _ hpop).mpr herases⟩

end CinderX.Jit.TreeIter
