import Structuring.Proofs.Graph.DominatorQueries
import Structuring.Proofs.Graph.History

/-!
# Dominator trees of graphs that change

A tree belongs to the graph as it was when the tree was made, and it gives no answers once the
generation of the graph has gone on. Until then the nodes and the edges are as they were. An entry that
is assigned does not count as a change, so the answers are those for the entry of that time.

* `Workspace.Sound.step_iff`, `coherent` — the arcs of a workspace are the edges of its graphs.
* `Session.exists_dominatorTree`, `fresh_eq` — when a tree is made, and when it gives answers.
* `Session.fresh_answers` — the answers of a tree after any calls.
* `Session.turned_fresh` — answers for an entry that is no longer the entry.
-/

namespace Structuring

open Relation

theorem Digraph.forget_ids {β : Type} (g : Digraph β) : g.forget.ids = g.ids := by
  rw [forget, ids, List.map_map]
  rfl

namespace Workspace

variable {w : Workspace} {t : Nat} {g : FlowGraph} {u v : NodeId}

theorem home_leads (hw : w.Sound) (n : NodeId) :
    (w.home n).Leads u v ↔ ∃ g, w.graphs[n.owner]? = some (.flow g) ∧ g.Leads u v := by
  unfold home
  cases hx : w.graphs[n.owner]? with
  | none =>
    constructor
    · rintro ⟨e, he, -⟩
      cases he
    · rintro ⟨g, hg, -⟩
      cases hg
  | some x =>
    obtain ⟨g, rfl, -⟩ := hw _ _ hx
    constructor
    · exact fun huv => ⟨g, rfl, huv⟩
    · rintro ⟨g', hg', huv⟩
      cases hg'
      exact huv

namespace Sound

theorem step_iff (hw : w.Sound) :
    w.arcs.Step u v ↔ ∃ g, w.graphs[u.owner]? = some (.flow g) ∧ g.Leads u v :=
  Digraph.mem_successors.trans (home_leads hw u)

theorem step_iff_leads (hw : w.Sound) (hg : w.graphs[t]? = some (.flow g)) (hu : u ∈ g.ids) :
    w.arcs.Step u v ↔ g.Leads u v := by
  rw [hw.step_iff, (hw.houses hg).owner u hu]
  constructor
  · rintro ⟨g', hg', huv⟩
    rw [hg] at hg'
    cases hg'
    exact huv
  · exact fun huv => ⟨g, hg, huv⟩

theorem coherent (hw : w.Sound) : w.arcs.Coherent where
  ends_mem huv := by
    obtain ⟨g, hg, huv⟩ := hw.step_iff.1 huv
    have hmem := (hw.houses hg).closed.mem huv
    exact ⟨(hw.houses hg).noted _ hmem.1, (hw.houses hg).noted _ hmem.2⟩
  mem_back {u v} := by
    refine (Digraph.mem_predecessors.trans (home_leads hw v)).trans (Iff.trans ?_ hw.step_iff.symm)
    constructor
    · rintro ⟨g, hg, huv⟩
      refine ⟨g, ?_, huv⟩
      rwa [(hw.houses hg).owner u ((hw.houses hg).closed.mem huv).1]
    · rintro ⟨g, hg, huv⟩
      refine ⟨g, ?_, huv⟩
      rwa [(hw.houses hg).owner v ((hw.houses hg).closed.mem huv).2]

theorem sameWalks (hw : w.Sound) (hg : w.graphs[t]? = some (.flow g)) {root : NodeId}
    (hroot : root ∈ g.ids) : SameWalks w.arcs.Step g.Leads root := by
  refine SameWalks.of_steps (p := (· ∈ g.ids)) hroot (fun u hu v => hw.step_iff_leads hg hu)
    fun u hu v huv => ?_
  exact ((hw.houses hg).closed.mem ((hw.step_iff_leads hg hu).1 huv)).2

end Sound

end Workspace

namespace FlowGraph

theorem of_treeOn_eq_ok {members : List NodeId} {entry : Option NodeId} {G : Arcs NodeId}
    {a : Algorithm} {tree : DominatorTree NodeId} (h : treeOn members entry G a = .ok tree) :
    ∃ root, entry = some root ∧ root ∈ members := by
  cases entry with
  | none => cases h
  | some root =>
    refine ⟨root, rfl, ?_⟩
    unfold treeOn at h
    cases hidom : idomBy a G members root with
    | error e =>
      simp only [hidom] at h
      cases h
    | ok idom =>
      by_contra hroot
      have hmissing : ∃ v, DominatorTree.missing? idom (members.filter idom.contains) members root =
          some v := by
        unfold DominatorTree.missing?
        rw [if_neg (by simp [hroot])]
        exact Option.isSome_iff_exists.1 (by simp)
      obtain ⟨v, hv⟩ := hmissing
      simp only [hidom, bind, Except.bind, DominatorTree.build, hv] at h
      cases h

end FlowGraph

namespace Session

open Workspace

variable {w : Workspace} {t : Nat} {g : FlowGraph} {root : NodeId} {s : Snapshot}

theorem dominatorTree_eq (hg : w.graphs[t]? = some (.flow g)) (a : Algorithm) :
    dominatorTree t a w = (match FlowGraph.treeOn g.ids g.entry w.arcs a with
      | .error f => .error f
      | .ok tree => .ok ⟨t, g.generation, tree⟩, w) := by
  have hget : (get : Session Workspace) w = (.ok w, w) := rfl
  have hentry : entryOf t w = (.ok g.entry, w) := by
    unfold entryOf
    rw [bind_ok (graphAt_ok hg)]
    rfl
  unfold dominatorTree
  rw [bind_ok hentry, bind_ok (graphAt_ok hg), bind_ok hget]
  simp only [AnyGraph.skeleton, Digraph.forget_ids]
  cases FlowGraph.treeOn g.ids g.entry w.arcs a with
  | error f => rfl
  | ok tree =>
    simp only
    rw [bind_ok (flowAt_ok hg)]
    rfl

theorem exists_dominatorTree (hw : w.Sound) (hg : w.graphs[t]? = some (.flow g))
    (hroot : g.entry = some root) (hmem : root ∈ g.ids) (a : Algorithm) :
    ∃ tree, dominatorTree t a w = (.ok ⟨t, g.generation, tree⟩, w) ∧
      tree.Answers g.Leads root g.ids := by
  have hsame := hw.sameWalks hg hmem
  have hm : ∀ v, ReflTransGen w.arcs.Step root v → v ∈ g.ids := by
    intro v hv
    rw [hsame.reach] at hv
    exact (hw.houses hg).closed.reach_mem hmem hv
  obtain ⟨tree, -, htree, -, hanswers, -⟩ := FlowGraph.treeOn_answers hw.coherent hm a a
  refine ⟨tree, ?_, hanswers.of_sameWalks hsame⟩
  rw [dominatorTree_eq hg, hroot, htree]

theorem dominatorTree_eq_ok {a : Algorithm} (hw : w.Sound)
    (hs : (dominatorTree t a w).1 = .ok s) :
    ∃ g root, w.graphs[t]? = some (.flow g) ∧ g.entry = some root ∧ s.generation = g.generation ∧
      s.tag = t ∧ s.tree.Answers g.Leads root g.ids := by
  cases hx : w.graphs[t]? with
  | none =>
    have hentry : entryOf t w = (.error .noIndex, w) := by
      unfold entryOf
      rw [bind_error (graphAt_error hx)]
    unfold dominatorTree at hs
    rw [bind_error hentry] at hs
    cases hs
  | some x =>
    obtain ⟨g, rfl, -⟩ := hw t x hx
    have hmade : ∃ root, g.entry = some root ∧ root ∈ g.ids := by
      rw [dominatorTree_eq hx] at hs
      cases htree : FlowGraph.treeOn g.ids g.entry w.arcs a with
      | error f =>
        rw [htree] at hs
        cases hs
      | ok tree => exact FlowGraph.of_treeOn_eq_ok htree
    obtain ⟨root, hroot, hmem⟩ := hmade
    obtain ⟨tree, htree, hanswers⟩ := exists_dominatorTree hw hx hroot hmem a
    rw [htree] at hs
    cases hs
    exact ⟨g, root, rfl, hroot, rfl, rfl, hanswers⟩

theorem fresh_eq (hg : w.graphs[s.tag]? = some (.flow g)) :
    fresh s w = (if g.generation = s.generation then .ok s.tree else .error .staleTree, w) := by
  have hstale : isStale s w = (.ok (decide (g.generation ≠ s.generation)), w) := by
    unfold isStale
    rw [bind_ok (graphAt_ok hg)]
    rfl
  unfold fresh
  rw [bind_ok hstale]
  by_cases h : g.generation = s.generation
  · simp [h]
    rfl
  · simp [h]
    rfl

/-- A tree that was just made gives answers. After any calls, a tree that still gives answers gives
those that the current nodes and edges would have for the entry of the time when the tree was made.
That is the current entry unless one was assigned since. -/
theorem fresh_answers {a : Algorithm} (hw : w.Sound) (hs : (dominatorTree t a w).1 = .ok s)
    (calls : List (Nat × GraphCall)) :
    ∃ root g g', w.graphs[t]? = some (.flow g) ∧ g.entry = some root ∧
      (runCalls w calls).graphs[t]? = some (.flow g') ∧ fresh s w = (.ok s.tree, w) ∧
      ∀ tree, (fresh s (runCalls w calls)).1 = .ok tree →
        tree.Answers g'.Leads root g'.ids ∧ (g'.entry = some root ∨ Assigns calls t) := by
  obtain ⟨g, root, hg, hroot, hgeneration, htag, hanswers⟩ := dominatorTree_eq_ok hw hs
  obtain ⟨g', hg', hgg'⟩ := (runCalls_evolves calls hw fun _ => id).graphs hg
  refine ⟨root, g, g', hg, hroot, hg', ?_, fun tree htree => ?_⟩
  · rw [fresh_eq (htag ▸ hg), if_pos hgeneration.symm]
  rw [fresh_eq (htag ▸ hg'), hgeneration] at htree
  split at htree
  · next heq =>
    cases htree
    obtain ⟨hnodes, hedges⟩ := hgg'.unchanged heq
    have hleads : g'.Leads = g.Leads := by
      unfold Digraph.Leads
      rw [hedges]
    have hids : g'.ids = g.ids := by
      rw [Digraph.ids, hnodes]
      rfl
    rw [hleads, hids]
    exact ⟨hanswers, (hgg'.entry heq).imp_left fun hsame => hsame.trans hroot⟩
  · cases htree

def pair : Workspace :=
  runCalls (Workspace.empty.addFlowGraph none)
    [(0, .connect (.text "A") (.text "B") ∅), (0, .connect (.text "B") (.text "A") ∅)]

theorem pair_sound : pair.Sound := by
  have h : (Workspace.empty.addFlowGraph none).Evolves (fun _ => True) pair :=
    runCalls_evolves _ (empty_sound.addFlowGraph none) fun _ _ => trivial
  exact h.sound

theorem pair_graph : ∃ g, pair.graphs[0]? = some (.flow g) ∧ g.entry = some ⟨0, 1⟩ ∧
    ⟨0, 1⟩ ∈ g.ids ∧ g.generation = 4 ∧ g.Leads ⟨0, 1⟩ ⟨0, 2⟩ :=
  ⟨_, rfl, rfl, by decide, rfl, ⟨_, List.mem_cons_self, rfl, rfl⟩⟩

def refused : List (Nat × GraphCall) :=
  [(0, .newNode (.text "A") ∅), (0, .deleteNode ⟨0, 2⟩), (0, .deleteEdge ⟨0, 1⟩ ⟨0, 1⟩)]

theorem pair_fresh_answers :
    pair.Sound ∧ ∃ s g', (dominatorTree 0 .iterative pair).1 = .ok s ∧
      (runCalls pair refused).graphs[0]? = some (.flow g') ∧
      (fresh s (runCalls pair refused)).1 = .ok s.tree ∧
      s.tree.Answers g'.Leads ⟨0, 1⟩ g'.ids ∧ g'.entry = some ⟨0, 1⟩ := by
  obtain ⟨g, hg, hroot, hmem, hgeneration, -⟩ := pair_graph
  obtain ⟨tree, hmade, -⟩ := exists_dominatorTree pair_sound hg hroot hmem .iterative
  have hs := congrArg Prod.fst hmade
  obtain ⟨root, g₀, g', hg₀, hroot₀, hg', -, hanswers⟩ := fresh_answers pair_sound hs refused
  rw [hg] at hg₀
  cases hg₀
  obtain rfl : root = ⟨0, 1⟩ := Option.some.inj (hroot₀.symm.trans hroot)
  have hrefused : ∃ k, (runCalls pair refused).graphs[0]? = some (.flow k) ∧ k.generation = 4 :=
    ⟨_, rfl, rfl⟩
  obtain ⟨k, hk, hcount⟩ := hrefused
  have hfresh : (fresh ⟨0, g.generation, tree⟩ (runCalls pair refused)).1 = .ok tree := by
    rw [fresh_eq hk, if_pos (hcount.trans hgeneration.symm)]
  obtain ⟨hanswers, hentry⟩ := hanswers tree hfresh
  refine ⟨pair_sound, _, g', hs, hg', hfresh, hanswers, hentry.resolve_right ?_⟩
  rintro ⟨n, hn⟩
  simp [refused] at hn

/-- The other node of the pair becomes the entry. -/
def turned : Workspace := runCalls pair [(0, .setEntry (some ⟨0, 2⟩))]

/-- The tree from before says that the old entry dominates the new one. -/
theorem turned_fresh :
    ∃ s g, (dominatorTree 0 .semidominators pair).1 = .ok s ∧
      turned.graphs[0]? = some (.flow g) ∧ g.entry = some ⟨0, 2⟩ ∧ ⟨0, 2⟩ ∈ g.ids ∧
      (fresh s turned).1 = .ok s.tree ∧ s.tree.dominates ⟨0, 1⟩ ⟨0, 2⟩ = true ∧
      ¬ Dominates g.Leads ⟨0, 2⟩ ⟨0, 1⟩ ⟨0, 2⟩ := by
  obtain ⟨g, hg, hroot, hmem, hgeneration, hleads⟩ := pair_graph
  obtain ⟨tree, hmade, hanswers⟩ := exists_dominatorTree pair_sound hg hroot hmem .semidominators
  have hturned : ∃ k, turned.graphs[0]? = some (.flow k) ∧ k.entry = some ⟨0, 2⟩ ∧
      ⟨0, 2⟩ ∈ k.ids ∧ k.generation = 4 := ⟨_, rfl, rfl, by decide, rfl⟩
  obtain ⟨k, hk, hentry, hmember, hcount⟩ := hturned
  refine ⟨_, k, congrArg Prod.fst hmade, hk, hentry, hmember, ?_, ?_, fun hdom => ?_⟩
  · rw [fresh_eq hk, if_pos (hcount.trans hgeneration.symm)]
  · exact (hanswers.dominates _ _).2 ⟨.refl, .single hleads, root_dominates⟩
  · -- the walk that stays at the new entry does not visit the old one
    have := hdom _ (.single _)
    simp at this

end Session

end Structuring
