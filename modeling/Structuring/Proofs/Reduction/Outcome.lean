import Structuring.Proofs.Graph.History
import Structuring.Proofs.Reduction.Run
import Structuring.Recovery

/-!
# How a reduction ends

* `FlowGraph.Refusal` — why a graph is refused.
* `Reduced.Settled` — a reduction that came to a single node, or to a graph where there is no way on.
* `Descends.keeps` — what every step of a reduction keeps: each primitive that is located makes the
  graph smaller, and the nodes stay in the order of their numbers.
* `Merges.stale` — the dominator tree of a graph is stale once a primitive of it is contracted.
* `Method.reduce_descends` — both reductions go by such steps and settle.
* `Method.reduce_outcome` — a graph is refused and left as it is, or its reduction settles.
-/

namespace Structuring

open Relation

/-- Why a graph is refused: it has no entry, or a node that cannot be reached from the entry. -/
inductive FlowGraph.Refusal (g : FlowGraph) : GraphError → Prop where
  | noEntry : g.entry = none → g.Refusal .noEntry
  | unreachable {root v : NodeId} : g.entry = some root → v ∈ g.ids →
      ¬ ReflTransGen g.Leads root v → g.Refusal (.unreachable (g.label v) (g.label root))

/-- A reduction that came to a single node, or to several where it stopped as incomplete. It says which
labels remain and which primitives it located. -/
def Reduced.Settled (r : Reduced) : Prop :=
  r.failure = none ∧ r.progress.graph.size = 1 ∨
    ∃ e, r.failure = some (.incomplete e) ∧ 1 < r.progress.graph.size ∧
      e.remaining = r.progress.graph.labels ∧ e.located = r.progress.located

namespace FlowGraph

variable {g : FlowGraph} {root : NodeId}

theorem refusal_of_validate {e : GraphError} (hg : g.toDigraph.Closed) (h : g.validate = .error e) :
    g.Refusal e := by
  unfold validate validateOn at h
  cases hentry : g.entry with
  | none =>
    rw [hentry] at h
    cases h
    exact .noEntry hentry
  | some root =>
    simp only [hentry] at h
    split at h
    · cases h
    · next v hv =>
      cases h
      have hnot := List.find?_some hv
      rw [Bool.not_eq_eq_eq_not, Bool.not_true, ← Bool.not_eq_true, List.contains_iff_mem,
        Arcs.mem_reachable hg.coherent, Digraph.arcs_step_eq] at hnot
      exact .unreachable hentry (List.mem_of_find?_eq_some hv) hnot

theorem Rooted.not_refusal {e : GraphError} (h : g.Rooted root) : ¬ g.Refusal e := by
  rintro (hnone | ⟨hentry, hv, hnot⟩)
  · rw [h.1] at hnone
    cases hnone
  · rw [h.1] at hentry
    cases hentry
    exact hnot (h.2 _ hv)

end FlowGraph

namespace Progress

variable {s s' : Progress}

/-- A step that locates a primitive makes the graph smaller, and no step makes it larger. The nodes
stay in the order of their numbers. -/
theorem Descends.keeps (h : Descends s s') (hv : s.graph.Validated) :
    s'.located.length + s'.graph.size ≤ s.located.length + s.graph.size ∧
      (s.graph.Ordered → s'.graph.Ordered) := by
  obtain ⟨hg, root, hroot⟩ := hv
  cases h with
  | advance ha =>
    cases ha with
    | quiet hq =>
      rw [hq.located, hq.graph]
      exact ⟨Nat.le_refl _, id⟩
    | merge hm =>
      obtain ⟨-, hc, -⟩ := hm.spec hg hroot
      have hlt := hm.size_lt hg hroot
      refine ⟨?_, hc.ordered⟩
      rw [hm.located, List.length_append, List.length_singleton]
      omega
  | derive hd =>
    obtain ⟨hpart, hderived⟩ := hd.spec hg hroot
    refine ⟨?_, fun _ => hderived.ordered⟩
    rw [hd.located, ← Digraph.length_ids s'.graph.toDigraph, hderived.length_eq]
    exact Nat.add_le_add_left hpart.length_le _

theorem Descends.run_keeps (h : ReflTransGen Descends s s') (hv : s.graph.Validated) :
    s'.graph.Validated ∧
      s'.located.length + s'.graph.size ≤ s.located.length + s.graph.size ∧
      (s.graph.Ordered → s'.graph.Ordered) := by
  refine invariant (P := fun t => t.located.length + t.graph.size ≤
    s.located.length + s.graph.size ∧ (s.graph.Ordered → t.graph.Ordered)) ?_ h hv
    ⟨Nat.le_refl _, id⟩
  rintro t t' hv hd ⟨hle, hordered⟩
  obtain ⟨hle', hordered'⟩ := hd.keeps hv
  exact ⟨hle'.trans hle, fun ho => hordered' (hordered ho)⟩

theorem Merges.stale {n root : NodeId} {within : Option (List NodeId)} {p : Primitive NodeId}
    {a : Algorithm} {t : DatedTree} (h : Merges s within p n s') (hg : s.graph.WellFormed)
    (hroot : s.graph.Rooted root) (ht : DatedTree.make s.graph a = .ok t) :
    t.check s'.graph = .error .staleTree := by
  have hgeneration : t.generation = s.graph.generation := by
    unfold DatedTree.make at ht
    cases htree : s.graph.dominatorTree a with
    | error f =>
      rw [htree] at ht
      cases ht
    | ok tree =>
      rw [htree] at ht
      cases ht
      rfl
  obtain ⟨name, hrun⟩ := h.merge
  have hevolves : s.graph.Evolves False s'.graph := by
    have hmerged : (s.graph.merge p.region name).2 = s'.graph := by rw [hrun]
    rw [← hmerged]
    unfold FlowGraph.merge
    split
    · exact s.graph.mergeAs_evolves _ _
    · exact s.graph.mergeAs_evolves _ _
  refine if_neg fun heq => ?_
  have hnodes := (hevolves.unchanged (heq.symm.trans hgeneration)).1
  have hlt := h.size_lt hg hroot
  rw [Digraph.size, Digraph.size, hnodes] at hlt
  exact Nat.lt_irrefl _ hlt

theorem settled_stuck (o : Obstacle) (hsize : 1 < s.graph.size) : (s.stuck o).Settled :=
  .inr ⟨_, rfl, hsize, rfl, rfl⟩

end Progress

namespace Method

variable {g : FlowGraph}

theorem reduce_descends (m : Method) (hg : g.WellFormed) (hvalid : g.validate = .ok ()) :
    m.reduce g = .ok (m.run g) ∧
      ReflTransGen Progress.Descends (.start g) (m.run g).progress ∧ (m.run g).Settled := by
  have hv : g.Validated := ⟨hg, (FlowGraph.validate_eq_ok hg.closed).1 hvalid⟩
  cases m with
  | hammock =>
    have hsaid := Progress.quiet_say (.start g) (.structuring g.shown)
    generalize hs : (Progress.start g).say (.structuring g.shown) = s at hsaid
    have hvs : s.graph.Validated := hsaid.graph ▸ hv
    obtain ⟨hruns, hends⟩ := Progress.byHammocks_ends hvs
    have hrun : hammock.run g = s.byHammocks := by
      simp only [run, FlowGraph.runHammocks, hvalid, hs]
    rw [hrun]
    refine ⟨hs ▸ FlowGraph.reduceByHammocks_eq hvalid,
      .head (.advance (.quiet hsaid)) (Progress.Descends.run_of_advances hruns), ?_⟩
    rcases hends with ⟨hok, hsize⟩ | ⟨s', heq, hsize, -⟩
    · exact .inl ⟨hok, Nat.le_antisymm hsize (Progress.Advances.run hruns hvs).1.size_pos⟩
    · exact heq ▸ Progress.settled_stuck _ hsize
  | interval =>
    obtain ⟨hruns, hends⟩ := Progress.byLevels_ends (s := .start g) hv
    have hrun : interval.run g = (Progress.start g).byLevels := by
      simp only [run, FlowGraph.runIntervals, hvalid]
    rw [hrun]
    refine ⟨FlowGraph.reduceByIntervals_eq hvalid, hruns, ?_⟩
    rcases hends with ⟨hok, hsize⟩ | ⟨s', heq, hlimit⟩
    · exact .inl ⟨hok, Nat.le_antisymm hsize (Progress.Descends.run_keeps hruns hv).1.size_pos⟩
    · exact heq ▸ Progress.settled_stuck _ hlimit.large

/-- A graph that does not pass the check is left as it is, and nothing is recorded. -/
theorem run_refused (m : Method) {e : GraphError} (h : g.validate = .error e) :
    m.reduce g = .error e ∧ m.run g = (Progress.start g).fail (.graph e) := by
  cases m with
  | hammock =>
    constructor
    · simp only [reduce, FlowGraph.reduceByHammocks, h]
      rfl
    · simp only [run, FlowGraph.runHammocks, h]
  | interval =>
    constructor
    · simp only [reduce, FlowGraph.reduceByIntervals, h]
      rfl
    · simp only [run, FlowGraph.runIntervals, h]

/-- A graph without an entry, or with a node that cannot be reached from it, is refused: it is left as
it is, and nothing is recorded. The reduction of any other graph settles; it locates fewer primitives
than there were nodes, and its last graph has its nodes in the order of their numbers if the first one
has. -/
theorem reduce_outcome (m : Method) (hg : g.WellFormed) :
    (∃ e, g.Refusal e ∧ m.reduce g = .error e ∧ (m.run g).failure = some (.graph e) ∧
        (m.run g).progress.levels = [g] ∧ (m.run g).progress.located = [] ∧
        (m.run g).progress.events = []) ∨
      (∀ e, ¬ g.Refusal e) ∧ m.reduce g = .ok (m.run g) ∧ (m.run g).Settled ∧
        (m.run g).progress.located.length < g.size ∧
        (g.Ordered → (m.run g).progress.graph.Ordered) := by
  cases hvalid : g.validate with
  | error e =>
    obtain ⟨hreduce, hrun⟩ := m.run_refused hvalid
    rw [hrun]
    exact .inl ⟨e, FlowGraph.refusal_of_validate hg.closed hvalid, hreduce, rfl, rfl, rfl, rfl⟩
  | ok =>
    obtain ⟨root, hroot⟩ := (FlowGraph.validate_eq_ok hg.closed).1 hvalid
    obtain ⟨hrun, hruns, hsettled⟩ := m.reduce_descends hg hvalid
    obtain ⟨hv, hle, hordered⟩ := Progress.Descends.run_keeps hruns ⟨hg, root, hroot⟩
    refine .inr ⟨fun _ => hroot.not_refusal, hrun, hsettled, ?_, hordered⟩
    have hpos := hv.size_pos
    simp only [Progress.start, List.length_nil] at hle
    omega

theorem whileLoop_reduce_outcome :
    FlowGraph.whileLoop.WellFormed ∧
      interval.reduce FlowGraph.whileLoop = .ok (interval.run FlowGraph.whileLoop) ∧
      (interval.run FlowGraph.whileLoop).Settled ∧
      (interval.run FlowGraph.whileLoop).progress.located.length < FlowGraph.whileLoop.size := by
  have hg : FlowGraph.whileLoop.WellFormed := FlowGraph.ofWords_wellFormed _
  obtain ⟨root, hroot⟩ := (FlowGraph.validate_eq_ok hg.closed).1 FlowGraph.whileLoop_validate
  rcases reduce_outcome .interval hg with ⟨e, he, -⟩ | ⟨-, hrun, hsettled, hlt, -⟩
  · exact absurd he hroot.not_refusal
  · exact ⟨hg, hrun, hsettled, hlt⟩

end Method

end Structuring
