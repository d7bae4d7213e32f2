import Structuring.Proofs.Reduction.Quotient
import Structuring.Reduction.Step

/-!
# Steps of a reduction

* `Progress.contractions`, `collapses` — the contractions and the reports of intervals on the way.
* `Progress.Merges` — what the contraction of a primitive does to the state of a reduction.
* `Progress.step_cases` — a step finds nothing and changes nothing, or it contracts a primitive. It
  never fails.
* `Progress.Advances` — a contraction, or something that is only said.
-/

namespace Structuring

open Relation

def Event.graph? : Event → Option FlowGraph
  | .before g _ => some g
  | .after g _ => some g
  | _ => none

/-- A contraction that is about to be made. -/
def Event.before? : Event → Option (FlowGraph × Primitive Value)
  | .before g p => some (g, p)
  | _ => none

/-- An interval that is reported to become a node as it is: the labels of its header and its
members. -/
def Event.collapsed? : Event → Option (Value × List Value)
  | .report (.collapsed header labels) => some (header, labels)
  | _ => none

namespace FlowGraph

variable {g h : FlowGraph} {root : NodeId} {t : DominatorTree NodeId} {p : Primitive NodeId}
  {within : Option (List NodeId)}

theorem holds_of_findMatch (h : g.findMatch t within = some p) :
    isWithin within p = true ∧ p.holds g t = true := by
  unfold findMatch at h
  obtain ⟨n, -, hn⟩ := List.exists_of_findSome?_eq_some h
  obtain ⟨k, -, hk⟩ := List.exists_of_findSome?_eq_some hn
  have := List.find?_some hk
  rwa [Bool.and_eq_true] at this

/-- A primitive that is found has a template that stands in the graph. -/
theorem at_of_findMatch (hg : g.WellFormed) (hroot : g.Rooted root)
    (ht : g.dominatorTree .semidominators = .ok t) (h : g.findMatch t within = some p) :
    ∃ T ∈ p.templates, T.At (g.outline root) := by
  obtain ⟨t', ht', htells⟩ :=
    dominatorTree_spec hg.closed hroot.1 (hg.entry_mem root hroot.1)
  obtain rfl : t' = t := Except.ok.inj (ht'.symm.trans ht)
  exact (holds_iff hg hroot htells).1 (holds_of_findMatch h).2

end FlowGraph

theorem DatedTree.make_eq {g : FlowGraph} {t : DominatorTree NodeId}
    (ht : g.dominatorTree .semidominators = .ok t) :
    make g .semidominators = .ok ⟨g.generation, t⟩ := by
  rw [make, ht]
  rfl

namespace Progress

def graphs (s : Progress) : List FlowGraph := s.events.filterMap Event.graph?

def contractions (s : Progress) : List (FlowGraph × Primitive Value) :=
  s.events.filterMap Event.before?

def collapses (s : Progress) : List (Value × List Value) := s.events.filterMap Event.collapsed?

/-- All graphs that a reduction has gone through. -/
def states (s : Progress) : List FlowGraph := s.graphs ++ s.levels

/-- Nothing but what is said differs. -/
structure Quiet (s s' : Progress) : Prop where
  earlier : s'.earlier = s.earlier
  graph : s'.graph = s.graph
  located : s'.located = s.located
  graphs : s'.graphs = s.graphs
  contractions : s'.contractions = s.contractions
  collapses : s'.collapses = s.collapses

/-- The primitive `p` is found and contracted to the node `n`. -/
structure Merges (s : Progress) (within : Option (List NodeId)) (p : Primitive NodeId) (n : NodeId)
    (s' : Progress) : Prop where
  found : ∃ t, s.graph.dominatorTree .semidominators = .ok t ∧ s.graph.findMatch t within = some p
  merge : ∃ name, s.graph.merge p.region name = (.ok n, s'.graph)
  earlier : s'.earlier = s.earlier
  located : s'.located = s.located ++ [s.graph.located p]
  graphs : s'.graphs = s.graphs ++ [s.graph, s'.graph]
  contractions : s'.contractions = s.contractions ++ [(s.graph, s.graph.located p)]
  collapses : s'.collapses = s.collapses

variable {s s' s'' : Progress} {root n : NodeId} {within : Option (List NodeId)}
  {p : Primitive NodeId}

@[simp] theorem emit_graph (s : Progress) (es : List Event) : (s.emit es).graph = s.graph := rfl

@[simp] theorem emit_nil (s : Progress) : s.emit [] = s := by simp [emit]

@[simp] theorem emit_nextName (s : Progress) (es : List Event) (p : Primitive NodeId) :
    (s.emit es).nextName p = s.nextName p := rfl

/-- A tree that was just made is not stale. -/
theorem locate_emit (s : Progress) (es : List Event) (t : DominatorTree NodeId)
    (within : Option (List NodeId)) : (s.emit es).locate ⟨s.graph.generation, t⟩ within =
      .ok (s.graph.findMatch t within) := by
  rw [locate, emit_graph, DatedTree.check, if_pos rfl]
  rfl

theorem Quiet.trans (h : Quiet s s') (h' : Quiet s' s'') : Quiet s s'' :=
  ⟨h'.earlier.trans h.earlier, h'.graph.trans h.graph, h'.located.trans h.located,
    h'.graphs.trans h.graphs, h'.contractions.trans h.contractions, h'.collapses.trans h.collapses⟩

theorem quiet_emit (s : Progress) (ms : List Notice) : Quiet s (s.emit (ms.map .notice)) := by
  have hnone : ∀ {β : Type} (f : Event → Option β), (∀ m, f (.notice m) = none) →
      (s.emit (ms.map .notice)).events.filterMap f = s.events.filterMap f := by
    intro β f hf
    have hms : ms.filterMap (f ∘ .notice) = [] := List.filterMap_eq_nil_iff.2 fun m _ => hf m
    rw [emit, List.filterMap_append, List.filterMap_map, hms, List.append_nil]
  exact ⟨rfl, rfl, rfl, hnone _ fun _ => rfl, hnone _ fun _ => rfl, hnone _ fun _ => rfl⟩

theorem quiet_say (s : Progress) (m : Notice) : Quiet s (s.say m) := quiet_emit s [m]

theorem step_cases (hg : s.graph.WellFormed) (hroot : s.graph.Rooted root) (m : Method)
    (within : Option (List NodeId)) :
    (∃ t s', s.graph.dominatorTree .semidominators = .ok t ∧ s.graph.findMatch t within = none ∧
      s.step m within = .none s' ∧ Quiet s s') ∨
    ∃ p n s', s.step m within = .merged n s' ∧ Merges s within p n s' := by
  obtain ⟨t, ht, htells⟩ :=
    FlowGraph.dominatorTree_spec hg.closed hroot.1 (hg.entry_mem root hroot.1)
  have hmake := DatedTree.make_eq ht
  have hlocate := s.locate_emit (treeNotices s.graph t) t within
  cases hfind : s.graph.findMatch t within with
  | none =>
    refine .inl ⟨t, s.emit (treeNotices s.graph t), ht, hfind, ?_, ?_⟩
    · simp only [step, hmake, hlocate, hfind]
    · exact quiet_emit s [.searching s.graph.size, .dominators s.graph.nameText t.idom.size]
  | some p =>
    obtain ⟨T, hT, hat⟩ := FlowGraph.at_of_findMatch hg hroot ht hfind
    obtain ⟨n, h, hrun, -⟩ := FlowGraph.merge_isQuotient hg hroot hT hat (some (s.nextName p))
    refine .inr ⟨p, n, _,
      by simp only [step, hmake, hlocate, hfind, emit_graph, emit_nextName, hrun]; rfl, ?_⟩
    let q := s.graph.located p
    have hread : ∀ {β : Type} (f : Event → Option β) (bs : List Block) (b : Block),
        (∀ m, f (.notice m) = none) → f (.report (.located q)) = none →
        List.filterMap f (((s.emit (treeNotices s.graph t)).emit [.before s.graph q]).events ++
          [.notice (.merged bs b), .after h q, .notice (.located m q), .report (.located q)]) =
        s.events.filterMap f ++ [.before s.graph q, .after h q].filterMap f := by
      intro β f bs b hnotice hreport
      simp [emit, treeNotices, List.filterMap_cons, hnotice, hreport]
    exact ⟨⟨t, ht, hfind⟩, ⟨_, hrun⟩, rfl, rfl, hread _ _ _ (fun _ => rfl) rfl,
      hread _ _ _ (fun _ => rfl) rfl, (hread _ _ _ (fun _ => rfl) rfl).trans (List.append_nil _)⟩

theorem Merges.spec (h : Merges s within p n s') (hg : s.graph.WellFormed)
    (hroot : s.graph.Rooted root) :
    (∃ T ∈ p.templates, T.At (s.graph.outline root)) ∧ Contracts s.graph p.region n s'.graph ∧
      s.graph.IsQuotient root s'.graph (p.region.absorb n) ∧
      s.graph.SameLinks s'.graph (p.region.absorb n) := by
  obtain ⟨t, ht, hfind⟩ := h.found
  obtain ⟨T, hT, hat⟩ := FlowGraph.at_of_findMatch hg hroot ht hfind
  obtain ⟨name, hrun⟩ := h.merge
  obtain ⟨n', g', hrun', hc, hq, hlinks⟩ := FlowGraph.merge_isQuotient hg hroot hT hat name
  obtain ⟨hn, hg'⟩ := Prod.mk.inj (hrun.symm.trans hrun')
  cases hn
  cases hg'
  exact ⟨⟨T, hT, hat⟩, hc, hq, hlinks⟩

theorem Merges.size_lt (h : Merges s within p n s') (hg : s.graph.WellFormed)
    (hroot : s.graph.Rooted root) : s'.graph.size < s.graph.size := by
  obtain ⟨⟨T, hT, hat⟩, hc, -⟩ := h.spec hg hroot
  have hs := Primitive.sound hT hat.nodup
  obtain ⟨hmem, -⟩ := Primitive.region_of_template hT
  obtain ⟨v, hv, hin⟩ := hs.leads
  have hsub : [v, T.entry].Subperm p.region.members := by
    refine (List.subperm_of_subset (by simpa using hv) ?_)
    intro u hu
    rw [hmem]
    rcases List.mem_cons.1 hu with rfl | hu
    · exact (hs.inner_mem _ hin).2.1
    · rw [List.mem_singleton.1 hu]
      exact hs.entry_mem
  have hlen := hsub.length_le
  have hsize := hc.size
  simp only [List.length_cons, List.length_nil] at hlen
  omega

/-- Something is said, or a primitive is contracted. -/
inductive Advances : Progress → Progress → Prop where
  | quiet {s s' : Progress} : Quiet s s' → Advances s s'
  | merge {s s' : Progress} {within : Option (List NodeId)} {p : Primitive NodeId} {n : NodeId} :
      Merges s within p n s' → Advances s s'

end Progress

end Structuring
