import Mathlib
import Structuring.Proofs.Graph.Derived
import Structuring.Proofs.Reduction.Step
import Structuring.Reduction.Hammock
import Structuring.Reduction.Levels

/-!
# Runs of a reduction

* `FlowGraph.Validated` — what a check of a graph establishes. All graphs of a run have it.
* `Progress.Derives` — a change of level, with the intervals that it reports.
* `Progress.Descends` — a contraction, something that is only said, or a change of level.
* `Progress.Descends.invariant` — what each such step keeps is kept by a run.
* `Progress.byHammocks_ends`, `byLevels_ends` — both reductions go by such steps, and how they end.
* `Absorbs` — the graphs that contractions and changes of level lead to, and what each of their nodes
  has absorbed.
* `FlowGraph.reductions_go_through_quotients` — all graphs of both reductions are quotients of the
  graph at the start.
-/

namespace Structuring

open Relation

/-- A well-formed graph all of whose nodes can be reached from its entry. -/
def FlowGraph.Validated (g : FlowGraph) : Prop := g.WellFormed ∧ ∃ root, g.Rooted root

theorem FlowGraph.Validated.size_pos {g : FlowGraph} (h : g.Validated) : 0 < g.size := by
  obtain ⟨hg, root, hroot⟩ := h
  rw [← Digraph.length_ids]
  exact List.length_pos_of_mem (hg.entry_mem root hroot.1)

def FlowGraph.labelled (g : FlowGraph) (i : Interval) : Value × List Value :=
  (g.label i.header, i.members.map g.label)

/-- What is found first in the whole graph. -/
def FlowGraph.Finds (g : FlowGraph) (p? : Option (Primitive NodeId)) : Prop :=
  ∃ t, g.dominatorTree .semidominators = .ok t ∧ g.findMatch t none = p?

namespace Progress

variable {s s' s'' : Progress} {root n : NodeId} {within : Option (List NodeId)}
  {p : Primitive NodeId}

theorem Merges.validated (h : Merges s within p n s') (hv : s.graph.Validated) :
    s'.graph.Validated := by
  obtain ⟨hg, root, hroot⟩ := hv
  obtain ⟨-, hc, hq, -⟩ := h.spec hg hroot
  exact ⟨hc.wellFormed, _, hq.rooted hroot⟩

namespace Advances

theorem validated (h : Advances s s') (hv : s.graph.Validated) : s'.graph.Validated := by
  cases h with
  | quiet hq => rwa [hq.graph]
  | merge hm => exact hm.validated hv

theorem size_le (h : Advances s s') (hv : s.graph.Validated) :
    s'.graph = s.graph ∨ s'.graph.size < s.graph.size := by
  cases h with
  | quiet hq => exact .inl hq.graph
  | merge hm =>
    obtain ⟨hg, root, hroot⟩ := hv
    exact .inr (hm.size_lt hg hroot)

theorem earlier_eq (h : Advances s s') : s'.earlier = s.earlier := by
  cases h with
  | quiet hq => exact hq.earlier
  | merge hm => exact hm.earlier

/-- A run of contractions keeps the graph valid and does not make it larger. -/
theorem run (h : ReflTransGen Advances s s') (hv : s.graph.Validated) :
    s'.graph.Validated ∧ (s'.graph = s.graph ∨ s'.graph.size < s.graph.size) := by
  induction h with
  | refl => exact ⟨hv, .inl rfl⟩
  | tail _ hstep ih =>
    refine ⟨hstep.validated ih.1, ?_⟩
    rcases hstep.size_le ih.1 with heq | hlt
    · rw [heq]
      exact ih.2
    · rcases ih.2 with heq | hlt'
      · exact .inr (heq ▸ hlt)
      · exact .inr (hlt.trans hlt')

theorem run_earlier (h : ReflTransGen Advances s s') : s'.earlier = s.earlier := by
  induction h with
  | refl => rfl
  | tail _ hstep ih => exact hstep.earlier_eq.trans ih

end Advances

/-- A step of a valid graph finds nothing, or it contracts a primitive. -/
theorem step_valid (hv : s.graph.Validated) (m : Method) (within : Option (List NodeId)) :
    (∃ t s', s.graph.dominatorTree .semidominators = .ok t ∧ s.graph.findMatch t within = none ∧
      s.step m within = .none s' ∧ Quiet s s') ∨
    ∃ p n s', s.step m within = .merged n s' ∧ Merges s within p n s' ∧
      s'.graph.size < s.graph.size := by
  obtain ⟨hg, root, hroot⟩ := hv
  rcases step_cases hg hroot m within with h | ⟨p, n, s', hrun, hm⟩
  · exact .inl h
  · exact .inr ⟨p, n, s', hrun, hm, hm.size_lt hg hroot⟩

theorem step_none {t : DominatorTree NodeId} (hv : s.graph.Validated)
    (ht : s.graph.dominatorTree .semidominators = .ok t)
    (hnone : s.graph.findMatch t within = none) (m : Method) :
    ∃ s', s.step m within = .none s' ∧ Quiet s s' := by
  rcases step_valid hv m within with ⟨-, s', -, -, hrun, hq⟩ | ⟨p, n, s', -, hm, -⟩
  · exact ⟨s', hrun, hq⟩
  · obtain ⟨t', ht', hfind⟩ := hm.found
    obtain rfl : t = t' := Except.ok.inj (ht.symm.trans ht')
    rw [hnone] at hfind
    cases hfind

theorem step_merged {t : DominatorTree NodeId} (hv : s.graph.Validated)
    (ht : s.graph.dominatorTree .semidominators = .ok t)
    (hfind : s.graph.findMatch t within = some p) (m : Method) :
    ∃ n s', s.step m within = .merged n s' ∧ Merges s within p n s' ∧
      s'.graph.size < s.graph.size := by
  rcases step_valid hv m within with ⟨t', s', ht', hnone, -⟩ | ⟨p', n, s', hrun, hm, hlt⟩
  · obtain rfl : t = t' := Except.ok.inj (ht.symm.trans ht')
    rw [hnone] at hfind
    cases hfind
  · obtain ⟨t', ht', hfind'⟩ := hm.found
    obtain rfl : t = t' := Except.ok.inj (ht.symm.trans ht')
    obtain rfl : p = p' := Option.some.inj (hfind.symm.trans hfind')
    exact ⟨n, s', hrun, hm, hlt⟩

/-! ## Reduction by hammocks -/

/-- No primitive is found anywhere in the graph. -/
def Exhausted (s : Progress) : Prop := s.graph.Finds none

/-- The reduction by hammocks goes by contractions. It ends with a single node, or it is stuck with
more than one where no primitive is found. -/
theorem byHammocks_ends (hv : s.graph.Validated) :
    ReflTransGen Advances s s.byHammocks.progress ∧
      (s.byHammocks.failure = none ∧ s.byHammocks.progress.graph.size ≤ 1 ∨
        ∃ s' : Progress, s.byHammocks = s'.stuck .noPrimitive ∧ 1 < s'.graph.size ∧ s'.Exhausted) := by
  induction hn : s.graph.size using Nat.strong_induction_on generalizing s with
  | _ n ih =>
    subst hn
    unfold byHammocks
    split
    · next hsize => exact ⟨.refl, .inl ⟨rfl, hsize⟩⟩
    · next hsize =>
      rcases step_valid hv .hammock none with ⟨t, s', ht, hnone, hrun, hq⟩ |
        ⟨p, n, s', hrun, hm, hlt⟩
      · simp only [hrun]
        refine ⟨.single (.quiet hq), .inr ⟨s', rfl, ?_, t, ?_, ?_⟩⟩
        · rw [hq.graph]
          omega
        · rwa [hq.graph]
        · rwa [hq.graph]
      · simp only [hrun, hlt, dif_pos]
        obtain ⟨hruns, hends⟩ := ih _ hlt (hm.validated hv) rfl
        exact ⟨.head (.merge hm) hruns, hends⟩

/-- A primitive that is found is contracted, and the reduction goes on from there. -/
theorem byHammocks_merges (hv : s.graph.Validated) (hsize : 1 < s.graph.size)
    (h : s.graph.Finds (some p)) :
    ∃ n s', Merges s none p n s' ∧ s.byHammocks = s'.byHammocks := by
  obtain ⟨t, ht, hfind⟩ := h
  obtain ⟨n, s', hrun, hm, hlt⟩ := step_merged hv ht hfind .hammock
  refine ⟨n, s', hm, ?_⟩
  rw [byHammocks, if_neg (Nat.not_le.2 hsize)]
  simp only [hrun, hlt, dif_pos]

theorem byHammocks_of_found (hv : s.graph.Validated) (hsize : 1 < s.graph.size)
    (h : s.graph.Finds (some p)) :
    ∃ (name : Option String) (s' : Progress), s'.graph = (s.graph.merge p.region name).2 ∧
      s'.graph.size + p.region.members.length = s.graph.size + 1 ∧
        s'.contractions = s.contractions ++ [(s.graph, s.graph.located p)] ∧
          s'.graph.Validated ∧ s.byHammocks = s'.byHammocks := by
  obtain ⟨n, s', hm, hrun⟩ := byHammocks_merges hv hsize h
  obtain ⟨root, hroot⟩ := hv.2
  obtain ⟨-, hc, -⟩ := hm.spec hv.1 hroot
  obtain ⟨name, hmerge⟩ := hm.merge
  exact ⟨name, s', by rw [hmerge], hc.size, hm.contractions, hm.validated hv, hrun⟩

/-- Where no primitive is found the reduction stops. -/
theorem Exhausted.byHammocks (h : s.Exhausted) (hv : s.graph.Validated) (hsize : 1 < s.graph.size) :
    s.byHammocks.progress.graph = s.graph ∧ ∃ e, s.byHammocks.failure = some (.incomplete e) := by
  obtain ⟨t, ht, hnone⟩ := h
  obtain ⟨s', hrun, hq⟩ := step_none hv ht hnone .hammock
  rw [Progress.byHammocks, if_neg (Nat.not_le.2 hsize)]
  simp only [hrun]
  exact ⟨hq.graph, _, rfl⟩

/-! ## Reduction within intervals -/

theorem within_runs (hv : s.graph.Validated) (members : List NodeId) :
    (s.within members).failure = none ∧ ReflTransGen Advances s (s.within members).progress := by
  induction hn : s.graph.size using Nat.strong_induction_on generalizing s members with
  | _ n ih =>
    subst hn
    unfold Progress.within
    split
    · exact ⟨rfl, .refl⟩
    · rcases step_valid hv .interval (some members) with ⟨t, s', -, -, hrun, hq⟩ |
        ⟨p, n, s', hrun, hm, hlt⟩
      · simp only [hrun]
        exact ⟨rfl, .single (.quiet hq)⟩
      · simp only [hrun, hlt, dif_pos]
        obtain ⟨hok, hruns⟩ := ih _ hlt (hm.validated hv) _ rfl
        exact ⟨hok, .head (.merge hm) hruns⟩

theorem withinEach_runs (hv : s.graph.Validated) (is : List Interval) :
    (s.withinEach is).failure = none ∧ ReflTransGen Advances s (s.withinEach is).progress := by
  induction is generalizing s with
  | nil => exact ⟨rfl, .refl⟩
  | cons i is ih =>
    obtain ⟨hok, hruns⟩ := within_runs hv i.members
    obtain ⟨hok', hruns'⟩ := ih (Advances.run hruns hv).1
    simp only [withinEach, hok]
    exact ⟨hok', hruns.trans hruns'⟩

theorem partition_eq (hg : s.graph.WellFormed) (hroot : s.graph.Rooted root) :
    ∃ is t, s.partition = .ok (is, t) ∧ s.graph.intervals = some is ∧
      s.graph.Partitions root [] is ∧ Quiet s t := by
  obtain ⟨is, his, hpart⟩ := FlowGraph.intervals_partitions hg hroot.1
  exact ⟨is, s.say (.partitioned s.graph.size is.length), by simp only [partition, his], his, hpart,
    quiet_say s _⟩

theorem pass_runs (hv : s.graph.Validated) :
    s.pass.failure = none ∧ ReflTransGen Advances s s.pass.progress := by
  obtain ⟨hg, root, hroot⟩ := hv
  obtain ⟨is, t, hrun, -, -, hq⟩ := partition_eq hg hroot
  obtain ⟨hok, hruns⟩ := withinEach_runs (s := t) (hq.graph ▸ ⟨hg, root, hroot⟩) is
  simp only [pass, hrun]
  exact ⟨hok, .head (.quiet hq) hruns⟩

theorem passes_runs (hv : s.graph.Validated) :
    s.passes.failure = none ∧ ReflTransGen Advances s s.passes.progress := by
  induction hn : s.graph.size using Nat.strong_induction_on generalizing s with
  | _ n ih =>
    subst hn
    unfold passes
    split
    · exact ⟨rfl, .refl⟩
    · obtain ⟨hok, hruns⟩ := pass_runs hv
      simp only [hok]
      split
      · next hlt =>
        obtain ⟨hok', hruns'⟩ := ih _ hlt (Advances.run hruns hv).1 rfl
        exact ⟨hok', hruns.trans hruns'⟩
      · exact ⟨hok, hruns⟩

/-! ## Reduction by levels -/

/-- The intervals `is` become the nodes of the derived graph, and those with more than one node are
reported. -/
structure Derives (s : Progress) (is : List Interval) (s' : Progress) : Prop where
  intervals : s.graph.intervals = some is
  derived : s.graph.derived is s.graph.tag = .ok s'.graph
  earlier : s'.earlier = s.earlier ++ [s.graph]
  located : s'.located = s.located
  graphs : s'.graphs = s.graphs
  contractions : s'.contractions = s.contractions
  collapses : s'.collapses = s.collapses ++ (is.filter fun i => 1 < i.size).map s.graph.labelled

theorem Derives.spec {is : List Interval} (h : Derives s is s') (hg : s.graph.WellFormed)
    (hroot : s.graph.Rooted root) :
    FlowGraph.Partitions s.graph root [] is ∧ FlowGraph.IsDerived s.graph is s'.graph := by
  obtain ⟨is', his', hpart⟩ := FlowGraph.intervals_partitions hg hroot.1
  obtain rfl := Option.some.inj (h.intervals.symm.trans his')
  obtain ⟨d, hd, hderived⟩ := FlowGraph.derived_isDerived hg hroot hpart s.graph.tag
  obtain rfl := Except.ok.inj (h.derived.symm.trans hd)
  exact ⟨hpart, hderived⟩

/-- An advance, or the change to the derived graph. -/
inductive Descends : Progress → Progress → Prop where
  | advance {s s' : Progress} : Advances s s' → Descends s s'
  | derive {s s' : Progress} {is : List Interval} : Derives s is s' → Descends s s'

theorem Descends.run_of_advances (h : ReflTransGen Advances s s') : ReflTransGen Descends s s' :=
  ReflTransGen.mono (fun _ _ => .advance) _ _ h

theorem Descends.validated (h : Descends s s') (hv : s.graph.Validated) : s'.graph.Validated := by
  cases h with
  | advance ha => exact ha.validated hv
  | derive hd =>
    obtain ⟨hg, root, hroot⟩ := hv
    obtain ⟨hpart, hderived⟩ := hd.spec hg hroot
    exact ⟨hderived.wellFormed, _, (hderived.isQuotient hg hroot hpart).rooted hroot⟩

theorem Descends.invariant {P : Progress → Prop}
    (hkeeps : ∀ {s s' : Progress}, s.graph.Validated → Descends s s' → P s → P s')
    (h : ReflTransGen Descends s s') (hv : s.graph.Validated) (hs : P s) :
    s'.graph.Validated ∧ P s' := by
  induction h with
  | refl => exact ⟨hv, hs⟩
  | tail _ hd ih => exact ⟨hd.validated ih.1, hkeeps ih.1 hd ih.2⟩

/-- A graph that the reduction by levels cannot make smaller: it is that of the start or a derived
one, and each of its nodes is an interval. -/
structure Limit (s : Progress) (g : FlowGraph) : Prop where
  large : 1 < s.graph.size
  source : s.graph = g ∨ ∀ n, ¬ s.graph.Leads n n
  isLimit : s.graph.IsLimit

/-- What is said and reported about intervals that become nodes is neither a contraction nor a graph. -/
theorem filterMap_collapseAll {β : Type} {f : Event → Option β} (hf : ∀ m, f (.notice m) = none)
    (g : FlowGraph) (is : List Interval) :
    (collapseAll g is).filterMap f = (is.filter fun i => 1 < i.size).filterMap
      fun i => f (.report (.collapsed (g.label i.header) (i.members.map g.label))) := by
  rw [collapseAll, List.filterMap_flatMap, List.filterMap_eq_flatMap_toList]
  refine List.flatMap_congr fun i _ => ?_
  rw [collapse, List.filterMap_cons_none (hf _), List.filterMap_cons, List.filterMap_nil]
  cases f (.report (.collapsed (g.label i.header) (i.members.map g.label))) <;> rfl

theorem derives_collapseAll {is : List Interval} {d : FlowGraph} (m : Notice)
    (his : s.graph.intervals = some is) (hd : s.graph.derived is s.graph.tag = .ok d) :
    Derives s is { (s.emit (collapseAll s.graph is)).say m with
      earlier := s.earlier ++ [s.graph], graph := d } := by
  have hnone : ∀ {β : Type} (f : Event → Option β), (∀ m, f (.notice m) = none) →
      ((s.emit (collapseAll s.graph is)).say m).events.filterMap f = s.events.filterMap f ++
        (is.filter fun i => 1 < i.size).filterMap
          fun i => f (.report (.collapsed (s.graph.label i.header) (i.members.map s.graph.label))) := by
    intro β f hf
    rw [say, emit, emit, List.filterMap_append, List.filterMap_append, filterMap_collapseAll hf,
      List.filterMap_cons_none (hf m), List.filterMap_nil, List.append_nil]
  refine ⟨his, hd, rfl, rfl, ?_, ?_, ?_⟩
  · refine (hnone _ fun _ => rfl).trans ?_
    simp [graphs, Event.graph?]
  · refine (hnone _ fun _ => rfl).trans ?_
    simp [contractions, Event.before?]
  · refine (hnone _ fun _ => rfl).trans ?_
    simp [collapses, Event.collapsed?, List.filterMap_eq_map', FlowGraph.labelled]

theorem collapseAll_eq_nil {is : List Interval} (hpart : FlowGraph.Partitions s.graph root [] is)
    (hsize : is.length = s.graph.size) : collapseAll s.graph is = [] := by
  have hnone : (is.filter fun i => decide (1 < i.size)) = [] := by
    refine List.filter_eq_nil_iff.2 fun i hi => ?_
    obtain ⟨before, hgrows⟩ := hpart.grows i hi
    have hsub : i.members ⊆ [i.header] := fun v hv =>
      List.mem_singleton.2 (hpart.eq_header hsize hi hv)
    rw [decide_eq_true_eq, Nat.not_lt]
    exact (hgrows.nodup.subperm hsub).length_le
  rw [collapseAll, hnone, List.flatMap_nil]

/-- The reduction by levels stops with a single node, or is stuck after the passes of a level, or goes on
with a smaller derived graph. -/
theorem byLevels_cases (hv : s.graph.Validated) :
    (∃ t, s.byLevels = t.done ∧ t.graph.size ≤ 1 ∧ ReflTransGen Advances s t) ∨
    ∃ u, 1 < u.graph.size ∧ Quiet s.passes.progress u ∧
      (s.byLevels = u.stuck .irreducible ∧ u.graph = s.graph ∧ u.graph.IsLimit ∨
        ∃ is s', Derives u is s' ∧ s'.graph.size < s.graph.size ∧ (∀ n, ¬ s'.graph.Leads n n) ∧
          s.byLevels = s'.byLevels) := by
  generalize hr : s.byLevels = r
  unfold byLevels at hr
  split at hr
  · next hsize => exact .inl ⟨s, hr.symm, hsize, .refl⟩
  next hsize =>
  obtain ⟨hok, hruns⟩ := passes_runs hv
  simp only [hok] at hr
  generalize s.passes.progress = t at hr hruns ⊢
  obtain ⟨hvt, hsize'⟩ := Advances.run hruns hv
  split at hr
  · next hone => exact .inl ⟨t, hr.symm, hone, hruns⟩
  next hmore =>
  obtain ⟨hg, root, hroot⟩ := hvt
  obtain ⟨is, u, hrun, his, hpart, hq⟩ := partition_eq hg hroot
  simp only [hrun] at hr
  rw [← hq.graph] at hg hroot his hpart hmore hsize'
  obtain ⟨d, hd, hwf, hdsize, hquot, hloops⟩ :=
    FlowGraph.derived_spec hg hroot hpart u.graph.tag
  simp only [emit_graph, hd] at hr
  split at hr
  · next hlt =>
    exact .inr ⟨u, Nat.lt_of_not_le hmore, hq,
      .inr ⟨is, _, derives_collapseAll _ his hd, hlt, hloops, hr.symm⟩⟩
  · next hge =>
    -- the derived graph has no more nodes than the current one, which has no more than at the start
    have hle := hpart.length_le
    have hgraph : u.graph = s.graph := hsize'.resolve_right (by omega)
    have hsame : u.graph.size = s.graph.size := by rw [hgraph]
    have hfull : is.length = u.graph.size := by omega
    rw [collapseAll_eq_nil hpart hfull, emit_nil] at hr
    exact .inr ⟨u.say (.derived (u.earlier.length + 1) u.graph.size d.size), Nat.lt_of_not_le hmore,
      hq.trans (quiet_say u _), .inl ⟨hr.symm, hgraph, is, his, hfull⟩⟩

/-- The reduction by levels goes by contractions and changes of level. It ends with a single node, or
it is stuck at a limit. -/
theorem byLevels_ends (hv : s.graph.Validated) :
    ReflTransGen Descends s s.byLevels.progress ∧
      (s.byLevels.failure = none ∧ s.byLevels.progress.graph.size ≤ 1 ∨
        ∃ s' : Progress, s.byLevels = s'.stuck .irreducible ∧ s'.Limit s.graph) := by
  induction hn : s.graph.size using Nat.strong_induction_on generalizing s with
  | _ n ih =>
    subst hn
    rcases byLevels_cases hv with ⟨t, heq, hone, hruns⟩ | ⟨u, hmore, hq, hnext⟩
    · rw [heq]
      exact ⟨Descends.run_of_advances hruns, .inl ⟨rfl, hone⟩⟩
    have hruns : ReflTransGen Descends s u :=
      (Descends.run_of_advances (passes_runs hv).2).tail (.advance (.quiet hq))
    rcases hnext with ⟨heq, hgraph, hlimit⟩ | ⟨is, s', hderive, hlt, hloops, heq⟩
    · rw [heq]
      exact ⟨hruns, .inr ⟨u, rfl, hmore, .inl hgraph, hlimit⟩⟩
    · have hruns' := hruns.tail (.derive hderive)
      obtain ⟨hruns'', hends⟩ := ih _ hlt
        (Descends.invariant (P := fun _ => True) (fun _ _ _ => trivial) hruns' hv trivial).1 rfl
      rw [heq]
      refine ⟨hruns'.trans hruns'', hends.imp_right ?_⟩
      rintro ⟨v, hv, hlimit⟩
      refine ⟨v, hv, hlimit.large, .inr ?_, hlimit.isLimit⟩
      rcases hlimit.source with hsource | hsource
      · rw [hsource]
        exact hloops
      · exact hsource

end Progress

/-! ## What is absorbed -/

/-- The graphs that contractions of primitives that are found, and changes of level, lead to. A node
`v` at the start was absorbed into `ρ v`; the number counts the changes of level. -/
inductive Absorbs (g : FlowGraph) : Nat → FlowGraph → (NodeId → NodeId) → Prop where
  | start : Absorbs g 0 g id
  | merge {k : Nat} {h h' : FlowGraph} {ρ : NodeId → NodeId} {t : DominatorTree NodeId}
      {within : Option (List NodeId)} {p : Primitive NodeId} {name : Option String} {n : NodeId} :
      Absorbs g k h ρ → h.dominatorTree .semidominators = .ok t → h.findMatch t within = some p →
      h.merge p.region name = (.ok n, h') → Absorbs g k h' (p.region.absorb n ∘ ρ)
  | derive {k : Nat} {h d : FlowGraph} {ρ : NodeId → NodeId} {is : List Interval} :
      Absorbs g k h ρ → h.intervals = some is → h.derived is h.tag = .ok d →
      Absorbs g (k + 1) d (FlowGraph.collapse is d.ids ∘ ρ)

namespace Absorbs

open FlowGraph

variable {g h : FlowGraph} {root : NodeId} {k : Nat} {ρ : NodeId → NodeId}

/-- What is absorbed forms the regions of a quotient; without a change of level the links between
them are kept. -/
theorem spec (hg : g.WellFormed) (hroot : g.Rooted root) (ha : Absorbs g k h ρ) :
    h.WellFormed ∧ IsQuotient g root h ρ ∧ (k = 0 → SameLinks g h ρ) := by
  induction ha with
  | start => exact ⟨hg, .refl hroot, fun _ => .refl g⟩
  | merge _ ht hfind hrun ih =>
    obtain ⟨hwf, hq, hlinks⟩ := ih
    have hroot' := hq.rooted hroot
    obtain ⟨T, hT, hat⟩ := at_of_findMatch hwf hroot' ht hfind
    obtain ⟨n, h', hrun', hc, hq', hlinks'⟩ := merge_isQuotient hwf hroot' hT hat _
    obtain ⟨hn, rfl⟩ := Prod.mk.inj (hrun'.symm.trans hrun)
    cases hn
    exact ⟨hc.wellFormed, hq.trans hg hroot hq', fun hk => (hlinks hk).trans hlinks'⟩
  | derive _ his hd ih =>
    obtain ⟨hwf, hq, -⟩ := ih
    have hroot' := hq.rooted hroot
    obtain ⟨is', his', hpart⟩ := intervals_partitions hwf hroot'.1
    obtain rfl := Option.some.inj (his'.symm.trans his)
    obtain ⟨d, hd', hwf', -, hq', -⟩ := derived_spec hwf hroot' hpart _
    obtain rfl := Except.ok.inj (hd'.symm.trans hd)
    exact ⟨hwf', hq.trans hg hroot hq', fun hk => by cases hk⟩

end Absorbs

namespace Progress

variable {s s' : Progress} {g : FlowGraph}

/-- All graphs that a reduction has gone through come from `g`, by not more changes of level than there
were. -/
structure Tracks (g : FlowGraph) (s : Progress) : Prop where
  current : ∃ ρ, Absorbs g s.earlier.length s.graph ρ
  states : ∀ h ∈ s.states, ∃ k ρ, k ≤ s.earlier.length ∧ Absorbs g k h ρ

namespace Tracks

theorem start (g : FlowGraph) : Tracks g (start g) := by
  refine ⟨⟨id, .start⟩, fun h hh => ?_⟩
  have : h = g := by
    simpa [Progress.states, graphs, levels, Progress.start] using hh
  exact ⟨0, id, Nat.le_refl 0, this ▸ .start⟩

theorem quiet (h : Tracks g s) (hq : Quiet s s') : Tracks g s' := by
  obtain ⟨hcurrent, hstates⟩ := h
  constructor
  · rwa [hq.earlier, hq.graph]
  · simpa only [Progress.states, levels, hq.earlier, hq.graph, hq.graphs] using hstates

theorem step (h : Tracks g s) (hd : Descends s s') : Tracks g s' := by
  cases hd with
  | advance ha =>
    cases ha with
    | quiet hq => exact h.quiet hq
    | @merge within p n hm =>
      obtain ⟨ρ, hρ⟩ := h.current
      obtain ⟨t, ht, hfind⟩ := hm.found
      obtain ⟨name, hrun⟩ := hm.merge
      have hnew : Absorbs g s'.earlier.length s'.graph (p.region.absorb n ∘ ρ) := by
        rw [hm.earlier]
        exact .merge hρ ht hfind hrun
      refine ⟨⟨_, hnew⟩, fun x hx => ?_⟩
      simp only [Progress.states, levels, hm.graphs, hm.earlier, List.mem_append, List.mem_cons,
        List.not_mem_nil, or_false] at hx
      rcases hx with (hx | rfl | rfl) | hx | rfl
      · exact hm.earlier ▸ h.states x (by simp [Progress.states, hx])
      · exact ⟨_, ρ, Nat.le_of_eq (by rw [hm.earlier]), hρ⟩
      · exact ⟨_, _, Nat.le_refl _, hnew⟩
      · exact hm.earlier ▸ h.states x (by simp [Progress.states, levels, hx])
      · exact ⟨_, _, Nat.le_refl _, hnew⟩
  | derive hd =>
    obtain ⟨ρ, hρ⟩ := h.current
    have hlen : s'.earlier.length = s.earlier.length + 1 := by simp [hd.earlier]
    have hnew := hρ.derive hd.intervals hd.derived
    refine ⟨⟨_, hlen ▸ hnew⟩, fun x hx => ?_⟩
    simp only [Progress.states, levels, hd.graphs, hd.earlier, List.mem_append,
      List.mem_singleton] at hx
    have hold : ∀ x ∈ s.states, ∃ k ρ, k ≤ s'.earlier.length ∧ Absorbs g k x ρ := fun x hx => by
      obtain ⟨k, σ, hk, hσ⟩ := h.states x hx
      exact ⟨k, σ, hk.trans (by omega), hσ⟩
    rcases hx with hx | (hx | rfl) | rfl
    · exact hold x (by simp [Progress.states, hx])
    · exact hold x (by simp [Progress.states, levels, hx])
    · exact hold _ (by simp [Progress.states, levels])
    · exact ⟨_, _, Nat.le_of_eq hlen.symm, hnew⟩

theorem run (h : Tracks g s) (hr : ReflTransGen Descends s s') : Tracks g s' := by
  induction hr with
  | refl => exact h
  | tail _ hd ih => exact ih.step hd

end Tracks

end Progress

/-- The attributes of the edges that lead from some nodes to others. -/
def Digraph.joining {β : Type} (g : Digraph β) (p q : NodeId → Prop) [DecidablePred p]
    [DecidablePred q] : List Attributes :=
  (g.edges.filter fun e => p e.source ∧ q e.target).map (·.attributes)

theorem Digraph.coe_joining {β : Type} (g : Digraph β) (p q : NodeId → Prop) [DecidablePred p]
    [DecidablePred q] : (g.joining p q : Multiset Attributes) =
      (g.links.filter fun l => p l.source ∧ q l.target).map Link.attributes := by
  simp only [joining, links, Multiset.filter_coe, Multiset.map_coe, List.filter_map, List.map_map]
  rfl

namespace FlowGraph

variable {g h : FlowGraph} {ρ : NodeId → NodeId}

/-- The edges from one node to another carry the attributes of those between their regions. -/
theorem SameLinks.joining_perm (hl : SameLinks g h ρ) {n m : NodeId} (hnm : n ≠ m) :
    (h.joining (· = n) (· = m)).Perm (g.joining (ρ · = n) (ρ · = m)) := by
  have hproper : ∀ ls : Multiset (Link NodeId),
      (ls.filter fun l => l.source = n ∧ l.target = m) =
        (proper ls).filter fun l => l.source = n ∧ l.target = m := by
    intro ls
    rw [proper, Multiset.filter_filter]
    refine Multiset.filter_congr fun l _ => ⟨fun hl => ⟨hl, ?_⟩, And.left⟩
    rw [Link.Proper, hl.1, hl.2]
    exact hnm
  rw [← Multiset.coe_eq_coe, Digraph.coe_joining, Digraph.coe_joining, hproper, hl, ← hproper,
    Multiset.filter_map, Multiset.map_map]
  rfl

theorem reduceByHammocks_eq (h : g.validate = .ok ()) : g.reduceByHammocks =
    .ok ((Progress.start g).say (.structuring g.shown)).byHammocks := by
  simp only [reduceByHammocks, runHammocks, h]
  rfl

theorem reduceByIntervals_eq (h : g.validate = .ok ()) :
    g.reduceByIntervals = .ok (Progress.start g).byLevels := by
  simp only [reduceByIntervals, runIntervals, h]
  rfl

/-- Both reductions accept a graph that passes the check, and all graphs that they go through are
quotients of it by what has been absorbed. The reduction by hammocks keeps the attributes of the edges
between the regions. -/
theorem reductions_go_through_quotients (hg : g.WellFormed) (hvalid : g.validate = .ok ()) :
    ∃ root, g.entry = some root ∧
      (∃ r, g.reduceByHammocks = .ok r ∧ ∀ h ∈ r.progress.states, ∃ ρ, Absorbs g 0 h ρ ∧
        IsQuotient g root h ρ ∧
        ∀ n m, n ≠ m → (h.joining (· = n) (· = m)).Perm (g.joining (ρ · = n) (ρ · = m))) ∧
      ∃ r, g.reduceByIntervals = .ok r ∧ ∀ h ∈ r.progress.states, ∃ k ρ, Absorbs g k h ρ ∧
        IsQuotient g root h ρ := by
  obtain ⟨root, hroot⟩ := (validate_eq_ok hg.closed).1 hvalid
  have hv : g.Validated := ⟨hg, root, hroot⟩
  refine ⟨root, hroot.1, ⟨_, reduceByHammocks_eq hvalid, ?_⟩, _, reduceByIntervals_eq hvalid, ?_⟩
  · have hruns := (Progress.byHammocks_ends (s := (Progress.start g).say (.structuring g.shown)) hv).1
    have htracks := ((Progress.Tracks.start g).quiet (Progress.quiet_say _ _)).run
      (Progress.Descends.run_of_advances hruns)
    intro h hh
    obtain ⟨k, ρ, hk, ha⟩ := htracks.states h hh
    rw [Progress.Advances.run_earlier hruns] at hk
    obtain rfl : k = 0 := Nat.le_zero.1 hk
    obtain ⟨-, hq, hlinks⟩ := ha.spec hg hroot
    exact ⟨ρ, ha, hq, fun n m hnm => (hlinks rfl).joining_perm hnm⟩
  · have hruns := (Progress.byLevels_ends (s := Progress.start g) hv).1
    intro h hh
    obtain ⟨k, ρ, -, ha⟩ := ((Progress.Tracks.start g).run hruns).states h hh
    exact ⟨k, ρ, ha, (ha.spec hg hroot).2.1⟩

/-- A loop between a node that leads to it and one that it leads to. -/
def whileLoop : FlowGraph := ofWords ["AB", "BC", "CB", "BD"]

theorem whileLoop_validate : whileLoop.validate = .ok () := by cbv

theorem whileLoop_goes_through_quotients :
    whileLoop.WellFormed ∧ whileLoop.validate = .ok () ∧
      ∃ root, whileLoop.entry = some root ∧
        ∃ r, whileLoop.reduceByHammocks = .ok r ∧
          ∀ h ∈ r.progress.states, ∃ ρ, Absorbs whileLoop 0 h ρ ∧ IsQuotient whileLoop root h ρ := by
  have hg : whileLoop.WellFormed := ofWords_wellFormed _
  obtain ⟨root, hroot, ⟨r, hr, hstates⟩, -⟩ :=
    reductions_go_through_quotients hg whileLoop_validate
  refine ⟨hg, whileLoop_validate, root, hroot, r, hr, fun h hh => ?_⟩
  obtain ⟨ρ, ha, hq, -⟩ := hstates h hh
  exact ⟨ρ, ha, hq⟩

end FlowGraph

end Structuring
