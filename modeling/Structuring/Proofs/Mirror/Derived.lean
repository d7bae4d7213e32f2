import Mathlib.Data.List.GetD
import Structuring.Proofs.Graph.Lookup
import Structuring.Proofs.Mirror.Interval

/-!
# Derived graphs and copies of mirrored graphs

* `Mirrors.addEdge` — an edge between corresponding nodes.
* `Mirrors.leadsTo` — the intervals that the edges out of an interval lead to.
* `Mirrors.derived` — the derived graphs of mirrored graphs are mirrored.
* `copy_mirrors` — a graph and its copy are mirrored.
-/

namespace Structuring

/-- Nodes can be matched up in order with as many others. -/
theorem exists_map_eq {ns ns' : List NodeId} (hns : ns.Nodup) (hlen : ns.length = ns'.length) :
    ∃ φ : NodeId → NodeId, ns.map φ = ns' := by
  refine ⟨fun v => ns'.getD (ns.idxOf v) v, List.ext_getElem (by simp [hlen]) fun i hi hi' => ?_⟩
  have hi'' : i < ns.length := by simpa using hi
  rw [List.getElem_map, hns.idxOf_getElem, List.getD_eq_getElem _ _ hi']

namespace FlowGraph

variable {g h into into' : FlowGraph} {root n v w : NodeId} {φ ψ : NodeId → NodeId}
  {ns : List NodeId} {is : List Interval}

theorem targetList_addEdge {a : Attributes} {e : Edge} (hrun : g.addEdge n w a = .ok (e, h)) :
    h.targetList v = g.targetList v ++ if n = v then [w] else [] := by
  obtain ⟨hn, hw⟩ := WellFormed.of_addEdge_eq_ok hrun
  rw [WellFormed.addEdge_eq hn hw] at hrun
  cases hrun
  rw [Digraph.targetList, Digraph.targetList, Digraph.outEdges, Digraph.outEdges,
    List.filter_append, List.map_append]
  congr 1
  by_cases hv : n = v
  · simp [hv]
  · simp [hv]

namespace Mirrors

theorem addEdge (hm : Mirrors g h φ) (hn : n ∈ g.ids) (hw : w ∈ g.ids) (a a' : Attributes) :
    ∃ e e' d d', g.addEdge n w a = .ok (e, d) ∧ h.addEdge (φ n) (φ w) a' = .ok (e', d') ∧
      d.ids = g.ids ∧ Mirrors d d' φ := by
  have hrun := WellFormed.addEdge_eq hn hw a
  have hrun' := WellFormed.addEdge_eq (hm.mem hn) (hm.mem hw) a'
  refine ⟨_, _, _, _, hrun, hrun', rfl, hm.left.addEdge hrun, hm.right.addEdge hrun', hm.ids,
    hm.entry, fun v hv => ?_⟩
  rw [targetList_addEdge hrun, targetList_addEdge hrun', hm.targets v hv, List.map_append]
  have hiff : φ n = φ v ↔ n = v := ⟨hm.injOn hn hv, congrArg φ⟩
  congr 1
  simp only [hiff]
  split
  · rfl
  · rfl

theorem linkTo (hm : Mirrors into into' ψ) (hn : n ∈ into.ids) (hns : ∀ m ∈ ns, m ∈ into.ids)
    (js : List Nat) :
    ∃ d d', FlowGraph.linkTo ns n into js = .ok d ∧
      FlowGraph.linkTo (ns.map ψ) (ψ n) into' js = .ok d' ∧ d.ids = into.ids ∧ Mirrors d d' ψ := by
  induction js generalizing into into' with
  | nil => exact ⟨into, into', rfl, rfl, rfl, hm⟩
  | cons j js ih =>
    simp only [FlowGraph.linkTo, List.getElem?_map]
    cases hj : ns[j]? with
    | none => exact ih hm hn hns
    | some m =>
      obtain ⟨e, e', d, d', hrun, hrun', hids, hd⟩ :=
        hm.addEdge hn (hns m (List.mem_of_getElem? hj)) ∅ ∅
      obtain ⟨f, f', hf, hf', hids', hmirrors⟩ := ih hd (hids ▸ hn) (hids ▸ hns)
      refine ⟨f, f', ?_, ?_, hids'.trans hids, hmirrors⟩
      · simp only [hrun]
        exact hf
      · simp only [Option.map_some, hrun']
        exact hf'

/-- A node and its counterpart are in intervals at the same place. -/
theorem intervalOf (hm : Mirrors g h φ) (his : ∀ i ∈ is, ∀ v ∈ i.members, v ∈ g.ids)
    (hv : v ∈ g.ids) : intervalOf? (is.map (Interval.map φ)) (φ v) = intervalOf? is v := by
  induction is with
  | nil => rfl
  | cons i is ih =>
    have hih := ih fun j hj => his j (List.mem_cons_of_mem _ hj)
    have hi := hm.contains_map (his i List.mem_cons_self) hv
    simp only [intervalOf?, List.map_cons, List.findIdx?_cons, Interval.map, hi] at hih ⊢
    rw [hih]

theorem targetIntervals (hm : Mirrors g h φ) (his : ∀ i ∈ is, ∀ v ∈ i.members, v ∈ g.ids)
    {vs : List NodeId} (hvs : ∀ v ∈ vs, v ∈ g.ids) {js : List Nat}
    (hjs : targetIntervals is vs = .ok js) :
    targetIntervals (is.map (Interval.map φ)) (vs.map φ) = .ok js := by
  induction vs generalizing js with
  | nil => exact hjs
  | cons v vs ih =>
    simp only [List.map_cons, FlowGraph.targetIntervals,
      hm.intervalOf his (hvs v List.mem_cons_self)] at hjs ⊢
    cases hv : intervalOf? is v with
    | none =>
      rw [hv] at hjs
      cases hjs
    | some j =>
      rw [hv] at hjs
      cases hrest : FlowGraph.targetIntervals is vs with
      | error f =>
        rw [hrest] at hjs
        cases hjs
      | ok ks =>
        rw [hrest] at hjs
        simp only [ih (fun w hw => hvs w (List.mem_cons_of_mem _ hw)) hrest]
        exact hjs

theorem leadsTo (hm : Mirrors g h φ) (his : ∀ i ∈ is, ∀ v ∈ i.members, v ∈ g.ids) {i : Interval}
    (hi : i ∈ is) (own : Nat) {js : List Nat} (hjs : g.leadsTo is own i = .ok js) :
    h.leadsTo (is.map (Interval.map φ)) own (i.map φ) = .ok js := by
  have hsuccs : (i.map φ).members.flatMap h.successors =
      (i.members.flatMap g.successors).map φ := by
    rw [Interval.map, List.flatMap_map, List.map_flatMap]
    exact List.flatMap_congr fun v hv => hm.successors (his i hi v hv)
  have hmem : ∀ v ∈ i.members.flatMap g.successors, v ∈ g.ids := by
    intro v hv
    obtain ⟨u, -, huv⟩ := List.mem_flatMap.1 hv
    exact successors_mem hm.left huv
  unfold FlowGraph.leadsTo at hjs ⊢
  cases hks : FlowGraph.targetIntervals is (i.members.flatMap g.successors) with
  | error f =>
    rw [hks] at hjs
    cases hjs
  | ok ks =>
    rw [hks] at hjs
    rw [hsuccs, hm.targetIntervals his hmem hks]
    exact hjs

theorem linkIntervals (hm : Mirrors g h φ) (hroot : g.Rooted root)
    (hpart : Partitions g root [] is) (hinto : Mirrors into into' ψ)
    (hns : ∀ m ∈ ns, m ∈ into.ids) {rest : List Interval} (hrest : ∀ i ∈ rest, i ∈ is) (k : Nat) :
    ∃ d d', g.linkIntervals is ns into k rest = .ok d ∧
      h.linkIntervals (is.map (Interval.map φ)) (ns.map ψ) into' k (rest.map (Interval.map φ)) =
        .ok d' ∧ Mirrors d d' ψ := by
  induction rest generalizing into into' k with
  | nil => exact ⟨into, into', rfl, rfl, hinto⟩
  | cons i rest ih =>
    have hrest' : ∀ j ∈ rest, j ∈ is := fun j hj => hrest j (List.mem_cons_of_mem _ hj)
    obtain ⟨js, hjs, -⟩ := leadsTo_eq hm.left hroot hpart k i
    have hjs' := hm.leadsTo hpart.mem_ids (hrest i List.mem_cons_self) k hjs
    simp only [List.map_cons, FlowGraph.linkIntervals, hjs, hjs', bind, Except.bind,
      List.getElem?_map]
    cases hk : ns[k]? with
    | none => exact ih hinto hns hrest' (k + 1)
    | some m =>
      obtain ⟨d, d', hd, hd', hids, hmirrors⟩ :=
        hinto.linkTo (hns m (List.mem_of_getElem? hk)) hns js
      obtain ⟨f, f', hf, hf', hff⟩ := ih hmirrors (hids ▸ hns) hrest' (k + 1)
      refine ⟨f, f', ?_, ?_, hff⟩
      · simp only [hd]
        exact hf
      · simp only [Option.map_some, hd']
        exact hf'

/-- The derived graphs of mirrored graphs are mirrored, and their labels correspond if those of the
graphs do. -/
theorem derived (hm : Mirrors g h φ) (hroot : g.Rooted root) (his : g.intervals = some is)
    (tag tag' : Nat) :
    ∃ d d' ψ, g.derived is tag = .ok d ∧ h.derived (is.map (Interval.map φ)) tag' = .ok d' ∧
      Mirrors d d' ψ ∧ ∀ f, Relabels f g h φ → Relabels f d d' ψ := by
  have hroot' := hm.rooted hroot
  obtain ⟨is₁, his₁, hpart⟩ := intervals_partitions hm.left hroot.1
  obtain rfl := Option.some.inj (his₁.symm.trans his)
  obtain ⟨is₂, his₂, hpart'⟩ := intervals_partitions hm.right hroot'.1
  obtain rfl : is₁.map (Interval.map φ) = is₂ := by
    rw [hm.intervals, his] at his₂
    exact Option.some.inj his₂
  obtain ⟨into, hrun, hadds, hlen, hwf⟩ := headerNodes_spec hm.left hpart tag
  obtain ⟨into', hrun', hadds', hlen', hwf'⟩ := headerNodes_spec hm.right hpart' tag'
  have hsame : into.ids.length = into'.ids.length := by rw [hlen, hlen', List.length_map]
  obtain ⟨ψ, hψ⟩ := exists_map_eq hadds.wellFormed.ids_nodup hsame
  have hstart : Mirrors { into with entry := into.ids.head? }
      { into' with entry := into'.ids.head? } ψ := by
    refine ⟨hwf, hwf', hψ.symm, ?_, fun v _ => ?_⟩
    · simp only [← hψ, List.head?_map]
    · have hnone : into.edges = [] := hadds.edges
      have hnone' : into'.edges = [] := hadds'.edges
      simp [Digraph.targetList, Digraph.outEdges, hnone, hnone']
  obtain ⟨d, d', hd, hd', hmirrors⟩ :=
    hm.linkIntervals hroot hpart hstart (fun m (hmem : m ∈ into.ids) => hmem)
      (fun i (hi : i ∈ is₁) => hi) 0
  rw [hψ] at hd'
  have hrund : g.derived is₁ tag = .ok d := by simp only [FlowGraph.derived, hrun, hd]
  have hrund' : h.derived (is₁.map (Interval.map φ)) tag' = .ok d' := by
    simp only [FlowGraph.derived, hrun', hd']
  refine ⟨d, d', ψ, hrund, hrund', hmirrors, fun f hf n hn => ?_⟩
  obtain ⟨d₁, hd₁, hderived⟩ := derived_isDerived hm.left hroot hpart tag
  obtain rfl := Except.ok.inj (hd₁.symm.trans hrund)
  obtain ⟨d₂, hd₂, hderived'⟩ := derived_isDerived hm.right hroot' hpart' tag'
  obtain rfl := Except.ok.inj (hd₂.symm.trans hrund')
  obtain ⟨j, hj, rfl⟩ := List.getElem_of_mem hn
  have hji : j < is₁.length := hderived.length_eq ▸ hj
  have hheader := hpart.mem_ids _ (List.getElem_mem hji) _ (hpart.header_mem (List.getElem_mem hji))
  have hj' : j < d₂.ids.length := by rw [hmirrors.ids, List.length_map]; exact hj
  have hψj : ψ d₁.ids[j] = d₂.ids[j] := by
    simp only [hmirrors.ids, List.getElem_map]
  rw [hψj, hderived'.label_eq j (by rwa [List.length_map]) hj', hderived.label_eq j hji hj,
    List.getElem_map]
  exact hf _ hheader

end Mirrors

/-! ## Copies -/

theorem copy_mirrors (hg : g.WellFormed) (hroot : g.entry = some root) (tag : Nat) :
    ∃ h φ, g.copy tag = .ok h ∧ Mirrors g h φ ∧ Relabels id g h φ := by
  obtain ⟨h, φ, hrun, hc⟩ := copy_spec hg tag
  have hentry : h.entry = g.entry.map φ := by rw [hc.entry, entered_of_entry hroot]
  refine ⟨h, φ, hrun, ⟨hg, hc.wellFormed, hc.ids, hentry, fun v hv => ?_⟩, hc.label_eq hg⟩
  have hsource : (g.edgeList.filter fun e => φ e.source = φ v) =
      g.edgeList.filter fun e => e.source = v := by
    refine List.filter_congr fun e he => ?_
    have hmem := (hg.closed e ((edgeList_perm hg).mem_iff.1 he)).1
    rw [decide_eq_decide]
    exact ⟨hc.injOn _ hmem v hv, congrArg φ⟩
  rw [Digraph.targetList_eq, hc.edges, List.filter_map, List.map_map]
  change ((g.edgeList.filter fun e => φ e.source = φ v).map fun e => φ e.target) = _
  rw [hsource, edgeList_filter hg hv, Digraph.targetList, List.map_map]
  rfl

end FlowGraph

end Structuring
