import Structuring.Proofs.Graph.WellFormed

/-!
# Nodes and edges by their labels

* `find?_eq_none`, `key_of_find`, `find?_eq_some` — the node with a label.
* `edgeList_of_edges` — graphs with the same labels list their edges alike.
* `find?_append` — one node more changes nothing about the others.
* `WellFormed.updateAttributes` — nor does it when attributes are changed in place.
-/

namespace Structuring

namespace FlowGraph

variable {g : FlowGraph} {n m : NodeId} {l : Value}

theorem find?_eq_none : g.find? l = none ↔ l.key ∉ g.labels.map Value.key := by
  rw [find?, Option.map_eq_none_iff, List.find?_eq_none]
  simp [Value.same_iff, labels]

theorem key_of_find (hg : g.WellFormed) (h : g.find? l = some n) : (g.label n).key = l.key := by
  unfold find? at h
  obtain ⟨⟨m, b⟩, he, rfl⟩ := Option.map_eq_some_iff.1 h
  have hsame := List.find?_some he
  rw [hg.label_eq (List.mem_of_find?_eq_some he)]
  exact Value.same_iff.1 hsame

theorem find?_eq_some (hg : g.WellFormed) (hn : n ∈ g.ids) (h : (g.label n).key = l.key) :
    g.find? l = some n := by
  cases hf : g.find? l with
  | none =>
    refine absurd ?_ (find?_eq_none.1 hf)
    rw [hg.labels_eq, List.map_map]
    exact List.mem_map.2 ⟨n, hn, h⟩
  | some m =>
    have hkey := key_of_find hg hf
    rw [hg.eq_of_key (mem_of_find hf) hn (hkey.trans h.symm)]

theorem label_of_find (hg : g.WellFormed) (hl : l ∈ g.labels) (h : g.find? l = some n) :
    g.label n = l := by
  rw [hg.labels_eq] at hl
  obtain ⟨m, hm, rfl⟩ := List.mem_map.1 hl
  rw [hg.eq_of_key (mem_of_find h) hm (key_of_find hg h)]

/-! ## Edges by their labels -/

/-- Where edges are grouped by their sources, those out of a node stand together. -/
theorem filter_flatMap_source {ns : List NodeId} {f : NodeId → List Edge} (hns : ns.Nodup)
    (hf : ∀ u, ∀ e ∈ f u, e.source = u) (hn : n ∈ ns) :
    ((ns.flatMap f).filter fun e => e.source = n) = f n := by
  have hnil : ∀ us : List NodeId, n ∉ us →
      (us.flatMap fun u => (f u).filter fun e => e.source = n) = [] := by
    intro us hus
    refine List.flatMap_eq_nil_iff.2 fun u hu => List.filter_eq_nil_iff.2 fun e he heq => ?_
    have hsource : e.source = n := of_decide_eq_true heq
    exact hus (hsource ▸ hf u e he ▸ hu)
  obtain ⟨before, after, rfl⟩ := List.append_of_mem hn
  obtain ⟨-, hafter, hdisjoint⟩ := List.nodup_append.1 hns
  rw [List.filter_flatMap, List.flatMap_append, List.flatMap_cons,
    hnil before fun hin => hdisjoint n hin n List.mem_cons_self rfl,
    hnil after (List.nodup_cons.1 hafter).1, List.nil_append, List.append_nil]
  exact List.filter_eq_self.2 fun e he => decide_eq_true (hf n e he)

/-- The edges out of a node stand together among all edges. -/
theorem edgeList_filter (hg : g.WellFormed) (hn : n ∈ g.ids) :
    (g.edgeList.filter fun e => e.source = n) = g.outEdges n :=
  filter_flatMap_source hg.ids_nodup (fun _ _ he => (Digraph.mem_outEdges.1 he).2) hn

def labelledEdge (g : FlowGraph) (e : Edge) : Value × Value × Attributes :=
  (g.label e.source, g.label e.target, e.attributes)

theorem filter_labelledEdge (hg : g.WellFormed) (hn : n ∈ g.ids) {es : List Edge}
    (hes : es ⊆ g.edges) :
    ((es.filter fun e => e.source = n).map g.labelledEdge) =
      (es.map g.labelledEdge).filter fun e => e.1 = g.label n := by
  rw [List.filter_map]
  congr 1
  refine List.filter_congr fun e he => ?_
  have hsource := (hg.closed e (hes he)).1
  exact decide_eq_decide.2
    ⟨fun heq => heq ▸ rfl, fun heq => hg.eq_of_key hsource hn (congrArg _ heq)⟩

theorem edgeList_labelledEdge (hg : g.WellFormed) {es : List Edge} (hes : es ⊆ g.edges)
    (hout : ∀ n ∈ g.ids, (es.filter fun e => e.source = n) = g.outEdges n) :
    g.edgeList.map g.labelledEdge =
      g.labels.flatMap fun l => (es.map g.labelledEdge).filter fun e => e.1 = l := by
  rw [Digraph.edgeList, List.map_flatMap, hg.labels_eq, List.flatMap_map]
  refine List.flatMap_congr fun n hn => ?_
  rw [← filter_labelledEdge hg hn hes, hout n hn]

theorem edgeList_subset : g.edgeList ⊆ g.edges := by
  intro e he
  obtain ⟨n, -, hn⟩ := List.mem_flatMap.1 he
  exact (Digraph.mem_outEdges.1 hn).1

theorem subset_edgeList (hg : g.WellFormed) : g.edges ⊆ g.edgeList := fun e he =>
  List.mem_flatMap.2 ⟨e.source, (hg.closed e he).1, Digraph.mem_outEdges.2 ⟨he, rfl⟩⟩

theorem edgeList_of_edges {h : FlowGraph} (hg : g.WellFormed) (hh : h.WellFormed)
    (hlabels : h.labels = g.labels)
    (hedges : h.edges.map h.labelledEdge = g.edgeList.map g.labelledEdge) :
    h.edgeList.map h.labelledEdge = g.edgeList.map g.labelledEdge := by
  rw [edgeList_labelledEdge hh (List.Subset.refl _) fun n _ => rfl, hlabels, hedges,
    ← edgeList_labelledEdge hg edgeList_subset fun n hn => edgeList_filter hg hn]

/-! ## A node more -/

theorem block?_append {g' : FlowGraph} {e : NodeId × Block} (hg : g'.nodes = g.nodes ++ [e])
    (hn : n ∈ g.ids) : g'.block? n = g.block? n := by
  obtain ⟨e', he', rfl⟩ := List.mem_map.1 hn
  have hsome : (g.nodes.find? fun e => decide (e.1 = e'.1)).isSome = true :=
    List.find?_isSome.2 ⟨e', he', by simp⟩
  obtain ⟨f, hf⟩ := Option.isSome_iff_exists.1 hsome
  simp only [block?, Digraph.body?, hg, List.find?_append, hf, Option.some_or]

theorem label_append {g' : FlowGraph} {e : NodeId × Block} (hg : g'.nodes = g.nodes ++ [e])
    (hn : n ∈ g.ids) : g'.label n = g.label n := by
  rw [label, label, block?_append hg hn]

theorem find?_append {g' : FlowGraph} {e : NodeId × Block} (hg : g'.nodes = g.nodes ++ [e])
    (h : g.find? l = some n) : g'.find? l = some n := by
  unfold find? at h ⊢
  obtain ⟨e', he', rfl⟩ := Option.map_eq_some_iff.1 h
  rw [hg, List.find?_append, he']
  rfl

/-! ## Attributes changed in place -/

variable {f : Attributes → Attributes}

theorem ids_updateAttributes : (g.updateAttributes n f).ids = g.ids := by
  simp only [updateAttributes, Digraph.mapBody, Digraph.ids, List.map_map]
  refine List.map_congr_left fun e _ => ?_
  simp only [Function.comp_apply]
  split <;> rfl

theorem labels_updateAttributes : (g.updateAttributes n f).labels = g.labels := by
  simp only [updateAttributes, Digraph.mapBody, labels, List.map_map]
  refine List.map_congr_left fun e _ => ?_
  simp only [Function.comp_apply]
  split <;> rfl

theorem WellFormed.updateAttributes (hg : g.WellFormed) (n : NodeId) (f : Attributes → Attributes) :
    (g.updateAttributes n f).WellFormed where
  serials := by rw [ids_updateAttributes]; exact hg.serials
  serial_le := by rw [ids_updateAttributes]; exact hg.serial_le
  labels := by rw [labels_updateAttributes]; exact hg.labels
  edges := hg.edges
  edge_le := hg.edge_le
  closed := by
    intro e he
    rw [ids_updateAttributes]
    exact hg.closed e he
  entry_mem := by rw [ids_updateAttributes]; exact hg.entry_mem

theorem blocks_updateAttributes (hg : g.WellFormed) (hn : n ∈ g.ids) :
    (g.updateAttributes n f).nodes.map (·.2) = (g.nodes.map (·.2)).map fun b =>
      if b.label.key = (g.label n).key then { b with attributes := f b.attributes } else b := by
  simp only [updateAttributes, Digraph.mapBody, List.map_map]
  refine List.map_congr_left fun e he => ?_
  have hiff : e.1 = n ↔ e.2.label.key = (g.label n).key := by
    rw [← hg.label_eq he]
    exact ⟨fun heq => heq ▸ rfl, hg.eq_of_key (List.mem_map_of_mem he) hn⟩
  simp only [Function.comp_apply]
  by_cases heq : e.1 = n
  · rw [if_pos heq, if_pos (hiff.1 heq)]
  · rw [if_neg heq, if_neg (fun hk => heq (hiff.2 hk))]

theorem mem_nodes_updateAttributes {b : Block} (h : (n, b) ∈ g.nodes) :
    (n, { b with attributes := f b.attributes }) ∈ (g.updateAttributes n f).nodes :=
  List.mem_map.2 ⟨(n, b), h, by simp⟩

theorem label_updateAttributes (hg : g.WellFormed) (hm : m ∈ g.ids) :
    (g.updateAttributes n f).label m = g.label m := by
  obtain ⟨⟨m, b⟩, hb, rfl⟩ := List.mem_map.1 hm
  have hmem : ∃ b', (m, b') ∈ (g.updateAttributes n f).nodes ∧ b'.label = b.label := by
    by_cases hmn : m = n
    · subst hmn
      exact ⟨_, mem_nodes_updateAttributes hb, rfl⟩
    · exact ⟨b, List.mem_map.2 ⟨(m, b), hb, by simp [hmn]⟩, rfl⟩
  obtain ⟨b', hb', hlabel⟩ := hmem
  rw [hg.label_eq hb, (hg.updateAttributes n f).label_eq hb', hlabel]

end FlowGraph

end Structuring
