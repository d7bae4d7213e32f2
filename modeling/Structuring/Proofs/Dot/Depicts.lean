import Structuring.Proofs.Dot.Content
import Structuring.Proofs.Graph.Lookup

/-!
# Graphs with a content

* `Depicts.mention`, `Depicts.newNode` — a label is mentioned again, or for the first time.
* `Depicts.updateAttributes` — an attribute list is laid over the attributes of a node.
* `Depicts.edit` — edges are added, and attributes of the graph are set.
* `Depicts.outEdges`, `Depicts.map_labelledEdge` — the edges of a content in the graph.
-/

namespace Structuring.Dot.Content

variable {c : Content} {g : FlowGraph} {v : Value} {a : Attributes} {n : NodeId}

theorem listsOf_eq_nil (h : ∀ l ∈ c.lists, l.1.key ≠ v.key) : c.listsOf v = [] := by
  rw [listsOf, List.map_eq_nil_iff, List.filter_eq_nil_iff]
  intro l hl
  rw [Value.same_iff]
  exact h l hl

theorem block_list (m : Value × Attributes) : (c ++ ⟨[], [(v, a)], [], []⟩).block m =
    if m.1.key = v.key then { c.block m with attributes := (c.block m).attributes.update a }
    else c.block m := by
  simp only [block, listsOf, lists_append, List.filter_append]
  by_cases heq : m.1.key = v.key
  · simp [Value.same, heq]
  · simp [Value.same, heq, Ne.symm heq]

theorem eq_of_map_eq {α β : Type} {f : α → β} {as bs : List α}
    (hf : ∀ a ∈ as, ∀ b ∈ bs, f a = f b → a = b) (h : as.map f = bs.map f) : as = bs := by
  induction as generalizing bs with
  | nil => exact (List.map_eq_nil_iff.1 h.symm).symm
  | cons a as ih =>
    cases bs with
    | nil => cases h
    | cons b bs =>
      rw [List.map_cons, List.map_cons, List.cons.injEq] at h
      rw [hf a List.mem_cons_self b List.mem_cons_self h.1, ih (fun a' ha' b' hb' =>
        hf a' (List.mem_cons_of_mem _ ha') b' (List.mem_cons_of_mem _ hb')) h.2]

namespace Depicts

theorem labels (h : c.Depicts g) : g.labels = (firsts c.mentions).map (·.1) := by
  have hmap := congrArg (List.map Block.label) h.blocks
  rw [List.map_map, List.map_map] at hmap
  exact hmap

theorem mem_keys (h : c.Depicts g) {k : Key} :
    k ∈ g.labels.map Value.key ↔ k ∈ c.mentions.map (·.1.key) := by
  rw [h.labels, List.map_map, ← mem_keys_firsts]
  rfl

theorem mentioned (h : c.Depicts g) (hn : g.find? v = some n) :
    v.key ∈ c.mentions.map (·.1.key) := by
  rw [← h.mem_keys]
  by_contra hnone
  rw [FlowGraph.find?_eq_none.2 hnone] at hn
  cases hn

theorem unmentioned (h : c.Depicts g) (hv : g.find? v = none) :
    v.key ∉ c.mentions.map (·.1.key) := by
  rw [← h.mem_keys]
  exact FlowGraph.find?_eq_none.1 hv

theorem mention (h : c.Depicts g) (hold : v.key ∈ c.mentions.map (·.1.key)) (a : Attributes) :
    (c ++ ⟨[(v, a)], [], [], []⟩).Depicts g := by
  have hfirsts : firsts (c ++ ⟨[(v, a)], [], [], []⟩).mentions = firsts c.mentions :=
    firsts_append_old hold
  refine ⟨?_, ?_, ?_⟩
  · have hblock : (c ++ ⟨[(v, a)], [], [], []⟩).block = c.block :=
      block_congr (List.append_nil c.lists)
    rw [hfirsts, h.blocks, hblock]
  · rw [h.edges, edges_append, List.append_nil]
  · rw [h.attributes, attributes_append, List.append_nil]

theorem newNode (h : c.Depicts g) (hg : g.WellFormed) (hnew : g.find? v = none)
    (hlists : ∀ l ∈ c.lists, l.1.key ≠ v.key) (a : Attributes) :
    (c ++ ⟨[(v, a)], [], [], []⟩).Depicts (g.newNode ⟨v, none, a⟩).2 := by
  have hrun := hg.newNode_eq (b := ⟨v, none, a⟩) (FlowGraph.find?_eq_none.1 hnew)
  have hnodes : (g.newNode ⟨v, none, a⟩).2.nodes =
      g.nodes ++ [(⟨g.tag, g.lastNode + 1⟩, ⟨v, none, a⟩)] := by rw [hrun]
  have hfirsts : firsts (c ++ ⟨[(v, a)], [], [], []⟩).mentions = firsts c.mentions ++ [(v, a)] :=
    firsts_append_new (h.unmentioned hnew)
  refine ⟨?_, ?_, ?_⟩
  · have hblock : (c ++ ⟨[(v, a)], [], [], []⟩).block = c.block :=
      block_congr (List.append_nil c.lists)
    rw [hnodes, hfirsts, List.map_append, List.map_append, h.blocks, hblock]
    simp [block, listsOf_eq_nil hlists]
  · have hedges : (g.newNode ⟨v, none, a⟩).2.edges = g.edges := by rw [hrun]
    rw [hedges, edges_append, List.append_nil, ← h.edges]
    refine List.map_congr_left fun e he => ?_
    have hmem := hg.closed e he
    rw [FlowGraph.label_append hnodes hmem.1, FlowGraph.label_append hnodes hmem.2]
  · have hattributes : (g.newNode ⟨v, none, a⟩).2.attributes = g.attributes := by rw [hrun]
    rw [hattributes, h.attributes, attributes_append, List.append_nil]

theorem updateAttributes (h : c.Depicts g) (hg : g.WellFormed) (hn : g.find? v = some n)
    (a : Attributes) :
    (c ++ ⟨[], [(v, a)], [], []⟩).Depicts (g.updateAttributes n (·.update a)) := by
  have hmem := FlowGraph.mem_of_find hn
  refine ⟨?_, ?_, ?_⟩
  · rw [FlowGraph.blocks_updateAttributes hg hmem, FlowGraph.key_of_find hg hn, h.blocks,
      mentions_append, List.append_nil, List.map_map]
    exact List.map_congr_left fun m _ => (block_list m).symm
  · rw [edges_append, List.append_nil, ← h.edges]
    refine List.map_congr_left fun e he => ?_
    have hmem := hg.closed e he
    rw [FlowGraph.label_updateAttributes hg hmem.1, FlowGraph.label_updateAttributes hg hmem.2]
  · rw [attributes_append, List.append_nil]
    exact h.attributes

theorem edit {g' : FlowGraph} (h : c.Depicts g) (es : List (Value × Value × Attributes))
    (as : List Attributes) (hnodes : g'.nodes = g.nodes)
    (hedges : g'.edges.map (fun e =>
        ((g'.label e.source).key, (g'.label e.target).key, e.attributes)) =
      (c.edges ++ es).map fun e => (e.1.key, e.2.1.key, e.2.2))
    (hattributes : g'.attributes = as.foldl .update g.attributes) :
    (c ++ ⟨[], [], es, as⟩).Depicts g' := by
  refine ⟨?_, hedges, ?_⟩
  · have hblock : (c ++ ⟨[], [], es, as⟩).block = c.block := block_congr (List.append_nil c.lists)
    rw [hnodes, hblock, mentions_append, List.append_nil]
    exact h.blocks
  · rw [hattributes, h.attributes, attributes_append, List.foldl_append]

theorem outEdges (h : c.Depicts g)
    (hg : g.WellFormed) (hn : n ∈ g.ids) :
    (g.outEdges n).map (fun e => ((g.label e.target).key, e.attributes)) =
      (c.edges.filter fun e => e.1.same (g.label n)).map fun e => (e.2.1.key, e.2.2) := by
  have hedges := congrArg
    (fun es => (es.filter fun e => e.1 = (g.label n).key).map (·.2)) h.edges
  simp only [List.filter_map, List.map_map] at hedges
  calc (g.outEdges n).map (fun e => ((g.label e.target).key, e.attributes))
      = (g.edges.filter fun e => (g.label e.source).key = (g.label n).key).map
          fun e => ((g.label e.target).key, e.attributes) := by
        rw [Digraph.outEdges]
        congr 1
        refine List.filter_congr fun e he => ?_
        have hsource := (hg.closed e he).1
        exact decide_eq_decide.2 ⟨fun heq => heq ▸ rfl, hg.eq_of_key hsource hn⟩
    _ = (c.edges.filter fun e => e.1.key = (g.label n).key).map fun e => (e.2.1.key, e.2.2) :=
        hedges
    _ = _ := rfl

/-- Where the edges of a content are between labels of the graph, the labels of its edges are these
labels and not only the same ones. -/
theorem map_labelledEdge (h : c.Depicts g) (hg : g.WellFormed)
    (hends : ∀ e ∈ c.edges, e.1 ∈ g.labels ∧ e.2.1 ∈ g.labels) :
    g.edges.map g.labelledEdge = c.edges := by
  have hlabel : ∀ n ∈ g.ids, g.label n ∈ g.labels := by
    intro n hn
    rw [hg.labels_eq]
    exact List.mem_map_of_mem hn
  refine eq_of_map_eq (f := fun e : Value × Value × Attributes => (e.1.key, e.2.1.key, e.2.2))
    ?_ (by rw [List.map_map]; exact h.edges)
  rintro a ha ⟨source, target, attributes⟩ hb heq
  obtain ⟨e, he, rfl⟩ := List.mem_map.1 ha
  have hclosed := hg.closed e he
  have hends := hends _ hb
  simp only [FlowGraph.labelledEdge, Prod.mk.injEq] at heq hends ⊢
  exact ⟨List.inj_on_of_nodup_map hg.labels (hlabel _ hclosed.1) hends.1 heq.1,
    List.inj_on_of_nodup_map hg.labels (hlabel _ hclosed.2) hends.2 heq.2.1, heq.2.2⟩

end Depicts

end Structuring.Dot.Content
