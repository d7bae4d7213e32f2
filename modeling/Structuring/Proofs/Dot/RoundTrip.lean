import Structuring.Proofs.Dot.Reader
import Structuring.Proofs.Dot.Writing
import Structuring.Proofs.Graph.Lookup

/-!
# Graphs are read back as they were written

* `FlowGraph.Rereads` — what a graph and the graph that is read from its text have in common.
* `Rereads.write_eq` — two such graphs have the same text.
* `parse_write` — the text of a graph is read as such a graph.
-/

namespace Structuring

namespace FlowGraph

/-- `h` is what `g` becomes when it is written and read. An entry node that is not the first node
says so in `h`. -/
structure Rereads (g h : FlowGraph) : Prop where
  name : h.name = g.name
  attributes : h.attributes = g.attributes
  nodes : h.nodes.map (fun e => (e.2.label, e.2.attributes)) = g.nodes.map fun e =>
    (e.2.label, if g.entry = some e.1 ∧ g.ids.head? ≠ some e.1 then
        e.2.attributes.set (.text "entry") (.text "true") else e.2.attributes)
  edges : h.edgeList.map h.labelledEdge = g.edgeList.map g.labelledEdge
  entry : h.entry.map h.label = g.entry.map g.label

variable {g h : FlowGraph} {n m : NodeId}

theorem Rereads.labels (hr : g.Rereads h) : h.labels = g.labels := by
  have hmap := congrArg (List.map Prod.fst) hr.nodes
  rw [List.map_map, List.map_map] at hmap
  exact hmap

theorem head?_labels (hg : g.WellFormed) : g.ids.head?.map g.label = g.labels.head? := by
  rw [hg.labels_eq, List.head?_map]

/-- Nodes with one label are entries together, and first nodes together. -/
theorem head?_iff (hg : g.WellFormed) (hh : h.WellFormed) (hlabels : h.labels = g.labels)
    (hn : n ∈ g.ids) (hm : m ∈ h.ids) (heq : h.label m = g.label n) :
    h.ids.head? = some m ↔ g.ids.head? = some n := by
  have hhead : h.ids.head?.map h.label = g.ids.head?.map g.label := by
    rw [head?_labels hg, head?_labels hh, hlabels]
  constructor
  · intro hfirst
    rw [hfirst, Option.map_some, heq] at hhead
    obtain ⟨n', hn', hlabel⟩ := Option.map_eq_some_iff.1 hhead.symm
    rw [hn', hg.eq_of_key (List.mem_of_mem_head? hn') hn (by rw [hlabel])]
  · intro hfirst
    rw [hfirst, Option.map_some, ← heq] at hhead
    obtain ⟨m', hm', hlabel⟩ := Option.map_eq_some_iff.1 hhead
    rw [hm', hh.eq_of_key (List.mem_of_mem_head? hm') hm (by rw [hlabel])]

/-- Writing again marks no node that is not marked already. -/
theorem Rereads.shown (hr : g.Rereads h) (hg : g.WellFormed) (hh : h.WellFormed)
    {e : NodeId × Block} (he : e ∈ h.nodes) :
    Dot.shownAttributes h [] e.1 e.2 = e.2.attributes := by
  rw [Dot.shownAttributes_nil]
  split
  · next hentry =>
    obtain ⟨f, hf, heq⟩ := List.mem_map.1 (hr.nodes ▸ List.mem_map_of_mem he)
    simp only [Prod.mk.injEq] at heq
    have hlabel : h.label e.1 = g.label f.1 := by rw [hh.label_eq he, hg.label_eq hf, heq.1]
    have hfirst :=
      head?_iff hg hh hr.labels (List.mem_map_of_mem hf) (List.mem_map_of_mem he) hlabel
    have hsame : g.entry = some f.1 := by
      have hmap := hr.entry
      rw [hentry.1, Option.map_some] at hmap
      obtain ⟨n, hn, hlabel'⟩ := Option.map_eq_some_iff.1 hmap.symm
      have hkey : (g.label n).key = (g.label f.1).key := by rw [hlabel', hlabel]
      rw [hn, hg.eq_of_key (hg.entry_mem n hn) (List.mem_map_of_mem hf) hkey]
    rw [if_pos ⟨hsame, fun hhead => hentry.2 (hfirst.2 hhead)⟩] at heq
    rw [← heq.2]
    exact Attributes.set_eq_self (by rw [Attributes.get?_set]; rfl)
  · rfl

theorem Rereads.write_eq (hr : g.Rereads h) (hg : g.WellFormed) (hh : h.WellFormed) :
    Dot.write h = Dot.write g := by
  have hshown : h.nodes.map (fun e => (e.2.label, Dot.shownAttributes h [] e.1 e.2)) =
      g.nodes.map fun e => (e.2.label, Dot.shownAttributes g [] e.1 e.2) := by
    refine Eq.trans (List.map_congr_left fun e he => ?_) hr.nodes
    rw [hr.shown hg hh he]
  have hnodes := congrArg (List.map fun x => Dot.nodeLine x.1 x.2) hshown
  have hedges := congrArg (List.map fun x => Dot.edgeLine x.1 x.2.1 x.2.2) hr.edges
  simp only [List.map_map, Function.comp_def, labelledEdge] at hnodes hedges
  rw [Dot.write, Dot.writeWith, Dot.write, Dot.writeWith, hr.name, hr.attributes, hnodes, hedges]

end FlowGraph

namespace Dot

variable {g : FlowGraph}

/-! ## What is written -/

def contentOf (g : FlowGraph) : Content where
  mentions := g.nodes.map (fun e => (e.2.label, ∅)) ++
    g.edgeList.flatMap fun e => [(g.label e.source, ∅), (g.label e.target, ∅)]
  lists := g.nodes.map fun e => (e.2.label, shownAttributes g [] e.1 e.2)
  edges := g.edgeList.map fun e => (g.label e.source, g.label e.target, e.attributes)
  attributes := g.attributes.entries.map fun e => .ofList [e]

theorem sum_writtenLines (g : FlowGraph) :
    Content.sum ((writtenLines g).map (·.1)) = contentOf g := by
  have hnil : ∀ {α β : Type} (as : List α), (as.flatMap fun _ => ([] : List β)) = [] := by
    intro α β as
    exact List.flatMap_eq_nil_iff.2 fun _ _ => rfl
  have hone : ∀ {α β : Type} (f : α → β) (as : List α), (as.flatMap fun a => [f a]) = as.map f := by
    intro α β f as
    exact List.map_eq_flatMap.symm
  ext1
  · rw [Content.mentions_sum]
    simp [writtenLines, contentOf, List.flatMap_map, hnil, hone]
  · rw [Content.lists_sum]
    simp [writtenLines, contentOf, List.flatMap_map, hnil, hone]
  · rw [Content.edges_sum]
    simp [writtenLines, contentOf, List.flatMap_map, hnil, hone]
  · rw [Content.attributes_sum]
    simp [writtenLines, contentOf, List.flatMap_map, hnil, hone]

theorem firsts_contentOf (hg : g.WellFormed) :
    firsts (contentOf g).mentions = g.nodes.map fun e => (e.2.label, ∅) := by
  have hkeys : (g.nodes.map fun e => (e.2.label, (∅ : Attributes))).map (·.1.key) =
      g.labels.map Value.key := by
    simp [FlowGraph.labels]
  rw [contentOf, firsts_append_mentioned, firsts_of_nodup (hkeys ▸ hg.labels)]
  intro m hm
  obtain ⟨e, he, hm⟩ := List.mem_flatMap.1 hm
  obtain ⟨n, -, hn⟩ := List.mem_flatMap.1 he
  have hends := hg.closed e (Digraph.mem_outEdges.1 hn).1
  have hmem : ∀ v ∈ g.ids, (g.label v).key ∈ g.labels.map Value.key := by
    intro v hv
    rw [hg.labels_eq]
    exact List.mem_map_of_mem (List.mem_map_of_mem hv)
  rw [hkeys]
  simp only [List.mem_cons, List.not_mem_nil, or_false] at hm
  rcases hm with rfl | rfl
  · exact hmem _ hends.1
  · exact hmem _ hends.2

theorem contentOf_clear (hg : g.WellFormed) : ¬ (contentOf g).Clashes := by
  rintro ⟨m, hm, hreserved⟩
  rw [firsts_contentOf hg] at hm
  obtain ⟨e, -, rfl⟩ := List.mem_map.1 hm
  cases hreserved

theorem filter_eq_singleton {α κ : Type} [DecidableEq κ] {f : α → κ} {as : List α} {a : α}
    (hnodup : (as.map f).Nodup) (ha : a ∈ as) : (as.filter fun b => f b = f a) = [a] := by
  induction as with
  | nil => cases ha
  | cons b as ih =>
    rw [List.map_cons, List.nodup_cons] at hnodup
    rcases List.mem_cons.1 ha with rfl | ha
    · rw [List.filter_cons_of_pos (by simp), List.filter_eq_nil_iff.2]
      intro c hc
      simpa using fun heq : f c = f a => hnodup.1 (heq ▸ List.mem_map_of_mem hc)
    · rw [List.filter_cons_of_neg, ih hnodup.2 ha]
      simpa using fun heq : f b = f a => hnodup.1 (heq ▸ List.mem_map_of_mem ha)

theorem block_contentOf (hg : g.WellFormed) {e : NodeId × Block} (he : e ∈ g.nodes) :
    (contentOf g).block (e.2.label, ∅) =
      ⟨e.2.label, none, shownAttributes g [] e.1 e.2⟩ := by
  have hlists : (contentOf g).listsOf e.2.label = [shownAttributes g [] e.1 e.2] := by
    have hkeys : (g.nodes.map fun e => e.2.label.key).Nodup := by
      simpa [FlowGraph.labels, Function.comp_def] using hg.labels
    simp only [Content.listsOf, contentOf, List.filter_map, List.map_map, Function.comp_def,
      Value.same]
    rw [filter_eq_singleton (f := fun e : NodeId × Block => e.2.label.key) hkeys he]
    rfl
  rw [Content.block, hlists]
  exact congrArg (Block.mk e.2.label none) (Attributes.empty_update _)

theorem marks_contentOf (hg : g.WellFormed) (v : Value) : (contentOf g).Marks v ↔
    ∃ e ∈ g.nodes, e.2.label.key = v.key ∧ SaysEntry (shownAttributes g [] e.1 e.2) := by
  rw [Content.Marks, firsts_contentOf hg]
  constructor
  · rintro (⟨m, hm, -, htrue⟩ | ⟨l, hl, hk, htrue⟩)
    · obtain ⟨e, -, rfl⟩ := List.mem_map.1 hm
      cases htrue.contains
    · obtain ⟨e, he, rfl⟩ := List.mem_map.1 hl
      exact ⟨e, he, hk, htrue⟩
  · rintro ⟨e, he, hk, htrue⟩
    exact .inr ⟨_, List.mem_map_of_mem he, hk, htrue⟩

/-! ## What is read -/

/-- The attributes name the word `entry` as the label. -/
def LabelledEntry (a : Attributes) : Prop :=
  ∃ v, a.get? (.text "label") = some v ∧ v.same (.text "entry") = true

instance (a : Attributes) : Decidable (LabelledEntry a) :=
  inferInstanceAs (Decidable (∃ v, v ∈ a.get? (.text "label") ∧ _))

/-- The entry node of a graph can be told from its text: no other node says that it is the entry,
nor has it the label `entry` where the entry node does not say so. -/
structure EntryShows (g : FlowGraph) (n : NodeId) : Prop where
  entry : g.entry = some n
  marks : ∀ e ∈ g.nodes, e.1 ≠ n → ¬ SaysEntry e.2.attributes
  labels : ∀ e ∈ g.nodes, e.1 ≠ n → LabelledEntry e.2.attributes →
    g.ids.head? ≠ some n ∨ ∃ b, g.block? n = some b ∧ SaysEntry b.attributes

instance (g : FlowGraph) (n : NodeId) : Decidable (EntryShows g n) :=
  decidable_of_iff
    (g.entry = some n ∧ (∀ e ∈ g.nodes, e.1 ≠ n → ¬ SaysEntry e.2.attributes) ∧
      ∀ e ∈ g.nodes, e.1 ≠ n → LabelledEntry e.2.attributes →
        g.ids.head? ≠ some n ∨ ∃ b, b ∈ g.block? n ∧ SaysEntry b.attributes)
    ⟨fun h => ⟨h.1, h.2.1, h.2.2⟩, fun h => ⟨h.entry, h.marks, h.labels⟩⟩

namespace Draft.Follows

variable {d : Draft} {name : Option Value} {x : Account} {n : NodeId}

theorem blocks_of_written (hd : d.Follows name x) (hx : x.content = contentOf g)
    (hg : g.WellFormed) : d.graph.nodes.map (·.2) =
      g.nodes.map fun e => ⟨e.2.label, none, shownAttributes g [] e.1 e.2⟩ := by
  rw [hd.depicts.blocks, hx, firsts_contentOf hg, List.map_map]
  exact List.map_congr_left fun e he => block_contentOf hg he

theorem labels_of_written (hd : d.Follows name x) (hx : x.content = contentOf g)
    (hg : g.WellFormed) : d.graph.labels = g.labels := by
  have hmap := congrArg (List.map Block.label) (hd.blocks_of_written hx hg)
  rw [List.map_map, List.map_map] at hmap
  exact hmap

/-- Every node of a draft that follows what is written comes from a node with its label. -/
theorem node_of_written (hd : d.Follows name x) (hx : x.content = contentOf g)
    (hg : g.WellFormed) {e : NodeId × Block} (he : e ∈ d.graph.nodes) :
    ∃ f ∈ g.nodes, e.2.label = f.2.label ∧ e.2.attributes = shownAttributes g [] f.1 f.2 := by
  have hmem : e.2 ∈ d.graph.nodes.map (·.2) := List.mem_map_of_mem he
  rw [hd.blocks_of_written hx hg] at hmem
  obtain ⟨f, hf, heq⟩ := List.mem_map.1 hmem
  exact ⟨f, hf, by rw [← heq], by rw [← heq]⟩

theorem marks_of_written (hd : d.Follows name x) (hx : x.content = contentOf g)
    (hg : g.WellFormed) (hn : EntryShows g n) {b : Block} (hb : (n, b) ∈ g.nodes) {m k : NodeId}
    (hm : d.graph.find? b.label = some m) :
    k ∈ d.marks.map (·.1) ↔ k = m ∧ SaysEntry (shownAttributes g [] n b) := by
  have hkey := FlowGraph.key_of_find hd.wellFormed hm
  rw [hd.mem_marks, hx, marks_contentOf hg]
  constructor
  · rintro ⟨hk, f, hf, hlabel, htrue⟩
    by_cases hfn : f.1 = n
    · have hfb : f = (n, b) := List.inj_on_of_nodup_map hg.ids_nodup hf hb hfn
      subst hfb
      exact ⟨hd.wellFormed.eq_of_key hk (FlowGraph.mem_of_find hm) (by rw [hkey, hlabel]), htrue⟩
    · rw [shownAttributes_nil, hn.entry, if_neg fun h => hfn (Option.some.inj h.1).symm] at htrue
      exact absurd htrue (hn.marks f hf hfn)
  · rintro ⟨rfl, htrue⟩
    exact ⟨FlowGraph.mem_of_find hm, (n, b), hb, hkey.symm, htrue⟩

theorem head?_of_unmarked (hn : EntryShows g n) {b : Block}
    (htrue : ¬ SaysEntry (shownAttributes g [] n b)) : g.ids.head? = some n := by
  by_contra hlater
  rw [shownAttributes_nil, if_pos ⟨hn.entry, hlater⟩] at htrue
  exact htrue (saysEntry_set _)

/-- If the entry node is written without a mark, no other node is labelled `entry`. -/
theorem labelled_of_written (hd : d.Follows name x) (hx : x.content = contentOf g)
    (hg : g.WellFormed) (hn : EntryShows g n) {b : Block} (hb : (n, b) ∈ g.nodes) {m : NodeId}
    (hm : d.graph.find? b.label = some m) (htrue : ¬ SaysEntry (shownAttributes g [] n b)) :
    ∀ e ∈ labelledEntry d.graph, e.1 = m := by
  intro e he
  have hfirst := head?_of_unmarked hn htrue
  obtain ⟨hnode, hentry⟩ := List.mem_filter.1 he
  obtain ⟨f, hf, hlabel, hattributes⟩ := hd.node_of_written hx hg hnode
  by_cases hfn : f.1 = n
  · have hfb : f = (n, b) := List.inj_on_of_nodup_map hg.ids_nodup hf hb hfn
    refine hd.wellFormed.eq_of_key (List.mem_map_of_mem hnode) (FlowGraph.mem_of_find hm) ?_
    rw [hd.wellFormed.label_eq hnode, hlabel, hfb, FlowGraph.key_of_find hd.wellFormed hm]
  · rw [hattributes, shownAttributes_nil, hn.entry,
      if_neg fun h => hfn (Option.some.inj h.1).symm, Option.any_eq_true] at hentry
    rcases hn.labels f hf hfn hentry with hlater | ⟨b', hb', hmarked⟩
    · exact absurd hfirst hlater
    · rw [hg.block_eq hb] at hb'
      cases hb'
      rw [shownAttributes_nil, if_neg fun h => h.2 hfirst] at htrue
      exact absurd hmarked htrue

theorem settleEntry_of_written (hd : d.Follows name x) (hx : x.content = contentOf g)
    (hg : g.WellFormed) (hn : EntryShows g n) (l : Location) :
    ∃ m, d.graph.find? (g.label n) = some m ∧
      d.settleEntry l = .ok { d.graph with entry := some m } := by
  have hlabels := hd.labels_of_written hx hg
  obtain ⟨⟨n, b⟩, hb, rfl⟩ := List.mem_map.1 (hg.entry_mem n hn.entry)
  have hmem : b.label ∈ d.graph.labels := by
    rw [hlabels]
    exact List.mem_map_of_mem hb
  simp only at hn ⊢
  rw [hg.label_eq hb]
  cases hm : d.graph.find? b.label with
  | none => exact absurd (List.mem_map_of_mem hmem) (FlowGraph.find?_eq_none.1 hm)
  | some m =>
    refine ⟨m, rfl, ?_⟩
    have hmarks := fun k => hd.marks_of_written hx hg hn hb hm (k := k)
    by_cases htrue : SaysEntry (shownAttributes g [] n b)
    · refine settleEntry_of_marks (List.perm_singleton.1 ?_)
      refine (List.perm_ext_iff_of_nodup hd.marks_nodup (List.nodup_singleton m)).2 fun k => ?_
      rw [hmarks, List.mem_singleton, and_iff_left htrue]
    · have hnone : d.marks.map (·.1) = [] :=
        List.eq_nil_iff_forall_not_mem.2 fun k hk => htrue ((hmarks k).1 hk).2
      refine settleEntry_of_labels hd.wellFormed (List.map_eq_nil_iff.1 hnone)
        (hd.labelled_of_written hx hg hn hb hm htrue) fun _ => ?_
      have hlabel : d.graph.label m = g.label n := by
        rw [hg.label_eq hb, FlowGraph.label_of_find hd.wellFormed hmem hm]
      rw [hd.entry]
      exact (FlowGraph.head?_iff hg hd.wellFormed hlabels (List.mem_map_of_mem hb)
        (FlowGraph.mem_of_find hm) hlabel).2 (head?_of_unmarked hn htrue)

end Draft.Follows

theorem Draft.Follows.rereads {d : Draft} {x : Account} {n m : NodeId} (hd : d.Follows g.name x)
    (hx : x.content = contentOf g) (hg : g.WellFormed) (hentry : g.entry = some n)
    (hm : d.graph.find? (g.label n) = some m) :
    g.Rereads { d.graph with entry := some m } := by
  have hlabels := hd.labels_of_written hx hg
  have hmem : ∀ k ∈ g.ids, g.label k ∈ d.graph.labels := by
    intro k hk
    rw [hlabels, hg.labels_eq]
    exact List.mem_map_of_mem hk
  have hends : ∀ e ∈ x.content.edges, e.1 ∈ d.graph.labels ∧ e.2.1 ∈ d.graph.labels := by
    rw [hx]
    intro e he
    obtain ⟨e', he', rfl⟩ := List.mem_map.1 he
    have hclosed := hg.closed e' (FlowGraph.edgeList_subset he')
    exact ⟨hmem _ hclosed.1, hmem _ hclosed.2⟩
  have hedges := hd.depicts.map_labelledEdge hd.wellFormed hends
  rw [hx] at hedges
  have hlabel := FlowGraph.label_of_find hd.wellFormed (hmem n (hg.entry_mem n hentry)) hm
  refine ⟨hd.name_eq, ?_, ?_, ?_, ?_⟩
  · calc d.graph.attributes
        = (g.attributes.entries.map fun e => .ofList [e]).foldl .update ∅ := by
          rw [hd.depicts.attributes, hx]
          rfl
      _ = .ofList g.attributes.entries := by
          rw [List.foldl_map]
          rfl
      _ = g.attributes := Attributes.ofList_entries _
  · have hblocks := congrArg (List.map fun b => (b.label, b.attributes))
      (hd.blocks_of_written hx hg)
    simp only [List.map_map, Function.comp_def, shownAttributes_nil] at hblocks
    exact hblocks
  · have hlist := FlowGraph.edgeList_of_edges hg hd.wellFormed hlabels hedges
    exact hlist
  · rw [hentry]
    exact congrArg some hlabel

theorem parse_rereads {n : NodeId} (hg : g.WellFormed) (hw : WritableGraph g) (hn : EntryShows g n)
    (limit : Nat) (file : Option String) (tag : Nat) :
    ∃ h, parse limit file (write g) tag = .ok h ∧ h.WellFormed ∧ g.Rereads h := by
  obtain ⟨ts, l, b, hlex, hb, hcontent, hdepth⟩ := lex_write hg hw file
  have hunroll : (lex file (write g)).unroll = (ts ++ [endToken l], none) := by
    rw [hlex, Stream.unroll_append_done]
  have hdescription : IsDescription g.name b (lex file (write g)).unroll.1 := by
    rw [hunroll]
    exact hb
  have hroom : b.depth ≤ limit := hdepth ▸ Nat.zero_le limit
  have hx : (accountOf limit file (write g)).content = contentOf g := by
    rw [accountOf_description (by rw [hunroll]) hdescription hroom, hcontent, sum_writtenLines]
  obtain ⟨l', hread⟩ := read_description (by rw [hunroll]) hdescription
  rcases parse_spec limit file (write g) tag with
    ⟨hclash, -⟩ | ⟨-, ⟨hdeep, -⟩ | ⟨-, ⟨e, ho, -⟩ | ⟨l, d, -, -, hd, hparse⟩⟩⟩
  · exact absurd (hx ▸ hclash) (contentOf_clear hg)
  · rw [depthOf_description (by rw [hunroll]) hdescription] at hdeep
    exact absurd hroom (Nat.not_le.2 hdeep)
  · rw [hread] at ho
    cases ho
  · rw [hread] at hd
    obtain ⟨m, hm, hsettle⟩ := hd.settleEntry_of_written hx hg hn l
    have hrereads := hd.rereads hx hg hn.entry hm
    have hwf : FlowGraph.WellFormed { d.graph with entry := some m } :=
      hd.wellFormed.setEntry (FlowGraph.mem_of_find hm)
    refine ⟨_, ?_, hwf, hrereads⟩
    rw [hparse, hsettle]
    rfl

/-- The text of a graph that can be written, and whose entry can be told, is read as this graph, and
written again it is the same text. -/
theorem parse_write {n : NodeId} (hg : g.WellFormed) (hw : WritableGraph g) (hn : EntryShows g n)
    (limit : Nat) (file : Option String) (tag : Nat) :
    ∃ h, parse limit file (write g) tag = .ok h ∧ g.Rereads h ∧ write h = write g := by
  obtain ⟨h, hparse, hh, hrereads⟩ := parse_rereads hg hw hn limit file tag
  exact ⟨h, hparse, hrereads, hrereads.write_eq hg hh⟩

/-- A loop and a way out of it, written before the entry. -/
def lateEntrySketch : Sketch where
  name := some (.text "a loop")
  attributes := .ofList [(.text "rankdir", .text "LR")]
  nodes := [(.text "exit", .ofList [(.text "label", .html "<<b>left</b>>")]), (.text "Node", ∅)]
  edges := [(.text "Node", .text "Node", .ofList [(.text "label", .text "say \"again\"")]),
    (.text "Node", .text "exit", ∅)]
  entry := some (.text "Node")

def lateEntry : FlowGraph := (lateEntrySketch.draw 0).toOption.getD default

theorem lateEntry_wellFormed : lateEntry.WellFormed := by
  unfold lateEntry
  cases h : lateEntrySketch.draw 0 with
  | error f => exact FlowGraph.WellFormed.empty none 0 ∅
  | ok g => exact Sketch.draw_wellFormed h

theorem parse_write_lateEntry :
    lateEntry.WellFormed ∧ WritableGraph lateEntry ∧ EntryShows lateEntry ⟨0, 2⟩ ∧
      ∃ h, parse 100 none (write lateEntry) 0 = .ok h ∧ lateEntry.Rereads h ∧
        write h = write lateEntry := by
  have hw : WritableGraph lateEntry := by decide +kernel
  have hn : EntryShows lateEntry ⟨0, 2⟩ := by decide +kernel
  exact ⟨lateEntry_wellFormed, hw, hn, parse_write lateEntry_wellFormed hw hn 100 none 0⟩

end Dot

end Structuring
