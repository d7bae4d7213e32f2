import Structuring.Proofs.Reduction.Reducibility

/-!
# Copies of a graph

* `FlowGraph.IsCopy` — the same graph up to the names of its nodes: labels, links and entry agree.
* `IsCopy.isQuotient` — a copy is a quotient, each of whose regions is a single node. So it is valid or
  reducible exactly if the graph is.
* `FlowGraph.entered` — a graph with its first node as the entry, where it has none.
* `FlowGraph.Copies`, `copy_spec` — what copying makes, node by node and edge by edge.
* `FlowGraph.copy_isCopy` — copying a graph with an entry succeeds and makes a copy.
-/

namespace Structuring

open Relation

namespace FlowGraph

/-- `h` is `g` with the node `φ v` for each node `v`. -/
structure IsCopy (g h : FlowGraph) (φ : NodeId → NodeId) : Prop where
  injOn : ∀ u ∈ g.ids, ∀ v ∈ g.ids, φ u = φ v → u = v
  ids : h.ids.Perm (g.ids.map φ)
  label_eq : ∀ v ∈ g.ids, h.label (φ v) = g.label v
  links : h.links = g.links.map (Link.map φ)
  entry : h.entry = g.entry.map φ

variable {g h : FlowGraph} {root u v n : NodeId} {φ : NodeId → NodeId}

namespace IsCopy

theorem size_eq (hc : IsCopy g h φ) : h.size = g.size := by
  rw [← Digraph.length_ids, hc.ids.length_eq, List.length_map, Digraph.length_ids]

theorem leads_iff (hc : IsCopy g h φ) {a b : NodeId} :
    h.Leads a b ↔ ∃ u v, g.Leads u v ∧ φ u = a ∧ φ v = b := by
  simp only [Digraph.leads_iff, hc.links, Multiset.mem_map]
  constructor
  · rintro ⟨x, ⟨s, t, y⟩, hl, heq⟩
    cases heq
    exact ⟨s, t, ⟨y, hl⟩, rfl, rfl⟩
  · rintro ⟨u, v, ⟨x, hx⟩, rfl, rfl⟩
    exact ⟨x, _, hx, rfl⟩

theorem isQuotient (hc : IsCopy g h φ) (hg : g.WellFormed) (hroot : g.Rooted root) :
    IsQuotient g root h φ where
  maps v hv := hc.ids.mem_iff.2 (List.mem_map_of_mem hv)
  head n hn := by
    obtain ⟨v, hv, rfl⟩ := List.mem_map.1 (hc.ids.mem_iff.1 hn)
    refine ⟨v, hv, (hc.label_eq v hv).symm, rfl, fun w hw hwv => ?_, fun u w huw _ hwv => ?_⟩
    · rw [hc.injOn w hw v hv hwv]
      exact dominates_self
    · exact hc.injOn w (hg.closed.mem huw).2 v hv hwv
  leads_iff _ _ _ := hc.leads_iff
  entry_eq := by rw [hc.entry, hroot.1, Option.map_some]
  label_entry := hc.label_eq root (hg.entry_mem root hroot.1)

theorem isReducible_iff (hc : IsCopy g h φ) (hg : g.WellFormed) (hh : h.WellFormed)
    (hroot : g.Rooted root) : h.IsReducible ↔ g.IsReducible := by
  have hq := hc.isQuotient hg hroot
  rw [hroot.isReducible_iff, (hq.rooted hroot).isReducible_iff]
  refine ⟨fun hred => hq.reducible_of hg hroot hred (fun _ => 0) fun u v huv heq => ?_,
    hq.reducible hg hroot hh.closed⟩
  obtain ⟨hu, hv⟩ := hg.closed.mem huv.1
  exact absurd (hc.injOn u hu v hv heq) huv.ne

theorem leads_map_iff (hc : IsCopy g h φ) (hg : g.WellFormed) (hu : u ∈ g.ids) (hv : v ∈ g.ids) :
    h.Leads (φ u) (φ v) ↔ g.Leads u v := by
  refine hc.leads_iff.trans ⟨?_, fun huv => ⟨u, v, huv, rfl, rfl⟩⟩
  rintro ⟨x, y, hxy, hxu, hyv⟩
  obtain ⟨hx, hy⟩ := hg.closed.mem hxy
  rwa [← hc.injOn x hx u hu hxu, ← hc.injOn y hy v hv hyv]

theorem isLimit_iff (hc : IsCopy g h φ) (hg : g.WellFormed) (hh : h.WellFormed)
    (hroot : g.Rooted root) : h.IsLimit ↔ g.IsLimit := by
  have hroot' := (hc.isQuotient hg hroot).rooted hroot
  have hmem := hg.entry_mem root hroot.1
  rw [FlowGraph.isLimit_iff hg hroot, FlowGraph.isLimit_iff hh hroot']
  constructor
  · rintro hnone u v ⟨hne, hlead, hsole⟩
    obtain ⟨hu, hv⟩ := hg.closed.mem hlead
    refine hnone (φ u) (φ v) ⟨fun heq => hne (hc.injOn v hv root hmem heq),
      (hc.leads_map_iff hg hu hv).2 hlead, fun w hw => ?_⟩
    obtain ⟨x, y, hxy, rfl, hyv⟩ := hc.leads_iff.1 hw
    rw [hsole x (hc.injOn y (hg.closed.mem hxy).2 v hv hyv ▸ hxy)]
  · rintro hnone a b ⟨hne, hlead, hsole⟩
    obtain ⟨u, v, huv, rfl, rfl⟩ := hc.leads_iff.1 hlead
    obtain ⟨hu, hv⟩ := hg.closed.mem huv
    refine hnone u v ⟨fun heq => hne (congrArg φ heq), huv, fun w hw => ?_⟩
    have hwm := (hg.closed.mem hw).1
    exact hc.injOn w hwm u hu (hsole _ ((hc.leads_map_iff hg hwm hv).2 hw))

end IsCopy

/-! ## Copying -/

variable {into : FlowGraph} {pairs : List (NodeId × NodeId)}

/-- The nodes of a copy have the blocks of the nodes that are copied, without their names. -/
theorem copyNodes_eq (into : FlowGraph) (es : List (NodeId × Block)) :
    copyNodes into es = (into.newNodes (es.map fun e => { e.2 with name := none })).map
      fun r => ((es.map (·.1)).zip r.1, r.2) := by
  induction es generalizing into with
  | nil => rfl
  | cons e es ih =>
    simp only [copyNodes, List.map_cons, newNodes]
    rcases into.newNode { e.2 with name := none } with ⟨err | n, into'⟩
    · rfl
    · simp only [ih]
      cases into'.newNodes (es.map fun e => { e.2 with name := none }) <;> rfl

/-- The counterpart of a node in a list of pairs. -/
theorem counterpart_zip {vs ns : List NodeId} (hvs : vs.Nodup) {i : Nat} (hi : i < vs.length)
    (hi' : i < ns.length) : counterpart (vs.zip ns) vs[i] = .ok ns[i] := by
  have hfind : (vs.zip ns).find? (fun p => p.1 = vs[i]) = some (vs[i], ns[i]) := by
    refine List.find?_eq_some_iff_getElem.2 ⟨by simp, i, by simp [hi, hi'], by simp, fun j hj => ?_⟩
    have hne : ¬ vs[j] = vs[i] := fun heq => Nat.ne_of_lt hj ((hvs.getElem_inj_iff).1 heq)
    simpa using hne
  rw [counterpart, hfind]

/-- The first new node becomes the entry of a graph that has none. -/
theorem newNodes_frame {g h : FlowGraph} {bs : List Block} {ns : List NodeId}
    (hrun : g.newNodes bs = .ok (ns, h)) :
    h.name = g.name ∧ h.attributes = g.attributes ∧ h.entry = g.entry.orElse fun _ => ns.head? := by
  induction bs generalizing g ns with
  | nil =>
    cases hrun
    exact ⟨rfl, rfl, by cases h.entry <;> rfl⟩
  | cons b bs ih =>
    rw [newNodes] at hrun
    obtain ⟨e, hnode⟩ | hnode := g.newNode_cases b
    · rw [hnode] at hrun
      cases hrun
    · rw [hnode] at hrun
      obtain ⟨⟨ns', h'⟩, hrest, heq⟩ := map_eq_ok hrun
      cases heq
      obtain ⟨hname, hattributes, hentry⟩ := ih hrest
      refine ⟨hname, hattributes, hentry.trans ?_⟩
      cases g.entry <;> rfl

/-- The edges of a copy come behind those that are there, in order, between the counterparts of the
ends. Nothing else changes. -/
theorem copyEdges_spec (hinto : into.WellFormed) {es : List Edge}
    (hsource : ∀ e ∈ es, counterpart pairs e.source = .ok (φ e.source) ∧ φ e.source ∈ into.ids)
    (htarget : ∀ e ∈ es, counterpart pairs e.target = .ok (φ e.target) ∧ φ e.target ∈ into.ids) :
    ∃ d : Digraph Block, copyEdges pairs into es = .ok { into with toDigraph := d } ∧
      ({ into with toDigraph := d } : FlowGraph).WellFormed ∧ d.nodes = into.nodes ∧
      d.edges.map Edge.link = into.edges.map Edge.link ++ es.map fun e => e.link.map φ := by
  induction es generalizing into with
  | nil => exact ⟨into.toDigraph, rfl, hinto, rfl, by simp⟩
  | cons e es ih =>
    obtain ⟨hs, hsmem⟩ := hsource e List.mem_cons_self
    obtain ⟨ht, htmem⟩ := htarget e List.mem_cons_self
    have hrun := WellFormed.addEdge_eq hsmem htmem e.attributes
    obtain ⟨d, hd, hwf, hnodes, hedges⟩ := ih (hinto.addEdge hrun)
      (fun e he => hsource e (List.mem_cons_of_mem _ he))
      (fun e he => htarget e (List.mem_cons_of_mem _ he))
    refine ⟨d, ?_, hwf, hnodes, ?_⟩
    · rw [copyEdges, hs, ht]
      simp only [bind, Except.bind, hrun, hd]
    · rw [hedges, List.map_append, List.map_cons, List.append_assoc]
      rfl

theorem edgeList_perm (hg : g.WellFormed) : g.edgeList.Perm g.edges := by
  refine (flatMap_filter_perm Edge.source hg.ids_nodup g.edges).trans ?_
  rw [List.filter_eq_self.2 fun e he => decide_eq_true (hg.closed e he).1]

def copied (pairs : List (NodeId × NodeId)) (v : NodeId) : NodeId :=
  (counterpart pairs v).toOption.getD v

def entered (g : FlowGraph) : FlowGraph := { g with entry := g.entry.orElse fun _ => g.ids.head? }

theorem entered_eq (hentry : g.entry = none → g.nodes = []) : g.entered = g := by
  have hsame : (g.entry.orElse fun _ => g.ids.head?) = g.entry := by
    cases hroot : g.entry with
    | none =>
      rw [Digraph.ids, hentry hroot]
      rfl
    | some root => rfl
  rw [entered, hsame]

theorem entered_of_entry (hroot : g.entry = some root) : g.entered = g := by
  refine entered_eq fun hnone => ?_
  rw [hroot] at hnone
  cases hnone

/-- `h` is `g` made anew, with the node `φ v` for each node `v`: nodes and edges come in the order
in which `g` lists them. -/
structure Copies (g h : FlowGraph) (φ : NodeId → NodeId) : Prop where
  wellFormed : h.WellFormed
  ids : h.ids = g.ids.map φ
  blocks : h.nodes.map (·.2) = g.nodes.map fun e => { e.2 with name := none }
  edges : h.edges.map Edge.link = g.edgeList.map fun e => e.link.map φ
  entry : h.entry = g.entered.entry.map φ
  name : h.name = g.name
  attributes : h.attributes = g.attributes

namespace Copies

theorem labels (hc : Copies g h φ) : h.labels = g.labels := by
  have hblocks := congrArg (List.map Block.label) hc.blocks
  rwa [List.map_map, List.map_map] at hblocks

theorem injOn (hc : Copies g h φ) : ∀ u ∈ g.ids, ∀ v ∈ g.ids, φ u = φ v → u = v := by
  have hnd := hc.wellFormed.ids_nodup
  rw [hc.ids] at hnd
  exact fun u hu v hv => List.inj_on_of_nodup_map hnd hu hv

theorem label_eq (hc : Copies g h φ) (hg : g.WellFormed) :
    ∀ v ∈ g.ids, h.label (φ v) = g.label v := by
  have hlabels := hc.labels
  rw [hg.labels_eq, hc.wellFormed.labels_eq, hc.ids, List.map_map] at hlabels
  exact List.map_inj_left.1 hlabels

theorem isCopy (hc : Copies g h φ) (hg : g.WellFormed) : IsCopy g.entered h φ where
  injOn := hc.injOn
  ids := .of_eq hc.ids
  label_eq := hc.label_eq hg
  links := by
    rw [Digraph.links, Digraph.links, hc.edges, Multiset.map_coe, List.map_map]
    exact Multiset.coe_eq_coe.2 ((edgeList_perm hg).map _)
  entry := hc.entry

end Copies

theorem copyNodes_spec (hg : g.WellFormed) (tag : Nat) :
    ∃ pairs into, copyNodes { empty g.name tag with attributes := g.attributes } g.nodes =
        .ok (pairs, into) ∧ (∀ v ∈ g.ids, counterpart pairs v = .ok (copied pairs v)) ∧
      into.edges = [] ∧
      Copies { g with edges := [], entry := none } into (copied pairs) := by
  let bs : List Block := g.nodes.map fun e => { e.2 with name := none }
  have hbs : bs.map (·.label) = g.labels := List.map_map
  obtain ⟨ns, into, hrun, hadds⟩ := (WellFormed.empty g.name tag g.attributes).newNodes_eq bs
    (by rw [hbs]; exact hg.labels)
  obtain ⟨hname, hattributes, hentry⟩ := newNodes_frame hrun
  have hlen : ns.length = g.ids.length := by simp [hadds.length_eq, bs, Digraph.ids]
  have hnodes : into.nodes = ns.zip bs := hadds.nodes
  have hids : into.ids = ns := by
    rw [Digraph.ids, hnodes, List.map_fst_zip (Nat.le_of_eq hadds.length_eq)]
  have hcounter : ∀ (i : Nat) (hi : i < g.ids.length) (hi' : i < ns.length),
      counterpart (g.ids.zip ns) g.ids[i] = .ok ns[i] := fun i hi hi' =>
    counterpart_zip hg.ids_nodup hi hi'
  have hcopied : ns = g.ids.map (copied (g.ids.zip ns)) := by
    refine List.ext_getElem (by rw [List.length_map, hlen]) fun i hi _ => ?_
    rw [List.getElem_map, copied, hcounter i (hlen ▸ hi) hi]
    rfl
  refine ⟨g.ids.zip ns, into, ?_, fun v hv => ?_, hadds.edges, hadds.wellFormed,
    hids.trans hcopied, ?_, ?_, ?_, hname, hattributes⟩
  · rw [copyNodes_eq, hrun]
    rfl
  · obtain ⟨i, hi, rfl⟩ := List.getElem_of_mem hv
    rw [copied, hcounter i hi (hlen ▸ hi)]
    rfl
  · rw [hnodes, List.map_snd_zip (Nat.le_of_eq hadds.length_eq.symm)]
  · rw [hadds.edges]
    simp [Digraph.edgeList, Digraph.outEdges, empty, Digraph.empty]
  · have hhead := congrArg List.head? hcopied
    rw [List.head?_map] at hhead
    rw [hentry]
    exact hhead

theorem copy_spec (hg : g.WellFormed) (tag : Nat) : ∃ h φ, g.copy tag = .ok h ∧ Copies g h φ := by
  obtain ⟨pairs, into, hrun, hcounter, hnone, hnodes⟩ := copyNodes_spec hg tag
  have hmem : ∀ v ∈ g.ids, copied pairs v ∈ into.ids := fun v hv =>
    hnodes.ids ▸ List.mem_map_of_mem hv
  have hends : ∀ e ∈ g.edgeList, e.source ∈ g.ids ∧ e.target ∈ g.ids := fun e he =>
    hg.closed e ((edgeList_perm hg).mem_iff.1 he)
  obtain ⟨d, hd, hdwf, hdnodes, hedges⟩ := copyEdges_spec (φ := copied pairs) hnodes.wellFormed
    (fun e he => ⟨hcounter _ (hends e he).1, hmem _ (hends e he).1⟩)
    (fun e he => ⟨hcounter _ (hends e he).2, hmem _ (hends e he).2⟩)
  rw [hnone, List.map_nil, List.nil_append] at hedges
  have hdids : d.ids = into.ids := congrArg (List.map Prod.fst) hdnodes
  have hids : d.ids = g.ids.map (copied pairs) := hdids.trans hnodes.ids
  have hblocks : d.nodes.map (·.2) = g.nodes.map fun e => { e.2 with name := none } :=
    (congrArg (List.map Prod.snd) hdnodes).trans hnodes.blocks
  cases hroot : g.entry with
  | none =>
    refine ⟨{ into with toDigraph := d }, copied pairs, ?_, hdwf, hids, hblocks, hedges, ?_,
      hnodes.name, hnodes.attributes⟩
    · simp only [copy, hrun, hd, hroot, bind, Except.bind]
      rfl
    · rw [entered, hroot]
      exact hnodes.entry
  | some root =>
    have hroot_mem := hg.entry_mem root hroot
    refine ⟨{ into with toDigraph := d, entry := some (copied pairs root) }, copied pairs, ?_,
      hdwf.setEntry (hdids ▸ hmem root hroot_mem), hids, hblocks, hedges, ?_,
      hnodes.name, hnodes.attributes⟩
    · simp only [copy, hrun, hd, hroot, bind, Except.bind, hcounter root hroot_mem]
      rfl
    · rw [entered, hroot]
      rfl

theorem copy_isCopy (hg : g.WellFormed) (hroot : g.entry = some root) (tag : Nat) :
    ∃ h φ, g.copy tag = .ok h ∧ h.WellFormed ∧ IsCopy g h φ := by
  obtain ⟨h, φ, hrun, hc⟩ := copy_spec hg tag
  refine ⟨h, φ, hrun, hc.wellFormed, ?_⟩
  have hcopy := hc.isCopy hg
  rwa [entered_of_entry hroot] at hcopy

end FlowGraph

end Structuring
