import Structuring.Proofs.Dot.RoundTrip
import Structuring.Proofs.Graph.Redrawing

/-!
# Intervals are read back as graphs

An interval is written as a description of its own. What is read from it is the part of the graph
inside the interval, with the header as the entry, and it passes validation.

* `Interval.Coheres` — the members can be reached from the header inside the interval.
* `Interval.graph` — an interval as a graph; its text is that of the interval.
* `FlowGraph.Rereads.rooted` — a graph that passes validation still does when it is read again.
* `FlowGraph.intervals_are_reread` — the statement for the intervals of a valid graph.
-/

namespace Structuring

open Relation

/-! ## An interval as a graph -/

namespace Interval

variable {g : FlowGraph} {i : Interval} {name : Option Value} {n : NodeId}

/-- The edges among the members, grouped by their sources. -/
def edges (i : Interval) (g : FlowGraph) : List Edge :=
  i.members.flatMap fun n => (g.outEdges n).filter fun e => i.members.contains e.target

def shownAttributes (i : Interval) (g : FlowGraph) (n : NodeId) : Attributes :=
  let a := ((g.block? n).map (·.attributes)).getD ∅
  if n = i.header then a.set (.text "entry") (.text "true") else a

def graph (i : Interval) (g : FlowGraph) (name : Option Value) : FlowGraph where
  tag := g.tag
  nodes := i.members.map fun n => (n, ⟨g.label n, none, i.shownAttributes g n⟩)
  edges := i.edges g
  lastNode := g.lastNode
  lastEdge := g.lastEdge
  generation := g.generation
  name := name
  attributes := ∅
  entry := some i.header

/-- The members are nodes of the graph, each listed once and the header first, and can be reached
from the header without leaving the interval. -/
structure Coheres (i : Interval) (g : FlowGraph) : Prop where
  mem_ids : ∀ v ∈ i.members, v ∈ g.ids
  nodup : i.members.Nodup
  head : i.members.head? = some i.header
  reach : ∀ v ∈ i.members, ReflTransGen (g.LeadsWithin i.members) i.header v

theorem mem_edges {e : Edge} :
    e ∈ i.edges g ↔ e ∈ g.edges ∧ e.source ∈ i.members ∧ e.target ∈ i.members := by
  simp only [edges, List.mem_flatMap, List.mem_filter, Digraph.mem_outEdges, List.contains_iff_mem]
  constructor
  · rintro ⟨n, hn, ⟨he, rfl⟩, ht⟩
    exact ⟨he, hn, ht⟩
  · rintro ⟨he, hs, ht⟩
    exact ⟨_, hs, ⟨he, rfl⟩, ht⟩

theorem ids_graph : (i.graph g name).ids = i.members :=
  List.map_map.trans (List.map_id _)

theorem block_graph (hn : n ∈ i.members) :
    (n, ⟨g.label n, none, i.shownAttributes g n⟩) ∈ (i.graph g name).nodes :=
  List.mem_map_of_mem (f := fun n => (n, (⟨g.label n, none, i.shownAttributes g n⟩ : Block))) hn

theorem edges_perm (hnodup : i.members.Nodup) :
    (i.edges g).Perm ((g.edges.filter fun e => i.members.contains e.target).filter fun e =>
      e.source ∈ i.members) := by
  have hgroups : i.edges g = i.members.flatMap fun n =>
      (g.edges.filter fun e => i.members.contains e.target).filter fun e => e.source = n := by
    refine List.flatMap_congr fun n _ => ?_
    rw [Digraph.outEdges, List.filter_filter, List.filter_filter]
    exact List.filter_congr fun e _ => Bool.and_comm _ _
  rw [hgroups]
  exact flatMap_filter_perm Edge.source hnodup _

namespace Coheres

theorem header_mem (hi : i.Coheres g) : i.header ∈ i.members := List.mem_of_head? hi.head

theorem wellFormed (hi : i.Coheres g) (hg : g.WellFormed) (name : Option Value) :
    (i.graph g name).WellFormed where
  serials := by
    rw [ids_graph]
    refine hi.nodup.map_on fun u hu v hv heq => ?_
    exact List.inj_on_of_nodup_map hg.serials (hi.mem_ids u hu) (hi.mem_ids v hv) heq
  serial_le n hn := hg.serial_le n (hi.mem_ids n (ids_graph ▸ hn))
  labels := by
    have hlabels : (i.graph g name).labels = i.members.map g.label := List.map_map
    rw [hlabels, List.map_map]
    exact hi.nodup.map_on fun u hu v hv heq => hg.eq_of_key (hi.mem_ids u hu) (hi.mem_ids v hv) heq
  edges := by
    refine ((edges_perm hi.nodup).map _).nodup_iff.2 ?_
    exact hg.edges.sublist ((List.filter_sublist.trans List.filter_sublist).map _)
  edge_le e he := hg.edge_le e (mem_edges.1 he).1
  closed e he := by
    rw [ids_graph]
    exact (mem_edges.1 he).2
  entry_mem n hn := by
    obtain rfl := Option.some.inj hn
    rw [ids_graph]
    exact hi.header_mem

theorem label_eq (hi : i.Coheres g) (hg : g.WellFormed) (hn : n ∈ i.members) :
    (i.graph g name).label n = g.label n :=
  (hi.wellFormed hg name).label_eq (block_graph hn)

theorem edgeList_eq (hi : i.Coheres g) : (i.graph g name).edgeList = i.edges g := by
  rw [Digraph.edgeList, ids_graph]
  refine List.flatMap_congr fun n hn => ?_
  refine FlowGraph.filter_flatMap_source hi.nodup (fun u e he => ?_) hn
  exact (Digraph.mem_outEdges.1 (List.mem_of_mem_filter he)).2

theorem labelledEdge_eq (hi : i.Coheres g) (hg : g.WellFormed) {e : Edge} (he : e ∈ i.edges g) :
    (i.graph g name).labelledEdge e = g.labelledEdge e := by
  obtain ⟨-, hs, ht⟩ := mem_edges.1 he
  rw [FlowGraph.labelledEdge, FlowGraph.labelledEdge, hi.label_eq hg hs, hi.label_eq hg ht]

/-- The header stands first, so that it is not marked again. -/
theorem shownAttributes_eq (hi : i.Coheres g) (n : NodeId) (b : Block) :
    Dot.shownAttributes (i.graph g name) [] n b = b.attributes := by
  rw [Dot.shownAttributes_nil, if_neg]
  rintro ⟨hentry, hhead⟩
  rw [ids_graph, hi.head] at hhead
  exact hhead hentry

/-- The text of an interval is that of its graph. -/
theorem write_graph (hi : i.Coheres g) (hg : g.WellFormed) (name : Option Value) :
    Dot.write (i.graph g name) = i.write g name := by
  have hnodes : ((i.graph g name).nodes.map fun e => Dot.nodeLine e.2.label
        (Dot.shownAttributes (i.graph g name) [] e.1 e.2)) =
      i.members.map fun n => Dot.nodeLine (g.label n) (i.shownAttributes g n) := by
    rw [graph, List.map_map]
    exact List.map_congr_left fun n _ => congrArg _ (hi.shownAttributes_eq n _)
  have hedges : ((i.graph g name).edgeList.map fun e => Dot.edgeLine
        ((i.graph g name).label e.source) ((i.graph g name).label e.target) e.attributes) =
      (i.edges g).map fun e => Dot.edgeLine (g.label e.source) (g.label e.target) e.attributes := by
    rw [hi.edgeList_eq]
    refine List.map_congr_left fun e he => ?_
    obtain ⟨-, hs, ht⟩ := mem_edges.1 he
    rw [hi.label_eq hg hs, hi.label_eq hg ht]
  rw [Dot.write, Dot.writeWith, hnodes, hedges]
  rfl

theorem rooted (hi : i.Coheres g) (name : Option Value) : (i.graph g name).Rooted i.header := by
  refine ⟨rfl, fun v hv => ?_⟩
  refine ReflTransGen.mono ?_ _ _ (hi.reach v (ids_graph ▸ hv))
  rintro u w ⟨⟨e, he, rfl, rfl⟩, hu, hw⟩
  exact ⟨e, mem_edges.2 ⟨he, hu, hw⟩, rfl, rfl⟩

end Coheres

end Interval

namespace FlowGraph

variable {g h : FlowGraph} {root : NodeId} {is : List Interval} {i : Interval} {name : Option Value}

theorem Partitions.coheres (his : Partitions g root [] is) (hg : g.WellFormed)
    (hroot : g.entry = some root) (hi : i ∈ is) : i.Coheres g := by
  have hp := his.isPartition
  obtain ⟨before, hgrows⟩ := his.grows i hi
  exact ⟨fun v hv => hp.mem_ids hg (hg.entry_mem root hroot) hi hv, hgrows.nodup,
    hp.header_first i hi, fun v hv => hgrows.reach_within hv⟩

/-! ## What is read -/

theorem Rereads.exists_walk (hr : g.Rereads h) (hg : g.WellFormed) (hh : h.WellFormed)
    {m v : NodeId} (hm : m ∈ h.ids) (hroot : h.label m = g.label root)
    (hwalk : ReflTransGen g.Leads root v) :
    ∃ w ∈ h.ids, h.label w = g.label v ∧ ReflTransGen h.Leads m w := by
  induction hwalk with
  | refl => exact ⟨m, hm, hroot, .refl⟩
  | @tail u v _ hlead ih =>
    obtain ⟨x, hx, hlabel, hwalk⟩ := ih
    obtain ⟨e, he, rfl, rfl⟩ := hlead
    have hmem : g.labelledEdge e ∈ h.edgeList.map h.labelledEdge :=
      hr.edges ▸ List.mem_map_of_mem (subset_edgeList hg he)
    obtain ⟨e', he', heq⟩ := List.mem_map.1 hmem
    simp only [labelledEdge, Prod.mk.injEq] at heq
    obtain ⟨hsource, htarget⟩ := hh.closed e' (edgeList_subset he')
    have hx' : e'.source = x := hh.eq_of_key hsource hx (by rw [heq.1, hlabel])
    exact ⟨e'.target, htarget, heq.2.1, hwalk.tail ⟨e', edgeList_subset he', hx', rfl⟩⟩

theorem Rereads.rooted (hr : g.Rereads h) (hg : g.WellFormed) (hh : h.WellFormed)
    (hroot : g.Rooted root) : ∃ m, h.Rooted m := by
  have hentry := hr.entry
  rw [hroot.1, Option.map_some] at hentry
  obtain ⟨m, hm, hlabel⟩ := Option.map_eq_some_iff.1 hentry
  refine ⟨m, hm, fun w hw => ?_⟩
  have hmem : h.label w ∈ g.labels := hr.labels ▸ hh.labels_eq ▸ List.mem_map_of_mem hw
  rw [hg.labels_eq] at hmem
  obtain ⟨v, hv, hvw⟩ := List.mem_map.1 hmem
  obtain ⟨w', hw', hlabel', hwalk⟩ :=
    hr.exists_walk hg hh (hh.entry_mem m hm) hlabel (hroot.2 v hv)
  rwa [hh.eq_of_key hw' hw (by rw [hlabel', hvw])] at hwalk

end FlowGraph

namespace Interval.Coheres

open Dot

variable {g : FlowGraph} {i : Interval} {name : Option Value} {n : NodeId}

theorem exists_block (hi : i.Coheres g) (hn : n ∈ i.members) : ∃ b, (n, b) ∈ g.nodes := by
  obtain ⟨⟨n, b⟩, hb, rfl⟩ := List.mem_map.1 (hi.mem_ids n hn)
  exact ⟨b, hb⟩

theorem shownAttributes_of_mem (hg : g.WellFormed) {b : Block} (hb : (n, b) ∈ g.nodes) :
    i.shownAttributes g n =
      if n = i.header then b.attributes.set (.text "entry") (.text "true") else b.attributes := by
  rw [Interval.shownAttributes, hg.block_eq hb]
  rfl

/-- What is written of a part of a graph can be written if the graph can. -/
theorem writable (hi : i.Coheres g) (hg : g.WellFormed)
    (hlabels : ∀ e ∈ g.nodes, Writable e.2.label ∧ WritableAttributes e.2.attributes)
    (hedges : ∀ e ∈ g.edges, WritableAttributes e.attributes)
    (hname : ∀ v, name = some v → Writable v) : WritableGraph (i.graph g name) where
  name := hname
  attributes := by simp [WritableAttributes, Interval.graph]
  labels e he := by
    obtain ⟨n, hn, rfl⟩ := List.mem_map.1 he
    obtain ⟨b, hb⟩ := hi.exists_block hn
    change Writable (g.label n)
    rw [hg.label_eq hb]
    exact (hlabels _ hb).1
  nodes e he := by
    obtain ⟨n, hn, rfl⟩ := List.mem_map.1 he
    obtain ⟨b, hb⟩ := hi.exists_block hn
    change WritableAttributes (i.shownAttributes g n)
    rw [shownAttributes_of_mem hg hb]
    split
    · exact (hlabels _ hb).2.mark
    · exact (hlabels _ hb).2
  edges e he := hedges e (Interval.mem_edges.1 he).1

/-- The header is marked, and no other member is if only the entry of the graph may be. -/
theorem entryShows (hi : i.Coheres g) (hg : g.WellFormed) (name : Option Value)
    (hmarks : ∀ e ∈ g.nodes, e.1 ∈ i.members → SaysEntry e.2.attributes → e.1 = i.header) :
    EntryShows (i.graph g name) i.header where
  entry := rfl
  marks e he hne := by
    obtain ⟨n, hn, rfl⟩ := List.mem_map.1 he
    obtain ⟨b, hb⟩ := hi.exists_block hn
    change ¬ SaysEntry (i.shownAttributes g n)
    rw [shownAttributes_of_mem hg hb, if_neg hne]
    exact fun htrue => hne (hmarks (n, b) hb hn htrue)
  labels e he hne _ := by
    refine .inr ⟨_, (hi.wellFormed hg name).block_eq (Interval.block_graph hi.header_mem), ?_⟩
    obtain ⟨b, hb⟩ := hi.exists_block hi.header_mem
    change SaysEntry (i.shownAttributes g i.header)
    rw [shownAttributes_of_mem hg hb, if_pos rfl]
    exact saysEntry_set _

end Interval.Coheres

namespace FlowGraph

open Dot

variable {g : FlowGraph}

/-- In a graph that passes validation, whose labels and attributes can be written and of which no
node but the entry says that it is the entry, the text of each interval, under any name that can be
written or none, is read as a valid graph: its nodes are the members in their order, with the labels
and attributes that they were written with, its entry is the header, and its edges are those among
the members, grouped by their sources. -/
theorem intervals_are_reread (hg : g.WellFormed) (hvalid : g.validate = .ok ())
    (hnodes : ∀ e ∈ g.nodes, Writable e.2.label ∧ WritableAttributes e.2.attributes)
    (hedges : ∀ e ∈ g.edges, WritableAttributes e.attributes)
    (hmarks : ∀ e ∈ g.nodes, SaysEntry e.2.attributes → g.entry = some e.1)
    (limit : Nat) (file : Option String) :
    ∃ is, g.intervals = some is ∧ ∀ i ∈ is, ∀ name : Option Value,
      (∀ v, name = some v → Writable v) →
      ∃ h, (graphOfText limit file (i.write g name)).outcome.1 = .ok h ∧ h.validate = .ok () ∧
        h.name = name ∧ h.labels = i.members.map g.label ∧
        h.nodes.map (·.2.attributes) = i.members.map (i.shownAttributes g) ∧
        h.entry.map h.label = some (g.label i.header) ∧
        h.edgeList.map h.labelledEdge = (i.edges g).map g.labelledEdge := by
  obtain ⟨root, hroot⟩ := (validate_eq_ok hg.closed).1 hvalid
  obtain ⟨is, his, hparts⟩ := intervals_partitions hg hroot.1
  refine ⟨is, his, fun i hi name hname => ?_⟩
  have hc := hparts.coheres hg hroot.1 hi
  have hwf := hc.wellFormed hg name
  -- a marked member is the entry of the graph, which is no member of an interval but the header
  have hshows := hc.entryShows hg name fun e he hmem htrue => by
    obtain rfl := Option.some.inj (hroot.1.symm.trans (hmarks e he htrue))
    exact (hparts.isPartition.header_of_root_mem hi hmem).symm
  obtain ⟨h, hparse, hh, hr⟩ :=
    parse_rereads hwf (hc.writable hg hnodes hedges hname) hshows limit file 0
  rw [hc.write_graph hg name] at hparse
  have hpasses := (validate_eq_ok hh.closed).2 (hr.rooted hwf hh (hc.rooted name))
  have hrun := graphOfText_ok hparse
  rw [hpasses] at hrun
  refine ⟨h, hrun, hpasses, hr.name, hr.labels.trans List.map_map, ?_, ?_, ?_⟩
  · have hattributes := congrArg (List.map Prod.snd) hr.nodes
    rw [List.map_map, List.map_map] at hattributes
    refine hattributes.trans (List.map_map.trans (List.map_congr_left fun n _ => ?_))
    exact hc.shownAttributes_eq n _
  · rw [hr.entry]
    exact congrArg some (hc.label_eq hg hc.header_mem)
  · rw [hr.edges, hc.edgeList_eq]
    exact List.map_congr_left fun e he => hc.labelledEdge_eq hg he

/-- A loop behind the entry, which says that it is the entry, and a way out of the loop. -/
def spurSketch : Sketch where
  name := some (.text "spur")
  attributes := .ofList [(.text "rankdir", .text "LR")]
  nodes := [(.text "E", .ofList [(.text "entry", .text "TRUE")]),
    (.text "H", .ofList [(.text "entry", .text "no")]), (.text "B", ∅), (.text "X", ∅)]
  edges := [(.text "E", .text "H", ∅),
    (.text "H", .text "B", .ofList [(.text "label", .text "if")]),
    (.text "B", .text "H", ∅), (.text "H", .text "X", ∅)]
  entry := some (.text "E")

def spur : FlowGraph := (spurSketch.draw 0).toOption.getD default

def spurInterval : Interval := ⟨⟨0, 2⟩, [⟨0, 2⟩, ⟨0, 3⟩, ⟨0, 4⟩]⟩

theorem spur_wellFormed : spur.WellFormed := by
  unfold spur
  cases h : spurSketch.draw 0 with
  | error f => exact WellFormed.empty none 0 ∅
  | ok g => exact Sketch.draw_wellFormed h

theorem spur_interval : ∃ h,
    (graphOfText 100 none (spurInterval.write spur (some (.text "I 1")))).outcome.1 = .ok h ∧
      h.labels = [.text "H", .text "B", .text "X"] ∧ h.entry.map h.label = some (.text "H") ∧
      h.edgeList.map h.labelledEdge =
        [(.text "H", .text "B", .ofList [(.text "label", .text "if")]), (.text "H", .text "X", ∅),
          (.text "B", .text "H", ∅)] := by
  have hvalid : spur.validate = .ok () := by cbv
  have hnodes : ∀ e ∈ spur.nodes, Writable e.2.label ∧ WritableAttributes e.2.attributes := by
    decide +kernel
  have hedges : ∀ e ∈ spur.edges, WritableAttributes e.attributes := by decide +kernel
  have hmarks : ∀ e ∈ spur.nodes, SaysEntry e.2.attributes → spur.entry = some e.1 := by
    decide +kernel
  obtain ⟨is, his, hread⟩ :=
    intervals_are_reread spur_wellFormed hvalid hnodes hedges hmarks 100 none
  have hfound : spur.intervals = some [⟨⟨0, 1⟩, [⟨0, 1⟩]⟩, spurInterval] := by cbv
  obtain rfl := Option.some.inj (hfound.symm.trans his)
  obtain ⟨h, hrun, -, -, hlabels, -, hentry, hlisted⟩ :=
    hread spurInterval (by simp) (some (.text "I 1")) (by rintro v ⟨⟩; decide)
  have hparts : spurInterval.members.map spur.label = [.text "H", .text "B", .text "X"] ∧
      (spurInterval.edges spur).map spur.labelledEdge =
        [(.text "H", .text "B", .ofList [(.text "label", .text "if")]), (.text "H", .text "X", ∅),
          (.text "B", .text "H", ∅)] ∧ spur.label spurInterval.header = .text "H" :=
    ⟨by decide +kernel, by decide +kernel, by decide +kernel⟩
  exact ⟨h, hrun, hlabels.trans hparts.1, hentry.trans (congrArg some hparts.2.2),
    hlisted.trans hparts.2.1⟩

/-- The mark of the header takes the place of what it said before. -/
example : spurInterval.write spur none =
    "digraph \x7b\n\tH [entry=true];\n\tB;\n\tX;\n" ++
      "\tH -> B [label=if];\n\tH -> X;\n\tB -> H;\n\x7d\n" := by
  decide +kernel

end FlowGraph

end Structuring
