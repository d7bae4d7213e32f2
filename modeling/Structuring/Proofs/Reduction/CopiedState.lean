import Structuring.Proofs.Reduction.Calls
import Structuring.Proofs.Reduction.Copy

/-!
# Copies of graphs while calls are made

A graph may be copied in every state that calls on new graphs lead to, contractions of any regions
included. The copy has the same content, unless the graph has lost its entry: making the first node
of the copy gives the copy one.

* `FlowGraph.Resembles` — the same content in the same order, and the same answer to validation.
* `FlowGraph.copy_resembles` — a copy resembles the graph with its first node as the entry, where it
  has none.
* `Workspace.copies_of_called_graphs` — the statement for new graphs.
-/

namespace Structuring

open Relation

namespace FlowGraph

variable {g h : FlowGraph} {φ : NodeId → NodeId} {u b : NodeId}

/-- Two graphs have the same name and attributes, the same nodes and edges in the same order, told
by their labels, and the same entry or none. So validation passes both or neither. -/
structure Resembles (g h : FlowGraph) : Prop where
  name : h.name = g.name
  attributes : h.attributes = g.attributes
  nodes : (h.nodes.map fun e => (e.2.label, e.2.attributes)) =
    g.nodes.map fun e => (e.2.label, e.2.attributes)
  edges : h.edgeList.map h.labelledEdge = g.edgeList.map g.labelledEdge
  entry : h.entry.map h.label = g.entry.map g.label
  valid : h.validate = .ok () ↔ g.validate = .ok ()

theorem IsCopy.exists_walk (hc : IsCopy g h φ) (hg : g.WellFormed) (hu : u ∈ g.ids)
    (hwalk : ReflTransGen h.Leads (φ u) b) : ∃ v ∈ g.ids, φ v = b ∧ ReflTransGen g.Leads u v := by
  induction hwalk with
  | refl => exact ⟨u, hu, rfl, .refl⟩
  | tail _ hlead ih =>
    obtain ⟨v, hv, rfl, hwalk⟩ := ih
    obtain ⟨v', x, hvx, heq, rfl⟩ := hc.leads_iff.1 hlead
    obtain ⟨hv', hx⟩ := hg.closed.mem hvx
    obtain rfl := hc.injOn v' hv' v hv heq
    exact ⟨x, hx, rfl, hwalk.tail hvx⟩

theorem IsCopy.validate_iff (hc : IsCopy g h φ) (hg : g.WellFormed) (hh : h.WellFormed) :
    h.validate = .ok () ↔ g.validate = .ok () := by
  rw [validate_eq_ok hh.closed, validate_eq_ok hg.closed]
  constructor
  · rintro ⟨root', hentry, hreach⟩
    rw [hc.entry] at hentry
    obtain ⟨root, hroot, rfl⟩ := Option.map_eq_some_iff.1 hentry
    refine ⟨root, hroot, fun v hv => ?_⟩
    obtain ⟨v', hv', heq, hwalk⟩ := hc.exists_walk hg (hg.entry_mem root hroot)
      (hreach _ (hc.ids.mem_iff.2 (List.mem_map_of_mem hv)))
    rwa [hc.injOn v' hv' v hv heq] at hwalk
  · rintro ⟨root, hroot⟩
    exact ⟨φ root, (hc.isQuotient hg hroot).rooted hroot⟩

theorem WellFormed.entered (hg : g.WellFormed) : g.entered.WellFormed := by
  refine { hg with entry_mem := fun n hn => ?_ }
  cases hentry : g.entry with
  | none =>
    rw [FlowGraph.entered, hentry] at hn
    exact List.mem_of_head? hn
  | some root =>
    rw [FlowGraph.entered, hentry] at hn
    exact hg.entry_mem n (hentry.trans hn)

theorem Copies.resembles (hc : Copies g h φ) (hg : g.WellFormed) : g.entered.Resembles h where
  name := hc.name
  attributes := hc.attributes
  nodes := by
    have hblocks := congrArg (List.map fun b : Block => (b.label, b.attributes)) hc.blocks
    rwa [List.map_map, List.map_map] at hblocks
  edges := by
    refine edgeList_of_edges hg.entered hc.wellFormed hc.labels ?_
    have hlabelled : ∀ e ∈ g.edgeList,
        (h.label (φ e.source), h.label (φ e.target), e.attributes) = g.labelledEdge e := by
      intro e he
      obtain ⟨hs, ht⟩ := hg.closed e (edgeList_subset he)
      rw [labelledEdge, hc.label_eq hg _ hs, hc.label_eq hg _ ht]
    have hedges := congrArg
      (List.map fun l : Link NodeId => (h.label l.source, h.label l.target, l.attributes)) hc.edges
    rw [List.map_map, List.map_map] at hedges
    exact hedges.trans (List.map_congr_left hlabelled)
  entry := by
    rw [hc.entry, Option.map_map]
    refine Option.map_congr fun n hn => ?_
    exact hc.label_eq hg n (hg.entered.entry_mem n hn)
  valid := (hc.isCopy hg).validate_iff hg.entered hc.wellFormed

theorem copy_resembles (hg : g.WellFormed) (tag : Nat) :
    ∃ h, g.copy tag = .ok h ∧ g.entered.Resembles h ∧
      (g.Resembles h ↔ (g.entry = none → g.nodes = [])) := by
  obtain ⟨h, φ, hrun, hc⟩ := copy_spec hg tag
  have hlike := hc.resembles hg
  refine ⟨h, hrun, hlike, fun hsame hnone => ?_, fun hempty => ?_⟩
  · have hentry := hsame.entry.symm.trans hlike.entry
    rw [entered, hnone] at hentry
    cases hnodes : g.nodes with
    | nil => rfl
    | cons e es =>
      rw [Digraph.ids, hnodes] at hentry
      cases hentry
  · rwa [entered_eq hempty] at hlike

end FlowGraph

namespace Workspace

open FlowGraph (Resembles)

/-- After calls on new control flow graphs, whether they succeeded or failed, each graph can be
copied, with whatever attributes of its own. Name, attributes, nodes and edges of the copy are those
of the graph, in the same order. So are the entry and the answer to validation, exactly if the graph
has an entry or no nodes. Otherwise the copy differs from it by having the first node as its entry. -/
theorem copies_of_called_graphs (names : List (Option Value)) (calls : List (Nat × GraphCall))
    (hcalls : (ofNames names).AssignsMembers calls) (t : Nat) (g : FlowGraph)
    (hg : (runCalls (ofNames names) calls).graphs[t]? = some (.flow g)) (a : Attributes)
    (tag : Nat) :
    ∃ h, ({ g with attributes := a } : FlowGraph).copy tag = .ok h ∧
      Resembles { g.entered with attributes := a } h ∧
      (Resembles { g with attributes := a } h ↔ (g.entry = none → g.nodes = [])) := by
  have hlodges := ((ofNames_orderly names).runCalls_of_assignsMembers hcalls).lodges hg
  have hwf : ({ g with attributes := a } : FlowGraph).WellFormed := { hlodges.wellFormed with }
  exact FlowGraph.copy_resembles hwf tag

/-- Calls on two graphs. The last node of a sequence becomes the entry after the first two are merged;
a label that is taken, an edge to another graph and the removal of a node with edges are refused. -/
def sequenceCalls : List (Nat × GraphCall) :=
  [(0, .connect (.text "A") (.text "B") ∅), (0, .connect (.text "B") (.text "C") ∅),
    (1, .newNode (.text "A") ∅), (0, .newNode (.text "A") ∅), (0, .addEdge ⟨0, 1⟩ ⟨1, 1⟩ ∅),
    (0, .deleteNode ⟨0, 2⟩),
    (0, .merge (Primitive.sequence ⟨0, 1⟩ ⟨0, 2⟩ : Primitive NodeId).region none),
    (0, .setEntry (some ⟨0, 3⟩))]

def leftToRight : Attributes := Attributes.empty.set (.text "rankdir") (.text "LR")

theorem sequenceCalls_copy :
    (ofNames [none, none]).AssignsMembers sequenceCalls ∧
    ∃ g h, (runCalls (ofNames [none, none]) sequenceCalls).graphs[0]? = some (.flow g) ∧
      ({ g with attributes := leftToRight } : FlowGraph).copy 2 = .ok h ∧
      Resembles { g with attributes := leftToRight } h ∧
      g.ids = [⟨0, 3⟩, ⟨0, 5⟩] ∧ h.ids = [⟨2, 1⟩, ⟨2, 2⟩] ∧ h.labels = [.text "C", .text "A"] ∧
      h.entry = some ⟨2, 1⟩ := by
  have hcalls : (ofNames [none, none]).AssignsMembers sequenceCalls := by
    refine ⟨trivial, trivial, trivial, trivial, trivial, trivial, trivial, ?_, trivial⟩
    exact ⟨_, _, by cbv, rfl, List.mem_cons_self⟩
  refine ⟨hcalls, ?_⟩
  have hparts : ∃ g h, (runCalls (ofNames [none, none]) sequenceCalls).graphs[0]? = some (.flow g) ∧
      g.entry = some ⟨0, 3⟩ ∧ g.ids = [⟨0, 3⟩, ⟨0, 5⟩] ∧
      ({ g with attributes := leftToRight } : FlowGraph).copy 2 = .ok h ∧
      h.ids = [⟨2, 1⟩, ⟨2, 2⟩] ∧ h.labels = [.text "C", .text "A"] ∧ h.entry = some ⟨2, 1⟩ :=
    ⟨_, _, by cbv, by cbv, by cbv, by cbv, by cbv, by cbv, by cbv⟩
  obtain ⟨g, h, hg, hentry, hids, hcopy, hcopied⟩ := hparts
  obtain ⟨h', hcopy', -, hlike⟩ :=
    copies_of_called_graphs [none, none] sequenceCalls hcalls 0 g hg leftToRight 2
  obtain rfl : h = h' := Except.ok.inj (hcopy.symm.trans hcopy')
  have hlike := hlike.2 fun hnone => by
    rw [hentry] at hnone
    cases hnone
  exact ⟨g, h, hg, hcopy, hlike, hids, hcopied⟩

/-- The first of two nodes is made and lost again. -/
def bereftCalls : List (Nat × GraphCall) :=
  [(0, .newNode (.text "A") ∅), (0, .newNode (.text "B") ∅), (0, .deleteNode ⟨0, 1⟩)]

/-- A graph without an entry does not pass validation, but its copy has one and does. -/
theorem bereftCalls_copy :
    (ofNames [none]).AssignsMembers bereftCalls ∧
    ∃ g h, (runCalls (ofNames [none]) bereftCalls).graphs[0]? = some (.flow g) ∧
      g.copy 1 = .ok h ∧ g.entry = none ∧ h.entry.map h.label = some (.text "B") ∧
      g.validate = .error .noEntry ∧ h.validate = .ok () ∧ ¬ g.Resembles h := by
  have hparts : ∃ g h, (runCalls (ofNames [none]) bereftCalls).graphs[0]? = some (.flow g) ∧
      g.copy 1 = .ok h ∧ g.entry = none ∧ h.entry.map h.label = some (.text "B") ∧
      g.validate = .error .noEntry ∧ h.validate = .ok () :=
    ⟨_, _, by cbv, by cbv, by cbv, by cbv, by cbv, by cbv⟩
  obtain ⟨g, h, hg, hcopy, hentry, hcopied, hrefused, hvalid⟩ := hparts
  refine ⟨⟨trivial, trivial, trivial, trivial⟩, g, h, hg, hcopy, hentry, hcopied, hrefused, hvalid,
    fun hlike => ?_⟩
  have hpasses := hlike.valid.1 hvalid
  rw [hrefused] at hpasses
  cases hpasses

end Workspace

end Structuring
