import Structuring.Proofs.Graph.Snapshot
import Structuring.Proofs.Reduction.Indexed
import Structuring.Proofs.Reduction.Shape

/-!
# The maps while calls are made

Whatever calls are made on a new graph, with whatever nodes and edges, its maps fit together afterwards,
and a call that fails has changed none of them. Only regions of primitives may be contracted, and only
members may become the entry.

* `IndexedGraph.Consistent` — the maps fit together.
* `Call`, `Call.Permitted` — the calls, and those that may be made.
* `Call.agrees` — a call does to the maps what it does to the graph.
* `Call.onGraph_outcome`, `Call.run_same` — what one call does; `after_represents` — what any number of
  them does.
* `calls_keep_maps_consistent` — the statement for new graphs.
-/

namespace Structuring

namespace IndexedGraph

variable {α : Type} {s s' : IndexedGraph} {g h : FlowGraph} {n m : NodeId} {b : Block} {e : Edge}

structure Consistent (s : IndexedGraph) : Prop where
  /-- The nodes stand under their numbers and are listed by them. -/
  ascending : s.ids.Pairwise fun n m => n.serial < m.serial
  keyed : ∀ e ∈ s.nodes.entries, e.1 = e.2.1.serial
  /-- A label is mapped to the member that carries it. -/
  labels_iff : ∀ k n, s.labels.get? k = some n ↔ ∃ b, s.block? n = some b ∧ b.label.key = k
  /-- An edge that is listed anywhere joins members; it is listed once among the edges out of its source
  and once among those into its target, and nowhere else. -/
  listed : ∀ e, (∃ n, e ∈ s.outEdges n ∨ e ∈ s.inEdges n) →
    e.source ∈ s.ids ∧ e.target ∈ s.ids ∧ ∀ n,
      ((s.outEdges n).map (·.id)).count e.id = (if n = e.source then 1 else 0) ∧
      ((s.inEdges n).map (·.id)).count e.id = if n = e.target then 1 else 0
  /-- Parallel edges are listed in the same order on both sides. -/
  parallel : ∀ n m,
    (s.outEdges n).filter (fun e => e.target = m) = (s.inEdges m).filter fun e => e.source = n
  entry_mem : ∀ n, s.entry = some n → n ∈ s.ids

/-- Nodes, labels, edges, entry and generation are as they were. -/
structure Same (s s' : IndexedGraph) : Prop where
  nodes : s'.nodes = s.nodes
  labels : ∀ k, s'.labels.get? k = s.labels.get? k
  out : ∀ n, s'.outEdges n = s.outEdges n
  into : ∀ n, s'.inEdges n = s.inEdges n
  entry : s'.entry = s.entry
  generation : s'.generation = s.generation

/-- Among the edges with some property an edge is listed once if it has the property. -/
theorem count_filter_edges (hg : g.WellFormed) (he : e ∈ g.edges) (p : Edge → Bool) :
    ((g.edges.filter p).map (·.id)).count e.id = if p e then 1 else 0 := by
  have hids : (g.edges.map (·.id)).Nodup := by
    refine List.Nodup.of_map EdgeId.serial ?_
    rw [List.map_map]
    exact hg.edges
  by_cases hp : p e = true
  · rw [if_pos hp]
    refine List.count_eq_one_of_mem (hids.sublist (List.filter_sublist.map _)) ?_
    exact List.mem_map_of_mem (List.mem_filter.2 ⟨he, hp⟩)
  · rw [if_neg hp]
    refine List.count_eq_zero_of_not_mem fun hmem => hp ?_
    obtain ⟨e', he', heq⟩ := List.mem_map.1 hmem
    obtain ⟨he', hp'⟩ := List.mem_filter.1 he'
    rwa [← List.inj_on_of_nodup_map hids he' he heq]

namespace Represents

/-- A key is mapped to the member whose label has it. -/
theorem labels_iff (hs : s.Represents g) (hg : g.WellFormed) (k : Key) :
    s.labels.get? k = some n ↔ ∃ b, s.block? n = some b ∧ b.label.key = k := by
  rw [hs.labels, Option.map_eq_some_iff]
  constructor
  · rintro ⟨⟨n, b⟩, hfind, rfl⟩
    refine ⟨b, ?_, by simpa using List.find?_some hfind⟩
    rw [hs.block? hg, hg.block_eq (List.mem_of_find?_eq_some hfind)]
  · rintro ⟨b, hb, rfl⟩
    rw [hs.block? hg] at hb
    obtain ⟨⟨n', b'⟩, he, heq⟩ := Option.map_eq_some_iff.1 hb
    obtain rfl : n' = n := by simpa using List.find?_some he
    obtain rfl : b' = b := heq
    have hkeys := hg.labels
    rw [FlowGraph.labels, List.map_map] at hkeys
    exact ⟨_, find?_key hkeys (List.mem_of_find?_eq_some he), rfl⟩

theorem consistent (hs : s.Represents g) (hg : g.WellFormed) (ho : g.Ordered) : s.Consistent where
  ascending := by
    rw [hs.ids]
    exact ho
  keyed := by
    intro e he
    rw [hs.nodes] at he
    obtain ⟨x, -, rfl⟩ := List.mem_map.1 he
    rfl
  labels_iff _ _ := hs.labels_iff hg _
  listed := by
    intro e hlisted
    simp only [hs.out, hs.into, hs.ids] at hlisted ⊢
    have he : e ∈ g.edges := by
      obtain ⟨n, h | h⟩ := hlisted
      · exact (Digraph.mem_outEdges.1 h).1
      · exact (Digraph.mem_inEdges.1 h).1
    refine ⟨(hg.closed e he).1, (hg.closed e he).2, fun n => ⟨?_, ?_⟩⟩
    · rw [Digraph.outEdges, count_filter_edges hg he]
      simp [eq_comm]
    · rw [Digraph.inEdges, count_filter_edges hg he]
      simp [eq_comm]
  parallel n m := by
    rw [hs.out, hs.into, Digraph.outEdges, Digraph.inEdges, List.filter_filter, List.filter_filter]
    exact List.filter_congr fun e _ => Bool.and_comm _ _
  entry_mem n hn := by
    rw [hs.ids]
    exact hg.entry_mem n (hs.entry ▸ hn)

/-- Two graphs with the same maps have the same nodes, and the same edges but for their order. -/
theorem wellFormed (hg : s.Represents g) (hh : s.Represents h) (hwf : g.WellFormed) :
    h.WellFormed ∧ h.nodes = g.nodes := by
  have hnodes : h.nodes = g.nodes := by
    have hentries := hh.nodes.symm.trans hg.nodes
    exact List.map_injective_iff.2 (fun a b hab => (Prod.mk.inj hab).2) hentries
  have hedges : h.edges.Perm g.edges := by
    refine List.perm_iff_count.2 fun e => ?_
    have hcount : ∀ k : FlowGraph, k.edges.count e = (k.outEdges e.source).count e := fun k =>
      (List.count_filter (by simp)).symm
    rw [hcount, hcount, ← hh.out, ← hg.out]
  have hids : h.ids = g.ids := congrArg (List.map Prod.fst) hnodes
  have hlast : h.lastNode = g.lastNode := hh.lastNode.symm.trans hg.lastNode
  have hlastEdge : h.lastEdge = g.lastEdge := hh.lastEdge.symm.trans hg.lastEdge
  refine ⟨⟨?_, ?_, ?_, ?_, fun e he => ?_, fun e he => ?_, fun n hn => ?_⟩, hnodes⟩
  · rw [hids]
    exact hwf.serials
  · rw [hids, hlast]
    exact hwf.serial_le
  · rw [FlowGraph.labels, hnodes]
    exact hwf.labels
  · exact (hedges.map _).nodup_iff.2 hwf.edges
  · rw [hlastEdge]
    exact hwf.edge_le e (hedges.mem_iff.1 he)
  · rw [hids]
    exact hwf.closed e (hedges.mem_iff.1 he)
  · rw [hids]
    exact hwf.entry_mem n (hg.entry.symm.trans (hh.entry.trans hn))

end Represents

/-! ## What calls do to a graph -/

/-- The region of a primitive that passes its test is contracted. -/
theorem fits_of_holds (hg : g.WellFormed) {a : Algorithm} {t : DominatorTree NodeId}
    (ht : g.dominatorTree a = .ok t) {p : Primitive NodeId} (hp : p.holds g t = true) :
    p.region.Fits g := by
  obtain ⟨root, hroot, -⟩ := FlowGraph.of_treeOn_eq_ok ht
  obtain ⟨t', ht', htells⟩ := FlowGraph.exists_tells hg hroot a
  obtain rfl : t' = t := Except.ok.inj (ht'.symm.trans ht)
  obtain ⟨T, hT, hpass⟩ := Primitive.holds_iff_passes.1 hp
  have hat := FlowGraph.at_of_passes hg (hg.entry_mem root hroot) htells hT hpass
  exact (FlowGraph.fits_of_at hroot hT hat).1

/-- What a change makes of a graph: it stays well-formed and in order, and if the change fails, only the
number that was given last may differ. -/
structure Outcome (g : FlowGraph) (y : Except Failure α × FlowGraph) : Prop where
  wellFormed : y.2.WellFormed
  ordered : y.2.Ordered
  evolves : g.Evolves True y.2
  same : ∀ e, y.1 = .error e → y.2.nodes = g.nodes ∧ y.2.edges = g.edges ∧
    y.2.entry = g.entry ∧ y.2.generation = g.generation

namespace Outcome

theorem unchanged (hg : g.WellFormed) (ho : g.Ordered) (x : Except Failure α) : Outcome g (x, g) :=
  ⟨hg, ho, .refl g, fun _ _ => ⟨rfl, rfl, rfl, rfl⟩⟩

theorem ok {a : α} (hh : h.WellFormed) (ho : h.Ordered) (hgh : g.Evolves True h) :
    Outcome g (.ok a, h) := by
  refine ⟨hh, ho, hgh, fun e he => ?_⟩
  cases he

theorem ofExcept (hg : g.WellFormed) (ho : g.Ordered)
    {f : FlowGraph → Except GraphError (α × FlowGraph)}
    (hf : ∀ a h, f g = .ok (a, h) → h.WellFormed ∧ h.Ordered ∧ g.Evolves True h) :
    Outcome g (told (FlowGraph.Edit.ofExcept f g)) := by
  rcases hrun : f g with e | ⟨a, h⟩
  · simp only [FlowGraph.Edit.ofExcept, hrun]
    exact unchanged hg ho _
  · simp only [FlowGraph.Edit.ofExcept, hrun]
    obtain ⟨hh, hoh, hgh⟩ := hf a h hrun
    exact ok hh hoh hgh

theorem newNode (hg : g.WellFormed) (ho : g.Ordered) (b : Block) :
    Outcome g (told (g.newNode b)) := by
  refine ⟨hg.newNode b, hg.newNode_ordered ho b, g.newNode_evolves b, fun e he => ?_⟩
  obtain ⟨e', hrun⟩ | hrun := g.newNode_cases b
  · rw [hrun]
    exact ⟨rfl, rfl, rfl, rfl⟩
  · rw [hrun] at he
    cases he

end Outcome

/-- The node with a label is found or made, and no node is lost. -/
theorem nodeOf_ok (hg : g.WellFormed) (ho : g.Ordered) (l : Value) :
    ∃ n h, FlowGraph.Edit.nodeOf l g = (.ok n, h) ∧ Outcome g (Except.ok (ε := Failure) n, h) ∧
      n ∈ h.ids ∧ ∀ m ∈ g.ids, m ∈ h.ids := by
  have hget : (get : FlowGraph.Edit FlowGraph) g = (.ok g, g) := rfl
  unfold FlowGraph.Edit.nodeOf
  rw [bind_ok hget]
  cases hfind : g.find? l with
  | some n => exact ⟨n, g, rfl, .unchanged hg ho _, FlowGraph.mem_of_find hfind, fun m hm => hm⟩
  | none =>
    have hnew := Outcome.newNode hg ho ⟨l, none, ∅⟩
    have hrun := hg.newNode_eq (b := ⟨l, none, ∅⟩) (FlowGraph.find?_eq_none.1 hfind)
    rw [hrun] at hnew
    refine ⟨_, _, hrun, hnew, ?_, fun m hm => ?_⟩
    · simp [Digraph.ids]
    · simp only [Digraph.ids, List.map_append]
      exact List.mem_append_left _ hm

/-- The two nodes of a connection are there when its edge is added, so that nothing is left half
done. -/
theorem connect_outcome (hg : g.WellFormed) (ho : g.Ordered) (source target : Value)
    (a : Attributes) : Outcome g (told (g.connect source target a)) := by
  obtain ⟨n, g₁, hrun₁, hg₁, hn₁, -⟩ := nodeOf_ok hg ho source
  obtain ⟨m, g₂, hrun₂, hg₂, hm₂, hold⟩ := nodeOf_ok hg₁.wellFormed hg₁.ordered target
  have hadd := FlowGraph.WellFormed.addEdge_eq (hold n hn₁) hm₂ a
  have hrun : g.connect source target a =
      (FlowGraph.Edit.nodeOf source >>= fun n =>
        FlowGraph.Edit.nodeOf target >>= fun m => FlowGraph.Edit.edge n m a) g := rfl
  rw [hrun, bind_ok hrun₁, bind_ok hrun₂, FlowGraph.Edit.edge_ok hadd]
  exact .ok (hg₂.wellFormed.addEdge hadd) (FlowGraph.WellFormed.addEdge_ordered hg₂.ordered hadd)
    ((hg₁.evolves.trans hg₂.evolves).trans (FlowGraph.addEdge_evolves hadd))

theorem merge_outcome (hg : g.WellFormed) (ho : g.Ordered) {r : Region} (hr : r.Fits g)
    (name : Option String) : Outcome g (g.merge r name) := by
  obtain ⟨n, h, hrun, hc⟩ := FlowGraph.merge_contracts hg hr name
  have hevolves : g.Evolves True (g.merge r name).2 := by
    unfold FlowGraph.merge
    split
    · exact g.mergeAs_evolves r _
    · exact g.mergeAs_evolves r _
  rw [hrun] at hevolves ⊢
  exact .ok hc.wellFormed (hc.ordered ho) hevolves

/-! ## Calls -/

inductive Call where
  | newNode (label : Value) (attributes : Attributes)
  | connect (source target : Value) (attributes : Attributes)
  | addEdge (n m : NodeId) (attributes : Attributes)
  | deleteEdge (n m : NodeId)
  | removeEdge (e : Edge)
  | deleteNode (n : NodeId)
  | merge (r : Region) (name : Option String)
  | setEntry (n : NodeId)

namespace Call

def run : Call → Edit Unit
  | .newNode label a =>
    if a.areNamed Dot.nodeReserved then discard (IndexedGraph.newNode ⟨label, none, a⟩)
    else throw .reserved
  | .connect source target a =>
    if a.areNamed Dot.edgeReserved then discard (IndexedGraph.connect source target a)
    else throw .reserved
  | .addEdge n m a => discard (IndexedGraph.addEdge n m a)
  | .deleteEdge n m => discard (IndexedGraph.deleteEdge n m)
  | .removeEdge e => IndexedGraph.removeEdge e
  | .deleteNode n => IndexedGraph.deleteNode n
  | .merge r name => discard (IndexedGraph.merge r name)
  | .setEntry n => IndexedGraph.setEntry n

/-- A contraction must be that of a primitive, as told by a dominator tree of the graph as it is, and an
entry must be a member. Other calls may be made with any nodes, edges and labels. -/
def Permitted (s : IndexedGraph) : Call → Prop
  | .merge r _ => ∃ (g : FlowGraph) (a : Algorithm) (tree : DominatorTree NodeId)
      (p : Primitive NodeId), s.Represents g ∧ g.dominatorTree a = .ok tree ∧
        p.holds g tree = true ∧ r = p.region
  | .setEntry n => n ∈ s.ids
  | _ => True

def done (y : Except Failure α × FlowGraph) : Except Failure Unit × FlowGraph :=
  (y.1.map fun _ => (), y.2)

def onGraph (g : FlowGraph) : Call → Except Failure Unit × FlowGraph
  | .newNode label a =>
    if a.areNamed Dot.nodeReserved then done (told (g.newNode ⟨label, none, a⟩))
    else (.error .reserved, g)
  | .connect source target a =>
    if a.areNamed Dot.edgeReserved then done (told (g.connect source target a))
    else (.error .reserved, g)
  | .addEdge n m a => done (told (FlowGraph.Edit.edge n m a g))
  | .deleteEdge n m => done (told (FlowGraph.Edit.ofExcept (fun g => g.deleteEdge n m) g))
  | .removeEdge e => match (if e ∈ g.edges then g.removeEdge? e.id else none) with
    | some h => (.ok (), h)
    | none => (.error .noSuchEdge, g)
  | .deleteNode n => told (FlowGraph.Edit.dropNode n g)
  | .merge r name => done (g.merge r name)
  | .setEntry n => (.ok (), { g with entry := some n })

end Call

theorem Agrees.done {x : Edit α} {y : Except Failure α × FlowGraph} (hxy : Agrees (x s) y) :
    Agrees (discard x s) (Call.done y) := by
  obtain ⟨houtcome, hrepresents⟩ := hxy
  change Agrees ((x >>= fun _ => pure ()) s) _
  rcases hx : x s with ⟨e | a, s'⟩
  · rw [hx] at houtcome hrepresents
    rw [bind_error hx]
    exact ⟨by rw [Call.done, ← houtcome]; rfl, hrepresents⟩
  · rw [hx] at houtcome hrepresents
    rw [bind_ok hx]
    exact ⟨by rw [Call.done, ← houtcome]; rfl, hrepresents⟩

theorem Outcome.done {y : Except Failure α × FlowGraph} (hy : Outcome g y) :
    Outcome g (Call.done y) := by
  refine ⟨hy.wellFormed, hy.ordered, hy.evolves, fun e he => ?_⟩
  rcases y with ⟨e' | a, h⟩
  · exact hy.same e' rfl
  · cases he

namespace Call

variable {c : Call}

theorem Permitted.fits (hs : s.Represents g) (hg : g.WellFormed) {r : Region} {name : Option String}
    (hc : Permitted s (.merge r name)) : r.Fits g := by
  obtain ⟨k, a, tree, p, hk, htree, hp, rfl⟩ := hc
  obtain ⟨hwf, hnodes⟩ := hs.wellFormed hk hg
  have hfits := fits_of_holds hwf htree hp
  have hids : k.ids = g.ids := congrArg (List.map Prod.fst) hnodes
  refine ⟨hfits.nodup, fun n hn => hids ▸ hfits.mem_ids n hn, hfits.entry_mem, ?_⟩
  rw [hs.entry.symm.trans hk.entry]
  exact hfits.entry_eq

theorem agrees (hs : s.Represents g) (hg : g.WellFormed) (hc : c.Permitted s) :
    Agrees (c.run s) (c.onGraph g) := by
  cases c with
  | newNode label a =>
    by_cases ha : a.areNamed Dot.nodeReserved = true
    · simp only [run, onGraph, if_pos ha]
      exact (follows_newNode _ s g hs hg).done
    · simp only [run, onGraph, if_neg ha]
      exact ⟨rfl, hs⟩
  | connect source target a =>
    by_cases ha : a.areNamed Dot.edgeReserved = true
    · simp only [run, onGraph, if_pos ha]
      exact (follows_connect source target a s g hs hg).done
    · simp only [run, onGraph, if_neg ha]
      exact ⟨rfl, hs⟩
  | addEdge n m a => exact (follows_addEdge n m a s g hs hg).done
  | deleteEdge n m => exact (follows_deleteEdge n m s g hs hg).done
  | removeEdge e =>
    by_cases he : e ∈ g.edges
    · obtain ⟨s', d, hrun, hremove, hs'⟩ := removeEdge_ok hs hg he
      simp only [run, onGraph, hrun, if_pos he, FlowGraph.removeEdge?, hremove]
      exact ⟨rfl, hs'⟩
    · simp only [run, onGraph, removeEdge_error hs he, if_neg he]
      exact ⟨rfl, hs⟩
  | deleteNode n => exact follows_deleteNode n s g hs hg
  | merge r name =>
    have hfits := hc.fits hs hg
    exact (agrees_merge hs hg (hfits.mem_ids _ hfits.entry_mem) name).done
  | setEntry n => exact ⟨rfl, { hs with entry := rfl }⟩

theorem onGraph_outcome (hs : s.Represents g) (hg : g.WellFormed) (ho : g.Ordered)
    (hc : c.Permitted s) : Outcome g (c.onGraph g) := by
  cases c with
  | newNode label a =>
    simp only [onGraph]
    split
    · exact (Outcome.newNode hg ho _).done
    · exact .unchanged hg ho _
  | connect source target a =>
    simp only [onGraph]
    split
    · exact (connect_outcome hg ho source target a).done
    · exact .unchanged hg ho _
  | addEdge n m a =>
    exact (Outcome.ofExcept hg ho fun e h hrun => ⟨hg.addEdge hrun,
      FlowGraph.WellFormed.addEdge_ordered ho hrun, FlowGraph.addEdge_evolves hrun⟩).done
  | deleteEdge n m =>
    refine (Outcome.ofExcept hg ho fun e h hrun => ?_).done
    have hremove := FlowGraph.removeEdge?_of_deleteEdge hrun
    exact ⟨hg.removeEdge hremove, FlowGraph.WellFormed.removeEdge_ordered ho hremove,
      FlowGraph.removeEdge_evolves hremove⟩
  | removeEdge e =>
    simp only [onGraph]
    split
    · next h hrun =>
      obtain ⟨-, hremove⟩ := Option.ite_none_right_eq_some.1 hrun
      exact .ok (hg.removeEdge hremove) (FlowGraph.WellFormed.removeEdge_ordered ho hremove)
        (FlowGraph.removeEdge_evolves hremove)
    · exact .unchanged hg ho _
  | deleteNode n =>
    refine Outcome.ofExcept hg ho fun _ h hrun => ?_
    obtain ⟨k, hdelete, heq⟩ := map_eq_ok hrun
    cases heq
    exact ⟨hg.deleteNode hdelete, FlowGraph.WellFormed.deleteNode_ordered ho hdelete,
      FlowGraph.deleteNode_evolves hdelete⟩
  | merge r name => exact (merge_outcome hg ho (hc.fits hs hg) name).done
  | setEntry n =>
    have hn : n ∈ g.ids := hs.ids ▸ hc
    exact .ok (hg.setEntry hn) ho (g.setEntry_evolves _)

theorem run_same (hs : s.Represents g) (hg : g.WellFormed) (ho : g.Ordered) (hc : c.Permitted s)
    {f : Failure} (hf : (c.run s).1 = .error f) : s.Same (c.run s).2 := by
  obtain ⟨houtcome, hs'⟩ := agrees hs hg hc
  obtain ⟨hnodes, hedges, hentry, hgeneration⟩ :=
    (onGraph_outcome hs hg ho hc).same f (houtcome.symm.trans hf)
  refine ⟨?_, fun k => ?_, fun n => ?_, fun n => ?_, ?_, ?_⟩
  · have hentries : (c.run s).2.nodes.entries = s.nodes.entries := by
      rw [hs'.nodes, hnodes, hs.nodes]
    exact congrArg Table.mk hentries
  · rw [hs'.labels, hnodes, hs.labels]
  · rw [hs'.out, hs.out, Digraph.outEdges, Digraph.outEdges, hedges]
  · rw [hs'.into, hs.into, Digraph.inEdges, Digraph.inEdges, hedges]
  · rw [hs'.entry, hentry, hs.entry]
  · rw [hs'.generation, hgeneration, hs.generation]

end Call

/-- The maps after calls one after the other. A call that fails does not keep the next one from being
made. -/
def after (s : IndexedGraph) (calls : List Call) : IndexedGraph :=
  calls.foldl (fun s c => (c.run s).2) s

def graphAfter (g : FlowGraph) (calls : List Call) : FlowGraph :=
  calls.foldl (fun g c => (c.onGraph g).2) g

def Permits (s : IndexedGraph) : List Call → Prop
  | [] => True
  | c :: cs => c.Permitted s ∧ (c.run s).2.Permits cs

variable {xs ys calls : List Call}

theorem after_append : s.after (xs ++ ys) = (s.after xs).after ys := List.foldl_append

theorem permits_append : s.Permits (xs ++ ys) ↔ s.Permits xs ∧ (s.after xs).Permits ys := by
  induction xs generalizing s with
  | nil => simp [Permits, after]
  | cons c cs ih =>
    rw [List.cons_append, Permits, Permits, ih, and_assoc]
    rfl

theorem after_represents (hs : s.Represents g) (hg : g.WellFormed) (ho : g.Ordered)
    (hcalls : s.Permits calls) : (s.after calls).Represents (graphAfter g calls) ∧
      (graphAfter g calls).WellFormed ∧ (graphAfter g calls).Ordered ∧
      g.Evolves True (graphAfter g calls) := by
  induction calls generalizing s g with
  | nil => exact ⟨hs, hg, ho, .refl g⟩
  | cons c cs ih =>
    have hagrees := Call.agrees hs hg hcalls.1
    have hc := Call.onGraph_outcome hs hg ho hcalls.1
    obtain ⟨hs', hg', ho', hevolves⟩ := ih hagrees.represents hc.wellFormed hc.ordered hcalls.2
    exact ⟨hs', hg', ho', hc.evolves.trans hevolves⟩

/-- Permitted calls on a new graph, whether they succeed or fail, leave maps that fit together. A number
of a node that the graph has lost is never the number of one of its nodes again. A call that fails leaves
nodes, labels, lists of edges, entry and generation as they were. -/
theorem calls_keep_maps_consistent (tag : Nat) (calls : List Call)
    (hcalls : (empty tag).Permits calls) :
    ((empty tag).after calls).Consistent ∧
    (∀ xs ys zs, calls = xs ++ ys ++ zs → ∀ k ∈ ((empty tag).after xs).ids.map (·.serial),
      k ∉ ((empty tag).after (xs ++ ys)).ids.map (·.serial) →
      k ∉ ((empty tag).after calls).ids.map (·.serial)) ∧
    ∀ xs c ys, calls = xs ++ c :: ys → ∀ f, (c.run ((empty tag).after xs)).1 = .error f →
      ((empty tag).after xs).Same ((empty tag).after (xs ++ [c])) := by
  have hnew := represents_empty none tag
  have hwf := FlowGraph.WellFormed.empty none tag ∅
  refine ⟨?_, ?_, ?_⟩
  · obtain ⟨hs, hg, ho, -⟩ := after_represents hnew hwf List.Pairwise.nil hcalls
    exact hs.consistent hg ho
  · rintro xs ys zs rfl k hk hgone hback
    obtain ⟨hxys, hzs⟩ := permits_append.1 hcalls
    obtain ⟨hxs, hys⟩ := permits_append.1 hxys
    obtain ⟨hsx, hgx, hox, -⟩ := after_represents hnew hwf List.Pairwise.nil hxs
    obtain ⟨hsy, hgy, hoy, hxy⟩ := after_represents hsx hgx hox hys
    rw [← after_append] at hsy
    obtain ⟨hsz, -, -, hyz⟩ := after_represents hsy hgy hoy hzs
    rw [after_append, hsz.ids] at hback
    rw [hsy.ids] at hgone
    rw [hsx.ids] at hk
    obtain ⟨n, hn, rfl⟩ := List.mem_map.1 hk
    obtain ⟨m, hm, heq⟩ := List.mem_map.1 hback
    -- a node that is new at the end has a number above all that were given before
    rcases hyz.ids m hm with hm | ⟨-, hlt⟩
    · exact hgone (heq ▸ List.mem_map_of_mem hm)
    · have hle := hgx.serial_le n hn
      have hmono := hxy.lastNode_le
      omega
  · rintro xs c ys rfl f hf
    obtain ⟨hxs, hc, -⟩ := permits_append.1 hcalls
    obtain ⟨hs, hg, ho, -⟩ := after_represents hnew hwf List.Pairwise.nil hxs
    rw [after_append]
    exact Call.run_same hs hg ho hc hf

/-- Calls on a graph. A label that is taken, a reserved name, an edge to another graph, the removal of a
node with edges and that of an edge of another graph are refused. -/
def refusedCalls : List Call :=
  [.connect (.text "A") (.text "B") ∅, .connect (.text "B") (.text "C") ∅,
    .newNode (.text "A") ∅, .newNode (.text "D") (Attributes.set ∅ (.text "self") (.text "D")),
    .addEdge ⟨0, 1⟩ ⟨1, 1⟩ ∅, .deleteNode ⟨0, 2⟩, .removeEdge ⟨⟨1, 1⟩, ⟨0, 1⟩, ⟨0, 2⟩, ∅⟩]

def mergeFirst : Call := .merge (Primitive.sequence ⟨0, 1⟩ ⟨0, 2⟩ : Primitive NodeId).region none

/-- The first two nodes of a sequence are merged, the last one becomes the entry, and loses its edge. -/
def sequenceCalls : List Call :=
  refusedCalls ++ [mergeFirst, .setEntry ⟨0, 3⟩, .deleteEdge ⟨0, 5⟩ ⟨0, 3⟩]

theorem sequenceCalls_consistent :
    (empty 0).Permits sequenceCalls ∧ ((empty 0).after sequenceCalls).Consistent ∧
    ((empty 0).after sequenceCalls).ids = [⟨0, 3⟩, ⟨0, 5⟩] ∧
    ((empty 0).after sequenceCalls).entry = some ⟨0, 3⟩ := by
  have hrefused : (empty 0).Permits refusedCalls :=
    ⟨trivial, trivial, trivial, trivial, trivial, trivial, trivial, trivial⟩
  obtain ⟨hs, -⟩ := after_represents (represents_empty none 0)
    (FlowGraph.WellFormed.empty none 0 ∅) List.Pairwise.nil hrefused
  have hcalls : (empty 0).Permits sequenceCalls := by
    refine permits_append.2 ⟨hrefused, ?_, ?_, trivial, trivial⟩
    · exact ⟨_, .semidominators, _, .sequence ⟨0, 1⟩ ⟨0, 2⟩, hs, by cbv, by cbv, rfl⟩
    · have hids : (mergeFirst.run ((empty 0).after refusedCalls)).2.ids = [⟨0, 3⟩, ⟨0, 5⟩] := by cbv
      change _ ∈ (mergeFirst.run ((empty 0).after refusedCalls)).2.ids
      rw [hids]
      exact List.mem_cons_self
  exact ⟨hcalls, (calls_keep_maps_consistent 0 sequenceCalls hcalls).1, by cbv, by cbv⟩

end IndexedGraph

end Structuring
