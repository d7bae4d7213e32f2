import Structuring.Proofs.Graph.History
import Structuring.Proofs.Graph.Lookup
import Structuring.Proofs.Reduction.Merge
import Structuring.Reduction.Indexed

/-!
# The maps of a graph

The operations on the maps of a graph do what the operations on the graph do, with the same outcome,
and leave the maps of what became of the graph.

* `IndexedGraph.Represents` — the maps are those of a graph.
* `Agrees`, `Follows` — the same outcome, and maps of the graph that a change led to.
* `follows_newNode`, `follows_addEdge`, `follows_deleteNode`, … — the operations.
* `agrees_merge` — the contraction of a region.
-/

namespace Structuring

namespace IndexedGraph

variable {α β : Type} {s s' : IndexedGraph} {g g' : FlowGraph} {n m : NodeId} {b : Block} {e : Edge}
  {l : Value}

structure Represents (s : IndexedGraph) (g : FlowGraph) : Prop where
  tag : s.tag = g.tag
  nodes : s.nodes.entries = g.nodes.map fun e => (e.1.serial, e)
  out : ∀ n, s.outEdges n = g.outEdges n
  into : ∀ n, s.inEdges n = g.inEdges n
  labels : ∀ k, s.labels.get? k = (g.nodes.find? fun e => e.2.label.key = k).map (·.1)
  entry : s.entry = g.entry
  lastNode : s.lastNode = g.lastNode
  lastEdge : s.lastEdge = g.lastEdge
  generation : s.generation = g.generation

theorem represents_empty (name : Option Value) (tag : Nat) :
    (empty tag).Represents (FlowGraph.empty name tag) :=
  ⟨rfl, rfl, fun _ => rfl, fun _ => rfl, fun _ => rfl, rfl, rfl, rfl, rfl⟩

namespace Represents

theorem ids (hs : s.Represents g) : s.ids = g.ids := by
  rw [IndexedGraph.ids, hs.nodes, List.map_map]
  rfl

theorem get?_nodes (hs : s.Represents g) (k : Nat) :
    s.nodes.get? k = g.nodes.find? fun e => e.1.serial = k := by
  have hnodes : s.nodes = ⟨g.nodes.map fun e => (e.1.serial, e)⟩ := congrArg Table.mk hs.nodes
  rw [hnodes, Table.get?_map_self]

theorem find?_serial (hg : g.WellFormed) (he : (n, b) ∈ g.nodes) :
    (g.nodes.find? fun e => e.1.serial = n.serial) = some (n, b) := by
  have hserials := hg.serials
  rw [Digraph.ids, List.map_map] at hserials
  exact find?_key hserials he

theorem contains_iff (hs : s.Represents g) (hg : g.WellFormed) :
    s.contains n = true ↔ n ∈ g.ids := by
  rw [contains, hs.get?_nodes, decide_eq_true_eq]
  constructor
  · intro h
    obtain ⟨e, hfind, rfl⟩ := Option.map_eq_some_iff.1 h
    exact List.mem_map_of_mem (List.mem_of_find?_eq_some hfind)
  · intro hn
    obtain ⟨e, he, rfl⟩ := List.mem_map.1 hn
    rw [find?_serial hg (b := e.2) he]
    rfl

theorem block? (hs : s.Represents g) (hg : g.WellFormed) (n : NodeId) :
    s.block? n = g.block? n := by
  rw [IndexedGraph.block?]
  by_cases hn : n ∈ g.ids
  · rw [if_pos ((hs.contains_iff hg).2 hn), hs.get?_nodes]
    obtain ⟨⟨n, b⟩, he, rfl⟩ := List.mem_map.1 hn
    rw [find?_serial hg he, hg.block_eq he]
    rfl
  · rw [if_neg fun h => hn ((hs.contains_iff hg).1 h), FlowGraph.block?, Digraph.body?]
    refine (Option.map_eq_none_iff.2 (List.find?_eq_none.2 fun e he heq => hn ?_)).symm
    rw [← of_decide_eq_true heq]
    exact List.mem_map_of_mem he

theorem find? (hs : s.Represents g) (l : Value) : s.find? l = g.find? l := by
  rw [IndexedGraph.find?, hs.labels]
  rfl

theorem contains_labels (hs : s.Represents g) (l : Value) :
    s.labels.contains l.key = true ↔ l.key ∈ g.labels.map Value.key := by
  have hfind : s.labels.contains l.key = (g.find? l).isSome := by
    rw [← hs.find? l]
    rfl
  rw [hfind, Option.isSome_iff_ne_none, Ne, FlowGraph.find?_eq_none, not_not]

theorem contains_nodes (hs : s.Represents g) (k : Nat) :
    s.nodes.contains k = true ↔ k ∈ g.ids.map (·.serial) := by
  rw [Table.contains, hs.get?_nodes, List.find?_isSome, Digraph.ids, List.map_map, List.mem_map]
  simp

theorem size (hs : s.Represents g) : s.nodes.size = g.size := by
  rw [Table.size, hs.nodes, List.length_map]
  rfl

end Represents

/-! ## Running changes -/

theorem get_run (s : IndexedGraph) : (get : Edit IndexedGraph) s = (.ok s, s) := rfl

theorem modify_run (f : IndexedGraph → IndexedGraph) (s : IndexedGraph) :
    (modify f : Edit Unit) s = (.ok (), f s) := rfl

theorem throw_run (f : Failure) (s : IndexedGraph) : (throw f : Edit α) s = (.error f, s) := rfl

theorem pure_run (a : α) (s : IndexedGraph) : (pure a : Edit α) s = (.ok a, s) := rfl

theorem bind_run (x : Edit α) (f : α → Edit β) (s : IndexedGraph) :
    (x >>= f) s = match x s with
      | (.ok a, s') => f a s'
      | (.error e, s') => (.error e, s') := by
  rcases hrun : x s with ⟨e | a, s'⟩
  · exact bind_error hrun
  · exact bind_ok hrun

theorem ite_run {c : Prop} [Decidable c] (x y : Edit α) (s : IndexedGraph) :
    (if c then x else y) s = if c then x s else y s := apply_ite (fun z : Edit α => z s) c x y

theorem checkMember_run (n : NodeId) (s : IndexedGraph) :
    checkMember n s = if s.contains n then (.ok (), s) else (.error (.graph (.notAMember n)), s) := by
  simp only [checkMember, bind_run, get_run, ite_run, pure_run, throw_run]

structure Agrees (x : Except Failure α × IndexedGraph) (y : Except Failure α × FlowGraph) : Prop where
  outcome : x.1 = y.1
  represents : x.2.Represents y.2

/-- The outcome of a change of a graph, with its errors among the failures. -/
def told (y : Except GraphError α × FlowGraph) : Except Failure α × FlowGraph :=
  (y.1.mapError .graph, y.2)

/-- On the maps of well-formed graphs one change does what the other one does on the graphs. -/
def Follows (x : Edit α) (y : FlowGraph.Edit α) : Prop :=
  ∀ s g, s.Represents g → g.WellFormed → Agrees (x s) (told (y g))

namespace Agrees

theorem bind {x : Edit α} {y : FlowGraph.Edit α} {f : α → Edit β} {h : α → FlowGraph.Edit β}
    (hxy : Agrees (x s) (told (y g)))
    (hfh : ∀ a s' g', y g = (.ok a, g') → s'.Represents g' → Agrees (f a s') (told (h a g'))) :
    Agrees ((x >>= f) s) (told ((y >>= h) g)) := by
  obtain ⟨houtcome, hrepresents⟩ := hxy
  rcases hx : x s with ⟨o, s'⟩
  rw [hx] at houtcome hrepresents
  rcases hy : y g with ⟨e | a, g'⟩
  · rw [hy] at houtcome hrepresents
    obtain rfl : o = .error (.graph e) := houtcome
    rw [bind_error hx, bind_error hy]
    exact ⟨rfl, hrepresents⟩
  · rw [hy] at houtcome hrepresents
    obtain rfl : o = .ok a := houtcome
    rw [bind_ok hx, bind_ok hy]
    exact hfh a s' g' hy hrepresents

end Agrees

theorem Follows.bind {x : Edit α} {y : FlowGraph.Edit α} {f : α → Edit β} {h : α → FlowGraph.Edit β}
    (hxy : Follows x y) (hy : FlowGraph.Edit.Keeps y) (hfh : ∀ a, Follows (f a) (h a)) :
    Follows (x >>= f) (y >>= h) := by
  intro s g hs hg
  refine (hxy s g hs hg).bind fun a s' g' hrun hs' => hfh a s' g' hs' ?_
  have hg' := hy g hg
  rwa [hrun] at hg'

theorem follows_pure (a : α) : Follows (pure a) (pure a) := fun _ _ hs _ => ⟨rfl, hs⟩

/-! ## Nodes -/

theorem addNode_run (n : NodeId) (b : Block) (s : IndexedGraph) :
    addNode n b s =
      if s.labels.contains b.label.key then (.error (.graph (.duplicateLabel b.label)), s)
      else if s.nodes.contains n.serial then (.error (.graph (.duplicateNode n)), s)
      else (.ok (), { s with
        nodes := s.nodes.set n.serial (n, b), labels := s.labels.set b.label.key n,
        entry := if s.entry = none then some n else s.entry, generation := s.generation + 1 }) := by
  simp only [addNode, enlist, advance, bind_run, get_run, ite_run, pure_run, throw_run, modify_run]
  by_cases hlabel : s.labels.contains b.label.key = true
  · simp only [if_pos hlabel]
  · simp only [if_neg hlabel]
    by_cases hserial : s.nodes.contains n.serial = true
    · simp only [if_pos hserial]
    · simp only [if_neg hserial]
      split <;> rfl

theorem newNode_run (b : Block) (s : IndexedGraph) :
    newNode b s =
      if s.labels.contains b.label.key then
        (.error (.graph (.duplicateLabel b.label)), { s with lastNode := s.lastNode + 1 })
      else if s.nodes.contains (s.lastNode + 1) then
        (.error (.graph (.duplicateNode ⟨s.tag, s.lastNode + 1⟩)), { s with lastNode := s.lastNode + 1 })
      else (.ok ⟨s.tag, s.lastNode + 1⟩, { s with
        nodes := s.nodes.set (s.lastNode + 1) (⟨s.tag, s.lastNode + 1⟩, b)
        labels := s.labels.set b.label.key ⟨s.tag, s.lastNode + 1⟩
        entry := if s.entry = none then some ⟨s.tag, s.lastNode + 1⟩ else s.entry
        lastNode := s.lastNode + 1, generation := s.generation + 1 }) := by
  simp only [newNode, bind_run, get_run, pure_run, modify_run, addNode_run]
  by_cases hlabel : s.labels.contains b.label.key = true
  · simp only [if_pos hlabel]
  · simp only [if_neg hlabel]
    by_cases hserial : s.nodes.contains (s.lastNode + 1) = true
    · simp only [if_pos hserial]
    · simp only [if_neg hserial]

/-- Only the new label is looked up otherwise than before. -/
theorem find?_added (hb : b.label.key ∉ g.labels.map Value.key) (n : NodeId) (k : Key) :
    ((g.nodes ++ [(n, b)]).find? fun e => e.2.label.key = k).map (·.1) =
      if b.label.key = k then some n
      else (g.nodes.find? fun e => e.2.label.key = k).map (·.1) := by
  rw [List.find?_append, List.find?_singleton]
  by_cases hk : b.label.key = k
  · have hnone : (g.nodes.find? fun e => e.2.label.key = k) = none := by
      refine List.find?_eq_none.2 fun e he heq => hb (List.mem_map.2 ⟨e.2.label, ?_, ?_⟩)
      · exact List.mem_map_of_mem he
      · exact (of_decide_eq_true heq).trans hk.symm
    simp [hk, hnone]
  · simp [hk]

theorem follows_newNode (b : Block) : Follows (newNode b) (FlowGraph.Edit.node b) := by
  intro s g hs hg
  change Agrees _ (told (g.newNode b))
  have hlabel := hs.contains_labels b.label
  rw [newNode_run]
  by_cases hb : b.label.key ∈ g.labels.map Value.key
  · rw [if_pos (hlabel.2 hb), FlowGraph.WellFormed.newNode_eq_error hb]
    exact ⟨rfl, { hs with lastNode := congrArg (· + 1) hs.lastNode }⟩
  · have hserial : ¬ s.nodes.contains (s.lastNode + 1) = true := by
      rw [hs.contains_nodes, hs.lastNode]
      exact hg.nextNode_notMem
    have hnew : s.lastNode + 1 ∉ s.nodes.keys := by
      rwa [Table.mem_keys, ← Table.contains_iff]
    rw [if_neg fun h => hb (hlabel.1 h), if_neg hserial, hg.newNode_eq hb]
    rw [hs.lastNode] at hnew
    rw [hs.tag, hs.lastNode]
    refine ⟨rfl, rfl, ?_, hs.out, hs.into, fun k => ?_, ?_, rfl, hs.lastEdge,
      congrArg (· + 1) hs.generation⟩
    · refine (Table.entries_set_new hnew _).trans ?_
      rw [hs.nodes, told, List.map_append]
      rfl
    · refine (Table.get?_set _ _ _ _).trans ?_
      rw [hs.labels]
      exact (find?_added hb _ k).symm
    · change (if s.entry = none then some _ else s.entry) = _
      rw [hs.entry]
      cases g.entry <;> simp [told]

theorem follows_nodeOf (l : Value) : Follows (nodeOf l) (FlowGraph.Edit.nodeOf l) := by
  intro s g hs hg
  have hget : (get : FlowGraph.Edit FlowGraph) g = (.ok g, g) := rfl
  unfold nodeOf FlowGraph.Edit.nodeOf
  rw [bind_ok (get_run s), bind_ok hget, hs.find? l]
  cases g.find? l with
  | some n => exact ⟨rfl, hs⟩
  | none => exact follows_newNode _ s g hs hg

/-- Without a node its label is not found, and every other one is as before. -/
theorem find?_dropped (hg : g.WellFormed) (hb : (n, b) ∈ g.nodes) (k : Key) :
    ((g.nodes.filter fun e => e.1 ≠ n).find? fun e => e.2.label.key = k).map (·.1) =
      if b.label.key = k then none
      else (g.nodes.find? fun e => e.2.label.key = k).map (·.1) := by
  have hmem : ∀ e ∈ g.nodes, e.1 = n ↔ e.2.label.key = b.label.key := by
    intro e he
    rw [← hg.label_eq he, ← hg.label_eq hb]
    exact ⟨fun heq => heq ▸ rfl,
      hg.eq_of_key (List.mem_map_of_mem he) (List.mem_map_of_mem (f := (·.1)) hb)⟩
  rw [List.find?_filter]
  by_cases hk : b.label.key = k
  · rw [if_pos hk, Option.map_eq_none_iff, List.find?_eq_none]
    intro e he hfound
    simp only [decide_eq_true_eq] at hfound
    exact hfound.1 ((hmem e he).2 (hfound.2.trans hk.symm))
  · rw [if_neg hk]
    congr 1
    refine List.find?_congr fun e he => ?_
    by_cases hsame : e.2.label.key = k
    · have hne : e.1 ≠ n := fun heq => hk (((hmem e he).1 heq).symm.trans hsame)
      simp [hne]
    · simp [hsame]

theorem unlist_run (n : NodeId) (s : IndexedGraph) :
    unlist n s =
      if s.contains n then
        if s.outEdges n ≠ [] ∨ s.inEdges n ≠ [] then (.error (.graph (.edgesLeft n)), s)
        else (.ok (), { s with
          nodes := s.nodes.erase n.serial, out := s.out.erase n, into := s.into.erase n
          generation := s.generation + 1 })
      else (.error (.graph (.notAMember n)), s) := by
  simp only [unlist, advance, bind_run, get_run, ite_run, throw_run, modify_run, checkMember_run]
  by_cases hn : s.contains n = true
  · simp only [if_pos hn]
  · simp only [if_neg hn]

theorem dropNode_run (n : NodeId) (g : FlowGraph) :
    FlowGraph.Edit.dropNode n g =
      if g.contains n then
        if g.outEdges n ≠ [] ∨ g.inEdges n ≠ [] then (.error (.edgesLeft n), g)
        else (.ok (), { g with
          nodes := g.nodes.filter (fun e => e.1 ≠ n), generation := g.generation + 1
          entry := if g.entry = some n then none else g.entry })
      else (.error (.notAMember n), g) := by
  unfold FlowGraph.Edit.dropNode FlowGraph.Edit.ofExcept FlowGraph.deleteNode Digraph.deleteNode
    Digraph.checkMember
  by_cases hn : g.contains n = true
  · simp only [if_pos hn]
    by_cases hedges : g.outEdges n ≠ [] ∨ g.inEdges n ≠ []
    · simp only [if_pos hedges]
      rfl
    · simp only [if_neg hedges]
      rfl
  · simp only [if_neg hn]
    rfl

/-- The maps without a node that has no edges left are those of the graph without it. -/
theorem Represents.drop (hs : s.Represents g) (hg : g.WellFormed) (hb : (n, b) ∈ g.nodes)
    (hout : g.outEdges n = []) (hin : g.inEdges n = []) (entry : Option NodeId) :
    Represents
      { s with
        nodes := s.nodes.erase n.serial, out := s.out.erase n, into := s.into.erase n
        labels := s.labels.erase b.label.key, entry := entry, generation := s.generation + 1 }
      { g with
        nodes := g.nodes.filter (fun e => e.1 ≠ n), generation := g.generation + 1
        entry := entry } := by
  refine ⟨hs.tag, ?_, fun m => ?_, fun m => ?_, fun k => ?_, rfl, hs.lastNode, hs.lastEdge,
    congrArg (· + 1) hs.generation⟩
  · change s.nodes.entries.filter (fun e => e.1 ≠ n.serial) = _
    rw [hs.nodes, List.filter_map]
    refine congrArg _ (List.filter_congr fun e he => ?_)
    have hiff : e.1.serial = n.serial ↔ e.1 = n :=
      ⟨List.inj_on_of_nodup_map hg.serials (List.mem_map_of_mem he)
        (List.mem_map_of_mem (f := (·.1)) hb), congrArg _⟩
    simp [hiff]
  · change ((s.out.erase n).get? m).getD [] = g.outEdges m
    rw [Table.get?_erase]
    split
    · next heq => rw [← heq, hout]; rfl
    · exact hs.out m
  · change ((s.into.erase n).get? m).getD [] = g.inEdges m
    rw [Table.get?_erase]
    split
    · next heq => rw [← heq, hin]; rfl
    · exact hs.into m
  · refine (Table.get?_erase _ _ _).trans ?_
    rw [hs.labels]
    exact (find?_dropped hg hb k).symm

theorem follows_deleteNode (n : NodeId) : Follows (deleteNode n) (FlowGraph.Edit.dropNode n) := by
  intro s g hs hg
  have hcontains : s.contains n = g.contains n :=
    Bool.eq_iff_iff.2 ((hs.contains_iff hg).trans Digraph.contains_iff.symm)
  simp only [deleteNode, dropLabel, bind_run, get_run, ite_run, pure_run, throw_run, modify_run,
    unlist_run, dropNode_run, hcontains, hs.out, hs.into]
  by_cases hn : g.contains n = true
  · simp only [if_pos hn]
    by_cases hedges : g.outEdges n ≠ [] ∨ g.inEdges n ≠ []
    · simp only [if_pos hedges]
      exact ⟨rfl, hs⟩
    · simp only [if_neg hedges]
      obtain ⟨⟨n, b⟩, hb, rfl⟩ := List.mem_map.1 (Digraph.contains_iff.1 hn)
      have hblock : (s.block? n).getD default = b := by
        rw [hs.block? hg, hg.block_eq hb]
        rfl
      have hlabel : s.labels.contains b.label.key = true :=
        (hs.contains_labels b.label).2 (List.mem_map_of_mem (List.mem_map_of_mem hb))
      have hdrop := hs.drop hg hb (not_not.1 fun h => hedges (.inl h))
        (not_not.1 fun h => hedges (.inr h))
      simp only [hblock, if_pos hlabel, hs.entry]
      split
      · exact ⟨rfl, hdrop none⟩
      · have hkept := hdrop s.entry
        rw [hs.entry] at hkept
        exact ⟨rfl, hkept⟩
  · simp only [if_neg hn]
    exact ⟨rfl, hs⟩

/-! ## Edges -/

theorem addEdge_run (n m : NodeId) (a : Attributes) (s : IndexedGraph) :
    addEdge n m a s =
      if s.contains n then
        if s.contains m then
          (.ok ⟨⟨s.tag, s.lastEdge + 1⟩, n, m, a⟩, { s with
            out := s.out.set n (s.outEdges n ++ [⟨⟨s.tag, s.lastEdge + 1⟩, n, m, a⟩])
            into := s.into.set m (s.inEdges m ++ [⟨⟨s.tag, s.lastEdge + 1⟩, n, m, a⟩])
            lastEdge := s.lastEdge + 1, generation := s.generation + 1 })
        else (.error (.graph (.notAMember m)), s)
      else (.error (.graph (.notAMember n)), s) := by
  simp only [addEdge, advance, bind_run, get_run, pure_run, modify_run, checkMember_run]
  by_cases hn : s.contains n = true
  · simp only [if_pos hn]
    by_cases hm : s.contains m = true
    · simp only [if_pos hm]
      rfl
    · simp only [if_neg hm]
  · simp only [if_neg hn]

theorem edge_run (n m : NodeId) (a : Attributes) (g : FlowGraph) :
    FlowGraph.Edit.edge n m a g =
      if g.contains n then
        if g.contains m then
          (.ok ⟨⟨g.tag, g.lastEdge + 1⟩, n, m, a⟩, { g with
            edges := g.edges ++ [⟨⟨g.tag, g.lastEdge + 1⟩, n, m, a⟩], lastEdge := g.lastEdge + 1
            generation := g.generation + 1 })
        else (.error (.notAMember m), g)
      else (.error (.notAMember n), g) := by
  unfold FlowGraph.Edit.edge FlowGraph.Edit.ofExcept FlowGraph.addEdge Digraph.addEdge
    Digraph.checkMember
  by_cases hn : g.contains n = true
  · simp only [if_pos hn]
    by_cases hm : g.contains m = true
    · simp only [if_pos hm]
      rfl
    · simp only [if_neg hm]
      rfl
  · simp only [if_neg hn]
    rfl

theorem follows_addEdge (n m : NodeId) (a : Attributes) :
    Follows (addEdge n m a) (FlowGraph.Edit.edge n m a) := by
  intro s g hs hg
  have hcontains : ∀ n, s.contains n = g.contains n := fun n =>
    Bool.eq_iff_iff.2 ((hs.contains_iff hg).trans Digraph.contains_iff.symm)
  rw [addEdge_run, edge_run, hcontains, hcontains, hs.tag, hs.lastEdge, hs.out, hs.into]
  by_cases hn : g.contains n = true
  · rw [if_pos hn, if_pos hn]
    by_cases hm : g.contains m = true
    · rw [if_pos hm, if_pos hm]
      refine ⟨rfl, rfl, hs.nodes, fun x => ?_, fun x => ?_, hs.labels, hs.entry, hs.lastNode, rfl,
        congrArg (· + 1) hs.generation⟩
      · change ((s.out.set n _).get? x).getD [] = (g.edges ++ [_]).filter _
        rw [Table.get?_set, List.filter_append]
        by_cases hx : n = x
        · subst hx
          simp [Digraph.outEdges]
        · rw [if_neg hx]
          have hout : (s.out.get? x).getD [] = g.outEdges x := hs.out x
          simpa [hx, Digraph.outEdges] using hout
      · change ((s.into.set m _).get? x).getD [] = (g.edges ++ [_]).filter _
        rw [Table.get?_set, List.filter_append]
        by_cases hx : m = x
        · subst hx
          simp [Digraph.inEdges]
        · rw [if_neg hx]
          have hinto : (s.into.get? x).getD [] = g.inEdges x := hs.into x
          simpa [hx, Digraph.inEdges] using hinto
    · rw [if_neg hm, if_neg hm]
      exact ⟨rfl, hs⟩
  · rw [if_neg hn, if_neg hn]
    exact ⟨rfl, hs⟩

theorem follows_connect (source target : Value) (a : Attributes) :
    Follows (connect source target a) fun g => g.connect source target a :=
  (follows_nodeOf source).bind (FlowGraph.Edit.keeps_nodeOf source) fun n =>
    (follows_nodeOf target).bind (FlowGraph.Edit.keeps_nodeOf target) fun m => follows_addEdge n m a

/-- Where numbers are given once, the edges of some kind without an edge are those with another
number. -/
theorem filter_ne_id (hg : g.WellFormed) (he : e ∈ g.edges) (p : Edge → Bool) :
    (g.edges.filter (·.id ≠ e.id)).filter p = (g.edges.filter p).erase e := by
  have hnodup : g.edges.Nodup := hg.edges.of_map
  rw [(hnodup.filter p).erase_eq_filter, List.filter_filter, List.filter_filter]
  refine List.filter_congr fun e' he' => ?_
  have hiff : e'.id = e.id ↔ e' = e :=
    ⟨fun h => List.inj_on_of_nodup_map hg.edges he' he (congrArg EdgeId.serial h), congrArg _⟩
  simp [hiff, Bool.and_comm, bne, beq_eq_decide]

theorem removeEdge_run (e : Edge) (s : IndexedGraph) :
    removeEdge e s =
      if e ∈ s.outEdges e.source then
        if e ∈ s.inEdges e.target then
          (.ok (), { s with
            out := s.out.set e.source ((s.outEdges e.source).erase e)
            into := s.into.set e.target ((s.inEdges e.target).erase e)
            generation := s.generation + 1 })
        else (.error .noSuchEdge,
          { s with out := s.out.set e.source ((s.outEdges e.source).erase e) })
      else (.error .noSuchEdge, s) := by
  simp only [removeEdge, dropOut, dropInto, advance, bind_run, get_run, ite_run, throw_run, modify_run]
  have hkept : ∀ t, { s with out := t }.inEdges e.target = s.inEdges e.target := fun _ => rfl
  by_cases hout : e ∈ s.outEdges e.source
  · simp only [if_pos hout]
    rw [hkept]
    by_cases hin : e ∈ s.inEdges e.target
    · simp only [if_pos hin]
    · simp only [if_neg hin]
  · simp only [if_neg hout]

theorem mem_outEdges (hs : s.Represents g) : e ∈ s.outEdges e.source ↔ e ∈ g.edges := by
  rw [hs.out, Digraph.mem_outEdges]
  simp

theorem mem_inEdges (hs : s.Represents g) : e ∈ s.inEdges e.target ↔ e ∈ g.edges := by
  rw [hs.into, Digraph.mem_inEdges]
  simp

theorem removeEdge_error (hs : s.Represents g) (he : e ∉ g.edges) :
    removeEdge e s = (.error .noSuchEdge, s) := by
  rw [removeEdge_run, if_neg fun h => he ((mem_outEdges hs).1 h)]

theorem removeEdge_ok (hs : s.Represents g) (hg : g.WellFormed) (he : e ∈ g.edges) :
    ∃ s' d, removeEdge e s = (.ok (), s') ∧ g.toDigraph.removeEdge? e.id = some d ∧
      s'.Represents { g with toDigraph := d } := by
  have hremove : g.toDigraph.removeEdge? e.id = some { g.toDigraph with
      edges := g.edges.filter (·.id ≠ e.id), generation := g.generation + 1 } := by
    rw [Digraph.removeEdge?, if_pos]
    simpa using ⟨e, he, rfl⟩
  have hrun := removeEdge_run e s
  rw [if_pos ((mem_outEdges hs).2 he), if_pos ((mem_inEdges hs).2 he)] at hrun
  refine ⟨_, _, hrun, hremove, hs.tag, hs.nodes, fun n => ?_, fun n => ?_, hs.labels, hs.entry,
    hs.lastNode, hs.lastEdge, congrArg (· + 1) hs.generation⟩
  · change ((s.out.set e.source _).get? n).getD [] = (g.edges.filter _).filter _
    rw [Table.get?_set, filter_ne_id hg he]
    split
    · next heq => rw [← heq, Option.getD_some, hs.out, Digraph.outEdges]
    · next hne =>
      exact (hs.out n).trans (List.erase_of_not_mem fun h => hne (Digraph.mem_outEdges.1 h).2).symm
  · change ((s.into.set e.target _).get? n).getD [] = (g.edges.filter _).filter _
    rw [Table.get?_set, filter_ne_id hg he]
    split
    · next heq => rw [← heq, Option.getD_some, hs.into, Digraph.inEdges]
    · next hne =>
      exact (hs.into n).trans (List.erase_of_not_mem fun h => hne (Digraph.mem_inEdges.1 h).2).symm

theorem follows_deleteEdge (n m : NodeId) :
    Follows (deleteEdge n m) (FlowGraph.Edit.ofExcept fun g => g.deleteEdge n m) := by
  intro s g hs hg
  unfold deleteEdge
  rw [bind_ok (get_run s), hs.out]
  cases hfind : (g.outEdges n).find? fun e => e.target = m with
  | none =>
    have hrun : g.deleteEdge n m = .error (.noEdge n m) := by
      unfold FlowGraph.deleteEdge Digraph.deleteEdge
      rw [hfind]
      rfl
    simp only [FlowGraph.Edit.ofExcept, hrun]
    exact ⟨rfl, hs⟩
  | some e =>
    have he : e ∈ g.edges := (Digraph.mem_outEdges.1 (List.mem_of_find?_eq_some hfind)).1
    obtain ⟨s', d, hrun, hremove, hs'⟩ := removeEdge_ok hs hg he
    have hdelete : g.deleteEdge n m = .ok (e, { g with toDigraph := d }) := by
      unfold FlowGraph.deleteEdge Digraph.deleteEdge
      rw [hfind]
      simp only [hremove]
      rfl
    simp only [FlowGraph.Edit.ofExcept, hdelete]
    rw [bind_ok hrun]
    exact ⟨rfl, hs'⟩

/-! ## Contraction -/

theorem touching_mem (hs : s.Represents g) {r : Region} : ∀ e ∈ s.touching r, e ∈ g.edges := by
  intro e he
  obtain ⟨n, -, hn⟩ := List.mem_flatMap.1 (mem_distinct.1 he)
  rw [hs.out, hs.into] at hn
  rcases List.mem_append.1 hn with h | h
  · exact (Digraph.mem_outEdges.1 h).1
  · exact (Digraph.mem_inEdges.1 h).1

theorem touching_ids (hs : s.Represents g) (hg : g.WellFormed) (r : Region) :
    (s.touching r).map (·.id) = g.toDigraph.touching r := by
  have hmem := touching_mem hs (r := r)
  rw [touching, Digraph.touching, ← distinct_map fun e he e' he' hid => List.inj_on_of_nodup_map
    hg.edges (hmem e (mem_distinct.2 he)) (hmem e' (mem_distinct.2 he')) (congrArg EdgeId.serial hid)]
  simp only [hs.out, hs.into]

theorem removeEdges_ok {es : List Edge} (hes : es.Nodup) (hs : s.Represents g) (hg : g.WellFormed)
    (hmem : ∀ e ∈ es, e ∈ g.edges) :
    ∃ s', es.forM removeEdge s = (.ok (), s') ∧
      s'.Represents { g with toDigraph := g.toDigraph.removeAll (es.map (·.id)) } := by
  induction es generalizing s g with
  | nil => exact ⟨s, rfl, hs⟩
  | cons e es ih =>
    rw [List.nodup_cons] at hes
    have he := hmem e List.mem_cons_self
    obtain ⟨s₁, d, hrun, hremove, hs₁⟩ := removeEdge_ok hs hg he
    have hg₁ : FlowGraph.WellFormed { g with toDigraph := d } :=
      hg.removeEdge (i := e.id) (by rw [FlowGraph.removeEdge?, hremove]; rfl)
    have hedges : d.edges = g.edges.filter (·.id ≠ e.id) := by
      rw [Digraph.removeEdge_eq_some hremove]
    obtain ⟨s₂, hrest, hs₂⟩ := ih hes.2 hs₁ hg₁ fun e' he' => by
      have hmem' := hmem e' (List.mem_cons_of_mem e he')
      refine hedges ▸ List.mem_filter.2 ⟨hmem', decide_eq_true fun hid => hes.1 ?_⟩
      rwa [← List.inj_on_of_nodup_map hg.edges hmem' he (congrArg EdgeId.serial hid)]
    refine ⟨s₂, ?_, ?_⟩
    · rw [List.forM_eq_forM, List.forM_cons, bind_ok hrun]
      exact hrest
    · rw [List.map_cons, Digraph.removeAll, hremove]
      exact hs₂

theorem follows_deleteNodes (ns : List NodeId) :
    Follows (ns.forM deleteNode) (FlowGraph.Edit.dropNodes ns) := by
  induction ns with
  | nil => exact follows_pure ()
  | cons n ns ih =>
    exact (follows_deleteNode n).bind (FlowGraph.Edit.keeps_dropNode n) fun _ => ih

theorem forM_discard (f : α → Edit β) (a : α) (as : List α) :
    ((a :: as).forM fun a => discard (f a)) = f a >>= fun _ => as.forM fun a => discard (f a) := by
  change ((f a >>= fun _ => pure ()) >>= fun _ => _) = _
  rw [bind_assoc]
  rfl

theorem follows_incoming (n : NodeId) (es : List Edge) :
    Follows (es.forM fun e => discard (addEdge e.source n e.attributes))
      (FlowGraph.Edit.incoming n es) := by
  induction es with
  | nil => exact follows_pure ()
  | cons e es ih =>
    rw [forM_discard]
    exact (follows_addEdge _ _ _).bind (FlowGraph.Edit.keeps_edge _ _ _) fun _ => ih

theorem follows_outgoing (n : NodeId) (es : List (Edge × Bool)) :
    Follows (es.forM fun e => discard (addEdge n (if e.2 then n else e.1.target) e.1.attributes))
      (FlowGraph.Edit.outgoing n es) := by
  induction es with
  | nil => exact follows_pure ()
  | cons e es ih =>
    rw [forM_discard]
    exact (follows_addEdge _ _ _).bind (FlowGraph.Edit.keeps_edge _ _ _) fun _ => ih

/-- If the entry was contracted, the new node is the entry. -/
theorem follows_enter (c : Prop) [Decidable c] (n : NodeId) :
    Follows
      (do
        if c then setEntry n
        return n)
      (do
        if c then modify fun g => { g with entry := some n }
        return n) := by
  intro s g hs hg
  by_cases hc : c
  · rw [if_pos hc, if_pos hc]
    exact ⟨rfl, { hs with entry := rfl }⟩
  · rw [if_neg hc, if_neg hc]
    exact ⟨rfl, hs⟩

theorem follows_contract (r : Region) (b : Block) :
    Follows (contract r b) (FlowGraph.contract r b) := by
  intro s g hs hg
  have hget : (get : FlowGraph.Edit FlowGraph) g = (.ok g, g) := rfl
  have hset : (set { g with toDigraph := g.toDigraph.removeAll (g.toDigraph.touching r) } :
      FlowGraph.Edit Unit) g =
      (.ok (), { g with toDigraph := g.toDigraph.removeAll (g.toDigraph.touching r) }) := rfl
  have hremoved := hg.removeAll (g.toDigraph.touching r)
  have hincoming : s.incoming r = g.toDigraph.incoming r := by
    rw [incoming, hs.into, Digraph.incoming]
  have houtgoing : s.outgoing r = g.toDigraph.outgoing r := by
    simp only [outgoing, hs.out, Digraph.outgoing]
  have hnodup : (s.touching r).Nodup := nodup_distinct _
  obtain ⟨s₁, hrun, hs₁⟩ := removeEdges_ok hnodup hs hg (touching_mem hs)
  rw [touching_ids hs hg] at hs₁
  have hentry : s₁.entry = g.entry := hs₁.entry
  unfold contract FlowGraph.contract
  rw [bind_ok (get_run s), bind_ok hrun, bind_ok (get_run s₁), bind_ok hget, bind_ok hset, hincoming,
    houtgoing, hentry]
  have hrest := (follows_deleteNodes r.members).bind (FlowGraph.Edit.keeps_dropNodes r.members)
    fun _ => (follows_newNode b).bind (FlowGraph.Edit.keeps_node b)
    fun n => (follows_incoming n _).bind (FlowGraph.Edit.keeps_incoming n (g.toDigraph.incoming r))
    fun _ => (follows_outgoing n _).bind (FlowGraph.Edit.keeps_outgoing n (g.toDigraph.outgoing r))
    fun _ => follows_enter (g.entry = some r.entry) n
  exact hrest s₁ _ hs₁ hremoved

theorem agrees_merge (hs : s.Represents g) (hg : g.WellFormed) {r : Region} (hr : r.entry ∈ g.ids)
    (name : Option String) : Agrees (merge r name s) (g.merge r name) := by
  obtain ⟨⟨n, b⟩, hb, hn⟩ := List.mem_map.1 hr
  have hblock : g.block? r.entry = some b := by rw [← hn, hg.block_eq hb]
  obtain ⟨houtcome, hs'⟩ := follows_contract r { b with name := name } s g hs hg
  unfold merge FlowGraph.merge FlowGraph.mergeAs
  rw [bind_ok (get_run s), hs.block? hg, hblock]
  simp only [Option.getD_some]
  rw [show (FlowGraph.contract r { b with name := name }).run g =
    FlowGraph.contract r { b with name := name } g from rfl]
  rcases hrun : FlowGraph.contract r { b with name := name } g with ⟨e | n, g'⟩
  · rcases hrun' : contract r { b with name := name } s with ⟨o, s'⟩
    rw [hrun, hrun'] at houtcome hs'
    obtain rfl : o = .error (.graph e) := houtcome
    rw [bind_error hrun']
    exact ⟨rfl, hs'⟩
  · rcases hrun' : contract r { b with name := name } s with ⟨o, s'⟩
    rw [hrun, hrun'] at houtcome hs'
    obtain rfl : o = .ok n := houtcome
    change s'.Represents g' at hs'
    rw [bind_ok hrun', bind_ok (get_run s'), hs.size, hs'.size]
    dsimp only
    by_cases hsize : g'.size + r.members.length = g.size + 1
    · rw [if_pos hsize, if_pos hsize]
      exact ⟨rfl, hs'⟩
    · rw [if_neg hsize, if_neg hsize]
      exact ⟨rfl, hs'⟩

end IndexedGraph

end Structuring
