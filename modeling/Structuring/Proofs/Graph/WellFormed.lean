import Structuring.Graph.Sketch
import Structuring.Proofs.Graph.DominatorTree

/-!
# Well-formed control flow graphs

What holds of every control flow graph that is built with nodes and edges of its own: numbers are
given once, labels are unique, edges join members, and the entry is a member.

* `FlowGraph.WellFormed` — these facts.
* `WellFormed.newNode`, `addEdge`, `deleteNode`, `removeEdge`, `connect` — the operations keep them.
* `FlowGraph.AddsNodes` — what several new nodes change.
* `Sketch.draw_wellFormed` — they hold of every graph that is drawn.
* `FlowGraph.Rooted` — what a validated graph adds: every node can be reached from the entry.
-/

namespace Structuring

open Relation

/-! ## Changes that may be refused -/

section Changes

variable {ε σ α β : Type} {m : ExceptT ε (StateM σ) α} {f : α → ExceptT ε (StateM σ) β} {s s' : σ}

theorem bind_ok {a : α} (h : m s = (.ok a, s')) : (m >>= f) s = f a s' := by
  change (StateT.bind m (ExceptT.bindCont f)) s = _
  simp only [StateT.bind, h]
  rfl

theorem bind_error {e : ε} (h : m s = (.error e, s')) : (m >>= f) s = (.error e, s') := by
  change (StateT.bind m (ExceptT.bindCont f)) s = _
  simp only [StateT.bind, h]
  rfl

theorem map_eq_ok {x : Except ε α} {f : α → β} {b : β} (h : x.map f = .ok b) :
    ∃ a, x = .ok a ∧ f a = b := by
  cases x with
  | error e => cases h
  | ok a =>
    cases h
    exact ⟨a, rfl, rfl⟩

end Changes

namespace FlowGraph

/-- What holds of a graph whose nodes and edges are its own. -/
structure WellFormed (g : FlowGraph) : Prop where
  serials : (g.ids.map (·.serial)).Nodup
  serial_le : ∀ n ∈ g.ids, n.serial ≤ g.lastNode
  labels : (g.labels.map Value.key).Nodup
  edges : (g.edges.map (·.id.serial)).Nodup
  edge_le : ∀ e ∈ g.edges, e.id.serial ≤ g.lastEdge
  closed : g.toDigraph.Closed
  entry_mem : ∀ n, g.entry = some n → n ∈ g.ids

variable {g g' : FlowGraph}

theorem addNode_eq_ok {n : NodeId} {b : Block} (h : g.addNode n b = .ok g') :
    g' = { g with nodes := g.nodes ++ [(n, b)], generation := g.generation + 1,
                  entry := g.entry.orElse fun _ => some n } := by
  unfold addNode at h
  by_cases hlabel : g.hasLabel b.label = true
  · rw [if_pos hlabel] at h
    cases h
  · rw [if_neg hlabel] at h
    cases hd : g.toDigraph.addNode n b with
    | error e =>
      rw [hd] at h
      cases h
    | ok d =>
      rw [hd] at h
      cases h
      rw [(Digraph.addNode_eq_ok hd).2]

/-- A new node is refused, and only its number is lost, or it is put behind the others. -/
theorem newNode_cases (g : FlowGraph) (b : Block) :
    (∃ e, g.newNode b = (.error e, { g with lastNode := g.lastNode + 1 })) ∨
      g.newNode b = (.ok ⟨g.tag, g.lastNode + 1⟩,
        { g with nodes := g.nodes ++ [(⟨g.tag, g.lastNode + 1⟩, b)], lastNode := g.lastNode + 1,
                 generation := g.generation + 1,
                 entry := g.entry.orElse fun _ => some ⟨g.tag, g.lastNode + 1⟩ }) := by
  unfold newNode
  dsimp only [Digraph.fresh]
  split
  · next hrun =>
    rw [addNode_eq_ok hrun]
    exact .inr rfl
  · next e hrun => exact .inl ⟨e, rfl⟩

theorem newNode_eq_ok {b : Block} {n : NodeId} (h : g.newNode b = (.ok n, g')) :
    n = ⟨g.tag, g.lastNode + 1⟩ ∧
      g' = { g with nodes := g.nodes ++ [(n, b)], lastNode := g.lastNode + 1,
                    generation := g.generation + 1, entry := g.entry.orElse fun _ => some n } := by
  obtain ⟨e, hrun⟩ | hrun := g.newNode_cases b
  · cases h.symm.trans hrun
  · cases h.symm.trans hrun
    exact ⟨rfl, rfl⟩

theorem addEdge_eq_ok {n m : NodeId} {a : Attributes} {e : Edge}
    (h : g.addEdge n m a = .ok (e, g')) :
    ∃ d, g.toDigraph.addEdge n m a = .ok (e, d) ∧ g' = { g with toDigraph := d } := by
  unfold addEdge at h
  cases hd : g.toDigraph.addEdge n m a with
  | error err =>
    rw [hd] at h
    cases h
  | ok r =>
    rw [hd] at h
    cases h
    exact ⟨_, rfl, rfl⟩

theorem deleteNode_eq_ok {n : NodeId} (h : g.deleteNode n = .ok g') :
    ∃ d, g.toDigraph.deleteNode n = .ok d ∧
      g' = { g with toDigraph := d, entry := if g.entry = some n then none else g.entry } := by
  unfold deleteNode at h
  cases hd : g.toDigraph.deleteNode n with
  | error err =>
    rw [hd] at h
    cases h
  | ok d =>
    rw [hd] at h
    cases h
    exact ⟨d, rfl, rfl⟩

namespace WellFormed

theorem ids_nodup (hg : g.WellFormed) : g.ids.Nodup := hg.serials.of_map

/-! ## Blocks and labels -/

theorem block_eq (hg : g.WellFormed) {n : NodeId} {b : Block} (h : (n, b) ∈ g.nodes) :
    g.block? n = some b := by
  have hfind : (g.nodes.find? fun e => e.1 = n) = some (n, b) := find?_key hg.ids_nodup h
  rw [block?, Digraph.body?, hfind]
  rfl

theorem label_eq (hg : g.WellFormed) {n : NodeId} {b : Block} (h : (n, b) ∈ g.nodes) :
    g.label n = b.label := by
  simp [label, hg.block_eq h]

theorem labels_eq (hg : g.WellFormed) : g.labels = g.ids.map g.label := by
  rw [FlowGraph.labels, Digraph.ids, List.map_map]
  exact List.map_congr_left fun e he => (hg.label_eq he).symm

theorem eq_of_key (hg : g.WellFormed) {n m : NodeId} (hn : n ∈ g.ids) (hm : m ∈ g.ids)
    (h : (g.label n).key = (g.label m).key) : n = m := by
  obtain ⟨⟨n, b⟩, hb, rfl⟩ := List.mem_map.1 hn
  obtain ⟨⟨m, c⟩, hc, rfl⟩ := List.mem_map.1 hm
  rw [hg.label_eq hb, hg.label_eq hc] at h
  have hlabels : (g.nodes.map fun e => e.2.label.key).Nodup := by
    simpa [FlowGraph.labels, Function.comp_def] using hg.labels
  exact congrArg Prod.fst (List.inj_on_of_nodup_map hlabels hb hc h)

/-! ## The operations -/

theorem empty (name : Option Value) (tag : Nat) (a : Attributes) :
    WellFormed { FlowGraph.empty name tag with attributes := a } where
  serials := List.nodup_nil
  serial_le n hn := by cases hn
  labels := List.nodup_nil
  edges := List.nodup_nil
  edge_le e he := by cases he
  closed := Digraph.empty_closed tag
  entry_mem n hn := by cases hn

theorem hasLabel_iff {l : Value} : g.hasLabel l = true ↔ l.key ∈ g.labels.map Value.key := by
  simp only [hasLabel, List.any_eq_true, Value.same_iff, FlowGraph.labels, List.map_map,
    List.mem_map, Function.comp_apply]

theorem addNode_eq {n : NodeId} {b : Block} (hlabel : g.hasLabel b.label = false)
    (hserial : n.serial ∉ g.ids.map (·.serial)) :
    g.addNode n b = .ok { g with
      nodes := g.nodes ++ [(n, b)], generation := g.generation + 1,
      entry := g.entry.orElse fun _ => some n } := by
  unfold FlowGraph.addNode
  rw [if_neg (by simp [hlabel]), Digraph.addNode_eq hserial]
  rfl

theorem addNode_eq_error {n : NodeId} {b : Block} (hlabel : g.hasLabel b.label = true) :
    g.addNode n b = .error (.duplicateLabel b.label) := by
  unfold FlowGraph.addNode
  rw [if_pos hlabel]
  rfl

theorem nextNode_notMem (hg : g.WellFormed) : g.lastNode + 1 ∉ g.ids.map (·.serial) := by
  intro hmem
  obtain ⟨n, hn, heq⟩ := List.mem_map.1 hmem
  have := hg.serial_le n hn
  omega

theorem nextEdge_notMem (hg : g.WellFormed) : g.lastEdge + 1 ∉ g.edges.map (·.id.serial) := by
  intro hmem
  obtain ⟨e, he, heq⟩ := List.mem_map.1 hmem
  have := hg.edge_le e he
  omega

theorem newNode_eq (hg : g.WellFormed) {b : Block} (hb : b.label.key ∉ g.labels.map Value.key) :
    g.newNode b = (.ok ⟨g.tag, g.lastNode + 1⟩,
      { g with nodes := g.nodes ++ [(⟨g.tag, g.lastNode + 1⟩, b)], lastNode := g.lastNode + 1,
               generation := g.generation + 1,
               entry := g.entry.orElse fun _ => some ⟨g.tag, g.lastNode + 1⟩ }) := by
  have hlabel : g.hasLabel b.label = false := by
    rw [← Bool.not_eq_true, hasLabel_iff]
    exact hb
  have hadd := addNode_eq (g := { g with toDigraph := g.toDigraph.fresh.2 })
    (n := g.toDigraph.fresh.1) hlabel hg.nextNode_notMem
  unfold FlowGraph.newNode
  simp only [hadd]
  rfl

/-- A node with a label that is there is refused, and only its number is lost. -/
theorem newNode_eq_error {b : Block} (hb : b.label.key ∈ g.labels.map Value.key) :
    g.newNode b = (.error (.duplicateLabel b.label), { g with lastNode := g.lastNode + 1 }) := by
  have hadd := addNode_eq_error (g := { g with toDigraph := g.toDigraph.fresh.2 })
    (n := g.toDigraph.fresh.1) (hasLabel_iff.2 hb)
  unfold FlowGraph.newNode
  simp only [hadd]
  rfl

theorem newNode (hg : g.WellFormed) (b : Block) : (g.newNode b).2.WellFormed := by
  by_cases hb : b.label.key ∈ g.labels.map Value.key
  · rw [newNode_eq_error hb]
    exact { hg with serial_le := fun n hn => (hg.serial_le n hn).trans (Nat.le_succ _) }
  · rw [hg.newNode_eq hb]
    have hclosed := hg.closed.addNode
      (Digraph.addNode_eq (n := ⟨g.tag, g.lastNode + 1⟩) hg.nextNode_notMem b)
    refine ⟨?_, ?_, ?_, hg.edges, hg.edge_le, hclosed, ?_⟩
    · simpa [Digraph.ids] using List.Nodup.concat hg.nextNode_notMem hg.serials
    · intro n hn
      simp only [Digraph.ids, List.map_append, List.mem_append, List.map_cons, List.map_nil,
        List.mem_singleton] at hn
      rcases hn with hn | rfl
      · exact (hg.serial_le n hn).trans (Nat.le_succ _)
      · exact Nat.le_refl _
    · simpa [FlowGraph.labels] using List.Nodup.concat hb hg.labels
    · intro n hn
      simp only at hn
      rw [Digraph.ids, List.map_append]
      cases he : g.entry with
      | none =>
        rw [he] at hn
        cases hn
        exact List.mem_append_right _ (List.mem_singleton_self _)
      | some m =>
        rw [he] at hn
        cases hn
        exact List.mem_append_left _ (hg.entry_mem _ he)

theorem newNode_ordered (hg : g.WellFormed) (ho : g.Ordered) (b : Block) :
    (g.newNode b).2.Ordered := by
  by_cases hb : b.label.key ∈ g.labels.map Value.key
  · rwa [newNode_eq_error hb]
  · rw [hg.newNode_eq hb]
    simp only [Digraph.Ordered, Digraph.ids, List.map_append, List.map_cons, List.map_nil]
    refine List.pairwise_append.2 ⟨ho, List.pairwise_singleton _ _, fun n hn m hm => ?_⟩
    rw [List.mem_singleton.1 hm]
    exact Nat.lt_succ_of_le (hg.serial_le n hn)

theorem addEdge_eq {n m : NodeId} (hn : n ∈ g.ids) (hm : m ∈ g.ids) (a : Attributes) :
    g.addEdge n m a = .ok (⟨⟨g.tag, g.lastEdge + 1⟩, n, m, a⟩,
      { g with edges := g.edges ++ [⟨⟨g.tag, g.lastEdge + 1⟩, n, m, a⟩],
               lastEdge := g.lastEdge + 1, generation := g.generation + 1 }) := by
  simp only [FlowGraph.addEdge, Digraph.addEdge, Digraph.checkMember_eq_ok.2 hn,
    Digraph.checkMember_eq_ok.2 hm]
  rfl

theorem of_addEdge_eq_ok {n m : NodeId} {a : Attributes} {e : Edge}
    (h : g.addEdge n m a = .ok (e, g')) : n ∈ g.ids ∧ m ∈ g.ids := by
  obtain ⟨d, hd, -⟩ := addEdge_eq_ok h
  obtain ⟨hn, hm, -⟩ := Digraph.addEdge_eq_ok hd
  exact ⟨hn, hm⟩

theorem addEdge (hg : g.WellFormed) {n m : NodeId} {a : Attributes} {e : Edge}
    (h : g.addEdge n m a = .ok (e, g')) : g'.WellFormed := by
  obtain ⟨d, hd, rfl⟩ := addEdge_eq_ok h
  have hclosed := hg.closed.addEdge hd
  obtain ⟨-, -, rfl, rfl⟩ := Digraph.addEdge_eq_ok hd
  refine ⟨hg.serials, hg.serial_le, hg.labels, ?_, ?_, hclosed, hg.entry_mem⟩
  · simpa using List.Nodup.concat hg.nextEdge_notMem hg.edges
  · intro e he
    rcases List.mem_append.1 he with he | he
    · exact (hg.edge_le e he).trans (Nat.le_succ _)
    · rw [List.mem_singleton.1 he]

theorem addEdge_ordered (ho : g.Ordered) {n m : NodeId} {a : Attributes} {e : Edge}
    (h : g.addEdge n m a = .ok (e, g')) : g'.Ordered := by
  obtain ⟨d, hd, rfl⟩ := addEdge_eq_ok h
  obtain ⟨-, -, -, rfl⟩ := Digraph.addEdge_eq_ok hd
  exact ho

theorem deleteNode_ordered (ho : g.Ordered) {n : NodeId} (h : g.deleteNode n = .ok g') :
    g'.Ordered := by
  obtain ⟨d, hd, rfl⟩ := deleteNode_eq_ok h
  obtain ⟨-, rfl⟩ := Digraph.deleteNode_eq_ok hd
  exact ho.sublist (List.filter_sublist.map _)

theorem removeEdge_ordered (ho : g.Ordered) {i : EdgeId} (h : g.removeEdge? i = some g') :
    g'.Ordered := by
  unfold FlowGraph.removeEdge? at h
  obtain ⟨d, hd, rfl⟩ := Option.map_eq_some_iff.1 h
  rw [Digraph.removeEdge_eq_some hd]
  exact ho

theorem deleteNode (hg : g.WellFormed) {n : NodeId} (h : g.deleteNode n = .ok g') :
    g'.WellFormed := by
  obtain ⟨d, hd, rfl⟩ := deleteNode_eq_ok h
  have hclosed := hg.closed.deleteNode hd
  obtain ⟨hedges, rfl⟩ := Digraph.deleteNode_eq_ok hd
  have hsub : (g.nodes.filter fun e => e.1 ≠ n).Sublist g.nodes := List.filter_sublist
  refine ⟨hg.serials.sublist ((hsub.map _).map _), fun m hm => ?_,
    hg.labels.sublist ((hsub.map _).map _), hg.edges, hg.edge_le, hclosed, fun m hm => ?_⟩
  · exact hg.serial_le m ((hsub.map _).subset hm)
  · simp only at hm
    split at hm
    · cases hm
    · next hne =>
      obtain ⟨e, he, rfl⟩ := List.mem_map.1 (hg.entry_mem m hm)
      refine List.mem_map_of_mem (List.mem_filter.2 ⟨he, ?_⟩)
      simp only [ne_eq, decide_not, Bool.not_eq_eq_eq_not, Bool.not_true, decide_eq_false_iff_not]
      rintro rfl
      exact hne hm

theorem removeEdge (hg : g.WellFormed) {i : EdgeId} (h : g.removeEdge? i = some g') :
    g'.WellFormed := by
  unfold FlowGraph.removeEdge? at h
  obtain ⟨d, hd, rfl⟩ := Option.map_eq_some_iff.1 h
  have hclosed := hg.closed.removeEdge hd
  rw [Digraph.removeEdge_eq_some hd] at hclosed ⊢
  have hsub : (g.edges.filter (·.id ≠ i)).Sublist g.edges := List.filter_sublist
  exact ⟨hg.serials, hg.serial_le, hg.labels, hg.edges.sublist (hsub.map _),
    fun e he => hg.edge_le e (hsub.subset he), hclosed, hg.entry_mem⟩

theorem setEntry (hg : g.WellFormed) {n : NodeId} (hn : n ∈ g.ids) :
    WellFormed { g with entry := some n } :=
  { hg with entry_mem := fun _ hm => Option.some.inj hm ▸ hn }

end WellFormed

/-! ## Several nodes -/

def newNodes (g : FlowGraph) : List Block → Except GraphError (List NodeId × FlowGraph)
  | [] => .ok ([], g)
  | b :: bs => match g.newNode b with
    | (.error e, _) => .error e
    | (.ok n, g') => do
      let (ns, g'') ← newNodes g' bs
      return (n :: ns, g'')

/-- `h` is `g` with the nodes `ns` for some blocks put behind its own. -/
structure AddsNodes (g : FlowGraph) (bs : List Block) (ns : List NodeId) (h : FlowGraph) : Prop where
  wellFormed : h.WellFormed
  length_eq : ns.length = bs.length
  nodes : h.nodes = g.nodes ++ ns.zip bs
  edges : h.edges = g.edges
  ordered : g.Ordered → h.Ordered

theorem AddsNodes.labels {bs : List Block} {ns : List NodeId} {h : FlowGraph}
    (hadds : AddsNodes g bs ns h) : h.labels = g.labels ++ bs.map (·.label) := by
  have hsnd : (ns.zip bs).map (·.2) = bs := List.map_snd_zip (Nat.le_of_eq hadds.length_eq.symm)
  conv_rhs => rw [← hsnd]
  rw [FlowGraph.labels, FlowGraph.labels, hadds.nodes, List.map_append, List.map_map]
  rfl

theorem WellFormed.newNodes_eq (hg : g.WellFormed) (bs : List Block)
    (hlabels : ((g.labels ++ bs.map (·.label)).map Value.key).Nodup) :
    ∃ ns h, g.newNodes bs = .ok (ns, h) ∧ AddsNodes g bs ns h := by
  induction bs generalizing g with
  | nil => exact ⟨[], g, rfl, hg, rfl, by simp, rfl, id⟩
  | cons b bs ih =>
    have hnew : b.label.key ∉ g.labels.map Value.key := by
      rw [List.map_append, List.map_cons, List.map_cons] at hlabels
      exact fun hmem => (List.nodup_append.1 hlabels).2.2 _ hmem _ List.mem_cons_self rfl
    have hrun := hg.newNode_eq hnew
    have hwf := hg.newNode b
    have hordered := fun ho => hg.newNode_ordered ho b
    rw [hrun] at hwf hordered
    obtain ⟨ns, h, hrun', hadds⟩ := ih hwf (by
      simpa only [FlowGraph.labels, List.map_append, List.map_cons, List.map_nil, List.append_assoc,
        List.singleton_append] using hlabels)
    refine ⟨⟨g.tag, g.lastNode + 1⟩ :: ns, h, ?_, hadds.wellFormed, by simp [hadds.length_eq], ?_,
      hadds.edges, fun ho => hadds.ordered (hordered ho)⟩
    · simp only [newNodes, hrun, hrun']
      rfl
    · rw [hadds.nodes]
      simp

theorem mem_of_find {l : Value} {n : NodeId} (h : g.find? l = some n) : n ∈ g.ids := by
  unfold find? at h
  obtain ⟨e, he, rfl⟩ := Option.map_eq_some_iff.1 h
  exact List.mem_map_of_mem (List.mem_of_find?_eq_some he)

/-! ## Drawing -/

namespace Edit

/-- A change that keeps a property of the graph, also when it is refused. -/
def Maintains {α : Type} (P : FlowGraph → Prop) (m : Edit α) : Prop :=
  ∀ g : FlowGraph, P g → P (m g).2

theorem Maintains.pure {α : Type} {P : FlowGraph → Prop} (a : α) : Maintains P (pure a : Edit α) :=
  fun _ hg => hg

theorem Maintains.bind {α β : Type} {P : FlowGraph → Prop} {m : Edit α} {f : α → Edit β}
    (hm : Maintains P m) (hf : ∀ a, Maintains P (f a)) : Maintains P (m >>= f) := by
  intro g hg
  have hm' := hm g hg
  rcases h : m g with ⟨outcome, g'⟩
  rw [h] at hm'
  cases outcome with
  | ok a =>
    rw [bind_ok h]
    exact hf a g' hm'
  | error e =>
    rw [bind_error h]
    exact hm'

/-- A change that makes well-formed graphs of well-formed ones, also when it is refused. -/
def Keeps {α : Type} (m : Edit α) : Prop := ∀ g : FlowGraph, g.WellFormed → (m g).2.WellFormed

theorem Keeps.pure {α : Type} (a : α) : Keeps (pure a : Edit α) := Maintains.pure a

theorem Keeps.bind {α β : Type} {m : Edit α} {f : α → Edit β} (hm : Keeps m)
    (hf : ∀ a, Keeps (f a)) : Keeps (m >>= f) := Maintains.bind hm hf

theorem keeps_node (b : Block) : Keeps (node b) := fun _ hg => hg.newNode b

theorem keeps_edge (n m : NodeId) (a : Attributes) : Keeps (edge n m a) := by
  intro g hg
  unfold edge ofExcept
  split
  · next h => exact hg.addEdge h
  · exact hg

theorem keeps_nodeOf (l : Value) : Keeps (nodeOf l) := by
  refine Keeps.bind (fun g hg => hg) fun g => ?_
  cases g.find? l with
  | some n => exact Keeps.pure n
  | none => exact keeps_node _

end Edit

theorem WellFormed.connect (hg : g.WellFormed) (source target : Value) (a : Attributes) :
    (g.connect source target a).2.WellFormed :=
  Edit.Keeps.bind (Edit.keeps_nodeOf source)
    (fun n => Edit.Keeps.bind (Edit.keeps_nodeOf target) fun m => Edit.keeps_edge n m a) g hg

end FlowGraph

namespace Sketch

variable {g g' : FlowGraph}

theorem drawNodes_wellFormed {ns : List (Value × Attributes)} (hg : g.WellFormed)
    (h : drawNodes g ns = .ok g') : g'.WellFormed := by
  induction ns generalizing g with
  | nil =>
    cases h
    exact hg
  | cons n ns ih =>
    have hnode := hg.newNode ⟨n.1, none, n.2⟩
    unfold drawNodes at h
    split at h
    · cases h
    · next he =>
      rw [he] at hnode
      exact ih hnode h

theorem drawEdges_wellFormed {es : List (Value × Value × Attributes)} (hg : g.WellFormed)
    (h : drawEdges g es = .ok g') : g'.WellFormed := by
  induction es generalizing g with
  | nil =>
    cases h
    exact hg
  | cons e es ih =>
    have hedge := hg.connect e.1 e.2.1 e.2.2
    unfold drawEdges at h
    split at h
    · cases h
    · next he =>
      rw [he] at hedge
      exact ih hedge h

theorem draw_wellFormed {s : Sketch} {tag : Nat} (h : s.draw tag = .ok g) : g.WellFormed := by
  unfold draw at h
  cases hn : drawNodes { FlowGraph.empty s.name tag with attributes := s.attributes } s.nodes with
  | error f =>
    rw [hn] at h
    cases h
  | ok g₁ =>
    have h₁ := drawNodes_wellFormed (FlowGraph.WellFormed.empty s.name tag s.attributes) hn
    cases he : drawEdges g₁ s.edges with
    | error f =>
      simp only [hn, he, bind, Except.bind] at h
      cases h
    | ok g₂ =>
      have h₂ := drawEdges_wellFormed h₁ he
      simp only [hn, he, bind, Except.bind] at h
      cases hl : s.entry with
      | none =>
        rw [hl] at h
        cases h
        exact h₂
      | some l =>
        rw [hl] at h
        cases hf : g₂.find? l with
        | none =>
          simp only [FlowGraph.nodeNamed, hf] at h
          cases h
        | some n =>
          simp only [FlowGraph.nodeNamed, hf] at h
          cases h
          exact h₂.setEntry (FlowGraph.mem_of_find hf)

end Sketch

namespace FlowGraph

/-- The graph whose edges are given by two-letter words. -/
def ofWords (words : List String) : FlowGraph :=
  ((Sketch.ofWords words).draw 0).toOption.getD default

theorem ofWords_wellFormed (words : List String) : (ofWords words).WellFormed := by
  unfold ofWords
  cases h : (Sketch.ofWords words).draw 0 with
  | error f => exact WellFormed.empty none 0 ∅
  | ok g => exact Sketch.draw_wellFormed h

variable {g : FlowGraph}

def Rooted (g : FlowGraph) (root : NodeId) : Prop :=
  g.entry = some root ∧ ∀ v ∈ g.ids, ReflTransGen g.Leads root v

/-- The check of a graph passes exactly if every node can be reached from the entry. -/
theorem validate_eq_ok (hg : g.toDigraph.Closed) :
    g.validate = .ok () ↔ ∃ root, g.Rooted root := by
  unfold validate validateOn Rooted
  cases g.entry with
  | none => simp
  | some root =>
    have hreach : ∀ v, (g.arcs.reachable root).contains v = true ↔
        ReflTransGen g.Leads root v := by
      intro v
      rw [List.contains_iff_mem, Arcs.mem_reachable hg.coherent, Digraph.arcs_step_eq]
    simp only [Option.some.injEq, exists_eq_left', ← hreach]
    split
    · next h => simpa using h
    · next n h =>
      have hn := List.find?_some h
      have hmem := List.mem_of_find?_eq_some h
      simp only [Bool.not_eq_eq_eq_not, Bool.not_true] at hn
      simp only [reduceCtorEq, false_iff]
      intro hall
      rw [hall n hmem] at hn
      cases hn

end FlowGraph

end Structuring
