import Structuring.Proofs.Graph.Link
import Structuring.Reduction.Merge

/-!
# What a contraction does

* `Region.Fits` — a region that lies in a graph, with the entry of the graph at its own entry if
  anywhere.
* `Contracts` — the new graph: one node for the members, the links outside as they were, and those
  across the border and from the exit back moved to the new node.
* `FlowGraph.merge_contracts` — the contraction of a fitting region succeeds and does this.
-/

namespace Structuring

open Relation

/-- The region consists of nodes of the graph, which has an entry. If the entry of the graph is among
them, it is the entry of the region. -/
structure Region.Fits (r : Region) (g : FlowGraph) : Prop where
  nodup : r.members.Nodup
  mem_ids : ∀ n ∈ r.members, n ∈ g.ids
  entry_mem : r.entry ∈ r.members
  entry_eq : ∃ root, g.entry = some root ∧ (root ∈ r.members → root = r.entry)

/-- Where a node goes when a region becomes the node `n`. -/
def Region.absorb (r : Region) (n v : NodeId) : NodeId := if v ∈ r.members then n else v

/-- The links of a graph after a region became the node `n`. -/
def Region.contracted (r : Region) (n : NodeId) (ls : Multiset (Link NodeId)) :
    Multiset (Link NodeId) :=
  ls.filter (fun l => l.source ∉ r.members ∧ l.target ∉ r.members) +
    (ls.filter fun l => l.source ∉ r.members ∧ l.target = r.entry).map
      (fun l => { l with target := n }) +
    (ls.filter fun l => l.source ∈ r.members ∧ l.target ∉ r.members).map
      (fun l => { l with source := n }) +
    (ls.filter fun l => r.exit? = some l.source ∧ l.source ∈ r.members ∧ l.target ∈ r.members).map
      (Link.map fun _ => n)

/-- `h` is `g` with a region contracted to the node `n`, which has a higher number than all the
others. -/
structure Contracts (g : FlowGraph) (r : Region) (n : NodeId) (h : FlowGraph) : Prop where
  wellFormed : h.WellFormed
  above : ∀ v ∈ g.ids, v.serial < n.serial
  ids : h.ids = (g.ids.filter fun v => v ∉ r.members) ++ [n]
  size : h.size + r.members.length = g.size + 1
  label : h.label n = g.label r.entry
  label_eq : ∀ v ∈ g.ids, v ∉ r.members → h.label v = g.label v
  links : h.links = r.contracted n g.links
  entry : h.entry = if g.entry = some r.entry then some n else g.entry

variable {g g' : FlowGraph} {r : Region}

namespace Contracts

variable {n v : NodeId} {h : FlowGraph}

theorem fresh (hc : Contracts g r n h) : n ∉ g.ids := fun hn => Nat.lt_irrefl _ (hc.above n hn)

theorem mem_ids (hc : Contracts g r n h) (v : NodeId) :
    v ∈ h.ids ↔ v = n ∨ v ∈ g.ids ∧ v ∉ r.members := by
  rw [hc.ids, List.mem_append, List.mem_filter, List.mem_singleton, decide_eq_true_eq, or_comm]

theorem ordered (hc : Contracts g r n h) (hg : g.Ordered) : h.Ordered := by
  rw [Digraph.Ordered, hc.ids]
  refine List.pairwise_append.2 ⟨hg.filter _, List.pairwise_singleton _ _, fun v hv m hm => ?_⟩
  rw [List.mem_singleton.1 hm]
  exact hc.above v (List.mem_of_mem_filter hv)

end Contracts

theorem Region.Fits.ids_perm (hr : r.Fits g) (hg : g.WellFormed) :
    g.ids.Perm ((g.ids.filter fun v => v ∉ r.members) ++ r.members) := by
  have hsub : r.members.Perm (g.ids.filter fun v => !decide (v ∉ r.members)) := by
    refine (List.perm_ext_iff_of_nodup hr.nodup (hg.ids_nodup.filter _)).2 fun v => ?_
    simpa using hr.mem_ids v
  exact (List.filter_append_perm _ _).symm.trans (hsub.symm.append_left _)

/-! ## The edges at the members -/

theorem Digraph.removeAll_eq {β : Type} (g : Digraph β) (is : List EdgeId) :
    ∃ k, g.removeAll is =
      { g with edges := g.edges.filter (fun e => e.id ∉ is), generation := k } := by
  induction is generalizing g with
  | nil => exact ⟨g.generation, by simp [removeAll]⟩
  | cons i is ih =>
    unfold removeAll
    cases h : g.removeEdge? i with
    | none =>
      obtain ⟨k, hk⟩ := ih g
      refine ⟨k, ?_⟩
      have hi : ∀ e ∈ g.edges, e.id ≠ i := by
        unfold removeEdge? at h
        split at h
        · cases h
        · next hn => simpa using hn
      simp only [hk]
      congr 1
      refine List.filter_congr fun e he => ?_
      simp [hi e he]
    | some g' =>
      obtain ⟨k, hk⟩ := ih g'
      refine ⟨k, ?_⟩
      simp only [hk]
      rw [removeEdge_eq_some h, List.filter_filter]
      congr 1
      refine List.filter_congr fun e _ => ?_
      by_cases he : e.id = i <;> simp [he]

/-- Without the edges at the members, those that neither start nor end there are left. -/
theorem FlowGraph.WellFormed.filter_touching (hg : g.WellFormed) (r : Region) :
    (g.edges.filter fun e => e.id ∉ g.toDigraph.touching r) =
      g.edges.filter fun e => e.source ∉ r.members ∧ e.target ∉ r.members := by
  refine List.filter_congr fun e he => ?_
  have hmem : e.id ∈ g.toDigraph.touching r ↔ e.source ∈ r.members ∨ e.target ∈ r.members := by
    simp only [Digraph.touching, mem_distinct, List.mem_map, List.mem_flatMap, List.mem_append,
      Digraph.mem_outEdges, Digraph.mem_inEdges]
    constructor
    · rintro ⟨e', ⟨n, hn, h⟩, hid⟩
      have hee : e' = e := by
        refine List.inj_on_of_nodup_map hg.edges ?_ he (congrArg EdgeId.serial hid)
        rcases h with h | h <;> exact h.1
      subst hee
      rcases h with ⟨-, rfl⟩ | ⟨-, rfl⟩
      · exact .inl hn
      · exact .inr hn
    · rintro (h | h)
      · exact ⟨e, ⟨_, h, .inl ⟨he, rfl⟩⟩, rfl⟩
      · exact ⟨e, ⟨_, h, .inr ⟨he, rfl⟩⟩, rfl⟩
  simp only [hmem, not_or]

theorem FlowGraph.WellFormed.removeAll (hg : g.WellFormed) (is : List EdgeId) :
    FlowGraph.WellFormed { g with toDigraph := g.toDigraph.removeAll is } := by
  obtain ⟨k, hk⟩ := g.toDigraph.removeAll_eq is
  rw [hk]
  have hsub : (g.edges.filter fun e => e.id ∉ is).Sublist g.edges := List.filter_sublist
  exact ⟨hg.serials, hg.serial_le, hg.labels, hg.edges.sublist (hsub.map _),
    fun e he => hg.edge_le e (hsub.subset he), fun e he => hg.closed e (hsub.subset he),
    hg.entry_mem⟩

namespace FlowGraph

namespace Edit

theorem dropNode_ok {n : NodeId} (h : g.deleteNode n = .ok g') : dropNode n g = (.ok (), g') := by
  simp only [dropNode, ofExcept, h]
  rfl

theorem keeps_dropNode (n : NodeId) : Keeps (dropNode n) := by
  intro g hg
  cases h : g.deleteNode n with
  | error e =>
    simp only [dropNode, ofExcept, h]
    exact hg
  | ok g' =>
    rw [dropNode_ok h]
    exact hg.deleteNode h

theorem keeps_dropNodes (ns : List NodeId) : Keeps (dropNodes ns) := by
  induction ns with
  | nil => exact Keeps.pure ()
  | cons n ns ih => exact (keeps_dropNode n).bind fun _ => ih

theorem keeps_incoming (n : NodeId) (es : List Edge) : Keeps (incoming n es) := by
  induction es with
  | nil => exact Keeps.pure ()
  | cons e es ih => exact (keeps_edge _ _ _).bind fun _ => ih

theorem keeps_outgoing (n : NodeId) (es : List (Edge × Bool)) : Keeps (outgoing n es) := by
  induction es with
  | nil => exact Keeps.pure ()
  | cons e es ih => exact (keeps_edge _ _ _).bind fun _ => ih

theorem dropNode_eq {n : NodeId} (hn : n ∈ g.ids)
    (he : ∀ e ∈ g.edges, e.source ≠ n ∧ e.target ≠ n) :
    dropNode n g = (.ok (), { g with
      nodes := g.nodes.filter (fun e => e.1 ≠ n), generation := g.generation + 1,
      entry := if g.entry = some n then none else g.entry }) := by
  have hout : g.outEdges n = [] := List.filter_eq_nil_iff.2 fun e h => by simp [(he e h).1]
  have hin : g.inEdges n = [] := List.filter_eq_nil_iff.2 fun e h => by simp [(he e h).2]
  apply dropNode_ok
  unfold FlowGraph.deleteNode Digraph.deleteNode
  rw [Digraph.checkMember_eq_ok.2 hn, hout, hin]
  rfl

theorem dropNodes_eq {ns : List NodeId} (hnd : ns.Nodup) (hns : ∀ n ∈ ns, n ∈ g.ids)
    (he : ∀ e ∈ g.edges, e.source ∉ ns ∧ e.target ∉ ns) :
    ∃ k, dropNodes ns g = (.ok (), { g with
      nodes := g.nodes.filter (fun e => e.1 ∉ ns), generation := k,
      entry := if ∃ n ∈ ns, g.entry = some n then none else g.entry }) := by
  induction ns generalizing g with
  | nil => exact ⟨g.generation, by simp [dropNodes]; rfl⟩
  | cons n ns ih =>
    rw [List.nodup_cons] at hnd
    have hn := dropNode_eq (hns n List.mem_cons_self) fun e h =>
      ⟨fun hs => (he e h).1 (hs ▸ List.mem_cons_self),
        fun ht => (he e h).2 (ht ▸ List.mem_cons_self)⟩
    obtain ⟨k, hk⟩ := ih (g := { g with
      nodes := g.nodes.filter (fun e => e.1 ≠ n), generation := g.generation + 1,
      entry := if g.entry = some n then none else g.entry }) hnd.2
      (fun m hm => by
        obtain ⟨e, hmem, rfl⟩ := List.mem_map.1 (hns m (List.mem_cons_of_mem _ hm))
        refine List.mem_map_of_mem (List.mem_filter.2 ⟨hmem, ?_⟩)
        simp only [ne_eq, decide_not, Bool.not_eq_eq_eq_not, Bool.not_true, decide_eq_false_iff_not]
        rintro rfl
        exact hnd.1 hm)
      (fun e h => ⟨fun hs => (he e h).1 (List.mem_cons_of_mem _ hs),
        fun ht => (he e h).2 (List.mem_cons_of_mem _ ht)⟩)
    refine ⟨k, ?_⟩
    rw [dropNodes, bind_ok hn, hk]
    congr 2
    · simp only [List.filter_filter]
      congr 1
      refine List.filter_congr fun e _ => ?_
      by_cases h : e.1 = n <;> simp [h]
    · by_cases hentry : g.entry = some n
      · simp [hentry]
      · simp [hentry]

/-- What the edges added to a graph change: the links. -/
structure Adds (g : FlowGraph) (ls : Multiset (Link NodeId)) (h : FlowGraph) : Prop where
  nodes : h.nodes = g.nodes
  entry : h.entry = g.entry
  links : h.links = g.links + ls

theorem edge_ok {n m : NodeId} {a : Attributes} {e : Edge} (h : g.addEdge n m a = .ok (e, g')) :
    edge n m a g = (.ok e, g') := by
  simp only [edge, ofExcept, h]

theorem addEdge_adds {n m : NodeId} (hn : n ∈ g.ids) (hm : m ∈ g.ids) (a : Attributes) :
    ∃ e h, g.addEdge n m a = .ok (e, h) ∧ Adds g {⟨n, m, a⟩} h := by
  refine ⟨_, _, WellFormed.addEdge_eq hn hm a, rfl, rfl, ?_⟩
  simp only [Digraph.links, List.map_append, ← Multiset.coe_add]
  rfl

theorem edge_adds {n m : NodeId} (hn : n ∈ g.ids) (hm : m ∈ g.ids) (a : Attributes) :
    ∃ e h, edge n m a g = (.ok e, h) ∧ Adds g {⟨n, m, a⟩} h := by
  obtain ⟨e, h, hrun, hadds⟩ := addEdge_adds hn hm a
  exact ⟨e, h, edge_ok hrun, hadds⟩

theorem incoming_adds {n : NodeId} (es : List Edge) (hn : n ∈ g.ids)
    (hes : ∀ e ∈ es, e.source ∈ g.ids) :
    ∃ h, incoming n es g = (.ok (), h) ∧
      Adds g (es.map fun e => ⟨e.source, n, e.attributes⟩ : List (Link NodeId)) h := by
  induction es generalizing g with
  | nil => exact ⟨g, rfl, rfl, rfl, by simp⟩
  | cons e es ih =>
    obtain ⟨e', h₁, he, hadds⟩ := edge_adds (hes e List.mem_cons_self) hn e.attributes
    have hids : h₁.ids = g.ids := congrArg (List.map Prod.fst) hadds.nodes
    obtain ⟨h₂, hrun, hadds'⟩ := ih (g := h₁) (hids ▸ hn)
      fun e' he' => hids ▸ hes e' (List.mem_cons_of_mem _ he')
    refine ⟨h₂, ?_, hadds'.nodes.trans hadds.nodes, hadds'.entry.trans hadds.entry, ?_⟩
    · rw [incoming, bind_ok he, hrun]
    · rw [hadds'.links, hadds.links, List.map_cons, ← Multiset.cons_coe,
        ← Multiset.singleton_add, add_assoc]

theorem outgoing_adds {n : NodeId} (es : List (Edge × Bool)) (hn : n ∈ g.ids)
    (hes : ∀ e ∈ es, e.2 = false → e.1.target ∈ g.ids) :
    ∃ h, outgoing n es g = (.ok (), h) ∧
      Adds g (es.map fun e =>
        ⟨n, if e.2 then n else e.1.target, e.1.attributes⟩ : List (Link NodeId)) h := by
  induction es generalizing g with
  | nil => exact ⟨g, rfl, rfl, rfl, by simp⟩
  | cons e es ih =>
    obtain ⟨e, inside⟩ := e
    have htarget : (if inside then n else e.target) ∈ g.ids := by
      cases inside with
      | false => exact hes _ List.mem_cons_self rfl
      | true => exact hn
    obtain ⟨e', h₁, he, hadds⟩ := edge_adds hn htarget e.attributes
    have hids : h₁.ids = g.ids := congrArg (List.map Prod.fst) hadds.nodes
    obtain ⟨h₂, hrun, hadds'⟩ := ih (g := h₁) (hids ▸ hn)
      fun e' he' => hids ▸ hes e' (List.mem_cons_of_mem _ he')
    refine ⟨h₂, ?_, hadds'.nodes.trans hadds.nodes, hadds'.entry.trans hadds.entry, ?_⟩
    · rw [outgoing, bind_ok he, hrun]
    · rw [hadds'.links, hadds.links, List.map_cons, ← Multiset.cons_coe,
        ← Multiset.singleton_add, add_assoc]

end Edit

/-! ## The links of the new graph -/

theorem links_filter_map {β γ : Type} (g : Digraph β) (p : Link NodeId → Prop) [DecidablePred p]
    (f : Link NodeId → Link γ) :
    (g.links.filter p).map f = ↑((g.edges.filter fun e => p e.link).map fun e => f e.link) := by
  rw [Digraph.links, Multiset.filter_coe, Multiset.map_coe, List.filter_map, List.map_map]
  rfl

theorem incoming_links (g : FlowGraph) (r : Region) (n : NodeId) :
    (↑((g.toDigraph.incoming r).map fun e => ⟨e.source, n, e.attributes⟩ : List (Link NodeId)) :
      Multiset (Link NodeId)) =
      (g.links.filter fun l => l.source ∉ r.members ∧ l.target = r.entry).map
        (fun l => { l with target := n }) := by
  rw [links_filter_map, Digraph.incoming, Digraph.inEdges, List.filter_filter]
  congr 2
  refine List.filter_congr fun e _ => ?_
  by_cases hs : e.source ∈ r.members <;> simp [Edge.link, hs]

/-- Where an edge out of a region leads from the new node, if anywhere. -/
def exits (r : Region) (e : Edge) : Option (Edge × Bool) :=
  if e.target ∉ r.members then some (e, false)
  else if r.exit? = some e.source then some (e, true)
  else none

theorem outgoing_perm (g : FlowGraph) (hr : r.members.Nodup) :
    (g.toDigraph.outgoing r).Perm
      ((g.edges.filter fun e => e.source ∈ r.members).filterMap (exits r)) := by
  have h : g.toDigraph.outgoing r =
      (r.members.flatMap fun n => g.outEdges n).filterMap (exits r) := by
    unfold Digraph.outgoing
    rw [List.filterMap_flatMap]
    refine List.flatMap_congr fun n _ => List.filterMap_congr fun e he => ?_
    obtain ⟨-, rfl⟩ := Digraph.mem_outEdges.1 he
    simp [exits]
  rw [h]
  exact (flatMap_filter_perm Edge.source hr g.edges).filterMap _

theorem outgoing_links (g : FlowGraph) (hr : r.members.Nodup) (n : NodeId) :
    (↑((g.toDigraph.outgoing r).map fun e =>
        ⟨n, if e.2 then n else e.1.target, e.1.attributes⟩ : List (Link NodeId)) :
      Multiset (Link NodeId)) =
      (g.links.filter fun l => l.source ∈ r.members ∧ l.target ∉ r.members).map
          (fun l => { l with source := n }) +
        (g.links.filter fun l =>
          r.exit? = some l.source ∧ l.source ∈ r.members ∧ l.target ∈ r.members).map
          (Link.map fun _ => n) := by
  rw [links_filter_map, links_filter_map, Multiset.coe_add, Multiset.coe_eq_coe]
  refine ((outgoing_perm g hr).map _).trans ?_
  generalize g.edges = es
  induction es with
  | nil => exact .refl _
  | cons e es ih =>
    by_cases hs : e.source ∈ r.members
    · by_cases ht : e.target ∈ r.members
      · by_cases hx : r.exit? = some e.source
        · have := (ih.cons (⟨n, n, e.attributes⟩ : Link NodeId)).trans List.perm_middle.symm
          simpa [List.filter_cons, exits, Edge.link, Link.map, hs, ht, hx] using this
        · simpa [List.filter_cons, exits, Edge.link, Link.map, hs, ht, hx] using ih
      · have := ih.cons (⟨n, e.target, e.attributes⟩ : Link NodeId)
        simpa [List.filter_cons, exits, Edge.link, Link.map, hs, ht] using this
    · simpa [List.filter_cons, Edge.link, Link.map, hs] using ih

/-! ## The contraction -/

/-- `h` is `g` without the members of a region and the edges at them. -/
structure Stripped (g : FlowGraph) (r : Region) (h : FlowGraph) : Prop where
  wellFormed : h.WellFormed
  nodes : h.nodes = g.nodes.filter fun e => e.1 ∉ r.members
  links : h.links = g.links.filter fun l => l.source ∉ r.members ∧ l.target ∉ r.members
  entry : h.entry = if g.entry = some r.entry then none else g.entry
  lastNode : h.lastNode = g.lastNode

theorem dropNodes_stripped (hg : g.WellFormed) (hr : r.Fits g) :
    ∃ h, Edit.dropNodes r.members
        { g with toDigraph := g.toDigraph.removeAll (g.toDigraph.touching r) } = (.ok (), h) ∧
      Stripped g r h := by
  obtain ⟨k, hk⟩ := g.toDigraph.removeAll_eq (g.toDigraph.touching r)
  have hg₁ := hg.removeAll (g.toDigraph.touching r)
  rw [hk, hg.filter_touching r] at hg₁ ⊢
  obtain ⟨k', hrun⟩ := Edit.dropNodes_eq (g := { g with
    edges := g.edges.filter fun e => e.source ∉ r.members ∧ e.target ∉ r.members
    generation := k }) hr.nodup hr.mem_ids fun e he => by simpa using (List.mem_filter.1 he).2
  have hg₂ := Edit.keeps_dropNodes r.members _ hg₁
  refine ⟨_, hrun, ?_, rfl, ?_, ?_, rfl⟩
  · rw [hrun] at hg₂
    exact hg₂
  · have := links_filter_map g.toDigraph
      (fun l => l.source ∉ r.members ∧ l.target ∉ r.members) id
    rw [Multiset.map_id] at this
    rw [this]
    rfl
  · -- the entry of the graph is dropped exactly if it is the entry of the region
    simp only
    by_cases he : g.entry = some r.entry
    · rw [if_pos ⟨r.entry, hr.entry_mem, he⟩, if_pos he]
    · rw [if_neg, if_neg he]
      rintro ⟨m, hm, hgm⟩
      obtain ⟨root, hroot, heq⟩ := hr.entry_eq
      rw [hgm] at hroot
      cases hroot
      exact he (heq hm ▸ hgm)

variable {h : FlowGraph}

theorem Stripped.ids (hs : Stripped g r h) : h.ids = g.ids.filter fun v => v ∉ r.members := by
  simp only [Digraph.ids, hs.nodes, List.filter_map]
  rfl

theorem Stripped.mem_ids (hs : Stripped g r h) {v : NodeId} :
    v ∈ h.ids ↔ v ∈ g.ids ∧ v ∉ r.members := by
  simp [hs.ids]

/-- The node for the region is made: its label is free again. -/
theorem Stripped.node (hg : g.WellFormed) (hr : r.Fits g) (hs : Stripped g r h) {b : Block}
    (hb : b.label = g.label r.entry) :
    ∃ n h', Edit.node b h = (.ok n, h') ∧ (∀ v ∈ g.ids, v.serial < n.serial) ∧ h'.WellFormed ∧
      h'.nodes = h.nodes ++ [(n, b)] ∧ h'.links = h.links ∧
      h'.entry = if g.entry = some r.entry then some n else g.entry := by
  have hlabel : b.label.key ∉ h.labels.map Value.key := by
    intro hmem
    simp only [FlowGraph.labels, hs.nodes, List.mem_map, List.mem_filter] at hmem
    obtain ⟨l, ⟨⟨m, c⟩, ⟨he, hm⟩, rfl⟩, hkey⟩ := hmem
    have hmr : m = r.entry := by
      refine hg.eq_of_key (List.mem_map_of_mem he) (hr.mem_ids _ hr.entry_mem) ?_
      rw [hg.label_eq he, ← hb]
      exact hkey
    simp only [decide_eq_true_eq] at hm
    exact hm (hmr ▸ hr.entry_mem)
  have hwf := hs.wellFormed.newNode b
  have hrun := hs.wellFormed.newNode_eq hlabel
  rw [hrun] at hwf
  refine ⟨_, _, hrun, ?_, hwf, rfl, rfl, ?_⟩
  · rw [hs.lastNode]
    exact fun v hv => Nat.lt_succ_of_le (hg.serial_le v hv)
  · simp only [hs.entry]
    by_cases he : g.entry = some r.entry
    · simp [he]
    · obtain ⟨root, hroot, -⟩ := hr.entry_eq
      rw [if_neg he, if_neg he, hroot]
      rfl

theorem Stripped.size (hg : g.WellFormed) (hr : r.Fits g) (hs : Stripped g r h) :
    h.size + r.members.length = g.size := by
  rw [← Digraph.length_ids, ← Digraph.length_ids, hs.ids, ← List.length_append]
  exact (hr.ids_perm hg).length_eq.symm

/-- The edges across the border of a region are moved to the node for it. -/
theorem edges_moved (hg : g.WellFormed) (hr : r.Fits g) {n : NodeId} (hwf : h.WellFormed)
    (hn : n ∈ h.ids) (hout : ∀ v ∈ g.ids, v ∉ r.members → v ∈ h.ids) :
    ∃ h' h'', Edit.incoming n (g.toDigraph.incoming r) h = (.ok (), h') ∧
      Edit.outgoing n (g.toDigraph.outgoing r) h' = (.ok (), h'') ∧ h''.WellFormed ∧
      h''.nodes = h.nodes ∧ h''.entry = h.entry ∧
      h''.links = h.links + (g.links.filter fun l => l.source ∉ r.members ∧
          l.target = r.entry).map (fun l => { l with target := n }) +
        ((g.links.filter fun l => l.source ∈ r.members ∧ l.target ∉ r.members).map
            (fun l => { l with source := n }) +
          (g.links.filter fun l =>
            r.exit? = some l.source ∧ l.source ∈ r.members ∧ l.target ∈ r.members).map
            (Link.map fun _ => n)) := by
  obtain ⟨h₁, hrun₁, hadds₁⟩ := Edit.incoming_adds (g.toDigraph.incoming r) hn
    (by
      intro e he
      simp only [Digraph.incoming, List.mem_filter, Digraph.mem_inEdges, List.contains_eq_mem,
        Bool.not_eq_eq_eq_not, Bool.not_true, decide_eq_false_iff_not] at he
      exact hout _ (hg.closed e he.1.1).1 he.2)
  have hwf₁ := Edit.keeps_incoming n (g.toDigraph.incoming r) _ hwf
  rw [hrun₁] at hwf₁
  have hids : h₁.ids = h.ids := congrArg (List.map Prod.fst) hadds₁.nodes
  obtain ⟨h₂, hrun₂, hadds₂⟩ := Edit.outgoing_adds (g.toDigraph.outgoing r) (hids ▸ hn)
    (by
      intro e he hin
      rw [(outgoing_perm g hr.nodup).mem_iff, List.mem_filterMap] at he
      obtain ⟨e', he', hex⟩ := he
      unfold exits at hex
      split at hex
      · next ht =>
        cases hex
        rw [hids]
        exact hout _ (hg.closed e' (List.mem_of_mem_filter he')).2 ht
      · split at hex
        · cases hex
          cases hin
        · cases hex)
  have hwf₂ := Edit.keeps_outgoing n (g.toDigraph.outgoing r) _ hwf₁
  rw [hrun₂] at hwf₂
  refine ⟨h₁, h₂, hrun₁, hrun₂, hwf₂, hadds₂.nodes.trans hadds₁.nodes,
    hadds₂.entry.trans hadds₁.entry, ?_⟩
  rw [hadds₂.links, hadds₁.links, incoming_links, outgoing_links g hr.nodup]

theorem contract_contracts (hg : g.WellFormed) (hr : r.Fits g) {b : Block}
    (hb : b.label = g.label r.entry) :
    ∃ n h, contract r b g = (.ok n, h) ∧ Contracts g r n h := by
  obtain ⟨h₂, hrun₂, hs⟩ := dropNodes_stripped hg hr
  obtain ⟨n, h₃, hrun₃, habove, hwf₃, hnodes₃, hlinks₃, hentry₃⟩ := hs.node hg hr hb
  have hout₃ : ∀ v ∈ g.ids, v ∉ r.members → v ∈ h₃.ids := by
    intro v hv hvr
    simp only [Digraph.ids, hnodes₃, List.map_append]
    exact List.mem_append_left _ (hs.mem_ids.2 ⟨hv, hvr⟩)
  obtain ⟨h₄, h₅, hrun₄, hrun₅, hwf₅, hnodes₅, hentry₅, hlinks₅⟩ :=
    edges_moved hg hr (n := n) hwf₃ (by simp [Digraph.ids, hnodes₃]) hout₃
  rw [hnodes₃] at hnodes₅
  rw [hentry₃] at hentry₅
  have hset : (if g.entry = some r.entry then { h₅ with entry := some n } else h₅) = h₅ := by
    split
    · next he =>
      rw [if_pos he] at hentry₅
      rw [← hentry₅]
    · rfl
  refine ⟨n, h₅, ?_, hwf₅, habove, ?_, ?_, ?_, ?_, ?_, hentry₅⟩
  · have hget : (get : Edit FlowGraph) g = (.ok g, g) := rfl
    have hput : (set { g with toDigraph := g.toDigraph.removeAll (g.toDigraph.touching r) } :
        Edit Unit) g =
        (.ok (), { g with toDigraph := g.toDigraph.removeAll (g.toDigraph.touching r) }) := rfl
    unfold contract
    rw [bind_ok hget, bind_ok hput, bind_ok hrun₂, bind_ok hrun₃, bind_ok hrun₄, bind_ok hrun₅]
    by_cases he : g.entry = some r.entry
    · rw [if_pos he] at hset ⊢
      exact congrArg (Prod.mk (Except.ok n)) hset
    · rw [if_neg he]
      rfl
  · rw [← hs.ids]
    simp only [Digraph.ids, hnodes₅, List.map_append, List.map_cons, List.map_nil]
  · have := hs.size hg hr
    simp only [Digraph.size, hnodes₅, List.length_append, List.length_singleton] at this ⊢
    omega
  · rw [← hb]
    exact hwf₅.label_eq (by simp [hnodes₅])
  · intro v hv hvr
    obtain ⟨⟨v, c⟩, hc, rfl⟩ := List.mem_map.1 hv
    rw [hg.label_eq hc]
    refine hwf₅.label_eq ?_
    rw [hnodes₅, hs.nodes]
    exact List.mem_append_left _ (List.mem_filter.2 ⟨hc, by simpa using hvr⟩)
  · rw [hlinks₅, hlinks₃, hs.links, Region.contracted]
    simp only [add_assoc]

theorem mergeAs_contracts (hg : g.WellFormed) (hr : r.Fits g) {b : Block}
    (hb : b.label = g.label r.entry) :
    ∃ n h, g.mergeAs r b = (.ok n, h) ∧ Contracts g r n h := by
  obtain ⟨n, h, hrun, hc⟩ := contract_contracts hg hr hb
  refine ⟨n, h, ?_, hc⟩
  unfold mergeAs
  rw [show (contract r b).run g = (.ok n, h) from hrun]
  simp only [hc.size, if_true]

theorem merge_contracts (hg : g.WellFormed) (hr : r.Fits g) (name : Option String) :
    ∃ n h, g.merge r name = (.ok n, h) ∧ Contracts g r n h := by
  obtain ⟨⟨m, c⟩, hc, hm⟩ := List.mem_map.1 (hr.mem_ids _ hr.entry_mem)
  unfold merge
  simp only at hm
  subst hm
  rw [hg.block_eq hc]
  exact mergeAs_contracts hg hr (hg.label_eq hc).symm

end FlowGraph

end Structuring
