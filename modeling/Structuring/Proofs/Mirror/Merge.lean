import Structuring.Proofs.Mirror.Graph

/-!
# Contractions of mirrored graphs

A contraction moves the edges into a region in the order of the edges into its entry, which need not be
the same in mirrored graphs. Edges out of the same node keep their order, and that is all that counts.

* `Edit.bind_eq_ok` — a change that succeeds is made of changes that succeed.
* `merge_links` — the edges after a contraction, in order.
* `targetList_merge_old`, `targetList_merge_new` — where they lead.
* `Mirrors.merge` — corresponding contractions lead to mirrored graphs.
-/

namespace Structuring

def Region.map (f : NodeId → NodeId) (r : Region) : Region :=
  ⟨r.members.map f, f r.entry, r.exit?.map f⟩

/-- Where an edge from the member `m` to `w` leads when the region has become the node `n`; nowhere if
it is dropped. -/
def Region.leave (r : Region) (n m w : NodeId) : Option NodeId :=
  if w ∉ r.members then some w else if r.exit? = some m then some n else none

namespace FlowGraph

variable {g g' h h' : FlowGraph} {r : Region} {n n' v : NodeId} {name name' : Option String}

/-! ## The edges after a contraction -/

theorem addNode_edges {b : Block} (hrun : g.addNode n b = .ok g') : g'.edges = g.edges := by
  rw [addNode_eq_ok hrun]

namespace Edit

theorem bind_eq_ok {α β : Type} {m : Edit α} {f : α → Edit β} {b : β}
    (hrun : (m >>= f) g = (.ok b, g')) : ∃ a g₁, m g = (.ok a, g₁) ∧ f a g₁ = (.ok b, g') := by
  rcases hm : m g with ⟨e | a, g₁⟩
  · rw [bind_error hm] at hrun
    cases hrun
  · rw [bind_ok hm] at hrun
    exact ⟨a, g₁, rfl, hrun⟩

theorem dropNode_edges {u : Unit} (hrun : dropNode n g = (.ok u, g')) : g'.edges = g.edges := by
  unfold dropNode ofExcept at hrun
  cases hd : g.toDigraph.deleteNode n with
  | error e =>
    simp only [FlowGraph.deleteNode, hd] at hrun
    cases hrun
  | ok d =>
    simp only [FlowGraph.deleteNode, hd] at hrun
    cases hrun
    rw [(Digraph.deleteNode_eq_ok hd).2]

theorem dropNodes_edges {ns : List NodeId} {u : Unit} (hrun : dropNodes ns g = (.ok u, g')) :
    g'.edges = g.edges := by
  induction ns generalizing g with
  | nil =>
    cases hrun
    rfl
  | cons n ns ih =>
    obtain ⟨_, g₁, hn, hns⟩ := bind_eq_ok hrun
    rw [ih hns, dropNode_edges hn]

theorem node_edges {b : Block} (hrun : node b g = (.ok n, g')) : g'.edges = g.edges := by
  unfold node FlowGraph.newNode at hrun
  simp only at hrun
  split at hrun
  · next g₁ hadd =>
    cases hrun
    have hedges := addNode_edges hadd
    exact hedges
  · cases hrun

theorem edge_links {m : NodeId} {a : Attributes} {e : Edge} (hrun : edge n m a g = (.ok e, g')) :
    g'.edges.map Edge.link = g.edges.map Edge.link ++ [⟨n, m, a⟩] := by
  unfold edge ofExcept at hrun
  cases hadd : g.addEdge n m a with
  | error e =>
    simp only [hadd] at hrun
    cases hrun
  | ok p =>
    obtain ⟨hn, hm⟩ := WellFormed.of_addEdge_eq_ok hadd
    simp only [WellFormed.addEdge_eq hn hm] at hrun
    cases hrun
    rw [List.map_append]
    rfl

theorem incoming_edges {es : List Edge} {u : Unit} (hrun : incoming n es g = (.ok u, g')) :
    g'.edges.map Edge.link =
      g.edges.map Edge.link ++ es.map fun e => ⟨e.source, n, e.attributes⟩ := by
  induction es generalizing g with
  | nil =>
    cases hrun
    rw [List.map_nil, List.append_nil]
  | cons e es ih =>
    obtain ⟨_, g₁, he, hes⟩ := bind_eq_ok hrun
    rw [ih hes, edge_links he, List.map_cons, List.append_assoc, List.singleton_append]

theorem outgoing_edges {es : List (Edge × Bool)} {u : Unit}
    (hrun : outgoing n es g = (.ok u, g')) :
    g'.edges.map Edge.link = g.edges.map Edge.link ++
      es.map fun e => ⟨n, if e.2 then n else e.1.target, e.1.attributes⟩ := by
  induction es generalizing g with
  | nil =>
    cases hrun
    rw [List.map_nil, List.append_nil]
  | cons e es ih =>
    obtain ⟨_, g₁, he, hes⟩ := bind_eq_ok hrun
    rw [ih hes, edge_links he, List.map_cons, List.append_assoc, List.singleton_append]

end Edit

/-- The edges after a contraction: those outside, those into the region, and those out of it. -/
theorem contract_links (hg : g.WellFormed) {b : Block} (hrun : contract r b g = (.ok n, g')) :
    g'.edges.map Edge.link =
      (g.edges.filter fun e => e.source ∉ r.members ∧ e.target ∉ r.members).map Edge.link ++
      (g.toDigraph.incoming r).map (fun e => ⟨e.source, n, e.attributes⟩) ++
      (g.toDigraph.outgoing r).map
        fun e => ⟨n, if e.2 then n else e.1.target, e.1.attributes⟩ := by
  unfold contract at hrun
  obtain ⟨_, _, hget, hrun⟩ := Edit.bind_eq_ok hrun
  cases hget
  obtain ⟨_, _, hset, hrun⟩ := Edit.bind_eq_ok hrun
  cases hset
  obtain ⟨_, g₂, hdrop, hrun⟩ := Edit.bind_eq_ok hrun
  obtain ⟨m, g₃, hnode, hrun⟩ := Edit.bind_eq_ok hrun
  obtain ⟨_, g₄, hin, hrun⟩ := Edit.bind_eq_ok hrun
  obtain ⟨_, g₅, hout, hrun⟩ := Edit.bind_eq_ok hrun
  obtain ⟨k, hk⟩ := g.toDigraph.removeAll_eq (g.toDigraph.touching r)
  have hedges : g₃.edges =
      g.edges.filter fun e => e.source ∉ r.members ∧ e.target ∉ r.members := by
    rw [Edit.node_edges hnode, Edit.dropNodes_edges hdrop, hk, hg.filter_touching r]
  have hend : m = n ∧ g'.edges = g₅.edges := by
    split at hrun
    · cases hrun
      exact ⟨rfl, rfl⟩
    · cases hrun
      exact ⟨rfl, rfl⟩
  obtain ⟨rfl, hsame⟩ := hend
  rw [hsame, Edit.outgoing_edges hout, Edit.incoming_edges hin, hedges]

theorem merge_links (hg : g.WellFormed) (hrun : g.merge r name = (.ok n, g')) :
    g'.edges.map Edge.link =
      (g.edges.filter fun e => e.source ∉ r.members ∧ e.target ∉ r.members).map Edge.link ++
      (g.toDigraph.incoming r).map (fun e => ⟨e.source, n, e.attributes⟩) ++
      (g.toDigraph.outgoing r).map
        fun e => ⟨n, if e.2 then n else e.1.target, e.1.attributes⟩ := by
  have hmergeAs : ∀ b, g.mergeAs r b = (.ok n, g') → contract r b g = (.ok n, g') := by
    intro b hb
    unfold mergeAs at hb
    split at hb
    · cases hb
    · next m g₁ hc =>
      split at hb
      · cases hb
        exact hc
      · cases hb
  unfold merge at hrun
  split at hrun
  · exact contract_links hg (hmergeAs _ hrun)
  · exact contract_links hg (hmergeAs _ hrun)

/-! ## Where they lead -/

theorem targetList_merge_old (hg : g.WellFormed) (hrun : g.merge r name = (.ok n, g'))
    (hne : n ≠ v) (hv : v ∉ r.members) :
    g'.targetList v = ((g.targetList v).filter fun w => w ∉ r.members) ++
      ((g.targetList v).filter fun w => w = r.entry).map fun _ => n := by
  rw [Digraph.targetList_eq, merge_links hg hrun, List.filter_append, List.filter_append,
    List.map_append, List.map_append]
  have hkept : (((g.edges.filter fun e => e.source ∉ r.members ∧ e.target ∉ r.members).map
      Edge.link).filter fun l => l.source = v).map Link.target =
      (g.targetList v).filter fun w => w ∉ r.members := by
    rw [Digraph.targetList, Digraph.outEdges, List.filter_map, List.map_map, List.filter_map,
      List.filter_filter, List.filter_filter]
    refine congrArg _ (List.filter_congr fun e _ => ?_)
    by_cases he : e.source = v
    · simp [Edge.link, he, hv]
    · simp [Edge.link, he]
  have hmoved : ((((g.toDigraph.incoming r).map fun e => (⟨e.source, n, e.attributes⟩ :
      Link NodeId)).filter fun l => l.source = v).map Link.target) =
      ((g.targetList v).filter fun w => w = r.entry).map fun _ => n := by
    rw [Digraph.incoming, Digraph.inEdges, Digraph.targetList, Digraph.outEdges, List.filter_map,
      List.map_map, List.filter_map, List.map_map, List.filter_filter, List.filter_filter,
      List.filter_filter]
    refine congrArg _ (List.filter_congr fun e _ => ?_)
    by_cases he : e.source = v
    · simp [he, hv]
    · simp [he]
  have hnone : (((g.toDigraph.outgoing r).map fun e => (⟨n, if e.2 then n else e.1.target,
      e.1.attributes⟩ : Link NodeId)).filter fun l => l.source = v) = [] := by
    refine List.filter_eq_nil_iff.2 fun l hl => ?_
    obtain ⟨e, -, rfl⟩ := List.mem_map.1 hl
    simpa using hne
  rw [hkept, hmoved, hnone, List.map_nil, List.append_nil]

theorem targetList_merge_new (hg : g.WellFormed) (hrun : g.merge r name = (.ok n, g'))
    (hfresh : n ∉ g.ids) :
    g'.targetList n = r.members.flatMap fun m => (g.targetList m).filterMap (r.leave n m) := by
  have hold : ∀ e ∈ g.edges, e.source ≠ n := fun e he heq => hfresh (heq ▸ (hg.closed e he).1)
  rw [Digraph.targetList_eq, merge_links hg hrun, List.filter_append, List.filter_append]
  have hkept : ((g.edges.filter fun e => e.source ∉ r.members ∧ e.target ∉ r.members).map
      Edge.link).filter (fun l => l.source = n) = [] := by
    refine List.filter_eq_nil_iff.2 fun l hl => ?_
    obtain ⟨e, he, rfl⟩ := List.mem_map.1 hl
    exact fun hsource => hold e (List.mem_of_mem_filter he) (of_decide_eq_true hsource)
  have hmoved : ((g.toDigraph.incoming r).map fun e => (⟨e.source, n, e.attributes⟩ :
      Link NodeId)).filter (fun l => l.source = n) = [] := by
    refine List.filter_eq_nil_iff.2 fun l hl => ?_
    obtain ⟨e, he, rfl⟩ := List.mem_map.1 hl
    exact fun hsource => hold e (Digraph.mem_inEdges.1 (List.mem_of_mem_filter he)).1
      (of_decide_eq_true hsource)
  have hall : ((g.toDigraph.outgoing r).map fun e => (⟨n, if e.2 then n else e.1.target,
      e.1.attributes⟩ : Link NodeId)).filter (fun l => l.source = n) =
      (g.toDigraph.outgoing r).map fun e => ⟨n, if e.2 then n else e.1.target, e.1.attributes⟩ := by
    refine List.filter_eq_self.2 fun l hl => ?_
    obtain ⟨e, -, rfl⟩ := List.mem_map.1 hl
    simp
  rw [hkept, hmoved, hall, List.nil_append, List.nil_append, List.map_map, Digraph.outgoing,
    List.map_flatMap]
  refine List.flatMap_congr fun m _ => ?_
  rw [List.map_filterMap, Digraph.targetList, List.filterMap_map]
  refine List.filterMap_congr fun e _ => ?_
  by_cases ht : e.target ∈ r.members
  · by_cases hx : r.exit? = some m
    · simp [Region.leave, ht, hx]
    · simp [Region.leave, ht, hx]
  · simp [Region.leave, ht]

/-! ## Corresponding contractions -/

variable {φ : NodeId → NodeId} {w : NodeId}

/-- A node that is not there may be given any counterpart. -/
theorem update_eq (hn : n ∉ g.ids) (hv : v ∈ g.ids) : Function.update φ n n' v = φ v :=
  Function.update_of_ne (fun heq : v = n => hn (heq ▸ hv)) _ _

theorem map_update (hn : n ∉ g.ids) {vs : List NodeId} (hvs : ∀ v ∈ vs, v ∈ g.ids) :
    vs.map (Function.update φ n n') = vs.map φ :=
  List.map_congr_left fun v hv => update_eq hn (hvs v hv)

namespace Mirrors

theorem leave (hm : Mirrors g h φ) (hr : r.Fits g) (hexit : ∀ x, r.exit? = some x → x ∈ r.members)
    (hn : n ∉ g.ids) (hv : v ∈ r.members) (hw : w ∈ g.ids) :
    (r.map φ).leave n' (φ v) (φ w) = (r.leave n v w).map (Function.update φ n n') := by
  have hiff : r.exit?.map φ = some (φ v) ↔ r.exit? = some v := by
    rw [Option.map_eq_some_iff]
    constructor
    · rintro ⟨x, hx, heq⟩
      rw [hx, hm.injOn (hr.mem_ids x (hexit x hx)) (hr.mem_ids v hv) heq]
    · exact fun hx => ⟨v, hx, rfl⟩
  simp only [Region.leave, Region.map, hiff, hm.mem_map_iff hr.mem_ids hw]
  split
  · rw [Option.map_some, update_eq hn hw]
  · split
    · rw [Option.map_some, Function.update_self]
    · rfl

theorem targets_new (hm : Mirrors g h φ) (hr : r.Fits g)
    (hexit : ∀ x, r.exit? = some x → x ∈ r.members) (hn : n ∉ g.ids) (hn' : n' ∉ h.ids)
    (hrun : g.merge r name = (.ok n, g')) (hrun' : h.merge (r.map φ) name' = (.ok n', h')) :
    h'.targetList n' = (g'.targetList n).map (Function.update φ n n') := by
  rw [targetList_merge_new hm.right hrun' hn', targetList_merge_new hm.left hrun hn,
    List.map_flatMap, Region.map, List.flatMap_map]
  refine List.flatMap_congr fun v hv => ?_
  rw [hm.targets v (hr.mem_ids v hv), List.filterMap_map, List.map_filterMap]
  exact List.filterMap_congr fun w hw => hm.leave hr hexit hn hv (targetList_mem hm.left hw)

theorem targets_old (hm : Mirrors g h φ) (hr : r.Fits g) (hn : n ∉ g.ids) (hn' : n' ∉ h.ids)
    (hrun : g.merge r name = (.ok n, g')) (hrun' : h.merge (r.map φ) name' = (.ok n', h'))
    (hv : v ∈ g.ids) (hout : v ∉ r.members) :
    h'.targetList (φ v) = (g'.targetList v).map (Function.update φ n n') := by
  have htargets : ∀ w ∈ g.targetList v, w ∈ g.ids := fun w => targetList_mem hm.left
  have hne : n ≠ v := fun heq => hn (heq ▸ hv)
  have hne' : n' ≠ φ v := fun heq => hn' (heq ▸ hm.mem hv)
  have hout' : φ v ∉ (r.map φ).members := fun hin => hout ((hm.mem_map_iff hr.mem_ids hv).1 hin)
  have hkept : ((g.targetList v).map φ).filter (fun w => w ∉ (r.map φ).members) =
      ((g.targetList v).filter fun w => w ∉ r.members).map φ := by
    rw [List.filter_map]
    refine congrArg _ (List.filter_congr fun w hw => ?_)
    rw [Function.comp_apply, decide_eq_decide, not_iff_not]
    exact hm.mem_map_iff hr.mem_ids (htargets w hw)
  have hmoved : ((g.targetList v).map φ).filter (fun w => w = (r.map φ).entry) =
      ((g.targetList v).filter fun w => w = r.entry).map φ := by
    rw [List.filter_map]
    refine congrArg _ (List.filter_congr fun w hw => ?_)
    rw [Function.comp_apply, decide_eq_decide]
    exact ⟨hm.injOn (htargets w hw) (hr.mem_ids _ hr.entry_mem), congrArg φ⟩
  rw [targetList_merge_old hm.right hrun' hne' hout', targetList_merge_old hm.left hrun hne hout,
    hm.targets v hv, List.map_append, hkept, hmoved,
    map_update hn fun w hw => htargets w (List.mem_of_mem_filter hw), List.map_map, List.map_map]
  refine congrArg _ (List.map_congr_left fun w _ => ?_)
  rw [Function.comp_apply, Function.comp_apply, Function.update_self]

theorem merge (hm : Mirrors g h φ) (hr : r.Fits g) (hexit : ∀ x, r.exit? = some x → x ∈ r.members)
    (hc : Contracts g r n g') (hc' : Contracts h (r.map φ) n' h')
    (hrun : g.merge r name = (.ok n, g')) (hrun' : h.merge (r.map φ) name' = (.ok n', h')) :
    Mirrors g' h' (Function.update φ n n') := by
  have hnew : Function.update φ n n' n = n' := Function.update_self ..
  refine ⟨hc.wellFormed, hc'.wellFormed, ?_, ?_, fun v hv => ?_⟩
  · rw [hc'.ids, hc.ids, List.map_append, List.map_singleton, hnew,
      map_update hc.fresh fun v hv => List.mem_of_mem_filter hv]
    refine congrArg (· ++ [n']) (hm.ids_filter fun v hv => ?_)
    rw [decide_eq_decide, not_iff_not]
    exact hm.mem_map_iff hr.mem_ids hv
  · rw [hc'.entry, hc.entry, hm.entry]
    cases hroot : g.entry with
    | none => rfl
    | some root =>
      have hmem := hm.left.entry_mem root hroot
      have hiff : φ root = φ r.entry ↔ root = r.entry :=
        ⟨hm.injOn hmem (hr.mem_ids _ hr.entry_mem), congrArg φ⟩
      simp only [Region.map, Option.map_some, Option.some.injEq, hiff]
      split
      · rw [Option.map_some, hnew]
      · rw [Option.map_some, update_eq hc.fresh hmem]
  · rcases (hc.mem_ids v).1 hv with rfl | ⟨hvg, hout⟩
    · rw [hnew]
      exact hm.targets_new hr hexit hc.fresh hc'.fresh hrun hrun'
    · rw [update_eq hc.fresh hvg]
      exact hm.targets_old hr hc.fresh hc'.fresh hrun hrun' hvg hout

theorem merge_relabels {f : Value → Value} (hm : Mirrors g h φ) (hr : r.Fits g)
    (hc : Contracts g r n g') (hc' : Contracts h (r.map φ) n' h') (hf : Relabels f g h φ) :
    Relabels f g' h' (Function.update φ n n') := by
  intro v hv
  rcases (hc.mem_ids v).1 hv with rfl | ⟨hvg, hout⟩
  · rw [Function.update_self, hc'.label, hc.label]
    exact hf _ (hr.mem_ids _ hr.entry_mem)
  · have hout' : φ v ∉ (r.map φ).members := fun hin => hout ((hm.mem_map_iff hr.mem_ids hvg).1 hin)
    rw [update_eq hc.fresh hvg, hc'.label_eq _ (hm.mem hvg) hout', hc.label_eq v hvg hout]
    exact hf v hvg

end Mirrors

end FlowGraph

end Structuring
