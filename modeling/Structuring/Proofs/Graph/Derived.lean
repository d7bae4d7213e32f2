import Structuring.Proofs.Graph.Interval
import Structuring.Proofs.Reduction.Quotient

/-!
# Derived graphs

* `FlowGraph.collapse` — the node of the derived graph for the interval that holds a node.
* `FlowGraph.Follows` — a node is entered from another one only.
* `FlowGraph.IsLimit` — each node is an interval. This is so exactly if no node follows another.
* `FlowGraph.Linked` — a graph with further edges.
* `FlowGraph.IsDerived` — a graph with a node for each interval.
* `FlowGraph.derived_spec` — the derived graph can be built. It is the quotient by the intervals, and
  no node leads to itself there.
-/

namespace Structuring

open Relation

namespace FlowGraph

variable {g d e into : FlowGraph} {root u v : NodeId} {is : List Interval} {ns : List NodeId}

def collapse (is : List Interval) (ns : List NodeId) (v : NodeId) : NodeId :=
  ((intervalOf? is v).bind fun j => ns[j]?).getD v

def IsLimit (g : FlowGraph) : Prop := ∃ is, g.intervals = some is ∧ is.length = g.size

theorem collapse_eq {j : Nat} (hv : intervalOf? is v = some j) (hj : j < ns.length) :
    collapse is ns v = ns[j] := by
  simp [collapse, hv, hj]

/-- `v` is not the entry, and is entered from `u` only. -/
def Follows (g : FlowGraph) (root u v : NodeId) : Prop :=
  v ≠ root ∧ g.Leads u v ∧ ∀ w, g.Leads w v → w = u

/-! ## The interval of a node -/

namespace Partitions

theorem intervalOf_eq (h : Partitions g root [] is) {j : Nat} (hj : j < is.length)
    (hv : v ∈ is[j].members) : intervalOf? is v = some j := by
  have hdisjoint := (List.nodup_flatMap.1 h.nodup.1).2
  refine List.findIdx?_eq_some_iff_getElem.2 ⟨hj, by simpa using hv, fun k hk hmem => ?_⟩
  have hkv : v ∈ is[k].members := by simpa using hmem
  exact List.pairwise_iff_getElem.1 hdisjoint k j (hk.trans hj) hj hk hkv hv

theorem mem_of_intervalOf {j : Nat} (hv : intervalOf? is v = some j) :
    ∃ hj : j < is.length, v ∈ is[j].members := by
  obtain ⟨hj, hmem, -⟩ := List.findIdx?_eq_some_iff_getElem.1 hv
  exact ⟨hj, by simpa using hmem⟩

theorem intervalOf_some (h : Partitions g root [] is) (hv : ReflTransGen g.Leads root v) :
    ∃ j, intervalOf? is v = some j := by
  obtain ⟨i, hi, hmem⟩ := h.cover hv
  obtain ⟨j, hj, rfl⟩ := List.getElem_of_mem hi
  exact ⟨j, h.intervalOf_eq hj hmem⟩

/-- Nodes are in the same interval exactly if they are collapsed to the same node. -/
theorem collapse_inj (h : Partitions g root [] is) (hns : ns.Nodup) (hlen : ns.length = is.length)
    {j : Nat} (hj : j < is.length) (hj' : j < ns.length) (hv : ReflTransGen g.Leads root v) :
    collapse is ns v = ns[j] ↔ v ∈ is[j].members := by
  obtain ⟨k, hk⟩ := h.intervalOf_some hv
  obtain ⟨hk', hmem⟩ := mem_of_intervalOf hk
  rw [collapse_eq hk (hlen ▸ hk')]
  constructor
  · intro heq
    obtain rfl := (List.Nodup.getElem_inj_iff hns).1 heq
    exact hmem
  · intro hvj
    have heq : k = j := Option.some.inj (hk.symm.trans (h.intervalOf_eq hj hvj))
    simp only [heq]

/-- The entry is in no interval but its own. -/
theorem header_of_root_mem {placed : List NodeId} (h : Partitions g root placed is) {i : Interval}
    (hi : i ∈ is) (hr : root ∈ i.members) : i.header = root := by
  induction h with
  | nil => cases hi
  | @cons placed j is _ hheader hentered hgrows _ hrest ih =>
    rcases List.mem_cons.1 hi with rfl | hi
    · rcases hentered with ⟨heq, -⟩ | ⟨hp, -⟩
      · exact heq
      · exact absurd hp (hgrows.not_placed hheader root hr)
    · exact ih hi

theorem dominates (h : Partitions g root [] is) {i : Interval} (hi : i ∈ is) (hv : v ∈ i.members) :
    Dominates g.Leads root i.header v := by
  by_contra hnot
  obtain ⟨hne, hreach⟩ := not_dominates_iff.1 hnot
  obtain ⟨before, hgrows⟩ := h.grows i hi
  clear hnot
  induction hreach with
  | refl => exact hne (h.header_of_root_mem hi hv).symm
  | tail _ huv ih => exact ih (hgrows.entered hv huv.2 huv.1).1

theorem entered (h : Partitions g root [] is) {i : Interval} (hi : i ∈ is) (huv : g.Leads u v)
    (hu : u ∉ i.members) (hv : v ∈ i.members) : v = i.header := by
  by_contra hne
  obtain ⟨before, hgrows⟩ := h.grows i hi
  exact hu (hgrows.entered hv hne huv).1

theorem header_mem (h : Partitions g root [] is) {i : Interval} (hi : i ∈ is) :
    i.header ∈ i.members := by
  obtain ⟨before, hgrows⟩ := h.grows i hi
  exact hgrows.header_mem

theorem headers_nodup (h : Partitions g root [] is) : (is.map Interval.header).Nodup := by
  refine List.pairwise_map.2 (((List.nodup_flatMap.1 h.nodup.1).2).imp_of_mem ?_)
  intro i j hi hj hdisjoint heq
  exact hdisjoint (h.header_mem hi) (heq ▸ h.header_mem hj)

theorem headers_mem (h : Partitions g root [] is) : ∀ n ∈ is.map Interval.header, n ∈ g.ids := by
  intro n hn
  obtain ⟨i, hi, rfl⟩ := List.mem_map.1 hn
  exact h.mem_ids i hi _ (h.header_mem hi)

theorem length_le (h : Partitions g root [] is) : is.length ≤ g.size := by
  have := (h.headers_nodup.subperm h.headers_mem).length_le
  simpa using this

/-- Where there are as many intervals as nodes, each one has a single member. -/
theorem eq_header (h : Partitions g root [] is) (hsize : is.length = g.size) {i : Interval}
    (hi : i ∈ is) (hv : v ∈ i.members) : v = i.header := by
  have hperm := (h.headers_nodup.subperm h.headers_mem).perm_of_length_le
    (by simp [hsize])
  obtain ⟨j, hj, rfl⟩ := List.mem_map.1 (hperm.mem_iff.2 (h.mem_ids i hi v hv))
  obtain ⟨a, ha, rfl⟩ := List.getElem_of_mem hi
  obtain ⟨b, hb, rfl⟩ := List.getElem_of_mem hj
  have hab := (h.intervalOf_eq ha hv).symm.trans (h.intervalOf_eq hb (h.header_mem hj))
  simp only [Option.some.inj hab]

/-- A header that is entered from a single node is not found before that node is placed: the interval
of that node would have grown over it. -/
theorem mem_placed_of_sole {placed : List NodeId} (h : Partitions g root placed is) {i : Interval}
    (hi : i ∈ is) (hne : i.header ≠ root) (hu : g.Leads u i.header)
    (hsole : ∀ w, g.Leads w i.header → w = u) : u ∈ placed := by
  induction h with
  | nil => cases hi
  | @cons placed j is _ _ hentered _ hfull hrest ih =>
    rcases List.mem_cons.1 hi with rfl | hi
    · obtain ⟨w, hw, hwi⟩ := (hentered.resolve_left fun h => hne h.1).2
      exact hsole w hwi ▸ hw
    · refine (List.mem_append.1 (ih hi)).resolve_right fun huj => ?_
      obtain ⟨before, hgrows⟩ := hrest.grows i hi
      have hmem := hgrows.header_mem
      have hnew := hrest.nodup.2 _ (List.mem_flatMap.2 ⟨i, hi, hmem⟩)
      rw [List.mem_append, not_or] at hnew
      exact hfull _ (hrest.mem_ids i hi _ hmem) hnew.1 hnew.2
        ⟨⟨u, hu⟩, fun w hw => hsole w hw ▸ huj⟩

theorem ids_perm (h : Partitions g root [] is) (hg : g.WellFormed) (hroot : g.Rooted root) :
    g.ids.Perm (is.flatMap Interval.members) := by
  refine (List.perm_ext_iff_of_nodup hg.ids_nodup h.nodup.1).2 fun v => ?_
  rw [List.mem_flatMap]
  exact ⟨fun hv => h.cover (hroot.2 v hv), fun ⟨i, hi, hv⟩ => h.mem_ids i hi v hv⟩

/-- There are fewer intervals than nodes exactly if some node follows another. -/
theorem length_lt_iff (h : Partitions g root [] is) (hg : g.WellFormed) (hroot : g.Rooted root) :
    is.length < g.size ↔ ∃ u v, g.Follows root u v := by
  constructor
  · intro hlt
    obtain ⟨i, hi, hne⟩ : ∃ i ∈ is, i.members ≠ [i.header] := by
      by_contra hall
      push Not at hall
      have hlen := (h.ids_perm hg hroot).length_eq
      rw [List.flatMap_congr hall, ← List.map_eq_flatMap, Digraph.length_ids, List.length_map] at hlen
      omega
    obtain ⟨before, hgrows⟩ := h.grows i hi
    obtain ⟨v, hv, hvi, hsole⟩ := hgrows.exists_sole.resolve_left hne
    refine ⟨i.header, v, ?_, hsole⟩
    rintro rfl
    exact hvi (h.header_of_root_mem hi hv).symm
  · rintro ⟨u, v, hne, huv, hsole⟩
    refine Nat.lt_of_le_of_ne h.length_le fun hsize => ?_
    -- if `v` were an interval of its own, `u` would have been placed before the first one
    obtain ⟨i, hi, hvi⟩ := h.cover (hroot.2 v (hg.closed.mem huv).2)
    obtain rfl := h.eq_header hsize hi hvi
    have := h.mem_placed_of_sole hi hne huv hsole
    cases this

theorem labels_nodup (h : Partitions g root [] is) (hg : g.WellFormed) :
    (is.map fun i => (g.label i.header).key).Nodup := by
  have := h.headers_nodup.map_on (f := fun n => (g.label n).key) fun n hn m hm heq =>
    hg.eq_of_key (h.headers_mem n hn) (h.headers_mem m hm) heq
  rwa [List.map_map] at this

end Partitions

/-- A graph is a limit exactly if no node follows another. -/
theorem isLimit_iff (hg : g.WellFormed) (hroot : g.Rooted root) :
    g.IsLimit ↔ ∀ u v, ¬ g.Follows root u v := by
  obtain ⟨is, his, hpart⟩ := intervals_partitions hg hroot.1
  have hle : (∀ u v, ¬ g.Follows root u v) ↔ g.size ≤ is.length := by
    rw [← Nat.not_lt, hpart.length_lt_iff hg hroot]
    simp only [not_exists]
  rw [hle, IsLimit]
  constructor
  · rintro ⟨is', his', hsize⟩
    rw [his] at his'
    cases his'
    exact Nat.le_of_eq hsize.symm
  · exact fun hle => ⟨is, his, Nat.le_antisymm hpart.length_le hle⟩

/-! ## Nodes -/

def headerBlock (g : FlowGraph) (i : Interval) : Block :=
  ⟨g.label i.header, none, ((g.block? i.header).map (·.attributes)).getD ∅⟩

theorem headerNodes_eq (g into : FlowGraph) (is : List Interval) :
    g.headerNodes into is = into.newNodes (is.map g.headerBlock) := by
  induction is generalizing into with
  | nil => rfl
  | cons i is ih =>
    rw [List.map_cons, headerNodes, newNodes]
    simp only [ih]
    rfl

/-! ## Edges -/

/-- `d` is `g` with further edges, between the nodes that `r` relates. -/
structure Linked (g : FlowGraph) (r : NodeId → NodeId → Prop) (d : FlowGraph) : Prop where
  wellFormed : d.WellFormed
  nodes : d.nodes = g.nodes
  entry : d.entry = g.entry
  leads : ∀ n m, d.Leads n m ↔ g.Leads n m ∨ r n m

theorem Linked.refl (hg : g.WellFormed) : Linked g (fun _ _ => False) g :=
  ⟨hg, rfl, rfl, fun _ _ => by simp⟩

theorem Linked.ids {r : NodeId → NodeId → Prop} (h : Linked g r d) : d.ids = g.ids := by
  rw [Digraph.ids, h.nodes, Digraph.ids]

theorem Linked.trans {r s : NodeId → NodeId → Prop} (hr : Linked g r d) (hs : Linked d s e) :
    Linked g (fun n m => r n m ∨ s n m) e where
  wellFormed := hs.wellFormed
  nodes := hs.nodes.trans hr.nodes
  entry := hs.entry.trans hr.entry
  leads n m := by rw [hs.leads, hr.leads, or_assoc]

theorem Linked.of_iff {r s : NodeId → NodeId → Prop} (hr : Linked g r d)
    (h : ∀ n m, r n m ↔ s n m) : Linked g s d :=
  { hr with leads := fun n m => by rw [hr.leads, h] }

theorem addEdge_linked (hg : g.WellFormed) {n m : NodeId} (hn : n ∈ g.ids) (hm : m ∈ g.ids)
    (a : Attributes) :
    ∃ e d, g.addEdge n m a = .ok (e, d) ∧ Linked g (fun x y => x = n ∧ y = m) d := by
  have hrun := WellFormed.addEdge_eq hn hm a
  refine ⟨_, _, hrun, hg.addEdge hrun, rfl, rfl, fun x y => ?_⟩
  simp only [Digraph.Leads, List.mem_append, List.mem_singleton, or_and_right, exists_or,
    exists_eq_left]
  simp only [eq_comm]

theorem linkTo_linked (hinto : into.WellFormed) {n : NodeId} (hn : n ∈ into.ids)
    (hns : ∀ m ∈ ns, m ∈ into.ids) (js : List Nat) :
    ∃ d, linkTo ns n into js = .ok d ∧
      Linked into (fun x y => x = n ∧ ∃ j ∈ js, ns[j]? = some y) d := by
  induction js generalizing into with
  | nil => exact ⟨into, rfl, (Linked.refl hinto).of_iff (by simp)⟩
  | cons j js ih =>
    simp only [linkTo]
    cases hj : ns[j]? with
    | none =>
      obtain ⟨d, hd, hlinked⟩ := ih hinto hn hns
      exact ⟨d, hd, hlinked.of_iff (by simp [hj])⟩
    | some m =>
      obtain ⟨e, into', he, hlinked⟩ :=
        addEdge_linked hinto hn (hns m (List.mem_of_getElem? hj)) ∅
      obtain ⟨d, hd, hlinked'⟩ := ih hlinked.wellFormed (hlinked.ids ▸ hn) (hlinked.ids ▸ hns)
      refine ⟨d, by simp only [he]; exact hd, (hlinked.trans hlinked').of_iff fun x y => ?_⟩
      simp only [List.mem_cons, exists_eq_or_imp, hj, Option.some.injEq]
      constructor
      · rintro (⟨hx, rfl⟩ | ⟨hx, hy⟩)
        · exact ⟨hx, .inl rfl⟩
        · exact ⟨hx, .inr hy⟩
      · rintro ⟨hx, rfl | hy⟩
        · exact .inl ⟨hx, rfl⟩
        · exact .inr ⟨hx, hy⟩

theorem targetIntervals_eq (is : List Interval) (vs : List NodeId)
    (h : ∀ v ∈ vs, ∃ j, intervalOf? is v = some j) :
    ∃ js, targetIntervals is vs = .ok js ∧
      ∀ j, j ∈ js ↔ ∃ v ∈ vs, intervalOf? is v = some j := by
  induction vs with
  | nil => exact ⟨[], rfl, by simp⟩
  | cons v vs ih =>
    obtain ⟨j, hj⟩ := h v List.mem_cons_self
    obtain ⟨js, hjs, hmem⟩ := ih fun w hw => h w (List.mem_cons_of_mem _ hw)
    refine ⟨j :: js, ?_, fun k => ?_⟩
    · simp only [targetIntervals, hj, hjs]
      rfl
    · simp [hmem, hj, eq_comm]

theorem leadsTo_eq (hg : g.WellFormed) (hroot : g.Rooted root) (his : Partitions g root [] is)
    (own : Nat) (i : Interval) :
    ∃ js, g.leadsTo is own i = .ok js ∧
      ∀ j, j ∈ js ↔ j ≠ own ∧ ∃ u ∈ i.members, ∃ v, g.Leads u v ∧ intervalOf? is v = some j := by
  obtain ⟨js, hjs, hmem⟩ := targetIntervals_eq is (i.members.flatMap g.successors)
    fun v hv => by
      obtain ⟨u, -, huv⟩ := List.mem_flatMap.1 hv
      exact his.intervalOf_some (hroot.2 v (hg.closed.mem (Digraph.mem_successors.1 huv)).2)
  refine ⟨_, by simp only [leadsTo, hjs]; rfl, fun j => ?_⟩
  simp only [mem_distinct, List.mem_filter, hmem, List.mem_flatMap, Digraph.mem_successors,
    decide_eq_true_eq]
  constructor
  · rintro ⟨⟨v, ⟨u, hu, huv⟩, hv⟩, hne⟩
    exact ⟨hne, u, hu, v, huv, hv⟩
  · rintro ⟨hne, u, hu, v, huv, hv⟩
    exact ⟨⟨v, ⟨u, hu, huv⟩, hv⟩, hne⟩

/-- An edge out of one of some intervals joins different nodes. -/
def LinksOut (g : FlowGraph) (is : List Interval) (ns : List NodeId) (from' : List Interval)
    (x y : NodeId) : Prop :=
  x ≠ y ∧ ∃ u v, (∃ i ∈ from', u ∈ i.members) ∧ g.Leads u v ∧ collapse is ns u = x ∧
    collapse is ns v = y

theorem linkIntervals_linked (hg : g.WellFormed) (hroot : g.Rooted root)
    (his : Partitions g root [] is) (hinto : into.WellFormed) (hns : ns.Nodup)
    (hlen : ns.length = is.length) (hmem : ∀ m ∈ ns, m ∈ into.ids) {i : Nat}
    {rest : List Interval} (hrest : is.drop i = rest) :
    ∃ d, g.linkIntervals is ns into i rest = .ok d ∧ Linked into (g.LinksOut is ns rest) d := by
  induction rest generalizing into i with
  | nil => exact ⟨into, rfl, (Linked.refl hinto).of_iff (by simp [LinksOut])⟩
  | cons t rest ih =>
    have hi : i < is.length := by
      by_contra hnot
      rw [List.drop_eq_nil_of_le (Nat.le_of_not_lt hnot)] at hrest
      cases hrest
    rw [List.drop_eq_getElem_cons hi] at hrest
    obtain ⟨rfl, hrest'⟩ := List.cons.inj hrest
    have hi' : i < ns.length := hlen ▸ hi
    obtain ⟨js, hjs, htargets⟩ := leadsTo_eq hg hroot his i is[i]
    obtain ⟨into', hinto', hlinked⟩ :=
      linkTo_linked hinto (hmem ns[i] (List.getElem_mem hi')) hmem js
    obtain ⟨d, hd, hlinked'⟩ := ih hlinked.wellFormed (hlinked.ids ▸ hmem) hrest'
    refine ⟨d, ?_, (hlinked.trans hlinked').of_iff fun x y => ?_⟩
    · rw [linkIntervals, hjs]
      simp only [bind, Except.bind, List.getElem?_eq_getElem hi', hinto', hd]
    have hcollapse : ∀ {w : NodeId} {k : Nat}, intervalOf? is w = some k →
        ∃ hk : k < ns.length, collapse is ns w = ns[k] := by
      intro w k hk
      obtain ⟨hk', -⟩ := Partitions.mem_of_intervalOf hk
      exact ⟨hlen ▸ hk', collapse_eq hk (hlen ▸ hk')⟩
    have hown : ∀ {w : NodeId}, w ∈ is[i].members → collapse is ns w = ns[i] := fun hw =>
      collapse_eq (his.intervalOf_eq hi hw) hi'
    constructor
    · rintro (⟨rfl, j, hj, hy⟩ | ⟨hne, u, v, ⟨k, hk, hu⟩, h⟩)
      · obtain ⟨hne, u, hu, v, huv, hv⟩ := (htargets j).1 hj
        obtain ⟨hj', hcv⟩ := hcollapse hv
        rw [List.getElem?_eq_getElem hj'] at hy
        obtain rfl := Option.some.inj hy
        refine ⟨fun heq => hne ((List.Nodup.getElem_inj_iff hns).1 heq).symm, u, v,
          ⟨_, List.mem_cons_self, hu⟩, huv, hown hu, hcv⟩
      · exact ⟨hne, u, v, ⟨k, List.mem_cons_of_mem _ hk, hu⟩, h⟩
    · rintro ⟨hne, u, v, ⟨k, hk, hu⟩, huv, rfl, rfl⟩
      rcases List.mem_cons.1 hk with rfl | hk
      · obtain ⟨j, hv⟩ := his.intervalOf_some (hroot.2 v (hg.closed.mem huv).2)
        obtain ⟨hj', hcv⟩ := hcollapse hv
        refine .inl ⟨hown hu, j, (htargets j).2 ⟨?_, u, hu, v, huv, hv⟩, ?_⟩
        · rintro rfl
          exact hne ((hown hu).trans hcv.symm)
        · rw [List.getElem?_eq_getElem hj', hcv]
      · exact .inr ⟨hne, u, v, ⟨k, hk, hu⟩, huv, rfl, rfl⟩

/-- `d` has a node for each of some intervals, labelled like the header, and edges between them where
the intervals are joined. Its entry is the node of the first interval. -/
structure IsDerived (g : FlowGraph) (is : List Interval) (d : FlowGraph) : Prop where
  wellFormed : d.WellFormed
  length_eq : d.ids.length = is.length
  leads : ∀ n m, d.Leads n m ↔ g.LinksOut is d.ids is n m
  label_eq : ∀ (j : Nat) (hj : j < is.length) (hj' : j < d.ids.length),
    d.label d.ids[j] = g.label is[j].header
  entry : d.entry = d.ids.head?
  ordered : d.Ordered

theorem headerNodes_spec (hg : g.WellFormed) (his : Partitions g root [] is) (tag : Nat) :
    ∃ into, g.headerNodes { empty g.name tag with attributes := g.attributes } is =
        .ok (into.ids, into) ∧
      AddsNodes { empty g.name tag with attributes := g.attributes } (is.map g.headerBlock)
        into.ids into ∧
      into.ids.length = is.length ∧ WellFormed { into with entry := into.ids.head? } := by
  obtain ⟨ns, into, hrun, hadds⟩ := (WellFormed.empty g.name tag g.attributes).newNodes_eq
    (is.map g.headerBlock)
    (by simpa [empty, FlowGraph.labels, Digraph.empty, Function.comp_def, headerBlock] using
      his.labels_nodup hg)
  rw [← headerNodes_eq] at hrun
  have hlen : ns.length = is.length := by simp [hadds.length_eq]
  have hnodes' : into.nodes = ns.zip (is.map g.headerBlock) := hadds.nodes
  obtain rfl : into.ids = ns := by
    rw [Digraph.ids, hnodes', List.map_fst_zip (by simp [hlen])]
  refine ⟨into, hrun, hadds, hlen, ?_⟩
  cases hhead : into.ids.head? with
  | none =>
    refine { hadds.wellFormed with entry_mem := fun n hn => ?_ }
    cases hn
  | some n => exact hadds.wellFormed.setEntry (List.mem_of_mem_head? hhead)

theorem derived_isDerived (hg : g.WellFormed) (hroot : g.Rooted root)
    (his : Partitions g root [] is) (tag : Nat) :
    ∃ d, g.derived is tag = .ok d ∧ IsDerived g is d := by
  obtain ⟨into, hrun, hadds, hlen, hstart⟩ := headerNodes_spec hg his tag
  have hinto := hadds.wellFormed
  have hnodes' : into.nodes = into.ids.zip (is.map g.headerBlock) := hadds.nodes
  obtain ⟨d, hd, hlinked⟩ := linkIntervals_linked hg hroot his hstart hinto.ids_nodup hlen
    (fun _ => id) (i := 0) List.drop_zero
  have hids : d.ids = into.ids := hlinked.ids
  refine ⟨d, by simp only [derived, hrun, hd], hlinked.wellFormed, by rw [hids, hlen],
    fun n m => ?_, fun j hj hj' => ?_, by rw [hlinked.entry, hids], ?_⟩
  · have hnot : ¬ into.Leads n m := by
      rintro ⟨e, he, -⟩
      rw [hadds.edges] at he
      cases he
    rw [hids, hlinked.leads]
    exact or_iff_right hnot
  · refine hlinked.wellFormed.label_eq (b := g.headerBlock is[j]) ?_
    simp only [hids] at hj' ⊢
    rw [hlinked.nodes]
    exact hnodes' ▸ List.mem_iff_getElem.2 ⟨j, by simp [hlen, hj], by simp⟩
  · rw [Digraph.Ordered, hids]
    exact hadds.ordered List.Pairwise.nil

theorem IsDerived.isQuotient (hd : IsDerived g is d) (hg : g.WellFormed) (hroot : g.Rooted root)
    (his : Partitions g root [] is) : IsQuotient g root d (collapse is d.ids) := by
  have hlen := hd.length_eq
  obtain ⟨first, rest, hfirst, hheader⟩ := his.head
  have hpos : 0 < is.length := by simp [hfirst]
  have hpos' : 0 < d.ids.length := hlen ▸ hpos
  have hroot_mem : root ∈ is[0].members := by
    have := his.header_mem (List.getElem_mem hpos)
    simp only [hfirst, List.getElem_cons_zero, hheader] at this ⊢
    exact this
  have hcollapse_root : collapse is d.ids root = d.ids[0] :=
    collapse_eq (his.intervalOf_eq hpos hroot_mem) hpos'
  refine ⟨fun v hv => ?_, fun n hn => ?_, fun n m hne => ?_, ?_, ?_⟩
  · obtain ⟨j, hj⟩ := his.intervalOf_some (hroot.2 v hv)
    obtain ⟨hj', -⟩ := Partitions.mem_of_intervalOf hj
    rw [collapse_eq hj (hlen ▸ hj')]
    exact List.getElem_mem _
  · obtain ⟨j, hj, rfl⟩ := List.getElem_of_mem hn
    have hj' : j < is.length := hlen ▸ hj
    have hi := List.getElem_mem hj'
    have hinj : ∀ v ∈ g.ids, collapse is d.ids v = d.ids[j] ↔ v ∈ is[j].members := fun v hv =>
      his.collapse_inj hd.wellFormed.ids_nodup hlen hj' hj (hroot.2 v hv)
    have hmem := his.mem_ids _ hi _ (his.header_mem hi)
    refine ⟨is[j].header, hmem, (hd.label_eq j hj' hj).symm, (hinj _ hmem).2 (his.header_mem hi),
      fun w hw hwn => his.dominates hi ((hinj w hw).1 hwn), fun u w huw hun hwn => ?_⟩
    obtain ⟨hu, hw⟩ := hg.closed.mem huw
    exact his.entered hi huw (fun hmem => hun ((hinj u hu).2 hmem)) ((hinj w hw).1 hwn)
  · rw [hd.leads]
    constructor
    · rintro ⟨-, u, v, -, h⟩
      exact ⟨u, v, h⟩
    · rintro ⟨u, v, huv, hu, hv⟩
      obtain ⟨i, hi, hmem⟩ := his.cover (hroot.2 u (hg.closed.mem huv).1)
      exact ⟨hne, u, v, ⟨i, hi, hmem⟩, huv, hu, hv⟩
  · rw [hcollapse_root, hd.entry, List.head?_eq_getElem?, List.getElem?_eq_getElem hpos']
  · rw [hcollapse_root, hd.label_eq 0 hpos hpos']
    simp only [hfirst, List.getElem_cons_zero, hheader]

/-- The derived graph can be built. It has a node for each interval and is the quotient by the
intervals; no node leads to itself. -/
theorem derived_spec (hg : g.WellFormed) (hroot : g.Rooted root) (his : Partitions g root [] is)
    (tag : Nat) :
    ∃ d, g.derived is tag = .ok d ∧ d.WellFormed ∧ d.size = is.length ∧
      IsQuotient g root d (collapse is d.ids) ∧ ∀ n, ¬ d.Leads n n := by
  obtain ⟨d, hrun, hd⟩ := derived_isDerived hg hroot his tag
  refine ⟨d, hrun, hd.wellFormed, ?_, hd.isQuotient hg hroot his, fun n hn => ?_⟩
  · rw [← hd.length_eq, Digraph.length_ids]
  · exact ((hd.leads n n).1 hn).1 rfl

end FlowGraph

end Structuring
