import Structuring.Proofs.Graph.Derived
import Structuring.Proofs.Reduction.Dominance

/-!
# What a derived graph keeps

* `Edge.ends` — the two ends of an edge. In a derived graph no two edges have the same ends.
* `FlowGraph.StandsFor` — a node of the derived graph was made for an interval.
* `FlowGraph.derived_keeps_dominance` — the derived graph of a graph that passes the check: its nodes,
  its edges, and dominance between headers and members.
-/

namespace Structuring

open Relation

def Edge.ends (e : Edge) : NodeId × NodeId := (e.source, e.target)

namespace FlowGraph

variable {g d into : FlowGraph} {root n m : NodeId} {is rest : List Interval} {ns : List NodeId}
  {i k : Interval}

/-! ## The edges that are made -/

theorem leadsTo_nodup {own : Nat} {js : List Nat} (h : g.leadsTo is own i = .ok js) : js.Nodup := by
  unfold leadsTo at h
  cases ht : targetIntervals is (i.members.flatMap g.successors) with
  | error f =>
    rw [ht] at h
    cases h
  | ok ks =>
    rw [ht] at h
    cases h
    exact nodup_distinct _

theorem eq_of_getElem? (hns : ns.Nodup) {a b : Nat} (ha : ns[a]? = some n) (hb : ns[b]? = some n) :
    a = b := by
  obtain ⟨ha', rfl⟩ := List.getElem?_eq_some_iff.1 ha
  obtain ⟨hb', heq⟩ := List.getElem?_eq_some_iff.1 hb
  exact ((List.Nodup.getElem_inj_iff hns).1 heq).symm

theorem linkTo_edges (hns : ns.Nodup) {js : List Nat} (hjs : js.Nodup)
    (h : linkTo ns n into js = .ok d) :
    d.nodes = into.nodes ∧ ∃ added, d.edges = into.edges ++ added ∧ (added.map Edge.ends).Nodup ∧
      ∀ e ∈ added, e.source = n ∧ ∃ j ∈ js, ns[j]? = some e.target := by
  induction js generalizing into with
  | nil =>
    cases h
    exact ⟨rfl, [], (List.append_nil _).symm, List.nodup_nil, fun e he => by cases he⟩
  | cons j js ih =>
    obtain ⟨hj, hjs⟩ := List.nodup_cons.1 hjs
    rw [linkTo] at h
    cases hm : ns[j]? with
    | none =>
      rw [hm] at h
      obtain ⟨hnodes, added, hedges, hnodup, hadded⟩ := ih hjs h
      refine ⟨hnodes, added, hedges, hnodup, fun e he => ?_⟩
      obtain ⟨hsource, k, hk, htarget⟩ := hadded e he
      exact ⟨hsource, k, List.mem_cons_of_mem _ hk, htarget⟩
    | some m =>
      simp only [hm] at h
      cases hadd : into.addEdge n m ∅ with
      | error err =>
        rw [hadd] at h
        cases h
      | ok p =>
        obtain ⟨hn, hm'⟩ := WellFormed.of_addEdge_eq_ok hadd
        rw [WellFormed.addEdge_eq hn hm'] at h
        obtain ⟨hnodes, added, hedges, hnodup, hadded⟩ := ih hjs h
        refine ⟨hnodes, _, hedges.trans (List.append_assoc _ _ _), ?_, fun e he => ?_⟩
        · refine List.nodup_cons.2 ⟨fun hin => ?_, hnodup⟩
          obtain ⟨e, he, hends⟩ := List.mem_map.1 hin
          obtain ⟨-, k, hk, htarget⟩ := hadded e he
          rw [show e.target = m from congrArg Prod.snd hends] at htarget
          exact hj (eq_of_getElem? hns hm htarget ▸ hk)
        · rcases List.mem_cons.1 he with rfl | he
          · exact ⟨rfl, j, List.mem_cons_self, hm⟩
          · obtain ⟨hsource, k, hk, htarget⟩ := hadded e he
            exact ⟨hsource, k, List.mem_cons_of_mem _ hk, htarget⟩

/-- No two edges between the nodes for intervals have the same ends. -/
theorem linkIntervals_edges (hns : ns.Nodup) {a : Nat}
    (h : g.linkIntervals is ns into a rest = .ok d) :
    d.nodes = into.nodes ∧ ∃ added, d.edges = into.edges ++ added ∧ (added.map Edge.ends).Nodup ∧
      ∀ e ∈ added, ∃ b, a ≤ b ∧ ns[b]? = some e.source := by
  induction rest generalizing into a with
  | nil =>
    cases h
    exact ⟨rfl, [], (List.append_nil _).symm, List.nodup_nil, fun e he => by cases he⟩
  | cons t rest ih =>
    rw [linkIntervals] at h
    cases hjs : g.leadsTo is a t with
    | error f =>
      rw [hjs] at h
      cases h
    | ok js =>
      simp only [hjs, bind, Except.bind] at h
      cases hn : ns[a]? with
      | none =>
        simp only [hn] at h
        obtain ⟨hnodes, added, hedges, hnodup, hadded⟩ := ih h
        refine ⟨hnodes, added, hedges, hnodup, fun e he => ?_⟩
        obtain ⟨b, hb, hsource⟩ := hadded e he
        exact ⟨b, Nat.le_of_succ_le hb, hsource⟩
      | some n =>
        simp only [hn] at h
        cases hlink : linkTo ns n into js with
        | error err =>
          simp only [hlink] at h
          cases h
        | ok into' =>
          simp only [hlink] at h
          obtain ⟨hnodes, added, hedges, hnodup, hadded⟩ :=
            linkTo_edges hns (leadsTo_nodup hjs) hlink
          obtain ⟨hnodes', added', hedges', hnodup', hadded'⟩ := ih h
          refine ⟨hnodes'.trans hnodes, added ++ added', ?_, ?_, fun e he => ?_⟩
          · rw [hedges', hedges, List.append_assoc]
          · rw [List.map_append]
            refine List.nodup_append.2 ⟨hnodup, hnodup', fun x hx y hy hxy => ?_⟩
            obtain ⟨e, he, rfl⟩ := List.mem_map.1 hx
            obtain ⟨e', he', rfl⟩ := List.mem_map.1 hy
            obtain ⟨b, hb, hsource⟩ := hadded' e' he'
            have heq : e.source = e'.source := congrArg Prod.fst hxy
            rw [← heq, (hadded e he).1] at hsource
            have := eq_of_getElem? hns hn hsource
            omega
          · rcases List.mem_append.1 he with he | he
            · exact ⟨a, Nat.le_refl _, (hadded e he).1 ▸ hn⟩
            · obtain ⟨b, hb, hsource⟩ := hadded' e he
              exact ⟨b, Nat.le_of_succ_le hb, hsource⟩

/-- The derived graph has the blocks of the headers in order, and no two edges with the same ends. -/
theorem derived_blocks (hg : g.WellFormed) (his : Partitions g root [] is) {tag : Nat}
    (h : g.derived is tag = .ok d) :
    d.nodes.map (·.2) = is.map g.headerBlock ∧ (d.edges.map Edge.ends).Nodup := by
  obtain ⟨into, hrun, hadds, hlen, -⟩ := headerNodes_spec hg his tag
  simp only [derived, hrun] at h
  obtain ⟨hnodes, added, hedges, hnodup, -⟩ := linkIntervals_edges hadds.wellFormed.ids_nodup h
  have hinto : into.nodes = into.ids.zip (is.map g.headerBlock) := hadds.nodes
  refine ⟨?_, ?_⟩
  · rw [hnodes]
    simp only [hinto]
    exact List.map_snd_zip (by simp [hlen])
  · have hnone : into.edges = [] := hadds.edges
    rw [hedges]
    simpa [hnone] using hnodup

/-! ## Nodes and intervals -/

/-- The node was made for the interval: they are at the same place. -/
def StandsFor (d : FlowGraph) (is : List Interval) (n : NodeId) (i : Interval) : Prop :=
  ∃ j : Nat, d.ids[j]? = some n ∧ is[j]? = some i

namespace StandsFor

variable {v : NodeId}

theorem mem_ids (h : StandsFor d is n i) : n ∈ d.ids := by
  obtain ⟨j, hn, -⟩ := h
  exact List.mem_of_getElem? hn

theorem mem (h : StandsFor d is n i) : i ∈ is := by
  obtain ⟨j, -, hi⟩ := h
  exact List.mem_of_getElem? hi

theorem collapse_iff (h : StandsFor d is n i) (hroot : g.Rooted root)
    (his : Partitions g root [] is) (hd : IsDerived g is d) (hv : v ∈ g.ids) :
    collapse is d.ids v = n ↔ v ∈ i.members := by
  obtain ⟨j, hn, hi⟩ := h
  obtain ⟨hj, rfl⟩ := List.getElem?_eq_some_iff.1 hn
  obtain ⟨hj', rfl⟩ := List.getElem?_eq_some_iff.1 hi
  exact his.collapse_inj hd.wellFormed.ids_nodup hd.length_eq hj' hj (hroot.2 v hv)

theorem label_eq (h : StandsFor d is n i) (hd : IsDerived g is d) : d.label n = g.label i.header := by
  obtain ⟨j, hn, hi⟩ := h
  obtain ⟨hj, rfl⟩ := List.getElem?_eq_some_iff.1 hn
  obtain ⟨hj', rfl⟩ := List.getElem?_eq_some_iff.1 hi
  exact hd.label_eq j hj' hj

theorem isHead (h : StandsFor d is n i) (hg : g.WellFormed) (hroot : g.Rooted root)
    (his : Partitions g root [] is) (hd : IsDerived g is d) :
    IsHead g root d (collapse is d.ids) n i.header := by
  obtain ⟨v, hv⟩ := (hd.isQuotient hg hroot his).head n h.mem_ids
  have hheader := his.mem_ids i h.mem _ (his.header_mem h.mem)
  obtain rfl : v = i.header :=
    hg.eq_of_key hv.mem_ids hheader (congrArg Value.key (hv.label_eq.trans (h.label_eq hd)))
  exact hv

end StandsFor

/-- The node that a node is collapsed to stands for the interval that holds it. -/
theorem exists_standsFor (hroot : g.Rooted root) (his : Partitions g root [] is)
    (hd : IsDerived g is d) {v : NodeId} (hv : v ∈ g.ids) :
    ∃ i, StandsFor d is (collapse is d.ids v) i ∧ v ∈ i.members := by
  obtain ⟨j, hj⟩ := his.intervalOf_some (hroot.2 v hv)
  obtain ⟨hj', hmem⟩ := Partitions.mem_of_intervalOf hj
  have hj'' : j < d.ids.length := hd.length_eq ▸ hj'
  refine ⟨is[j], ⟨j, ?_, List.getElem?_eq_getElem hj'⟩, hmem⟩
  rw [collapse_eq hj hj'', List.getElem?_eq_getElem hj'']

/-- A graph that passes the check has a derived graph, which passes the check as well. Its nodes are
the headers in order, with their labels and attributes, its entry is that of the interval of the entry,
and every node is in the interval of exactly one of them. No edge leads from a node to itself, no two
have the same ends, and there is one between different nodes exactly if some edge joins the intervals.
A header dominates a node exactly if its interval dominates that of the node. -/
theorem derived_keeps_dominance (hg : g.WellFormed) (hvalid : g.validate = .ok ()) (tag : Nat) :
    ∃ root is d root', g.entry = some root ∧ g.intervals = some is ∧ g.derived is tag = .ok d ∧
      d.validate = .ok () ∧ d.nodes.map (·.2) = is.map g.headerBlock ∧
      (∀ n, ¬ d.Leads n n) ∧ (d.edges.map Edge.ends).Nodup ∧
      d.entry = some root' ∧ (∃ i, StandsFor d is root' i ∧ root ∈ i.members) ∧
      (∀ v ∈ g.ids, ∃ n i, StandsFor d is n i ∧ v ∈ i.members ∧
        ∀ m k, StandsFor d is m k → v ∈ k.members → m = n) ∧
      (∀ n i m k, StandsFor d is n i → StandsFor d is m k →
        (d.Leads n m ↔ n ≠ m ∧ ∃ u ∈ i.members, ∃ v ∈ k.members, g.Leads u v)) ∧
      ∀ n i m k, StandsFor d is n i → StandsFor d is m k → ∀ v ∈ k.members,
        (Dominates d.Leads root' n m ↔ Dominates g.Leads root i.header v) := by
  obtain ⟨root, hroot⟩ := (validate_eq_ok hg.closed).1 hvalid
  obtain ⟨is, his, hpart⟩ := intervals_partitions hg hroot.1
  obtain ⟨d, hrun, hd⟩ := derived_isDerived hg hroot hpart tag
  have hq := hd.isQuotient hg hroot hpart
  obtain ⟨hblocks, hends⟩ := derived_blocks hg hpart hrun
  have hrooted := hq.rooted hroot
  have hcollapse : ∀ {n i v}, StandsFor d is n i → v ∈ i.members → collapse is d.ids v = n :=
    fun h hv => (h.collapse_iff hroot hpart hd (hpart.mem_ids _ h.mem _ hv)).2 hv
  refine ⟨root, is, d, collapse is d.ids root, hroot.1, his, hrun,
    (validate_eq_ok hd.wellFormed.closed).2 ⟨_, hrooted⟩, hblocks,
    fun n hn => ((hd.leads n n).1 hn).1 rfl, hends, hq.entry_eq,
    exists_standsFor hroot hpart hd (hg.entry_mem root hroot.1), fun v hv => ?_,
    fun n i m k hn hm => ?_, fun n i m k hn hm v hv => ?_⟩
  · obtain ⟨i, hi, hmem⟩ := exists_standsFor hroot hpart hd hv
    exact ⟨_, i, hi, hmem, fun m k hm hk => (hcollapse hm hk).symm⟩
  · constructor
    · intro hleads
      obtain ⟨hne, u, v, -, huv, hu, hv⟩ := (hd.leads n m).1 hleads
      obtain ⟨hu', hv'⟩ := hg.closed.mem huv
      exact ⟨hne, u, (hn.collapse_iff hroot hpart hd hu').1 hu, v,
        (hm.collapse_iff hroot hpart hd hv').1 hv, huv⟩
    · rintro ⟨hne, u, hu, v, hv, huv⟩
      exact (hd.leads n m).2 ⟨hne, u, v, ⟨i, hn.mem, hu⟩, huv, hcollapse hn hu, hcollapse hm hv⟩
  · have := hq.dominates_iff hg hroot (hn.isHead hg hroot hpart hd) (hpart.mem_ids k hm.mem v hv)
    rwa [hcollapse hm hv] at this

/-- Two loops, one in the other, with a way out of each. -/
def nestedLoops : FlowGraph := ofWords ["AB", "BC", "CD", "DC", "DB", "BE", "CE"]

theorem nestedLoops_derived :
    nestedLoops.WellFormed ∧ nestedLoops.validate = .ok () ∧
      ∃ root is d root', nestedLoops.entry = some root ∧ nestedLoops.intervals = some is ∧
        nestedLoops.derived is 0 = .ok d ∧ d.validate = .ok () ∧
        d.labels = [.text "A", .text "B", .text "C", .text "E"] ∧ d.entry = some root' ∧
        ∀ n i m k, StandsFor d is n i → StandsFor d is m k → ∀ v ∈ k.members,
          (Dominates d.Leads root' n m ↔ Dominates nestedLoops.Leads root i.header v) := by
  have hg : nestedLoops.WellFormed := ofWords_wellFormed _
  have hvalid : nestedLoops.validate = .ok () := by cbv
  obtain ⟨root, is, d, root', hroot, his, hrun, hd, hblocks, -, -, hentry, -, -, -, hdom⟩ :=
    derived_keeps_dominance hg hvalid 0
  have hheaders : nestedLoops.intervals.map (List.map fun i => (nestedLoops.headerBlock i).label) =
      some [.text "A", .text "B", .text "C", .text "E"] := by cbv
  rw [his] at hheaders
  have hlabels : d.labels = is.map fun i => (nestedLoops.headerBlock i).label := by
    have := congrArg (List.map Block.label) hblocks
    rwa [List.map_map, List.map_map] at this
  exact ⟨hg, hvalid, root, is, d, root', hroot, his, hrun, hd,
    hlabels.trans (Option.some.inj hheaders), hentry, hdom⟩

end FlowGraph

end Structuring
