import Structuring.Proofs.Graph.Partition

/-!
# One graph drawn in two orders

The intervals are found by going through the nodes in the order of their numbers, and new headers wait in
a queue. Which intervals are found does not depend on either.

* `FlowGraph.Redraws` — the same nodes, edges and entry, known by their labels, in whatever order.
* `FlowGraph.Counterparts` — the nodes of one label in two such graphs.
* `Redraws.mem_of_header`, `Redraws.exists_header` — a partition into intervals is told by its headers,
  and the headers are told by the graph.
* `Redraws.intervalKeys_subset` — hence an interval of one drawing is one of the other.
* `FlowGraph.intervalKeys_eq` — two drawings of a graph have the same intervals.
-/

namespace Structuring

open Relation

namespace FlowGraph

def keyOf (g : FlowGraph) (v : NodeId) : Key := (g.label v).key

/-- The same graph, of which nodes and edges may have been added in another order. -/
structure Redraws (g h : FlowGraph) : Prop where
  nodes : (g.ids.map g.keyOf).Perm (h.ids.map h.keyOf)
  edges : (g.edges.map fun e => (g.keyOf e.source, g.keyOf e.target)).Perm
    (h.edges.map fun e => (h.keyOf e.source, h.keyOf e.target))
  entry : g.entry.map g.keyOf = h.entry.map h.keyOf

structure Counterparts (g h : FlowGraph) (v w : NodeId) : Prop where
  left : v ∈ g.ids
  right : w ∈ h.ids
  key : g.keyOf v = h.keyOf w

def intervalKey (g : FlowGraph) (i : Interval) : Key × Multiset Key :=
  (g.keyOf i.header, (i.members.map g.keyOf : List Key))

def intervalKeys (g : FlowGraph) : Option (Multiset (Key × Multiset Key)) :=
  g.intervals.map fun is => (is.map g.intervalKey : List _)

variable {g h : FlowGraph} {root root' u v w x y : NodeId} {is js : List Interval} {i j : Interval}

namespace Counterparts

theorem symm (hvw : g.Counterparts h v w) : h.Counterparts g w v := ⟨hvw.right, hvw.left, hvw.key.symm⟩

theorem right_eq (hh : h.WellFormed) (hx : g.Counterparts h v x) (hy : g.Counterparts h v y) : x = y :=
  hh.eq_of_key hx.right hy.right (hx.key.symm.trans hy.key)

theorem left_eq (hg : g.WellFormed) (hu : g.Counterparts h u w) (hv : g.Counterparts h v w) : u = v :=
  right_eq hg hu.symm hv.symm

end Counterparts

namespace IsPartition

theorem eq_of_mem (hp : g.IsPartition root is) (hi : i ∈ is) (hj : j ∈ is) (hvi : v ∈ i.members)
    (hvj : v ∈ j.members) : i = j := by
  by_contra hne
  have : Std.Symm (Function.onFun List.Disjoint Interval.members) := ⟨fun _ _ hd => hd.symm⟩
  exact (List.nodup_flatMap.1 hp.disjoint).2.forall hi hj hne hvi hvj

theorem header_mem (hp : g.IsPartition root is) (hi : i ∈ is) : i.header ∈ i.members :=
  List.mem_of_head? (hp.header_first i hi)

theorem exists_first (hp : g.IsPartition root is) : ∃ i ∈ is, i.header = root := by
  obtain ⟨i, hi, hroot⟩ := Option.map_eq_some_iff.1 hp.first
  exact ⟨i, List.mem_of_head? hi, hroot⟩

theorem header_of_root_mem (hp : g.IsPartition root is) (hi : i ∈ is) (hroot : root ∈ i.members) :
    i.header = root := by
  obtain ⟨j, hj, hheader⟩ := hp.exists_first
  rw [hp.eq_of_mem hi hj hroot (hheader ▸ hp.header_mem hj), hheader]

theorem exists_mem (hp : g.IsPartition root is) (hv : ReflTransGen g.Leads root v) :
    ∃ i ∈ is, v ∈ i.members := (hp.cover v).2 hv

/-- A node that an edge leads to from another interval is a header. -/
theorem eq_header (hp : g.IsPartition root is) (hi : i ∈ is) (hj : j ∈ is) (huv : g.Leads u v)
    (hu : u ∈ j.members) (hv : v ∈ i.members) (hout : v ∉ j.members) : v = i.header := by
  by_contra hne
  obtain ⟨hui, -⟩ := (hp.entered i hi v hv hne).2 u (Digraph.mem_predecessors.2 huv)
  exact hout (hp.eq_of_mem hi hj hui hu ▸ hv)

theorem headers_nodup (hp : g.IsPartition root is) : (is.map Interval.header).Nodup := by
  have hpair := (List.nodup_flatMap.1 hp.disjoint).2
  refine List.pairwise_map.2 (hpair.imp_of_mem fun hi hj hd heq => ?_)
  exact hd (hp.header_mem hi) (heq ▸ hp.header_mem hj)

theorem mem_ids (hp : g.IsPartition root is) (hg : g.WellFormed) (hroot : root ∈ g.ids)
    (hi : i ∈ is) (hv : v ∈ i.members) : v ∈ g.ids :=
  hg.closed.reach_mem hroot ((hp.cover v).1 ⟨i, hi, hv⟩)

theorem memberKeys_nodup (hp : g.IsPartition root is) (hg : g.WellFormed) (hroot : root ∈ g.ids)
    (hi : i ∈ is) : (i.members.map g.keyOf).Nodup :=
  ((List.nodup_flatMap.1 hp.disjoint).1 i hi).map_on fun _ hu _ hv =>
    hg.eq_of_key (hp.mem_ids hg hroot hi hu) (hp.mem_ids hg hroot hi hv)

theorem intervalKeys_nodup (hp : g.IsPartition root is) (hg : g.WellFormed) (hroot : root ∈ g.ids) :
    (is.map g.intervalKey).Nodup := by
  have hheaders : ((is.map Interval.header).map g.keyOf).Nodup := by
    refine hp.headers_nodup.map_on fun u hu v hv => ?_
    obtain ⟨i, hi, rfl⟩ := List.mem_map.1 hu
    obtain ⟨j, hj, rfl⟩ := List.mem_map.1 hv
    exact hg.eq_of_key (hp.mem_ids hg hroot hi (hp.header_mem hi))
      (hp.mem_ids hg hroot hj (hp.header_mem hj))
  refine List.Nodup.of_map Prod.fst ?_
  rw [List.map_map] at hheaders ⊢
  exact hheaders

end IsPartition

namespace Redraws

theorem symm (hr : g.Redraws h) : h.Redraws g := ⟨hr.nodes.symm, hr.edges.symm, hr.entry.symm⟩

theorem exists_counterpart (hr : g.Redraws h) (hv : v ∈ g.ids) : ∃ w, g.Counterparts h v w := by
  obtain ⟨w, hw, hkey⟩ := List.mem_map.1 (hr.nodes.subset (List.mem_map_of_mem hv))
  exact ⟨w, hv, hw, hkey.symm⟩

theorem leads (hr : g.Redraws h) (hh : h.WellFormed) (huv : g.Leads u v) (hx : g.Counterparts h u x)
    (hy : g.Counterparts h v y) : h.Leads x y := by
  obtain ⟨e, he, rfl, rfl⟩ := huv
  obtain ⟨f, hf, heq⟩ := List.mem_map.1 (hr.edges.subset (List.mem_map_of_mem he))
  obtain ⟨hsource, htarget⟩ := Prod.mk.inj heq
  obtain ⟨hs, ht⟩ := hh.closed f hf
  exact ⟨f, hf, hh.eq_of_key hs hx.right (hsource.trans hx.key),
    hh.eq_of_key ht hy.right (htarget.trans hy.key)⟩

/-- The nodes that lead to a node and to its counterpart are counterparts. -/
theorem exists_pred (hr : g.Redraws h) (hg : g.WellFormed) (hh : h.WellFormed)
    (hvw : g.Counterparts h v w) (hxw : h.Leads x w) : ∃ u, g.Leads u v ∧ g.Counterparts h u x := by
  obtain ⟨u, hxu⟩ := hr.symm.exists_counterpart (hh.closed.mem hxw).1
  exact ⟨u, hr.symm.leads hg hxw hxu hvw.symm, hxu.symm⟩

theorem entries (hr : g.Redraws h) (hg : g.WellFormed) (hh : h.WellFormed)
    (hroot : g.entry = some root) : ∃ root', h.entry = some root' ∧ g.Counterparts h root root' := by
  have hentry := hr.entry
  rw [hroot, Option.map_some, eq_comm, Option.map_eq_some_iff] at hentry
  obtain ⟨root', hroot', hkey⟩ := hentry
  exact ⟨root', hroot', hg.entry_mem root hroot, hh.entry_mem root' hroot', hkey.symm⟩

section Partitions

variable (hr : g.Redraws h) (hg : g.WellFormed) (hh : h.WellFormed)
  (hroot : g.Counterparts h root root') (hp : g.IsPartition root is) (hq : h.IsPartition root' js)

include hr hg hh hroot hp hq

theorem mem_of_header (hi : i ∈ is) (hj : j ∈ js) (hheader : g.Counterparts h i.header j.header)
    (hv : v ∈ i.members) (hvw : g.Counterparts h v w) : w ∈ j.members := by
  -- by the place of the member: what leads to it was added before it
  induction hn : i.members.idxOf v using Nat.strong_induction_on generalizing v w with
  | _ n ih =>
    subst hn
    by_cases hne : v = i.header
    · subst hne
      exact hvw.right_eq hh hheader ▸ hq.header_mem hj
    obtain ⟨hpreds, hbefore⟩ := hp.entered i hi v hv hne
    have hmem : ∀ u x, g.Leads u v → g.Counterparts h u x → x ∈ j.members := fun u x huv hux =>
      have hu := hbefore u (Digraph.mem_predecessors.2 huv)
      ih _ hu.2 hu.1 hux rfl
    by_contra hw
    have hw_root : w ≠ root' := by
      rintro rfl
      obtain rfl := hvw.left_eq hg hroot
      exact hne (hp.header_of_root_mem hi hv).symm
    obtain ⟨u, hu⟩ := List.exists_mem_of_ne_nil _ hpreds
    have huv := Digraph.mem_predecessors.1 hu
    obtain ⟨x, hux⟩ := hr.exists_counterpart (hg.closed.mem huv).1
    have hxw := Digraph.mem_predecessors.2 (hr.leads hh huv hux hvw)
    obtain ⟨y, hy, hout⟩ := hq.maximal j hj w hvw.right hw hw_root ⟨x, hxw, hmem u x huv hux⟩
    obtain ⟨t, htv, hty⟩ := hr.exists_pred hg hh hvw (Digraph.mem_predecessors.1 hy)
    exact hout (hmem t y htv hty)

theorem exists_header (hreach : ReflTransGen g.Leads root v) (hi : i ∈ is) (hv : v ∈ i.members) :
    ∃ j ∈ js, g.Counterparts h i.header j.header := by
  induction hreach generalizing i with
  | refl =>
    obtain ⟨j, hj, hheader⟩ := hq.exists_first
    exact ⟨j, hj, by rwa [hp.header_of_root_mem hi hv, hheader]⟩
  | @tail u v hu huv ih =>
    obtain ⟨i₀, hi₀, hui₀⟩ := hp.exists_mem hu
    obtain ⟨j₀, hj₀, hheader⟩ := ih hi₀ hui₀
    by_cases hvi₀ : v ∈ i₀.members
    · exact ⟨j₀, hj₀, hp.eq_of_mem hi hi₀ hv hvi₀ ▸ hheader⟩
    · -- both are entered from an interval that they are not in, so both are headers
      obtain ⟨hu_mem, hv_mem⟩ := hg.closed.mem huv
      obtain ⟨x, hux⟩ := hr.exists_counterpart hu_mem
      obtain ⟨w, hvw⟩ := hr.exists_counterpart hv_mem
      have hxw := hr.leads hh huv hux hvw
      have hx := hr.mem_of_header hg hh hroot hp hq hi₀ hj₀ hheader hui₀ hux
      have hw : w ∉ j₀.members := fun hw =>
        hvi₀ (hr.symm.mem_of_header hh hg hroot.symm hq hp hj₀ hi₀ hheader.symm hw hvw.symm)
      obtain ⟨j, hj, hwj⟩ := hq.exists_mem (((hq.cover x).1 ⟨j₀, hj₀, hx⟩).tail hxw)
      rw [← hp.eq_header hi hi₀ huv hui₀ hv hvi₀]
      exact ⟨j, hj, hq.eq_header hj hj₀ hxw hx hwj hw ▸ hvw⟩

theorem memberKeys_subset (hi : i ∈ is) (hj : j ∈ js) (hheader : g.Counterparts h i.header j.header) :
    i.members.map g.keyOf ⊆ j.members.map h.keyOf := by
  intro k hk
  obtain ⟨v, hv, rfl⟩ := List.mem_map.1 hk
  obtain ⟨w, hvw⟩ := hr.exists_counterpart (hp.mem_ids hg hroot.left hi hv)
  exact List.mem_map.2 ⟨w, hr.mem_of_header hg hh hroot hp hq hi hj hheader hv hvw, hvw.key.symm⟩

theorem intervalKeys_subset : is.map g.intervalKey ⊆ js.map h.intervalKey := by
  intro k hk
  obtain ⟨i, hi, rfl⟩ := List.mem_map.1 hk
  have hmem := hp.header_mem hi
  obtain ⟨j, hj, hheader⟩ :=
    hr.exists_header hg hh hroot hp hq ((hp.cover _).1 ⟨i, hi, hmem⟩) hi hmem
  refine List.mem_map.2 ⟨j, hj, Prod.ext hheader.key.symm (Multiset.coe_eq_coe.2 ?_)⟩
  refine (List.perm_ext_iff_of_nodup (hq.memberKeys_nodup hh hroot.right hj)
    (hp.memberKeys_nodup hg hroot.left hi)).2 fun k => ⟨fun hk => ?_, fun hk => ?_⟩
  · exact hr.symm.memberKeys_subset hh hg hroot.symm hq hp hj hi hheader.symm hk
  · exact hr.memberKeys_subset hg hh hroot hp hq hi hj hheader hk

end Partitions

end Redraws

/-- Two well-formed graphs with the same nodes, the same edges as often, and the same entry, by their
labels, have the same intervals, in whatever order nodes and edges were added: the same headers, each with
the same members. There are none exactly if there is no entry. -/
theorem intervalKeys_eq (hg : g.WellFormed) (hh : h.WellFormed) (hr : g.Redraws h) :
    g.intervalKeys = h.intervalKeys ∧ g.intervalKeys.isSome = g.entry.isSome := by
  cases hentry : g.entry with
  | none =>
    have hentry' : h.entry = none := by simpa [hentry, eq_comm] using hr.entry
    simp [intervalKeys, intervals, hentry, hentry']
  | some root =>
    obtain ⟨root', hentry', hroot⟩ := hr.entries hg hh hentry
    obtain ⟨is, his, hparts⟩ := intervals_partitions hg hentry
    obtain ⟨js, hjs, hparts'⟩ := intervals_partitions hh hentry'
    have hp := hparts.isPartition
    have hq := hparts'.isPartition
    have hperm : (is.map g.intervalKey).Perm (js.map h.intervalKey) :=
      (List.perm_ext_iff_of_nodup (hp.intervalKeys_nodup hg hroot.left)
        (hq.intervalKeys_nodup hh hroot.right)).2 fun _ =>
          ⟨fun hk => hr.intervalKeys_subset hg hh hroot hp hq hk,
            fun hk => hr.symm.intervalKeys_subset hh hg hroot.symm hq hp hk⟩
    simp only [intervalKeys, his, hjs, Option.map_some, Option.isSome_some, and_true]
    exact congrArg some (Multiset.coe_eq_coe.2 hperm)

/-- The nodes and edges of `doubleEntry` in another order. -/
def doubleEntryAgain : FlowGraph := ofWords ["AC", "XD", "EF", "CD", "AB", "DF", "CB", "BC", "DE"]

theorem doubleEntry_intervalKeys :
    doubleEntry.WellFormed ∧ doubleEntryAgain.WellFormed ∧ doubleEntry.Redraws doubleEntryAgain ∧
      doubleEntry.intervalKeys = doubleEntryAgain.intervalKeys ∧
      doubleEntryAgain.intervals.map (List.map Interval.members) =
        some [[⟨0, 1⟩], [⟨0, 2⟩], [⟨0, 7⟩], [⟨0, 4⟩, ⟨0, 5⟩, ⟨0, 6⟩]] := by
  have hr : doubleEntry.Redraws doubleEntryAgain :=
    ⟨by decide +kernel, by decide +kernel, by decide +kernel⟩
  exact ⟨ofWords_wellFormed _, ofWords_wellFormed _, hr,
    (intervalKeys_eq (ofWords_wellFormed _) (ofWords_wellFormed _) hr).1, by cbv⟩

end FlowGraph

end Structuring
