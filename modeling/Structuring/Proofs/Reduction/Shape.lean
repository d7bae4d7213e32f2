import Mathlib
import Structuring.Proofs.Graph.DominatorQueries
import Structuring.Proofs.Reduction.Search

/-!
# The declared shapes of primitives

What the catalogue says of each kind, in terms of how many edges lead from one node to another and of
the walks from the entry, without candidates, orders of edges or dominator trees; and that the search
finds just what is declared.

* `Primitive.IsShape` — nodes in the roles of a primitive have its declared shape.
* `Primitive.holds_iff_isShape` — the test of a primitive decides it.
* `FlowGraph.findMatch_spec` — the search fails only if no nodes have a declared shape, and what it
  finds comes first by its entry and then by its kind.
-/

namespace Structuring

open Relation

namespace FlowGraph

def edgeCount (g : FlowGraph) (u v : NodeId) : Nat :=
  g.edges.countP fun e => e.source = u ∧ e.target = v

/-- The edges out of a node lead to the nodes listed, one edge for each time a node is listed. -/
def LeadsExactlyTo (g : FlowGraph) (n : NodeId) (ms : List NodeId) : Prop :=
  ∀ m, g.edgeCount n m = ms.count m

/-- The edges into a node come from the nodes listed. -/
def EnteredExactlyFrom (g : FlowGraph) (n : NodeId) (ms : List NodeId) : Prop :=
  ∀ m, g.edgeCount m n = ms.count m

/-- The nodes are reached from the root, and only through `v`. -/
def Governs (g : FlowGraph) (root v : NodeId) (ws : List NodeId) : Prop :=
  ∀ w ∈ ws, ReflTransGen g.Leads root w ∧ Dominates g.Leads root v w

end FlowGraph

/-- The declared shape of a primitive: its nodes are distinct but for the body of a loop that is its
own test, the entry dominates the others, and the edges are counted. The exit may lead anywhere. -/
def Primitive.IsShape (g : FlowGraph) (root : NodeId) : Primitive NodeId → Prop
  | .preLoop c b e => [c, b, e].Nodup ∧ g.Governs root c [b, e] ∧
      g.LeadsExactlyTo c [b, e] ∧ g.EnteredExactlyFrom b [c] ∧ g.LeadsExactlyTo b [c] ∧
      g.EnteredExactlyFrom e [c]
  | .postLoop b c e =>
      if b = c then [c, e].Nodup ∧ g.Governs root c [e] ∧
        g.LeadsExactlyTo c [c, e] ∧ g.EnteredExactlyFrom e [c]
      else [b, c, e].Nodup ∧ g.Governs root b [c, e] ∧
        g.LeadsExactlyTo b [c] ∧ g.EnteredExactlyFrom c [b] ∧ g.LeadsExactlyTo c [b, e] ∧
        g.EnteredExactlyFrom e [c]
  | .ifElseReturn c y n => [c, y, n].Nodup ∧ g.Governs root c [y, n] ∧
      g.LeadsExactlyTo c [y, n] ∧ g.EnteredExactlyFrom y [c] ∧ g.LeadsExactlyTo y [] ∧
      g.EnteredExactlyFrom n [c] ∧ g.LeadsExactlyTo n []
  | .ifReturn c b e => [c, b, e].Nodup ∧ g.Governs root c [b, e] ∧
      g.LeadsExactlyTo c [b, e] ∧ g.EnteredExactlyFrom b [c] ∧ g.LeadsExactlyTo b [] ∧
      g.EnteredExactlyFrom e [c]
  | .ifThen c b e => [c, b, e].Nodup ∧ g.Governs root c [b, e] ∧
      g.LeadsExactlyTo c [b, e] ∧ g.EnteredExactlyFrom b [c] ∧ g.LeadsExactlyTo b [e] ∧
      g.EnteredExactlyFrom e [c, b]
  | .ifElse c y n e => [c, y, n, e].Nodup ∧ g.Governs root c [y, n, e] ∧
      g.LeadsExactlyTo c [y, n] ∧ g.EnteredExactlyFrom y [c] ∧ g.LeadsExactlyTo y [e] ∧
      g.EnteredExactlyFrom n [c] ∧ g.LeadsExactlyTo n [e] ∧ g.EnteredExactlyFrom e [y, n]
  | .fallthrough c e => [c, e].Nodup ∧ g.Governs root c [e] ∧
      g.LeadsExactlyTo c [e, e] ∧ g.EnteredExactlyFrom e [c, c]
  | .sequence a b => [a, b].Nodup ∧ g.Governs root a [b] ∧
      g.LeadsExactlyTo a [b] ∧ g.EnteredExactlyFrom b [a]
  | .nWay h cs e => (h :: e :: cs).Nodup ∧ g.Governs root h (e :: cs) ∧ 2 ≤ cs.length ∧
      3 ≤ (g.successors h).length ∧ (∀ m, g.edgeCount h m ≤ 1) ∧
      (∀ m, m ∈ cs ↔ g.Leads h m ∧ m ≠ e) ∧
      (∀ c ∈ cs, g.EnteredExactlyFrom c [h] ∧ g.LeadsExactlyTo c [e]) ∧
      (∀ u, g.Leads u e ↔ u ∈ cs ∨ u = h ∧ g.Leads h e)

namespace FlowGraph

variable {g : FlowGraph} {root n : NodeId} {t : DominatorTree NodeId} {ms : List NodeId}

/-! ## Counts of edges and the tests of the search -/

theorem count_ends (g : FlowGraph) (u v : NodeId) : g.ends.count (u, v) = g.edgeCount u v := by
  rw [ends_eq, ← Multiset.map_coe, Multiset.count_map, Multiset.filter_coe, Multiset.coe_card,
    ← List.countP_eq_length_filter, edgeCount]
  refine List.countP_congr fun e _ => ?_
  simp only [decide_eq_true_eq, Prod.mk.injEq]
  exact and_congr eq_comm eq_comm

theorem edgeCount_pos {u v : NodeId} : 0 < g.edgeCount u v ↔ g.Leads u v := by
  rw [← count_ends, Multiset.count_pos, mem_ends]

theorem leadsExactlyTo_iff : g.LeadsExactlyTo n ms ↔ g.targets n ms = true := by
  rw [targets_iff, Multiset.ext]
  refine forall_congr' fun m => ?_
  rw [count_outs, count_ends, Multiset.coe_count]

theorem enteredExactlyFrom_iff : g.EnteredExactlyFrom n ms ↔ g.sources n ms = true := by
  rw [sources_iff, Multiset.ext]
  refine forall_congr' fun m => ?_
  rw [count_ins, count_ends, Multiset.coe_count]

theorem Tells.governs_iff (ht : g.Tells root t) :
    g.Governs root n ms ↔ dominatesAll t n ms = true := by
  rw [dominatesAll_iff]
  exact forall₂_congr fun m _ => (ht n m).symm

/-- Where no two edges are parallel, it is enough to know where they lead. -/
theorem edgeCount_eq_count {u v : NodeId} (hms : ms.Nodup) (hone : g.edgeCount u v ≤ 1)
    (hmem : n ∈ ms ↔ g.Leads u v) : g.edgeCount u v = ms.count n := by
  by_cases hn : n ∈ ms
  · have hpos := edgeCount_pos.2 (hmem.1 hn)
    rw [List.count_eq_one_of_mem hms hn]
    omega
  · have hzero : ¬ 0 < g.edgeCount u v := fun hpos => hn (hmem.2 (edgeCount_pos.1 hpos))
    rw [List.count_eq_zero_of_not_mem hn]
    omega

end FlowGraph

namespace Primitive

variable {g : FlowGraph} {root : NodeId} {t : DominatorTree NodeId} {p q : Primitive NodeId}

theorem holds_nWay_iff_isShape (ht : g.Tells root t) {h e : NodeId} {cs : List NodeId} :
    holds g t (.nWay h cs e) = true ↔ IsShape g root (.nWay h cs e) := by
  have hdirect : (g.successors h).contains e = true ↔ g.Leads h e := by
    rw [List.contains_iff_mem, Digraph.mem_successors]
  simp only [holds, IsShape, Bool.and_eq_true, decide_eq_true_eq, allDistinct_iff,
    ← ht.governs_iff, ← FlowGraph.leadsExactlyTo_iff, ← FlowGraph.enteredExactlyFrom_iff,
    List.all_eq_true]
  generalize (g.successors h).contains e = direct at hdirect ⊢
  by_cases hnd : (h :: e :: cs).Nodup
  case neg => simp [hnd]
  obtain ⟨hhe, hh⟩ : h ≠ e ∧ h ∉ cs := by simpa using (List.nodup_cons.1 hnd).1
  obtain ⟨he, hcs⟩ := List.nodup_cons.1 hnd.of_cons
  have hmem : ∀ u v, (v ∈ if direct then u :: cs else cs) ↔ v ∈ cs ∨ v = u ∧ g.Leads h e := by
    intro u v
    cases direct <;> simp [← hdirect, or_comm]
  have hnodup : ∀ u, u ∉ cs → (if direct then u :: cs else cs).Nodup := by
    intro u hu
    cases direct <;> simp [hu, hcs]
  constructor
  · rintro ⟨⟨⟨⟨⟨⟨hlen, -⟩, hgov⟩, hout⟩, hlen'⟩, hcases⟩, hin⟩
    refine ⟨hnd, hgov, hlen, hlen', fun m => ?_, fun m => ?_, hcases, fun u => ?_⟩
    · rw [hout m]
      exact List.nodup_iff_count_le_one.1 (hnodup e he) m
    · rw [← FlowGraph.edgeCount_pos, hout m, List.count_pos_iff, hmem]
      grind
    · rw [← FlowGraph.edgeCount_pos, hin u, List.count_pos_iff, hmem]
  · rintro ⟨-, hgov, hlen, hlen', hone, hmem', hcases, hin⟩
    refine ⟨⟨⟨⟨⟨⟨hlen, hnd⟩, hgov⟩, fun m => ?_⟩, hlen'⟩, hcases⟩, fun u => ?_⟩
    · refine FlowGraph.edgeCount_eq_count (hnodup e he) (hone m) ?_
      rw [hmem]
      grind
    · refine FlowGraph.edgeCount_eq_count (hnodup h hh) ?_ ((hmem h u).trans (hin u).symm)
      by_cases hu : g.Leads u e
      · rcases (hin u).1 hu with hc | ⟨rfl, -⟩
        · rw [(hcases u hc).2 e]
          simp
        · exact hone e
      · have := mt FlowGraph.edgeCount_pos.1 hu
        omega

theorem holds_iff_isShape (ht : g.Tells root t) : p.holds g t = true ↔ p.IsShape g root := by
  cases p with
  | nWay h cs e => exact holds_nWay_iff_isShape ht
  | postLoop b c e =>
    have hsingle : ∀ n m : NodeId, t.dominates n m = dominatesAll t n [m] := by
      simp [dominatesAll]
    by_cases hbc : b = c
    · simp only [holds, IsShape, if_pos hbc, hsingle, Bool.and_eq_true, allDistinct_iff,
        ← ht.governs_iff, ← FlowGraph.leadsExactlyTo_iff, ← FlowGraph.enteredExactlyFrom_iff,
        and_assoc]
    · simp only [holds, IsShape, if_neg hbc, Bool.and_eq_true, allDistinct_iff,
        ← ht.governs_iff, ← FlowGraph.leadsExactlyTo_iff, ← FlowGraph.enteredExactlyFrom_iff,
        and_assoc]
  | fallthrough | sequence =>
    have hsingle : ∀ n m : NodeId, t.dominates n m = dominatesAll t n [m] := by
      simp [dominatesAll]
    simp only [holds, IsShape, hsingle, Bool.and_eq_true, allDistinct_iff,
      ← ht.governs_iff, ← FlowGraph.leadsExactlyTo_iff, ← FlowGraph.enteredExactlyFrom_iff, and_assoc]
  | _ =>
    simp only [holds, IsShape, Bool.and_eq_true, allDistinct_iff, ← ht.governs_iff,
      ← FlowGraph.leadsExactlyTo_iff, ← FlowGraph.enteredExactlyFrom_iff, and_assoc]

theorem entry_mem_of_holds (hg : g.WellFormed) (hroot : root ∈ g.ids) (ht : g.Tells root t)
    (h : p.holds g t = true) : p.entry ∈ g.ids := by
  obtain ⟨T, hT, hp⟩ := holds_iff_passes.1 h
  have hat := FlowGraph.at_of_passes hg hroot ht hT hp
  have hentry : p.entry = T.entry := (region_of_template hT).2.1
  rw [hentry]
  exact List.mem_toFinset.1 (hat.mem_nodes _ (sound hT hp.nodup).entry_mem)

end Primitive

/-! ## What the search finds -/

/-- What is found in a list is found at the first element where anything is found. -/
theorem findSome?_first {α β : Type} {f : α → Option β} {as : List α} {b : β}
    (h : as.findSome? f = some b) :
    ∃ a ∈ as, f a = some b ∧ ∀ a' ∈ as, f a' ≠ none → a' = a ∨ [a, a'].Sublist as := by
  obtain ⟨l₁, a, l₂, rfl, ha, hnone⟩ := List.findSome?_eq_some_iff.1 h
  refine ⟨a, by simp, ha, fun a' ha' hsome => ?_⟩
  rcases List.mem_append.1 ha' with hin | hin
  · exact absurd (hnone a' hin) hsome
  · rcases List.mem_cons.1 hin with heq | hin
    · exact .inl heq
    · exact .inr (((List.singleton_sublist.2 hin).cons_cons a).trans (List.sublist_append_right l₁ _))

theorem idxOf_le_of_sublist {α : Type} [DecidableEq α] {as : List α} {a b : α} (has : as.Nodup)
    (h : b = a ∨ [a, b].Sublist as) : as.idxOf a ≤ as.idxOf b := by
  rcases h with rfl | h
  · exact Nat.le_refl _
  · have hpairs : as.Pairwise fun a b => as.idxOf a < as.idxOf b := by
      rw [List.pairwise_iff_getElem]
      intro i j hi hj hij
      rwa [has.idxOf_getElem i hi, has.idxOf_getElem j hj]
    exact (List.pairwise_pair.1 (hpairs.sublist h)).le

namespace FlowGraph

variable {g : FlowGraph} {root n : NodeId} {t : DominatorTree NodeId} {p q : Primitive NodeId}
  {k : Kind} {within : Option (List NodeId)}

/-- A candidate has the entry and the kind that were asked for, and the cases of a multiway branch in
the order of the successors. -/
theorem candidate_spec (hp : p ∈ k.candidates g n) : p.entry = n ∧ p.kind = k ∧
    ∀ h cs e, p = .nWay h cs e → cs = (g.successors h).filter (· ≠ e) := by
  cases k with
  | preLoop | ifReturn | ifThen =>
    obtain ⟨⟨b, e⟩, -, rfl⟩ := List.mem_map.1 hp
    exact ⟨rfl, rfl, fun _ _ _ heq => by cases heq⟩
  | postLoop =>
    simp only [Kind.candidates] at hp
    split at hp
    · obtain ⟨e, -, rfl⟩ := List.mem_map.1 hp
      exact ⟨rfl, rfl, fun _ _ _ heq => by cases heq⟩
    · split at hp
      · obtain ⟨e, -, rfl⟩ := List.mem_map.1 hp
        exact ⟨rfl, rfl, fun _ _ _ heq => by cases heq⟩
      · cases hp
  | ifElse =>
    simp only [Kind.candidates] at hp
    split at hp
    · obtain ⟨e, -, rfl⟩ := List.mem_map.1 hp
      exact ⟨rfl, rfl, fun _ _ _ heq => by cases heq⟩
    · cases hp
  | ifElseReturn | fallthrough | sequence =>
    simp only [Kind.candidates] at hp
    split at hp
    · obtain rfl := List.mem_singleton.1 hp
      exact ⟨rfl, rfl, fun _ _ _ heq => by cases heq⟩
    · cases hp
  | nWay =>
    simp only [Kind.candidates] at hp
    split at hp
    · cases hp
    · obtain ⟨e, -, rfl⟩ := List.mem_map.1 hp
      refine ⟨rfl, rfl, fun h cs e' heq => ?_⟩
      obtain ⟨rfl, rfl, rfl⟩ := Primitive.nWay.inj heq
      rfl

theorem matchAt_eq_some (h : g.matchAt t within k n = some p) :
    p ∈ k.candidates g n ∧ p.Inside within ∧ p.holds g t = true := by
  have hfound := List.find?_some h
  rw [Bool.and_eq_true, Primitive.isWithin_iff] at hfound
  exact ⟨List.mem_of_find?_eq_some h, hfound⟩

theorem exists_tells (hg : g.WellFormed) (hroot : g.entry = some root) (a : Algorithm) :
    ∃ t, g.dominatorTree a = .ok t ∧ g.Tells root t := by
  have hm : ∀ v, ReflTransGen g.toDigraph.arcs.Step root v → v ∈ g.ids := fun v hv =>
    hg.closed.coherent.reach_mem (hg.entry_mem root hroot) hv
  obtain ⟨t, -, ht, -, hanswers, -⟩ := treeOn_answers hg.closed.coherent hm a a
  rw [Digraph.arcs_step_eq] at hanswers
  refine ⟨t, by rw [dominatorTree, hroot, ht], fun v w => ?_⟩
  rw [hanswers.dominates v w]
  exact ⟨And.right, fun h => ⟨h.2.reach h.1, h⟩⟩

/-- Given the dominator tree, by either algorithm, of a graph with an entry, the search in a set of
nodes, or in the whole graph, finds nothing exactly if no nodes in the set have the declared shape of
any primitive. What it finds has its declared shape, with the cases of a multiway branch in the order
of the successors; no other nodes with a declared shape have an entry with a lower number, and none
with the same entry have a kind that comes earlier. -/
theorem findMatch_spec (hg : g.WellFormed) (hroot : g.entry = some root) (a : Algorithm) :
    ∃ t, g.dominatorTree a = .ok t ∧ ∀ within : Option (List NodeId),
      (g.findMatch t within = none ↔
        ¬ ∃ p : Primitive NodeId, p.Inside within ∧ p.IsShape g root) ∧
      ∀ p, g.findMatch t within = some p →
        p.Inside within ∧ p.IsShape g root ∧
        (∀ h cs e, p = .nWay h cs e → cs = (g.successors h).filter (· ≠ e)) ∧
        ∀ q : Primitive NodeId, q.Inside within → q.IsShape g root →
          g.ids.idxOf p.entry ≤ g.ids.idxOf q.entry ∧
          (g.Ordered → p.entry.serial ≤ q.entry.serial) ∧
          (q.entry = p.entry → Kind.all.idxOf p.kind ≤ Kind.all.idxOf q.kind) := by
  have hmem := hg.entry_mem root hroot
  obtain ⟨t, ht, htells⟩ := exists_tells hg hroot a
  refine ⟨t, ht, fun within => ⟨?_, fun p hp => ?_⟩⟩
  · constructor
    · rintro hnone ⟨p, hin, hshape⟩
      have hholds := (Primitive.holds_iff_isShape htells).2 hshape
      exact findMatch_ne_none hin (Primitive.entry_mem_of_holds hg hmem htells hholds) hholds hnone
    · intro hno
      rw [findMatch_eq, List.findSome?_eq_none_iff]
      intro n _
      rw [List.findSome?_eq_none_iff]
      intro k _
      by_contra hsome
      obtain ⟨p, hp⟩ := Option.ne_none_iff_exists'.1 hsome
      obtain ⟨-, hin, hholds⟩ := matchAt_eq_some hp
      exact hno ⟨p, hin, (Primitive.holds_iff_isShape htells).1 hholds⟩
  · rw [findMatch_eq] at hp
    obtain ⟨n, -, hn, hfirst⟩ := findSome?_first hp
    obtain ⟨k, -, hk, hfirst'⟩ := findSome?_first hn
    obtain ⟨hcand, hin, hholds⟩ := matchAt_eq_some hk
    obtain ⟨rfl, rfl, hcases⟩ := candidate_spec hcand
    refine ⟨hin, (Primitive.holds_iff_isShape htells).1 hholds, hcases, fun q hqin hq => ?_⟩
    have hqholds := (Primitive.holds_iff_isShape htells).2 hq
    have hqmem := mem_searched hqin (Primitive.entry_mem_of_holds hg hmem htells hqholds)
    have hle := (hfirst q.entry hqmem (findSome?_kinds_ne_none hqin hqholds)).imp_right
      fun hsub => hsub.trans searched_sublist
    refine ⟨idxOf_le_of_sublist hg.ids_nodup hle, fun hordered => ?_, fun heq => ?_⟩
    · rcases hle with heq | hsub
      · rw [heq]
      · exact (List.pairwise_pair.1 (hordered.sublist hsub)).le
    · refine idxOf_le_of_sublist (by decide) (hfirst' q.kind (Kind.mem_all _) ?_)
      rw [← heq]
      exact matchAt_ne_none hqin hqholds

/-- A multiway branch whose head may go straight to the exit, which leads back to the head. There is
also an edge from a node that cannot be reached. -/
def switchLoop : FlowGraph := ofWords ["AB", "AC", "AD", "BD", "CD", "DA", "XA"]

theorem switchLoop_findMatch :
    switchLoop.WellFormed ∧ switchLoop.entry = some ⟨0, 1⟩ ∧
      (Primitive.nWay ⟨0, 1⟩ [⟨0, 2⟩, ⟨0, 3⟩] ⟨0, 4⟩).IsShape switchLoop ⟨0, 1⟩ ∧
      ¬ ∃ p : Primitive NodeId,
        p.Inside (some [⟨0, 1⟩, ⟨0, 2⟩, ⟨0, 3⟩]) ∧ p.IsShape switchLoop ⟨0, 1⟩ := by
  have hg : switchLoop.WellFormed := ofWords_wellFormed _
  have hentry : switchLoop.entry = some ⟨0, 1⟩ := by cbv
  obtain ⟨t, ht, hspec⟩ := findMatch_spec hg hentry .semidominators
  obtain ⟨t', ht', hall, hwithout⟩ : ∃ t, switchLoop.dominatorTree .semidominators = .ok t ∧
      switchLoop.findMatch t none = some (.nWay ⟨0, 1⟩ [⟨0, 2⟩, ⟨0, 3⟩] ⟨0, 4⟩) ∧
      switchLoop.findMatch t (some [⟨0, 1⟩, ⟨0, 2⟩, ⟨0, 3⟩]) = none :=
    ⟨_, by cbv, by cbv, by cbv⟩
  obtain rfl : t' = t := Except.ok.inj (ht'.symm.trans ht)
  exact ⟨hg, hentry, ((hspec none).2 _ hall).2.1, (hspec _).1.1 hwithout⟩

end FlowGraph

end Structuring
