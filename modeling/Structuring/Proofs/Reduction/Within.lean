import Structuring.Proofs.Graph.Partition
import Structuring.Proofs.Reduction.Run
import Structuring.Proofs.Reduction.Shape

/-!
# Searching interval by interval

A primitive never stands across two intervals: its middle nodes are entered from its entry only, and
its exit from these and the entry only, so that the interval of the entry takes them all in. A pass
over the intervals that contracts nothing has therefore looked everywhere.

* `FlowGraph.IsPartition.holds_template` — the members of a template are in one interval.
* `Progress.pass_exhausted` — a pass that contracts nothing leaves no primitive in the graph.
* `FlowGraph.reduceByIntervals_misses_none` — the reduction by levels goes on to the next level, or gives
  up, only where the whole graph has no primitive.
-/

namespace Structuring

open Relation

namespace FlowGraph

variable {g : FlowGraph} {root : NodeId} {is : List Interval} {T : Template NodeId}
  {t : DominatorTree NodeId} {p : Primitive NodeId}

/-! ## Templates and intervals -/

theorem IsPartition.holds_template (hpart : g.IsPartition root is) (hroot : g.Rooted root)
    (hs : T.Sound) (hat : T.At (g.outline root)) : ∃ i ∈ is, ∀ v ∈ T.members, v ∈ i.members := by
  have hmem : ∀ v ∈ T.members, v ∈ g.ids := fun v hv => List.mem_toFinset.1 (hat.mem_nodes v hv)
  obtain ⟨i, hi, hentry⟩ := (hpart.cover T.entry).2 (hroot.2 _ (hmem _ hs.entry_mem))
  -- what is entered inside the template, and from the interval only, is in the interval
  have hadd : ∀ u v, v ∈ T.members → v ≠ T.entry → (u, v) ∈ T.inner →
      (∀ w, (w, v) ∈ T.inner → w ∈ i.members) → v ∈ i.members := by
    intro u v hv hne huv hall
    by_contra hout
    have hleads : ∀ w, w ∈ g.predecessors v ↔ (w, v) ∈ T.inner := by
      intro w
      rw [Digraph.mem_predecessors, ← mem_ends, ← mem_ins, ← mem_ins, ← hat.ins_eq v hv hne]
      rfl
    have hvr : v ≠ root := fun heq => hne (heq.trans (hat.entry_eq (show root ∈ _ from heq ▸ hv)))
    obtain ⟨w, hw, hwout⟩ :=
      hpart.maximal i hi v (hmem v hv) hout hvr ⟨u, (hleads u).2 huv, hall u huv⟩
    exact hwout (hall w ((hleads w).1 hw))
  have hmiddle : ∀ u ∈ T.members, u ≠ T.entry → T.exit? ≠ some u → u ∈ i.members := by
    intro u hu hne hexit
    refine hadd T.entry u hu hne (hs.branch u hu hne hexit) fun w hw => ?_
    by_cases hwe : w = T.entry
    · exact hwe ▸ hentry
    · exact absurd (hs.inner_exit _ hw hwe hne) hexit
  refine ⟨i, hi, fun v hv => ?_⟩
  by_cases hne : v = T.entry
  · exact hne ▸ hentry
  by_cases hexit : T.exit? = some v
  · obtain ⟨u, hu⟩ : ∃ u, (u, v) ∈ T.inner := by
      rcases hs.merge v hexit with h | h
      · exact ⟨_, h⟩
      · obtain ⟨u, -, hu⟩ := hs.leads
        exact ⟨u, (h u hu).1⟩
    refine hadd u v hv hne hu fun w hw => ?_
    obtain ⟨hwmem, -, hwexit⟩ := hs.inner_mem _ hw
    by_cases hwe : w = T.entry
    · exact hwe ▸ hentry
    · exact hmiddle w hwmem hwe hwexit
  · exact hmiddle v hv hne hexit

theorem IsPartition.holds_players (hpart : g.IsPartition root is) (hg : g.WellFormed)
    (hroot : g.Rooted root) (ht : g.Tells root t) (hp : p.holds g t = true) :
    ∃ i ∈ is, ∀ v ∈ p.players, v ∈ i.members := by
  obtain ⟨T, hT, hat⟩ := (holds_iff hg hroot ht).1 hp
  obtain ⟨i, hi, hmem⟩ := hpart.holds_template hroot (Primitive.sound hT hat.nodup) hat
  refine ⟨i, hi, fun v hv => hmem v ?_⟩
  exact ((Primitive.region_of_template hT).1 v).1 (mem_distinct.2 hv)

theorem exists_player_ne (hp : p.holds g t = true) : ∃ v ∈ p.players, v ≠ p.entry := by
  obtain ⟨T, hT, hpass⟩ := Primitive.holds_iff_passes.1 hp
  have hs := Primitive.sound hT hpass.nodup
  obtain ⟨hmem, hentry, -⟩ := Primitive.region_of_template hT
  obtain ⟨v, hne, hin⟩ := hs.leads
  have hplayer := (hmem v).2 (hs.inner_mem _ hin).2.1
  exact ⟨v, mem_distinct.1 hplayer, fun heq => hne (heq.trans hentry)⟩

/-- If nothing is found in any interval with more than one node, nothing is found at all. -/
theorem IsPartition.findMatch_eq_none (hpart : g.IsPartition root is) (hg : g.WellFormed)
    (hroot : g.Rooted root) (ht : g.Tells root t)
    (hnone : ∀ i ∈ is, i.members.length ≤ 1 ∨ g.findMatch t (some i.members) = none) :
    g.findMatch t none = none := by
  by_contra hsome
  obtain ⟨p, hfind⟩ := Option.ne_none_iff_exists'.1 hsome
  have hp := (holds_of_findMatch hfind).2
  obtain ⟨i, hi, hmem⟩ := hpart.holds_players hg hroot ht hp
  rcases hnone i hi with hone | hnone
  · obtain ⟨v, hv, hne⟩ := exists_player_ne hp
    exact hne (eq_of_length_le_one hone (hmem v hv) (hmem _ p.entry_mem_players))
  · have hentry := Primitive.entry_mem_of_holds hg (hg.entry_mem root hroot.1) ht hp
    exact findMatch_ne_none (Primitive.inside_some.2 hmem) hentry hp hnone

end FlowGraph

namespace Progress

variable {s s' : Progress} {root : NodeId}

/-! ## Passes that contract nothing -/

/-- Nothing is found among some nodes, or there are too few of them to look. -/
def NoneWithin (s : Progress) (members : List NodeId) : Prop :=
  members.length ≤ 1 ∨ ∃ t, s.graph.dominatorTree .semidominators = .ok t ∧
    s.graph.findMatch t (some members) = none

theorem within_none (hv : s.graph.Validated) (members : List NodeId)
    (hsame : ¬ (s.within members).progress.graph.size < s.graph.size) : s.NoneWithin members := by
  unfold within at hsame
  split at hsame
  · next hone => exact .inl hone
  · rcases step_valid hv .interval (some members) with ⟨t, s', ht, hnone, -⟩ |
      ⟨p, n, s', hrun, hm, hlt⟩
    · exact .inr ⟨t, ht, hnone⟩
    · -- what is contracted is lost for good
      simp only [hrun, hlt, dif_pos] at hsame
      have hv' := hm.validated hv
      have hruns := (within_runs hv' (members.filter s'.graph.contains ++ [n])).2
      rcases (Advances.run hruns hv').2 with heq | hlt'
      · rw [heq] at hsame
        exact absurd hlt hsame
      · exact absurd (hlt'.trans hlt) hsame

theorem withinEach_none (hv : s.graph.Validated) (is : List Interval)
    (hsame : ¬ (s.withinEach is).progress.graph.size < s.graph.size) :
    (s.withinEach is).progress.graph = s.graph ∧ ∀ i ∈ is, s.NoneWithin i.members := by
  induction is generalizing s with
  | nil => exact ⟨rfl, nofun⟩
  | cons i is ih =>
    obtain ⟨hok, hruns⟩ := within_runs hv i.members
    obtain ⟨hv', hsize⟩ := Advances.run hruns hv
    obtain ⟨-, hruns'⟩ := withinEach_runs hv' is
    simp only [withinEach, hok] at hsame ⊢
    have hsize' := (Advances.run hruns' hv').2
    have hgraph : (s.within i.members).progress.graph = s.graph := by
      refine hsize.resolve_right fun hlt => hsame ?_
      rcases hsize' with heq | hlt'
      · rwa [heq]
      · exact hlt'.trans hlt
    obtain ⟨heq, hnone⟩ := ih hv' (by rwa [hgraph])
    refine ⟨heq.trans hgraph, fun j hj => ?_⟩
    rcases List.mem_cons.1 hj with rfl | hj
    · refine within_none hv _ ?_
      rw [hgraph]
      exact Nat.lt_irrefl _
    · have := hnone j hj
      rwa [NoneWithin, hgraph] at this

theorem pass_exhausted (hv : s.graph.Validated)
    (hsame : ¬ s.pass.progress.graph.size < s.graph.size) : s.pass.progress.Exhausted := by
  obtain ⟨hg, root, hroot⟩ := hv
  obtain ⟨is, u, hrun, -, hpart, hq⟩ := partition_eq hg hroot
  obtain ⟨t, ht, htells⟩ := FlowGraph.exists_tells hg hroot.1 .semidominators
  simp only [pass, hrun] at hsame ⊢
  rw [← hq.graph] at hsame
  obtain ⟨hgraph, hnone⟩ := withinEach_none (hq.graph ▸ ⟨hg, root, hroot⟩) is hsame
  rw [Exhausted, hgraph, hq.graph]
  refine ⟨t, ht, hpart.isPartition.findMatch_eq_none hg hroot htells fun i hi => ?_⟩
  refine (hnone i hi).imp_right ?_
  rintro ⟨t', ht', hnone⟩
  rw [hq.graph] at ht' hnone
  obtain rfl : t' = t := Except.ok.inj (ht'.symm.trans ht)
  exact hnone

theorem passes_exhausted (hv : s.graph.Validated) (hmore : 1 < s.passes.progress.graph.size) :
    s.passes.progress.Exhausted := by
  induction hn : s.graph.size using Nat.strong_induction_on generalizing s with
  | _ n ih =>
    subst hn
    unfold passes at hmore ⊢
    split
    · next hone =>
      rw [if_pos hone] at hmore
      exact absurd hone (Nat.not_le.2 hmore)
    next hone =>
    rw [if_neg hone] at hmore
    obtain ⟨hok, hruns⟩ := pass_runs hv
    simp only [hok] at hmore ⊢
    split
    · next hlt =>
      rw [dif_pos hlt] at hmore
      exact ih _ hlt (Advances.run hruns hv).1 hmore rfl
    · next hsame => exact pass_exhausted hv hsame

/-- The levels that the reduction leaves behind, and the one where it gives up, have no primitive. -/
theorem byLevels_exhausted (hv : s.graph.Validated) (hs : ∀ h ∈ s.earlier, h.Finds none) :
    (∀ h ∈ s.byLevels.progress.earlier, h.Finds none) ∧
      ∀ f, s.byLevels.failure = some f → s.byLevels.progress.Exhausted := by
  induction hn : s.graph.size using Nat.strong_induction_on generalizing s with
  | _ n ih =>
    subst hn
    rcases byLevels_cases hv with ⟨t, heq, -, hruns⟩ | ⟨u, hmore, hq, hnext⟩
    · rw [heq]
      refine ⟨?_, fun f hf => ?_⟩
      · exact (Advances.run_earlier hruns).symm ▸ hs
      · cases hf
    have hruns := (passes_runs hv).2
    have hearlier : u.earlier = s.earlier := hq.earlier.trans (Advances.run_earlier hruns)
    have hnone : u.Exhausted := by
      rw [Exhausted, hq.graph]
      exact passes_exhausted hv (hq.graph ▸ hmore)
    rcases hnext with ⟨heq, -⟩ | ⟨is, s', hderive, hlt, -, heq⟩
    · rw [heq]
      exact ⟨hearlier.symm ▸ hs, fun _ _ => hnone⟩
    · rw [heq]
      have hvu : u.graph.Validated := hq.graph.symm ▸ (Advances.run hruns hv).1
      refine ih _ hlt (Descends.validated (.derive hderive) hvu) (fun h hh => ?_) rfl
      rw [hderive.earlier, hearlier] at hh
      rcases List.mem_append.1 hh with hh | hh
      · exact hs h hh
      · exact List.mem_singleton.1 hh ▸ hnone

end Progress

namespace FlowGraph

variable {g : FlowGraph}

/-- In a graph that passes the check the players of every primitive, as told by the dominator tree, are
in one interval. The reduction by levels finds no primitive in any graph from which it goes on to the
derived one, nor in the one where it gives up, although it has only searched the intervals. -/
theorem reduceByIntervals_misses_none (hg : g.WellFormed) (hvalid : g.validate = .ok ()) :
    (∃ is, g.intervals = some is ∧ ∀ a, ∃ t, g.dominatorTree a = .ok t ∧
      ∀ p : Primitive NodeId, p.holds g t = true → ∃ i ∈ is, ∀ v ∈ p.players, v ∈ i.members) ∧
    ∃ r, g.reduceByIntervals = .ok r ∧ (∀ h ∈ r.progress.earlier, h.Finds none) ∧
      ∀ f, r.failure = some f → r.progress.graph.Finds none := by
  obtain ⟨root, hroot⟩ := (validate_eq_ok hg.closed).1 hvalid
  obtain ⟨is, his, hpart⟩ := intervals_partitions hg hroot.1
  refine ⟨⟨is, his, fun a => ?_⟩, _, reduceByIntervals_eq hvalid, ?_⟩
  · obtain ⟨t, ht, htells⟩ := exists_tells hg hroot.1 a
    exact ⟨t, ht, fun p hp => hpart.isPartition.holds_players hg hroot htells hp⟩
  · exact Progress.byLevels_exhausted (s := Progress.start g) ⟨hg, root, hroot⟩ nofun

/-- Two nodes in a row, and then a loop that is entered at two nodes. -/
def twoHeaded : FlowGraph := ofWords ["AB", "BC", "BD", "CD", "DC"]

theorem twoHeaded_misses_none :
    twoHeaded.WellFormed ∧ twoHeaded.validate = .ok () ∧
      (∃ is, twoHeaded.intervals = some is ∧ ∃ i ∈ is, ∀ v ∈ [⟨0, 1⟩, ⟨0, 2⟩], v ∈ i.members) ∧
      ∃ r f, twoHeaded.reduceByIntervals = .ok r ∧ r.failure = some f ∧
        r.progress.graph.Finds none := by
  have hg : twoHeaded.WellFormed := ofWords_wellFormed _
  have hvalid : twoHeaded.validate = .ok () := by cbv
  obtain ⟨⟨is, his, hinside⟩, r, hr, -, hnone⟩ := reduceByIntervals_misses_none hg hvalid
  refine ⟨hg, hvalid, ⟨is, his, ?_⟩, ?_⟩
  · obtain ⟨t, ht, hplayers⟩ := hinside .semidominators
    obtain ⟨t', ht', hp⟩ : ∃ t, twoHeaded.dominatorTree .semidominators = .ok t ∧
        (Primitive.sequence ⟨0, 1⟩ ⟨0, 2⟩).holds twoHeaded t = true := ⟨_, by cbv, by cbv⟩
    obtain rfl : t' = t := Except.ok.inj (ht'.symm.trans ht)
    exact hplayers _ hp
  · have hfails : (twoHeaded.reduceByIntervals.map fun r => r.failure.isSome) = .ok true := by cbv
    rw [hr] at hfails
    obtain ⟨f, hf⟩ := Option.isSome_iff_exists.1 (Except.ok.inj hfails)
    exact ⟨r, f, hr, hf, hnone f hf⟩

end FlowGraph

end Structuring
