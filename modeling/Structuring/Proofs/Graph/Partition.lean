import Mathlib
import Structuring.Proofs.Graph.Derived

/-!
# The partition of Allen and Cocke

* `FlowGraph.IsPartition` — what the intervals of a graph are: single-entry sets of nodes in which
  every cycle passes through the header, as large as they can be, that hold every node that can be
  reached just once.
* `FlowGraph.intervals_isPartition` — the intervals that are found make up such a partition, in every
  graph with an entry.
-/

namespace Structuring

open Relation

namespace FlowGraph

variable {g : FlowGraph} {root u v : NodeId} {placed ms : List NodeId} {is : List Interval}

structure IsPartition (g : FlowGraph) (root : NodeId) (is : List Interval) : Prop where
  /-- The nodes of the intervals are those that can be reached, -/
  cover : ∀ v, (∃ i ∈ is, v ∈ i.members) ↔ ReflTransGen g.Leads root v
  /-- each of them is in one interval only, and there only once. -/
  disjoint : (is.flatMap Interval.members).Nodup
  first : is.head?.map Interval.header = some root
  header_first : ∀ i ∈ is, i.members.head? = some i.header
  /-- A member other than the header is entered, and only from members before it. -/
  entered : ∀ i ∈ is, ∀ v ∈ i.members, v ≠ i.header → g.predecessors v ≠ [] ∧
    ∀ u ∈ g.predecessors v, u ∈ i.members ∧ i.members.idxOf u < i.members.idxOf v
  /-- No cycle among the members avoids the header. -/
  cycles : ∀ i ∈ is, ∀ v, ¬ TransGen (fun u w => g.Leads u w ∧
    (u ∈ i.members ∧ u ≠ i.header) ∧ w ∈ i.members ∧ w ≠ i.header) v v
  header_entered : ∀ i ∈ is, i.header ≠ root → ∃ u ∈ g.predecessors i.header, u ∉ i.members
  /-- A node that could be added is a member already. -/
  maximal : ∀ i ∈ is, ∀ v ∈ g.ids, v ∉ i.members → v ≠ root →
    (∃ u ∈ g.predecessors v, u ∈ i.members) → ∃ u ∈ g.predecessors v, u ∉ i.members

namespace Grows

variable {header : NodeId}

theorem head?_eq (h : Grows g placed header ms) : ms.head? = some header := by
  induction h with
  | single => rfl
  | add _ _ _ _ _ ih => rw [List.head?_append, ih]; rfl

theorem exists_leads (h : Grows g placed header ms) (hv : v ∈ ms) (hne : v ≠ header) :
    ∃ u, g.Leads u v := by
  induction h with
  | single => exact absurd (List.mem_singleton.1 hv) hne
  | add _ _ _ _ henters ih =>
    rcases List.mem_append.1 hv with hv | hv
    · exact ih hv
    · exact List.mem_singleton.1 hv ▸ henters.1

/-- The members can be reached from the header, and on the way there are only members. -/
theorem reach_within (h : Grows g placed header ms) (hv : v ∈ ms) :
    ReflTransGen (g.LeadsWithin ms) header v := by
  induction h generalizing v with
  | single => exact List.mem_singleton.1 hv ▸ .refl
  | @add ms n _ _ _ _ henters ih =>
    have hold : ∀ {u}, u ∈ ms → ReflTransGen (g.LeadsWithin (ms ++ [n])) header u := fun hu =>
      ReflTransGen.mono (fun _ _ ⟨huw, hu, hw⟩ =>
        ⟨huw, List.mem_append_left _ hu, List.mem_append_left _ hw⟩) _ _ (ih hu)
    rcases List.mem_append.1 hv with hv | hv
    · exact hold hv
    · obtain rfl := List.mem_singleton.1 hv
      obtain ⟨⟨u, hu⟩, hall⟩ := henters
      exact (hold (hall u hu)).tail
        ⟨hu, List.mem_append_left _ (hall u hu), List.mem_append_right _ hv⟩

theorem reach (h : Grows g placed header ms) (hv : v ∈ ms) : ReflTransGen g.Leads header v :=
  ReflTransGen.mono (fun _ _ => And.left) _ _ (h.reach_within hv)

/-- The places of the members go up along the edges that do not lead to the header. -/
theorem idxOf_lt (h : Grows g placed header ms)
    (hpath : TransGen (fun u w => g.Leads u w ∧ (u ∈ ms ∧ u ≠ header) ∧ w ∈ ms ∧ w ≠ header) u v) :
    ms.idxOf u < ms.idxOf v := by
  induction hpath with
  | single huv => exact (h.entered huv.2.2.1 huv.2.2.2 huv.1).2
  | tail _ hvw ih => exact ih.trans (h.entered hvw.2.2.1 hvw.2.2.2 hvw.1).2

end Grows

namespace Partitions

theorem reach (h : Partitions g root placed is)
    (hplaced : ∀ v ∈ placed, ReflTransGen g.Leads root v) {i : Interval} (hi : i ∈ is)
    (hv : v ∈ i.members) : ReflTransGen g.Leads root v := by
  induction h with
  | nil => cases hi
  | @cons placed j is _ hnot hentered hgrows _ _ ih =>
    have hheader : ReflTransGen g.Leads root j.header := by
      rcases hentered with ⟨heq, -⟩ | ⟨-, u, hu, huv⟩
      · exact heq ▸ .refl
      · exact (hplaced u hu).tail huv
    have hmembers : ∀ w ∈ j.members, ReflTransGen g.Leads root w := fun w hw =>
      hheader.trans (hgrows.reach hw)
    rcases List.mem_cons.1 hi with rfl | hi
    · exact hmembers v hv
    · refine ih (fun w hw => ?_) hi
      rcases List.mem_append.1 hw with hw | hw
      · exact hplaced w hw
      · exact hmembers w hw

theorem header_entered (h : Partitions g root placed is) {i : Interval} (hi : i ∈ is)
    (hne : i.header ≠ root) : ∃ u, g.Leads u i.header ∧ u ∉ i.members := by
  induction h with
  | nil => cases hi
  | @cons placed j is _ hnot hentered hgrows _ _ ih =>
    rcases List.mem_cons.1 hi with rfl | hi
    · rcases hentered with ⟨heq, -⟩ | ⟨-, u, hu, huv⟩
      · exact absurd heq hne
      · exact ⟨u, huv, fun hmem => hgrows.not_placed hnot u hmem hu⟩
    · exact ih hi

/-- A node outside an interval is not entered from the interval alone. The invariant is that every
placed node but the entry is entered from a placed one. -/
theorem maximal (h : Partitions g root placed is)
    (hplaced : ∀ v ∈ placed, v ≠ root → ∃ u ∈ placed, g.Leads u v) {i : Interval} (hi : i ∈ is)
    (hv : v ∉ i.members) (hne : v ≠ root) (hmem : v ∈ g.ids) (huv : g.Leads u v) :
    ∃ w, g.Leads w v ∧ w ∉ i.members := by
  induction h with
  | nil => cases hi
  | @cons placed j is _ hnot hentered hgrows hfull _ ih =>
    rcases List.mem_cons.1 hi with rfl | hi
    · by_cases hp : v ∈ placed
      · obtain ⟨w, hw, hwv⟩ := hplaced v hp hne
        exact ⟨w, hwv, fun hm => hgrows.not_placed hnot w hm hw⟩
      · by_contra hall
        refine hfull v hmem hp hv ⟨⟨u, huv⟩, fun w hw => ?_⟩
        by_contra hm
        exact hall ⟨w, hw, hm⟩
    · refine ih (fun w hw hwr => ?_) hi
      rcases List.mem_append.1 hw with hw | hw
      · obtain ⟨x, hx, hxw⟩ := hplaced w hw hwr
        exact ⟨x, List.mem_append_left _ hx, hxw⟩
      · by_cases hheader : w = j.header
        · rcases hentered with ⟨heq, -⟩ | ⟨-, x, hx, hxw⟩
          · exact absurd (hheader.trans heq) hwr
          · exact ⟨x, List.mem_append_left _ hx, hheader ▸ hxw⟩
        · obtain ⟨x, hxw⟩ := hgrows.exists_leads hw hheader
          exact ⟨x, List.mem_append_right _ (hgrows.entered hw hheader hxw).1, hxw⟩

theorem isPartition (h : Partitions g root [] is) : g.IsPartition root is := by
  have hgrows := h.grows
  refine ⟨fun v => ⟨?_, h.cover⟩, h.nodup.1, ?_, fun i hi => ?_, fun i hi v hv hne => ⟨?_, ?_⟩,
    fun i hi v hcycle => ?_, fun i hi hne => ?_, ?_⟩
  · rintro ⟨i, hi, hv⟩
    exact h.reach (fun _ hw => by cases hw) hi hv
  · obtain ⟨i, is', rfl, hi⟩ := h.head
    simp [hi]
  · obtain ⟨before, hi⟩ := hgrows i hi
    exact hi.head?_eq
  · obtain ⟨before, hi⟩ := hgrows i hi
    obtain ⟨u, hu⟩ := hi.exists_leads hv hne
    exact List.ne_nil_of_mem (Digraph.mem_predecessors.2 hu)
  · obtain ⟨before, hi⟩ := hgrows i hi
    exact fun u hu => hi.entered hv hne (Digraph.mem_predecessors.1 hu)
  · obtain ⟨before, hi⟩ := hgrows i hi
    exact Nat.lt_irrefl _ (hi.idxOf_lt hcycle)
  · obtain ⟨u, hu, hout⟩ := h.header_entered hi hne
    exact ⟨u, Digraph.mem_predecessors.2 hu, hout⟩
  · rintro i hi v hmem hv hne ⟨u, hu, -⟩
    obtain ⟨w, hw, hout⟩ := h.maximal (fun _ hw => by cases hw) hi hv hne hmem
      (Digraph.mem_predecessors.1 hu)
    exact ⟨w, Digraph.mem_predecessors.2 hw, hout⟩

end Partitions

/-- The intervals of a graph with an entry, whether it passes the check or not, make up the partition
of its nodes. -/
theorem intervals_isPartition (hg : g.WellFormed) (hroot : g.entry = some root) :
    ∃ is, g.intervals = some is ∧ g.IsPartition root is := by
  obtain ⟨is, his, h⟩ := intervals_partitions hg hroot
  exact ⟨is, his, h.isPartition⟩

/-- A loop that is entered at two nodes, and after it, where a node that cannot be reached leads too, a
branch. -/
def doubleEntry : FlowGraph := ofWords ["AB", "AC", "BC", "CB", "CD", "XD", "DE", "DF", "EF"]

theorem doubleEntry_isPartition :
    doubleEntry.WellFormed ∧ doubleEntry.entry = some ⟨0, 1⟩ ∧ (∃ e, doubleEntry.validate = .error e) ∧
      ∃ is, doubleEntry.intervals = some is ∧ is.map Interval.members =
        [[⟨0, 1⟩], [⟨0, 2⟩], [⟨0, 3⟩], [⟨0, 4⟩, ⟨0, 6⟩, ⟨0, 7⟩]] ∧ doubleEntry.IsPartition ⟨0, 1⟩ is := by
  have hg : doubleEntry.WellFormed := ofWords_wellFormed _
  have hroot : doubleEntry.entry = some ⟨0, 1⟩ := by decide
  obtain ⟨is, his, h⟩ := intervals_isPartition hg hroot
  have hmembers : doubleEntry.intervals.map (List.map Interval.members) =
      some [[⟨0, 1⟩], [⟨0, 2⟩], [⟨0, 3⟩], [⟨0, 4⟩, ⟨0, 6⟩, ⟨0, 7⟩]] := by cbv
  rw [his] at hmembers
  exact ⟨hg, hroot, ⟨_, by cbv⟩, is, his, Option.some.inj hmembers, h⟩

end FlowGraph

end Structuring
