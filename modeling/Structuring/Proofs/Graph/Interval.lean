import Structuring.Graph.Interval
import Structuring.Proofs.Graph.WellFormed

/-!
# The partition into intervals

* `FlowGraph.Grows` — how the members of an interval are added: each one is entered from members that
  were added before it, and from nowhere else.
* `FlowGraph.Partitions` — how the intervals are found one after the other. Each one is as large as it
  can be, and its header is entered from an earlier one, or is the entry.
* `FlowGraph.intervals_partitions` — the intervals of a graph are found in this way.
* `Partitions.cover`, `Partitions.nodup` — every node that can be reached is in just one of them.
-/

namespace Structuring

open Relation

namespace FlowGraph

variable {g : FlowGraph} {root n : NodeId} {placed ms ns : List NodeId}

/-- A node is entered, and from members only. -/
def Enters (g : FlowGraph) (ms : List NodeId) (n : NodeId) : Prop :=
  (∃ u, g.Leads u n) ∧ ∀ u, g.Leads u n → u ∈ ms

theorem enters_iff : g.predecessors n ≠ [] ∧ (g.predecessors n).all ms.contains = true ↔
    g.Enters ms n := by
  rw [← List.isEmpty_eq_false_iff, List.isEmpty_eq_false_iff_exists_mem]
  simp only [Enters, List.all_eq_true, List.contains_iff_mem, Digraph.mem_predecessors]

inductive Grows (g : FlowGraph) (placed : List NodeId) (header : NodeId) : List NodeId → Prop where
  | single : Grows g placed header [header]
  | add {ms : List NodeId} {n : NodeId} : Grows g placed header ms → n ∈ g.ids → n ∉ placed →
      n ∉ ms → g.Enters ms n → Grows g placed header (ms ++ [n])

/-- No node can be added. -/
def Full (g : FlowGraph) (placed ms : List NodeId) : Prop :=
  ∀ n ∈ g.ids, n ∉ placed → n ∉ ms → ¬ g.Enters ms n

namespace Grows

variable {header : NodeId}

theorem header_mem (h : Grows g placed header ms) : header ∈ ms := by
  induction h with
  | single => exact List.mem_singleton_self _
  | add _ _ _ _ _ ih => exact List.mem_append_left _ ih

theorem nodup (h : Grows g placed header ms) : ms.Nodup := by
  induction h with
  | single => exact List.nodup_singleton _
  | add _ _ _ hn _ ih => simpa using List.Nodup.concat hn ih

theorem mem_ids (h : Grows g placed header ms) (hheader : header ∈ g.ids) : ∀ v ∈ ms, v ∈ g.ids := by
  induction h with
  | single => exact fun v hv => List.mem_singleton.1 hv ▸ hheader
  | add _ hn _ _ _ ih =>
    intro v hv
    rcases List.mem_append.1 hv with hv | hv
    · exact ih v hv
    · exact List.mem_singleton.1 hv ▸ hn

theorem not_placed (h : Grows g placed header ms) (hheader : header ∉ placed) :
    ∀ v ∈ ms, v ∉ placed := by
  induction h with
  | single => exact fun v hv => List.mem_singleton.1 hv ▸ hheader
  | add _ _ hn _ _ ih =>
    intro v hv
    rcases List.mem_append.1 hv with hv | hv
    · exact ih v hv
    · exact List.mem_singleton.1 hv ▸ hn

/-- A member that is not the header is entered from members before it only. -/
theorem entered (h : Grows g placed header ms) {u v : NodeId} (hv : v ∈ ms) (hne : v ≠ header)
    (huv : g.Leads u v) : u ∈ ms ∧ ms.idxOf u < ms.idxOf v := by
  induction h with
  | single => exact absurd (List.mem_singleton.1 hv) hne
  | @add ms n _ _ _ hn henters ih =>
    rcases List.mem_append.1 hv with hv | hv
    · obtain ⟨hu, hlt⟩ := ih hv
      rw [List.idxOf_append_of_mem hu, List.idxOf_append_of_mem hv]
      exact ⟨List.mem_append_left _ hu, hlt⟩
    · obtain rfl := List.mem_singleton.1 hv
      have hu := henters.2 u huv
      rw [List.idxOf_append_of_mem hu, List.idxOf_append_of_notMem hn]
      exact ⟨List.mem_append_left _ hu, Nat.lt_add_right _ (List.idxOf_lt_length_of_mem hu)⟩

/-- The member that is added first is entered from the header only. -/
theorem exists_sole (h : Grows g placed header ms) :
    ms = [header] ∨ ∃ v ∈ ms, v ≠ header ∧ g.Leads header v ∧ ∀ u, g.Leads u v → u = header := by
  induction h with
  | single => exact .inl rfl
  | @add ms n _ _ _ hn henters ih =>
    refine .inr ?_
    rcases ih with rfl | ⟨v, hv, hsole⟩
    · obtain ⟨⟨u, hu⟩, hall⟩ := henters
      have hsole : ∀ u, g.Leads u n → u = header := fun u hu => List.mem_singleton.1 (hall u hu)
      exact ⟨n, by simp, by simpa using hn, hsole u hu ▸ hu, hsole⟩
    · exact ⟨v, List.mem_append_left _ hv, hsole⟩

end Grows

/-! ## Growth -/

theorem growPass_grows {header : NodeId} (h : Grows g placed header ms) (hns : ∀ n ∈ ns, n ∈ g.ids) :
    Grows g placed header (g.growPass placed ms ns) := by
  induction ns generalizing ms with
  | nil => exact h
  | cons n ns ih =>
    have hns' : ∀ m ∈ ns, m ∈ g.ids := fun m hm => hns m (List.mem_cons_of_mem _ hm)
    simp only [growPass]
    split
    · exact ih h hns'
    · next hn =>
      rw [not_or] at hn
      split
      · next hp => exact ih (h.add (hns n List.mem_cons_self) hn.1 hn.2 (enters_iff.1 hp)) hns'
      · exact ih h hns'

theorem growPass_cases (g : FlowGraph) (placed ms ns : List NodeId) :
    (g.growPass placed ms ns = ms ∧ ∀ n ∈ ns, n ∉ placed → n ∉ ms → ¬ g.Enters ms n) ∨
      ∃ n ∈ ns, n ∉ ms ∧ n ∈ g.growPass placed ms ns := by
  induction ns generalizing ms with
  | nil => exact .inl ⟨rfl, by simp⟩
  | cons n ns ih =>
    simp only [growPass]
    split
    · next hn =>
      rcases ih ms with ⟨heq, hall⟩ | ⟨m, hm, h⟩
      · refine .inl ⟨heq, fun m hm hp hms => ?_⟩
        rcases List.mem_cons.1 hm with rfl | hm
        · exact (hn.elim hp hms).elim
        · exact hall m hm hp hms
      · exact .inr ⟨m, List.mem_cons_of_mem _ hm, h⟩
    · next hn =>
      rw [not_or] at hn
      split
      · next hp =>
        have hmem : n ∈ g.growPass placed (ms ++ [n]) ns := mem_growPass g
          (List.mem_append_right ms (List.mem_singleton_self n))
        exact .inr ⟨n, List.mem_cons_self, hn.2, hmem⟩
      · next hp =>
        rcases ih ms with ⟨heq, hall⟩ | ⟨m, hm, h⟩
        · refine .inl ⟨heq, fun m hm hp' hms => ?_⟩
          rcases List.mem_cons.1 hm with rfl | hm
          · exact fun he => hp (enters_iff.2 he)
          · exact hall m hm hp' hms
        · exact .inr ⟨m, List.mem_cons_of_mem _ hm, h⟩

theorem outside_lt {ms' : List NodeId} (hsub : ∀ v ∈ ms, v ∈ ms') (hn : n ∈ g.ids) (hms : n ∉ ms)
    (hms' : n ∈ ms') : g.outside ms' < g.outside ms := by
  have heq : (g.ids.filter fun v => !ms'.contains v) =
      ((g.ids.filter fun v => !ms.contains v).filter fun v => !ms'.contains v) := by
    rw [List.filter_filter]
    refine List.filter_congr fun v _ => ?_
    by_cases hv : v ∈ ms
    · simp [hsub v hv]
    · simp [hv]
  unfold outside
  rw [heq]
  refine List.length_filter_lt_length_iff_exists.2 ⟨n, ?_, by simpa using hms'⟩
  simpa using ⟨hn, hms⟩

/-- Growth ends with an interval that is as large as it can be. -/
theorem grow_spec {header : NodeId} (h : Grows g placed header ms) :
    Grows g placed header (g.grow placed ms) ∧ g.Full placed (g.grow placed ms) := by
  fun_induction grow g placed ms with
  | case1 ms ms' hlt ih => exact ih (growPass_grows h fun _ hn => hn)
  | case2 ms ms' hlt =>
    have hgrows := growPass_grows h fun n (hn : n ∈ g.ids) => hn
    rcases growPass_cases g placed ms g.ids with ⟨heq, hall⟩ | ⟨n, hn, hms, hms'⟩
    · have heq' : ms' = ms := heq
      rw [heq']
      exact ⟨h, hall⟩
    · exact absurd (outside_lt (fun v hv => mem_growPass g hv) hn hms hms') hlt

/-! ## The partition -/

/-- The intervals that are found after some nodes are placed. -/
inductive Partitions (g : FlowGraph) (root : NodeId) : List NodeId → List Interval → Prop where
  | nil {placed : List NodeId} : root ∈ placed →
      (∀ u ∈ placed, ∀ v, g.Leads u v → v ∈ placed) → Partitions g root placed []
  | cons {placed : List NodeId} {i : Interval} {is : List Interval} : i.header ∈ g.ids →
      i.header ∉ placed → (i.header = root ∧ placed = [] ∨
        root ∈ placed ∧ ∃ u ∈ placed, g.Leads u i.header) →
      Grows g placed i.header i.members → g.Full placed i.members →
      Partitions g root (placed ++ i.members) is → Partitions g root placed (i :: is)

/-- The headers that wait to be looked at. -/
structure Waiting (g : FlowGraph) (root : NodeId) (placed waiting : List NodeId) : Prop where
  nodup : waiting.Nodup
  mem_ids : ∀ w ∈ waiting, w ∈ g.ids
  not_placed : ∀ w ∈ waiting, w ∉ placed
  entered : (waiting = [root] ∧ placed = []) ∨
    root ∈ placed ∧ ∀ w ∈ waiting, ∃ u ∈ placed, g.Leads u w
  closed : ∀ u ∈ placed, ∀ v, g.Leads u v → v ∈ placed ∨ v ∈ waiting

theorem Waiting.next (hg : g.WellFormed) {header : NodeId} {rest : List NodeId}
    (h : g.Waiting root placed (header :: rest)) (hgrows : Grows g placed header ms) :
    g.Waiting root (placed ++ ms) (rest ++ g.newHeaders (placed ++ ms) rest ms) := by
  have hnew : ∀ w, w ∈ g.newHeaders (placed ++ ms) rest ms ↔
      w ∈ g.ids ∧ w ∉ placed ++ ms ∧ w ∉ rest ∧ ∃ u ∈ ms, g.Leads u w := by
    intro w
    simp only [newHeaders, List.mem_filter, Bool.and_eq_true, Bool.not_eq_eq_eq_not, Bool.not_true,
      List.any_eq_true, List.contains_iff_mem, Digraph.mem_predecessors, and_assoc]
    rw [← Bool.not_eq_true, ← Bool.not_eq_true, List.contains_iff_mem, List.contains_iff_mem]
    simp only [and_comm]
  have hheader := h.not_placed header List.mem_cons_self
  have hroot : root ∈ placed ++ ms := by
    rcases h.entered with ⟨hw, rfl⟩ | ⟨hr, -⟩
    · rw [List.nil_append, ← (List.cons.inj hw).1]
      exact hgrows.header_mem
    · exact List.mem_append_left _ hr
  -- a header that waits is entered from a placed node, so it is not in the new interval
  have hrest : ∀ w ∈ rest, w ∉ placed ++ ms ∧ ∃ u ∈ placed, g.Leads u w := by
    intro w hw
    rcases h.entered with ⟨heq, -⟩ | ⟨-, hentered⟩
    · rw [(List.cons.inj heq).2] at hw
      cases hw
    · obtain ⟨u, hu, huw⟩ := hentered w (List.mem_cons_of_mem _ hw)
      refine ⟨fun hmem => ?_, u, hu, huw⟩
      rcases List.mem_append.1 hmem with hp | hm
      · exact h.not_placed w (List.mem_cons_of_mem _ hw) hp
      · have hne : w ≠ header := fun heq => (List.nodup_cons.1 h.nodup).1 (heq ▸ hw)
        exact hgrows.not_placed hheader u (hgrows.entered hm hne huw).1 hu
  refine ⟨?_, fun w hw => ?_, fun w hw => ?_, .inr ⟨hroot, fun w hw => ?_⟩, fun u hu v huv => ?_⟩
  · refine List.nodup_append.2
      ⟨(List.nodup_cons.1 h.nodup).2, hg.ids_nodup.filter _, fun w hw v hv heq => ?_⟩
    exact ((hnew v).1 hv).2.2.1 (heq ▸ hw)
  · rcases List.mem_append.1 hw with hw | hw
    · exact h.mem_ids w (List.mem_cons_of_mem _ hw)
    · exact ((hnew w).1 hw).1
  · rcases List.mem_append.1 hw with hw | hw
    · exact (hrest w hw).1
    · exact ((hnew w).1 hw).2.1
  · rcases List.mem_append.1 hw with hw | hw
    · obtain ⟨u, hu, huw⟩ := (hrest w hw).2
      exact ⟨u, List.mem_append_left _ hu, huw⟩
    · obtain ⟨-, -, -, u, hu, huw⟩ := (hnew w).1 hw
      exact ⟨u, List.mem_append_right _ hu, huw⟩
  · by_cases hv : v ∈ placed ++ ms
    · exact .inl hv
    by_cases hvr : v ∈ rest
    · exact .inr (List.mem_append_left _ hvr)
    rcases List.mem_append.1 hu with hu | hu
    · rcases h.closed u hu v huv with hvp | hvw
      · exact .inl (List.mem_append_left _ hvp)
      · rcases List.mem_cons.1 hvw with rfl | hvw
        · exact .inl (List.mem_append_right _ hgrows.header_mem)
        · exact absurd hvw hvr
    · exact .inr (List.mem_append_right _ ((hnew v).2 ⟨(hg.closed.mem huv).2, hv, hvr, u, hu, huv⟩))

theorem intervalsFrom_partitions (hg : g.WellFormed) {waiting : List NodeId}
    (h : g.Waiting root placed waiting) (hroot : root ∈ placed ∨ waiting ≠ []) :
    Partitions g root placed (g.intervalsFrom placed waiting) := by
  fun_induction intervalsFrom g placed waiting with
  | case1 placed =>
    refine .nil (hroot.resolve_right fun hne => hne rfl) fun u hu v huv => ?_
    exact (h.closed u hu v huv).resolve_right List.not_mem_nil
  | case2 placed header rest members placed' ih =>
    obtain ⟨hgrows, hfull⟩ := grow_spec (Grows.single : Grows g placed header [header])
    have hnext := h.next hg hgrows
    refine .cons (h.mem_ids header List.mem_cons_self) (h.not_placed header List.mem_cons_self) ?_
      hgrows hfull (ih hnext ?_)
    · rcases h.entered with ⟨hw, hp⟩ | ⟨hr, hentered⟩
      · exact .inl ⟨(List.cons.inj hw).1, hp⟩
      · exact .inr ⟨hr, hentered header List.mem_cons_self⟩
    · rcases hnext.entered with ⟨-, hp⟩ | ⟨hr, -⟩
      · have := hgrows.header_mem
        rw [List.append_eq_nil_iff] at hp
        rw [hp.2] at this
        cases this
      · exact .inl hr

theorem intervals_partitions (hg : g.WellFormed) (hroot : g.entry = some root) :
    ∃ is, g.intervals = some is ∧ Partitions g root [] is := by
  refine ⟨g.intervalsFrom [] [root], by rw [intervals, hroot]; rfl, ?_⟩
  refine intervalsFrom_partitions hg ⟨List.nodup_singleton _, fun w hw => ?_, fun _ _ => ?_,
    .inl ⟨rfl, rfl⟩, fun u hu => ?_⟩ (.inr (List.cons_ne_nil _ _))
  · rw [List.mem_singleton.1 hw]
    exact hg.entry_mem root hroot
  · exact List.not_mem_nil
  · cases hu

namespace Partitions

variable {is : List Interval}

theorem nodup (h : Partitions g root placed is) :
    (is.flatMap Interval.members).Nodup ∧ ∀ v ∈ is.flatMap Interval.members, v ∉ placed := by
  induction h with
  | nil => exact ⟨List.nodup_nil, fun v hv => by cases hv⟩
  | @cons placed i is _ hheader _ hgrows _ _ ih =>
    rw [List.flatMap_cons]
    refine ⟨List.nodup_append.2 ⟨hgrows.nodup, ih.1, fun v hv w hw heq => ?_⟩, fun v hv => ?_⟩
    · exact ih.2 w hw (List.mem_append_right _ (heq ▸ hv))
    · rcases List.mem_append.1 hv with hv | hv
      · exact hgrows.not_placed hheader v hv
      · exact fun hp => ih.2 v hv (List.mem_append_left _ hp)

theorem root_mem (h : Partitions g root placed is) :
    root ∈ placed ++ is.flatMap Interval.members := by
  induction h with
  | nil hr => simpa using hr
  | @cons placed i is _ _ hentered hgrows _ _ ih =>
    rwa [List.flatMap_cons, ← List.append_assoc]

theorem leads_mem (h : Partitions g root placed is) {u v : NodeId}
    (hu : u ∈ placed ++ is.flatMap Interval.members) (huv : g.Leads u v) :
    v ∈ placed ++ is.flatMap Interval.members := by
  induction h with
  | nil _ hclosed => simpa using hclosed u (by simpa using hu) v huv
  | @cons placed i is _ _ _ _ _ _ ih =>
    rw [List.flatMap_cons, ← List.append_assoc] at hu ⊢
    exact ih hu

theorem mem_ids (h : Partitions g root placed is) : ∀ i ∈ is, ∀ v ∈ i.members, v ∈ g.ids := by
  induction h with
  | nil => exact fun i hi => by cases hi
  | @cons placed i is hids _ _ hgrows _ _ ih =>
    intro j hj
    rcases List.mem_cons.1 hj with rfl | hj
    · exact hgrows.mem_ids hids
    · exact ih j hj

theorem grows (h : Partitions g root placed is) :
    ∀ i ∈ is, ∃ before, Grows g before i.header i.members := by
  induction h with
  | nil => exact fun i hi => by cases hi
  | @cons placed i is _ _ _ hgrows _ _ ih =>
    intro j hj
    rcases List.mem_cons.1 hj with rfl | hj
    · exact ⟨placed, hgrows⟩
    · exact ih j hj

theorem cover (h : Partitions g root [] is) {v : NodeId} (hv : ReflTransGen g.Leads root v) :
    ∃ i ∈ is, v ∈ i.members := by
  have hmem : v ∈ is.flatMap Interval.members := by
    induction hv with
    | refl => simpa using h.root_mem
    | tail _ huv ih => simpa using h.leads_mem (by simpa using ih) huv
  exact List.mem_flatMap.1 hmem

theorem head (h : Partitions g root [] is) : ∃ i is', is = i :: is' ∧ i.header = root := by
  cases h with
  | nil hr => cases hr
  | @cons _ i is _ _ hentered =>
    refine ⟨i, is, rfl, ?_⟩
    rcases hentered with ⟨heq, -⟩ | ⟨hr, -⟩
    · exact heq
    · cases hr

end Partitions

end FlowGraph

end Structuring
