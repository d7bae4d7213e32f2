import Structuring.Proofs.Mirror.Graph

/-!
# Intervals of mirrored graphs

The partition into intervals asks of the edges into a node only where they come from, so that the order
of these edges does not matter.

* `Mirrors.enters_iff` — whether a node is entered from some nodes only.
* `Mirrors.growPass`, `grow`, `newHeaders`, `intervalsFrom` — the steps of the partition, one by one.
* `Mirrors.intervals` — the intervals correspond, in order, with their members in order.
-/

namespace Structuring

def Interval.map (f : NodeId → NodeId) (i : Interval) : Interval := ⟨f i.header, i.members.map f⟩

namespace FlowGraph

namespace Mirrors

variable {g h : FlowGraph} {header n v : NodeId} {φ : NodeId → NodeId}
  {placed waiting ms ns : List NodeId}

theorem enters_iff (hm : Mirrors g h φ) (hms : ∀ v ∈ ms, v ∈ g.ids) (hn : n ∈ g.ids) :
    h.Enters (ms.map φ) (φ n) ↔ g.Enters ms n := by
  -- every node that leads to the counterpart is a counterpart
  have hback : ∀ {u'}, h.Leads u' (φ n) → ∃ u ∈ g.ids, φ u = u' ∧ g.Leads u n := by
    intro u' hu'
    obtain ⟨u, hu, rfl⟩ := List.mem_map.1 (hm.ids ▸ (hm.right.closed.mem hu').1)
    exact ⟨u, hu, rfl, (hm.leads_iff hu hn).1 hu'⟩
  constructor
  · rintro ⟨⟨u', hu'⟩, hall⟩
    obtain ⟨u, -, -, hun⟩ := hback hu'
    refine ⟨⟨u, hun⟩, fun w hw => ?_⟩
    exact (hm.mem_map_iff hms (hm.left.closed.mem hw).1).1 (hall _ (hm.leads hw))
  · rintro ⟨⟨u, hun⟩, hall⟩
    refine ⟨⟨φ u, hm.leads hun⟩, fun w' hw' => ?_⟩
    obtain ⟨w, -, rfl, hw⟩ := hback hw'
    exact List.mem_map_of_mem (hall w hw)

theorem growPass (hm : Mirrors g h φ) (hplaced : ∀ v ∈ placed, v ∈ g.ids)
    (hheader : header ∈ g.ids) (hgrows : Grows g placed header ms) (hns : ∀ n ∈ ns, n ∈ g.ids) :
    h.growPass (placed.map φ) (ms.map φ) (ns.map φ) = (g.growPass placed ms ns).map φ := by
  induction ns generalizing ms with
  | nil => rfl
  | cons n ns ih =>
    have hn := hns n List.mem_cons_self
    have hns' : ∀ m ∈ ns, m ∈ g.ids := fun m hmem => hns m (List.mem_cons_of_mem _ hmem)
    have hms := hgrows.mem_ids hheader
    have hmem : (φ n ∈ placed.map φ ∨ φ n ∈ ms.map φ) ↔ (n ∈ placed ∨ n ∈ ms) :=
      or_congr (hm.mem_map_iff hplaced hn) (hm.mem_map_iff hms hn)
    have henters := hm.enters_iff hms hn
    simp only [List.map_cons, FlowGraph.growPass]
    by_cases hin : n ∈ placed ∨ n ∈ ms
    · rw [if_pos hin, if_pos (hmem.2 hin), ih hgrows hns']
    · rw [if_neg hin, if_neg (hin ∘ hmem.1)]
      by_cases he : g.Enters ms n
      · rw [if_pos (FlowGraph.enters_iff.2 he), if_pos (FlowGraph.enters_iff.2 (henters.2 he)),
          ← ih (hgrows.add hn (fun hp => hin (.inl hp)) (fun hp => hin (.inr hp)) he) hns',
          List.map_append, List.map_singleton]
      · rw [if_neg (he ∘ FlowGraph.enters_iff.1), if_neg (he ∘ henters.1 ∘ FlowGraph.enters_iff.1),
          ih hgrows hns']

theorem outside (hm : Mirrors g h φ) (hms : ∀ v ∈ ms, v ∈ g.ids) :
    h.outside (ms.map φ) = g.outside ms := by
  rw [FlowGraph.outside, FlowGraph.outside,
    hm.ids_filter (p := fun n => !ms.contains n) fun v hv => by rw [hm.contains_map hms hv],
    List.length_map]

theorem grow (hm : Mirrors g h φ) (hplaced : ∀ v ∈ placed, v ∈ g.ids) (hheader : header ∈ g.ids)
    (hgrows : Grows g placed header ms) :
    h.grow (placed.map φ) (ms.map φ) = (g.grow placed ms).map φ := by
  have hpass : ∀ {ms}, Grows g placed header ms →
      h.growPass (placed.map φ) (ms.map φ) h.ids = (g.growPass placed ms g.ids).map φ := by
    intro ms hgrows
    rw [hm.ids]
    exact hm.growPass hplaced hheader hgrows fun _ => id
  fun_induction FlowGraph.grow g placed ms with
  | case1 ms ms' hlt ih =>
    have hgrows' := growPass_grows hgrows fun n (hn : n ∈ g.ids) => hn
    rw [FlowGraph.grow]
    simp only [hpass hgrows, hm.outside (hgrows.mem_ids hheader),
      hm.outside (hgrows'.mem_ids hheader)]
    rw [if_pos hlt]
    exact ih hgrows'
  | case2 ms ms' hlt =>
    have hgrows' := growPass_grows hgrows fun n (hn : n ∈ g.ids) => hn
    rw [FlowGraph.grow]
    simp only [hpass hgrows, hm.outside (hgrows.mem_ids hheader),
      hm.outside (hgrows'.mem_ids hheader)]
    rw [if_neg hlt]

theorem newHeaders (hm : Mirrors g h φ) (hplaced : ∀ v ∈ placed, v ∈ g.ids)
    (hwaiting : ∀ v ∈ waiting, v ∈ g.ids) (hms : ∀ v ∈ ms, v ∈ g.ids) :
    h.newHeaders (placed.map φ) (waiting.map φ) (ms.map φ) =
      (g.newHeaders placed waiting ms).map φ := by
  refine hm.ids_filter fun v hv => ?_
  have hany : (h.predecessors (φ v)).any (ms.map φ).contains =
      (g.predecessors v).any ms.contains := by
    rw [Bool.eq_iff_iff]
    simp only [List.any_eq_true, List.contains_iff_mem, Digraph.mem_predecessors, List.mem_map]
    constructor
    · rintro ⟨_, hlead, u, hu, rfl⟩
      exact ⟨u, (hm.leads_iff (hms u hu) hv).1 hlead, hu⟩
    · rintro ⟨u, hlead, hu⟩
      exact ⟨φ u, hm.leads hlead, u, hu, rfl⟩
  rw [hm.contains_map hplaced hv, hm.contains_map hwaiting hv, hany]

theorem intervalsFrom (hm : Mirrors g h φ) (hplaced : ∀ v ∈ placed, v ∈ g.ids)
    (hwaiting : ∀ v ∈ waiting, v ∈ g.ids) :
    h.intervalsFrom (placed.map φ) (waiting.map φ) =
      (g.intervalsFrom placed waiting).map (Interval.map φ) := by
  fun_induction FlowGraph.intervalsFrom g placed waiting with
  | case1 placed =>
    rw [List.map_nil, FlowGraph.intervalsFrom]
    rfl
  | case2 placed header rest members placed' ih =>
    have hheader := hwaiting header List.mem_cons_self
    have hrest : ∀ v ∈ rest, v ∈ g.ids := fun v hv => hwaiting v (List.mem_cons_of_mem _ hv)
    have hsingle : Grows g placed header [header] := .single
    have hmembers : ∀ v ∈ members, v ∈ g.ids := (grow_spec hsingle).1.mem_ids hheader
    have hplaced' : ∀ v ∈ placed', v ∈ g.ids := fun v hv =>
      (List.mem_append.1 hv).elim (hplaced v) (hmembers v)
    have hgrow : h.grow (placed.map φ) [φ header] = members.map φ :=
      hm.grow hplaced hheader hsingle
    have hnew : (rest ++ g.newHeaders placed' rest members).map φ =
        rest.map φ ++ h.newHeaders (placed'.map φ) (rest.map φ) (members.map φ) := by
      rw [hm.newHeaders hplaced' hrest hmembers, List.map_append]
    have hih := ih hplaced' fun v hv =>
      (List.mem_append.1 hv).elim (hrest v) fun hv => List.mem_of_mem_filter hv
    have hmap : placed'.map φ = placed.map φ ++ members.map φ := List.map_append
    rw [hnew, hmap] at hih
    rw [List.map_cons, FlowGraph.intervalsFrom]
    simp only [hgrow, hih]
    rfl

theorem intervals (hm : Mirrors g h φ) :
    h.intervals = g.intervals.map (List.map (Interval.map φ)) := by
  rw [FlowGraph.intervals, FlowGraph.intervals, hm.entry]
  cases hentry : g.entry with
  | none => rfl
  | some root =>
    have hplaced : ∀ v ∈ ([] : List NodeId), v ∈ g.ids := fun v hv => by cases hv
    have hwaiting : ∀ v ∈ [root], v ∈ g.ids := fun v hv =>
      List.mem_singleton.1 hv ▸ hm.left.entry_mem root hentry
    exact congrArg some (hm.intervalsFrom hplaced hwaiting)

end Mirrors

end FlowGraph

end Structuring
