import Structuring.Proofs.Reduction.Contraction
import Structuring.Proofs.Reduction.Copy
import Structuring.Proofs.Reduction.Labels

/-!
# Mirrored graphs

Two graphs may agree in all that a reduction looks at and differ in the rest: in the numbers of nodes
and edges, in labels, names and attributes, and in the order of the edges into a node.

* `FlowGraph.Mirrors` — the nodes of two graphs correspond, in order, and the edges out of a node lead
  to corresponding nodes, in order.
* `Relabels` — how the labels of corresponding nodes correspond.
* `Mirrors.symm` — the nodes correspond the other way round, too.
* `Mirrors.successors`, `leads_iff`, `rooted`, `outline` — what is read off the edges corresponds.
-/

namespace Structuring

open Relation

def Digraph.targetList {β : Type} (g : Digraph β) (v : NodeId) : List NodeId :=
  (g.outEdges v).map (·.target)

theorem Digraph.mem_targetList {β : Type} {g : Digraph β} {v w : NodeId} :
    w ∈ g.targetList v ↔ g.Leads v w := by
  simp [targetList, Leads, and_assoc]

theorem Digraph.targetList_eq {β : Type} (g : Digraph β) (v : NodeId) :
    g.targetList v = ((g.edges.map Edge.link).filter fun l => l.source = v).map Link.target := by
  rw [List.filter_map, List.map_map]
  rfl

namespace FlowGraph

/-- The node `v` of `g` corresponds to the node `φ v` of `h`. The nodes stand in the same order, the
entries correspond, and so do the targets of the edges out of each node, in order. -/
structure Mirrors (g h : FlowGraph) (φ : NodeId → NodeId) : Prop where
  left : g.WellFormed
  right : h.WellFormed
  ids : h.ids = g.ids.map φ
  entry : h.entry = g.entry.map φ
  targets : ∀ v ∈ g.ids, h.targetList (φ v) = (g.targetList v).map φ

def Relabels (f : Value → Value) (g h : FlowGraph) (φ : NodeId → NodeId) : Prop :=
  ∀ v ∈ g.ids, h.label (φ v) = f (g.label v)

variable {g h : FlowGraph} {root n u v w : NodeId} {φ : NodeId → NodeId} {ms : List NodeId}

theorem targetList_mem (hg : g.WellFormed) (hw : w ∈ g.targetList v) : w ∈ g.ids :=
  (hg.closed.mem (Digraph.mem_targetList.1 hw)).2

theorem successors_mem (hg : g.WellFormed) (hw : w ∈ g.successors v) : w ∈ g.ids :=
  (hg.closed.mem (Digraph.mem_successors.1 hw)).2

/-- The arcs, sorted by the nodes that they leave from. -/
theorem ends_eq_targets (hg : g.WellFormed) :
    g.ends = ↑(g.ids.flatMap fun v => (g.targetList v).map fun w => (v, w)) := by
  rw [ends_eq, Multiset.coe_eq_coe]
  refine ((edgeList_perm hg).map _).symm.trans (.of_eq ?_)
  rw [Digraph.edgeList, List.map_flatMap]
  refine List.flatMap_congr fun v _ => ?_
  rw [Digraph.targetList, List.map_map]
  refine List.map_congr_left fun e he => ?_
  rw [Function.comp_apply, (Digraph.mem_outEdges.1 he).2]

namespace Mirrors

theorem injOn (hm : Mirrors g h φ) (hu : u ∈ g.ids) (hv : v ∈ g.ids) (heq : φ u = φ v) : u = v := by
  have hnd := hm.right.ids_nodup
  rw [hm.ids] at hnd
  exact List.inj_on_of_nodup_map hnd hu hv heq

theorem mem (hm : Mirrors g h φ) (hv : v ∈ g.ids) : φ v ∈ h.ids :=
  hm.ids ▸ List.mem_map_of_mem hv

theorem size_eq (hm : Mirrors g h φ) : h.size = g.size := by
  rw [← Digraph.length_ids, hm.ids, List.length_map, Digraph.length_ids]

/-- A node is in a list of nodes exactly if its counterpart is among theirs. -/
theorem mem_map_iff (hm : Mirrors g h φ) (hms : ∀ v ∈ ms, v ∈ g.ids) (hv : v ∈ g.ids) :
    φ v ∈ ms.map φ ↔ v ∈ ms := by
  refine ⟨fun hmem => ?_, List.mem_map_of_mem⟩
  obtain ⟨w, hw, heq⟩ := List.mem_map.1 hmem
  exact hm.injOn (hms w hw) hv heq ▸ hw

theorem contains_map (hm : Mirrors g h φ) (hms : ∀ v ∈ ms, v ∈ g.ids) (hv : v ∈ g.ids) :
    (ms.map φ).contains (φ v) = ms.contains v := by
  rw [Bool.eq_iff_iff, List.contains_iff_mem, List.contains_iff_mem, hm.mem_map_iff hms hv]

theorem ids_filter (hm : Mirrors g h φ) {p q : NodeId → Bool} (hpq : ∀ v ∈ g.ids, q (φ v) = p v) :
    h.ids.filter q = (g.ids.filter p).map φ := by
  rw [hm.ids, List.filter_map]
  exact congrArg (List.map φ) (List.filter_congr hpq)

theorem leads_iff (hm : Mirrors g h φ) (hu : u ∈ g.ids) (hv : v ∈ g.ids) :
    h.Leads (φ u) (φ v) ↔ g.Leads u v := by
  rw [← Digraph.mem_targetList, ← Digraph.mem_targetList, hm.targets u hu]
  exact hm.mem_map_iff (fun _ => targetList_mem hm.left) hv

theorem leads (hm : Mirrors g h φ) (huv : g.Leads u v) : h.Leads (φ u) (φ v) := by
  obtain ⟨hu, hv⟩ := hm.left.closed.mem huv
  exact (hm.leads_iff hu hv).2 huv

theorem successors (hm : Mirrors g h φ) (hv : v ∈ g.ids) :
    h.successors (φ v) = (g.successors v).map φ := by
  have htargets : (h.outEdges (φ v)).map (·.target) = ((g.outEdges v).map (·.target)).map φ :=
    hm.targets v hv
  rw [Digraph.successors, Digraph.successors, htargets]
  exact distinct_map fun a ha b hb =>
    hm.injOn (targetList_mem hm.left ha) (targetList_mem hm.left hb)

theorem symm (hm : Mirrors g h φ) : ∃ ψ, Mirrors h g ψ ∧ ∀ v ∈ g.ids, ψ (φ v) = v := by
  have hinj : Set.InjOn φ {v | v ∈ g.ids} := fun u hu v hv heq => hm.injOn hu hv heq
  let ψ := Function.invFunOn φ {v | v ∈ g.ids}
  have hback : ∀ v ∈ g.ids, ψ (φ v) = v := fun v hv => hinj.leftInvOn_invFunOn hv
  have hmap : ∀ vs : List NodeId, (∀ v ∈ vs, v ∈ g.ids) → (vs.map φ).map ψ = vs := by
    intro vs hvs
    rw [List.map_map]
    exact (List.map_congr_left fun v hv => hback v (hvs v hv)).trans (List.map_id vs)
  refine ⟨ψ, ⟨hm.right, hm.left, ?_, ?_, fun n hn => ?_⟩, hback⟩
  · rw [hm.ids, hmap _ fun _ => id]
  · rw [hm.entry]
    cases hentry : g.entry with
    | none => rfl
    | some root => exact congrArg some (hback root (hm.left.entry_mem root hentry)).symm
  · obtain ⟨v, hv, rfl⟩ := List.mem_map.1 (hm.ids ▸ hn)
    rw [hback v hv, hm.targets v hv, hmap _ fun _ => targetList_mem hm.left]

theorem rooted (hm : Mirrors g h φ) (hroot : g.Rooted root) : h.Rooted (φ root) := by
  refine ⟨by rw [hm.entry, hroot.1, Option.map_some], fun n hn => ?_⟩
  obtain ⟨v, hv, rfl⟩ := List.mem_map.1 (hm.ids ▸ hn)
  exact ReflTransGen.lift φ (fun _ _ huv => hm.leads huv) _ _ (hroot.2 v hv)

theorem validated (hm : Mirrors g h φ) (hv : g.Validated) : h.Validated := by
  obtain ⟨-, root, hroot⟩ := hv
  exact ⟨hm.right, _, hm.rooted hroot⟩

/-- No label stands at two nodes, so that the labels correspond by a function. -/
theorem exists_relabels (hm : Mirrors g h φ) : ∃ f, Relabels f g h φ := by
  have hinj : Set.InjOn g.label {v | v ∈ g.ids} := fun u hu v hv heq =>
    hm.left.eq_of_key hu hv (congrArg Value.key heq)
  refine ⟨fun l => h.label (φ (Function.invFunOn g.label {v | v ∈ g.ids} l)), fun v hv => ?_⟩
  have hback : Function.invFunOn g.label {v | v ∈ g.ids} (g.label v) = v :=
    hinj.leftInvOn_invFunOn hv
  simp only [hback]

theorem labels {f : Value → Value} (hm : Mirrors g h φ) (hf : Relabels f g h φ) :
    h.labels = g.labels.map f := by
  rw [hm.left.labels_eq, hm.right.labels_eq, hm.ids, List.map_map, List.map_map]
  exact List.map_congr_left hf

theorem outline (hm : Mirrors g h φ) (root : NodeId) :
    (g.outline root).map φ = h.outline (φ root) := by
  refine Outline.ext ?_ ?_ rfl
  · ext w
    simp [Outline.map, FlowGraph.outline, hm.ids]
  · simp only [Outline.map, FlowGraph.outline, ends_eq_targets hm.left, ends_eq_targets hm.right,
      hm.ids, Multiset.map_coe, List.map_flatMap, List.flatMap_map]
    refine congrArg _ (List.flatMap_congr fun v hv => ?_)
    rw [hm.targets v hv, List.map_map, List.map_map]
    rfl

end Mirrors

end FlowGraph

end Structuring
