import Structuring.Proofs.Reduction.Reducibility

/-!
# Dominance in quotients

* `IsQuotient.dominates_iff` — a region dominates another one in a quotient exactly if its head
  dominates the nodes of the other one in the graph.
* `FlowGraph.merge_keeps_dominance` — the contraction of a primitive neither makes nor destroys
  dominance among the nodes outside and the node that takes the place of the primitive.
-/

namespace Structuring

open Relation

namespace FlowGraph

variable {g h : FlowGraph} {root n v w : NodeId} {ρ : NodeId → NodeId} {r : Region}
  {p : Primitive NodeId} {t : DominatorTree NodeId}

/-- In a quotient, the node of a region dominates another node exactly if the head of the region
dominates, in the graph, what was absorbed into the other node. -/
theorem IsQuotient.dominates_iff (hq : IsQuotient g root h ρ) (hg : g.WellFormed)
    (hroot : g.Rooted root) (hv : IsHead g root h ρ n v) (hw : w ∈ g.ids) :
    Dominates h.Leads (ρ root) n (ρ w) ↔ Dominates g.Leads root v w := by
  rw [← not_iff_not, not_dominates_iff, not_dominates_iff]
  constructor
  · rintro ⟨hne, hreach⟩
    refine ⟨?_, hq.avoiding_of hg hroot hv hne hreach hw rfl⟩
    rintro rfl
    exact hne hv.inside
  · rintro ⟨hne, hreach⟩
    exact ⟨(hq.avoiding hg hroot hv hne .refl).1, (hq.avoiding hg hroot hv hne hreach).2⟩

theorem IsHead.eq_entry (hv : IsHead g root h ρ n v) (hg : g.WellFormed) (hr : r.Fits g)
    (hc : Contracts g r n h) : v = r.entry := by
  refine hg.eq_of_key hv.mem_ids (hr.mem_ids _ hr.entry_mem) ?_
  rw [hv.label_eq, hc.label]

/-- Any other node is the head of its own region. -/
theorem IsHead.eq_self (hw : IsHead g root h (r.absorb n) w v) (hc : Contracts g r n h)
    (hmem : w ∈ g.ids) : v = w := by
  have hinside := hw.inside
  unfold Region.absorb at hinside
  split at hinside
  · exact absurd (hinside ▸ hmem) hc.fresh
  · exact hinside

/-- The contraction of nodes that pass the test of a primitive in a graph that passes the check
succeeds. It leads to a graph whose nodes can all be reached from the entry: a new node for the
primitive, and the nodes outside. Among the nodes outside, dominance is as before; the new node
dominates what the entry of the primitive dominated, and is dominated by what dominated the entry. -/
theorem merge_keeps_dominance (hg : g.WellFormed) (hvalid : g.validate = .ok ())
    (ht : g.dominatorTree .semidominators = .ok t) (hp : p.holds g t = true)
    (name : Option String) :
    ∃ root n h root', g.entry = some root ∧ g.merge p.region name = (.ok n, h) ∧ n ∉ g.ids ∧
      (∀ v, v ∈ h.ids ↔ v = n ∨ v ∈ g.ids ∧ v ∉ p.players) ∧ h.Rooted root' ∧
      (∀ x ∈ g.ids, x ∉ p.players → ∀ y ∈ g.ids, y ∉ p.players →
        (Dominates h.Leads root' x y ↔ Dominates g.Leads root x y)) ∧
      (∀ y ∈ g.ids, y ∉ p.players →
        (Dominates h.Leads root' n y ↔ Dominates g.Leads root p.entry y)) ∧
      ∀ x ∈ g.ids, x ∉ p.players →
        (Dominates h.Leads root' x n ↔ Dominates g.Leads root x p.entry) := by
  obtain ⟨root, hroot⟩ := (validate_eq_ok hg.closed).1 hvalid
  obtain ⟨t', ht', htells⟩ := dominatorTree_spec hg.closed hroot.1 (hg.entry_mem root hroot.1)
  obtain rfl : t' = t := Except.ok.inj (ht'.symm.trans ht)
  obtain ⟨T, hT, hat⟩ := (holds_iff hg hroot htells).1 hp
  obtain ⟨hfits, -⟩ := fits_of_at hroot.1 hT hat
  obtain ⟨n, h, hrun, hc, hq, -⟩ := merge_isQuotient hg hroot hT hat name
  have hplayers : ∀ v, v ∈ p.region.members ↔ v ∈ p.players := fun _ => mem_distinct
  have hin : p.region.absorb n p.entry = n := if_pos hfits.entry_mem
  have hout : ∀ v, v ∉ p.players → p.region.absorb n v = v := fun v hv =>
    if_neg fun hm => hv ((hplayers v).1 hm)
  have hentry := hfits.mem_ids _ hfits.entry_mem
  have hnew : IsHead g root h (p.region.absorb n) n p.entry := by
    obtain ⟨v, hv⟩ := hq.head n ((hc.mem_ids n).2 (.inl rfl))
    obtain rfl := hv.eq_entry hg hfits hc
    exact hv
  have hold : ∀ x ∈ g.ids, x ∉ p.players → IsHead g root h (p.region.absorb n) x x := by
    intro x hx hxp
    obtain ⟨v, hv⟩ := hq.head x ((hc.mem_ids x).2 (.inr ⟨hx, fun hm => hxp ((hplayers x).1 hm)⟩))
    obtain rfl := hv.eq_self hc hx
    exact hv
  refine ⟨root, n, h, p.region.absorb n root, hroot.1, hrun, hc.fresh, fun v => ?_,
    hq.rooted hroot, fun x hx hxp y hy hyp => ?_, fun y hy hyp => ?_, fun x hx hxp => ?_⟩
  · rw [hc.mem_ids, hplayers]
  · simpa only [hout y hyp] using hq.dominates_iff hg hroot (hold x hx hxp) hy
  · simpa only [hout y hyp] using hq.dominates_iff hg hroot hnew hy
  · have hdom := hq.dominates_iff hg hroot (hold x hx hxp) hentry
    rwa [show p.region.entry = p.entry from rfl, hin] at hdom

theorem whileLoop_merge_keeps_dominance :
    whileLoop.WellFormed ∧ whileLoop.validate = .ok () ∧
      ∃ t, whileLoop.dominatorTree .semidominators = .ok t ∧
        (Primitive.preLoop ⟨0, 2⟩ ⟨0, 3⟩ ⟨0, 4⟩).holds whileLoop t = true ∧
        ∃ root n h root', whileLoop.entry = some root ∧
          whileLoop.merge (Primitive.preLoop ⟨0, 2⟩ ⟨0, 3⟩ ⟨0, 4⟩).region none = (.ok n, h) ∧
          h.Rooted root' ∧
          (Dominates h.Leads root' ⟨0, 1⟩ n ↔ Dominates whileLoop.Leads root ⟨0, 1⟩ ⟨0, 2⟩) := by
  have hg : whileLoop.WellFormed := ofWords_wellFormed _
  obtain ⟨t, ht, hp⟩ : ∃ t, whileLoop.dominatorTree .semidominators = .ok t ∧
      (Primitive.preLoop ⟨0, 2⟩ ⟨0, 3⟩ ⟨0, 4⟩).holds whileLoop t = true := ⟨_, by cbv, by cbv⟩
  obtain ⟨root, n, h, root', hroot, hrun, -, -, hrooted, -, -, hdom⟩ :=
    merge_keeps_dominance hg whileLoop_validate ht hp none
  exact ⟨hg, whileLoop_validate, t, ht, hp, root, n, h, root', hroot, hrun, hrooted,
    hdom ⟨0, 1⟩ (by decide) (by decide)⟩

end FlowGraph

end Structuring
