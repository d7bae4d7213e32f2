import Structuring.Proofs.Reduction.Merge
import Structuring.Proofs.Reduction.Pattern

/-!
# Quotients

What a graph in the course of a reduction has to do with the graph at the start. Every node of the
start was absorbed into one node of the current graph; the nodes absorbed into the same node form its
region.

* `FlowGraph.IsHead` — the node of a region that has its label, dominates it and alone is entered.
* `FlowGraph.IsQuotient` — every region has a head, and the edges are those between the regions.
* `IsQuotient.trans` — a quotient of a quotient is a quotient.
* `FlowGraph.merge_isQuotient` — the contraction of a primitive leads to a quotient, with the very
  links between the regions.
-/

namespace Structuring

open Relation

/-- The region is entered at its entry only. -/
def Region.SingleEntry (r : Region) (g : FlowGraph) : Prop :=
  ∀ u v, g.Leads u v → u ∉ r.members → v ∈ r.members → v = r.entry

namespace FlowGraph

/-- `v` is the head of the region of `n`: it has the label of `n`, it dominates the region, and no
other node of the region is entered from outside. -/
structure IsHead (g : FlowGraph) (root : NodeId) (h : FlowGraph) (ρ : NodeId → NodeId)
    (n v : NodeId) : Prop where
  mem_ids : v ∈ g.ids
  label_eq : g.label v = h.label n
  inside : ρ v = n
  dominates : ∀ w ∈ g.ids, ρ w = n → Dominates g.Leads root v w
  entered : ∀ u w, g.Leads u w → ρ u ≠ n → ρ w = n → w = v

/-- `h` is a quotient of `g`, a graph with the entry `root`. The node `v` of `g` was absorbed into the
node `ρ v` of `h`. -/
structure IsQuotient (g : FlowGraph) (root : NodeId) (h : FlowGraph) (ρ : NodeId → NodeId) :
    Prop where
  maps : ∀ v ∈ g.ids, ρ v ∈ h.ids
  head : ∀ n ∈ h.ids, ∃ v, IsHead g root h ρ n v
  leads_iff : ∀ n m, n ≠ m → (h.Leads n m ↔ ∃ u v, g.Leads u v ∧ ρ u = n ∧ ρ v = m)
  entry_eq : h.entry = some (ρ root)
  label_entry : h.label (ρ root) = g.label root

variable {g h k : FlowGraph} {root : NodeId} {ρ σ : NodeId → NodeId}

/-- Graphs have the same links between different nodes, up to a renaming. -/
def SameLinks (g h : FlowGraph) (ρ : NodeId → NodeId) : Prop :=
  proper h.links = proper (g.links.map (Link.map ρ))

theorem SameLinks.refl (g : FlowGraph) : SameLinks g g id := by
  unfold SameLinks
  rw [show (Link.map id : Link NodeId → Link NodeId) = id from funext Link.map_id, Multiset.map_id]

theorem SameLinks.trans (hgh : SameLinks g h ρ) (hhk : SameLinks h k σ) :
    SameLinks g k (σ ∘ ρ) := by
  unfold SameLinks at *
  rw [hhk, ← proper_map_proper, hgh, proper_map_proper, Multiset.map_map]
  rfl

theorem SameLinks.leads_iff (hgh : SameLinks g h ρ) {n m : NodeId} (hnm : n ≠ m) :
    h.Leads n m ↔ ∃ u v, g.Leads u v ∧ ρ u = n ∧ ρ v = m := by
  have hmem : ∀ a, ⟨n, m, a⟩ ∈ h.links ↔ ⟨n, m, a⟩ ∈ g.links.map (Link.map ρ) := by
    intro a
    have := congrArg (fun ls => (⟨n, m, a⟩ : Link NodeId) ∈ ls) hgh
    simpa [proper, Link.Proper, hnm] using this
  simp only [Digraph.leads_iff, hmem, Multiset.mem_map]
  constructor
  · rintro ⟨a, ⟨s, t, b⟩, hl, heq⟩
    cases heq
    exact ⟨s, t, ⟨_, hl⟩, rfl, rfl⟩
  · rintro ⟨u, v, ⟨a, ha⟩, rfl, rfl⟩
    exact ⟨a, _, ha, rfl⟩

namespace IsQuotient

theorem refl (hroot : g.Rooted root) : IsQuotient g root g id where
  maps _ hv := hv
  head n hn := ⟨n, hn, rfl, rfl, fun _ _ hw => hw ▸ dominates_self, fun _ _ _ _ hw => hw⟩
  leads_iff n m _ := by simp
  entry_eq := hroot.1
  label_entry := rfl

theorem avoiding (hq : IsQuotient g root h ρ) (hg : g.WellFormed) (hroot : g.Rooted root)
    {m v : NodeId} (hv : IsHead g root h ρ m v) (hne : root ≠ v) {u : NodeId}
    (hu : ReflTransGen (Avoiding g.Leads v) root u) :
    ρ u ≠ m ∧ ReflTransGen (Avoiding h.Leads m) (ρ root) (ρ u) := by
  induction hu with
  | refl =>
    refine ⟨fun hm => ?_, .refl⟩
    have := hv.dominates root (hg.entry_mem root hroot.1) hm [root] (.single root)
    exact hne (List.mem_singleton.1 this).symm
  | @tail u w _ huw ih =>
    have hw : ρ w ≠ m := fun hm => huw.2 (hv.entered u w huw.1 ih.1 hm)
    refine ⟨hw, ?_⟩
    by_cases heq : ρ u = ρ w
    · rw [← heq]
      exact ih.2
    · exact ih.2.tail ⟨(hq.leads_iff _ _ heq).2 ⟨u, w, huw.1, rfl, rfl⟩, hw⟩

theorem trans (hg : g.WellFormed) (hroot : g.Rooted root) (hgh : IsQuotient g root h ρ)
    (hhk : IsQuotient h (ρ root) k σ) : IsQuotient g root k (σ ∘ ρ) where
  maps v hv := hhk.maps _ (hgh.maps v hv)
  head n hn := by
    obtain ⟨m, hm⟩ := hhk.head n hn
    obtain ⟨v, hv⟩ := hgh.head m hm.mem_ids
    refine ⟨v, hv.mem_ids, hv.label_eq.trans hm.label_eq, ?_, fun w hw hwn => ?_,
      fun u w huw hun hwn => ?_⟩
    · rw [Function.comp_apply, hv.inside, hm.inside]
    · by_contra hnot
      obtain ⟨hne, hreach⟩ := not_dominates_iff.1 hnot
      obtain ⟨-, hreach'⟩ := hgh.avoiding hg hroot hv hne hreach
      exact not_dominates_iff.2 ⟨(hgh.avoiding hg hroot hv hne .refl).1, hreach'⟩
        (hm.dominates _ (hgh.maps w hw) hwn)
    · have hne : ρ u ≠ ρ w := fun heq => hun (by rw [Function.comp_apply, heq]; exact hwn)
      have hwm := hm.entered _ _ ((hgh.leads_iff _ _ hne).2 ⟨u, w, huw, rfl, rfl⟩) hun hwn
      exact hv.entered u w huw (fun heq => hne (heq.trans hwm.symm)) hwm
  leads_iff n m hnm := by
    rw [hhk.leads_iff n m hnm]
    constructor
    · rintro ⟨x, y, hxy, rfl, rfl⟩
      have hne : x ≠ y := fun heq => hnm (congrArg σ heq)
      obtain ⟨u, v, huv, rfl, rfl⟩ := (hgh.leads_iff x y hne).1 hxy
      exact ⟨u, v, huv, rfl, rfl⟩
    · rintro ⟨u, v, huv, rfl, rfl⟩
      have hne : ρ u ≠ ρ v := fun heq => hnm (congrArg σ heq)
      exact ⟨ρ u, ρ v, (hgh.leads_iff _ _ hne).2 ⟨u, v, huv, rfl, rfl⟩, rfl, rfl⟩
  entry_eq := hhk.entry_eq
  label_entry := hhk.label_entry.trans hgh.label_entry

theorem reach (hq : IsQuotient g root h ρ) {u v : NodeId} (huv : ReflTransGen g.Leads u v) :
    ReflTransGen h.Leads (ρ u) (ρ v) := by
  induction huv with
  | refl => exact .refl
  | @tail v w _ hvw ih =>
    by_cases heq : ρ v = ρ w
    · exact heq ▸ ih
    · exact ih.tail ((hq.leads_iff _ _ heq).2 ⟨v, w, hvw, rfl, rfl⟩)

theorem rooted (hq : IsQuotient g root h ρ) (hroot : g.Rooted root) : h.Rooted (ρ root) := by
  refine ⟨hq.entry_eq, fun n hn => ?_⟩
  obtain ⟨v, hv⟩ := hq.head n hn
  rw [← hv.inside]
  exact hq.reach (hroot.2 v hv.mem_ids)

end IsQuotient

/-! ## Contractions -/

variable {r : Region} {n : NodeId}

theorem contracted_add (A B : Multiset (Link NodeId)) :
    r.contracted n (A + B) = r.contracted n A + r.contracted n B := by
  simp only [Region.contracted, Multiset.filter_add, Multiset.map_add]
  abel

/-- Up to loops, a contraction renames the ends of the links. -/
theorem proper_contracted {ls : Multiset (Link NodeId)}
    (hentered : ∀ l ∈ ls, l.source ∉ r.members → l.target ∈ r.members → l.target = r.entry)
    (hentry : r.entry ∈ r.members) :
    proper (r.contracted n ls) = proper (ls.map (Link.map (r.absorb n))) := by
  induction ls using Multiset.induction_on with
  | empty => rfl
  | cons l ls ih =>
    rw [← Multiset.singleton_add, contracted_add, Multiset.map_add]
    simp only [proper, Multiset.filter_add] at ih ⊢
    rw [ih fun l' hl' => hentered l' (Multiset.mem_cons_of_mem hl')]
    congr 1
    obtain ⟨s, t, a⟩ := l
    have hl := hentered _ (Multiset.mem_cons_self _ _)
    simp only at hl
    by_cases hs : s ∈ r.members
    · by_cases ht : t ∈ r.members
      · by_cases hx : r.exit? = some s
        · simp [Region.contracted, Region.absorb, Multiset.filter_singleton, hs, ht, hx]
        · simp [Region.contracted, Region.absorb, Multiset.filter_singleton, hs, ht, hx,
            Link.Proper]
      · simp [Region.contracted, Region.absorb, Multiset.filter_singleton, hs, ht]
    · by_cases ht : t ∈ r.members
      · obtain rfl := hl hs ht
        simp [Region.contracted, Region.absorb, Multiset.filter_singleton, hs, hentry]
      · have hte : t ≠ r.entry := fun heq => ht (heq ▸ hentry)
        simp [Region.contracted, Region.absorb, Multiset.filter_singleton, hs, ht, hte]

/-- A contraction of a region that is dominated by its entry and entered there only leads to a
quotient. -/
theorem isQuotient_of_contracts (hg : g.WellFormed) (hroot : g.Rooted root) (hfits : r.Fits g)
    (hsingle : r.SingleEntry g) (hdom : ∀ v ∈ r.members, Dominates g.Leads root r.entry v)
    (hc : Contracts g r n h) : IsQuotient g root h (r.absorb n) ∧ SameLinks g h (r.absorb n) := by
  have hlinks : SameLinks g h (r.absorb n) := by
    unfold SameLinks
    rw [hc.links]
    refine proper_contracted (fun l hl hs ht => ?_) hfits.entry_mem
    exact hsingle l.source l.target (Digraph.leads_iff.2 ⟨l.attributes, hl⟩) hs ht
  have hin : ∀ v, v ∈ r.members → r.absorb n v = n := fun v hv => if_pos hv
  have hout : ∀ v, v ∉ r.members → r.absorb n v = v := fun v hv => if_neg hv
  have hmem : ∀ v ∈ g.ids, r.absorb n v = n → v ∈ r.members := by
    intro v hv hvn
    by_contra hvr
    rw [hout v hvr] at hvn
    exact hc.fresh (hvn ▸ hv)
  refine ⟨⟨fun v hv => ?_, fun m hm => ?_, fun _ _ hne => hlinks.leads_iff hne, ?_, ?_⟩, hlinks⟩
  · rw [hc.mem_ids]
    by_cases hvr : v ∈ r.members
    · exact .inl (hin v hvr)
    · rw [hout v hvr]
      exact .inr ⟨hv, hvr⟩
  · rcases (hc.mem_ids m).1 hm with rfl | ⟨hmg, hmr⟩
    · refine ⟨r.entry, hfits.mem_ids _ hfits.entry_mem, hc.label.symm, hin _ hfits.entry_mem,
        fun w hw hwm => hdom w (hmem w hw hwm), fun u w huw hum hwm => ?_⟩
      exact hsingle u w huw (fun hu => hum (hin u hu)) (hmem w (hg.closed.mem huw).2 hwm)
    · -- another node is a region of its own
      have hself : ∀ w ∈ g.ids, r.absorb n w = m → w = m := by
        intro w hw hwm
        by_cases hwr : w ∈ r.members
        · rw [hin w hwr] at hwm
          exact absurd (hwm ▸ hmg) hc.fresh
        · rwa [hout w hwr] at hwm
      refine ⟨m, hmg, (hc.label_eq m hmg hmr).symm, hout m hmr, fun w hw hwm => ?_,
        fun u w huw _ hwm => hself w (hg.closed.mem huw).2 hwm⟩
      rw [hself w hw hwm]
      exact dominates_self
  · obtain ⟨root', hroot', heq⟩ := hfits.entry_eq
    obtain rfl : root = root' := Option.some.inj (hroot.1.symm.trans hroot')
    rw [hc.entry, hroot.1]
    by_cases hr : root ∈ r.members
    · rw [hin root hr, if_pos (by rw [heq hr])]
    · rw [hout root hr, if_neg]
      rintro hre
      exact hr (Option.some.inj hre ▸ hfits.entry_mem)
  · obtain ⟨root', hroot', heq⟩ := hfits.entry_eq
    obtain rfl : root = root' := Option.some.inj (hroot.1.symm.trans hroot')
    by_cases hr : root ∈ r.members
    · rw [hin root hr, hc.label, heq hr]
    · rw [hout root hr, hc.label_eq root (hg.entry_mem root hroot.1) hr]

variable {p : Primitive NodeId} {T : Template NodeId}

/-- The region of a template that stands in a graph. -/
theorem fits_of_at (hroot : g.entry = some root) (hT : T ∈ p.templates)
    (h : T.At (g.outline root)) :
    p.region.Fits g ∧ p.region.SingleEntry g ∧
      ∀ v ∈ p.region.members, Dominates g.Leads root p.region.entry v := by
  have hs := Primitive.sound hT h.nodup
  obtain ⟨hmem, hentry, -⟩ := Primitive.region_of_template hT
  refine ⟨⟨nodup_distinct _, fun v hv => ?_, ?_, root, hroot, fun hr => ?_⟩,
    fun u v huv hu hv => ?_, fun v hv => ?_⟩
  · exact List.mem_toFinset.1 (h.mem_nodes v ((hmem v).1 hv))
  · rw [hentry, hmem]
    exact hs.entry_mem
  · rw [hentry]
    exact h.entry_eq ((hmem root).1 hr)
  · rw [hentry]
    exact h.entered hs (mem_ends.2 huv) (fun hu' => hu ((hmem u).2 hu')) ((hmem v).1 hv)
  · rw [hentry]
    exact dominates_of_at hs h ((hmem v).1 hv)

theorem merge_isQuotient (hg : g.WellFormed) (hroot : g.Rooted root) (hT : T ∈ p.templates)
    (h : T.At (g.outline root)) (name : Option String) :
    ∃ n g', g.merge p.region name = (.ok n, g') ∧ Contracts g p.region n g' ∧
      IsQuotient g root g' (p.region.absorb n) ∧ SameLinks g g' (p.region.absorb n) := by
  obtain ⟨hfits, hsingle, hdom⟩ := fits_of_at hroot.1 hT h
  obtain ⟨n, g', hrun, hc⟩ := merge_contracts hg hfits name
  exact ⟨n, g', hrun, hc, isQuotient_of_contracts hg hroot hfits hsingle hdom hc⟩

end FlowGraph

end Structuring
