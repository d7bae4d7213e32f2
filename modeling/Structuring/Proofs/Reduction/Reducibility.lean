import Structuring.Proofs.Graph.Reducible
import Structuring.Proofs.Reduction.Run

/-!
# Reduction by levels decides reducibility

* `IsQuotient.reducible` — quotients of reducible graphs are reducible.
* `IsQuotient.reducible_of` — a graph with a reducible quotient is reducible if forward steps within a
  region go up in some order.
* `Descends.reducible_iff` — no step of a reduction by levels makes a difference.
* `FlowGraph.IsLimit.irreducible` — a limit is irreducible or has a loop.
* `FlowGraph.reduceByIntervals_decides` — what the end of the reduction tells of the graph.
-/

namespace Structuring

open Relation

/-- The place of a member between the two ends. -/
def Template.rank {α : Type} [DecidableEq α] (T : Template α) (v : α) : Nat :=
  if v = T.entry then 0 else if T.exit? = some v then 2 else 1

namespace FlowGraph

/-- A graph with an entry is reducible. -/
def IsReducible (g : FlowGraph) : Prop := ∃ root, g.entry = some root ∧ Reducible g.Leads root

variable {g h : FlowGraph} {root n m v w : NodeId} {ρ : NodeId → NodeId}

theorem Rooted.isReducible_iff (hroot : g.Rooted root) :
    g.IsReducible ↔ Reducible g.Leads root := by
  constructor
  · rintro ⟨root', hentry, hred⟩
    obtain rfl := Option.some.inj (hroot.1.symm.trans hentry)
    exact hred
  · exact fun hred => ⟨root, hroot.1, hred⟩

theorem exists_tree (hg : g.WellFormed) (root : NodeId) :
    ∃ num par, DepthFirstTree g.Leads root num par := by
  have := Arcs.search_tree hg.closed.coherent root
  rw [Digraph.arcs_step_eq] at this
  exact ⟨_, _, this⟩

theorem forward_of_dominates (hg : g.WellFormed) (hroot : g.Rooted root) (hw : w ∈ g.ids)
    (h : Dominates g.Leads root v w) : ReflTransGen (Forward g.Leads root) v w := by
  obtain ⟨num, par, T⟩ := exists_tree hg root
  exact T.forward_of_dominates (hroot.2 w hw) h

namespace IsHead

/-- The nodes of a region are reached from its head without leaving the region. -/
theorem inside_reach (hg : g.WellFormed) (hroot : g.Rooted root) (hv : IsHead g root h ρ n v)
    (hw : w ∈ g.ids) (hwn : ρ w = n) : ReflTransGen (fun a b => g.Leads a b ∧ ρ b = n) v w := by
  have hreach := hroot.2 w hw
  clear hw
  induction hreach with
  | refl =>
    have := hv.dominates root (hg.entry_mem root hroot.1) hwn [root] (.single root)
    rw [List.mem_singleton.1 this]
  | @tail u w _ huw ih =>
    by_cases hu : ρ u = n
    · exact (ih hu).tail ⟨huw, hwn⟩
    · rw [hv.entered u w huw hu hwn]

end IsHead

namespace IsQuotient

/-- Walks that avoid a node come from walks that avoid the head of its region. -/
theorem avoiding_of (hq : IsQuotient g root h ρ) (hg : g.WellFormed) (hroot : g.Rooted root)
    (hv : IsHead g root h ρ m v) (hne : ρ root ≠ m)
    (hn : ReflTransGen (Avoiding h.Leads m) (ρ root) n) (hw : w ∈ g.ids) (hwn : ρ w = n) :
    ReflTransGen (Avoiding g.Leads v) root w := by
  have hregion : ∀ {k x a b : NodeId}, k ≠ m → IsHead g root h ρ k x → a ∈ g.ids → ρ a = k →
      ReflTransGen (Avoiding g.Leads v) b x → ReflTransGen (Avoiding g.Leads v) b a := by
    intro k x a b hk hx ha hak hb
    refine hb.trans (ReflTransGen.mono (fun c d hcd => ⟨hcd.1, ?_⟩) _ _
      (hx.inside_reach hg hroot ha hak))
    rintro rfl
    exact hk (hcd.2.symm.trans hv.inside)
  induction hn generalizing w with
  | refl =>
    obtain ⟨x, hx⟩ := hq.head (ρ root) (hq.maps root (hg.entry_mem root hroot.1))
    have hmem := hx.dominates root (hg.entry_mem root hroot.1) rfl [root] (.single root)
    obtain rfl := List.mem_singleton.1 hmem
    exact hregion hne hx hw hwn .refl
  | @tail k n _ hkn ih =>
    by_cases heq : k = n
    · exact ih hw (hwn.trans heq.symm)
    · obtain ⟨a, b, hab, hak, hbn⟩ := (hq.leads_iff k n heq).1 hkn.1
      obtain ⟨ha, hb⟩ := hg.closed.mem hab
      obtain ⟨x, hx⟩ := hq.head n (hbn ▸ hq.maps b hb)
      obtain rfl := hx.entered a b hab (fun h => heq (hak.symm.trans h)) hbn
      refine hregion hkn.2 hx hw hwn ((ih ha hak).tail ⟨hab, ?_⟩)
      rintro rfl
      exact hkn.2 (hbn.symm.trans hv.inside)

/-- A forward step between regions is a forward step of the quotient. -/
theorem forward (hq : IsQuotient g root h ρ) (hg : g.WellFormed) (hroot : g.Rooted root)
    (hvw : Forward g.Leads root v w) (hne : ρ v ≠ ρ w) : Forward h.Leads (ρ root) (ρ v) (ρ w) := by
  obtain ⟨x, hx⟩ := hq.head (ρ w) (hq.maps w (hg.closed.mem hvw.1).2)
  obtain rfl := hx.entered v w hvw.1 hne rfl
  refine ⟨(hq.leads_iff _ _ hne).2 ⟨v, w, hvw.1, rfl, rfl⟩, ?_⟩
  obtain ⟨hrw, hreach⟩ := not_dominates_iff.1 hvw.2
  exact not_dominates_iff.2 ⟨(hq.avoiding hg hroot hx hrw .refl).1,
    (hq.avoiding hg hroot hx hrw hreach).2⟩

/-- A forward step of a quotient comes from forward steps between the heads. -/
theorem forward_of (hq : IsQuotient g root h ρ) (hg : g.WellFormed) (hroot : g.Rooted root)
    (hnm : Forward h.Leads (ρ root) n m) (hv : IsHead g root h ρ n v) (hw : IsHead g root h ρ m w) :
    TransGen (Forward g.Leads root) v w := by
  obtain ⟨a, b, hab, han, hbm⟩ := (hq.leads_iff n m hnm.ne).1 hnm.1
  obtain ⟨ha, hb⟩ := hg.closed.mem hab
  obtain rfl := hw.entered a b hab (fun h => hnm.ne (han.symm.trans h)) hbm
  obtain ⟨hrm, hreach⟩ := not_dominates_iff.1 hnm.2
  have hstep : Forward g.Leads root a b := by
    refine ⟨hab, not_dominates_iff.2 ⟨?_, hq.avoiding_of hg hroot hw hrm hreach ha han⟩⟩
    rintro rfl
    exact hrm hbm
  exact TransGen.tail' (forward_of_dominates hg hroot ha (hv.dominates a ha han)) hstep

theorem reducible (hq : IsQuotient g root h ρ) (hg : g.WellFormed) (hroot : g.Rooted root)
    (hclosed : h.toDigraph.Closed) (hred : Reducible g.Leads root) :
    Reducible h.Leads (ρ root) := by
  have hlift : ∀ {n m v w : NodeId}, TransGen (Forward h.Leads (ρ root)) n m →
      IsHead g root h ρ n v → IsHead g root h ρ m w → TransGen (Forward g.Leads root) v w := by
    intro n m v w hnm hv hw
    induction hnm generalizing w with
    | single hnm => exact hq.forward_of hg hroot hnm hv hw
    | tail _ hkm ih =>
      obtain ⟨x, hx⟩ := hq.head _ (hclosed.mem hkm.1).1
      exact (ih hx).trans (hq.forward_of hg hroot hkm hx hw)
  intro n hcycle
  obtain ⟨m, hnm, -⟩ := TransGen.head'_iff.1 hcycle
  obtain ⟨v, hv⟩ := hq.head n (hclosed.mem hnm.1).1
  exact hred v (hlift hcycle hv hv)

theorem reducible_of (hq : IsQuotient g root h ρ) (hg : g.WellFormed) (hroot : g.Rooted root)
    (hred : Reducible h.Leads (ρ root)) (rank : NodeId → Nat)
    (hrank : ∀ v w, Forward g.Leads root v w → ρ v = ρ w → rank v < rank w) :
    Reducible g.Leads root := by
  have hchain : ∀ {v w : NodeId}, TransGen (Forward g.Leads root) v w →
      ρ v = ρ w ∧ rank v < rank w ∨ TransGen (Forward h.Leads (ρ root)) (ρ v) (ρ w) := by
    intro v w hvw
    have hone : ∀ {a b : NodeId}, Forward g.Leads root a b →
        ρ a = ρ b ∧ rank a < rank b ∨ Forward h.Leads (ρ root) (ρ a) (ρ b) := by
      intro a b hab
      by_cases heq : ρ a = ρ b
      · exact .inl ⟨heq, hrank a b hab heq⟩
      · exact .inr (hq.forward hg hroot hab heq)
    induction hvw with
    | single hvw => exact (hone hvw).imp_right .single
    | tail _ huw ih =>
      rcases ih with ⟨heq, hlt⟩ | hchain
      · rcases hone huw with ⟨heq', hlt'⟩ | hstep
        · exact .inl ⟨heq.trans heq', hlt.trans hlt'⟩
        · exact .inr (heq ▸ .single hstep)
      · rcases hone huw with ⟨heq', -⟩ | hstep
        · exact .inr (heq' ▸ hchain)
        · exact .inr (hchain.tail hstep)
  intro v hcycle
  rcases hchain hcycle with ⟨-, hlt⟩ | hchain
  · exact Nat.lt_irrefl _ hlt
  · exact hred _ hchain

end IsQuotient

/-! ## Steps -/

variable {p : Primitive NodeId} {T : Template NodeId} {is : List Interval}

theorem rank_lt_of_at (hs : T.Sound) (hat : T.At (g.outline root))
    (hvw : Forward g.Leads root v w) (hv : v ∈ T.members) (hw : w ∈ T.members) :
    T.rank v < T.rank w := by
  have hentry : w ≠ T.entry := by
    rintro rfl
    exact hvw.2 (dominates_of_at hs hat hv)
  obtain ⟨F, harcs, hF⟩ := hat.split hs
  have hmem : (v, w) ∈ T.inner := by
    have : (v, w) ∈ T.inner + F := harcs ▸ mem_ends.2 hvw.1
    exact (Multiset.mem_add.1 this).resolve_right fun hf => hentry ((hF _ hf).2 hw)
  have hexit := (hs.inner_mem _ hmem).2.2
  unfold Template.rank
  by_cases hve : v = T.entry
  · rw [if_pos hve, if_neg hentry]
    split <;> omega
  · rw [if_neg hve, if_neg hexit, if_neg hentry, if_pos (hs.inner_exit _ hmem hve hentry)]
    omega

/-- Before the contraction of a primitive a graph is reducible exactly if it is afterwards. -/
theorem reducible_iff_of_contracts (hg : g.WellFormed) (hroot : g.Rooted root)
    (hT : T ∈ p.templates) (hat : T.At (g.outline root)) (hc : Contracts g p.region n h)
    (hq : IsQuotient g root h (p.region.absorb n)) :
    Reducible g.Leads root ↔ Reducible h.Leads (p.region.absorb n root) := by
  refine ⟨hq.reducible hg hroot hc.wellFormed.closed, fun hred =>
    hq.reducible_of hg hroot hred T.rank fun v w hvw heq => ?_⟩
  obtain ⟨hv, hw⟩ := hg.closed.mem hvw.1
  have hmem := (Primitive.region_of_template hT).1
  unfold Region.absorb at heq
  by_cases hvr : v ∈ p.region.members
  · by_cases hwr : w ∈ p.region.members
    · exact rank_lt_of_at (Primitive.sound hT hat.nodup) hat hvw ((hmem v).1 hvr) ((hmem w).1 hwr)
    · rw [if_pos hvr, if_neg hwr] at heq
      exact absurd (heq ▸ hw) hc.fresh
  · by_cases hwr : w ∈ p.region.members
    · rw [if_neg hvr, if_pos hwr] at heq
      exact absurd (heq ▸ hv) hc.fresh
    · rw [if_neg hvr, if_neg hwr] at heq
      exact absurd heq hvw.ne

theorem reducible_iff_of_derived (hg : g.WellFormed) (hroot : g.Rooted root)
    (his : Partitions g root [] is) {d : FlowGraph} (hd : IsDerived g is d) :
    Reducible g.Leads root ↔ Reducible d.Leads (collapse is d.ids root) := by
  have hlen := hd.length_eq
  have hq := hd.isQuotient hg hroot his
  refine ⟨hq.reducible hg hroot hd.wellFormed.closed, fun hred => hq.reducible_of hg hroot hred
    (fun v => ((intervalOf? is v).bind fun j => is[j]?).elim 0 (·.members.idxOf v)) ?_⟩
  intro v w hvw heq
  obtain ⟨hv, hw⟩ := hg.closed.mem hvw.1
  obtain ⟨j, hj⟩ := his.intervalOf_some (hroot.2 w hw)
  obtain ⟨hj', hwj⟩ := Partitions.mem_of_intervalOf hj
  have hvj : v ∈ is[j].members :=
    (his.collapse_inj hd.wellFormed.ids_nodup hlen hj' (hlen ▸ hj') (hroot.2 v hv)).1
      (heq.trans (collapse_eq hj (hlen ▸ hj')))
  have hi := List.getElem_mem hj'
  obtain ⟨before, hgrows⟩ := his.grows is[j] hi
  have hne : w ≠ is[j].header := by
    intro h
    exact hvw.2 (h ▸ his.dominates hi hvj)
  simpa [hj, his.intervalOf_eq hj' hvj, hj'] using (hgrows.entered hwj hne hvw.1).2

theorem reducible_of_size_le (hg : g.WellFormed) (hsize : g.size ≤ 1) :
    Reducible g.Leads root := by
  intro v hcycle
  obtain ⟨w, hvw, -⟩ := TransGen.head'_iff.1 hcycle
  obtain ⟨hv, hw⟩ := hg.closed.mem hvw.1
  have hsub : [v, w] ⊆ g.ids := by simp [hv, hw]
  have hnd : [v, w].Nodup := by simpa using hvw.ne
  have := (hnd.subperm hsub).length_le
  rw [Digraph.length_ids] at this
  simp only [List.length_cons, List.length_nil] at this
  omega

/-- Where loops are at the entry only, a reducible graph with several nodes has one that follows
another. -/
theorem exists_follows (hg : g.WellFormed) (hroot : g.Rooted root) (hred : Reducible g.Leads root)
    (hmore : 1 < g.size) (hloops : ∀ n, n ≠ root → ¬ g.Leads n n) :
    ∃ u v, g.Follows root u v := by
  obtain ⟨num, par, T⟩ := exists_tree hg root
  have hmem : ∀ v, v ∈ g.ids.toFinset ↔ ReflTransGen g.Leads root v := fun v => by
    rw [List.mem_toFinset]
    exact ⟨hroot.2 v, hg.closed.reach_mem (hg.entry_mem root hroot.1)⟩
  have hother : ∃ v ∈ g.ids.toFinset, v ≠ root := by
    by_contra hnot
    push Not at hnot
    have hsub : g.ids ⊆ [root] := fun v hv => by
      simpa using hnot v (List.mem_toFinset.2 hv)
    have := (hg.ids_nodup.subperm hsub).length_le
    rw [Digraph.length_ids, List.length_singleton] at this
    omega
  obtain ⟨u, v, -, hne, huv, hsole⟩ := hred.exists_sole_predecessor T hmem hloops hother
  exact ⟨u, v, hne, huv, fun w hw => hsole w (List.mem_toFinset.2 (hg.closed.mem hw).1) hw⟩

theorem IsLimit.irreducible (h : g.IsLimit) (hg : g.WellFormed) (hroot : g.Rooted root)
    (hmore : 1 < g.size) (hloops : ∀ n, n ≠ root → ¬ g.Leads n n) : ¬ Reducible g.Leads root := by
  intro hred
  obtain ⟨u, v, hfollows⟩ := exists_follows hg hroot hred hmore hloops
  exact (isLimit_iff hg hroot).1 h u v hfollows

end FlowGraph

namespace Progress

variable {s s' : Progress} {root : NodeId}

theorem Descends.reducible_iff (h : Descends s s') (hv : s.graph.Validated) :
    s.graph.IsReducible ↔ s'.graph.IsReducible := by
  obtain ⟨hg, root, hroot⟩ := hv
  cases h with
  | advance ha =>
    cases ha with
    | quiet hq => rw [hq.graph]
    | merge hm =>
      obtain ⟨⟨T, hT, hat⟩, hc, hq, -⟩ := hm.spec hg hroot
      rw [hroot.isReducible_iff, (hq.rooted hroot).isReducible_iff]
      exact FlowGraph.reducible_iff_of_contracts hg hroot hT hat hc hq
  | derive hd =>
    obtain ⟨hpart, hderived⟩ := hd.spec hg hroot
    have hroot' := (hderived.isQuotient hg hroot hpart).rooted hroot
    rw [hroot.isReducible_iff, hroot'.isReducible_iff]
    exact FlowGraph.reducible_iff_of_derived hg hroot hpart hderived

theorem Descends.run_reducible_iff (h : ReflTransGen Descends s s') (hv : s.graph.Validated) :
    s'.graph.Validated ∧ (s.graph.IsReducible ↔ s'.graph.IsReducible) :=
  invariant (P := fun t => s.graph.IsReducible ↔ t.graph.IsReducible)
    (fun hv hd hiff => hiff.trans (hd.reducible_iff hv)) h hv Iff.rfl

theorem Limit.irreducible {g : FlowGraph} (h : s.Limit g) (hv : s.graph.Validated)
    (hroot : g.entry = some root) (hloops : ∀ n, n ≠ root → ¬ g.Leads n n) :
    ¬ s.graph.IsReducible := by
  obtain ⟨hg, root', hroot'⟩ := hv
  rw [hroot'.isReducible_iff]
  refine h.isLimit.irreducible hg hroot' h.large fun n hn => ?_
  rcases h.source with heq | hnone
  · have hsame : root' = root := Option.some.inj (hroot'.1.symm.trans (heq ▸ hroot))
    rw [heq]
    exact hloops n (hsame ▸ hn)
  · exact hnone n

end Progress

namespace FlowGraph

variable {g : FlowGraph}

/-- The reduction by levels decides whether a graph that passes the check is reducible. It ends
normally or stops as incomplete. If it ends normally, the graph is reducible; if it stops, the graph
is irreducible or a node that is not the entry leads to itself. -/
theorem reduceByIntervals_decides (hg : g.WellFormed) (hvalid : g.validate = .ok ()) :
    ∃ root r, g.entry = some root ∧ g.reduceByIntervals = .ok r ∧
      (r.failure = none ∧ Reducible g.Leads root ∨
        (∃ e, r.failure = some (.incomplete e)) ∧
          (¬ Reducible g.Leads root ∨ ∃ n, n ≠ root ∧ g.Leads n n)) := by
  obtain ⟨root, hroot⟩ := (validate_eq_ok hg.closed).1 hvalid
  have hv : g.Validated := ⟨hg, root, hroot⟩
  refine ⟨root, _, hroot.1, reduceByIntervals_eq hvalid, ?_⟩
  obtain ⟨hruns, hends⟩ := Progress.byLevels_ends (s := Progress.start g) hv
  obtain ⟨hv', hiff⟩ := Progress.Descends.run_reducible_iff hruns hv
  have hiff' := hroot.isReducible_iff.symm.trans hiff
  rcases hends with ⟨hok, hsize⟩ | ⟨s', heq, hlimit⟩
  · obtain ⟨hg', root', hroot'⟩ := hv'
    exact .inl ⟨hok, hiff'.2 (hroot'.isReducible_iff.2 (reducible_of_size_le hg' hsize))⟩
  · refine .inr ⟨⟨_, by rw [heq]; rfl⟩, ?_⟩
    by_cases hloops : ∃ n, n ≠ root ∧ g.Leads n n
    · exact .inr hloops
    · simp only [not_exists, not_and] at hloops
      rw [heq] at hv' hiff'
      exact .inl fun hred => hlimit.irreducible hv' hroot.1 hloops (hiff'.1 hred)

theorem whileLoop_decides :
    whileLoop.WellFormed ∧ whileLoop.validate = .ok () ∧
      ∃ root r, whileLoop.entry = some root ∧ whileLoop.reduceByIntervals = .ok r ∧
        (r.failure = none ∧ Reducible whileLoop.Leads root ∨
          (∃ e, r.failure = some (.incomplete e)) ∧
            (¬ Reducible whileLoop.Leads root ∨ ∃ n, n ≠ root ∧ whileLoop.Leads n n)) :=
  ⟨ofWords_wellFormed _, whileLoop_validate,
    reduceByIntervals_decides (ofWords_wellFormed _) whileLoop_validate⟩

end FlowGraph

end Structuring
