import Structuring.Proofs.Graph.Semidominator

/-!
# Reducible flow graphs

* `Forward` — the steps that do not lead back to a vertex that dominates where they start.
* `Reducible` — there is no cycle of such steps.
* `reducible_of_rank` — a graph that goes up, but for loops, is reducible.
* `DepthFirstTree.forward_of_dominates` — a vertex is reached by forward steps from all vertices that
  dominate it.
* `Reducible.exists_sole_predecessor` — where there are loops at the root only, some vertex is entered
  from a single one.
-/

namespace Structuring

open Relation

variable {α : Type} {r : α → α → Prop} {root u v w : α}

/-- A step to a vertex that does not dominate the one where the step starts. -/
def Forward (r : α → α → Prop) (root : α) (u v : α) : Prop := r u v ∧ ¬ Dominates r root v u

def Reducible (r : α → α → Prop) (root : α) : Prop := ∀ v, ¬ TransGen (Forward r root) v v

theorem Forward.ne (h : Forward r root u v) : u ≠ v := fun heq => h.2 (heq ▸ dominates_self)

theorem reducible_of_rank (rank : α → Nat) (h : ∀ u v, r u v → u = v ∨ rank u < rank v) :
    Reducible r root := by
  intro v hcycle
  have hup : TransGen (· < ·) (rank v) (rank v) :=
    hcycle.lift rank fun a b hab => (h a b hab.1).resolve_left hab.ne
  rw [transGen_eq_self] at hup
  exact Nat.lt_irrefl _ hup

namespace DepthFirstTree

variable {num : α → Nat} {par : α → α → Prop}

theorem forward_of_par (T : DepthFirstTree r root num par) (hu : ReflTransGen r root u)
    (h : par u v) : Forward r root u v := by
  refine ⟨(T.step h).1, fun hdom => ?_⟩
  have := T.anc_le (T.anc_of_dominates hu hdom)
  have := (T.step h).2
  omega

theorem forward_of_dominates (T : DepthFirstTree r root num par) (hw : ReflTransGen r root w)
    (h : Dominates r root v w) : ReflTransGen (Forward r root) v w := by
  have hv := h.reach hw
  have hanc := T.anc_of_dominates hw h
  clear h hw
  induction hanc with
  | refl => exact .refl
  | tail hvu huw ih => exact ih.tail (T.forward_of_par (hv.trans (T.anc_reach hvu)) huw)

theorem dominates_antisymm (T : DepthFirstTree r root num par) (hv : ReflTransGen r root v)
    (hvw : Dominates r root v w) (hwv : Dominates r root w v) : v = w := by
  by_contra hne
  have := T.anc_lt (T.anc_of_dominates hv hwv) (Ne.symm hne)
  have := T.anc_le (T.anc_of_dominates (hwv.reach hv) hvw)
  omega

end DepthFirstTree

/-- A relation without cycles has a minimal element in every finite set that is not empty. -/
theorem exists_minimal_of_acyclic {r : α → α → Prop} (h : ∀ v, ¬ TransGen r v v) {s : Finset α}
    (hs : s.Nonempty) : ∃ v ∈ s, ∀ u ∈ s, ¬ r u v := by
  let below : s → s → Prop := fun a b => TransGen r a b
  have : IsTrans s below := ⟨fun _ _ _ => TransGen.trans⟩
  have : Std.Irrefl below := ⟨fun a => h a⟩
  obtain ⟨a, ha⟩ := hs
  obtain ⟨v, -, hv⟩ :=
    (Finite.wellFounded_of_trans_of_irrefl below).has_min Set.univ ⟨⟨a, ha⟩, trivial⟩
  exact ⟨v, v.2, fun u hu huv => hv ⟨u, hu⟩ trivial (.single huv)⟩

/-- Where there are loops at the root only, a reducible graph with another vertex has one that is
entered from a single vertex. -/
theorem Reducible.exists_sole_predecessor {num : α → Nat} {par : α → α → Prop}
    (T : DepthFirstTree r root num par) (h : Reducible r root) {s : Finset α}
    (hs : ∀ v, v ∈ s ↔ ReflTransGen r root v) (hloops : ∀ v, v ≠ root → ¬ r v v)
    (hmore : ∃ v ∈ s, v ≠ root) :
    ∃ u v, v ∈ s ∧ v ≠ root ∧ r u v ∧ ∀ w ∈ s, r w v → w = u := by
  classical
  let below : α → Finset α := fun v => s.filter fun w => StrictlyDominates r root v w
  have hbelow : ∀ {v w}, w ∈ below v ↔ w ∈ s ∧ StrictlyDominates r root v w :=
    fun {_ _} => Finset.mem_filter
  -- a vertex that dominates others, of which none dominates others
  obtain ⟨x, hx, hmin⟩ : ∃ x ∈ s, (below x).Nonempty ∧ ∀ y ∈ below x, below y = ∅ := by
    have hroot : root ∈ s.filter fun v => (below v).Nonempty := by
      obtain ⟨v, hv, hne⟩ := hmore
      exact Finset.mem_filter.2
        ⟨(hs root).2 .refl, v, hbelow.2 ⟨hv, Ne.symm hne, root_dominates⟩⟩
    obtain ⟨x, hx, hmin⟩ := Finset.exists_min_image _ (fun v => (below v).card) ⟨root, hroot⟩
    obtain ⟨hx, hne⟩ := Finset.mem_filter.1 hx
    refine ⟨x, hx, hne, fun y hy => ?_⟩
    by_contra hnot
    obtain ⟨hys, hxy⟩ := hbelow.1 hy
    refine Nat.not_lt.2 (hmin y (Finset.mem_filter.2 ⟨hys, Finset.nonempty_iff_ne_empty.2 hnot⟩))
      (Finset.card_lt_card ?_)
    refine (Finset.ssubset_iff_of_subset fun w hw => ?_).2 ⟨y, hy, fun hyy => (hbelow.1 hyy).2.1 rfl⟩
    obtain ⟨hws, hyw⟩ := hbelow.1 hw
    refine hbelow.2 ⟨hws, fun hxw => ?_, hxy.2.trans hyw.2⟩
    exact hxy.1 (T.dominates_antisymm ((hs x).1 hx) hxy.2 (hxw ▸ hyw.2))
  obtain ⟨hne, hleaf⟩ := hmin
  obtain ⟨v, hv, hfirst⟩ := exists_minimal_of_acyclic h hne
  obtain ⟨hvs, hxv⟩ := hbelow.1 hv
  have hvroot : v ≠ root := by
    rintro rfl
    exact hxv.1 (T.dominates_antisymm ((hs x).1 hx) hxv.2 root_dominates)
  -- whatever leads to `v` is dominated by `x`, and all steps between vertices below `x` are forward
  have hsole : ∀ w ∈ s, r w v → w = x := by
    intro w hw hwv
    by_contra hwx
    have hwbelow : w ∈ below x := hbelow.2 ⟨hw, Ne.symm hwx, hxv.2.of_step hwv hxv.1⟩
    refine hfirst w hwbelow ⟨hwv, fun hdom => ?_⟩
    by_cases heq : v = w
    · exact hloops v hvroot (heq ▸ hwv)
    · exact absurd (hbelow.2 ⟨hw, heq, hdom⟩) (hleaf v hv ▸ Finset.notMem_empty w)
  obtain ⟨w, hwv, hw⟩ : ∃ w, r w v ∧ ReflTransGen r root w := by
    obtain ⟨w, hwv, hw⟩ := T.parent ((hs v).1 hvs) hvroot
    exact ⟨w, (T.step hwv).1, hw⟩
  exact ⟨x, v, hvs, hvroot, hsole w ((hs w).2 hw) hwv ▸ hwv, hsole⟩

end Structuring
