import Structuring.Proofs.Mirror.Run
import Structuring.Proofs.Reduction.Boundary

/-!
# The order of branches

The arms of a conditional take their roles in the order of the edges out of its head. A contraction
removes the edges into what it contracts and adds them again, so they go behind the other edges out of
their nodes.

* `FlowGraph.Contracted` — what a contraction of a primitive does to the edges out of each node.
* `Contractions` — the graphs that contractions lead to, and whose edges leave their nodes.
* `KeepsBranches` — how the edges out of a node stand to those at the start.
* `Contractions.branched` — each contraction keeps this, and so does a run of them.
* `FlowGraph.branch_order` — the order of the edges after one contraction, and of the arms of a
  conditional that is found after any number of them.
-/

namespace Structuring

open Relation

/-- The arms of a conditional that differ in their order only. -/
def Primitive.arms {α : Type} : Primitive α → List α
  | .ifElseReturn _ y n => [y, n]
  | .ifElse _ y n _ => [y, n]
  | .nWay _ cs _ => cs
  | _ => []

namespace FlowGraph

variable {g h h' : FlowGraph} {root n v b : NodeId} {t : DominatorTree NodeId} {p : Primitive NodeId}
  {a : Algorithm} {name : Option String}

/-- The nodes of a primitive became the node `n`. Edges into the entry from outside now lead to `n` and
stand behind the other edges out of their source; the edges out of the exit leave from `n`, in their
order. -/
structure Contracted (g : FlowGraph) (p : Primitive NodeId) (n : NodeId) (h : FlowGraph) : Prop where
  contracts : Contracts g p.region n h
  inside : ∀ v ∈ p.players, v ∈ g.ids
  entered : ∀ v, v ∉ p.players → ∀ w ∈ g.targetList v, w ∈ p.players → w = p.entry
  outside : ∀ v ∈ g.ids, v ∉ p.players → h.targetList v =
    (g.targetList v).filter (· ≠ p.entry) ++ List.replicate ((g.targetList v).count p.entry) n
  new : h.targetList n = match p.exit? with
    | none => []
    | some x => (g.targetList x).map (p.region.absorb n)
  rooted : ∀ root, g.Rooted root → h.Rooted (p.region.absorb n root)

theorem flatMap_leave {r : Region} (hr : r.members.Nodup) {f : NodeId → List NodeId}
    (hexit : ∀ x, r.exit? = some x → x ∈ r.members)
    (hinner : ∀ m ∈ r.members, r.exit? ≠ some m → ∀ w ∈ f m, w ∈ r.members) :
    (r.members.flatMap fun m => (f m).filterMap (r.leave n m)) = match r.exit? with
      | none => []
      | some x => (f x).map (r.absorb n) := by
  have hnone : ∀ m ∈ r.members, r.exit? ≠ some m → (f m).filterMap (r.leave n m) = [] := by
    intro m hm hne
    refine List.filterMap_eq_nil_iff.2 fun w hw => ?_
    rw [Region.leave, if_neg (not_not.2 (hinner m hm hne w hw)), if_neg hne]
  have hsome : ∀ x, r.exit? = some x → (f x).filterMap (r.leave n x) = (f x).map (r.absorb n) := by
    intro x hx
    rw [← List.filterMap_eq_map]
    refine List.filterMap_congr fun w _ => ?_
    by_cases hw : w ∈ r.members <;> simp [Region.leave, Region.absorb, hw, hx]
  cases hx : r.exit? with
  | none => exact List.flatMap_eq_nil_iff.2 fun m hm => hnone m hm (by simp [hx])
  | some x =>
    obtain ⟨before, after, hsplit⟩ := List.append_of_mem (hexit x hx)
    have hne : ∀ m ∈ before ++ after, r.exit? ≠ some m := by
      intro m hm heq
      obtain rfl := Option.some.inj (hx.symm.trans heq)
      rw [hsplit] at hr
      exact (List.nodup_middle.1 hr).notMem hm
    have hnil : ∀ ms : List NodeId, (∀ m ∈ ms, m ∈ before ++ after) →
        (ms.flatMap fun m => (f m).filterMap (r.leave n m)) = [] := by
      intro ms hms
      refine List.flatMap_eq_nil_iff.2 fun m hm => hnone m ?_ (hne m (hms m hm))
      rw [hsplit]
      exact List.mem_append.2 ((List.mem_append.1 (hms m hm)).imp_right (List.mem_cons_of_mem x))
    rw [hsplit, List.flatMap_append, List.flatMap_cons, hsome x hx,
      hnil before fun _ => List.mem_append_left _, hnil after fun _ => List.mem_append_right _,
      List.nil_append, List.append_nil]

/-- A contraction of a primitive that passes its test in a graph whose nodes can all be reached. -/
theorem merge_contracted (hg : g.WellFormed) (hroot : g.Rooted root) (ht : g.dominatorTree a = .ok t)
    (hp : p.holds g t = true) (name : Option String) :
    ∃ n h, g.merge p.region name = (.ok n, h) ∧ g.Contracted p n h := by
  obtain ⟨t', ht', htells⟩ := exists_tells hg hroot.1 a
  obtain rfl := Except.ok.inj (ht'.symm.trans ht)
  obtain ⟨T, hT, hat⟩ := (holds_iff hg hroot htells).1 hp
  obtain ⟨hfits, -⟩ := fits_of_at hroot.1 hT hat
  obtain ⟨n, h, hrun, hc, hq, -⟩ := merge_isQuotient hg hroot hT hat name
  have hplayers : ∀ v, v ∈ p.region.members ↔ v ∈ p.players := fun _ => mem_distinct
  have hborder := fun {u v} (huv : v ∈ g.targetList u) =>
    htells.border hg hroot hp (Digraph.mem_targetList.1 huv)
  have hentered : ∀ v, v ∉ p.players → ∀ w ∈ g.targetList v, w ∈ p.players → w = p.entry :=
    fun v hv w hw hwp => (hborder hw).1 hv hwp
  refine ⟨n, h, hrun, hc, fun v hv => hfits.mem_ids v ((hplayers v).2 hv), hentered,
    fun v hv hvp => ?_, ?_, fun root' hroot' => ?_⟩
  · rw [targetList_merge_old hg hrun (fun heq => hc.fresh (heq ▸ hv)) (mt (hplayers v).1 hvp)]
    congr 1
    · refine List.filter_congr fun w hw => decide_eq_decide.2 (not_congr ?_)
      exact ⟨fun hm => hentered v hvp w hw ((hplayers w).1 hm), fun heq => heq ▸ hfits.entry_mem⟩
    · rw [List.map_const', ← List.countP_eq_length_filter]
      rfl
  · rw [targetList_merge_new hg hrun hc.fresh]
    refine flatMap_leave hfits.nodup (fun x hx => (hplayers x).2 (Primitive.exit_mem_players hx))
      fun m hm hne w hw => ?_
    by_contra hout
    exact hne ((hborder hw).2.1 ((hplayers m).1 hm) (mt (hplayers w).2 hout))
  · obtain rfl := Option.some.inj (hroot.1.symm.trans hroot'.1)
    exact hq.rooted hroot

namespace Contracted

theorem absorb_of_mem (hv : v ∈ p.players) : p.region.absorb n v = n := if_pos (mem_distinct.2 hv)

theorem absorb_of_notMem (hv : v ∉ p.players) : p.region.absorb n v = v :=
  if_neg fun hm => hv (mem_distinct.1 hm)

theorem mem_ids (hc : g.Contracted p n h) (hne : v ≠ n) :
    v ∈ h.ids ↔ v ∈ g.ids ∧ v ∉ p.players := by
  have hplayers : v ∈ p.region.members ↔ v ∈ p.players := mem_distinct
  rw [hc.contracts.mem_ids, hplayers, or_iff_right hne]

theorem filter_ids (hc : g.Contracted p n h) {vs : List NodeId} (hvs : n ∉ vs) :
    vs.filter (· ∈ h.ids) = (vs.filter (· ∈ g.ids)).filter (· ∉ p.players) := by
  rw [List.filter_filter]
  refine List.filter_congr fun v hv => ?_
  rw [← Bool.decide_and, decide_eq_decide, hc.mem_ids fun heq => hvs (heq ▸ hv), and_comm]

theorem filter_ne_entry (hc : g.Contracted p n h) (hvp : v ∉ p.players) :
    (g.targetList v).filter (· ≠ p.entry) = (g.targetList v).filter (· ∉ p.players) :=
  List.filter_congr fun w hw => decide_eq_decide.2 <| not_congr
    ⟨fun heq => heq ▸ p.entry_mem_players, hc.entered v hvp w hw⟩

/-- Of what was absorbed, nothing but the new node is left. -/
theorem filter_map_absorb {q : NodeId → Prop} [DecidablePred q] (hq : ¬ q n) (vs : List NodeId) :
    (vs.map (p.region.absorb n)).filter q = vs.filter fun v => q v ∧ v ∉ p.players := by
  induction vs with
  | nil => rfl
  | cons v vs ih =>
    by_cases hv : v ∈ p.players
    · simp [ih, absorb_of_mem hv, hq, hv]
    · simp [List.filter_cons, ih, absorb_of_notMem hv, hv]

/-- The edges out of a node outside lead where they led, but for what was absorbed. -/
theorem outside_perm (hc : g.Contracted p n h) (hv : v ∈ g.ids) (hvp : v ∉ p.players) :
    (h.targetList v).Perm ((g.targetList v).map (p.region.absorb n)) := by
  have hkept : ((g.targetList v).filter (· ≠ p.entry)).map (p.region.absorb n) =
      (g.targetList v).filter (· ≠ p.entry) := by
    refine (List.map_congr_left fun w hw => ?_).trans (List.map_id _)
    obtain ⟨hmem, hne⟩ := List.mem_filter.1 hw
    exact absorb_of_notMem fun hwp => of_decide_eq_true hne (hc.entered v hvp w hmem hwp)
  have hmoved : ((g.targetList v).filter fun w => !decide (w ≠ p.entry)).map (p.region.absorb n) =
      List.replicate ((g.targetList v).count p.entry) n := by
    simp only [ne_eq, decide_not, Bool.not_not, List.filter_eq, List.map_replicate,
      absorb_of_mem p.entry_mem_players]
  rw [hc.outside v hv hvp, ← hkept, ← hmoved, ← List.map_append]
  exact (List.filter_append_perm _ _).map _

end Contracted

end FlowGraph

/-! ## Runs of contractions -/

/-- The graphs that contractions of primitives which pass their test lead to. A node `v` at the start
was absorbed into `ρ v`, and the edges out of `n` are those that left `σ n` at the start, if any. -/
inductive Contractions (g : FlowGraph) :
    FlowGraph → (NodeId → NodeId) → (NodeId → Option NodeId) → Prop where
  | start : Contractions g g id some
  | merge {h h' : FlowGraph} {ρ : NodeId → NodeId} {σ : NodeId → Option NodeId} {a : Algorithm}
      {t : DominatorTree NodeId} {p : Primitive NodeId} {name : Option String} {n : NodeId} :
      Contractions g h ρ σ → h.dominatorTree a = .ok t → p.holds h t = true →
      h.merge p.region name = (.ok n, h') →
      Contractions g h' (p.region.absorb n ∘ ρ) (Function.update σ n (p.exit?.bind σ))

/-- `u` is a node of the start, or it was made by a contraction and `w` by none before that. -/
def Precedes (g : FlowGraph) (u w : NodeId) : Prop := u ∈ g.ids ∨ w ∉ g.ids ∧ u.serial ≤ w.serial

/-- The edges out of `v` are those that left `b` at the start. Those to nodes that are still there have
kept their order; behind them, but for edges from `v` to itself, stand those to nodes made by
contractions, in the order in which these were made. -/
structure KeepsBranches (g h : FlowGraph) (ρ : NodeId → NodeId) (v b : NodeId) : Prop where
  mem : b ∈ g.ids
  absorbed : ρ b = v
  perm : (h.targetList v).Perm ((g.targetList b).map ρ)
  kept : (h.targetList v).filter (· ∈ g.ids) = (g.targetList b).filter (· ∈ h.ids)
  behind : ((h.targetList v).filter (· ≠ v)).Pairwise (Precedes g)

namespace KeepsBranches

open FlowGraph

variable {g h h' : FlowGraph} {n v x b : NodeId} {ρ : NodeId → NodeId} {p : Primitive NodeId}

theorem start (hg : g.WellFormed) (hv : v ∈ g.ids) : KeepsBranches g g id v v := by
  refine ⟨hv, rfl, by rw [List.map_id], rfl, ?_⟩
  refine List.pairwise_of_forall_mem_list fun u hu w _ => ?_
  exact .inl (targetList_mem hg (List.mem_of_mem_filter hu))

theorem outside (hk : KeepsBranches g h ρ v b) (hg : g.WellFormed) (hh : h.WellFormed)
    (hc : h.Contracted p n h') (hn : n ∉ g.ids) (hv : v ∈ h.ids) (hvp : v ∉ p.players) :
    KeepsBranches g h' (p.region.absorb n ∘ ρ) v b := by
  have hnv : n ≠ v := fun heq => hc.contracts.fresh (heq ▸ hv)
  refine ⟨hk.mem, ?_, ?_, ?_, ?_⟩
  · rw [Function.comp_apply, hk.absorbed, Contracted.absorb_of_notMem hvp]
  · rw [← List.map_map]
    exact (hc.outside_perm hv hvp).trans (hk.perm.map _)
  · have hmoved : (List.replicate ((h.targetList v).count p.entry) n).filter (· ∈ g.ids) = [] := by
      rw [List.filter_replicate, if_neg (by simpa using hn)]
    rw [hc.filter_ids fun hmem => hn (targetList_mem hg hmem), ← hk.kept, hc.outside v hv hvp,
      List.filter_append, hmoved, List.append_nil, hc.filter_ne_entry hvp, List.filter_comm]
  · rw [hc.outside v hv hvp, List.filter_append, List.filter_replicate, if_pos (by simpa using hnv),
      List.filter_comm]
    refine List.pairwise_append.2 ⟨hk.behind.filter _, ?_, fun u hu w hw => ?_⟩
    · exact List.pairwise_replicate.2 (.inr (.inr ⟨hn, Nat.le_refl _⟩))
    · obtain rfl := List.eq_of_mem_replicate hw
      have hu := targetList_mem hh (List.mem_of_mem_filter (List.mem_of_mem_filter hu))
      exact .inr ⟨hn, Nat.le_of_lt (hc.contracts.above u hu)⟩

theorem exit (hk : KeepsBranches g h ρ x b) (hg : g.WellFormed) (hc : h.Contracted p n h')
    (hn : n ∉ g.ids) (hx : p.exit? = some x) :
    KeepsBranches g h' (p.region.absorb n ∘ ρ) n b := by
  have hnew : h'.targetList n = (h.targetList x).map (p.region.absorb n) := by rw [hc.new, hx]
  have hxp := Primitive.exit_mem_players hx
  refine ⟨hk.mem, ?_, ?_, ?_, ?_⟩
  · rw [Function.comp_apply, hk.absorbed, Contracted.absorb_of_mem hxp]
  · rw [← List.map_map, hnew]
    exact hk.perm.map _
  · rw [hc.filter_ids fun hmem => hn (targetList_mem hg hmem), ← hk.kept, hnew,
      Contracted.filter_map_absorb hn, List.filter_filter]
    simp only [Bool.decide_and, Bool.and_comm]
  · -- an edge that does not lead to the new node leads outside, as it did before
    rw [hnew, Contracted.filter_map_absorb (not_not.2 rfl)]
    refine hk.behind.sublist (List.monotone_filter_right _ fun w hw => ?_)
    simp only [Bool.decide_and, Bool.and_eq_true, decide_eq_true_eq] at hw ⊢
    exact fun heq => hw.2 (heq ▸ hxp)

end KeepsBranches

/-- What a run of contractions keeps. -/
structure Branched (g h : FlowGraph) (ρ : NodeId → NodeId) (σ : NodeId → Option NodeId) : Prop where
  wellFormed : h.WellFormed
  rooted : ∃ root, h.Rooted root
  /-- Nodes that will be made have higher numbers than those of the start, also than those gone. -/
  serial_le : ∃ m ∈ h.ids, ∀ v ∈ g.ids, v.serial ≤ m.serial
  same : ∀ v ∈ h.ids, v ∈ g.ids → σ v = some v
  ended : ∀ v ∈ h.ids, σ v = none → h.targetList v = []
  branches : ∀ v ∈ h.ids, ∀ b, σ v = some b → KeepsBranches g h ρ v b

namespace Branched

open FlowGraph

variable {g h h' : FlowGraph} {root n : NodeId} {ρ : NodeId → NodeId} {σ : NodeId → Option NodeId}
  {p : Primitive NodeId}

theorem start (hg : g.WellFormed) (hroot : g.Rooted root) : Branched g g id some := by
  refine ⟨hg, ⟨root, hroot⟩, ?_, fun _ _ _ => rfl, nofun, ?_⟩
  · obtain ⟨m, hm, hmax⟩ := g.ids.toFinset.exists_max_image NodeId.serial
      ⟨root, List.mem_toFinset.2 (hg.entry_mem root hroot.1)⟩
    exact ⟨m, List.mem_toFinset.1 hm, fun v hv => hmax v (List.mem_toFinset.2 hv)⟩
  · rintro v hv b hb
    obtain rfl := Option.some.inj hb
    exact .start hg hv

theorem contract (hb : Branched g h ρ σ) (hg : g.WellFormed) (hc : h.Contracted p n h') :
    Branched g h' (p.region.absorb n ∘ ρ) (Function.update σ n (p.exit?.bind σ)) := by
  obtain ⟨m, hm, hmax⟩ := hb.serial_le
  obtain ⟨root, hroot⟩ := hb.rooted
  have hn : n ∉ g.ids := fun hmem =>
    absurd (hmax n hmem) (Nat.not_le_of_lt (hc.contracts.above m hm))
  -- the new node is judged by the exit, the others by themselves
  refine ⟨hc.contracts.wellFormed, ⟨_, hc.rooted root hroot⟩,
    ⟨n, (hc.contracts.mem_ids n).2 (.inl rfl), fun v hv => ?_⟩, fun v hv hvg => ?_,
    fun v hv hnone => ?_, fun v hv b hvb => ?_⟩
  · exact (hmax v hv).trans (Nat.le_of_lt (hc.contracts.above m hm))
  · have hne : v ≠ n := fun heq => hn (heq ▸ hvg)
    rw [Function.update_of_ne hne]
    exact hb.same v ((hc.mem_ids hne).1 hv).1 hvg
  · by_cases hne : v = n
    · subst hne
      rw [Function.update_self] at hnone
      rw [hc.new]
      cases hx : p.exit? with
      | none => rfl
      | some x =>
        rw [hx, Option.bind_some] at hnone
        have hxh := hc.inside x (Primitive.exit_mem_players hx)
        simp only [hb.ended x hxh hnone, List.map_nil]
    · rw [Function.update_of_ne hne] at hnone
      obtain ⟨hvh, hvp⟩ := (hc.mem_ids hne).1 hv
      have hperm := hc.outside_perm hvh hvp
      rw [hb.ended v hvh hnone, List.map_nil] at hperm
      exact hperm.eq_nil
  · by_cases hne : v = n
    · subst hne
      rw [Function.update_self] at hvb
      obtain ⟨x, hx, hxb⟩ := Option.bind_eq_some_iff.1 hvb
      exact (hb.branches x (hc.inside x (Primitive.exit_mem_players hx)) b hxb).exit hg hc hn hx
    · rw [Function.update_of_ne hne] at hvb
      obtain ⟨hvh, hvp⟩ := (hc.mem_ids hne).1 hv
      exact (hb.branches v hvh b hvb).outside hg hb.wellFormed hc hn hvh hvp

end Branched

theorem Contractions.branched {g h : FlowGraph} {root : NodeId} {ρ : NodeId → NodeId}
    {σ : NodeId → Option NodeId} (hg : g.WellFormed) (hroot : g.Rooted root)
    (hrun : Contractions g h ρ σ) : Branched g h ρ σ := by
  induction hrun with
  | start => exact .start hg hroot
  | merge _ ht hp hmerge ih =>
    obtain ⟨root', hroot'⟩ := ih.rooted
    obtain ⟨n, h', hmerge', hc⟩ := FlowGraph.merge_contracted ih.wellFormed hroot' ht hp _
    obtain ⟨hn, rfl⟩ := Prod.mk.inj (hmerge'.symm.trans hmerge)
    cases hn
    exact ih.contract hg hc

namespace FlowGraph

variable {g h : FlowGraph} {root n : NodeId} {t : DominatorTree NodeId} {p : Primitive NodeId}
  {within : Option (List NodeId)}

/-! ## The arms of a conditional -/

theorem candidate_of_findMatch (hfind : g.findMatch t within = some p) :
    p ∈ p.kind.candidates g p.entry ∧ p.holds g t = true := by
  rw [findMatch_eq] at hfind
  obtain ⟨n, -, hn⟩ := List.exists_of_findSome?_eq_some hfind
  obtain ⟨k, -, hk⟩ := List.exists_of_findSome?_eq_some hn
  obtain ⟨hcand, -, hholds⟩ := matchAt_eq_some hk
  obtain ⟨rfl, rfl, -⟩ := candidate_spec hcand
  exact ⟨hcand, hholds⟩

/-- Where no two edges lead to the same node, the successors are the targets. -/
theorem successors_eq_targetList {ns : List NodeId} (htargets : g.targets n ns = true)
    (hns : ns.Nodup) : g.successors n = g.targetList n := by
  have hperm : (g.targetList n).Perm ns := List.isPerm_iff.1 htargets
  exact distinct_eq_self (hperm.nodup_iff.2 hns)

/-- The arms of a conditional that is found are in the order of the edges out of its head. -/
theorem arms_of_findMatch (hfind : g.findMatch t within = some p) (harms : p.arms ≠ []) :
    p.arms = (g.targetList p.entry).filter (fun w => p.exit? ≠ some w) ∧
      p.entry ∉ g.targetList p.entry := by
  obtain ⟨hcand, hholds⟩ := candidate_of_findMatch hfind
  rw [Primitive.holds_iff_countsAgree] at hholds
  obtain ⟨hcounts, -⟩ := hholds
  cases p with
  | ifElse c y x e =>
    simp only [Primitive.countsAgree, Bool.and_eq_true, allDistinct_iff] at hcounts
    obtain ⟨⟨⟨⟨⟨⟨hnd, htargets⟩, -⟩, -⟩, -⟩, -⟩, -⟩ := hcounts
    have hsuccs : g.successors c = [y, x] := by
      simp only [Primitive.kind, Primitive.entry, Kind.candidates] at hcand
      split at hcand
      · next y' x' heq =>
        obtain ⟨e', -, hp⟩ := List.mem_map.1 hcand
        cases hp
        exact heq
      · cases hcand
    rw [successors_eq_targetList htargets (by grind)] at hsuccs
    simp only [Primitive.arms, Primitive.entry, Primitive.exit?, hsuccs]
    grind
  | ifElseReturn c y x =>
    simp only [Primitive.countsAgree, Bool.and_eq_true, allDistinct_iff] at hcounts
    obtain ⟨⟨⟨⟨⟨hnd, htargets⟩, -⟩, -⟩, -⟩, -⟩ := hcounts
    have hsuccs : g.successors c = [y, x] := by
      simp only [Primitive.kind, Primitive.entry, Kind.candidates] at hcand
      split at hcand
      · next y' x' heq =>
        cases List.mem_singleton.1 hcand
        exact heq
      · cases hcand
    rw [successors_eq_targetList htargets (by grind)] at hsuccs
    simp only [Primitive.arms, Primitive.entry, Primitive.exit?, hsuccs]
    grind
  | nWay m cs e =>
    simp only [Primitive.countsAgree, Bool.and_eq_true, allDistinct_iff] at hcounts
    obtain ⟨⟨⟨⟨⟨-, hnd⟩, htargets⟩, -⟩, -⟩, -⟩ := hcounts
    obtain ⟨hm, hnd⟩ := List.nodup_cons.1 hnd
    have hsub : (if (g.successors m).contains e then e :: cs else cs).Sublist (e :: cs) := by
      split
      · exact .refl _
      · exact List.sublist_cons_self e cs
    obtain ⟨-, -, hcases⟩ := candidate_spec hcand
    have hcs := hcases m cs e rfl
    rw [successors_eq_targetList htargets (hnd.sublist hsub)] at hcs
    refine ⟨hcs.trans (List.filter_congr fun w _ => ?_), fun hmem => ?_⟩
    · simp [Primitive.exit?, eq_comm]
    exact hm (hsub.subset ((List.isPerm_iff.1 htargets).mem_iff.1 hmem))
  | _ => exact absurd rfl harms

/-- In a graph that passes the check, the contraction of a primitive that passes its test, given the
dominator tree by either algorithm, succeeds. The edges out of a node outside lead to what they led
to, in the same order, but those into the entry of the primitive now stand last and lead to the new
node.

After any number of such contractions, the edges out of a node are those that left one node at the
start: the node itself if it was there at the start. The arms of a conditional that is found are what its
head leads to, but for the exit, in the order of the edges: first the nodes of the start, in the order
of the edges that led to them then, and then the nodes that were made by contractions, in the order in
which they were made. -/
theorem branch_order (hg : g.WellFormed) (hvalid : g.validate = .ok ()) :
    (∀ (a : Algorithm) (t : DominatorTree NodeId) (p : Primitive NodeId) (name : Option String),
      g.dominatorTree a = .ok t → p.holds g t = true →
      ∃ n h, g.merge p.region name = (.ok n, h) ∧ n ∉ g.ids ∧
        ∀ v ∈ g.ids, v ∉ p.players → h.targetList v =
          (g.targetList v).filter (· ≠ p.entry) ++
            List.replicate ((g.targetList v).count p.entry) n) ∧
    ∀ h ρ σ, Contractions g h ρ σ → (∀ v ∈ h.ids, v ∈ g.ids → σ v = some v) ∧
      ∀ (t : DominatorTree NodeId) (within : Option (List NodeId)) (p : Primitive NodeId),
        h.findMatch t within = some p → p.arms ≠ [] →
        p.arms = (h.targetList p.entry).filter (fun w => p.exit? ≠ some w) ∧
        ∃ b ∈ g.ids, σ p.entry = some b ∧ ρ b = p.entry ∧
          p.arms.Perm (((g.targetList b).map ρ).filter fun w => p.exit? ≠ some w) ∧
          p.arms.filter (· ∈ g.ids) =
            (g.targetList b).filter (fun w => w ∈ h.ids ∧ p.exit? ≠ some w) ∧
          p.arms.Pairwise (Precedes g) := by
  obtain ⟨root, hroot⟩ := (validate_eq_ok hg.closed).1 hvalid
  refine ⟨fun a t p name ht hp => ?_, fun h ρ σ hrun => ?_⟩
  · obtain ⟨n, h, hmerge, hc⟩ := merge_contracted hg hroot ht hp name
    exact ⟨n, h, hmerge, hc.contracts.fresh, hc.outside⟩
  have hb := hrun.branched hg hroot
  refine ⟨hb.same, fun t within p hfind harms => ?_⟩
  obtain ⟨heq, hself⟩ := arms_of_findMatch hfind harms
  refine ⟨heq, ?_⟩
  obtain ⟨w, hw⟩ := List.exists_mem_of_ne_nil _ harms
  rw [heq] at hw
  have hleads := Digraph.mem_targetList.1 (List.mem_of_mem_filter hw)
  have hmem := (hb.wellFormed.closed.mem hleads).1
  cases hσ : σ p.entry with
  | none =>
    rw [hb.ended _ hmem hσ] at hw
    cases hw
  | some b =>
    have hk := hb.branches _ hmem b hσ
    have hproper : (h.targetList p.entry).filter (· ≠ p.entry) = h.targetList p.entry :=
      List.filter_eq_self.2 fun u hu => decide_eq_true fun hup => hself (hup ▸ hu)
    refine ⟨b, hk.mem, rfl, hk.absorbed, ?_, ?_, ?_⟩
    · rw [heq]
      exact hk.perm.filter _
    · rw [heq, List.filter_comm, hk.kept, List.filter_filter]
      simp only [Bool.decide_and, Bool.and_comm]
    · rw [heq, ← hproper]
      exact hk.behind.filter _

/-- A conditional whose first arm is made up of two blocks. -/
def longArm : FlowGraph := ofWords ["AB", "AC", "BD", "DE", "CE"]

theorem longArm_validate : longArm.validate = .ok () := by cbv

/-- The two blocks become one, which does not stand where the first of them stood, and the conditional
is found with its arms exchanged. -/
theorem longArm_exchanged :
    longArm.WellFormed ∧ longArm.validate = .ok () ∧
      ∃ t, longArm.dominatorTree .semidominators = .ok t ∧
        (Primitive.sequence ⟨0, 2⟩ ⟨0, 4⟩).holds longArm t = true ∧
        longArm.targetList ⟨0, 1⟩ = [⟨0, 2⟩, ⟨0, 3⟩] ∧
        ∃ h t',
          longArm.merge (Primitive.sequence ⟨0, 2⟩ ⟨0, 4⟩).region none = (.ok ⟨0, 6⟩, h) ∧
          h.targetList ⟨0, 1⟩ ≠
            (longArm.targetList ⟨0, 1⟩).map (fun w => if w = ⟨0, 2⟩ then ⟨0, 6⟩ else w) ∧
          h.dominatorTree .semidominators = .ok t' ∧
          h.findMatch t' none = some (.ifElse ⟨0, 1⟩ ⟨0, 3⟩ ⟨0, 6⟩ ⟨0, 5⟩) :=
  ⟨ofWords_wellFormed _, longArm_validate, _, by cbv, by cbv, by cbv, _, _, by cbv, by cbv; decide,
    by cbv, by cbv⟩

theorem longArm_branch_order :
    longArm.WellFormed ∧ longArm.validate = .ok () ∧
      ∃ h ρ σ t, Contractions longArm h ρ σ ∧
        h.findMatch t none = some (.ifElse ⟨0, 1⟩ ⟨0, 3⟩ ⟨0, 6⟩ ⟨0, 5⟩) ∧
        ρ ⟨0, 2⟩ = ⟨0, 6⟩ ∧ σ ⟨0, 1⟩ = some ⟨0, 1⟩ ∧ h.targetList ⟨0, 1⟩ = [⟨0, 3⟩, ⟨0, 6⟩] ∧
        [⟨0, 3⟩, ⟨0, 6⟩].Pairwise (Precedes longArm) := by
  have hg : longArm.WellFormed := ofWords_wellFormed _
  obtain ⟨-, hrun⟩ := branch_order hg longArm_validate
  obtain ⟨t, ht, hp⟩ : ∃ t, longArm.dominatorTree .semidominators = .ok t ∧
      (Primitive.sequence ⟨0, 2⟩ ⟨0, 4⟩).holds longArm t = true := ⟨_, by cbv, by cbv⟩
  obtain ⟨h, t', hmerge, htargets, -, hfind⟩ : ∃ h t',
      longArm.merge (Primitive.sequence ⟨0, 2⟩ ⟨0, 4⟩).region none = (.ok ⟨0, 6⟩, h) ∧
      h.targetList ⟨0, 1⟩ = [⟨0, 3⟩, ⟨0, 6⟩] ∧
      h.dominatorTree .semidominators = .ok t' ∧
      h.findMatch t' none = some (.ifElse ⟨0, 1⟩ ⟨0, 3⟩ ⟨0, 6⟩ ⟨0, 5⟩) :=
    ⟨_, _, by cbv, by cbv, by cbv, by cbv⟩
  have hc := Contractions.start.merge ht hp hmerge
  obtain ⟨-, harms⟩ := hrun h _ _ hc
  obtain ⟨-, b, -, -, -, -, -, horder⟩ := harms t' none _ hfind (by simp [Primitive.arms])
  exact ⟨hg, longArm_validate, h, _, _, t', hc, hfind, by decide, by decide, htargets, horder⟩

end FlowGraph

end Structuring
