import Structuring.Proofs.Mirror.Derived
import Structuring.Proofs.Mirror.Merge
import Structuring.Proofs.Mirror.Search
import Structuring.Proofs.Reduction.Outcome

/-!
# Reductions of mirrored graphs

Two reductions side by side: as long as their graphs are mirrored, each step of one is matched by a
step of the other, and the graphs after it are mirrored again, by a correspondence that knows the new
node.

* `Progress.Mirrors` — the states of two reductions, with all that was located and reported so far.
* `Progress.Mirrors.step` — both find nothing, or both contract corresponding primitives.
* `Progress.Mirrors.within`, `passes`, `byLevels`, `byHammocks` — whole runs.
* `Reduced.Alike` — two reductions that end alike, up to the names of the labels.
* `Method.reduce_mirrors` — the reductions of mirrored graphs end alike, and a graph and its copies are
  mirrored.
-/

namespace Structuring

namespace Primitive

variable {α β : Type}

@[simp] theorem exit?_map (f : α → β) (p : Primitive α) : (p.map f).exit? = p.exit?.map f := by
  cases p <;> rfl

theorem exit_mem_players {p : Primitive α} {a : α} (h : p.exit? = some a) : a ∈ p.players := by
  cases p <;> cases h <;> simp [players, roles]

theorem region_map {f : NodeId → NodeId} {p : Primitive NodeId}
    (hf : ∀ u ∈ p.players, ∀ v ∈ p.players, f u = f v → u = v) :
    (p.map f).region = p.region.map f := by
  simp only [region, Region.map, nodes, players_map, entry_map, exit?_map, distinct_map hf]

end Primitive

def Incomplete.map (f : Value → Value) (e : Incomplete) : Incomplete :=
  ⟨e.obstacle, e.located.map (Primitive.map f), e.remaining.map f⟩

/-- The reductions located the same kinds of primitives in the same order and reported the same
intervals, and both came to an end or both stopped as incomplete; the labels correspond by `f`. -/
structure Reduced.Alike (f : Value → Value) (r r' : Reduced) : Prop where
  located : r'.progress.located = r.progress.located.map (Primitive.map f)
  collapses : r'.progress.collapses = r.progress.collapses.map (Prod.map f (List.map f))
  failure : r.failure = none ∧ r'.failure = none ∨
    ∃ e, r.failure = some (.incomplete e) ∧ r'.failure = some (.incomplete (e.map f))

namespace FlowGraph

variable {g h : FlowGraph} {φ : NodeId → NodeId} {f : Value → Value} {p : Primitive NodeId}

theorem players_mem_within {t : DominatorTree NodeId} {ns : List NodeId}
    (hfind : g.findMatch t (some ns) = some p) :
    ∀ v ∈ p.players, v ∈ ns := fun v hv =>
  List.contains_iff_mem.1 (List.all_eq_true.1 (holds_of_findMatch hfind).1 v hv)

theorem Relabels.located (hf : Relabels f g h φ) (hp : ∀ v ∈ p.players, v ∈ g.ids) :
    h.located (p.map φ) = (g.located p).map f := by
  rw [FlowGraph.located, FlowGraph.located, Primitive.map_map, Primitive.map_map]
  exact Primitive.map_congr fun v hv => hf v (hp v hv)

theorem Relabels.labelled {i : Interval} (hf : Relabels f g h φ) (hheader : i.header ∈ g.ids)
    (hi : ∀ v ∈ i.members, v ∈ g.ids) :
    h.labelled (i.map φ) = Prod.map f (List.map f) (g.labelled i) := by
  refine Prod.ext (hf _ hheader) ?_
  simp only [FlowGraph.labelled, Interval.map, Prod.map, List.map_map]
  exact List.map_congr_left fun v hv => hf v (hi v hv)

end FlowGraph

namespace Progress

/-- The current graphs of two reductions are mirrored by `φ`, and what was located and reported so far
corresponds. -/
structure Mirrors (f : Value → Value) (s s' : Progress) (φ : NodeId → NodeId) : Prop where
  valid : s.graph.Validated
  graph : s.graph.Mirrors s'.graph φ
  labels : FlowGraph.Relabels f s.graph s'.graph φ
  located : s'.located = s.located.map (Primitive.map f)
  collapses : s'.collapses = s.collapses.map (Prod.map f (List.map f))

variable {s s' u u' : Progress} {f : Value → Value} {φ : NodeId → NodeId} {n n' : NodeId}
  {scope : Option (List NodeId)} {members : List NodeId} {is : List Interval}
  {p : Primitive NodeId}

namespace Mirrors

theorem valid' (hm : Mirrors f s s' φ) : s'.graph.Validated := hm.graph.validated hm.valid

theorem quiet (hm : Mirrors f s s' φ) (hq : Quiet s u) (hq' : Quiet s' u') : Mirrors f u u' φ := by
  obtain ⟨hvalid, hgraph, hlabels, hlocated, hcollapses⟩ := hm
  rw [← hq.graph] at hvalid
  rw [← hq.graph, ← hq'.graph] at hgraph hlabels
  exact ⟨hvalid, hgraph, hlabels, by rw [hq'.located, hq.located, hlocated],
    by rw [hq'.collapses, hq.collapses, hcollapses]⟩

/-! ## Steps -/

theorem found (hm : Mirrors f s s' φ) (hscope : ∀ ns ∈ scope, ∀ v ∈ ns, v ∈ s.graph.ids) :
    ∃ t t', s.graph.dominatorTree .semidominators = .ok t ∧
      s'.graph.dominatorTree .semidominators = .ok t' ∧
      s'.graph.findMatch t' (scope.map (List.map φ)) =
        (s.graph.findMatch t scope).map (Primitive.map φ) := by
  obtain ⟨hg, root, hroot⟩ := hm.valid
  have hroot' := hm.graph.rooted hroot
  obtain ⟨t, ht, htells⟩ :=
    FlowGraph.dominatorTree_spec hg.closed hroot.1 (hg.entry_mem root hroot.1)
  obtain ⟨t', ht', htells'⟩ := FlowGraph.dominatorTree_spec hm.graph.right.closed hroot'.1
    (hm.graph.right.entry_mem _ hroot'.1)
  exact ⟨t, t', ht, ht', hm.graph.findMatch hroot htells htells' hscope⟩

theorem merges (hm : Mirrors f s s' φ) (h : Merges s scope p n u)
    (h' : Merges s' (scope.map (List.map φ)) (p.map φ) n' u') :
    Mirrors f u u' (Function.update φ n n') := by
  obtain ⟨hg, root, hroot⟩ := hm.valid
  obtain ⟨⟨T, hT, hat⟩, hc, -⟩ := h.spec hg hroot
  obtain ⟨-, hc', -⟩ := h'.spec hm.graph.right (hm.graph.rooted hroot)
  obtain ⟨hfits, -⟩ := FlowGraph.fits_of_at hroot.1 hT hat
  have hmem : ∀ v ∈ p.players, v ∈ s.graph.ids := fun v hv =>
    hfits.mem_ids v (mem_distinct.2 hv)
  have hregion : (p.map φ).region = p.region.map φ :=
    Primitive.region_map fun a ha b hb => hm.graph.injOn (hmem a ha) (hmem b hb)
  have hexit : ∀ x, p.region.exit? = some x → x ∈ p.region.members := fun x hx =>
    mem_distinct.2 (Primitive.exit_mem_players hx)
  rw [hregion] at hc'
  obtain ⟨name, hrun⟩ := h.merge
  obtain ⟨name', hrun'⟩ := h'.merge
  rw [hregion] at hrun'
  refine ⟨h.validated hm.valid, hm.graph.merge hfits hexit hc hc' hrun hrun',
    hm.graph.merge_relabels hfits hc hc' hm.labels, ?_, ?_⟩
  · rw [h'.located, h.located, hm.located, hm.labels.located hmem, List.map_append,
      List.map_singleton]
  · rw [h'.collapses, h.collapses, hm.collapses]

theorem step (hm : Mirrors f s s' φ) (m : Method)
    (hscope : ∀ ns ∈ scope, ∀ v ∈ ns, v ∈ s.graph.ids) :
    (∃ u u', s.step m scope = .none u ∧ s'.step m (scope.map (List.map φ)) = .none u' ∧
      Quiet s u ∧ Mirrors f u u' φ) ∨
    ∃ p n n' u u', s.step m scope = .merged n u ∧
      s'.step m (scope.map (List.map φ)) = .merged n' u' ∧ Merges s scope p n u ∧
      n' ∉ s'.graph.ids ∧ Mirrors f u u' (Function.update φ n n') ∧
      u.graph.size < s.graph.size ∧ u'.graph.size < s'.graph.size := by
  obtain ⟨t, t', ht, ht', hfind⟩ := hm.found hscope
  cases hp : s.graph.findMatch t scope with
  | none =>
    rw [hp, Option.map_none] at hfind
    obtain ⟨u, hrun, hq⟩ := step_none hm.valid ht hp m
    obtain ⟨u', hrun', hq'⟩ := step_none hm.valid' ht' hfind m
    exact .inl ⟨u, u', hrun, hrun', hq, hm.quiet hq hq'⟩
  | some p =>
    rw [hp, Option.map_some] at hfind
    obtain ⟨n, u, hrun, h, hlt⟩ := step_merged hm.valid ht hp m
    obtain ⟨n', u', hrun', h', hlt'⟩ := step_merged hm.valid' ht' hfind m
    obtain ⟨hg', root', hroot'⟩ := hm.valid'
    obtain ⟨-, hc', -⟩ := h'.spec hg' hroot'
    exact .inr ⟨p, n, n', u, u', hrun, hrun', h, hc'.fresh, hm.merges h h', hlt, hlt'⟩

/-! ## Reduction within intervals -/

/-- The members that are left after corresponding contractions correspond. -/
theorem members_left (hm : Mirrors f s s' φ) (hc : Contracts s.graph p.region n u.graph)
    (hfresh' : n' ∉ s'.graph.ids) (hu : Mirrors f u u' (Function.update φ n n'))
    (hmem : ∀ v ∈ members, v ∈ s.graph.ids) :
    (members.map φ).filter u'.graph.contains ++ [n'] =
      (members.filter u.graph.contains ++ [n]).map (Function.update φ n n') := by
  have hcontains : ∀ v ∈ s.graph.ids, u'.graph.contains (φ v) = u.graph.contains v := by
    intro v hv
    rw [Bool.eq_iff_iff, Digraph.contains_iff, Digraph.contains_iff, hu.graph.ids,
      List.mem_map]
    refine ⟨fun ⟨w, hw, heq⟩ => ?_, fun hin => ⟨v, hin, FlowGraph.update_eq hc.fresh hv⟩⟩
    rcases (hc.mem_ids w).1 hw with rfl | ⟨hws, -⟩
    · rw [Function.update_self] at heq
      exact absurd (heq ▸ hm.graph.mem hv) hfresh'
    · rw [FlowGraph.update_eq hc.fresh hws] at heq
      exact hm.graph.injOn hws hv heq ▸ hw
  rw [List.map_append, List.map_singleton, Function.update_self, List.filter_map,
    FlowGraph.map_update hc.fresh fun v hv => hmem v (List.mem_of_mem_filter hv)]
  refine congrArg (fun vs => vs.map φ ++ [n']) (List.filter_congr fun v hv => ?_)
  exact hcontains v (hmem v hv)

/-- Primitives among corresponding nodes are contracted side by side. The other nodes stay, and so do
their counterparts. -/
theorem within (hm : Mirrors f s s' φ) (hmem : ∀ v ∈ members, v ∈ s.graph.ids) :
    ∃ ψ, Mirrors f (s.within members).progress (s'.within (members.map φ)).progress ψ ∧
      ∀ v ∈ s.graph.ids, v ∉ members →
        v ∈ (s.within members).progress.graph.ids ∧ ψ v = φ v := by
  induction hk : s.graph.size using Nat.strong_induction_on generalizing s s' φ members with
  | _ k ih =>
    subst hk
    unfold Progress.within
    rw [List.length_map]
    split
    · exact ⟨φ, hm, fun v hv _ => ⟨hv, rfl⟩⟩
    have hscope : ∀ ns ∈ some members, ∀ v ∈ ns, v ∈ s.graph.ids := fun ns hns =>
      Option.some.inj hns ▸ hmem
    rcases hm.step .interval hscope with ⟨u, u', hrun, hrun', hq, hu⟩ |
      ⟨p, n, n', u, u', hrun, hrun', h, hfresh', hu, hlt, hlt'⟩
    · rw [Option.map_some] at hrun'
      simp only [hrun, hrun']
      exact ⟨φ, hu, fun v hv _ => ⟨hq.graph ▸ hv, rfl⟩⟩
    · obtain ⟨hg, root, hroot⟩ := hm.valid
      obtain ⟨-, hc, -⟩ := h.spec hg hroot
      obtain ⟨t, -, hfind⟩ := h.found
      have hinside : ∀ v ∈ p.region.members, v ∈ members := fun v hv =>
        FlowGraph.players_mem_within hfind v (mem_distinct.1 hv)
      have hleft : ∀ v ∈ members.filter u.graph.contains ++ [n], v ∈ u.graph.ids := by
        intro v hv
        rcases List.mem_append.1 hv with hv | hv
        · exact Digraph.contains_iff.1 (List.of_mem_filter hv)
        · exact List.mem_singleton.1 hv ▸ (hc.mem_ids n).2 (.inl rfl)
      obtain ⟨ψ, hψ, hkeep⟩ := ih u.graph.size hlt hu hleft rfl
      rw [Option.map_some] at hrun'
      simp only [hrun, hrun', hlt, hlt', dif_pos, hm.members_left hc hfresh' hu hmem]
      refine ⟨ψ, hψ, fun v hv hout => ?_⟩
      have hne : v ≠ n := fun heq => hc.fresh (heq ▸ hv)
      obtain ⟨hin, heq⟩ := hkeep v ((hc.mem_ids v).2 (.inr ⟨hv, fun hvr => hout (hinside v hvr)⟩))
        (by simp [hout, hne])
      exact ⟨hin, heq.trans (FlowGraph.update_eq hc.fresh hv)⟩

/-- The primitives within each of some intervals are contracted side by side. -/
theorem withinEach (hm : Mirrors f s s' φ) (hheader : ∀ i ∈ is, i.header ∈ i.members)
    (hmem : ∀ i ∈ is, ∀ v ∈ i.members, v ∈ s.graph.ids)
    (hnd : (is.flatMap Interval.members).Nodup) :
    ∃ ψ, Mirrors f (s.withinEach is).progress (s'.withinEach (is.map (Interval.map φ))).progress ψ := by
  induction is generalizing s s' φ with
  | nil => exact ⟨φ, hm⟩
  | cons i is ih =>
    rw [List.flatMap_cons] at hnd
    obtain ⟨-, hnd', hdisjoint⟩ := List.nodup_append.1 hnd
    obtain ⟨ψ, hψ, hkeep⟩ := hm.within (hmem i List.mem_cons_self)
    -- the other intervals have no node in common with this one, so they are still as they were
    have hout : ∀ j ∈ is, ∀ v ∈ j.members,
        v ∈ (s.within i.members).progress.graph.ids ∧ ψ v = φ v := by
      intro j hj v hv
      refine hkeep v (hmem j (List.mem_cons_of_mem _ hj) v hv) fun hvi => ?_
      exact hdisjoint v hvi v (List.mem_flatMap.2 ⟨j, hj, hv⟩) rfl
    have hheader' : ∀ j ∈ is, j.header ∈ j.members := fun j hj =>
      hheader j (List.mem_cons_of_mem _ hj)
    have hsame : is.map (Interval.map φ) = is.map (Interval.map ψ) := by
      refine List.map_congr_left fun j hj => ?_
      rw [Interval.map, Interval.map, (hout j hj _ (hheader' j hj)).2,
        List.map_congr_left fun v hv => (hout j hj v hv).2]
    obtain ⟨hok, -⟩ := within_runs hm.valid i.members
    obtain ⟨hok', -⟩ := within_runs hm.valid' (i.map φ).members
    have hih := ih hψ hheader' (fun j hj v hv => (hout j hj v hv).1) hnd'
    simp only [Progress.withinEach, List.map_cons, hok, hok', hsame]
    exact hih

theorem partition (hm : Mirrors f s s' φ) :
    ∃ root is t t', s.partition = .ok (is, t) ∧ s'.partition = .ok (is.map (Interval.map φ), t') ∧
      t.graph.Rooted root ∧ t.graph.intervals = some is ∧ t.graph.Partitions root [] is ∧
      t'.graph.intervals = some (is.map (Interval.map φ)) ∧ Mirrors f t t' φ := by
  obtain ⟨hg, root, hroot⟩ := hm.valid
  obtain ⟨is, t, hrun, his, hpart, hq⟩ := partition_eq hg hroot
  obtain ⟨is', t', hrun', his', -, hq'⟩ :=
    partition_eq hm.graph.right (hm.graph.rooted hroot)
  obtain rfl : is.map (Interval.map φ) = is' := by
    rw [hm.graph.intervals, his] at his'
    exact Option.some.inj his'
  refine ⟨root, is, t, t', hrun, hrun', ?_, ?_, ?_, ?_, hm.quiet hq hq'⟩
  · rwa [hq.graph]
  · rwa [hq.graph]
  · rwa [hq.graph]
  · rwa [hq'.graph]

theorem pass (hm : Mirrors f s s' φ) : ∃ ψ, Mirrors f s.pass.progress s'.pass.progress ψ := by
  obtain ⟨root, is, t, t', hrun, hrun', -, -, hpart, -, ht⟩ := hm.partition
  simp only [Progress.pass, hrun, hrun']
  exact ht.withinEach (fun i hi => hpart.header_mem hi) hpart.mem_ids hpart.nodup.1

theorem passes (hm : Mirrors f s s' φ) : ∃ ψ, Mirrors f s.passes.progress s'.passes.progress ψ := by
  induction hk : s.graph.size using Nat.strong_induction_on generalizing s s' φ with
  | _ k ih =>
    subst hk
    obtain ⟨hok, -⟩ := pass_runs hm.valid
    obtain ⟨hok', -⟩ := pass_runs hm.valid'
    obtain ⟨ψ, hψ⟩ := hm.pass
    unfold Progress.passes
    simp only [hok, hok', hm.graph.size_eq, hψ.graph.size_eq]
    split
    · exact ⟨φ, hm⟩
    · split
      · next hlt => exact ih _ hlt hψ rfl
      · exact ⟨ψ, hψ⟩

/-! ## Whole reductions -/

theorem done (hm : Mirrors f s s' φ) : Reduced.Alike f s.done s'.done :=
  ⟨hm.located, hm.collapses, .inl ⟨rfl, rfl⟩⟩

theorem stuck (hm : Mirrors f s s' φ) (o : Obstacle) :
    Reduced.Alike f (s.stuck o) (s'.stuck o) := by
  refine ⟨hm.located, hm.collapses, .inr ⟨_, rfl, ?_⟩⟩
  simp only [Progress.stuck, fail, Incomplete.map, hm.located, hm.graph.labels hm.labels]

theorem byHammocks (hm : Mirrors f s s' φ) : Reduced.Alike f s.byHammocks s'.byHammocks := by
  induction hk : s.graph.size using Nat.strong_induction_on generalizing s s' φ with
  | _ k ih =>
    subst hk
    unfold Progress.byHammocks
    rw [hm.graph.size_eq]
    split
    · exact hm.done
    have hscope : ∀ ns ∈ (none : Option (List NodeId)), ∀ v ∈ ns, v ∈ s.graph.ids :=
      fun ns hns => by cases hns
    rcases hm.step .hammock hscope with ⟨u, u', hrun, hrun', -, hu⟩ |
      ⟨p, n, n', u, u', hrun, hrun', -, -, hu, hlt, hlt'⟩
    · rw [Option.map_none] at hrun'
      simp only [hrun, hrun']
      exact hu.stuck _
    · rw [Option.map_none] at hrun'
      rw [hm.graph.size_eq] at hlt'
      simp only [hrun, hrun', hlt, hlt', dif_pos]
      exact ih _ hlt hu rfl

/-- Corresponding intervals become nodes, and they are reported with corresponding labels. -/
theorem derives (hm : Mirrors f s s' φ) (h : Derives s is u)
    (h' : Derives s' (is.map (Interval.map φ)) u') :
    u'.located = u.located.map (Primitive.map f) ∧
      u'.collapses = u.collapses.map (Prod.map f (List.map f)) ∧ ∃ ψ, Mirrors f u u' ψ := by
  obtain ⟨hg, root, hroot⟩ := hm.valid
  obtain ⟨hpart, -⟩ := h.spec hg hroot
  have hlocated : u'.located = u.located.map (Primitive.map f) := by
    rw [h'.located, h.located, hm.located]
  have hcollapses : u'.collapses = u.collapses.map (Prod.map f (List.map f)) := by
    rw [h'.collapses, h.collapses, hm.collapses, List.map_append, List.filter_map, List.map_map,
      List.map_map]
    have hfilter : is.filter ((fun i => decide (1 < i.size)) ∘ Interval.map φ) =
        is.filter fun i => 1 < i.size := by
      refine List.filter_congr fun i _ => decide_eq_decide.2 ?_
      rw [Interval.size, Interval.size, Interval.map, List.length_map]
    rw [hfilter]
    refine congrArg _ (List.map_congr_left fun i hi => ?_)
    have hmem := hpart.mem_ids i (List.mem_of_mem_filter hi)
    exact hm.labels.labelled (hmem _ (hpart.header_mem (List.mem_of_mem_filter hi))) hmem
  obtain ⟨d, d', ψ, hd, hd', hψ, hlabels⟩ :=
    hm.graph.derived hroot h.intervals s.graph.tag s'.graph.tag
  obtain rfl := Except.ok.inj (hd.symm.trans h.derived)
  obtain rfl := Except.ok.inj (hd'.symm.trans h'.derived)
  exact ⟨hlocated, hcollapses, ψ, (Descends.derive h).validated hm.valid, hψ, hlabels f hm.labels,
    hlocated, hcollapses⟩

theorem byLevels (hm : Mirrors f s s' φ) : Reduced.Alike f s.byLevels s'.byLevels := by
  induction hk : s.graph.size using Nat.strong_induction_on generalizing s s' φ with
  | _ k ih =>
    subst hk
    obtain ⟨hok, -⟩ := passes_runs hm.valid
    obtain ⟨hok', -⟩ := passes_runs hm.valid'
    obtain ⟨ψ, hψ⟩ := hm.passes
    unfold Progress.byLevels
    simp only [hok, hok', hm.graph.size_eq, hψ.graph.size_eq]
    split
    · exact hm.done
    split
    · exact hψ.done
    obtain ⟨root, is, u, u', hrun, hrun', hroot, his, -, his', hu⟩ := hψ.partition
    obtain ⟨d, d', χ, hd, hd', hχ, -⟩ := hu.graph.derived hroot his u.graph.tag u'.graph.tag
    simp only [hrun, hrun', emit_graph, hd, hd', hχ.size_eq]
    generalize Notice.derived ((u.emit (collapseAll u.graph is)).earlier.length + 1) u.graph.size
      d.size = m
    generalize Notice.derived ((u'.emit (collapseAll u'.graph
      (is.map (Interval.map ψ)))).earlier.length + 1) u'.graph.size d.size = m'
    obtain ⟨hlocated, hcollapses, ξ, hnext⟩ :=
      hu.derives (derives_collapseAll m his hd) (derives_collapseAll m' his' hd')
    split
    · next hlt => exact ih _ hlt hnext rfl
    · have hsame : Mirrors f ((u.emit (collapseAll u.graph is)).say m)
          ((u'.emit (collapseAll u'.graph (is.map (Interval.map ψ)))).say m') ψ :=
        ⟨hu.valid, hu.graph, hu.labels, hlocated, hcollapses⟩
      exact hsame.stuck _

end Mirrors

end Progress

namespace Method

variable {g h : FlowGraph} {φ : NodeId → NodeId} {f : Value → Value}

/-- Both reductions accept mirrored graphs if one of them passes the check, and they end alike. -/
theorem reduce_alike (m : Method) (hm : g.Mirrors h φ) (hf : FlowGraph.Relabels f g h φ)
    (hvalid : g.validate = .ok ()) :
    ∃ r r', m.reduce g = .ok r ∧ m.reduce h = .ok r' ∧ r.Alike f r' := by
  obtain ⟨root, hroot⟩ := (FlowGraph.validate_eq_ok hm.left.closed).1 hvalid
  have hvalid' : h.validate = .ok () :=
    (FlowGraph.validate_eq_ok hm.right.closed).2 ⟨_, hm.rooted hroot⟩
  have hstart : Progress.Mirrors f (.start g) (.start h) φ := ⟨⟨hm.left, root, hroot⟩, hm, hf, rfl, rfl⟩
  cases m with
  | hammock =>
    have hsaid := hstart.quiet (Progress.quiet_say _ (.structuring g.shown))
      (Progress.quiet_say _ (.structuring h.shown))
    exact ⟨_, _, FlowGraph.reduceByHammocks_eq hvalid, FlowGraph.reduceByHammocks_eq hvalid',
      hsaid.byHammocks⟩
  | interval =>
    exact ⟨_, _, FlowGraph.reduceByIntervals_eq hvalid, FlowGraph.reduceByIntervals_eq hvalid',
      hstart.byLevels⟩

/-- A graph that passes the check is reduced like any graph that mirrors it, whatever the numbers of
nodes and edges, names, attributes, labels and the order of the edges into a node. The labels of such
a graph correspond to those of the graph, and its copies mirror it with the same labels. -/
theorem reduce_mirrors (hg : g.WellFormed) (hvalid : g.validate = .ok ()) :
    (∀ h φ, g.Mirrors h φ → (∃ f, FlowGraph.Relabels f g h φ) ∧
      ∀ f, FlowGraph.Relabels f g h φ → ∀ m : Method,
        ∃ r r', m.reduce g = .ok r ∧ m.reduce h = .ok r' ∧ r.Alike f r') ∧
      ∀ tag, ∃ h φ, g.copy tag = .ok h ∧ g.Mirrors h φ ∧ FlowGraph.Relabels id g h φ := by
  refine ⟨fun h φ hm => ⟨hm.exists_relabels, fun f hf m => m.reduce_alike hm hf hvalid⟩, ?_⟩
  obtain ⟨root, hroot⟩ := (FlowGraph.validate_eq_ok hg.closed).1 hvalid
  exact FlowGraph.copy_mirrors hg hroot.1

theorem whileLoop_reduce_mirrors :
    FlowGraph.whileLoop.WellFormed ∧ FlowGraph.whileLoop.validate = .ok () ∧
      ∃ h φ, FlowGraph.whileLoop.copy 1 = .ok h ∧ FlowGraph.whileLoop.Mirrors h φ ∧
        ∀ m : Method, ∃ r r', m.reduce FlowGraph.whileLoop = .ok r ∧ m.reduce h = .ok r' ∧
          r.Alike id r' := by
  have hg : FlowGraph.whileLoop.WellFormed := FlowGraph.ofWords_wellFormed _
  obtain ⟨hruns, hcopies⟩ := reduce_mirrors hg FlowGraph.whileLoop_validate
  obtain ⟨h, φ, hcopy, hm, hf⟩ := hcopies 1
  exact ⟨hg, FlowGraph.whileLoop_validate, h, φ, hcopy, hm, (hruns h φ hm).2 id hf⟩

end Method

end Structuring
