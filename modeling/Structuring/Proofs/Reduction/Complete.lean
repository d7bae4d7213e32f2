import Structuring.Proofs.Reduction.Endless
import Structuring.Proofs.Reduction.Run
import Structuring.Proofs.Reduction.Search

/-!
# What the reduction by hammocks reduces

* `FlowGraph.Collapses` — some sequence of contractions of primitives leads to a single node.
* `FlowGraph.outline_of_contracts` — the contraction of a graph is the contraction of its outline.
* `FlowGraph.SealsLoop` — a conditional return whose body is the only way out of a loop.
* `FlowGraph.reduceByHammocks_complete` — a graph that collapses is reduced to a single node, if and
  only if no such return is contracted on the way.
* `FlowGraph.collapses_of_reduceByHammocks` — whatever is reduced to a single node collapses.
* `FlowGraph.longLoop_stuck` — a graph for which this makes a difference.
-/

namespace Structuring

open Relation

namespace FlowGraph

variable {g h : FlowGraph} {root n : NodeId} {p : Primitive NodeId} {T : Template NodeId}

theorem leads_outline {u v : NodeId} : (g.outline root).Leads u v ↔ g.Leads u v := mem_ends

theorem leads_outline_eq : (g.outline root).Leads = g.Leads := by
  funext u v
  exact propext leads_outline

theorem valid_outline (hg : g.WellFormed) (hroot : g.Rooted root) : (g.outline root).Valid where
  closed huv := by
    simpa [outline] using hg.closed.mem (leads_outline.1 huv)
  entry_mem := List.mem_toFinset.2 (hg.entry_mem root hroot.1)
  reach v hv := by
    rw [leads_outline_eq]
    exact hroot.2 v (List.mem_toFinset.1 hv)

/-- Gives the node of a contraction the name of its entry. -/
def restore (n entry v : NodeId) : NodeId := if v = n then entry else v

theorem restore_of_ne (entry : NodeId) {v : NodeId} (h : v ≠ n) : restore n entry v = v := if_neg h

/-- The ends of the links after a contraction: those of the links from outside, and those of the links
out of the exit, which are moved to the entry. -/
theorem ends_contracted {r : Region} {ls : Multiset (Link NodeId)}
    (hfresh : ∀ l ∈ ls, l.source ≠ n ∧ l.target ≠ n)
    (hentered : ∀ l ∈ ls, l.source ∉ r.members ∨ r.exit? = some l.source →
      l.target ∈ r.members → l.target = r.entry)
    (hinner : ∀ l ∈ ls, l.source ∈ r.members → r.exit? ≠ some l.source → l.target ∈ r.members)
    (hentry : r.entry ∈ r.members) (hexit : ∀ x, r.exit? = some x → x ∈ r.members) :
    ((r.contracted n ls).map Link.ends).map (Prod.map (restore n r.entry) (restore n r.entry)) =
      (ls.map Link.ends).filter (·.1 ∉ r.members) +
        (r.exit?.elim 0 (outs (ls.map Link.ends))).map fun v => (r.entry, v) := by
  induction ls using Multiset.induction_on with
  | empty => cases r.exit? <;> rfl
  | cons l ls ih =>
    have hmem : ∀ {l'}, l' ∈ ls → l' ∈ l ::ₘ ls := Multiset.mem_cons_of_mem
    have hself := Multiset.mem_cons_self l ls
    have hsplit : ∀ A B : Multiset (NodeId × NodeId),
        (r.exit?.elim 0 (outs (A + B))).map (fun v => (r.entry, v)) =
          (r.exit?.elim 0 (outs A)).map (fun v => (r.entry, v)) +
            (r.exit?.elim 0 (outs B)).map fun v => (r.entry, v) := by
      intro A B
      cases r.exit? with
      | none => rfl
      | some x => simp
    rw [← Multiset.singleton_add, contracted_add, Multiset.map_add, Multiset.map_add,
      Multiset.map_add, Multiset.filter_add, hsplit,
      ih (fun l' h => hfresh l' (hmem h)) (fun l' h => hentered l' (hmem h))
        fun l' h => hinner l' (hmem h)]
    rw [add_add_add_comm]
    congr 1
    obtain ⟨s, t, a⟩ := l
    have hf := hfresh _ hself
    have he := hentered _ hself
    have hi := hinner _ hself
    simp only at hf he hi
    have hsn := restore_of_ne r.entry hf.1
    have htn := restore_of_ne r.entry hf.2
    have hnn : restore n r.entry n = r.entry := if_pos rfl
    have hnone : r.exit? ≠ some s → r.exit?.elim 0 (outs ({(s, t)} : Multiset _)) = 0 := by
      intro hx
      cases hxe : r.exit? with
      | none => rfl
      | some x =>
        have hne : s ≠ x := fun heq => hx (heq ▸ hxe)
        simp [hne]
    by_cases hs : s ∈ r.members
    · by_cases hx : r.exit? = some s
      · by_cases ht : t ∈ r.members
        · obtain rfl := he (.inr hx) ht
          simp [Region.contracted, Link.ends, Multiset.filter_singleton, hs, ht, hx, hnn]
        · simp [Region.contracted, Link.ends, Multiset.filter_singleton, hs, ht, hx, hnn, htn]
      · simp [Region.contracted, Link.ends, Multiset.filter_singleton, hs, hi hs hx, hx, hnone hx]
    · have hx : r.exit? ≠ some s := fun heq => hs (hexit s heq)
      by_cases ht : t ∈ r.members
      · obtain rfl := he (.inl hs) ht
        simp [Region.contracted, Link.ends, Multiset.filter_singleton, hs, ht, hx, hnn, hsn,
          hnone hx]
      · have hte : t ≠ r.entry := fun heq => ht (heq ▸ hentry)
        simp [Region.contracted, Link.ends, Multiset.filter_singleton, hs, ht, hx, hsn, htn, hte,
          hnone hx]

theorem outline_of_contracts (hg : g.WellFormed) (hroot : g.Rooted root) (hT : T ∈ p.templates)
    (hat : T.At (g.outline root)) (hc : Contracts g p.region n h) :
    (h.outline (p.region.absorb n root)).map (restore n T.entry) = (g.outline root).contract T := by
  have hs := Primitive.sound hT hat.nodup
  obtain ⟨hmem, hentry, hexit⟩ := Primitive.region_of_template hT
  have hfresh : ∀ v ∈ g.ids, restore n T.entry v = v := fun v hv =>
    restore_of_ne _ fun heq => hc.fresh (heq ▸ hv)
  have hself : restore n T.entry n = T.entry := if_pos rfl
  have hmem_ids : ∀ v ∈ T.members, v ∈ g.ids := fun v hv => List.mem_toFinset.1 (hat.mem_nodes v hv)
  refine Outline.ext ?_ ?_ ?_
  · ext w
    simp only [Outline.map, outline, Finset.mem_image, List.mem_toFinset, hc.mem_ids, hmem,
      Outline.mem_contract]
    constructor
    · rintro ⟨v, rfl | ⟨hv, hvT⟩, rfl⟩
      · rw [hself]
        exact ⟨hmem_ids _ hs.entry_mem, fun _ => rfl⟩
      · rw [hfresh v hv]
        exact ⟨hv, fun hm => absurd hm hvT⟩
    · rintro ⟨hw, hwT⟩
      by_cases hm : w ∈ T.members
      · exact ⟨n, .inl rfl, by rw [hself, hwT hm]⟩
      · exact ⟨w, .inr ⟨hw, hm⟩, hfresh w hw⟩
  · obtain ⟨F, hF, hrest⟩ := hat.split hs
    have hlead : ∀ {l : Link NodeId}, l ∈ g.links → g.Leads l.source l.target := fun {l} hl =>
      Digraph.leads_iff.2 ⟨l.attributes, hl⟩
    rw [Outline.contract_arcs_eq hs hat]
    simp only [Outline.map, outline, ends, hc.links, Outline.exits, ← hentry, ← hexit, ← hmem]
    refine ends_contracted (fun l hl => ?_) (fun l hl hout hm => ?_) (fun l hl hm hx => ?_) ?_ ?_
    · obtain ⟨hsrc, htgt⟩ := hg.closed.mem (hlead hl)
      exact ⟨fun heq => hc.fresh (heq ▸ hsrc), fun heq => hc.fresh (heq ▸ htgt)⟩
    · rw [hmem] at hout hm
      rw [hentry]
      by_cases hsrc : l.source ∈ T.members
      · have hx := (hout.resolve_left fun hnot => hnot hsrc)
        by_contra hne
        have hinner := Outline.inner_of_entered hat (leads_outline.2 (hlead hl)) hm hne
        exact (hs.inner_mem _ hinner).2.2 (hexit ▸ hx)
      · exact hat.entered hs (leads_outline.2 (hlead hl)) hsrc hm
    · rw [hmem] at hm ⊢
      rw [hexit] at hx
      exact (hs.inner_mem _ (Outline.inner_of_leaving hat (leads_outline.2 (hlead hl)) hm hx)).2.1
    · rw [hmem, hentry]
      exact hs.entry_mem
    · intro x hx
      exact (hmem x).2 (hs.exit_mem x (hexit ▸ hx)).1
  · simp only [Outline.map, outline, Outline.contract, Region.absorb, hmem]
    split
    · next hm =>
      rw [hself]
      exact (hat.entry_eq hm).symm
    · exact hfresh root (hg.entry_mem root hroot.1)

theorem entry_gone (hT : T ∈ p.templates) (hat : T.At (g.outline root))
    (hc : Contracts g p.region n h) :
    ∀ v ∈ (h.outline (p.region.absorb n root)).nodes, v ≠ T.entry := by
  have hs := Primitive.sound hT hat.nodup
  have hmem := (Primitive.region_of_template hT).1
  rintro v hv rfl
  have hentry := hat.mem_nodes _ hs.entry_mem
  rcases (hc.mem_ids T.entry).1 (List.mem_toFinset.1 hv) with heq | ⟨-, hvr⟩
  · exact hc.fresh (heq ▸ List.mem_toFinset.1 hentry)
  · exact hvr ((hmem _).2 hs.entry_mem)

theorem restore_restore (hT : T ∈ p.templates) (hat : T.At (g.outline root))
    (hc : Contracts g p.region n h) :
    Set.LeftInvOn (restore T.entry n) (restore n T.entry)
      (h.outline (p.region.absorb n root)).nodes := by
  intro v hv
  by_cases hvn : v = n
  · subst hvn
    simp [restore]
  · rw [restore_of_ne _ hvn, restore_of_ne _ (entry_gone hT hat hc v hv)]

/-- What does not depend on names is told of the graph after a contraction from the outlines. -/
theorem iff_of_contracts {P : Outline NodeId → Prop}
    (hmap : ∀ {G : Outline NodeId} {f : NodeId → NodeId}, P G → G.Valid → Set.InjOn f G.nodes →
      P (G.map f))
    (hg : g.WellFormed) (hroot : g.Rooted root) (hT : T ∈ p.templates)
    (hat : T.At (g.outline root)) (hc : Contracts g p.region n h)
    (hroot' : h.Rooted (p.region.absorb n root)) :
    P (h.outline (p.region.absorb n root)) ↔ P ((g.outline root).contract T) := by
  have hvalid := valid_outline hc.wellFormed hroot'
  have hback := restore_restore hT hat hc
  have houtline := outline_of_contracts hg hroot hT hat hc
  constructor
  · intro hP
    rw [← houtline]
    exact hmap hP hvalid hback.injOn
  · intro hP
    have hs := Primitive.sound hT hat.nodup
    have hnodes : (((g.outline root).contract T).nodes : Set NodeId) =
        restore n T.entry '' (h.outline (p.region.absorb n root)).nodes := by
      rw [← houtline]
      exact Finset.coe_image
    have hinj : Set.InjOn (restore T.entry n) ((g.outline root).contract T).nodes := by
      rw [hnodes]
      exact hback.rightInvOn_image.injOn
    rw [← hvalid.map_map_cancel hback, houtline]
    exact hmap hP ((valid_outline hg hroot).contract hs hat) hinj

theorem folds_iff_of_contracts (hg : g.WellFormed) (hroot : g.Rooted root) (hT : T ∈ p.templates)
    (hat : T.At (g.outline root)) (hc : Contracts g p.region n h)
    (hroot' : h.Rooted (p.region.absorb n root)) :
    (h.outline (p.region.absorb n root)).Folds ↔ ((g.outline root).contract T).Folds :=
  iff_of_contracts Outline.Folds.map hg hroot hT hat hc hroot'

theorem endless_iff_of_contracts (hg : g.WellFormed) (hroot : g.Rooted root)
    (hT : T ∈ p.templates) (hat : T.At (g.outline root)) (hc : Contracts g p.region n h)
    (hroot' : h.Rooted (p.region.absorb n root)) :
    (∃ v, (h.outline (p.region.absorb n root)).Endless v) ↔
      ∃ v, ((g.outline root).contract T).Endless v :=
  iff_of_contracts (P := fun G => ∃ v, G.Endless v) (fun ⟨_, hv⟩ hG hinj => ⟨_, hv.map hG hinj⟩)
    hg hroot hT hat hc hroot'

/-! ## Graphs that collapse -/

/-- The nodes in the roles of a primitive pass its test. -/
def admits (g : FlowGraph) (p : Primitive NodeId) : Bool :=
  match g.dominatorTree .semidominators with
  | .ok t => p.holds g t
  | .error _ => false

/-- Some sequence of contractions, each of a primitive whose test the graph passes as it then stands,
leads to a single node. -/
inductive Collapses : FlowGraph → Prop where
  | single {g : FlowGraph} : g.size ≤ 1 → Collapses g
  | merge {g h : FlowGraph} {p : Primitive NodeId} {name : Option String} {n : NodeId} :
      g.admits p = true → g.merge p.region name = (.ok n, h) → Collapses h → Collapses g

theorem Collapses.of_merge (p : Primitive NodeId) (name : Option String) (n : NodeId)
    (hadmits : g.admits p = true) (hn : (g.merge p.region name).1 = .ok n)
    (hc : (g.merge p.region name).2.Collapses) : g.Collapses :=
  .merge hadmits (Prod.ext hn rfl) hc

theorem admits_iff (hg : g.WellFormed) (hroot : g.Rooted root) :
    g.admits p = true ↔ ∃ T ∈ p.templates, T.At (g.outline root) := by
  obtain ⟨t, ht, htells⟩ := dominatorTree_spec hg.closed hroot.1 (hg.entry_mem root hroot.1)
  rw [← holds_iff hg hroot htells]
  unfold admits
  rw [ht]

theorem Collapses.folds (hc : Collapses g) (hg : g.WellFormed) (hroot : g.Rooted root) :
    (g.outline root).Folds := by
  induction hc generalizing root with
  | @single g hsize =>
    refine .single (le_trans (List.toFinset_card_le _) ?_)
    rwa [Digraph.length_ids]
  | merge hadmits hrun _ ih =>
    obtain ⟨T, hT, hat⟩ := (admits_iff hg hroot).1 hadmits
    obtain ⟨n, h, hrun', hc, hq, -⟩ := merge_isQuotient hg hroot hT hat _
    obtain ⟨hn, rfl⟩ := Prod.mk.inj (hrun'.symm.trans hrun)
    cases hn
    have hroot' := hq.rooted hroot
    exact .step hT hat ((folds_iff_of_contracts hg hroot hT hat hc hroot').1
      (ih hc.wellFormed hroot'))

/-- No node of a graph that collapses is in a loop that is never left. -/
theorem Collapses.not_endless (hc : Collapses g) (hg : g.WellFormed) (hroot : g.Rooted root) :
    ¬ ∃ v, (g.outline root).Endless v := by
  induction hc generalizing root with
  | @single g hsize =>
    rintro ⟨v, hv⟩
    refine (valid_outline hg hroot).not_endless (le_trans (List.toFinset_card_le _) ?_) hv
    rwa [Digraph.length_ids]
  | merge hadmits hrun _ ih =>
    rintro ⟨v, hv⟩
    obtain ⟨T, hT, hat⟩ := (admits_iff hg hroot).1 hadmits
    obtain ⟨n, h, hrun', hc, hq, -⟩ := merge_isQuotient hg hroot hT hat _
    obtain ⟨hn, rfl⟩ := Prod.mk.inj (hrun'.symm.trans hrun)
    cases hn
    have hroot' := hq.rooted hroot
    exact ih hc.wellFormed hroot' ((endless_iff_of_contracts hg hroot hT hat hc hroot').2
      ⟨_, hv.contract hT hat⟩)

/-- The primitive is a conditional return, and its body is the only way out of a loop: all else that
its exit leads to leads back to its condition, and the entry of the graph is not among it. -/
def SealsLoop (g : FlowGraph) (q : Primitive Value) : Prop :=
  ∃ c ∈ g.ids, ∃ b ∈ g.ids, ∃ e ∈ g.ids, q = g.located (.ifReturn c b e) ∧
    (∀ v, ReflTransGen g.Leads e v → v = b ∨ ReflTransGen g.Leads v c) ∧
    ∀ root, g.entry = some root → ¬ ReflTransGen g.Leads e root

theorem eq_of_located {c b e : NodeId} (hg : g.WellFormed) (hp : ∀ v ∈ p.players, v ∈ g.ids)
    (hq : ∀ v ∈ [c, b, e], v ∈ g.ids) (h : g.located p = g.located (.ifReturn c b e)) :
    p = .ifReturn c b e := by
  cases p with
  | ifReturn c' b' e' =>
    have heq : ∀ {u v}, u ∈ [c', b', e'] → v ∈ [c, b, e] → g.label u = g.label v → u = v :=
      fun hu hv huv => hg.eq_of_key (hp _ hu) (hq _ hv) (congrArg Value.key huv)
    obtain ⟨hc, hb, he⟩ := Primitive.ifReturn.inj h
    rw [heq (by simp) (by simp) hc, heq (by simp) (by simp) hb, heq (by simp) (by simp) he]
  | _ => cases h

theorem sealsLoop_located_iff (hg : g.WellFormed) (hroot : g.Rooted root)
    (hp : ∀ v ∈ p.players, v ∈ g.ids) :
    g.SealsLoop (g.located p) ↔ p.SealsLoop (g.outline root) := by
  unfold SealsLoop Primitive.SealsLoop
  rw [leads_outline_eq]
  constructor
  · rintro ⟨c, hc, b, hb, e, he, heq, hall, hentry⟩
    exact ⟨c, b, e, eq_of_located hg hp (by simp [hc, hb, he]) heq, hall, hentry root hroot.1⟩
  · rintro ⟨c, b, e, rfl, hall, hentry⟩
    have hmem : ∀ v ∈ [c, b, e], v ∈ g.ids := hp
    refine ⟨c, hmem c (by simp), b, hmem b (by simp), e, hmem e (by simp), rfl, hall,
      fun root' hroot' => ?_⟩
    obtain rfl := Option.some.inj (hroot.1.symm.trans hroot')
    exact hentry

end FlowGraph

namespace Progress

variable {s s' : Progress} {root : NodeId}

/-- The graph of the moment folds, and it has a loop that is never left if and only if the way out of
one has been taken. -/
def Folding (s : Progress) : Prop :=
  ∃ root, s.graph.Rooted root ∧ (s.graph.outline root).Folds ∧
    ((∃ v, (s.graph.outline root).Endless v) ↔ ∃ q ∈ s.contractions, q.1.SealsLoop q.2)

theorem Advances.folding (h : Advances s s') (hv : s.graph.Validated) (hs : s.Folding) :
    s'.Folding := by
  cases h with
  | quiet hq =>
    unfold Folding
    rwa [hq.graph, hq.contractions]
  | @merge within p n hm =>
    obtain ⟨root, hroot, hfolds, hseals⟩ := hs
    obtain ⟨⟨T, hT, hat⟩, hc, hq, -⟩ := hm.spec hv.1 hroot
    have hroot' := hq.rooted hroot
    refine ⟨_, hroot', (FlowGraph.folds_iff_of_contracts hv.1 hroot hT hat hc hroot').2
      (hfolds.contract (FlowGraph.valid_outline hv.1 hroot) hT hat), ?_⟩
    have hplayers : ∀ v ∈ p.players, v ∈ s.graph.ids := fun v hv =>
      (FlowGraph.fits_of_at hroot.1 hT hat).1.mem_ids v (mem_distinct.2 hv)
    have hp := FlowGraph.sealsLoop_located_iff hv.1 hroot hplayers
    rw [FlowGraph.endless_iff_of_contracts hv.1 hroot hT hat hc hroot', hm.contractions]
    simp only [List.mem_append, List.mem_singleton, or_and_right, exists_or, exists_eq_left]
    rw [← hseals, hp]
    constructor
    · rintro ⟨v, hv⟩
      exact Outline.exists_endless_of_contract hT hat hv
    · rintro (⟨v, hv⟩ | hseal)
      · exact ⟨_, hv.contract hT hat⟩
      · exact ⟨_, hseal.endless hT hat⟩

theorem Advances.run_folding (h : ReflTransGen Advances s s') (hv : s.graph.Validated)
    (hs : s.Folding) : s'.Folding := by
  induction h with
  | refl => exact hs
  | tail hrun hstep ih => exact hstep.folding (Advances.run hrun hv).1 ih

/-- Where no primitive is found no template stands in the graph. -/
theorem Exhausted.not_at {p : Primitive NodeId} {T : Template NodeId} (h : s.Exhausted)
    (hg : s.graph.WellFormed) (hroot : s.graph.Rooted root) (hT : T ∈ p.templates) :
    ¬ T.At (s.graph.outline root) := by
  intro hat
  obtain ⟨t, ht, hnone⟩ := h
  obtain ⟨t', ht', htells⟩ :=
    FlowGraph.dominatorTree_spec hg.closed hroot.1 (hg.entry_mem root hroot.1)
  obtain rfl : t = t' := Except.ok.inj (ht.symm.trans ht')
  have hs := Primitive.sound hT hat.nodup
  obtain ⟨-, hentry, -⟩ := Primitive.region_of_template hT
  have hmem : p.entry ∈ s.graph.ids := by
    change p.region.entry ∈ s.graph.ids
    rw [hentry]
    exact List.mem_toFinset.1 (hat.mem_nodes _ hs.entry_mem)
  exact FlowGraph.findMatch_ne_none Primitive.inside_none hmem
    ((FlowGraph.holds_iff hg hroot htells).2 ⟨T, hT, hat⟩) hnone

/-- The reduction by hammocks ends with a single node unless it leaves a loop that is never left. -/
theorem Folding.byHammocks (hs : s.Folding) (hv : s.graph.Validated) :
    (s.byHammocks.failure = none ∧ s.byHammocks.progress.graph.size = 1) ↔
      ∀ q ∈ s.byHammocks.progress.contractions, ¬ q.1.SealsLoop q.2 := by
  obtain ⟨hruns, hends⟩ := byHammocks_ends hv
  obtain ⟨root, hroot, hfolds, hseals⟩ := Advances.run_folding hruns hv hs
  have hv' := (Advances.run hruns hv).1
  have hvalid := FlowGraph.valid_outline hv'.1 hroot
  have hcard := List.toFinset_card_of_nodup hv'.1.ids_nodup
  rw [Digraph.length_ids] at hcard
  have hnever := not_congr hseals
  simp only [not_exists, not_and] at hnever
  rw [← hnever]
  rcases hends with ⟨hok, hsize⟩ | ⟨s', heq, hsize, hnone⟩
  · exact iff_of_true ⟨hok, Nat.le_antisymm hsize hv'.size_pos⟩ fun v =>
      hvalid.not_endless (hcard.trans_le hsize)
  · rw [heq] at hv' hroot hfolds hvalid hcard ⊢
    obtain ⟨v, hv⟩ := hfolds.exists_endless hvalid (hsize.trans_eq hcard.symm) fun p T hT =>
      hnone.not_at hv'.1 hroot hT
    exact iff_of_false (fun h => Option.some_ne_none _ h.1) fun h => h v hv

theorem Advances.collapses (h : Advances s s') (hv : s.graph.Validated)
    (hc : s'.graph.Collapses) : s.graph.Collapses := by
  cases h with
  | quiet hq => exact hq.graph ▸ hc
  | merge hm =>
    obtain ⟨root, hroot⟩ := hv.2
    obtain ⟨name, hrun⟩ := hm.merge
    exact .merge ((FlowGraph.admits_iff hv.1 hroot).2 (hm.spec hv.1 hroot).1) hrun hc

theorem Advances.collapses_of_run (h : ReflTransGen Advances s s') (hv : s.graph.Validated)
    (hc : s'.graph.Collapses) : s.graph.Collapses := by
  induction h with
  | refl => exact hc
  | tail hrun hstep ih => exact ih (hstep.collapses (Advances.run hrun hv).1 hc)

end Progress

namespace FlowGraph

variable {g : FlowGraph} {r : Reduced}

/-- What the reduction by hammocks reduces to a single node collapses. -/
theorem collapses_of_reduceByHammocks (hg : g.WellFormed) (hvalid : g.validate = .ok ())
    (hrun : g.reduceByHammocks = .ok r) (hsize : r.progress.graph.size = 1) : g.Collapses := by
  obtain rfl := Except.ok.inj ((reduceByHammocks_eq hvalid).symm.trans hrun)
  have hv : g.Validated := ⟨hg, (validate_eq_ok hg.closed).1 hvalid⟩
  obtain ⟨hruns, -⟩ := Progress.byHammocks_ends
    (s := (Progress.start g).say (.structuring g.shown)) hv
  exact Progress.Advances.collapses_of_run hruns hv (.single hsize.le)

/-- If some sequence of contractions reduces a graph that passes the check to a single node, then the
reduction by hammocks does so too, if and only if it never contracts a conditional return whose body
is the only way out of a loop. -/
theorem reduceByHammocks_complete (hg : g.WellFormed) (hvalid : g.validate = .ok ())
    (hc : g.Collapses) :
    ∃ r, g.reduceByHammocks = .ok r ∧ ((r.failure = none ∧ r.progress.graph.size = 1) ↔
      ∀ q ∈ r.progress.contractions, ¬ q.1.SealsLoop q.2) := by
  obtain ⟨root, hroot⟩ := (validate_eq_ok hg.closed).1 hvalid
  have hv : g.Validated := ⟨hg, root, hroot⟩
  have hstart : ((Progress.start g).say (.structuring g.shown)).Folding := by
    refine ⟨root, hroot, hc.folds hg hroot, iff_of_false (hc.not_endless hg hroot) ?_⟩
    rintro ⟨q, hq, -⟩
    cases hq
  exact ⟨_, reduceByHammocks_eq hvalid, hstart.byHammocks hv⟩

/-- A loop that is left by a return after its condition, and at its end. -/
def returnInLoop : FlowGraph := ofWords ["PC", "CR", "CB", "BC", "BQ"]

def returnInLoopReturned (name : Option String) : FlowGraph :=
  (returnInLoop.merge (Primitive.ifReturn ⟨0, 2⟩ ⟨0, 3⟩ ⟨0, 4⟩).region name).2

def returnInLoopClosed (name name' : Option String) : FlowGraph :=
  ((returnInLoopReturned name).merge (Primitive.postLoop ⟨0, 6⟩ ⟨0, 6⟩ ⟨0, 5⟩).region name').2

theorem returnInLoop_validate : returnInLoop.validate = .ok () := by cbv

theorem returnInLoop_finds (name name' : Option String) :
    returnInLoop.Finds (some (.ifReturn ⟨0, 2⟩ ⟨0, 3⟩ ⟨0, 4⟩)) ∧
      (returnInLoopReturned name).Finds (some (.postLoop ⟨0, 6⟩ ⟨0, 6⟩ ⟨0, 5⟩)) ∧
      (returnInLoopClosed name name').Finds (some (.sequence ⟨0, 1⟩ ⟨0, 7⟩)) :=
  ⟨⟨_, by cbv, by cbv⟩, ⟨_, by cbv, by cbv⟩, _, by cbv, by cbv⟩

/-- The return is contracted though its exit leads back to its condition, and a single node is left. -/
theorem returnInLoop_run :
    ∃ r, returnInLoop.reduceByHammocks = .ok r ∧ r.failure = none ∧ r.progress.graph.size = 1 ∧
      (returnInLoop, returnInLoop.located (.ifReturn ⟨0, 2⟩ ⟨0, 3⟩ ⟨0, 4⟩)) ∈
        r.progress.contractions := by
  have hg : returnInLoop.WellFormed := ofWords_wellFormed _
  have hv : returnInLoop.Validated := ⟨hg, (validate_eq_ok hg.closed).1 returnInLoop_validate⟩
  obtain ⟨name, s₁, hs₁, hsize₁, hc₁, hv₁, hrun₁⟩ := Progress.byHammocks_of_found
    (s := (Progress.start returnInLoop).say (.structuring returnInLoop.shown)) hv
    (by change 1 < returnInLoop.size; decide) (returnInLoop_finds none none).1
  replace hs₁ : s₁.graph = returnInLoopReturned name := hs₁
  replace hsize₁ : s₁.graph.size + 3 = 5 + 1 := hsize₁
  obtain ⟨name', s₂, hs₂, hsize₂, hc₂, hv₂, hrun₂⟩ := Progress.byHammocks_of_found hv₁ (by omega)
    (hs₁ ▸ (returnInLoop_finds name none).2.1)
  replace hs₂ : s₂.graph = returnInLoopClosed name name' := by
    rw [hs₂, hs₁]
    rfl
  replace hsize₂ : s₂.graph.size + 2 = s₁.graph.size + 1 := hsize₂
  obtain ⟨-, s₃, -, hsize₃, hc₃, -, hrun₃⟩ := Progress.byHammocks_of_found hv₂ (by omega)
    (hs₂ ▸ (returnInLoop_finds name name').2.2)
  replace hsize₃ : s₃.graph.size + 2 = s₂.graph.size + 1 := hsize₃
  have hsize : s₃.graph.size = 1 := by omega
  refine ⟨_, reduceByHammocks_eq returnInLoop_validate, ?_⟩
  rw [hrun₁, hrun₂, hrun₃, Progress.byHammocks, if_pos hsize.le]
  refine ⟨rfl, hsize, ?_⟩
  change _ ∈ s₃.contractions
  rw [hc₃, hc₂, hc₁, List.append_assoc]
  exact List.mem_append_left _ (List.mem_singleton_self _)

theorem returnInLoop_reduceByHammocks :
    returnInLoop.validate = .ok () ∧ returnInLoop.Collapses ∧
      ∃ r, returnInLoop.reduceByHammocks = .ok r ∧
        (returnInLoop, returnInLoop.located (.ifReturn ⟨0, 2⟩ ⟨0, 3⟩ ⟨0, 4⟩)) ∈
          r.progress.contractions ∧
        r.failure = none ∧ r.progress.graph.size = 1 ∧
          ∀ q ∈ r.progress.contractions, ¬ q.1.SealsLoop q.2 := by
  obtain ⟨r, hrun, hok, hsize, hreturn⟩ := returnInLoop_run
  have hc := collapses_of_reduceByHammocks (ofWords_wellFormed _) returnInLoop_validate hrun hsize
  obtain ⟨r', hrun', hiff⟩ := reduceByHammocks_complete (ofWords_wellFormed _)
    returnInLoop_validate hc
  obtain rfl := Except.ok.inj (hrun.symm.trans hrun')
  exact ⟨returnInLoop_validate, hc, r, hrun, hreturn, hok, hsize, hiff.1 ⟨hok, hsize⟩⟩

/-! ## A loop that is mistaken for a return -/

/-- A loop with two blocks in its body, whose condition leads to the end before it leads to them. -/
def longLoop : FlowGraph := ofWords ["PC", "CR", "CB", "BX", "XC"]

theorem longLoop_validate : longLoop.validate = .ok () := by cbv

theorem longLoop_collapses : longLoop.Collapses := by
  refine .of_merge (.sequence ⟨0, 4⟩ ⟨0, 5⟩) none ⟨0, 6⟩ (by cbv) (by cbv) ?_
  refine .of_merge (.preLoop ⟨0, 2⟩ ⟨0, 6⟩ ⟨0, 3⟩) none ⟨0, 7⟩ (by cbv) (by cbv) ?_
  refine .of_merge (.sequence ⟨0, 1⟩ ⟨0, 7⟩) none ⟨0, 8⟩ (by cbv) (by cbv) ?_
  exact .single (Nat.le_of_eq (by cbv))

/-- The loop when its condition, its end and the first block of its body have become one node. -/
def longLoopReturned (name : Option String) : FlowGraph :=
  (longLoop.merge (Primitive.ifReturn ⟨0, 2⟩ ⟨0, 3⟩ ⟨0, 4⟩).region name).2

/-- The loop when the second block has joined them. -/
def longLoopFolded (name name' : Option String) : FlowGraph :=
  ((longLoopReturned name).merge (Primitive.sequence ⟨0, 6⟩ ⟨0, 5⟩).region name').2

theorem longLoop_finds (name name' : Option String) :
    longLoop.Finds (some (.ifReturn ⟨0, 2⟩ ⟨0, 3⟩ ⟨0, 4⟩)) ∧
      (longLoopReturned name).Finds (some (.sequence ⟨0, 6⟩ ⟨0, 5⟩)) ∧
      (longLoopFolded name name').Finds none :=
  ⟨⟨_, by cbv, by cbv⟩, ⟨_, by cbv, by cbv⟩, _, by cbv, by cbv⟩

/-- The end is taken for the body of a conditional return before the body of the loop is one node. The
condition is left with an edge to itself that it never loses. -/
theorem longLoop_stuck :
    longLoop.WellFormed ∧ longLoop.validate = .ok () ∧ longLoop.Collapses ∧
      ∃ r e, longLoop.reduceByHammocks = .ok r ∧ r.failure = some (.incomplete e) ∧
        r.progress.graph.size = 2 := by
  have hg : longLoop.WellFormed := ofWords_wellFormed _
  have hv : longLoop.Validated := ⟨hg, (validate_eq_ok hg.closed).1 longLoop_validate⟩
  refine ⟨hg, longLoop_validate, longLoop_collapses, ?_⟩
  obtain ⟨name, s₁, hs₁, hsize₁, -, hv₁, hrun₁⟩ := Progress.byHammocks_of_found
    (s := (Progress.start longLoop).say (.structuring longLoop.shown)) hv
    (by change 1 < longLoop.size; decide) (longLoop_finds none none).1
  replace hs₁ : s₁.graph = longLoopReturned name := hs₁
  replace hsize₁ : s₁.graph.size + 3 = 5 + 1 := hsize₁
  obtain ⟨name', s₂, hs₂, hsize₂, -, hv₂, hrun₂⟩ := Progress.byHammocks_of_found hv₁ (by omega)
    (hs₁ ▸ (longLoop_finds name none).2.1)
  replace hs₂ : s₂.graph = longLoopFolded name name' := by
    rw [hs₂, hs₁]
    rfl
  replace hsize₂ : s₂.graph.size + 2 = s₁.graph.size + 1 := hsize₂
  have hsize : s₂.graph.size = 2 := by omega
  have hnone : s₂.Exhausted := by
    rw [Progress.Exhausted, hs₂]
    exact (longLoop_finds name name').2.2
  obtain ⟨hend, e, he⟩ := hnone.byHammocks hv₂ (by omega)
  refine ⟨_, e, reduceByHammocks_eq longLoop_validate, ?_, ?_⟩
  · rw [hrun₁, hrun₂, he]
  · rw [hrun₁, hrun₂, hend, hsize]

end FlowGraph

end Structuring
