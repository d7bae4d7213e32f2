import Structuring.Proofs.Reduction.Comparison
import Structuring.Proofs.Reduction.Complete
import Structuring.Proofs.Reduction.Outcome
import Structuring.Proofs.Reduction.Reducibility

/-!
# What becomes of the cycles

A contraction keeps the cycles of a graph, except those inside a loop, which is then recorded. A change
of level keeps those that leave an interval. So a cycle of a graph at the start can be told from the
record, or from an edge that leads from a node to itself and is left when a level ends.

* `Cyclic` — some walk leads back to where it starts.
* `Primitive.inner_target_ne` — no arc inside a primitive that is not a loop leads to its entry.
* `Merges.cyclic_iff`, `Derives.cyclic_of_derived` — how the cycles before and after a step are related.
* `Progress.Loops` — what a run keeps.
* `FlowGraph.reductions_account_for_cycles` — what the record at the end says of the cycles.
* `FlowGraph.endlessLoop_not_recorded` — a cycle that the record alone does not show.
-/

namespace Structuring

open Relation

def Cyclic {α : Type} (r : α → α → Prop) : Prop := ∃ v, TransGen r v v

/-- A walk is mapped to a walk, unless all its steps are mapped to one point. -/
theorem transGen_map_or {α β : Type} {r i : α → α → Prop} {s : β → β → Prop} {f : α → β}
    (h : ∀ u v, r u v → s (f u) (f v) ∨ f u = f v ∧ i u v) {u v : α} (huv : TransGen r u v) :
    TransGen s (f u) (f v) ∨ f u = f v ∧ TransGen i u v := by
  induction huv with
  | single huv => exact (h _ _ huv).imp .single (And.imp_right .single)
  | tail _ hvw ih =>
    rcases ih with hs | ⟨heq, hi⟩
    · rcases h _ _ hvw with hs' | ⟨heq', -⟩
      · exact .inl (hs.tail hs')
      · exact .inl (heq' ▸ hs)
    · rcases h _ _ hvw with hs' | ⟨heq', hi'⟩
      · exact .inl (.single (heq ▸ hs'))
      · exact .inr ⟨heq.trans heq', hi.tail hi'⟩

/-! ## Cycles inside a primitive -/

def Kind.isLoop : Kind → Bool
  | .preLoop | .postLoop => true
  | _ => false

section

variable {α : Type} [DecidableEq α] {p : Primitive α} {T : Template α}

namespace Primitive

omit [DecidableEq α] in
@[simp] theorem kind_map {β : Type} (f : α → β) (p : Primitive α) : (p.map f).kind = p.kind := by
  cases p <;> rfl

theorem inner_cyclic (hp : p.kind.isLoop = true) (hT : T ∈ p.templates) :
    Cyclic fun u v => (u, v) ∈ T.inner := by
  cases p with
  | preLoop c b e =>
    obtain rfl := List.mem_singleton.1 hT
    exact ⟨c, .tail (.single (b := b) (by simp)) (by simp)⟩
  | postLoop b c e =>
    simp only [templates] at hT
    split at hT
    · obtain rfl := List.mem_singleton.1 hT
      exact ⟨c, .single (by simp)⟩
    · obtain rfl := List.mem_singleton.1 hT
      exact ⟨b, .tail (.single (b := c) (by simp)) (by simp)⟩
  | _ => cases hp

theorem inner_target_ne (hp : p.kind.isLoop = false) (hT : T ∈ p.templates) (hnd : T.members.Nodup)
    {u v : α} (huv : (u, v) ∈ T.inner) : v ≠ T.entry := by
  cases p with
  | preLoop => cases hp
  | postLoop => cases hp
  | nWay h cs e =>
    obtain ⟨direct, -, -, rfl⟩ := mem_templates_nWay.1 hT
    simp only [List.nodup_cons, List.mem_cons, not_or] at hnd
    cases direct <;> simp [mem_fan] at huv <;> grind
  | _ =>
    obtain rfl := List.mem_singleton.1 hT
    simp at huv hnd
    grind

end Primitive

omit [DecidableEq α] in
/-- Where no arc leads to the entry there is no cycle inside: an arc from another member leads to the
exit, which no arc leaves from. -/
theorem Template.Sound.not_cyclic (hs : T.Sound) (hne : ∀ u v, (u, v) ∈ T.inner → v ≠ T.entry) :
    ¬ Cyclic fun u v => (u, v) ∈ T.inner := by
  rintro ⟨v, hv⟩
  obtain ⟨u, -, huv⟩ := TransGen.tail'_iff.1 hv
  obtain ⟨w, hvw, hwv⟩ := TransGen.head'_iff.1 hv
  have hexit : T.exit? = some w := hs.inner_exit _ hvw (hne u v huv) (hne v w hvw)
  rcases hwv.cases_head with rfl | ⟨x, hwx, -⟩
  · exact (hs.inner_mem _ hvw).2.2 hexit
  · exact (hs.inner_mem _ hwx).2.2 hexit

/-! ## Cycles of outlines -/

namespace Outline

variable {G : Outline α}

theorem cyclic_of_contract (hs : T.Sound) (h : T.At G) (hc : Cyclic (G.contract T).Leads) :
    Cyclic G.Leads := by
  obtain ⟨v, hv⟩ := hc
  refine ⟨v, TransGen.lift' id (fun a b hab => ?_) _ _ hv⟩
  obtain ⟨w, rfl, hwb, -⟩ := (leads_contract hs h).1 hab
  exact .tail' (reach_rename hs h w) hwb

theorem cyclic_contract (hs : T.Sound) (h : T.At G)
    (hne : ∀ u v, (u, v) ∈ T.inner → v ≠ T.entry) (hc : Cyclic G.Leads) :
    Cyclic (G.contract T).Leads := by
  obtain ⟨F, hF, hrest⟩ := h.split hs
  obtain ⟨v, hv⟩ := hc
  -- the members become the entry, and an arc that is not inside is kept
  have hstep : ∀ a b, G.Leads a b →
      (G.contract T).Leads (if a ∈ T.members then T.entry else a)
        (if b ∈ T.members then T.entry else b) ∨
      (if a ∈ T.members then T.entry else a) = (if b ∈ T.members then T.entry else b) ∧
        (a, b) ∈ T.inner := by
    intro a b hab
    rcases Multiset.mem_add.1 (show (a, b) ∈ T.inner + F from hF ▸ hab) with hin | hout
    · obtain ⟨ha, hb, -⟩ := hs.inner_mem _ hin
      exact .inr ⟨by rw [if_pos ha, if_pos hb], hin⟩
    · obtain ⟨ha, hb⟩ := hrest _ hout
      have hb' : (if b ∈ T.members then T.entry else b) = b := ite_eq_right_iff.2 fun hm => (hb hm).symm
      refine .inl ((leads_contract hs h).2 ⟨a, ?_, hb'.symm ▸ hab, ha, hb'.symm ▸ hb⟩)
      split
      · next hm => exact Template.rename_exit (ha hm)
      · next hm => exact Template.rename_of_notMem hs hm
  rcases transGen_map_or hstep hv with hcycle | ⟨-, hcycle⟩
  · exact ⟨_, hcycle⟩
  · exact absurd ⟨v, hcycle⟩ (hs.not_cyclic hne)

omit [DecidableEq α] in
theorem cyclic_map {β : Type} [DecidableEq β] (f : α → β) (hc : Cyclic G.Leads) :
    Cyclic (G.map f).Leads := by
  obtain ⟨v, hv⟩ := hc
  exact ⟨f v, TransGen.lift f (fun _ _ hab => Multiset.mem_map_of_mem (Prod.map f f) hab) _ _ hv⟩

end Outline

end

namespace FlowGraph

variable {g h : FlowGraph} {root n m v w : NodeId} {ρ : NodeId → NodeId} {p : Primitive NodeId}
  {T : Template NodeId} {is : List Interval}

/-- Whether there is a cycle after a contraction can be told from the outlines. -/
theorem cyclic_iff_of_contracts (hg : g.WellFormed) (hroot : g.Rooted root) (hT : T ∈ p.templates)
    (hat : T.At (g.outline root)) (hc : Contracts g p.region n h)
    (hroot' : h.Rooted (p.region.absorb n root)) :
    Cyclic h.Leads ↔ Cyclic ((g.outline root).contract T).Leads := by
  have hvalid := valid_outline hc.wellFormed hroot'
  have hleads : (h.outline (p.region.absorb n root)).Leads = h.Leads := leads_outline_eq
  rw [← hleads, ← outline_of_contracts hg hroot hT hat hc]
  refine ⟨Outline.cyclic_map _, fun hcycle => ?_⟩
  rw [← hvalid.map_map_cancel (restore_restore hT hat hc)]
  exact Outline.cyclic_map _ hcycle

/-- A walk in a quotient in which no node leads to itself is followed from head to head. -/
theorem IsQuotient.walk_heads (hq : IsQuotient g root h ρ) (hg : g.WellFormed)
    (hroot : g.Rooted root) (hh : h.WellFormed) (hloops : ∀ n, ¬ h.Leads n n)
    (hnm : TransGen h.Leads n m) (hv : IsHead g root h ρ n v) (hw : IsHead g root h ρ m w) :
    TransGen g.Leads v w := by
  have hstep : ∀ {n m v w}, h.Leads n m → IsHead g root h ρ n v → IsHead g root h ρ m w →
      TransGen g.Leads v w := by
    intro n m v w hnm hv hw
    have hne : n ≠ m := fun heq => hloops m (heq ▸ hnm)
    obtain ⟨a, b, hab, ha, hb⟩ := (hq.leads_iff n m hne).1 hnm
    obtain rfl := hw.entered a b hab (fun heq => hne (ha.symm.trans heq)) hb
    have hreach := hv.inside_reach hg hroot (hg.closed.mem hab).1 ha
    exact .tail' (ReflTransGen.mono (fun _ _ => And.left) _ _ hreach) hab
  induction hnm generalizing w with
  | single hnm => exact hstep hnm hv hw
  | tail _ hkm ih =>
    obtain ⟨x, hx⟩ := hq.head _ (hh.closed.mem hkm).1
    exact (ih hx).trans (hstep hkm hx hw)

/-- Where each interval has a single node, a cycle of the graph is one of the derived graph, or an edge
from a node to itself. -/
theorem IsDerived.cyclic_or (hd : IsDerived g is h) (hg : g.WellFormed) (hroot : g.Rooted root)
    (his : Partitions g root [] is) (hsmall : ∀ i ∈ is, i.size ≤ 1) (hc : Cyclic g.Leads) :
    Cyclic h.Leads ∨ ∃ v, g.Leads v v := by
  have hq := hd.isQuotient hg hroot his
  obtain ⟨v, hv⟩ := hc
  have hstep : ∀ a b, g.Leads a b → h.Leads (collapse is h.ids a) (collapse is h.ids b) ∨
      collapse is h.ids a = collapse is h.ids b ∧ (a = b ∧ g.Leads a b) := by
    intro a b hab
    obtain ⟨ha, hb⟩ := hg.closed.mem hab
    by_cases heq : collapse is h.ids a = collapse is h.ids b
    · obtain ⟨i, hi, hai⟩ := his.cover (hroot.2 a ha)
      obtain ⟨j, hj, rfl⟩ := List.getElem_of_mem hi
      have hj' : j < h.ids.length := hd.length_eq ▸ hj
      have hinj := fun {x} hx =>
        his.collapse_inj hd.wellFormed.ids_nodup hd.length_eq hj hj' (v := x) hx
      have hbi := (hinj (hroot.2 b hb)).1 (heq.symm.trans ((hinj (hroot.2 a ha)).2 hai))
      exact .inr ⟨heq, eq_of_length_le_one (hsmall _ hi) hai hbi, hab⟩
    · exact .inl ((hq.leads_iff _ _ heq).2 ⟨a, b, hab, rfl, rfl⟩)
  rcases transGen_map_or hstep hv with hcycle | ⟨-, hcycle⟩
  · exact .inl ⟨_, hcycle⟩
  · obtain ⟨w, ⟨rfl, hww⟩, -⟩ := TransGen.head'_iff.1 hcycle
    exact .inr ⟨_, hww⟩

/-- In a graph with a single node a cycle is an edge from that node to itself. -/
theorem WellFormed.leads_self (hg : g.WellFormed) (hsize : g.size ≤ 1) (hc : Cyclic g.Leads) :
    ∃ v, g.Leads v v := by
  obtain ⟨v, hv⟩ := hc
  obtain ⟨w, hvw, -⟩ := TransGen.head'_iff.1 hv
  obtain ⟨hvg, hwg⟩ := hg.closed.mem hvw
  rw [← Digraph.length_ids] at hsize
  obtain rfl := eq_of_length_le_one hsize hvg hwg
  exact ⟨v, hvw⟩

end FlowGraph

/-! ## Cycles in the course of a run -/

namespace Progress

variable {s s' : Progress} {g : FlowGraph} {root n : NodeId} {within : Option (List NodeId)}
  {p : Primitive NodeId} {is : List Interval}

def RecordsLoop (s : Progress) : Prop := ∃ p ∈ s.located, p.kind.isLoop = true

/-- On some level there is a node that leads to itself, as the level is left. -/
def LeavesLoop (s : Progress) : Prop := ∃ h ∈ s.levels, ∃ n, h.Leads n n

/-- A contraction makes no cycle. That of a loop shows that there is one, and any other one keeps
them. -/
theorem Merges.cyclic_iff (h : Merges s within p n s') (hg : s.graph.WellFormed)
    (hroot : s.graph.Rooted root) :
    Cyclic s.graph.Leads ↔ p.kind.isLoop = true ∨ Cyclic s'.graph.Leads := by
  obtain ⟨⟨T, hT, hat⟩, hc, hq, -⟩ := h.spec hg hroot
  have hs := Primitive.sound hT hat.nodup
  have hiff := FlowGraph.cyclic_iff_of_contracts hg hroot hT hat hc (hq.rooted hroot)
  have hleads : (s.graph.outline root).Leads = s.graph.Leads := FlowGraph.leads_outline_eq
  rw [hiff, ← hleads]
  constructor
  · intro hcycle
    cases hp : p.kind.isLoop with
    | true => exact .inl rfl
    | false => exact .inr (Outline.cyclic_contract hs hat
        (fun _ _ => Primitive.inner_target_ne hp hT hat.nodup) hcycle)
  · rintro (hp | hcycle)
    · obtain ⟨F, hF, -⟩ := hat.split hs
      obtain ⟨v, hv⟩ := Primitive.inner_cyclic hp hT
      refine ⟨v, TransGen.mono (fun a b hab => ?_) _ _ hv⟩
      rw [Outline.Leads, hF]
      exact Multiset.mem_add.2 (.inl hab)
    · exact Outline.cyclic_of_contract hs hat hcycle

theorem Derives.cyclic_of_derived (h : Derives s is s') (hg : s.graph.WellFormed)
    (hroot : s.graph.Rooted root) (hc : Cyclic s'.graph.Leads) : Cyclic s.graph.Leads := by
  obtain ⟨hpart, hd⟩ := h.spec hg hroot
  have hq := hd.isQuotient hg hroot hpart
  obtain ⟨n, hn⟩ := hc
  obtain ⟨m, hnm, -⟩ := TransGen.head'_iff.1 hn
  obtain ⟨v, hv⟩ := hq.head n (hd.wellFormed.closed.mem hnm).1
  have hloops : ∀ n, ¬ s'.graph.Leads n n := fun n hnn => ((hd.leads n n).1 hnn).1 rfl
  exact ⟨v, hq.walk_heads hg hroot hd.wellFormed hloops hn hv hv⟩

/-- What is known of the cycles of `g` in the course of a run. Nothing that is recorded or left is made
up, and as long as no interval was reported nothing is lost. -/
structure Loops (g : FlowGraph) (s : Progress) : Prop where
  recorded : s.RecordsLoop → Cyclic g.Leads
  levels : ∀ h ∈ s.levels, Cyclic h.Leads → Cyclic g.Leads
  kept : s.collapses = [] → Cyclic g.Leads →
    s.RecordsLoop ∨ (∃ h ∈ s.earlier, ∃ n, h.Leads n n) ∨ Cyclic s.graph.Leads

theorem Loops.start (g : FlowGraph) : Loops g (.start g) := by
  refine ⟨?_, fun h hh hc => ?_, fun _ hc => .inr (.inr hc)⟩
  · rintro ⟨p, hp, -⟩
    cases hp
  · obtain rfl : h = g := by simpa [Progress.levels, Progress.start] using hh
    exact hc

theorem Loops.graph (h : Loops g s) : Cyclic s.graph.Leads → Cyclic g.Leads :=
  h.levels s.graph (List.mem_append_right _ (List.mem_singleton_self _))

theorem Loops.earlier (h : Loops g s) : ∀ x ∈ s.earlier, Cyclic x.Leads → Cyclic g.Leads :=
  fun x hx => h.levels x (List.mem_append_left _ hx)

theorem Quiet.loops (hq : Quiet s s') (hl : Loops g s) : Loops g s' := by
  refine ⟨?_, ?_, ?_⟩
  · simpa only [RecordsLoop, hq.located] using hl.recorded
  · simpa only [Progress.levels, hq.earlier, hq.graph] using hl.levels
  · simpa only [RecordsLoop, hq.collapses, hq.located, hq.earlier, hq.graph] using hl.kept

theorem Merges.loops (hm : Merges s within p n s') (hg : s.graph.WellFormed)
    (hroot : s.graph.Rooted root) (hl : Loops g s) : Loops g s' := by
  have hcyclic := hm.cyclic_iff hg hroot
  have hrecords : s'.RecordsLoop ↔ s.RecordsLoop ∨ p.kind.isLoop = true := by
    simp only [RecordsLoop, hm.located, List.mem_append, List.mem_singleton, or_and_right,
      exists_or, exists_eq_left, FlowGraph.located, Primitive.kind_map]
  refine ⟨?_, fun x hx hc => ?_, fun hnone hc => ?_⟩
  · rw [hrecords]
    rintro (hold | hnew)
    · exact hl.recorded hold
    · exact hl.graph (hcyclic.2 (.inl hnew))
  · rw [Progress.levels, hm.earlier] at hx
    rcases List.mem_append.1 hx with hx | hx
    · exact hl.earlier x hx hc
    · obtain rfl := List.mem_singleton.1 hx
      exact hl.graph (hcyclic.2 (.inr hc))
  · rw [hrecords, hm.earlier]
    rcases hl.kept (hm.collapses ▸ hnone) hc with hr | he | hgraph
    · exact .inl (.inl hr)
    · exact .inr (.inl he)
    · exact (hcyclic.1 hgraph).imp .inr .inr

/-- A cycle that a change of level loses was an edge from a node to itself, unless an interval is
reported. -/
theorem Derives.loops (hd : Derives s is s') (hg : s.graph.WellFormed)
    (hroot : s.graph.Rooted root) (hl : Loops g s) : Loops g s' := by
  obtain ⟨hpart, hderived⟩ := hd.spec hg hroot
  refine ⟨?_, fun x hx hc => ?_, fun hnone hc => ?_⟩
  · simpa only [RecordsLoop, hd.located] using hl.recorded
  · rw [Progress.levels, hd.earlier] at hx
    rcases List.mem_append.1 hx with hx | hx
    · rcases List.mem_append.1 hx with hx | hx
      · exact hl.earlier x hx hc
      · exact hl.graph (List.mem_singleton.1 hx ▸ hc)
    · obtain rfl := List.mem_singleton.1 hx
      exact hl.graph (hd.cyclic_of_derived hg hroot hc)
  · rw [hd.collapses, List.append_eq_nil_iff, List.map_eq_nil_iff] at hnone
    have hsmall : ∀ i ∈ is, i.size ≤ 1 := fun i hi =>
      Nat.not_lt.1 fun hlt => List.filter_eq_nil_iff.1 hnone.2 i hi (decide_eq_true hlt)
    rw [RecordsLoop, hd.located, hd.earlier]
    rcases hl.kept hnone.1 hc with hr | ⟨x, hx, hxx⟩ | hgraph
    · exact .inl hr
    · exact .inr (.inl ⟨x, List.mem_append_left _ hx, hxx⟩)
    · rcases hderived.cyclic_or hg hroot hpart hsmall hgraph with hd' | hself
      · exact .inr (.inr hd')
      · exact .inr (.inl ⟨_, List.mem_append_right _ (List.mem_singleton_self _), hself⟩)

theorem Descends.loops (h : Descends s s') (hv : s.graph.Validated) (hl : Loops g s) :
    Loops g s' := by
  obtain ⟨hg, root, hroot⟩ := hv
  cases h with
  | advance ha =>
    cases ha with
    | quiet hq => exact hq.loops hl
    | merge hm => exact hm.loops hg hroot hl
  | derive hd => exact hd.loops hg hroot hl

/-- At the end of a run with a single node the cycles are accounted for. -/
theorem Loops.settled (hl : Loops g s) (hv : s.graph.Validated) (hsize : s.graph.size ≤ 1)
    (hnone : s.collapses = []) : s.RecordsLoop ∨ s.LeavesLoop ↔ Cyclic g.Leads := by
  constructor
  · rintro (hr | ⟨x, hx, n, hnn⟩)
    · exact hl.recorded hr
    · exact hl.levels x hx ⟨n, .single hnn⟩
  · intro hc
    rcases hl.kept hnone hc with hr | ⟨x, hx, hxx⟩ | hgraph
    · exact .inl hr
    · exact .inr ⟨x, List.mem_append_left _ hx, hxx⟩
    · exact .inr ⟨s.graph, List.mem_append_right _ (List.mem_singleton_self _),
        hv.1.leads_self hsize hgraph⟩

theorem Advances.run_collapses (h : ReflTransGen Advances s s') : s'.collapses = s.collapses := by
  induction h with
  | refl => rfl
  | tail _ hstep ih =>
    cases hstep with
    | quiet hq => exact hq.collapses.trans ih
    | merge hm => exact hm.collapses.trans ih

theorem Loops.run (hl : Loops g s) (hv : s.graph.Validated) (h : ReflTransGen Descends s s') :
    s'.graph.Validated ∧ Loops g s' :=
  Descends.invariant (fun hv hd hl => hd.loops hv hl) h hv hl

end Progress

namespace FlowGraph

variable {g : FlowGraph}

/-- If a reduction by hammocks ends with a single node, or one by levels without the report of an
interval, the graph has a cycle exactly if a loop is on record or, on some level, an edge from a node
to itself is left. -/
theorem reductions_account_for_cycles (hg : g.WellFormed) (hvalid : g.validate = .ok ()) :
    (∃ r, g.reduceByHammocks = .ok r ∧
      (r.failure = none → (r.progress.RecordsLoop ∨ r.progress.LeavesLoop ↔ Cyclic g.Leads))) ∧
    ∃ r, g.reduceByIntervals = .ok r ∧ (r.failure = none → r.progress.collapses = [] →
      (r.progress.RecordsLoop ∨ r.progress.LeavesLoop ↔ Cyclic g.Leads)) := by
  have hv : g.Validated := ⟨hg, (validate_eq_ok hg.closed).1 hvalid⟩
  have hstart := Progress.Loops.start g
  refine ⟨⟨_, reduceByHammocks_eq hvalid, fun hok => ?_⟩, _, reduceByIntervals_eq hvalid,
    fun hok hnone => ?_⟩
  · have hsaid := Progress.quiet_say (.start g) (.structuring g.shown)
    generalize (Progress.start g).say (.structuring g.shown) = s at hsaid hok ⊢
    obtain ⟨hruns, hends⟩ := Progress.byHammocks_ends (s := s) (hsaid.graph ▸ hv)
    have hruns' : ReflTransGen Progress.Advances (.start g) s.byHammocks.progress :=
      .head (.quiet hsaid) hruns
    obtain ⟨hv', hl⟩ := hstart.run hv (Progress.Descends.run_of_advances hruns')
    rcases hends with ⟨-, hsize⟩ | ⟨s', heq, -⟩
    · exact hl.settled hv' hsize (Progress.Advances.run_collapses hruns')
    · rw [heq] at hok
      cases hok
  · obtain ⟨hruns, hends⟩ := Progress.byLevels_ends (s := .start g) hv
    obtain ⟨hv', hl⟩ := hstart.run hv hruns
    rcases hends with ⟨-, hsize⟩ | ⟨s', heq, -⟩
    · exact hl.settled hv' hsize hnone
    · rw [heq] at hok
      cases hok

theorem loopBetween_accounts_for_cycles :
    loopBetween.WellFormed ∧ loopBetween.validate = .ok () ∧ Cyclic loopBetween.Leads ∧
      (∃ r, loopBetween.reduceByHammocks = .ok r ∧ r.failure = none ∧
        (r.progress.RecordsLoop ∨ r.progress.LeavesLoop)) ∧
      ∃ r, loopBetween.reduceByIntervals = .ok r ∧ r.failure = none ∧ r.progress.collapses = [] ∧
        (r.progress.RecordsLoop ∨ r.progress.LeavesLoop) := by
  have hg : loopBetween.WellFormed := ofWords_wellFormed _
  have hcycle : Cyclic loopBetween.Leads :=
    ⟨⟨0, 2⟩, .single (Digraph.mem_successors.1 (by decide))⟩
  obtain ⟨⟨r, hrun, hr⟩, r', hrun', hr'⟩ :=
    reductions_account_for_cycles hg loopBetween_validate
  obtain ⟨r₁, hrun₁, hok₁⟩ := loopBetween_reduceByHammocks
  obtain rfl : r₁ = r := Except.ok.inj (hrun₁.symm.trans hrun)
  have hends : (loopBetween.reduceByIntervals.map fun r =>
      (r.failure.isNone, r.progress.collapses.isEmpty)) = .ok (true, true) := by cbv
  rw [hrun'] at hends
  obtain ⟨hok', hnone⟩ := Prod.mk.inj (Except.ok.inj hends)
  replace hok' := Option.isNone_iff_eq_none.1 hok'
  replace hnone := List.isEmpty_iff.1 hnone
  exact ⟨hg, loopBetween_validate, hcycle, ⟨r₁, hrun, hok₁, (hr hok₁).2 hcycle⟩, r', hrun', hok',
    hnone, (hr' hok' hnone).2 hcycle⟩

/-- A loop that is never left. -/
def endlessLoop : FlowGraph := ofWords ["AB", "BA"]

theorem endlessLoop_finds : endlessLoop.Finds (some (.sequence ⟨0, 1⟩ ⟨0, 2⟩)) :=
  ⟨_, by cbv, by cbv⟩

/-- Its two nodes become one node that leads to itself, and no loop is on record. -/
theorem endlessLoop_not_recorded :
    endlessLoop.WellFormed ∧ endlessLoop.validate = .ok () ∧ Cyclic endlessLoop.Leads ∧
      ∃ r, endlessLoop.reduceByHammocks = .ok r ∧ r.failure = none ∧ ¬ r.progress.RecordsLoop := by
  have hg : endlessLoop.WellFormed := ofWords_wellFormed _
  have hvalid : endlessLoop.validate = .ok () := by cbv
  have hv : endlessLoop.Validated := ⟨hg, (validate_eq_ok hg.closed).1 hvalid⟩
  have hcycle : Cyclic endlessLoop.Leads :=
    ⟨⟨0, 1⟩, .tail (.single (b := ⟨0, 2⟩) (Digraph.mem_successors.1 (by decide)))
      (Digraph.mem_successors.1 (by decide))⟩
  obtain ⟨n, s, hm, hrun⟩ := Progress.byHammocks_merges
    (s := (Progress.start endlessLoop).say (.structuring endlessLoop.shown)) hv
    (by change 1 < endlessLoop.size; decide) endlessLoop_finds
  have hsize : s.graph.size ≤ 1 := by
    obtain ⟨root, hroot⟩ := hv.2
    have hlt : s.graph.size < endlessLoop.size := hm.size_lt hg hroot
    have htwo : endlessLoop.size = 2 := by decide
    omega
  refine ⟨hg, hvalid, hcycle, _, reduceByHammocks_eq hvalid, ?_⟩
  rw [hrun, Progress.byHammocks, if_pos hsize]
  refine ⟨rfl, ?_⟩
  rintro ⟨q, hq, hloop⟩
  have hlocated : s.located = [endlessLoop.located (.sequence ⟨0, 1⟩ ⟨0, 2⟩)] := hm.located
  obtain rfl := List.mem_singleton.1 (hlocated ▸ hq)
  cases hloop

end FlowGraph

end Structuring
