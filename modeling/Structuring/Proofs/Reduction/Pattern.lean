import Structuring.Proofs.Reduction.Template
import Structuring.Reduction.Merge

/-!
# What the test of a primitive says

* `FlowGraph.outline` — the outline of a control flow graph.
* `Primitive.holds_iff_passes` — the test of a primitive in terms of its templates.
* `FlowGraph.holds_iff` — in a graph whose nodes can all be reached, the test of a primitive succeeds
  exactly if one of its templates stands there.
-/

namespace Structuring

open Relation

@[simp] theorem allDistinct_iff {α : Type} [DecidableEq α] {as : List α} :
    allDistinct as = true ↔ as.Nodup := by
  induction as with
  | nil => simp [allDistinct]
  | cons a as ih => simp [allDistinct, ih]

@[simp] theorem dominatesAll_iff {t : DominatorTree NodeId} {n : NodeId} {ms : List NodeId} :
    dominatesAll t n ms = true ↔ ∀ m ∈ ms, t.dominates n m = true := List.all_eq_true

def Link.ends {α : Type} (l : Link α) : α × α := (l.source, l.target)

namespace FlowGraph

variable {g : FlowGraph} {root : NodeId}

def ends (g : FlowGraph) : Multiset (NodeId × NodeId) := g.links.map Link.ends

def outline (g : FlowGraph) (root : NodeId) : Outline NodeId := ⟨g.ids.toFinset, g.ends, root⟩

theorem mem_ends {u v : NodeId} : (u, v) ∈ g.ends ↔ g.Leads u v := by
  simp only [ends, Multiset.mem_map, Link.ends, Prod.mk.injEq, Digraph.leads_iff]
  constructor
  · rintro ⟨⟨s, t, a⟩, hl, rfl, rfl⟩
    exact ⟨a, hl⟩
  · rintro ⟨a, hl⟩
    exact ⟨_, hl, rfl, rfl⟩

theorem ends_eq (g : FlowGraph) : g.ends = ↑(g.edges.map fun e => (e.source, e.target)) := by
  rw [ends, Digraph.links, Multiset.map_coe, List.map_map]
  rfl

theorem outs_ends (g : FlowGraph) (n : NodeId) :
    outs g.ends n = ↑((g.outEdges n).map (·.target)) := by
  rw [outs, ends_eq, Multiset.filter_coe, Multiset.map_coe, List.filter_map, List.map_map]
  rfl

theorem ins_ends (g : FlowGraph) (n : NodeId) :
    ins g.ends n = ↑((g.inEdges n).map (·.source)) := by
  rw [ins, ends_eq, Multiset.filter_coe, Multiset.map_coe, List.filter_map, List.map_map]
  rfl

@[simp] theorem targets_iff {n : NodeId} {ns : List NodeId} :
    g.targets n ns = true ↔ outs g.ends n = ↑ns := by
  rw [targets, List.isPerm_iff, outs_ends, Multiset.coe_eq_coe]

@[simp] theorem sources_iff {n : NodeId} {ns : List NodeId} :
    g.sources n ns = true ↔ ins g.ends n = ↑ns := by
  rw [sources, List.isPerm_iff, ins_ends, Multiset.coe_eq_coe]

/-- The successors of a node whose edges lead to distinct nodes. -/
theorem successors_perm {n : NodeId} {ns : List NodeId} (h : outs g.ends n = ↑ns) (hns : ns.Nodup) :
    (g.successors n).Perm ns := by
  rw [outs_ends, Multiset.coe_eq_coe] at h
  rw [Digraph.successors, distinct_eq_self (h.nodup_iff.2 hns)]
  exact h

end FlowGraph

namespace Primitive

/-- What the test looks at, in terms of a template: its members are distinct, the entry dominates
the others, and the arcs at them are as inside. -/
@[mk_iff]
structure Passes (g : FlowGraph) (t : DominatorTree NodeId) (T : Template NodeId) : Prop where
  nodup : T.members.Nodup
  dominates : ∀ m ∈ T.members, m ≠ T.entry → t.dominates T.entry m = true
  outs_eq : ∀ m ∈ T.members, T.exit? ≠ some m → outs g.ends m = outs T.inner m
  ins_eq : ∀ m ∈ T.members, m ≠ T.entry → ins g.ends m = ins T.inner m

variable {g : FlowGraph} {t : DominatorTree NodeId}

section MultiwayBranch

variable {h e : NodeId} {cs : List NodeId} (direct : Bool)

theorem passes_nWay_iff (hnd : (h :: e :: cs).Nodup) :
    Passes g t ⟨h :: e :: cs, h, some e, fan h cs e + if direct then {(h, e)} else 0⟩ ↔
      (∀ m ∈ e :: cs, t.dominates h m = true) ∧
      outs g.ends h = ↑(if direct then e :: cs else cs) ∧
      (∀ c ∈ cs, ins g.ends c = ↑[h] ∧ outs g.ends c = ↑[e]) ∧
      ins g.ends e = ↑(if direct then h :: cs else cs) := by
  have hnd' := hnd
  simp only [List.nodup_cons, List.mem_cons, not_or] at hnd'
  obtain ⟨⟨hhe, hh⟩, he, hcs⟩ := hnd'
  have hhead : outs (fan h cs e + if direct then {(h, e)} else 0) h =
      ↑(if direct then e :: cs else cs) := by
    cases direct <;> simp [outs_fan_head hh, ← Multiset.cons_coe, add_comm]
  have hexit : ins (fan h cs e + if direct then {(h, e)} else 0) e =
      ↑(if direct then h :: cs else cs) := by
    cases direct <;> simp [ins_fan_exit he, ← Multiset.cons_coe, add_comm]
  have hcase : ∀ c ∈ cs, ins (fan h cs e + if direct then {(h, e)} else 0) c = ↑[h] ∧
      outs (fan h cs e + if direct then {(h, e)} else 0) c = ↑[e] := by
    intro c hc
    have hhc : h ≠ c := fun heq => hh (heq ▸ hc)
    have hec : e ≠ c := fun heq => he (heq ▸ hc)
    cases direct <;> simp [ins_fan_case hcs he hc, outs_fan_case hcs hh hc, hhc, hec]
  constructor
  · rintro ⟨-, hdom, hout, hin⟩
    refine ⟨fun m hm => ?_, ?_, fun c hc => ?_, ?_⟩
    · refine hdom m (List.mem_cons_of_mem _ hm) ?_
      rintro rfl
      exact (List.nodup_cons.1 hnd).1 hm
    · rw [← hhead]
      exact hout h List.mem_cons_self fun heq => hhe (Option.some.inj heq).symm
    · have hmem : c ∈ h :: e :: cs := List.mem_cons_of_mem _ (List.mem_cons_of_mem _ hc)
      rw [← (hcase c hc).1, ← (hcase c hc).2]
      refine ⟨hin c hmem ?_, hout c hmem ?_⟩
      · rintro rfl
        exact hh hc
      · intro heq
        exact he (Option.some.inj heq ▸ hc)
    · rw [← hexit]
      exact hin e (by simp) fun heq => hhe heq.symm
  · rintro ⟨hdom, hout, hcases, hin⟩
    refine ⟨hnd, fun m hm hmh => hdom m ((List.mem_cons.1 hm).resolve_left hmh), fun m hm hme => ?_,
      fun m hm hmh => ?_⟩
    · rcases List.mem_cons.1 hm with rfl | hm
      · rw [hout, hhead]
      · rcases List.mem_cons.1 hm with rfl | hm
        · exact absurd rfl hme
        · rw [(hcases m hm).2, (hcase m hm).2]
    · rcases List.mem_cons.1 ((List.mem_cons.1 hm).resolve_left hmh) with rfl | hm
      · rw [hin, hexit]
      · rw [(hcases m hm).1, (hcase m hm).1]

theorem holds_nWay_iff :
    holds g t (.nWay h cs e) = true ↔ ∃ T ∈ templates (.nWay h cs e), Passes g t T := by
  by_cases hnd : (h :: e :: cs).Nodup
  · have hnodup : ∀ direct : Bool, (if direct then e :: cs else cs).Nodup := by
      intro direct
      cases direct with
      | false => exact hnd.of_cons.of_cons
      | true => exact hnd.of_cons
    simp only [holds, Bool.and_eq_true, decide_eq_true_eq, allDistinct_iff, dominatesAll_iff,
      FlowGraph.targets_iff, FlowGraph.sources_iff, List.all_eq_true, mem_templates_nWay]
    constructor
    · rintro ⟨⟨⟨⟨⟨⟨hlen, -⟩, hdom⟩, hout⟩, hlen'⟩, hcases⟩, hin⟩
      refine ⟨_, ⟨(g.successors h).contains e, hlen, ?_, rfl⟩,
        (passes_nWay_iff _ hnd).2 ⟨hdom, hout, hcases, hin⟩⟩
      rwa [← (FlowGraph.successors_perm hout (hnodup _)).length_eq]
    · rintro ⟨T, ⟨direct, hlen, hlen', rfl⟩, hp⟩
      obtain ⟨hdom, hout, hcases, hin⟩ := (passes_nWay_iff direct hnd).1 hp
      have hdirect : (g.successors h).contains e = direct := by
        rw [Bool.eq_iff_iff, List.contains_iff_mem, Digraph.mem_successors, ← FlowGraph.mem_ends,
          ← mem_outs, hout, Multiset.mem_coe]
        cases direct with
        | false => simpa using (List.nodup_cons.1 hnd.of_cons).1
        | true => simp
      rw [hdirect, (FlowGraph.successors_perm hout (hnodup _)).length_eq]
      exact ⟨⟨⟨⟨⟨⟨hlen, hnd⟩, hdom⟩, hout⟩, hlen'⟩, hcases⟩, hin⟩
  · refine iff_of_false (fun hp => ?_) ?_
    · simp [holds, hnd] at hp
    · rintro ⟨T, hT, hp⟩
      obtain ⟨direct, -, -, rfl⟩ := mem_templates_nWay.1 hT
      exact hnd hp.nodup

end MultiwayBranch

theorem holds_iff_passes {p : Primitive NodeId} :
    p.holds g t = true ↔ ∃ T ∈ p.templates, Passes g t T := by
  cases p with
  | preLoop c b e | ifReturn c b e | ifThen c b e | ifElseReturn c b e =>
    by_cases hnd : [c, b, e].Nodup
    · simp only [List.nodup_cons, List.mem_cons, List.not_mem_nil, or_false, not_or] at hnd
      obtain ⟨⟨hcb, hce⟩, hbe, -⟩ := hnd
      simp [holds, templates, passes_iff, hcb, hce, hbe, Ne.symm hcb, Ne.symm hce, Ne.symm hbe,
        ← Multiset.cons_coe]
      tauto
    · simp [holds, templates, passes_iff, hnd]
  | postLoop b c e =>
    by_cases hbc : b = c
    · by_cases hce : c = e
      · simp [holds, templates, passes_iff, hbc, hce]
      · simp [holds, templates, passes_iff, hbc, hce, Ne.symm hce, ← Multiset.cons_coe]
        tauto
    · by_cases hnd : [b, c, e].Nodup
      · simp only [List.nodup_cons, List.mem_cons, List.not_mem_nil, or_false, not_or] at hnd
        obtain ⟨⟨-, hbe⟩, hce, -⟩ := hnd
        simp [holds, templates, passes_iff, hbc, hbe, hce, Ne.symm hbc, Ne.symm hbe, Ne.symm hce,
          ← Multiset.cons_coe]
        tauto
      · simp [holds, templates, passes_iff, hbc, hnd]
  | ifElse c y n e =>
    by_cases hnd : [c, y, n, e].Nodup
    · simp only [List.nodup_cons, List.mem_cons, List.not_mem_nil, or_false, not_or] at hnd
      obtain ⟨⟨hcy, hcn, hce⟩, ⟨hyn, hye⟩, hne, -⟩ := hnd
      simp [holds, templates, passes_iff, hcy, hcn, hce, hyn, hye, hne, Ne.symm hcy, Ne.symm hcn,
        Ne.symm hce, Ne.symm hyn, Ne.symm hye, Ne.symm hne, ← Multiset.cons_coe]
      tauto
    · simp [holds, templates, passes_iff, hnd]
  | fallthrough c e | sequence c e =>
    by_cases hnd : [c, e].Nodup
    · simp only [List.nodup_cons, List.mem_cons, List.not_mem_nil, or_false] at hnd
      obtain ⟨hce, -⟩ := hnd
      simp [holds, templates, passes_iff, hce, Ne.symm hce, ← Multiset.cons_coe]
      tauto
    · simp [holds, templates, passes_iff, hnd]
  | nWay h cs e => exact holds_nWay_iff

/-! ## Templates and regions -/

theorem caseRoles_players {α : Type} (i : Nat) (as : List α) :
    (caseRoles i as).map (·.2) = as := by
  induction as generalizing i with
  | nil => rfl
  | cons a as ih => simp [caseRoles, ih]

theorem entry_mem_players {α : Type} (p : Primitive α) : p.entry ∈ p.players := by
  cases p <;> simp [players, roles, entry]

theorem region_of_template {p : Primitive NodeId} {T : Template NodeId} (hT : T ∈ p.templates) :
    (∀ v, v ∈ p.region.members ↔ v ∈ T.members) ∧ p.region.entry = T.entry ∧
      p.region.exit? = T.exit? := by
  cases p with
  | nWay h cs e =>
    obtain ⟨direct, -, -, rfl⟩ := mem_templates_nWay.1 hT
    refine ⟨fun v => ?_, rfl, rfl⟩
    simp only [region, nodes, players, roles, mem_distinct, List.map_append, List.map_cons,
      List.map_nil, caseRoles_players, List.mem_append, List.mem_cons, List.not_mem_nil, or_false]
    tauto
  | postLoop b c e =>
    simp only [templates] at hT
    split at hT
    · next hbc =>
      obtain rfl := List.mem_singleton.1 hT
      simp [region, nodes, players, roles, entry, exit?, hbc]
    · obtain rfl := List.mem_singleton.1 hT
      simp [region, nodes, players, roles, entry, exit?]
  | _ =>
    obtain rfl := List.mem_singleton.1 hT
    simp [region, nodes, players, roles, entry, exit?]

end Primitive

/-! ## Templates in a graph whose nodes can all be reached -/

namespace FlowGraph

/-- A dominator tree that answers questions about dominance rightly. -/
def Tells (g : FlowGraph) (root : NodeId) (t : DominatorTree NodeId) : Prop :=
  ∀ v w, t.dominates v w = true ↔ ReflTransGen g.Leads root w ∧ Dominates g.Leads root v w

variable {g : FlowGraph} {root : NodeId} {t : DominatorTree NodeId} {T : Template NodeId}

theorem dominates_of_at (hs : T.Sound) (h : T.At (g.outline root)) {m : NodeId}
    (hm : m ∈ T.members) : Dominates g.Leads root T.entry m := by
  by_contra hn
  obtain ⟨hroot, hreach⟩ := not_dominates_iff.1 hn
  -- without visiting the entry the members are not reached
  have hout : ∀ v, ReflTransGen (Avoiding g.Leads T.entry) root v → v ∉ T.members := by
    intro v hv
    induction hv with
    | refl => exact fun hmem => hroot (h.entry_eq hmem)
    | tail _ huv ih => exact fun hmem => huv.2 (h.entered hs (mem_ends.2 huv.1) ih hmem)
  exact hout m hreach hm

/-- What passes the test stands in the graph, whether all nodes can be reached or not. -/
theorem at_of_passes (hg : g.WellFormed) (hroot : root ∈ g.ids) (ht : g.Tells root t)
    {p : Primitive NodeId} (hT : T ∈ p.templates) (h : Primitive.Passes g t T) :
    T.At (g.outline root) := by
  have hs := Primitive.sound hT h.nodup
  have hdom := fun m hm hne => (ht _ _).1 (h.dominates m hm hne)
  refine ⟨h.nodup, fun m hm => List.mem_toFinset.2 ?_, h.outs_eq, h.ins_eq, fun hm => ?_⟩
  · by_cases hne : m = T.entry
    · obtain ⟨v, hv, hin⟩ := hs.leads
      obtain ⟨hreach, hd⟩ := hdom v (hs.inner_mem _ hin).2.1 hv
      exact hne ▸ hg.closed.reach_mem hroot (hd.reach hreach)
    · exact hg.closed.reach_mem hroot (hdom m hm hne).1
  · by_contra hne
    have := (hdom root hm hne).2 [root] (.single root)
    exact hne (List.mem_singleton.1 this).symm

theorem passes_iff_at (hg : g.WellFormed) (hroot : g.Rooted root) (ht : g.Tells root t)
    {p : Primitive NodeId} (hT : T ∈ p.templates) :
    Primitive.Passes g t T ↔ T.At (g.outline root) := by
  refine ⟨at_of_passes hg (hg.entry_mem root hroot.1) ht hT, fun h => ?_⟩
  have hs := Primitive.sound hT h.nodup
  refine ⟨h.nodup, fun m hm _ => (ht _ _).2 ⟨?_, dominates_of_at hs h hm⟩, h.outs_eq, h.ins_eq⟩
  exact hroot.2 m (List.mem_toFinset.1 (h.mem_nodes m hm))

theorem holds_iff (hg : g.WellFormed) (hroot : g.Rooted root) (ht : g.Tells root t)
    {p : Primitive NodeId} : p.holds g t = true ↔ ∃ T ∈ p.templates, T.At (g.outline root) := by
  rw [Primitive.holds_iff_passes]
  exact exists_congr fun T => and_congr_right fun hT => passes_iff_at hg hroot ht hT

end FlowGraph

end Structuring
