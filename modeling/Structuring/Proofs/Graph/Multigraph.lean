import Structuring.Graph.FlowGraph
import Structuring.Proofs.Graph.LengauerTarjan

/-!
# Multigraphs and their arcs

A digraph is closed if its edges join its own nodes. All operations keep it closed, and the arcs of a
closed digraph fit together, so that what is proved of arcs holds of it.

* `Digraph.Leads` — there is an edge from one node to another.
* `Digraph.Closed` — the edges join members.
* `Digraph.Ordered` — the nodes stand in the order of their numbers.
* `Digraph.immediateDominators_correct` — the immediate dominators along the edges or against them.
-/

namespace Structuring

open Relation

variable {α : Type} [DecidableEq α]

@[simp] theorem mem_distinct {a : α} {as : List α} : a ∈ distinct as ↔ a ∈ as := by
  induction as with
  | nil => simp [distinct]
  | cons b bs ih =>
    simp only [distinct, List.mem_cons, List.mem_filter, ih, decide_eq_true_eq]
    by_cases h : a = b
    · simp [h]
    · simp [h]

theorem nodup_distinct (as : List α) : (distinct as).Nodup := by
  induction as with
  | nil => exact List.nodup_nil
  | cons a as ih => exact List.nodup_cons.2 ⟨by simp, ih.filter _⟩

theorem distinct_eq_self {as : List α} (h : as.Nodup) : distinct as = as := by
  induction as with
  | nil => rfl
  | cons a as ih =>
    rw [List.nodup_cons] at h
    rw [distinct, ih h.2, List.filter_eq_self.2]
    rintro b hb
    simpa using fun hba : b = a => h.1 (hba ▸ hb)

theorem without_map {β : Type} [DecidableEq β] {f : α → β} {as : List α} {a : α}
    (hf : ∀ b ∈ as, f b = f a → b = a) :
    Arcs.without (as.map f) (f a) = (Arcs.without as a).map f := by
  rw [Arcs.without, Arcs.without, List.filter_map]
  congr 1
  refine List.filter_congr fun b hb => ?_
  simp only [Function.comp_apply, decide_eq_decide, ne_eq, not_iff_not]
  exact ⟨hf b hb, congrArg f⟩

theorem distinct_map {β : Type} [DecidableEq β] {f : α → β} {as : List α}
    (hf : ∀ a ∈ as, ∀ b ∈ as, f a = f b → a = b) : distinct (as.map f) = (distinct as).map f := by
  induction as with
  | nil => rfl
  | cons a as ih =>
    rw [List.map_cons, distinct, distinct, List.map_cons,
      ih fun b hb c hc => hf b (List.mem_cons_of_mem a hb) c (List.mem_cons_of_mem a hc)]
    congr 1
    exact without_map fun b hb =>
      hf b (List.mem_cons_of_mem a (mem_distinct.1 hb)) a List.mem_cons_self

omit [DecidableEq α] in
theorem find?_key {β : Type} [DecidableEq β] {key : α → β} {as : List α} {a : α}
    (hkeys : (as.map key).Nodup) (ha : a ∈ as) : (as.find? fun b => key b = key a) = some a := by
  cases hfind : as.find? fun b => key b = key a with
  | none => exact absurd (List.find?_eq_none.1 hfind a ha) (by simp)
  | some b =>
    have hkey : key b = key a := by simpa using List.find?_some hfind
    rw [List.inj_on_of_nodup_map hkeys (List.mem_of_find?_eq_some hfind) ha hkey]

omit [DecidableEq α] in
theorem eq_of_length_le_one {as : List α} {a b : α} (has : as.length ≤ 1) (ha : a ∈ as)
    (hb : b ∈ as) : a = b := by
  obtain ⟨c, rfl⟩ := List.length_eq_one_iff.1 (Nat.le_antisymm has (List.length_pos_of_mem ha))
  exact (List.mem_singleton.1 ha).trans (List.mem_singleton.1 hb).symm

namespace Digraph

variable {β : Type} {g g' : Digraph β}

def Leads (g : Digraph β) (u v : NodeId) : Prop := ∃ e ∈ g.edges, e.source = u ∧ e.target = v

/-- There is an edge from `u` to `v`, or, against the edges, from `v` to `u`. -/
def LeadsAlong (g : Digraph β) (reverse : Bool) (u v : NodeId) : Prop :=
  if reverse then g.Leads v u else g.Leads u v

def LeadsWithin (g : Digraph β) (vs : List NodeId) (u v : NodeId) : Prop :=
  g.Leads u v ∧ u ∈ vs ∧ v ∈ vs

def Closed (g : Digraph β) : Prop := ∀ e ∈ g.edges, e.source ∈ g.ids ∧ e.target ∈ g.ids

def Ordered (g : Digraph β) : Prop := g.ids.Pairwise fun n m => n.serial < m.serial

@[simp] theorem length_ids (g : Digraph β) : g.ids.length = g.size := List.length_map _

@[simp] theorem mem_outEdges {n : NodeId} {e : Edge} :
    e ∈ g.outEdges n ↔ e ∈ g.edges ∧ e.source = n := by
  simp [outEdges]

@[simp] theorem mem_inEdges {n : NodeId} {e : Edge} :
    e ∈ g.inEdges n ↔ e ∈ g.edges ∧ e.target = n := by
  simp [inEdges]

theorem mem_successors {u v : NodeId} : v ∈ g.successors u ↔ g.Leads u v := by
  simp [successors, Leads, and_assoc]

theorem mem_predecessors {u v : NodeId} : u ∈ g.predecessors v ↔ g.Leads u v := by
  simp [predecessors, Leads, and_assoc, and_comm]

@[simp] theorem contains_iff {n : NodeId} : g.contains n = true ↔ n ∈ g.ids := by
  simp [contains, ids]

theorem checkMember_eq_ok {n : NodeId} : g.checkMember n = .ok () ↔ n ∈ g.ids := by
  unfold checkMember
  split
  · next h => simpa using h
  · next h => simpa using h

theorem Closed.mem (hg : g.Closed) {u v : NodeId} (h : g.Leads u v) : u ∈ g.ids ∧ v ∈ g.ids := by
  obtain ⟨e, he, rfl, rfl⟩ := h
  exact hg e he

/-! ## What the operations do -/

theorem empty_closed (tag : Nat) : (Digraph.empty tag : Digraph β).Closed := by
  intro e he
  cases he

theorem addNode_eq_ok {n : NodeId} {b : β} (h : g.addNode n b = .ok g') :
    n.serial ∉ g.ids.map (·.serial) ∧
      g' = { g with nodes := g.nodes ++ [(n, b)], generation := g.generation + 1 } := by
  unfold addNode at h
  split at h
  · cases h
  · next hn =>
    refine ⟨fun hm => hn ?_, (Except.ok.inj h).symm⟩
    simpa [holdsSerial, ids] using hm

theorem addNode_eq {n : NodeId} (hn : n.serial ∉ g.ids.map (·.serial)) (b : β) :
    g.addNode n b =
      .ok { g with nodes := g.nodes ++ [(n, b)], generation := g.generation + 1 } := by
  unfold addNode
  rw [if_neg]
  simpa [holdsSerial, ids] using hn

theorem addEdge_eq_ok {n m : NodeId} {a : Attributes} {e : Edge}
    (h : g.addEdge n m a = .ok (e, g')) :
    n ∈ g.ids ∧ m ∈ g.ids ∧ e = ⟨⟨g.tag, g.lastEdge + 1⟩, n, m, a⟩ ∧
      g' = { g with edges := g.edges ++ [e], lastEdge := g.lastEdge + 1,
                    generation := g.generation + 1 } := by
  unfold addEdge at h
  cases hn : g.checkMember n with
  | error err =>
    rw [hn] at h
    cases h
  | ok =>
    cases hm : g.checkMember m with
    | error err =>
      rw [hn, hm] at h
      cases h
    | ok =>
      rw [hn, hm] at h
      cases h
      exact ⟨checkMember_eq_ok.1 hn, checkMember_eq_ok.1 hm, rfl, rfl⟩

theorem deleteNode_eq_ok {n : NodeId} (h : g.deleteNode n = .ok g') :
    (∀ e ∈ g.edges, e.source ≠ n ∧ e.target ≠ n) ∧
      g' = { g with nodes := g.nodes.filter (fun e => e.1 ≠ n),
                    generation := g.generation + 1 } := by
  unfold deleteNode at h
  cases hn : g.checkMember n with
  | error err =>
    rw [hn] at h
    cases h
  | ok =>
    rw [hn] at h
    by_cases hedges : g.outEdges n ≠ [] ∨ g.inEdges n ≠ []
    · rw [show (Except.ok () : Except GraphError Unit) = pure () from rfl, pure_bind,
        if_pos hedges] at h
      cases h
    · rw [show (Except.ok () : Except GraphError Unit) = pure () from rfl, pure_bind,
        if_neg hedges] at h
      cases h
      simp only [ne_eq, not_or, not_not, List.filter_eq_nil_iff, decide_eq_true_eq, outEdges,
        inEdges] at hedges
      exact ⟨fun e he => ⟨hedges.1 e he, hedges.2 e he⟩, rfl⟩

theorem removeEdge_eq_some {i : EdgeId} (h : g.removeEdge? i = some g') :
    g' = { g with edges := g.edges.filter (·.id ≠ i), generation := g.generation + 1 } := by
  unfold removeEdge? at h
  split at h
  · exact (Option.some.inj h).symm
  · cases h

namespace Closed

theorem addNode (hg : g.Closed) {n : NodeId} {b : β} (h : g.addNode n b = .ok g') :
    g'.Closed := by
  obtain ⟨-, rfl⟩ := addNode_eq_ok h
  intro e he
  simpa [ids] using And.intro (Or.inl (hg e he).1) (Or.inl (hg e he).2)

theorem addEdge (hg : g.Closed) {n m : NodeId} {a : Attributes} {e : Edge}
    (h : g.addEdge n m a = .ok (e, g')) : g'.Closed := by
  obtain ⟨hn, hm, rfl, rfl⟩ := addEdge_eq_ok h
  intro e he
  rcases List.mem_append.1 he with he | he
  · exact hg e he
  · rw [List.mem_singleton.1 he]
    exact ⟨hn, hm⟩

theorem deleteNode (hg : g.Closed) {n : NodeId} (h : g.deleteNode n = .ok g') : g'.Closed := by
  obtain ⟨hedges, rfl⟩ := deleteNode_eq_ok h
  intro e he
  have hmem : ∀ m ∈ g.ids, m ≠ n → m ∈ (g.nodes.filter fun e => e.1 ≠ n).map (·.1) := by
    intro m hm hne
    obtain ⟨p, hp, rfl⟩ := List.mem_map.1 hm
    exact List.mem_map_of_mem (List.mem_filter.2 ⟨hp, by simpa using hne⟩)
  exact ⟨hmem _ (hg e he).1 (hedges e he).1, hmem _ (hg e he).2 (hedges e he).2⟩

theorem removeEdge (hg : g.Closed) {i : EdgeId} (h : g.removeEdge? i = some g') : g'.Closed := by
  rw [removeEdge_eq_some h]
  exact fun e he => hg e (List.mem_of_mem_filter he)

theorem coherent (hg : g.Closed) : g.arcs.Coherent where
  ends_mem h := hg.mem (mem_successors.1 h)
  mem_back := mem_predecessors.trans mem_successors.symm

end Closed

theorem arcs_step {u v : NodeId} : g.arcs.Step u v ↔ g.Leads u v := mem_successors

theorem arcs_step_eq : g.arcs.Step = g.Leads := by
  funext u v
  exact propext arcs_step

theorem Closed.reach_mem (hg : g.Closed) {u v : NodeId} (hu : u ∈ g.ids)
    (h : ReflTransGen g.Leads u v) : v ∈ g.ids := by
  rw [← arcs_step_eq] at h
  exact hg.coherent.reach_mem hu h

/-- The arcs of a graph, or the same arcs the other way. -/
def arcsAlong (g : Digraph β) (reverse : Bool) : Arcs NodeId :=
  if reverse then g.arcs.reverse else g.arcs

theorem arcsAlong_step (g : Digraph β) (reverse : Bool) :
    (g.arcsAlong reverse).Step = g.LeadsAlong reverse := by
  funext u v
  cases reverse with
  | false => exact propext mem_successors
  | true => exact propext mem_predecessors

theorem Closed.arcsAlong (hg : g.Closed) (reverse : Bool) : (g.arcsAlong reverse).Coherent := by
  cases reverse with
  | false => exact hg.coherent
  | true => exact hg.coherent.reverse

/-- The search for immediate dominators never fails. It ends with a table of the nodes that can be
reached from the start along the edges, or against them; the start is mapped to nothing, and every
other node to its immediate dominator. -/
theorem immediateDominators_correct (hg : g.Closed) (start : NodeId) (reverse : Bool) :
    ∃ t, (if reverse then g.arcs.reverse else g.arcs).immediateDominators start = .ok t ∧
      (∀ v, t.contains v = true ↔ ReflTransGen (g.LeadsAlong reverse) start v) ∧
      t.get? start = some none ∧
      ∀ v, ReflTransGen (g.LeadsAlong reverse) start v → v ≠ start →
        ∃ d, t.get? v = some (some d) ∧
          ImmediatelyDominates (g.LeadsAlong reverse) start d v := by
  obtain ⟨t, ht, hdom, hstart, hidom⟩ :=
    Arcs.immediateDominators_spec (hg.arcsAlong reverse) start
  rw [arcsAlong_step] at hdom hidom
  refine ⟨t, ht, fun v => ?_, hstart, hidom⟩
  rw [Table.contains, Option.isSome_iff_exists]
  exact hdom v

/-- An edge from a node to itself, two parallel edges, a cycle, and a node that only leads to the
others. -/
def tangle : Digraph Unit where
  tag := 0
  nodes := [(⟨0, 1⟩, ()), (⟨0, 2⟩, ()), (⟨0, 3⟩, ()), (⟨0, 4⟩, ())]
  edges := [⟨⟨0, 1⟩, ⟨0, 1⟩, ⟨0, 2⟩, ∅⟩, ⟨⟨0, 2⟩, ⟨0, 1⟩, ⟨0, 2⟩, ∅⟩, ⟨⟨0, 3⟩, ⟨0, 2⟩, ⟨0, 2⟩, ∅⟩,
    ⟨⟨0, 4⟩, ⟨0, 2⟩, ⟨0, 3⟩, ∅⟩, ⟨⟨0, 5⟩, ⟨0, 3⟩, ⟨0, 1⟩, ∅⟩, ⟨⟨0, 6⟩, ⟨0, 4⟩, ⟨0, 3⟩, ∅⟩]
  lastNode := 4
  lastEdge := 6
  generation := 10

theorem tangle_immediateDominators :
    tangle.Closed ∧ ∃ t, tangle.arcs.reverse.immediateDominators ⟨0, 3⟩ = .ok t ∧
      (∀ v, t.contains v = true ↔ ReflTransGen (tangle.LeadsAlong true) ⟨0, 3⟩ v) ∧
      t.get? ⟨0, 3⟩ = some none ∧
      ∀ v, ReflTransGen (tangle.LeadsAlong true) ⟨0, 3⟩ v → v ≠ ⟨0, 3⟩ →
        ∃ d, t.get? v = some (some d) ∧
          ImmediatelyDominates (tangle.LeadsAlong true) ⟨0, 3⟩ d v := by
  have hclosed : tangle.Closed := by
    unfold Closed
    decide
  exact ⟨hclosed, immediateDominators_correct hclosed ⟨0, 3⟩ true⟩

end Digraph

end Structuring
