import Structuring.Proofs.Graph.DominatorTree
import Structuring.Proofs.Graph.FixedPoint

/-!
# Questions to a dominator tree

What a tree answers is what holds in the graph, and it does not depend on how the immediate dominators
were found.

* `DominatorTree.Answers` — the answers of a tree are those of a relation and a root.
* `DominatorTree.Agrees` — two trees give the same answers.
* `DominatorTree.build_answers` — the tree of the immediate dominators answers rightly.
* `FlowGraph.idomBy_spec` — both algorithms find the immediate dominators.
* `FlowGraph.treeOn_answers` — the tree of the members of a graph, by either algorithm.
* `FlowGraph.dominatorTree_answers` — the trees of a control flow graph.
-/

namespace Structuring

open Relation

variable {α : Type}

/-! ## The order of the numbers -/

instance (a b : Mark α) : Decidable (a.Encloses b) :=
  inferInstanceAs (Decidable (a.down ≤ b.down ∧ b.up ≤ a.up))

variable [DecidableEq α]

namespace Numbered

variable {children : α → List α} {U U' ws : List α} {c c' : Nat} {L : List (Mark α)}

theorem ascending (h : Numbered children U c ws L U' c') : L.Pairwise fun a b => a.down < b.down := by
  induction h with
  | done => exact List.Pairwise.nil
  | seen _ _ ih => exact ih
  | visit hw h₁ h₂ ih₁ ih₂ =>
    refine List.pairwise_cons.2 ⟨fun b hb => ?_, List.pairwise_append.2 ⟨ih₁, ih₂, fun a ha b hb => ?_⟩⟩
    · rcases List.mem_append.1 hb with hb | hb
      · exact (h₁.bounds.2 b hb).1
      · have := h₁.bounds.1
        have := (h₂.bounds.2 b hb).1
        simp only
        omega
    · have := h₁.bounds.2 a ha
      have := h₂.bounds.2 b hb
      omega

/-- The marks that one of them encloses stand together. -/
theorem filter_encloses (h : Numbered children U c ws L U' c') {a : Mark α} (ha : a ∈ L) :
    L.filter (a.Encloses ·) <:+: L := by
  induction h with
  | done => cases ha
  | seen _ _ ih => exact ih ha
  | @visit U U₁ U₂ c c₁ c₂ w ws L₁ L₂ hw h₁ h₂ ih₁ ih₂ =>
    have hnone : ∀ {b : Mark α} {L : List (Mark α)}, (∀ m ∈ L, ¬ b.Encloses m) →
        L.filter (b.Encloses ·) = [] := fun hno =>
      List.filter_eq_nil_iff.2 fun m hm => by simpa using hno m hm
    rcases List.mem_cons.1 ha with rfl | ha
    · -- the first mark encloses those under it and none of the later ones
      have hself : Mark.Encloses (α := α) ⟨w, c + 1, c₁ + 1⟩ ⟨w, c + 1, c₁ + 1⟩ := ⟨le_rfl, le_rfl⟩
      have hunder : L₁.filter (Mark.Encloses ⟨w, c + 1, c₁ + 1⟩ ·) = L₁ :=
        List.filter_eq_self.2 fun m hm => decide_eq_true
          ⟨(h₁.bounds.2 m hm).1.le, (h₁.bounds.2 m hm).2.2.trans (Nat.le_succ _)⟩
      have hlater : L₂.filter (Mark.Encloses ⟨w, c + 1, c₁ + 1⟩ ·) = [] :=
        hnone fun m hm hin => by
          have := h₂.bounds.2 m hm
          have : m.up ≤ c₁ + 1 := hin.2
          omega
      rw [List.filter_cons, if_pos (decide_eq_true hself), List.filter_append, hunder, hlater,
        List.append_nil]
      exact ⟨[], L₂, rfl⟩
    have hfirst : ¬ a.Encloses ⟨w, c + 1, c₁ + 1⟩ := by
      intro hin
      have hdown : a.down ≤ c + 1 := hin.1
      rcases List.mem_append.1 ha with ha | ha
      · have := (h₁.bounds.2 a ha).1
        omega
      · have := (h₂.bounds.2 a ha).1
        have := h₁.bounds.1
        omega
    rw [List.filter_cons_of_neg (by simpa using hfirst), List.filter_append]
    refine List.IsInfix.trans ?_ (List.suffix_cons _ _).isInfix
    rcases List.mem_append.1 ha with ha | ha
    · have hlater : L₂.filter (a.Encloses ·) = [] := hnone fun m hm hin => by
        have := h₁.bounds.2 a ha
        have := h₂.bounds.2 m hm
        have := hin.2
        omega
      rw [hlater, List.append_nil]
      exact (ih₁ ha).trans (List.prefix_append L₁ L₂).isInfix
    · have hearlier : L₁.filter (a.Encloses ·) = [] := hnone fun m hm hin => by
        have := h₁.bounds.2 m hm
        have := h₂.bounds.2 a ha
        have := hin.1
        omega
      rw [hearlier, List.nil_append]
      exact (ih₂ ha).trans (List.suffix_append L₁ L₂).isInfix

end Numbered

namespace DominatorTree

/-- What a tree answers about a relation, a root and the members of a graph. Only the vertices that can
be reached are in the tree. -/
structure Answers (t : DominatorTree α) (r : α → α → Prop) (root : α) (members : List α) : Prop where
  dominates : ∀ v w, t.dominates v w = true ↔
    ReflTransGen r root v ∧ ReflTransGen r root w ∧ Dominates r root v w
  immediate_root : t.immediateDominator? root = some none
  immediate : ∀ v, ReflTransGen r root v → v ≠ root →
    ∃ d, t.immediateDominator? v = some (some d) ∧ ImmediatelyDominates r root d v
  children : ∀ v, ReflTransGen r root v → ∃ ws, t.children? v = some ws ∧ ws.Sublist members ∧
    ∀ w, w ∈ ws ↔ ReflTransGen r root w ∧ ImmediatelyDominates r root v w
  unreached : ∀ v, ¬ ReflTransGen r root v → t.immediateDominator? v = none ∧ t.children? v = none
  sets : ∃ sets, t.dominatorSets = some sets ∧ sets.keys = t.nodes ∧
    ∀ v, ReflTransGen r root v → ∃ s, sets.get? v = some s ∧ s.Nodup ∧
      ∀ d, d ∈ s ↔ Dominates r root d v
  nodes_nodup : t.nodes.Nodup
  mem_nodes : ∀ v, v ∈ t.nodes ↔ ReflTransGen r root v
  parent_first : ∀ v w, ReflTransGen r root w → ImmediatelyDominates r root v w →
    t.nodes.idxOf v < t.nodes.idxOf w
  subtree : ∀ v ∈ t.nodes, t.nodes.filter (t.dominates v) <:+: t.nodes

/-- The answers depend on the walks from the root only. -/
theorem Answers.of_sameWalks {t : DominatorTree α} {r r' : α → α → Prop} {root : α}
    {members : List α} (h : t.Answers r root members) (hsame : SameWalks r r' root) :
    t.Answers r' root members := by
  obtain ⟨h₁, h₂, h₃, h₄, h₅, h₆, h₇, h₈, h₉, h₁₀⟩ := h
  rw [hsame.reach] at h₁ h₃ h₄ h₅ h₆ h₈ h₉
  rw [hsame.dominates] at h₁ h₆
  rw [hsame.immediatelyDominates] at h₃ h₄ h₉
  exact ⟨h₁, h₂, h₃, h₄, h₅, h₆, h₇, h₈, h₉, h₁₀⟩

/-- Two trees give the same answers. -/
structure Agrees (t t' : DominatorTree α) : Prop where
  dominates : ∀ v w, t.dominates v w = t'.dominates v w
  strictly : ∀ v w, t.strictlyDominates v w = t'.strictlyDominates v w
  immediate : ∀ v, t.immediateDominator? v = t'.immediateDominator? v
  children : ∀ v, t.children? v = t'.children? v
  nodes : t.nodes = t'.nodes
  sets : t.dominatorSets = t'.dominatorSets

section Tree

variable {r : α → α → Prop} {root v w : α} {num : α → Nat} {par : α → α → Prop}
variable {idom : Table α (Option α)} {members : List α} {t : DominatorTree α} {L : List (Mark α)}

namespace Numbers

theorem marked_nodup (h : t.Numbers r root L) : (marked L).Nodup := by
  obtain ⟨_, _, _, _, _, _, hL⟩ := h.numbered
  exact hL.marked_nodup

theorem exists_mark (h : t.Numbers r root L) (hv : ReflTransGen r root v) :
    ∃ m ∈ L, m.vertex = v :=
  List.mem_map.1 ((h.mem_iff v).2 hv)

theorem idxOf_lt (h : t.Numbers r root L) (hw : ReflTransGen r root w)
    (hvw : StrictlyDominates r root v w) : t.nodes.idxOf v < t.nodes.idxOf w := by
  obtain ⟨a, ha, rfl⟩ := h.exists_mark (hvw.2.reach hw)
  obtain ⟨b, hb, rfl⟩ := h.exists_mark hw
  have hdown := ((h.encloses_iff a ha b hb).2 hvw.2).1
  obtain ⟨_, _, _, _, _, _, hL⟩ := h.numbered
  obtain ⟨i, hi, rfl⟩ := List.getElem_of_mem ha
  obtain ⟨j, hj, rfl⟩ := List.getElem_of_mem hb
  have hidx : ∀ k (hk : k < L.length), t.nodes.idxOf L[k].vertex = k := by
    intro k hk
    have := h.marked_nodup.idxOf_getElem k (by simpa [marked] using hk)
    rwa [h.nodes_eq, ← List.getElem_map (f := Mark.vertex) (h := by simpa using hk)]
  rw [hidx i hi, hidx j hj]
  refine lt_of_not_ge fun hji => ?_
  rcases Nat.lt_or_eq_of_le hji with hlt | rfl
  · have := List.pairwise_iff_getElem.1 hL.ascending j i hj hi hlt
    omega
  · exact hvw.1 rfl

theorem subtree (h : t.Numbers r root L) (hv : v ∈ t.nodes) :
    t.nodes.filter (t.dominates v) <:+: t.nodes := by
  rw [h.nodes_eq] at hv ⊢
  obtain ⟨a, ha, rfl⟩ := List.mem_map.1 hv
  obtain ⟨_, _, _, _, _, _, hL⟩ := h.numbered
  have heq : (marked L).filter (t.dominates a.vertex) = (L.filter (a.Encloses ·)).map Mark.vertex := by
    rw [marked, List.filter_map]
    congr 1
    refine List.filter_congr fun b hb => ?_
    have hreach := (h.mem_iff _).1 (mem_marked_of_mem hb)
    rw [Bool.eq_iff_iff, Function.comp_apply, h.dominates_iff, decide_eq_true_eq,
      h.encloses_iff a ha b hb]
    exact and_iff_right hreach
  rw [heq]
  exact (hL.filter_encloses ha).map _

end Numbers

theorem IsImmediate.get?_eq_none (hi : IsImmediate r root idom) (hv : ¬ ReflTransGen r root v) :
    idom.get? v = none :=
  Option.eq_none_iff_forall_ne_some.2 fun d hd => hv ((hi.reached v).1 ⟨d, hd⟩)

theorem IsImmediate.get?_iff (T : DepthFirstTree r root num par) (hi : IsImmediate r root idom)
    (hw : ReflTransGen r root w) :
    idom.get? w = some (some v) ↔ ImmediatelyDominates r root v w := by
  constructor
  · intro hv
    have hne : w ≠ root := by
      rintro rfl
      rw [hi.start] at hv
      cases hv
    obtain ⟨d, hd, himm⟩ := hi.parent w hw hne
    rw [hv] at hd
    cases hd
    exact himm
  · intro himm
    have hne : w ≠ root := by
      rintro rfl
      exact himm.1.1 (List.mem_singleton.1 (himm.1.2 _ (.single w)))
    obtain ⟨d, hd, himm'⟩ := hi.parent w hw hne
    rw [hd, T.dominates_antisymm (himm'.1.2.reach hw) (himm.2 d himm'.1) (himm'.2 v himm.1)]

/-! ## The sets of the dominators -/

/-- The sets of the vertices that were looked at. -/
structure SetsUpTo (r : α → α → Prop) (root : α) (done : List α) (sets : Table α (List α)) :
    Prop where
  keys : sets.keys = done
  sets : ∀ v ∈ done, ∃ s, sets.get? v = some s ∧ s.Nodup ∧ ∀ d, d ∈ s ↔ Dominates r root d v

theorem SetsUpTo.add {done s : List α} {sets : Table α (List α)} (h : SetsUpTo r root done sets)
    (hnew : v ∉ done) (hnodup : s.Nodup) (hmem : ∀ d, d ∈ s ↔ Dominates r root d v) :
    SetsUpTo r root (done ++ [v]) (sets.set v s) := by
  refine ⟨by rw [Table.keys_set_new (h.keys ▸ hnew), h.keys], fun w hw => ?_⟩
  rcases List.mem_append.1 hw with hw | hw
  · have hne : v ≠ w := fun heq => hnew (heq ▸ hw)
    rw [Table.get?_set, if_neg hne]
    exact h.sets w hw
  · obtain rfl := List.mem_singleton.1 hw
    exact ⟨s, by rw [Table.get?_set, if_pos rfl], hnodup, hmem⟩

theorem SetsUpTo.next_start {done : List α} {sets : Table α (List α)} (h : SetsUpTo r root done sets)
    (hnew : root ∉ done) : SetsUpTo r root (done ++ [root]) (sets.set root [root]) :=
  h.add hnew (List.nodup_singleton _) fun _ =>
    ⟨fun hd => List.mem_singleton.1 hd ▸ dominates_self, fun hd => hd _ (.single root)⟩

/-- The set of a vertex is that of its immediate dominator with the vertex itself. -/
theorem SetsUpTo.next {done s : List α} {sets : Table α (List α)} {p : α}
    (T : DepthFirstTree r root num par) (h : SetsUpTo r root done sets) (hnew : v ∉ done)
    (hv : ReflTransGen r root v) (himm : ImmediatelyDominates r root p v) (hp : p ∈ done)
    (hs : sets.get? p = some s) : SetsUpTo r root (done ++ [v]) (sets.set v (v :: s)) := by
  obtain ⟨s', hs', hnodup, hmem⟩ := h.sets p hp
  obtain rfl : s = s' := Option.some.inj (hs.symm.trans hs')
  refine h.add hnew (List.nodup_cons.2 ⟨fun hvs => ?_, hnodup⟩) fun d => ?_
  · exact himm.1.1 (T.dominates_antisymm (himm.1.2.reach hv) himm.1.2 ((hmem v).1 hvs))
  · rw [List.mem_cons, hmem]
    constructor
    · rintro (rfl | hd)
      · exact dominates_self
      · exact hd.trans himm.1.2
    · intro hd
      exact or_iff_not_imp_left.2 fun hne => himm.2 d ⟨hne, hd⟩

theorem setsFrom_spec (T : DepthFirstTree r root num par) (hi : IsImmediate r root t.idom)
    (h : t.Numbers r root L) {done rest : List α} {sets : Table α (List α)}
    (hsplit : t.nodes = done ++ rest) (hsets : SetsUpTo r root done sets) :
    ∃ sets', t.setsFrom sets rest = some sets' ∧ SetsUpTo r root t.nodes sets' := by
  induction rest generalizing done sets with
  | nil => exact ⟨sets, rfl, by rwa [hsplit, List.append_nil]⟩
  | cons v rest ih =>
    have hv : ReflTransGen r root v := by
      rw [← h.mem_iff, ← h.nodes_eq, hsplit]
      simp
    have hnodup : (done ++ v :: rest).Nodup := hsplit ▸ h.nodes_eq ▸ h.marked_nodup
    have hnew : v ∉ done := fun hd => (List.nodup_append.1 hnodup).2.2 v hd v List.mem_cons_self rfl
    have hsplit' : t.nodes = (done ++ [v]) ++ rest := by
      rw [hsplit, List.append_assoc]
      rfl
    by_cases hroot : v = root
    · subst hroot
      obtain ⟨sets', hrun, hsets'⟩ := ih hsplit' (hsets.next_start hnew)
      exact ⟨sets', by simpa [setsFrom, hi.start] using hrun, hsets'⟩
    · obtain ⟨p, hp, himm⟩ := hi.parent v hv hroot
      have hbefore : p ∈ done := by
        have hlt := h.idxOf_lt hv himm.1
        rw [hsplit, List.idxOf_append_of_notMem hnew, List.idxOf_cons_self, Nat.add_zero] at hlt
        by_contra hnot
        rw [List.idxOf_append_of_notMem hnot] at hlt
        omega
      obtain ⟨s, hs, -⟩ := hsets.sets p hbefore
      obtain ⟨sets', hrun, hsets'⟩ := ih hsplit' (hsets.next T hnew hv himm hbefore hs)
      exact ⟨sets', by simpa [setsFrom, hp, hs] using hrun, hsets'⟩

/-! ## The answers -/

theorem build_answers (T : DepthFirstTree r root num par) (hi : IsImmediate r root idom)
    (hm : ∀ v, ReflTransGen r root v → v ∈ members) :
    ∃ t, build idom members root = .ok t ∧ t.idom = idom ∧ t.Answers r root members := by
  obtain ⟨t, L, ht, rfl, hmembers, h⟩ := build_numbers T hi hm
  have hnone : SetsUpTo r root [] (∅ : Table α (List α)) := ⟨rfl, fun v hv => by cases hv⟩
  obtain ⟨sets, hrun, hsets⟩ := setsFrom_spec T hi h (List.nil_append _).symm hnone
  have hnodes : ∀ v, v ∈ t.nodes ↔ ReflTransGen r root v := fun v => h.nodes_eq ▸ h.mem_iff v
  have hmem : ∀ v, v ∈ t.members ↔ ReflTransGen r root v := by
    intro v
    rw [hmembers, List.mem_filter, Table.contains_iff, hi.reached]
    exact ⟨And.right, fun hv => ⟨hm v hv, hv⟩⟩
  refine ⟨t, ht, rfl, fun v w => ?_, hi.start, hi.parent, fun v hv => ?_, fun v hv => ⟨?_, ?_⟩,
    ⟨sets, hrun, hsets.keys, fun v hv => hsets.sets v ((hnodes v).2 hv)⟩,
    h.nodes_eq ▸ h.marked_nodup, hnodes,
    fun v w hw hvw => h.idxOf_lt hw hvw.1, fun v hv => h.subtree hv⟩
  · rw [h.dominates_iff]
    exact ⟨fun ⟨hw, hdom⟩ => ⟨hdom.reach hw, hw, hdom⟩, And.right⟩
  · refine ⟨_, if_pos (List.contains_iff_mem.2 ((hmem v).2 hv)), ?_, fun w => ?_⟩
    · exact List.filter_sublist.trans (hmembers ▸ List.filter_sublist)
    · rw [mem_childrenOf, hmem]
      exact and_congr_right fun hw => hi.get?_iff T hw
  · exact hi.get?_eq_none hv
  · exact if_neg fun hin => hv ((hmem v).1 (List.contains_iff_mem.1 hin))

theorem setsFrom_congr {t t' : DominatorTree α} (h : ∀ v, t.idom.get? v = t'.idom.get? v)
    (sets : Table α (List α)) (vs : List α) : t.setsFrom sets vs = t'.setsFrom sets vs := by
  induction vs generalizing sets with
  | nil => rfl
  | cons v vs ih =>
    simp only [setsFrom, h, ih]

/-- The tree depends on what the immediate dominators are, and not on the order in which they were
found. -/
theorem build_agrees {idom' : Table α (Option α)} {t t' : DominatorTree α}
    (h : ∀ v, idom.get? v = idom'.get? v) (ht : build idom members root = .ok t)
    (ht' : build idom' members root = .ok t') : t.Agrees t' := by
  have hcontains : idom.contains = idom'.contains := by
    funext v
    rw [Table.contains, Table.contains, h]
  have hchildren : childrenOf idom = childrenOf idom' := by
    funext ms v
    simp only [childrenOf, h]
  have hmissing : missing? idom = missing? idom' := by
    funext vs ms v
    simp only [missing?, h]
  have hbuild : t' = { t with idom := idom' } ∧ t.idom = idom := by
    unfold build at ht ht'
    rw [hcontains, hchildren, hmissing] at ht
    dsimp only at ht ht'
    split at ht
    · cases ht
    · next hnone =>
      rw [hnone] at ht'
      cases ht
      cases ht'
      exact ⟨rfl, rfl⟩
  obtain ⟨rfl, rfl⟩ := hbuild
  refine ⟨fun v w => rfl, fun v w => rfl, h, fun v => ?_, rfl, setsFrom_congr h _ _⟩
  simp only [children?, hchildren]

end Tree

end DominatorTree

/-! ## Both algorithms -/

namespace FlowGraph

variable {G : Arcs NodeId} {root : NodeId} {members : List NodeId}

theorem sameWalks_within {vs : List NodeId} (hG : G.Coherent)
    (hvs : ∀ v, v ∈ vs ↔ ReflTransGen G.Step root v) :
    SameWalks G.Step (G.within vs).Step root := by
  refine SameWalks.of_steps (p := ReflTransGen G.Step root) .refl
    (fun u hu v => ⟨fun huv => ?_, fun huv => ?_⟩) fun u hu v huv => hu.tail huv
  · exact Arcs.step_within.2 ⟨hG.mem_back.2 huv, (hvs u).2 hu, (hvs v).2 (hu.tail huv)⟩
  · exact hG.mem_back.1 (Arcs.step_within.1 huv).1

theorem idomBy_spec (a : Algorithm) (hG : G.Coherent)
    (hm : ∀ v, ReflTransGen G.Step root v → v ∈ members) :
    ∃ idom, idomBy a G members root = .ok idom ∧
      DominatorTree.IsImmediate G.Step root idom := by
  cases a with
  | semidominators =>
    obtain ⟨idom, hidom, hreach, hstart, himm⟩ := Arcs.immediateDominators_spec hG root
    exact ⟨idom, by simp only [idomBy, hidom], hreach, hstart, himm⟩
  | iterative =>
    have hvs : ∀ v, v ∈ members.filter (G.reachable root).contains ↔ ReflTransGen G.Step root v := by
      intro v
      rw [List.mem_filter, List.contains_iff_mem, Arcs.mem_reachable hG]
      exact ⟨And.right, fun hv => ⟨hm v hv, hv⟩⟩
    have hsame := sameWalks_within hG hvs
    have hroot := (hvs root).2 .refl
    obtain ⟨sets, hsets, hdom⟩ := G.dominatorSets_spec hroot
    obtain ⟨idom, hidom, hmem, hstart, himm⟩ :=
      immediateOf_spec Arcs.within_coherent hroot hdom
    have hrun : immediateOf sets (members.filter (G.reachable root).contains) = some idom := hidom
    refine ⟨idom, by simp only [idomBy, hsets, Option.bind_some, hrun],
      fun v => (hmem v).trans (hvs v), hstart, fun v hv hne => ?_⟩
    rw [← hsame.reach, ← hsame.immediatelyDominates] at himm
    exact himm v hv hne

/-- The trees of the members of a graph by the two algorithms are built. They answer rightly and give
the same answers. -/
theorem treeOn_answers (hG : G.Coherent) (hm : ∀ v, ReflTransGen G.Step root v → v ∈ members)
    (a a' : Algorithm) :
    ∃ t t', treeOn members (some root) G a = .ok t ∧ treeOn members (some root) G a' = .ok t' ∧
      t.Answers G.Step root members ∧ t'.Answers G.Step root members ∧ t.Agrees t' := by
  have T := Arcs.search_tree hG root
  obtain ⟨idom, hidom, hi⟩ := idomBy_spec a hG hm
  obtain ⟨idom', hidom', hi'⟩ := idomBy_spec a' hG hm
  obtain ⟨t, ht, -, hanswers⟩ := DominatorTree.build_answers T hi hm
  obtain ⟨t', ht', -, hanswers'⟩ := DominatorTree.build_answers T hi' hm
  have hget : ∀ v, idom.get? v = idom'.get? v := by
    intro v
    by_cases hv : ReflTransGen G.Step root v
    · by_cases hroot : v = root
      · rw [hroot, hi.start, hi'.start]
      · obtain ⟨d, hd, himm⟩ := hi.parent v hv hroot
        rw [hd, (hi'.get?_iff T hv).2 himm]
    · rw [hi.get?_eq_none hv, hi'.get?_eq_none hv]
  refine ⟨t, t', ?_, ?_, hanswers, hanswers', DominatorTree.build_agrees hget ht ht'⟩
  · simp only [treeOn, hidom, bind, Except.bind, ht]
    rfl
  · simp only [treeOn, hidom', bind, Except.bind, ht']
    rfl

/-- A control flow graph whose entry is a member has a dominator tree by either algorithm. Each of
them answers every question as the edges and the entry of the graph would have it, and the answers
are the same. -/
theorem dominatorTree_answers {g : FlowGraph} {root : NodeId} (hg : g.toDigraph.Closed)
    (hroot : g.entry = some root) (hmem : root ∈ g.ids) :
    ∃ t t', g.dominatorTree .semidominators = .ok t ∧ g.dominatorTree .iterative = .ok t' ∧
      t.Answers g.Leads root g.ids ∧ t'.Answers g.Leads root g.ids ∧ t.Agrees t' := by
  have hm : ∀ v, ReflTransGen g.arcs.Step root v → v ∈ g.ids := fun v hv =>
    hg.coherent.reach_mem hmem hv
  have := treeOn_answers hg.coherent hm .semidominators .iterative
  rwa [Digraph.arcs_step_eq, ← hroot] at this

/-- Two parallel edges, an edge from a node to itself, a cycle, and a node that cannot be reached. -/
def shortcut : FlowGraph where
  tag := 0
  nodes := [(⟨0, 1⟩, ⟨.text "A", none, ∅⟩), (⟨0, 2⟩, ⟨.text "B", none, ∅⟩),
    (⟨0, 3⟩, ⟨.text "C", none, ∅⟩), (⟨0, 4⟩, ⟨.text "D", none, ∅⟩), (⟨0, 5⟩, ⟨.text "X", none, ∅⟩)]
  edges := [⟨⟨0, 1⟩, ⟨0, 1⟩, ⟨0, 2⟩, ∅⟩, ⟨⟨0, 2⟩, ⟨0, 1⟩, ⟨0, 2⟩, ∅⟩, ⟨⟨0, 3⟩, ⟨0, 2⟩, ⟨0, 2⟩, ∅⟩,
    ⟨⟨0, 4⟩, ⟨0, 2⟩, ⟨0, 3⟩, ∅⟩, ⟨⟨0, 5⟩, ⟨0, 2⟩, ⟨0, 4⟩, ∅⟩, ⟨⟨0, 6⟩, ⟨0, 3⟩, ⟨0, 4⟩, ∅⟩,
    ⟨⟨0, 7⟩, ⟨0, 4⟩, ⟨0, 2⟩, ∅⟩, ⟨⟨0, 8⟩, ⟨0, 5⟩, ⟨0, 4⟩, ∅⟩]
  lastNode := 5
  lastEdge := 8
  generation := 13
  name := none
  attributes := ∅
  entry := some ⟨0, 1⟩

theorem shortcut_answers :
    shortcut.toDigraph.Closed ∧ shortcut.entry = some ⟨0, 1⟩ ∧ ⟨0, 1⟩ ∈ shortcut.ids ∧
      ∃ t t', shortcut.dominatorTree .semidominators = .ok t ∧
        shortcut.dominatorTree .iterative = .ok t' ∧
        t'.nodes = [⟨0, 1⟩, ⟨0, 2⟩, ⟨0, 3⟩, ⟨0, 4⟩] ∧
        t.Answers shortcut.Leads ⟨0, 1⟩ shortcut.ids ∧
        t'.Answers shortcut.Leads ⟨0, 1⟩ shortcut.ids ∧ t.Agrees t' := by
  have hg : shortcut.toDigraph.Closed := by
    unfold Digraph.Closed
    decide
  have hroot : shortcut.entry = some ⟨0, 1⟩ := rfl
  have hmem : ⟨0, 1⟩ ∈ shortcut.ids := by decide
  obtain ⟨t, t', ht, ht', h⟩ := dominatorTree_answers hg hroot hmem
  have hnodes : (shortcut.dominatorTree .iterative).toOption.map DominatorTree.nodes =
      some [⟨0, 1⟩, ⟨0, 2⟩, ⟨0, 3⟩, ⟨0, 4⟩] := by cbv
  rw [ht'] at hnodes
  exact ⟨hg, hroot, hmem, t, t', ht, ht', Option.some.inj hnodes, h⟩

end FlowGraph

end Structuring
