import Structuring.Graph.DominatorTree
import Structuring.Proofs.Graph.Multigraph
import Structuring.Proofs.Table

/-!
# The numbers of a dominator tree

The tree is numbered on the way down and on the way up. As for the search, the numbering with a work
list is compared with a recursive one, and nested numbers turn out to be the same as descent.

* `Numbered` — the recursive numbering, as a relation.
* `numberFrom_append` — the numbering with a work list gives the same numbers.
* `Numbered.nested_iff` — a vertex descends from another one exactly if its numbers lie between.
* `FlowGraph.dominatorTree_spec` — the tree of a control flow graph answers questions about dominance
  rightly.
-/

namespace Structuring

open Relation

variable {α : Type}

/-- A vertex with its numbers on the way down and on the way up. -/
structure Mark (α : Type) where
  vertex : α
  down : Nat
  up : Nat

def marked (L : List (Mark α)) : List α := L.map (·.vertex)

def Mark.Encloses (a b : Mark α) : Prop := a.down ≤ b.down ∧ b.up ≤ a.up

def Child (children : α → List α) (a b : α) : Prop := b ∈ children a

@[simp] theorem marked_nil : marked ([] : List (Mark α)) = [] := rfl

@[simp] theorem marked_cons (m : Mark α) (L : List (Mark α)) :
    marked (m :: L) = m.vertex :: marked L := rfl

@[simp] theorem marked_append (L₁ L₂ : List (Mark α)) :
    marked (L₁ ++ L₂) = marked L₁ ++ marked L₂ := List.map_append

theorem mem_marked_of_mem {L : List (Mark α)} {m : Mark α} (h : m ∈ L) : m.vertex ∈ marked L :=
  List.mem_map_of_mem h

variable [DecidableEq α]

/-- The numbering of the trees under some vertices from a counter on: the marks, the vertices that
are left and the counter at the end. -/
inductive Numbered (children : α → List α) :
    List α → Nat → List α → List (Mark α) → List α → Nat → Prop where
  | done {U : List α} {c : Nat} : Numbered children U c [] [] U c
  | seen {U U' : List α} {c c' : Nat} {w : α} {ws : List α} {L : List (Mark α)} :
      w ∉ U → Numbered children U c ws L U' c' → Numbered children U c (w :: ws) L U' c'
  | visit {U U₁ U₂ : List α} {c c₁ c₂ : Nat} {w : α} {ws : List α} {L₁ L₂ : List (Mark α)} :
      w ∈ U → Numbered children (Arcs.without U w) (c + 1) (children w) L₁ U₁ c₁ →
      Numbered children U₁ (c₁ + 1) ws L₂ U₂ c₂ →
      Numbered children U c (w :: ws) (⟨w, c + 1, c₁ + 1⟩ :: (L₁ ++ L₂)) U₂ c₂

namespace Numbered

variable {children : α → List α} {U U' ws : List α} {c c' : Nat} {L : List (Mark α)}

/-- The numbering visits the vertices that the search along the children visits. -/
theorem depthFirst (h : Numbered children U c ws L U' c') (p : Option α) :
    ∃ L', DepthFirst children U p ws L' U' ∧ found L' = marked L := by
  induction h generalizing p with
  | done => exact ⟨[], .done, rfl⟩
  | seen hw _ ih =>
    obtain ⟨L', h, hL⟩ := ih p
    exact ⟨L', .seen hw h, hL⟩
  | @visit U U₁ U₂ c c₁ c₂ w ws L₁ L₂ hw _ _ ih₁ ih₂ =>
    obtain ⟨L₁', h₁, hL₁⟩ := ih₁ (some w)
    obtain ⟨L₂', h₂, hL₂⟩ := ih₂ p
    exact ⟨_, .visit hw h₁ h₂, by simp [hL₁, hL₂]⟩

theorem length_le (h : Numbered children U c ws L U' c') : U'.length ≤ U.length := by
  obtain ⟨L', h', -⟩ := h.depthFirst none
  exact h'.length_le

theorem marked_nodup (h : Numbered children U c ws L U' c') : (marked L).Nodup := by
  obtain ⟨L', h', hL⟩ := h.depthFirst none
  exact hL ▸ h'.found_nodup

theorem marked_subset (h : Numbered children U c ws L U' c') : ∀ x ∈ marked L, x ∈ U := by
  obtain ⟨L', h', hL⟩ := h.depthFirst none
  exact hL ▸ h'.found_subset

theorem mem_left (h : Numbered children U c ws L U' c') {x : α} :
    x ∈ U' ↔ x ∈ U ∧ x ∉ marked L := by
  obtain ⟨L', h', hL⟩ := h.depthFirst none
  exact hL ▸ h'.mem_left

theorem mem_marked (h : Numbered children U c ws L U' c') {w : α} (hw : w ∈ ws) (hU : w ∈ U) :
    w ∈ marked L := by
  obtain ⟨L', h', hL⟩ := h.depthFirst none
  exact hL ▸ h'.mem_found hw hU

theorem closed (h : Numbered children U c ws L U' c') {u w : α} (hu : u ∈ marked L)
    (hw : w ∈ children u) (hU : w ∈ U) : w ∈ marked L := by
  obtain ⟨L', h', hL⟩ := h.depthFirst none
  rw [← hL] at hu ⊢
  exact h'.closed hu hw hU

/-- A visited vertex is one of those that are to be numbered or a child of a visited one. -/
theorem origin (h : Numbered children U c ws L U' c') {x : α} (hx : x ∈ marked L) :
    x ∈ ws ∨ ∃ y ∈ marked L, x ∈ children y := by
  obtain ⟨L', h', hL⟩ := h.depthFirst none
  rw [← hL] at hx ⊢
  obtain ⟨⟨q, x⟩, hqx, rfl⟩ := List.mem_map.1 hx
  rcases h'.origin hqx with ⟨-, hx⟩ | ⟨y, -, hy, hxy, -⟩
  · exact .inl hx
  · exact .inr ⟨y, hy, hxy⟩

/-- The numbers lie between the counters, and a vertex is left after it is entered. -/
theorem bounds (h : Numbered children U c ws L U' c') :
    c ≤ c' ∧ ∀ m ∈ L, c < m.down ∧ m.down < m.up ∧ m.up ≤ c' := by
  induction h with
  | done => simp
  | seen _ _ ih => exact ih
  | @visit U U₁ U₂ c c₁ c₂ w ws L₁ L₂ hw _ _ ih₁ ih₂ =>
    refine ⟨by omega, fun m hm => ?_⟩
    rcases List.mem_cons.1 hm with rfl | hm
    · simp only
      omega
    rcases List.mem_append.1 hm with hm | hm
    · have := ih₁.2 m hm
      omega
    · have := ih₂.2 m hm
      omega

theorem descends (h : Numbered children U c ws L U' c') {x : α} (hx : x ∈ marked L) :
    ∃ w ∈ ws, ReflTransGen (Child children) w x := by
  induction h with
  | done => cases hx
  | seen _ _ ih =>
    obtain ⟨w, hw, hwx⟩ := ih hx
    exact ⟨w, List.mem_cons_of_mem _ hw, hwx⟩
  | @visit U U₁ U₂ c c₁ c₂ w ws L₁ L₂ hw _ _ ih₁ ih₂ =>
    simp only [marked_cons, marked_append, List.mem_cons, List.mem_append] at hx
    rcases hx with rfl | hx | hx
    · exact ⟨_, List.mem_cons_self, .refl⟩
    · obtain ⟨y, hy, hyx⟩ := ih₁ hx
      exact ⟨w, List.mem_cons_self, .head hy hyx⟩
    · obtain ⟨y, hy, hyx⟩ := ih₂ hx
      exact ⟨y, List.mem_cons_of_mem _ hy, hyx⟩

theorem descends_of_encloses (h : Numbered children U c ws L U' c') {a b : Mark α} (ha : a ∈ L)
    (hb : b ∈ L) (hab : a.Encloses b) : ReflTransGen (Child children) a.vertex b.vertex := by
  induction h with
  | done => cases ha
  | seen _ _ ih => exact ih ha hb
  | @visit U U₁ U₂ c c₁ c₂ w ws L₁ L₂ hw h₁ h₂ ih₁ ih₂ =>
    obtain ⟨hdown, hup⟩ := hab
    rcases List.mem_cons.1 ha with rfl | ha <;> rcases List.mem_cons.1 hb with rfl | hb
    · exact .refl
    · rcases List.mem_append.1 hb with hb | hb
      · obtain ⟨x, hx, hxb⟩ := h₁.descends (mem_marked_of_mem hb)
        exact .head hx hxb
      · -- the numbers under the later vertices begin after the first vertex is left
        have := h₂.bounds.2 b hb
        simp only at hup
        omega
    · have : c + 1 < a.down := by
        rcases List.mem_append.1 ha with ha | ha
        · exact (h₁.bounds.2 a ha).1
        · have := (h₂.bounds.2 a ha).1
          have := h₁.bounds.1
          omega
      simp only at hdown
      omega
    · rcases List.mem_append.1 ha with ha | ha <;> rcases List.mem_append.1 hb with hb | hb
      · exact ih₁ ha hb
      · have := h₁.bounds.2 a ha
        have := h₂.bounds.2 b hb
        omega
      · have := h₂.bounds.2 a ha
        have := h₁.bounds.2 b hb
        omega
      · exact ih₂ ha hb

/-- The numbers of a child lie between those of its parent, if no vertex has two parents and the
vertices that are to be numbered have none among the unvisited ones. -/
theorem encloses_child (hparent : ∀ {a a' b : α}, b ∈ children a → b ∈ children a' → a = a')
    (h : Numbered children U c ws L U' c') (htop : ∀ w ∈ ws, ∀ a, w ∈ children a → a ∉ U)
    {a b : Mark α} (ha : a ∈ L) (hb : b ∈ L) (hab : b.vertex ∈ children a.vertex) :
    a.Encloses b := by
  induction h with
  | done => cases ha
  | seen _ _ ih => exact ih (fun w hw => htop w (List.mem_cons_of_mem _ hw)) ha hb
  | @visit U U₁ U₂ c c₁ c₂ w ws L₁ L₂ hw h₁ h₂ ih₁ ih₂ =>
    have hall := Numbered.visit hw h₁ h₂
    have hnodup := hall.marked_nodup
    rw [marked_cons, marked_append, List.nodup_cons, List.nodup_append, List.mem_append] at hnodup
    have hbw : b.vertex ≠ w := by
      intro hbw
      exact htop w List.mem_cons_self a.vertex (hbw ▸ hab)
        (hall.marked_subset _ (mem_marked_of_mem ha))
    have hbU : b.vertex ∈ Arcs.without U w :=
      Arcs.mem_without.2 ⟨hall.marked_subset _ (mem_marked_of_mem hb), hbw⟩
    have hb' : b ∈ L₁ ∨ b ∈ L₂ := by
      rcases List.mem_cons.1 hb with rfl | hb
      · exact absurd rfl hbw
      · exact List.mem_append.1 hb
    have hright : b.vertex ∈ marked L₁ → b ∈ L₁ := by
      intro hbL
      rcases hb' with hb | hb
      · exact hb
      · exact absurd rfl (hnodup.2.2.2 _ hbL _ (mem_marked_of_mem hb))
    rcases List.mem_cons.1 ha with rfl | ha
    · have hbL := h₁.bounds.2 b (hright (h₁.mem_marked hab hbU))
      exact ⟨hbL.1.le, by simp only; omega⟩
    rcases List.mem_append.1 ha with ha | ha
    · refine ih₁ (fun x hx y hxy hy => ?_) ha
        (hright (h₁.closed (mem_marked_of_mem ha) hab hbU))
      exact (Arcs.mem_without.1 hy).2 (hparent hxy hx)
    · refine ih₂ (fun x hx y hxy hy => ?_) ha (hb'.resolve_left fun hb => ?_)
      · exact htop x (List.mem_cons_of_mem _ hx) y hxy
          (Arcs.mem_without.1 (h₁.mem_left.1 hy).1).1
      · have haL := mem_marked_of_mem ha
        rcases h₁.origin (mem_marked_of_mem hb) with hbw | ⟨y, hy, hby⟩
        · rw [hparent hab hbw] at haL
          exact hnodup.1 (.inr haL)
        · exact hnodup.2.2.2 _ hy _ haL (hparent hby hab)

theorem nested_iff (hparent : ∀ {a a' b : α}, b ∈ children a → b ∈ children a' → a = a')
    (h : Numbered children U c ws L U' c') (htop : ∀ w ∈ ws, ∀ a, w ∈ children a → a ∉ U)
    (hU : ∀ a b, b ∈ children a → b ∈ U) {a b : Mark α} (ha : a ∈ L) (hb : b ∈ L) :
    a.Encloses b ↔ ReflTransGen (Child children) a.vertex b.vertex := by
  refine ⟨h.descends_of_encloses ha hb, fun hab => ?_⟩
  -- along the chain of children, all of which are visited
  have hchain : ∀ x, ReflTransGen (Child children) a.vertex x →
      ∃ m ∈ L, m.vertex = x ∧ a.Encloses m := by
    intro x hx
    induction hx with
    | refl => exact ⟨a, ha, rfl, Nat.le_refl _, Nat.le_refl _⟩
    | @tail y z _ hyz ih =>
      obtain ⟨m, hm, rfl, ham⟩ := ih
      obtain ⟨m', hm', rfl⟩ := List.mem_map.1 (h.closed (mem_marked_of_mem hm) hyz (hU _ _ hyz))
      have hmm' := h.encloses_child hparent htop hm hm' hyz
      exact ⟨m', hm', rfl, ham.1.trans hmm'.1, hmm'.2.trans ham.2⟩
  obtain ⟨m, hm, hmb, ham⟩ := hchain _ hab
  have : m = b := List.inj_on_of_nodup_map h.marked_nodup hm hb hmb
  exact this ▸ ham

end Numbered

namespace DominatorTree

/-- What a table of numbers holds after some marks are entered. -/
def Holds (number : Mark α → Nat) (L : List (Mark α)) (t t' : Table α Nat) : Prop :=
  (∀ m ∈ L, t'.get? m.vertex = some (number m)) ∧ ∀ x, x ∉ marked L → t'.get? x = t.get? x

theorem Holds.trans {number : Mark α → Nat} {L₁ L₂ : List (Mark α)} {t t' t'' : Table α Nat}
    (h₁ : Holds number L₁ t t') (h₂ : Holds number L₂ t' t'')
    (hdisjoint : ∀ x ∈ marked L₁, x ∉ marked L₂) : Holds number (L₁ ++ L₂) t t'' := by
  refine ⟨fun m hm => ?_, fun x hx => ?_⟩
  · rcases List.mem_append.1 hm with hm | hm
    · rw [h₂.2 _ (hdisjoint _ (mem_marked_of_mem hm)), h₁.1 m hm]
    · exact h₂.1 m hm
  · rw [marked_append, List.mem_append, not_or] at hx
    rw [h₂.2 x hx.2, h₁.2 x hx.1]

theorem Holds.single (number : Mark α → Nat) (m : Mark α) (t : Table α Nat) :
    Holds number [m] t (t.set m.vertex (number m)) := by
  refine ⟨fun m' hm' => ?_, fun x hx => ?_⟩
  · rw [List.mem_singleton.1 hm', Table.get?_set, if_pos rfl]
  · rw [Table.get?_set, if_neg]
    rintro rfl
    exact hx (List.mem_singleton_self _)

theorem numberFrom_append (children : α → List α) (U : List α) (c : Nat) (ws : List α) :
    ∃ L U' c', Numbered children U c ws L U' c' ∧
      ∀ (rest : List (α × Bool)) (down up : Table α Nat), ∃ down' up',
        numberFrom children U (ws.map (·, false) ++ rest) c down up =
          numberFrom children U' rest c' down' up' ∧
        Holds Mark.down L down down' ∧ Holds Mark.up L up up' := by
  -- on the number of unvisited vertices, and for one number on the list
  induction hn : U.length using Nat.strong_induction_on generalizing U c ws with
  | _ n ih =>
    induction ws generalizing U c n with
    | nil => exact ⟨[], U, c, .done, fun rest down up => ⟨down, up, rfl, by simp [Holds]⟩⟩
    | cons w ws ihws =>
      by_cases hw : w ∈ U
      · have hlt := Arcs.length_without_lt hw
        obtain ⟨L₁, U₁, c₁, h₁, hs₁⟩ := ih _ (hn ▸ hlt) (Arcs.without U w) (c + 1) (children w) rfl
        have hle := h₁.length_le
        obtain ⟨L₂, U₂, c₂, h₂, hs₂⟩ := ih U₁.length (by omega) U₁ (c₁ + 1) ws rfl
        have hall := Numbered.visit hw h₁ h₂
        refine ⟨_, U₂, c₂, hall, fun rest down up => ?_⟩
        obtain ⟨down₁, up₁, he₁, hd₁, hu₁⟩ :=
          hs₁ ((w, true) :: (ws.map (·, false) ++ rest)) (down.set w (c + 1)) up
        obtain ⟨down₂, up₂, he₂, hd₂, hu₂⟩ := hs₂ rest down₁ (up₁.set w (c₁ + 1))
        have hnodup := hall.marked_nodup
        rw [marked_cons, marked_append, List.nodup_cons, List.nodup_append, List.mem_append] at hnodup
        have hself := Holds.single Mark.down ⟨w, c + 1, c₁ + 1⟩ down
        have hself' := Holds.single Mark.up ⟨w, c + 1, c₁ + 1⟩ up₁
        refine ⟨down₂, up₂, ?_, ?_, ?_⟩
        · rw [List.map_cons, List.cons_append, numberFrom, dif_pos hw, he₁, numberFrom, he₂]
        · have := (hself.trans hd₁ ?_).trans hd₂ ?_
          · simpa using this
          · simpa using fun h => hnodup.1 (.inl h)
          · rintro x hx hx₂
            simp only [marked_cons, List.cons_append, List.nil_append, List.mem_cons] at hx
            rcases hx with rfl | hx
            · exact hnodup.1 (.inr hx₂)
            · exact hnodup.2.2.2 _ hx _ hx₂ rfl
        · -- on the way up the vertex is numbered after the tree under it
          have := (hu₁.trans hself' ?_).trans hu₂ ?_
          · refine ⟨fun m hm => this.1 m ?_, fun x hx => this.2 x fun h => hx ?_⟩
            · simp only [List.mem_cons, List.mem_append, List.not_mem_nil, or_false] at hm ⊢
              tauto
            · simp only [marked_cons, marked_append, marked_nil, List.mem_cons, List.mem_append,
                List.not_mem_nil, or_false] at h ⊢
              tauto
          · rintro x hx hx'
            rw [List.mem_singleton.1 hx'] at hx
            exact hnodup.1 (.inl hx)
          · rintro x hx hx₂
            simp only [marked_append, marked_cons, marked_nil, List.mem_append, List.mem_cons,
              List.not_mem_nil, or_false] at hx
            rcases hx with hx | rfl
            · exact hnodup.2.2.2 _ hx _ hx₂ rfl
            · exact hnodup.1 (.inr hx₂)
      · obtain ⟨L, U', c', h, hs⟩ := ihws n ih U c hn
        refine ⟨L, U', c', .seen hw h, fun rest down up => ?_⟩
        obtain ⟨down', up', he, hd, hu⟩ := hs rest down up
        refine ⟨down', up', ?_, hd, hu⟩
        rw [List.map_cons, List.cons_append, numberFrom, dif_neg hw, he]

end DominatorTree

theorem Numbered.keys_down {children : α → List α} {U U' ws : List α} {c c' : Nat}
    {L : List (Mark α)} (h : Numbered children U c ws L U' c') (rest : List (α × Bool))
    (down up : Table α Nat) (hnew : ∀ x ∈ U, x ∉ down.keys) :
    ∃ down' up', DominatorTree.numberFrom children U (ws.map (·, false) ++ rest) c down up =
        DominatorTree.numberFrom children U' rest c' down' up' ∧
      down'.keys = down.keys ++ marked L := by
  induction h generalizing rest down up with
  | done => exact ⟨down, up, rfl, by simp⟩
  | seen hw _ ih =>
    obtain ⟨down', up', he, hkeys⟩ := ih rest down up hnew
    refine ⟨down', up', ?_, hkeys⟩
    rw [List.map_cons, List.cons_append, DominatorTree.numberFrom, dif_neg hw, he]
  | @visit U U₁ U₂ c c₁ c₂ w ws L₁ L₂ hw h₁ h₂ ih₁ ih₂ =>
    have hset := Table.keys_set_new (hnew w hw) (c + 1)
    obtain ⟨down₁, up₁, he₁, hkeys₁⟩ :=
      ih₁ ((w, true) :: (ws.map (·, false) ++ rest)) (down.set w (c + 1)) up fun x hx => by
        rw [Arcs.mem_without] at hx
        rw [hset, List.mem_append, List.mem_singleton, not_or]
        exact ⟨hnew x hx.1, hx.2⟩
    rw [hset] at hkeys₁
    obtain ⟨down₂, up₂, he₂, hkeys₂⟩ := ih₂ rest down₁ (up₁.set w (c₁ + 1)) fun x hx => by
      rw [h₁.mem_left, Arcs.mem_without] at hx
      rw [hkeys₁, List.mem_append, List.mem_append, List.mem_singleton, not_or, not_or]
      exact ⟨⟨hnew x hx.1.1, hx.1.2⟩, hx.2⟩
    refine ⟨down₂, up₂, ?_, by simp [hkeys₂, hkeys₁]⟩
    rw [List.map_cons, List.cons_append, DominatorTree.numberFrom, dif_pos hw, he₁,
      DominatorTree.numberFrom, he₂]

namespace DominatorTree

/-! ## The tree of immediate dominators -/

/-- The table maps the vertices that can be reached to their immediate dominators. -/
structure IsImmediate (r : α → α → Prop) (root : α) (idom : Table α (Option α)) : Prop where
  reached : ∀ v, (∃ d, idom.get? v = some d) ↔ ReflTransGen r root v
  start : idom.get? root = some none
  parent : ∀ v, ReflTransGen r root v → v ≠ root →
    ∃ d, idom.get? v = some (some d) ∧ ImmediatelyDominates r root d v

section Tree

variable {r : α → α → Prop} {root : α} {num : α → Nat} {par : α → α → Prop}
variable {idom : Table α (Option α)} {members : List α}

theorem mem_childrenOf {a b : α} :
    b ∈ childrenOf idom members a ↔ b ∈ members ∧ idom.get? b = some (some a) := by
  simp [childrenOf]

theorem IsImmediate.of_child (hi : IsImmediate r root idom) {a b : α}
    (h : b ∈ childrenOf idom members a) :
    ReflTransGen r root b ∧ b ≠ root ∧ ImmediatelyDominates r root a b := by
  have hb := (mem_childrenOf.1 h).2
  have hreach := (hi.reached b).1 ⟨_, hb⟩
  have hne : b ≠ root := by
    rintro rfl
    rw [hi.start] at hb
    cases hb
  obtain ⟨d, hd, hdom⟩ := hi.parent b hreach hne
  rw [hb] at hd
  cases hd
  exact ⟨hreach, hne, hdom⟩

/-- To descend in the tree of immediate dominators is to be dominated. -/
theorem IsImmediate.descends_iff (T : DepthFirstTree r root num par)
    (hi : IsImmediate r root idom) (hm : ∀ v, ReflTransGen r root v → v ∈ members) {v w : α}
    (hw : ReflTransGen r root w) :
    ReflTransGen (Child (childrenOf idom members)) v w ↔ Dominates r root v w := by
  constructor
  · intro h
    clear hw
    induction h with
    | refl => exact dominates_self
    | tail _ hyz ih => exact ih.trans (hi.of_child hyz).2.2.1.2
  · intro h
    -- on the place of the dominated vertex, which is after that of its immediate dominator
    induction hn : num w using Nat.strong_induction_on generalizing w with
    | _ n ih =>
      by_cases hvw : v = w
      · rw [hvw]
      have hne : w ≠ root := by
        rintro rfl
        exact hvw (List.mem_singleton.1 (h _ (.single w)))
      obtain ⟨d, hd, ⟨hdw, hdom⟩, himm⟩ := hi.parent w hw hne
      have hlt := T.anc_lt (T.anc_of_dominates hw hdom) hdw
      exact (ih _ (hn ▸ hlt) (hdom.reach hw) (himm v ⟨hvw, h⟩) rfl).tail
        (mem_childrenOf.2 ⟨hm w hw, hd⟩)

theorem IsImmediate.missing_eq_none (hi : IsImmediate r root idom)
    (hm : ∀ v, ReflTransGen r root v → v ∈ members) :
    missing? idom (members.filter idom.contains) members root = none := by
  have hmem : ∀ v, ReflTransGen r root v → v ∈ members.filter idom.contains := by
    intro v hv
    rw [List.mem_filter, Table.contains, Option.isSome_iff_exists]
    exact ⟨hm v hv, (hi.reached v).2 hv⟩
  unfold missing?
  rw [Option.or_eq_none_iff, List.findSome?_eq_none_iff]
  refine ⟨fun v _ => ?_, ?_⟩
  · split
    · next p hp =>
      rw [if_pos]
      have hv := (hi.reached v).1 ⟨_, hp⟩
      have hne : v ≠ root := by
        rintro rfl
        rw [hi.start] at hp
        cases hp
      obtain ⟨d, hd, hdom⟩ := hi.parent v hv hne
      rw [hp] at hd
      cases hd
      exact List.contains_iff_mem.2 (hmem _ (hdom.1.2.reach hv))
    · rfl
  · rw [if_pos]
    exact List.contains_iff_mem.2 (hmem _ .refl)

/-- The numbers of a tree are given by marks, one for each vertex that can be reached, in the order of
the way down. Nested numbers are dominance. -/
structure Numbers (t : DominatorTree α) (r : α → α → Prop) (root : α) (L : List (Mark α)) : Prop where
  numbered : ∃ children U c ws U' c', Numbered children U c ws L U' c'
  down : ∀ m ∈ L, t.down.get? m.vertex = some m.down
  up : ∀ m ∈ L, t.up.get? m.vertex = some m.up
  unmarked : ∀ x, x ∉ marked L → t.down.get? x = none
  nodes_eq : t.nodes = marked L
  mem_iff : ∀ v, v ∈ marked L ↔ ReflTransGen r root v
  encloses_iff : ∀ a ∈ L, ∀ b ∈ L, a.Encloses b ↔ Dominates r root a.vertex b.vertex

theorem build_numbers (T : DepthFirstTree r root num par) (hi : IsImmediate r root idom)
    (hm : ∀ v, ReflTransGen r root v → v ∈ members) :
    ∃ t L, build idom members root = .ok t ∧ t.idom = idom ∧
      t.members = members.filter idom.contains ∧ t.Numbers r root L := by
  have hU : ∀ v, v ∈ members.filter idom.contains ↔ ReflTransGen r root v := by
    intro v
    rw [List.mem_filter, Table.contains, Option.isSome_iff_exists, hi.reached]
    exact ⟨And.right, fun hv => ⟨hm v hv, hv⟩⟩
  obtain ⟨L, U', c', h, hs⟩ := numberFrom_append (childrenOf idom members)
    (members.filter idom.contains) 0 [root]
  obtain ⟨down, up, he, hd, hu⟩ := hs [] ∅ ∅
  have hparent : ∀ {a a' b : α}, b ∈ childrenOf idom members a →
      b ∈ childrenOf idom members a' → a = a' := by
    intro a a' b ha ha'
    have := (mem_childrenOf.1 ha).2.symm.trans (mem_childrenOf.1 ha').2
    exact Option.some.inj (Option.some.inj this)
  have htop : ∀ w ∈ [root], ∀ a, w ∈ childrenOf idom members a →
      a ∉ members.filter idom.contains := by
    intro w hw a ha
    exact absurd (List.mem_singleton.1 hw) (hi.of_child ha).2.1
  have hclosed : ∀ a b, b ∈ childrenOf idom members a → b ∈ members.filter idom.contains :=
    fun a b hab => (hU b).2 (hi.of_child hab).1
  -- exactly the vertices that can be reached are numbered
  have hmarked : ∀ v, v ∈ marked L ↔ ReflTransGen r root v := by
    refine fun v => ⟨fun hv => (hU v).1 (h.marked_subset v hv), fun hv => ?_⟩
    have := (hi.descends_iff T hm hv).2 root_dominates
    induction this with
    | refl => exact h.mem_marked (List.mem_singleton_self _) ((hU root).2 .refl)
    | tail _ hyz ih =>
      exact h.closed (ih (((hi.of_child hyz).2.2.1.2).reach hv)) hyz ((hU _).2 hv)
  have he' : numberFrom (childrenOf idom members) (members.filter idom.contains)
      [(root, false)] 0 ∅ ∅ = (down, up) := by
    have : [(root, false)] = [root].map (·, false) ++ [] := rfl
    rw [this, he, numberFrom]
  refine ⟨⟨idom, members.filter idom.contains, down, up⟩, L, ?_, rfl, rfl,
    ⟨⟨_, _, _, _, _, _, h⟩, hd.1, hu.1, hd.2, ?_, hmarked, fun a ha b hb => ?_⟩⟩
  · simp only [build, hi.missing_eq_none hm, he']
  · obtain ⟨down', up', he'', hkeys⟩ := h.keys_down [] ∅ ∅ fun x _ => List.not_mem_nil
    rw [he, numberFrom, numberFrom] at he''
    cases he''
    exact hkeys
  · rw [h.nested_iff hparent htop hclosed ha hb,
      hi.descends_iff T hm ((hmarked _).1 (mem_marked_of_mem hb))]

/-- A tree with such numbers answers questions about dominance rightly. -/
theorem Numbers.dominates_iff {t : DominatorTree α} {L : List (Mark α)} (h : t.Numbers r root L)
    {v w : α} : t.dominates v w = true ↔ ReflTransGen r root w ∧ Dominates r root v w := by
  by_cases hw : w ∈ marked L
  · by_cases hv : v ∈ marked L
    · obtain ⟨a, ha, rfl⟩ := List.mem_map.1 hv
      obtain ⟨b, hb, rfl⟩ := List.mem_map.1 hw
      have hnested := h.encloses_iff a ha b hb
      unfold dominates
      simp only [h.down a ha, h.down b hb, h.up a ha, h.up b hb, Bool.and_eq_true, decide_eq_true_eq]
      exact hnested.trans (by simp [(h.mem_iff _).1 hw])
    · have hfalse : t.dominates v w = false := by
        simp only [dominates, h.unmarked v hv]
      rw [hfalse]
      refine ⟨fun h => (Bool.false_ne_true h).elim, fun hdom => ?_⟩
      exact absurd ((h.mem_iff v).2 (hdom.2.reach hdom.1)) hv
  · have hfalse : t.dominates v w = false := by
      unfold dominates
      split
      · next hdown _ _ =>
        rw [h.unmarked w hw] at hdown
        cases hdown
      · rfl
    rw [hfalse]
    exact ⟨fun h => (Bool.false_ne_true h).elim, fun hr => absurd ((h.mem_iff w).2 hr.1) hw⟩

/-- The tree of immediate dominators is built, and it answers questions about dominance rightly. -/
theorem build_spec (T : DepthFirstTree r root num par) (hi : IsImmediate r root idom)
    (hm : ∀ v, ReflTransGen r root v → v ∈ members) :
    ∃ t, build idom members root = .ok t ∧ ∀ v w, t.dominates v w = true ↔
      ReflTransGen r root w ∧ Dominates r root v w := by
  obtain ⟨t, L, ht, -, -, hnumbers⟩ := build_numbers T hi hm
  exact ⟨t, ht, fun v w => hnumbers.dominates_iff⟩

end Tree

end DominatorTree

namespace FlowGraph

/-- The dominator tree of a control flow graph whose entry is a member is built, and it answers
questions about dominance rightly. -/
theorem dominatorTree_spec {g : FlowGraph} {root : NodeId} (hg : g.toDigraph.Closed)
    (hroot : g.entry = some root) (hmem : root ∈ g.ids) :
    ∃ t, g.dominatorTree .semidominators = .ok t ∧ ∀ v w, t.dominates v w = true ↔
      ReflTransGen g.Leads root w ∧ Dominates g.Leads root v w := by
  obtain ⟨idom, hidom, hreach, hstart, himm⟩ := Arcs.immediateDominators_spec hg.coherent root
  have T := Arcs.search_tree hg.coherent root
  rw [Digraph.arcs_step_eq] at hreach himm T
  have hm : ∀ v, ReflTransGen g.Leads root v → v ∈ g.ids := fun v hv => hg.reach_mem hmem hv
  obtain ⟨t, ht, hdom⟩ := DominatorTree.build_spec T ⟨hreach, hstart, himm⟩ hm
  refine ⟨t, ?_, hdom⟩
  unfold dominatorTree treeOn
  rw [hroot]
  simp only [idomBy, hidom, bind, Except.bind, ht]
  rfl

end FlowGraph

end Structuring
