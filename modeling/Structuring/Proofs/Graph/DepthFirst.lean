import Mathlib.Data.List.Nodup
import Mathlib.Logic.Relation
import Mathlib.Tactic
import Structuring.Graph.Search

/-!
# Depth-first search

The search with a work list is compared with the search that visits a vertex, then all that is found
from its first neighbour, then all that is found from the next one, and so on.

* `DepthFirst` — the recursive search, as a relation.
* `searchFrom_append` — the search with a work list finds the same in the same order.
* `DepthFirst.span` — what is found between a vertex and one of its neighbours descends from that
  vertex.
* `Arcs.mem_reachable` — the search finds what can be reached.
-/

namespace Structuring

open Relation

variable {α : Type}

def found (L : List (Option α × α)) : List α := L.map (·.2)

def FoundFrom (L : List (Option α × α)) (u v : α) : Prop := (some u, v) ∈ L

/-- Ways down among what is found below a vertex, or beside it, are ways down among all. -/
theorem foundFrom_below {p : Option α} {v y z : α} {L₁ : List (Option α × α)}
    (L₂ : List (Option α × α)) (h : ReflTransGen (FoundFrom L₁) y z) :
    ReflTransGen (FoundFrom ((p, v) :: (L₁ ++ L₂))) y z :=
  ReflTransGen.mono (fun _ _ h => List.mem_cons_of_mem _ (List.mem_append_left _ h)) _ _ h

theorem foundFrom_beside {p : Option α} {v y z : α} (L₁ : List (Option α × α))
    {L₂ : List (Option α × α)} (h : ReflTransGen (FoundFrom L₂) y z) :
    ReflTransGen (FoundFrom ((p, v) :: (L₁ ++ L₂))) y z :=
  ReflTransGen.mono (fun _ _ h => List.mem_cons_of_mem _ (List.mem_append_right _ h)) _ _ h

@[simp] theorem found_nil : found ([] : List (Option α × α)) = [] := rfl

@[simp] theorem found_cons (p : Option α) (v : α) (L : List (Option α × α)) :
    found ((p, v) :: L) = v :: found L := rfl

@[simp] theorem found_append (L₁ L₂ : List (Option α × α)) :
    found (L₁ ++ L₂) = found L₁ ++ found L₂ := List.map_append

theorem mem_found_of_mem {L : List (Option α × α)} {q : Option α} {x : α} (h : (q, x) ∈ L) :
    x ∈ found L := List.mem_map_of_mem (f := (·.2)) h

variable [DecidableEq α]

/-- The search of the vertices `ws`, all of them neighbours of `p`: what it finds among the vertices
`U`, and those that are left. -/
inductive DepthFirst (next : α → List α) :
    List α → Option α → List α → List (Option α × α) → List α → Prop where
  | done {U : List α} {p : Option α} : DepthFirst next U p [] [] U
  | seen {U U' : List α} {p : Option α} {w : α} {ws : List α} {L : List (Option α × α)} :
      w ∉ U → DepthFirst next U p ws L U' → DepthFirst next U p (w :: ws) L U'
  | visit {U U₁ U₂ : List α} {p : Option α} {w : α} {ws : List α} {L₁ L₂ : List (Option α × α)} :
      w ∈ U → DepthFirst next (Arcs.without U w) (some w) (next w) L₁ U₁ →
      DepthFirst next U₁ p ws L₂ U₂ → DepthFirst next U p (w :: ws) ((p, w) :: (L₁ ++ L₂)) U₂

/-- Places in a list without repetitions that consists of a head and two parts. -/
theorem idxOf_visit {v x : α} {A B : List α} (h : (v :: (A ++ B)).Nodup) :
    (v :: (A ++ B)).idxOf v = 0 ∧
    (x ∈ A → (v :: (A ++ B)).idxOf x = A.idxOf x + 1) ∧
    (x ∈ B → (v :: (A ++ B)).idxOf x = A.length + B.idxOf x + 1) := by
  rw [List.nodup_cons, List.nodup_append, List.mem_append] at h
  refine ⟨List.idxOf_cons_self, fun hx => ?_, fun hx => ?_⟩
  · have hvx : v ≠ x := fun hv => h.1 (.inl (hv ▸ hx))
    rw [List.idxOf_cons_ne _ hvx, List.idxOf_append_of_mem hx]
  · have hvx : v ≠ x := fun hv => h.1 (.inr (hv ▸ hx))
    have hxA : x ∉ A := fun hA => h.2.2.2 x hA x hx rfl
    rw [List.idxOf_cons_ne _ hvx, List.idxOf_append_of_notMem hxA]

namespace DepthFirst

variable {next : α → List α} {U U' ws : List α} {p : Option α} {L : List (Option α × α)}

theorem length_le (h : DepthFirst next U p ws L U') : U'.length ≤ U.length := by
  induction h with
  | done => exact Nat.le_refl _
  | seen _ _ ih => exact ih
  | visit hw _ _ ih₁ ih₂ =>
    have := Arcs.length_without_lt hw
    omega

theorem found_subset (h : DepthFirst next U p ws L U') : ∀ x ∈ found L, x ∈ U := by
  have hleft : (∀ x ∈ found L, x ∈ U) ∧ ∀ x ∈ U', x ∈ U := by
    induction h with
    | done => simp
    | seen _ _ ih => exact ih
    | @visit U U₁ U₂ p w ws L₁ L₂ hw _ _ ih₁ ih₂ =>
      simp only [Arcs.mem_without] at ih₁
      refine ⟨fun x hx => ?_, fun x hx => (ih₁.2 x (ih₂.2 x hx)).1⟩
      simp only [found_cons, found_append, List.mem_cons, List.mem_append] at hx
      rcases hx with rfl | hx | hx
      · exact hw
      · exact (ih₁.1 x hx).1
      · exact (ih₁.2 x (ih₂.1 x hx)).1
  exact hleft.1

theorem mem_left (h : DepthFirst next U p ws L U') {x : α} : x ∈ U' ↔ x ∈ U ∧ x ∉ found L := by
  induction h with
  | done => simp
  | seen _ _ ih => exact ih
  | visit _ _ _ ih₁ ih₂ =>
    rw [ih₂, ih₁]
    simp only [Arcs.mem_without, found_cons, found_append, List.mem_cons, List.mem_append]
    tauto

theorem found_nodup (h : DepthFirst next U p ws L U') : (found L).Nodup := by
  induction h with
  | done => exact List.nodup_nil
  | seen _ _ ih => exact ih
  | visit _ h₁ h₂ ih₁ ih₂ =>
    rw [found_cons, found_append, List.nodup_cons, List.nodup_append, List.mem_append]
    refine ⟨?_, ih₁, ih₂, ?_⟩
    · rintro (hx | hx)
      · exact (Arcs.mem_without.1 (h₁.found_subset _ hx)).2 rfl
      · exact (Arcs.mem_without.1 (h₁.mem_left.1 (h₂.found_subset _ hx)).1).2 rfl
    · rintro x hx y hy rfl
      exact (h₁.mem_left.1 (h₂.found_subset _ hy)).2 hx

theorem mem_found (h : DepthFirst next U p ws L U') {w : α} (hw : w ∈ ws) (hU : w ∈ U) :
    w ∈ found L := by
  induction h with
  | done => cases hw
  | seen hv _ ih =>
    rcases List.mem_cons.1 hw with rfl | hw
    · exact absurd hU hv
    · exact ih hw hU
  | @visit U U₁ U₂ p v ws L₁ L₂ hv h₁ _ _ ih₂ =>
    simp only [found_cons, found_append, List.mem_cons, List.mem_append]
    by_cases hwv : w = v
    · exact .inl hwv
    by_cases hL : w ∈ found L₁
    · exact .inr (.inl hL)
    · have hw' : w ∈ ws := (List.mem_cons.1 hw).resolve_left hwv
      exact .inr (.inr (ih₂ hw' (h₁.mem_left.2 ⟨Arcs.mem_without.2 ⟨hU, hwv⟩, hL⟩)))

/-- A neighbour of a found vertex is found too, if it is among the vertices. -/
theorem closed (h : DepthFirst next U p ws L U') {u w : α} (hu : u ∈ found L) (hw : w ∈ next u)
    (hU : w ∈ U) : w ∈ found L := by
  induction h with
  | done => cases hu
  | seen _ _ ih => exact ih hu hU
  | @visit U U₁ U₂ p v ws L₁ L₂ hv h₁ _ ih₁ ih₂ =>
    simp only [found_cons, found_append, List.mem_cons, List.mem_append] at hu ⊢
    by_cases hwv : w = v
    · exact .inl hwv
    have hU₁ : w ∈ Arcs.without U v := Arcs.mem_without.2 ⟨hU, hwv⟩
    by_cases hL : w ∈ found L₁
    · exact .inr (.inl hL)
    rcases hu with rfl | hu | hu
    · exact .inr (.inl (h₁.mem_found hw hU₁))
    · exact .inr (.inl (ih₁ hu hU₁))
    · exact .inr (.inr (ih₂ hu (h₁.mem_left.2 ⟨hU₁, hL⟩)))

/-- From a vertex and from what is found below it, no arc leads to a vertex that is left but those
found there. -/
theorem mem_below {v : α} (h : DepthFirst next (Arcs.without U v) (some v) (next v) L U') {u w : α}
    (hu : u = v ∨ u ∈ found L) (huw : w ∈ next u) (hw : w ∈ U) (hne : w ≠ v) : w ∈ found L := by
  have hleft := Arcs.mem_without.2 ⟨hw, hne⟩
  rcases hu with rfl | hu
  · exact h.mem_found huw hleft
  · exact h.closed hu huw hleft

/-- A vertex is found as one of those that are sought, or from a vertex found before. -/
theorem origin (h : DepthFirst next U p ws L U') {q : Option α} {x : α} (hx : (q, x) ∈ L) :
    (q = p ∧ x ∈ ws) ∨ ∃ y, q = some y ∧ y ∈ found L ∧ x ∈ next y ∧
      (found L).idxOf y < (found L).idxOf x := by
  induction h with
  | done => cases hx
  | seen _ _ ih =>
    rcases ih hx with ⟨hq, hx⟩ | h
    · exact .inl ⟨hq, List.mem_cons_of_mem _ hx⟩
    · exact .inr h
  | @visit U U₁ U₂ p v ws L₁ L₂ hv h₁ h₂ ih₁ ih₂ =>
    have hnodup := (DepthFirst.visit hv h₁ h₂).found_nodup
    rw [found_cons, found_append] at hnodup ⊢
    obtain ⟨hv0, -, -⟩ := idxOf_visit (x := v) hnodup
    simp only [List.mem_cons, List.mem_append] at hx ⊢
    rcases hx with hx | hx | hx
    · cases hx
      exact .inl ⟨rfl, .inl rfl⟩
    · have hx' := (idxOf_visit (x := x) hnodup).2.1 (mem_found_of_mem hx)
      right
      rcases ih₁ hx with ⟨rfl, hvx⟩ | ⟨y, rfl, hy, hxy, hlt⟩
      · exact ⟨v, rfl, .inl rfl, hvx, by omega⟩
      · have hy' := (idxOf_visit (x := y) hnodup).2.1 hy
        exact ⟨y, rfl, .inr (.inl hy), hxy, by omega⟩
    · have hx' := (idxOf_visit (x := x) hnodup).2.2 (mem_found_of_mem hx)
      rcases ih₂ hx with ⟨hq, hxs⟩ | ⟨y, rfl, hy, hxy, hlt⟩
      · exact .inl ⟨hq, .inr hxs⟩
      · have hy' := (idxOf_visit (x := y) hnodup).2.2 hy
        exact .inr ⟨y, rfl, .inr (.inr hy), hxy, by omega⟩

/-- What is found while neighbours of `a` are sought descends from `a`. -/
theorem descends (h : DepthFirst next U p ws L U') {a x : α} (ha : p = some a) (hx : x ∈ found L) :
    ReflTransGen (FoundFrom L) a x := by
  induction h generalizing a x with
  | done => cases hx
  | seen _ _ ih => exact ih ha hx
  | @visit U U₁ U₂ p v ws L₁ L₂ hv h₁ h₂ ih₁ ih₂ =>
    subst ha
    simp only [found_cons, found_append, List.mem_cons, List.mem_append] at hx
    have hav : FoundFrom ((some a, v) :: (L₁ ++ L₂)) a v := List.mem_cons_self
    rcases hx with rfl | hx | hx
    · exact .single hav
    · exact .head hav (foundFrom_below L₂ (ih₁ rfl hx))
    · exact foundFrom_beside L₁ (ih₂ rfl hx)

/-- What is found between a vertex and one of its neighbours, the neighbour included, descends from
the vertex. -/
theorem span (h : DepthFirst next U p ws L U') {u w x : α} (hu : u ∈ found L) (hw : w ∈ found L)
    (hx : x ∈ found L) (huw : w ∈ next u) (hux : (found L).idxOf u ≤ (found L).idxOf x)
    (hxw : (found L).idxOf x ≤ (found L).idxOf w) : ReflTransGen (FoundFrom L) u x := by
  induction h with
  | done => cases hu
  | seen _ _ ih => exact ih hu hw hx hux hxw
  | @visit U U₁ U₂ p v ws L₁ L₂ hv h₁ h₂ ih₁ ih₂ =>
    have hsub := (DepthFirst.visit hv h₁ h₂).found_subset
    have hnodup := (DepthFirst.visit hv h₁ h₂).found_nodup
    rw [found_cons, found_append] at hsub hnodup hux hxw hu hw hx
    have hplace := fun y => idxOf_visit (x := y) hnodup
    have hlen : ∀ y ∈ found L₁, (found L₁).idxOf y < (found L₁).length :=
      fun y hy => List.idxOf_lt_length_of_mem hy
    simp only [List.mem_cons, List.mem_append] at hu hw hx
    have hv0 := (hplace v).1
    rcases hu with rfl | hu | hu
    · -- the first vertex: its neighbours are all found below it
      rcases hx with rfl | hx | hx
      · exact .refl
      · exact foundFrom_below L₂ (h₁.descends rfl hx)
      · have hx' := (hplace x).2.2 hx
        by_cases hwu : w = u
        · rw [hwu] at hxw
          omega
        · have hwL := h₁.mem_below (.inl rfl) huw (hsub w (by simpa using hw)) hwu
          have hw' := (hplace w).2.1 hwL
          have := hlen w hwL
          omega
    · have hu' := (hplace u).2.1 hu
      have hwv : w ≠ v := by
        rintro rfl
        omega
      have hwL := h₁.mem_below (.inr hu) huw (hsub w (by simpa using hw)) hwv
      have hw' := (hplace w).2.1 hwL
      have := hlen w hwL
      rcases hx with rfl | hx | hx
      · omega
      · have hx' := (hplace x).2.1 hx
        exact foundFrom_below L₂ (ih₁ hu hwL hx (by omega) (by omega))
      · have hx' := (hplace x).2.2 hx
        omega
    · have hu' := (hplace u).2.2 hu
      have hafter : ∀ y, (y = v ∨ y ∈ found L₁ ∨ y ∈ found L₂) →
          (v :: (found L₁ ++ found L₂)).idxOf u ≤ (v :: (found L₁ ++ found L₂)).idxOf y →
          y ∈ found L₂ := by
        rintro y (rfl | hy | hy) huy
        · omega
        · have hy' := (hplace y).2.1 hy
          have := hlen y hy
          omega
        · exact hy
      have hxL := hafter x hx hux
      have hwL := hafter w hw (hux.trans hxw)
      have hx' := (hplace x).2.2 hxL
      have hw' := (hplace w).2.2 hwL
      exact foundFrom_beside L₁ (ih₂ hu hwL hxL (by omega) (by omega))

end DepthFirst

theorem searchFrom_append (next : α → List α) (U : List α) (p : Option α) (ws : List α) :
    ∃ L U', DepthFirst next U p ws L U' ∧ ∀ rest : List (Option α × α),
      Arcs.searchFrom next U (ws.map (p, ·) ++ rest) = L ++ Arcs.searchFrom next U' rest := by
  -- on the number of unvisited vertices, and for one number on the list
  induction hn : U.length using Nat.strong_induction_on generalizing U p ws with
  | _ n ih =>
    induction ws generalizing U n with
    | nil => exact ⟨[], U, .done, fun rest => rfl⟩
    | cons w ws ihws =>
      by_cases hw : w ∈ U
      · have hlt := Arcs.length_without_lt hw
        obtain ⟨L₁, U₁, h₁, hs₁⟩ := ih _ (hn ▸ hlt) (Arcs.without U w) (some w) (next w) rfl
        have hle := h₁.length_le
        obtain ⟨L₂, U₂, h₂, hs₂⟩ := ih U₁.length (by omega) U₁ p ws rfl
        refine ⟨_, U₂, .visit hw h₁ h₂, fun rest => ?_⟩
        rw [List.map_cons, List.cons_append, Arcs.searchFrom, dif_pos hw, hs₁, hs₂]
        simp
      · obtain ⟨L, U', h, hs⟩ := ihws n ih U hn
        refine ⟨L, U', .seen hw h, fun rest => ?_⟩
        rw [List.map_cons, List.cons_append, Arcs.searchFrom, dif_neg hw, hs]

/-- A tree of vertices in the order of a depth-first search. `num` gives the place of a vertex and
`par u v` says that `v` is found from `u`. -/
structure DepthFirstTree (r : α → α → Prop) (root : α) (num : α → Nat) (par : α → α → Prop) :
    Prop where
  step : ∀ {u v : α}, par u v → r u v ∧ num u < num v
  unique : ∀ {u v w : α}, par u w → par v w → u = v
  parent : ∀ {v : α}, ReflTransGen r root v → v ≠ root → ∃ u, par u v ∧ ReflTransGen r root u
  inj : ∀ {u v : α}, ReflTransGen r root u → ReflTransGen r root v → num u = num v → u = v
  span : ∀ {u w x : α}, ReflTransGen r root u → r u w → ReflTransGen r root x →
    num u ≤ num x → num x ≤ num w → ReflTransGen par u x

namespace Arcs

def Step (G : Arcs α) (u v : α) : Prop := v ∈ G.next u

/-- The arcs lead from vertices to vertices, and the two directions tell of the same arcs. -/
structure Coherent (G : Arcs α) : Prop where
  ends_mem : ∀ {u v : α}, v ∈ G.next u → u ∈ G.vertices ∧ v ∈ G.vertices
  mem_back : ∀ {u v : α}, u ∈ G.back v ↔ v ∈ G.next u

omit [DecidableEq α] in
theorem Coherent.reverse {G : Arcs α} (hG : G.Coherent) : G.reverse.Coherent where
  ends_mem h := (hG.ends_mem (hG.mem_back.1 h)).symm
  mem_back := hG.mem_back.symm

omit [DecidableEq α] in
theorem Coherent.reach_mem {G : Arcs α} (hG : G.Coherent) {u v : α} (hu : u ∈ G.vertices)
    (h : ReflTransGen G.Step u v) : v ∈ G.vertices := by
  cases h with
  | refl => exact hu
  | tail _ h => exact (hG.ends_mem h).2

def number (G : Arcs α) (start v : α) : Nat := (G.reachable start).idxOf v

variable (G : Arcs α) (start : α)

theorem search_depthFirst : ∃ L U', G.search start = (none, start) :: L ∧
    DepthFirst G.next (G.withStart start) none [start] (G.search start) U' := by
  obtain ⟨L, U', h, hs⟩ := searchFrom_append G.next (G.withStart start) none [start]
  have hL : G.search start = L := by
    have := hs []
    rwa [searchFrom, List.append_nil, List.append_nil] at this
  cases h with
  | seen hn _ => exact absurd List.mem_cons_self hn
  | visit hw h₁ h₂ =>
    rw [hL]
    exact ⟨_, _, rfl, .visit hw h₁ h₂⟩

theorem search_head : ∃ L, G.search start = (none, start) :: L := by
  obtain ⟨L, _, hL, _⟩ := search_depthFirst G start
  exact ⟨L, hL⟩

theorem reachable_nodup : (G.reachable start).Nodup := by
  obtain ⟨_, _, _, h⟩ := search_depthFirst G start
  exact h.found_nodup

variable {G start}

theorem mem_reachable (hG : G.Coherent) {v : α} :
    v ∈ G.reachable start ↔ ReflTransGen G.Step start v := by
  obtain ⟨L, U', hL, h⟩ := search_depthFirst G start
  constructor
  · intro hv
    -- on the place of the vertex: it is found from a vertex at an earlier place
    induction hn : (found (G.search start)).idxOf v using Nat.strong_induction_on generalizing v with
    | _ n ih =>
      obtain ⟨⟨q, v⟩, hqv, rfl⟩ := List.mem_map.1 hv
      rcases h.origin hqv with ⟨_, hv⟩ | ⟨y, _, hy, hyv, hlt⟩
      · rw [List.mem_singleton.1 hv]
      · exact (ih _ (hn ▸ hlt) hy rfl).tail hyv
  · intro hv
    induction hv with
    | refl => exact h.mem_found (List.mem_singleton_self _) List.mem_cons_self
    | @tail u v _ huv ih =>
      refine h.closed ih huv ?_
      by_cases hvs : v = start
      · exact hvs ▸ List.mem_cons_self
      · exact List.mem_cons_of_mem _ (mem_without.2 ⟨(hG.ends_mem huv).2, hvs⟩)

theorem number_start : G.number start start = 0 := by
  obtain ⟨L, hL⟩ := search_head G start
  rw [number, reachable, hL, List.map_cons, List.idxOf_cons_self]

theorem search_tree (hG : G.Coherent) (start : α) :
    DepthFirstTree G.Step start (G.number start) (FoundFrom (G.search start)) := by
  obtain ⟨L, U', hL, h⟩ := search_depthFirst G start
  refine ⟨?_, ?_, ?_, ?_, ?_⟩
  · intro u v huv
    rcases h.origin huv with ⟨hq, _⟩ | ⟨y, hq, _, hyv, hlt⟩
    · cases hq
    · cases hq
      exact ⟨hyv, hlt⟩
  · intro u v w huw hvw
    have := List.inj_on_of_nodup_map h.found_nodup huw hvw rfl
    exact Option.some.inj (congrArg Prod.fst this)
  · intro v hv hne
    obtain ⟨⟨q, v⟩, hqv, rfl⟩ := List.mem_map.1 ((mem_reachable hG).2 hv)
    rcases h.origin hqv with ⟨_, hv⟩ | ⟨y, rfl, hy, _⟩
    · exact absurd (List.mem_singleton.1 hv) hne
    · exact ⟨y, hqv, (mem_reachable hG).1 hy⟩
  · intro u v hu hv huv
    exact (List.idxOf_inj ((mem_reachable hG).2 hu)).1 huv
  · intro u w x hu huw hx hux hxw
    have hw := (mem_reachable hG).2 (hu.tail huw)
    exact h.span ((mem_reachable hG).2 hu) hw ((mem_reachable hG).2 hx) huw hux hxw

end Arcs

end Structuring
