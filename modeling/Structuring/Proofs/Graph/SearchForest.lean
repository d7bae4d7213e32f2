import Structuring.Proofs.Graph.Multigraph

/-!
# The forest of a depth-first search

A search with a work list and a search that keeps the neighbours left to look at are both the
recursive search, in which a vertex is visited, then all its neighbours are searched, and then it is
finished.

* `Forest` — what a recursive search finds, with its two orders.
* `Arcs.visitAll`, `Arcs.forest` — the recursive search.
* `Arcs.search_eq_preorder`, `Arcs.reversePostOrder_eq` — the two searches are its two orders.
* `Arcs.ancestor_of_finished_le` — an arc to a vertex that is not finished before its source leads
  back to an ancestor.
* `Digraph.searches_are_recursive` — the statement for multigraphs.
-/

namespace Structuring

open Relation

variable {α : Type}

/-- Trees side by side: the first one is a vertex and the forest below it. -/
inductive Forest (α : Type) where
  | nil
  | node (v : α) (below beside : Forest α)

namespace Forest

/-- The vertices in the order in which they are visited, each with the vertex right above it. What
is above the whole forest is `p`. -/
def preorder (p : Option α) : Forest α → List (Option α × α)
  | nil => []
  | node v below beside => (p, v) :: (below.preorder (some v) ++ beside.preorder p)

def postorder : Forest α → List α
  | nil => []
  | node v below beside => below.postorder ++ v :: beside.postorder

theorem postorder_perm (p : Option α) (F : Forest α) : F.postorder.Perm (found (F.preorder p)) := by
  induction F generalizing p with
  | nil => exact .refl _
  | node v below beside ihBelow ihBeside =>
    rw [postorder, preorder, found_cons, found_append]
    exact List.perm_middle.trans (((ihBelow (some v)).append (ihBeside p)).cons v)

theorem mem_postorder (p : Option α) {F : Forest α} {x : α} :
    x ∈ F.postorder ↔ x ∈ found (F.preorder p) := (F.postorder_perm p).mem_iff

end Forest

variable [DecidableEq α]

/-- Places in a list without repetitions that consists of two parts and an element between them. -/
theorem idxOf_finish {v x : α} {A B : List α} (h : (A ++ v :: B).Nodup) :
    (A ++ v :: B).idxOf v = A.length ∧
    (x ∈ A → (A ++ v :: B).idxOf x = A.idxOf x) ∧
    (x ∈ B → (A ++ v :: B).idxOf x = A.length + B.idxOf x + 1) := by
  rw [List.nodup_append, List.nodup_cons] at h
  obtain ⟨-, ⟨hvB, -⟩, hdisjoint⟩ := h
  have hvA : v ∉ A := fun hv => hdisjoint v hv v List.mem_cons_self rfl
  refine ⟨?_, fun hx => List.idxOf_append_of_mem hx, fun hx => ?_⟩
  · rw [List.idxOf_append_of_notMem hvA, List.idxOf_cons_self, Nat.add_zero]
  · have hxA : x ∉ A := fun hxA => hdisjoint x hxA x (List.mem_cons_of_mem _ hx) rfl
    have hvx : v ≠ x := fun hv => hvB (hv ▸ hx)
    rw [List.idxOf_append_of_notMem hxA, List.idxOf_cons_ne _ hvx, Nat.add_succ]

theorem idxOf_reverse {as : List α} (has : as.Nodup) {a : α} (ha : a ∈ as) :
    as.reverse.idxOf a + as.idxOf a + 1 = as.length := by
  induction as with
  | nil => cases ha
  | cons b bs ih =>
    rw [List.nodup_cons] at has
    rw [List.reverse_cons, List.length_cons]
    by_cases hab : a = b
    · subst hab
      rw [List.idxOf_append_of_notMem (by simpa using has.1), List.idxOf_cons_self,
        List.idxOf_cons_self, List.length_reverse]
    · have hmem : a ∈ bs := (List.mem_cons.1 ha).resolve_left hab
      rw [List.idxOf_append_of_mem (List.mem_reverse.2 hmem), List.idxOf_cons_ne _ (Ne.symm hab)]
      have := ih has.2 hmem
      omega

namespace DepthFirst

variable {next : α → List α} {U U' U'' ws : List α} {p : Option α} {L L' : List (Option α × α)}

theorem unique (h : DepthFirst next U p ws L U') (h' : DepthFirst next U p ws L' U'') :
    L = L' ∧ U' = U'' := by
  induction h generalizing L' U'' with
  | done =>
    cases h'
    exact ⟨rfl, rfl⟩
  | seen hw _ ih =>
    cases h' with
    | seen _ h' => exact ih h'
    | visit hw' _ _ => exact absurd hw' hw
  | visit hw _ _ ih₁ ih₂ =>
    cases h' with
    | seen hw' _ => exact absurd hw hw'
    | visit _ h₁ h₂ =>
      obtain ⟨rfl, rfl⟩ := ih₁ h₁
      obtain ⟨rfl, rfl⟩ := ih₂ h₂
      exact ⟨rfl, rfl⟩

end DepthFirst

namespace Arcs

/-- The recursive search of vertices one after the other: a vertex that is still unvisited is
visited, and all its neighbours are searched before the next one. Gives what is found, and the
vertices that are unvisited afterwards. -/
def visitAll (next : α → List α) (unvisited : List α) (ws : List α) :
    { r : Forest α × List α // r.2.length ≤ unvisited.length } :=
  match ws with
  | [] => ⟨(.nil, unvisited), Nat.le_refl _⟩
  | w :: ws =>
    if h : w ∈ unvisited then
      have hlt := length_without_lt h
      let below := visitAll next (without unvisited w) (next w)
      let beside := visitAll next below.1.2 ws
      ⟨(.node w below.1.1 beside.1.1, beside.1.2),
        beside.2.trans (below.2.trans (Nat.le_of_lt hlt))⟩
    else visitAll next unvisited ws
termination_by (unvisited.length, ws.length)
decreasing_by
  · exact Prod.Lex.left _ _ hlt
  · exact Prod.Lex.left _ _ (Nat.lt_of_le_of_lt below.2 hlt)
  · exact Prod.Lex.right _ (by simp)

def forest (G : Arcs α) (start : α) : Forest α := (visitAll G.next (G.withStart start) [start]).1.1

variable {next : α → List α} {U ws : List α} {w : α}

theorem visitAll_nil : (visitAll next U []).1 = (.nil, U) := by
  rw [visitAll]

theorem visitAll_seen (hw : w ∉ U) : (visitAll next U (w :: ws)).1 = (visitAll next U ws).1 := by
  rw [visitAll, dif_neg hw]

theorem visitAll_visit (hw : w ∈ U) : (visitAll next U (w :: ws)).1 =
    (.node w (visitAll next (without U w) (next w)).1.1
      (visitAll next (visitAll next (without U w) (next w)).1.2 ws).1.1,
      (visitAll next (visitAll next (without U w) (next w)).1.2 ws).1.2) := by
  rw [visitAll, dif_pos hw]

theorem visitAll_depthFirst (next : α → List α) (U : List α) (p : Option α) (ws : List α) :
    DepthFirst next U p ws ((visitAll next U ws).1.1.preorder p) (visitAll next U ws).1.2 := by
  induction U, ws using visitAll.induct next generalizing p with
  | case1 U =>
    rw [visitAll_nil]
    exact .done
  | case2 U w ws hw _ _ ihBelow _ ihBeside =>
    rw [visitAll_visit hw]
    exact .visit hw (ihBelow (some w)) (ihBeside p)
  | case3 U w ws hw ih =>
    rw [visitAll_seen hw]
    exact .seen hw (ih p)

theorem search_eq_preorder (G : Arcs α) (start : α) :
    G.search start = (G.forest start).preorder none := by
  obtain ⟨-, U', -, h⟩ := search_depthFirst G start
  exact (h.unique (visitAll_depthFirst G.next (G.withStart start) none [start])).1

/-- The search that keeps the neighbours left to look at finishes them as the recursive search
does. -/
theorem finishFrom_eq (next : α → List α) (U ws : List α) (v : α) (rest : List (α × List α))
    (order : List α) :
    finishFrom next U ((v, ws) :: rest) order = finishFrom next (visitAll next U ws).1.2 rest
      (v :: ((visitAll next U ws).1.1.postorder.reverse ++ order)) := by
  induction U, ws using visitAll.induct next generalizing v rest order with
  | case1 U =>
    rw [visitAll_nil, finishFrom]
    rfl
  | case2 U w ws hw _ _ ihBelow _ ihBeside =>
    rw [finishFrom, dif_pos hw, ihBelow, ihBeside, visitAll_visit hw]
    simp [Forest.postorder]
  | case3 U w ws hw ih =>
    rw [finishFrom, dif_neg hw, ih, visitAll_seen hw]

theorem reversePostOrder_eq (G : Arcs α) (start : α) :
    G.reversePostOrder start = (G.forest start).postorder.reverse := by
  have hstart : without (G.withStart start) start = without G.vertices start := by
    simp [withStart, without]
  have hforest : G.forest start =
      .node start (visitAll G.next (without G.vertices start) (G.next start)).1.1 .nil := by
    have hmem : start ∈ G.withStart start := List.mem_cons_self
    rw [forest, visitAll_visit hmem, visitAll_nil, hstart]
  rw [reversePostOrder, finishFrom_eq, finishFrom, hforest]
  simp [Forest.postorder]

theorem ancestor_of_finished_le (next : α → List α) (U : List α) (p : Option α) (ws : List α)
    {u v : α} (hu : u ∈ (visitAll next U ws).1.1.postorder)
    (hv : v ∈ (visitAll next U ws).1.1.postorder) (huv : v ∈ next u)
    (hle : (visitAll next U ws).1.1.postorder.idxOf u ≤
      (visitAll next U ws).1.1.postorder.idxOf v) :
    ReflTransGen (FoundFrom ((visitAll next U ws).1.1.preorder p)) v u := by
  induction U, ws using visitAll.induct next generalizing p with
  | case1 U =>
    rw [visitAll_nil] at hu
    cases hu
  | case2 U w ws hw _ _ ihBelow _ ihBeside =>
    have hall := visitAll_depthFirst next U p (w :: ws)
    have hbelow := visitAll_depthFirst next (without U w) (some w) (next w)
    have hvU : v ∈ U := hall.found_subset v ((Forest.mem_postorder p).1 hv)
    have hnodup := (Forest.postorder_perm p _).nodup_iff.2 hall.found_nodup
    rw [visitAll_visit hw] at hu hv hle hnodup ⊢
    generalize hb : (visitAll next (without U w) (next w)).1 = below at *
    generalize (visitAll next below.2 ws).1 = beside at *
    rw [Forest.postorder] at hu hv hle hnodup
    rw [Forest.preorder]
    have hplace := fun x => idxOf_finish (x := x) hnodup
    have hw' := (hplace w).1
    have hvBelow : v ∈ below.1.postorder → (below.1.postorder ++ w :: beside.1.postorder).idxOf v <
        below.1.postorder.length := by
      intro hv
      rw [(hplace v).2.1 hv]
      exact List.idxOf_lt_length_of_mem hv
    rw [List.mem_append, List.mem_cons] at hu hv
    -- what is found from `w` holds all that arcs from there lead to
    have hclosed : u = w ∨ u ∈ below.1.postorder → v = w ∨ v ∈ below.1.postorder := by
      intro hu
      rw [Forest.mem_postorder (some w)] at hu ⊢
      exact or_iff_not_imp_left.2 (hbelow.mem_below hu huv hvU)
    rcases hu with huBelow | rfl | huBeside
    · rcases hclosed (.inr huBelow) with rfl | hvBelow'
      · exact foundFrom_below _ (hbelow.descends rfl ((Forest.mem_postorder _).1 huBelow))
      · have hu' := (hplace u).2.1 huBelow
        have hv' := (hplace v).2.1 hvBelow'
        exact foundFrom_below _ (ihBelow (some w) huBelow hvBelow' (by omega))
    · rcases hclosed (.inl rfl) with rfl | hvBelow'
      · exact .refl
      · have := hvBelow hvBelow'
        omega
    · have hu' := (hplace u).2.2 huBeside
      have hvBeside : v ∈ beside.1.postorder := by
        rcases hv with hv | rfl | hv
        · have := hvBelow hv
          omega
        · omega
        · exact hv
      have hv' := (hplace v).2.2 hvBeside
      exact foundFrom_beside _ (ihBeside p huBeside hvBeside (by omega))
  | case3 U w ws hw ih =>
    rw [visitAll_seen hw] at hu hv hle ⊢
    exact ih p hu hv hle

/-- The reverse of the finishing order: an arc to a vertex that does not come after its source leads
back to an ancestor. -/
theorem ancestor_of_reversePostOrder_le (G : Arcs α) (start : α) {u v : α}
    (hu : u ∈ G.reversePostOrder start) (hv : v ∈ G.reversePostOrder start) (huv : v ∈ G.next u)
    (hle : (G.reversePostOrder start).idxOf v ≤ (G.reversePostOrder start).idxOf u) :
    ReflTransGen (FoundFrom (G.search start)) v u := by
  have hsearch := visitAll_depthFirst G.next (G.withStart start) none [start]
  have hnodup : (G.forest start).postorder.Nodup :=
    (Forest.postorder_perm none _).nodup_iff.2 hsearch.found_nodup
  rw [reversePostOrder_eq] at hu hv hle
  rw [List.mem_reverse] at hu hv
  have hu' := idxOf_reverse hnodup hu
  have hv' := idxOf_reverse hnodup hv
  rw [search_eq_preorder]
  exact ancestor_of_finished_le G.next (G.withStart start) none [start] hu hv huv
    (show (G.forest start).postorder.idxOf u ≤ (G.forest start).postorder.idxOf v by omega)

theorem mem_reversePostOrder (G : Arcs α) (start : α) {v : α} :
    v ∈ G.reversePostOrder start ↔ v ∈ G.reachable start := by
  rw [reversePostOrder_eq, List.mem_reverse, Forest.mem_postorder none, ← search_eq_preorder]
  rfl

end Arcs

namespace Digraph

variable {β : Type} {g : Digraph β}

/-- The search visits exactly the nodes that can be reached along the edges, or against them, each
of them once, as the recursive search does that goes through the neighbours of a node in order. The
reverse post-order lists them last finished first, so that an edge to a node that does not come after
its source leads back to an ancestor of the source or to the source itself. -/
theorem searches_are_recursive (hg : g.Closed) (start : NodeId) :
    (∀ reverse : Bool,
      (g.arcsAlong reverse).search start = ((g.arcsAlong reverse).forest start).preorder none ∧
      (found ((g.arcsAlong reverse).search start)).Nodup ∧
      ∀ v, v ∈ found ((g.arcsAlong reverse).search start) ↔
        ReflTransGen (g.LeadsAlong reverse) start v) ∧
    g.arcs.reversePostOrder start = (g.arcs.forest start).postorder.reverse ∧
    (∀ v, v ∈ g.arcs.reversePostOrder start ↔ ReflTransGen g.Leads start v) ∧
    ∀ e ∈ g.edges, e.source ∈ g.arcs.reversePostOrder start →
      (g.arcs.reversePostOrder start).idxOf e.target ≤
        (g.arcs.reversePostOrder start).idxOf e.source →
      ReflTransGen (FoundFrom (g.arcs.search start)) e.target e.source := by
  have hmem : ∀ v, v ∈ g.arcs.reversePostOrder start ↔ ReflTransGen g.Leads start v := by
    intro v
    rw [Arcs.mem_reversePostOrder, Arcs.mem_reachable hg.coherent, arcs_step_eq]
  refine ⟨fun reverse => ⟨Arcs.search_eq_preorder _ _, Arcs.reachable_nodup _ _, fun v => ?_⟩,
    Arcs.reversePostOrder_eq _ _, hmem, fun e he hsource hle => ?_⟩
  · rw [← arcsAlong_step]
    exact Arcs.mem_reachable (hg.arcsAlong reverse)
  · have hleads : g.Leads e.source e.target := ⟨e, he, rfl, rfl⟩
    have htarget := (hmem _).2 (((hmem _).1 hsource).tail hleads)
    exact Arcs.ancestor_of_reversePostOrder_le _ _ hsource htarget (mem_successors.2 hleads) hle

theorem tangle_searches :
    tangle.Closed ∧
    tangle.arcs.reversePostOrder ⟨0, 1⟩ = [⟨0, 1⟩, ⟨0, 2⟩, ⟨0, 3⟩] ∧
    (tangle.arcs.forest ⟨0, 1⟩).postorder.reverse = [⟨0, 1⟩, ⟨0, 2⟩, ⟨0, 3⟩] ∧
    ReflTransGen (FoundFrom (tangle.arcs.search ⟨0, 1⟩)) ⟨0, 1⟩ ⟨0, 3⟩ := by
  have hclosed : tangle.Closed := by
    unfold Closed
    decide
  have horder : tangle.arcs.reversePostOrder ⟨0, 1⟩ = [⟨0, 1⟩, ⟨0, 2⟩, ⟨0, 3⟩] := by cbv
  obtain ⟨-, hforest, -, hback⟩ := searches_are_recursive hclosed ⟨0, 1⟩
  rw [horder] at hforest hback
  exact ⟨hclosed, horder, hforest.symm,
    hback ⟨⟨0, 5⟩, ⟨0, 3⟩, ⟨0, 1⟩, ∅⟩ (by decide) (by decide) (by decide)⟩

end Digraph

end Structuring
