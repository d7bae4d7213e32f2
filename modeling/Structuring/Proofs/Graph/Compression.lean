import Structuring.Proofs.Graph.Multigraph

/-!
# Look-ups that shorten the links

The forests that the main loop of the search for immediate dominators goes through, and what a
look-up in one of them gives and leaves behind.

* `LinkForest.Call`, `run`, `Continues` — what the main loop does with a forest.
* `Arcs.Passes` — the forests that the main loop goes through.
* `Arcs.Passes.linked`, `Arcs.Passes.remaining` — an invariant of these forests, and the calls that
  the main loop still makes.
* `LinkForest.Linked.run_alike` — forests that agree give answers that agree.
* `Digraph.lookups_are_lowest` — the statement for multigraphs.
-/

namespace Structuring

open Relation

variable {α : Type} [DecidableEq α]

namespace LinkForest

/-- What the main loop does with a forest: it looks up the vertex with the lowest semidominator on
the way up from a vertex, or it settles the semidominator of a vertex and links it to its parent. -/
inductive Call (α : Type) where
  | lowest (v : α)
  | link (parent v semi : α)

def run (f : LinkForest α) : List (Call α) → Option (List α × LinkForest α)
  | [] => some ([], f)
  | .lowest v :: cs => do
    let (u, f) ← f.lowest v
    let (us, f) ← f.run cs
    return (u :: us, f)
  | .link parent v semi :: cs => do
    let f ← { f with semi := f.semi.set v semi }.link parent v
    f.run cs

theorem run_lowest {f g h : LinkForest α} {v u : α} {us : List α} {cs : List (Call α)}
    (hv : f.lowest v = some (u, g)) (hcs : g.run cs = some (us, h)) :
    f.run (.lowest v :: cs) = some (u :: us, h) := by
  simp [run, hv, hcs]

theorem run_link {f g : LinkForest α} {p v s : α} (cs : List (Call α))
    (hv : { f with semi := f.semi.set v s }.link p v = some g) :
    f.run (.link p v s :: cs) = g.run cs := by
  simp [run, hv]

theorem run_append {f g h : LinkForest α} {us vs : List α} {cs ds : List (Call α)}
    (hcs : f.run cs = some (us, g)) (hds : g.run ds = some (vs, h)) :
    f.run (cs ++ ds) = some (us ++ vs, h) := by
  induction cs generalizing f us with
  | nil =>
    cases hcs
    exact hds
  | cons c cs ih =>
    cases c with
    | lowest v =>
      simp only [run, Option.bind_eq_bind, Option.bind_eq_some_iff, Option.pure_def] at hcs
      obtain ⟨⟨u, f'⟩, hv, ⟨us', g'⟩, hcs, he⟩ := hcs
      cases he
      exact run_lowest hv (ih hcs)
    | link p v s =>
      simp only [run, Option.bind_eq_bind, Option.bind_eq_some_iff] at hcs
      obtain ⟨f', hv, hcs⟩ := hcs
      exact (run_link _ hv).trans (ih hcs)

/-- The calls that may come next. Linked vertices are looked up in any order; vertices are linked in
the order of the search, the last one first, each of them to its parent and with its semidominator.
What is not linked yet is given before and after the calls. -/
inductive Continues (G : Arcs α) (start : α) :
    List (Option α × α) → List (Call α) → List (Option α × α) → Prop where
  | done {A : List (Option α × α)} : Continues G start A [] A
  | lowest {A A' : List (Option α × α)} {v : α} {cs : List (Call α)} :
      ReflTransGen G.Step start v → v ∉ found A → Continues G start A cs A' →
      Continues G start A (.lowest v :: cs) A'
  | link {A A' : List (Option α × α)} {p v s : α} {cs : List (Call α)} :
      Semidominator G.Step start (G.number start) s v → Continues G start A cs A' →
      Continues G start (A ++ [(some p, v)]) (.link p v s :: cs) A'

theorem Continues.append {G : Arcs α} {start : α} {A A' A'' : List (Option α × α)}
    {cs ds : List (Call α)} (h : Continues G start A cs A') (h' : Continues G start A' ds A'') :
    Continues G start A (cs ++ ds) A'' := by
  induction h with
  | done => exact h'
  | lowest hv hA _ ih => exact .lowest hv hA (ih h')
  | link hs _ ih => exact .link hs (ih h')

theorem Continues.lookups {G : Arcs α} {start : α} {A : List (Option α × α)} {vs : List α}
    (hvs : ∀ v ∈ vs, ReflTransGen G.Step start v ∧ v ∉ found A) :
    Continues G start A (vs.map .lowest) A := by
  induction vs with
  | nil => exact .done
  | cons v vs ih =>
    obtain ⟨hv, hA⟩ := hvs v List.mem_cons_self
    exact .lowest hv hA (ih fun w hw => hvs w (List.mem_cons_of_mem _ hw))

def semiNumber? (f : LinkForest α) (v : α) : Option Nat := (f.semi.get? v).bind f.number.get?

end LinkForest

namespace Arcs

open LinkForest DominatorSearch

/-- The forests that the main loop goes through, each with the part of the search that is not linked
yet. -/
inductive Passes (G : Arcs α) (start : α) : List (Option α × α) → LinkForest α → Prop where
  /-- between two vertices of the search -/
  | handled {A B : List (Option α × α)} {s : DominatorSearch α} :
      A ≠ [] → G.search start = A ++ B → (initialSearch G start).handleAll G B = some s →
      Passes G start A s.forest
  /-- between two neighbours of a vertex -/
  | weighed {A B : List (Option α × α)} {s : DominatorSearch α} {p v t : α} {ws ws' : List α}
      {f : LinkForest α} :
      A ≠ [] → G.search start = A ++ (some p, v) :: B →
      (initialSearch G start).handleAll G B = some s → G.back v = ws ++ ws' →
      s.forest.semidominator v p ws = some (t, f) → Passes G start (A ++ [(some p, v)]) f
  /-- when the semidominator of a vertex is settled -/
  | settled {A B : List (Option α × α)} {s : DominatorSearch α} {p v t : α} {f : LinkForest α} :
      A ≠ [] → G.search start = A ++ (some p, v) :: B →
      (initialSearch G start).handleAll G B = some s →
      s.forest.semidominator v p (G.back v) = some (t, f) →
      Passes G start (A ++ [(some p, v)]) { f with semi := f.semi.set v t }
  /-- when the vertex is linked, between two vertices in the bucket of its parent -/
  | emptied {A B : List (Option α × α)} {s s' : DominatorSearch α} {p v t : α} {f f' : LinkForest α}
      {ws ws' : List α} :
      A ≠ [] → G.search start = A ++ (some p, v) :: B →
      (initialSearch G start).handleAll G B = some s →
      s.forest.semidominator v p (G.back v) = some (t, f) →
      { f with semi := f.semi.set v t }.link p v = some f' →
      (s.wait f' t v).pending p = ws ++ ws' →
      (s.wait f' t v).emptyBucket p ws = some s' → Passes G start A s'.forest

variable {G : Arcs α} {start : α} {A B : List (Option α × α)} {f : LinkForest α}

theorem handleAll_invariant (hG : G.Coherent) {s : DominatorSearch α} (hA : A ≠ [])
    (h : G.search start = A ++ B) (hs : (initialSearch G start).handleAll G B = some s) :
    Invariant G.Step start (G.number start) (FoundFrom (G.search start)) A.length s := by
  obtain ⟨s', hs', hinv⟩ := handleAll_spec hG h hA
  rw [hs] at hs'
  cases hs'
  exact hinv

theorem handling_invariant (hG : G.Coherent) {s : DominatorSearch α} {p v : α}
    (h : G.search start = A ++ (some p, v) :: B)
    (hs : (initialSearch G start).handleAll G B = some s) :
    Invariant G.Step start (G.number start) (FoundFrom (G.search start)) (G.number start v + 1)
      s := by
  obtain ⟨-, -, -, hnum⟩ := search_split hG h
  have hinv := handleAll_invariant (A := A ++ [(some p, v)]) hG (by simp) (by simpa using h) hs
  rwa [List.length_append, List.length_singleton, ← hnum] at hinv

section Vertex

variable {s : DominatorSearch α} {p v t : α} {f' : LinkForest α}

theorem handling_semidominator (hG : G.Coherent) (h : G.search start = A ++ (some p, v) :: B)
    (hs : (initialSearch G start).handleAll G B = some s)
    (hf : s.forest.semidominator v p (G.back v) = some (t, f)) :
    Linked G.Step start (G.number start) (FoundFrom (G.search start)) (G.number start v + 1) f ∧
      Semidominator G.Step start (G.number start) t v := by
  obtain ⟨hv, hp, hpv, -⟩ := search_split hG h
  obtain ⟨t', f', hf', hforest, ht⟩ := (handling_invariant hG h hs).semidominator
    (search_tree hG start) hv hp hpv fun _ => hG.mem_back
  rw [hf] at hf'
  cases hf'
  exact ⟨hforest, ht⟩

theorem handling_link (hG : G.Coherent) (h : G.search start = A ++ (some p, v) :: B)
    (hs : (initialSearch G start).handleAll G B = some s)
    (hf : s.forest.semidominator v p (G.back v) = some (t, f))
    (hlink : { f with semi := f.semi.set v t }.link p v = some f') :
    Linked G.Step start (G.number start) (FoundFrom (G.search start)) (G.number start v) f' := by
  obtain ⟨hv, hp, hpv, -⟩ := search_split hG h
  obtain ⟨hforest, ht⟩ := handling_semidominator hG h hs hf
  obtain ⟨f₁, hf₁, hlinked, -⟩ := hforest.link (search_tree hG start) hv hp hpv ht
  rw [hlink] at hf₁
  cases hf₁
  exact hlinked

end Vertex

/-- In the forests that the main loop goes through, exactly the vertices behind those that are not
linked yet are linked. -/
theorem Passes.linked (hG : G.Coherent) (h : G.Passes start A f) :
    (∃ B, G.search start = A ++ B) ∧
      Linked G.Step start (G.number start) (FoundFrom (G.search start)) A.length f := by
  have T := search_tree hG start
  cases h with
  | handled hA h hs => exact ⟨⟨_, h⟩, (handleAll_invariant hG hA h hs).forest⟩
  | @weighed A B s p v t ws ws' f hA h hs hback hf =>
    obtain ⟨hv, hp, hpv, hnum⟩ := search_split hG h
    have hws : ∀ w ∈ ws, G.Step w v := fun w hw =>
      hG.mem_back.1 (hback ▸ List.mem_append_left _ hw)
    obtain ⟨t', f', hf', hlinked, -⟩ := (handling_invariant hG h hs).forest.semidominator T hv hp
      (.step (T.step hpv).1) hws
    rw [hf] at hf'
    cases hf'
    refine ⟨⟨B, by simpa using h⟩, ?_⟩
    rwa [List.length_append, List.length_singleton, ← hnum]
  | @settled A B s p v t f hA h hs hf =>
    obtain ⟨-, -, -, hnum⟩ := search_split hG h
    refine ⟨⟨B, by simpa using h⟩, ?_⟩
    rw [List.length_append, List.length_singleton, ← hnum]
    exact (handling_semidominator hG h hs hf).1.settle t
  | @emptied A B s s' p v t f f' ws ws' hA h hs hf hlink hbucket hs' =>
    obtain ⟨hv, hp, hpv, hnum⟩ := search_split hG h
    have hinv := handling_invariant hG h hs
    obtain ⟨-, ht⟩ := handling_semidominator hG h hs hf
    have hready : ∀ w ∈ ws, Ready G.Step start (G.number start) (FoundFrom (G.search start))
        (G.number start v) p w := fun w hw =>
      hinv.ready T hv hp hpv ht f' w (hbucket ▸ List.mem_append_left _ hw)
    obtain ⟨s₂, hs₂, hlinked, -⟩ := emptyBucket_spec (s := s.wait f' t v) T
      (handling_link hG h hs hf hlink) hinv.answers (T.step hpv).2 hready
    rw [hs'] at hs₂
    cases hs₂
    exact ⟨⟨_, h⟩, hnum ▸ hlinked⟩

end Arcs

namespace LinkForest

open Arcs

variable {G : Arcs α} {start : α} {A A' B : List (Option α × α)} {f f' : LinkForest α} {v : α}

theorem Continues.length_le {cs : List (Call α)} (h : Continues G start A cs A') :
    A'.length ≤ A.length := by
  induction h with
  | done => exact Nat.le_refl _
  | lowest _ _ _ ih => exact ih
  | link _ _ ih => simpa using ih.trans (Nat.le_succ _)

/-- What is not among the vertices that are not linked yet comes behind them. -/
theorem length_le_number (h : G.search start = A ++ B) (hv : v ∉ found A) :
    A.length ≤ G.number start v := by
  by_contra hlt
  exact hv (mem_of_number_lt h (Nat.not_le.1 hlt))

/-- The same calls in two forests in which the same vertices are linked, with the same
semidominators: none of them fails, and what is looked up in one forest and in the other has the same
semidominator, however the links are shortened. -/
theorem Linked.run_alike (hG : G.Coherent) {cs : List (Call α)} (hcs : Continues G start A cs A')
    (hsearch : G.search start = A ++ B)
    (h : Linked G.Step start (G.number start) (FoundFrom (G.search start)) A.length f)
    (h' : Linked G.Step start (G.number start) (FoundFrom (G.search start)) A.length f')
    (hagree : f.Agrees f') :
    ∃ us g us' g', f.run cs = some (us, g) ∧ f'.run cs = some (us', g') ∧
      Linked G.Step start (G.number start) (FoundFrom (G.search start)) A'.length g ∧ g.Agrees g' ∧
      us.Forall₂ (fun u u' => ∃ s, g.semi.get? u = some s ∧ g.semi.get? u' = some s) us' := by
  have T := search_tree hG start
  induction hcs generalizing B f f' with
  | done => exact ⟨[], f, [], f', rfl, rfl, h, hagree, .nil⟩
  | @lowest A A' v cs hv hA hcs ih =>
    have hk := length_le_number hsearch hA
    obtain ⟨u, f₁, hu, h₁, hagree₁, hur, huv, hku, hbest⟩ := h.lowest T hv hk
    obtain ⟨u', f₁', hu', h₁', hagree₁', hur', huv', hku', hbest'⟩ := h'.lowest T hv hk
    have hagree₂ : f₁.Agrees f₁' :=
      ⟨(hagree₁'.number.trans hagree.number).trans hagree₁.number.symm,
        (hagree₁'.semi.trans hagree.semi).trans hagree₁.semi.symm⟩
    obtain ⟨us, g, us', g', hrun, hrun', hg, hagree₃, hus⟩ := ih hsearch h₁ h₁' hagree₂
    refine ⟨u :: us, g, u' :: us', g', run_lowest hu hrun, run_lowest hu' hrun', hg, hagree₃,
      .cons ?_ hus⟩
    -- both are lowest on the same way, so their semidominators have the same place
    obtain ⟨s, hs, hsu⟩ := h.semi hur hku
    obtain ⟨s', hs', hsu'⟩ := h.semi hur' hku'
    have hle := hbest u' huv' hku'
    have hle' := hbest' u huv hku
    rw [hagree.semiNum, hagree.semiNum] at hle'
    rw [semiNum_eq _ hs, semiNum_eq _ hs'] at hle hle'
    obtain rfl : s = s' := T.inj hsu.reach hsu'.reach (Nat.le_antisymm hle hle')
    obtain ⟨t, ht, htu⟩ := hg.semi hur (hcs.length_le.trans hku)
    obtain ⟨t', ht', htu'⟩ := hg.semi hur' (hcs.length_le.trans hku')
    rw [T.semi_unique htu hsu] at ht
    rw [T.semi_unique htu' hsu'] at ht'
    exact ⟨s, ht, ht'⟩
  | @link A A' p v s cs hs hcs ih =>
    have hsplit : G.search start = A ++ (some p, v) :: B := by simpa using hsearch
    obtain ⟨hv, hp, hpv, hnum⟩ := search_split hG hsplit
    rw [List.length_append, List.length_singleton, ← hnum] at h h'
    obtain ⟨f₁, hf₁, h₁, hnumber, hsemi⟩ := h.link T hv hp hpv hs
    obtain ⟨f₁', hf₁', h₁', hnumber', hsemi'⟩ := h'.link T hv hp hpv hs
    have hagree₁ : f₁.Agrees f₁' :=
      ⟨by rw [hnumber, hnumber', hagree.number], by rw [hsemi, hsemi', hagree.semi]⟩
    rw [run_link _ hf₁, run_link _ hf₁']
    rw [hnum] at h₁ h₁'
    exact ih hsplit h₁ h₁' hagree₁

def Up (f : LinkForest α) (x y : α) : Prop := f.up.get? x = some y

/-- The links lead from a linked vertex to the root of its tree, an ancestor, and all vertices on
the way to it are linked. -/
theorem Linked.exists_root {r : α → α → Prop} {root : α} {num : α → Nat} {par : α → α → Prop}
    {k : Nat} (T : DepthFirstTree r root num par) (h : Linked r root num par k f)
    (hv : ReflTransGen r root v) (hk : k ≤ num v) :
    ∃ a, ReflTransGen f.Up v a ∧ f.up.get? a = none ∧ ReflTransGen par a v ∧ num a < k ∧
      ∀ x, OnWay par a v x → ReflTransGen r root x ∧ k ≤ num x := by
  -- on the place of the vertex, since a link leads to an earlier one
  induction hn : num v using Nat.strong_induction_on generalizing v with
  | _ n ih =>
    obtain ⟨a, ha⟩ := h.linked.2 ⟨hv, hk⟩
    obtain ⟨har, hav, hway⟩ := h.up ha
    have hreach : ∀ x, OnWay par a v x → ReflTransGen r root x ∧ k ≤ num x :=
      fun x hx => ⟨har.trans (T.anc_reach hx.1), hway x hx⟩
    by_cases hka : k ≤ num a
    · obtain ⟨b, hab, hb, hba, hbk, hrest⟩ := ih _ (hn ▸ h.up_lt T ha) har hka rfl
      refine ⟨b, .head ha hab, hb, hba.trans hav.1, hbk, fun x hx => ?_⟩
      rcases T.onWay_split hav.1 hx with hx | hx
      · exact hrest x hx
      · exact hreach x hx
    · have hroot : f.up.get? a = none := by
        by_contra hne
        exact hka (h.linked.1 (Option.ne_none_iff_exists'.1 hne)).2
      exact ⟨a, .single ha, hroot, hav.1, Nat.not_le.1 hka, hreach⟩

/-! ## The calls that the main loop makes -/

/-- Weighing a neighbour is a look-up if the neighbour comes later in the search, and else
nothing. -/
theorem improve_lookup {s w t : α} (h : f.improve v s w = some (t, f')) :
    f' = f ∨ ∃ u m n, f.lowest w = some (u, f') ∧ f.number.get? w = some m ∧
      f.number.get? v = some n ∧ n < m := by
  unfold improve at h
  split at h
  · cases h
    exact .inl rfl
  · next m hm =>
    simp only [Option.bind_eq_bind, Option.bind_eq_some_iff, Option.pure_def] at h
    obtain ⟨n, hn, h⟩ := h
    split at h
    · simp only [Option.bind_some, Option.bind_eq_some_iff] at h
      obtain ⟨i, -, j, -, he⟩ := h
      cases he
      exact .inl rfl
    · next hle =>
      simp only [lowestSemi, Option.bind_eq_bind, Option.bind_eq_some_iff, Option.pure_def] at h
      obtain ⟨⟨c, f₁⟩, ⟨⟨u, f₂⟩, hu, t', -, hc⟩, i, -, j, -, he⟩ := h
      cases hc
      cases he
      exact .inr ⟨u, m, n, hu, hm, hn, Nat.not_le.1 hle⟩

theorem Linked.semidominator_lookups {r : α → α → Prop} {root : α} {num : α → Nat}
    {par : α → α → Prop} (T : DepthFirstTree r root num par)
    (h : Linked r root num par (num v + 1) f) (hv : ReflTransGen r root v) {s t : α} {ws : List α}
    (hf : f.semidominator v s ws = some (t, f')) :
    ∃ (vs us : List α), (∀ w ∈ vs, ReflTransGen r root w ∧ num v + 1 ≤ num w) ∧
      f.run (vs.map .lowest) = some (us, f') := by
  induction ws generalizing f s with
  | nil =>
    cases hf
    exact ⟨[], [], by simp, rfl⟩
  | cons w ws ih =>
    simp only [LinkForest.semidominator, Option.bind_eq_bind, Option.bind_eq_some_iff] at hf
    obtain ⟨⟨s₁, f₁⟩, hone, hrest⟩ := hf
    rcases improve_lookup hone with rfl | ⟨u, m, n, hu, hm, hn, hlt⟩
    · exact ih h hrest
    · have hw : ReflTransGen r root w := by
        by_contra hw
        rw [h.number_none hw] at hm
        cases hm
      rw [h.number hw, Option.some.injEq] at hm
      rw [h.number hv, Option.some.injEq] at hn
      have hvw : num v + 1 ≤ num w := by omega
      obtain ⟨u', f₂, hu', h₁, -⟩ := h.lowest T hw hvw
      rw [hu] at hu'
      cases hu'
      obtain ⟨vs, us, hvs, hrun⟩ := ih h₁ hrest
      refine ⟨w :: vs, u :: us, ?_, run_lowest hu hrun⟩
      rintro x hx
      rcases List.mem_cons.1 hx with rfl | hx
      · exact ⟨hw, hvw⟩
      · exact hvs x hx

theorem semidominator_append (f : LinkForest α) (v s : α) (ws ws' : List α) :
    f.semidominator v s (ws ++ ws') =
      (f.semidominator v s ws).bind fun r => r.2.semidominator v r.1 ws' := by
  induction ws generalizing f s with
  | nil => rfl
  | cons w ws ih =>
    simp only [List.cons_append, LinkForest.semidominator, Option.bind_eq_bind, Option.bind_assoc]
    exact Option.bind_congr fun r _ => ih r.2 r.1

end LinkForest

namespace DominatorSearch

open LinkForest

theorem emptyBucket_lookups {s s' : DominatorSearch α} {p : α} {ws : List α}
    (h : s.emptyBucket p ws = some s') :
    ∃ us, s.forest.run (ws.map .lowest) = some (us, s'.forest) := by
  induction ws generalizing s with
  | nil =>
    cases h
    exact ⟨[], rfl⟩
  | cons w ws ih =>
    simp only [emptyBucket, Option.bind_eq_bind, Option.bind_eq_some_iff] at h
    obtain ⟨⟨y, f⟩, hy, a, -, b, -, h⟩ := h
    split at h
    · obtain ⟨us, hus⟩ := ih h
      exact ⟨y :: us, run_lowest hy hus⟩
    · obtain ⟨us, hus⟩ := ih h
      exact ⟨y :: us, run_lowest hy hus⟩

theorem emptyBucket_append (s : DominatorSearch α) (p : α) (ws ws' : List α) :
    s.emptyBucket p (ws ++ ws') = (s.emptyBucket p ws).bind (·.emptyBucket p ws') := by
  induction ws generalizing s with
  | nil => rfl
  | cons w ws ih =>
    simp only [List.cons_append, emptyBucket, Option.bind_eq_bind, Option.bind_assoc, ih]
    refine Option.bind_congr fun r _ => Option.bind_congr fun a _ => Option.bind_congr fun b _ => ?_
    split
    · rfl
    · rfl

end DominatorSearch

namespace Arcs

open LinkForest DominatorSearch

variable {G : Arcs α} {start : α} {A A' B : List (Option α × α)} {f : LinkForest α}

theorem number_lt_of_mem (h : G.search start = A ++ B) {v : α} (hv : v ∈ found A) :
    G.number start v < A.length := by
  have hfound : G.reachable start = found A ++ found B := by
    rw [reachable, h, List.map_append]
    rfl
  rw [number, hfound, List.idxOf_append_of_mem hv]
  simpa [found] using List.idxOf_lt_length_of_mem hv

/-- Calls lead from a forest to the one in which the main loop ends. -/
def Remaining (G : Arcs α) (start : α) (A : List (Option α × α)) (f : LinkForest α) : Prop :=
  ∃ cs us s, Continues G start A cs [(none, start)] ∧
    (initialSearch G start).handleAll G (G.search start).tail = some s ∧
    f.run cs = some (us, s.forest)

theorem Remaining.prepend {cs : List (Call α)} {us : List α} {g : LinkForest α}
    (h : Remaining G start A' g) (hcs : Continues G start A cs A')
    (hrun : f.run cs = some (us, g)) : Remaining G start A f := by
  obtain ⟨ds, vs, s, hds, hs, hrun'⟩ := h
  exact ⟨cs ++ ds, us ++ vs, s, hcs.append hds, hs, run_append hrun hrun'⟩

section Vertex

variable {s s' : DominatorSearch α} {p v t : α} {f' : LinkForest α} {ws ws' : List α}

theorem Remaining.emptied (hG : G.Coherent) (h : G.search start = A ++ (some p, v) :: B)
    (hs : (initialSearch G start).handleAll G B = some s)
    (hf : s.forest.semidominator v p (G.back v) = some (t, f))
    (hlink : { f with semi := f.semi.set v t }.link p v = some f')
    (hbucket : (s.wait f' t v).pending p = ws ++ ws')
    (hs' : (s.wait f' t v).emptyBucket p ws = some s')
    (hrest : ∀ s, (initialSearch G start).handleAll G ((some p, v) :: B) = some s →
      Remaining G start A s.forest) : Remaining G start A s'.forest := by
  have T := search_tree hG start
  obtain ⟨hv, hp, hpv, hnum⟩ := search_split hG h
  have hinv := handling_invariant hG h hs
  obtain ⟨-, ht⟩ := handling_semidominator hG h hs hf
  have hready := hinv.ready T hv hp hpv ht f'
  obtain ⟨s₂, hs₂, -⟩ := emptyBucket_spec (s := s.wait f' t v) T (handling_link hG h hs hf hlink)
    hinv.answers (T.step hpv).2 hready
  have hhandled : (initialSearch G start).handleAll G ((some p, v) :: B) =
      some { s₂ with bucket := s₂.bucket.set p [] } := by
    simp [handleAll, hs, handle_eq hf (hinv.buckets ht.reach) (hinv.buckets hp), hlink, hs₂]
  rw [hbucket, emptyBucket_append, hs', Option.bind_some] at hs₂
  obtain ⟨us, hus⟩ := emptyBucket_lookups hs₂
  refine (hrest _ hhandled).prepend (Continues.lookups fun w hw => ?_) hus
  have hw := hready w (hbucket ▸ List.mem_append_right _ hw)
  refine ⟨hw.reach, fun hA => ?_⟩
  have := number_lt_of_mem h hA
  have := hw.le
  omega

theorem Remaining.settled (hG : G.Coherent) (h : G.search start = A ++ (some p, v) :: B)
    (hs : (initialSearch G start).handleAll G B = some s)
    (hf : s.forest.semidominator v p (G.back v) = some (t, f)) {g : LinkForest α}
    (hg : { g with semi := g.semi.set v t } = { f with semi := f.semi.set v t })
    (hrest : ∀ s, (initialSearch G start).handleAll G ((some p, v) :: B) = some s →
      Remaining G start A s.forest) : Remaining G start (A ++ [(some p, v)]) g := by
  have T := search_tree hG start
  obtain ⟨hv, hp, hpv, hnum⟩ := search_split hG h
  obtain ⟨hforest, ht⟩ := handling_semidominator hG h hs hf
  obtain ⟨f', hlink, -⟩ := hforest.link T hv hp hpv ht
  have hnone : (s.wait f' t v).emptyBucket p [] = some (s.wait f' t v) := rfl
  have hlinked : Remaining G start A f' :=
    .emptied hG h hs hf hlink (List.nil_append _).symm hnone hrest
  have hrun : g.run [.link p v t] = some ([], f') := by
    rw [← hg] at hlink
    rw [run_link _ hlink, run]
  exact hlinked.prepend (.link ht .done) hrun

theorem Remaining.weighed (hG : G.Coherent) (h : G.search start = A ++ (some p, v) :: B)
    (hA : A ≠ []) (hs : (initialSearch G start).handleAll G B = some s)
    (hback : G.back v = ws ++ ws') (hf : s.forest.semidominator v p ws = some (t, f))
    (hrest : ∀ s, (initialSearch G start).handleAll G ((some p, v) :: B) = some s →
      Remaining G start A s.forest) : Remaining G start (A ++ [(some p, v)]) f := by
  have T := search_tree hG start
  obtain ⟨hv, hp, hpv, hnum⟩ := search_split hG h
  obtain ⟨-, hlinked⟩ := (Passes.weighed hA h hs hback hf).linked hG
  rw [List.length_append, List.length_singleton, ← hnum] at hlinked
  obtain ⟨t', f', hf', -⟩ :=
    (handling_invariant hG h hs).semidominator T hv hp hpv fun _ => hG.mem_back
  have hrun := hf'
  rw [hback, semidominator_append, hf, Option.bind_some] at hrun
  obtain ⟨vs, us, hvs, hus⟩ := hlinked.semidominator_lookups T hv hrun
  refine (Remaining.settled hG h hs hf' rfl hrest).prepend (Continues.lookups fun w hw => ?_) hus
  obtain ⟨hwr, hvw⟩ := hvs w hw
  refine ⟨hwr, fun hA => ?_⟩
  have hsplit : G.search start = (A ++ [(some p, v)]) ++ B := by simpa using h
  have := number_lt_of_mem hsplit hA
  rw [List.length_append, List.length_singleton] at this
  omega

end Vertex

theorem Remaining.handled (hG : G.Coherent) {s : DominatorSearch α} (hA : A ≠ [])
    (h : G.search start = A ++ B) (hs : (initialSearch G start).handleAll G B = some s) :
    Remaining G start A s.forest := by
  -- on what is not linked, the last one first
  induction A using List.reverseRecOn generalizing B s with
  | nil => exact absurd rfl hA
  | append_singleton A e ih =>
    obtain ⟨q, v⟩ := e
    have hsplit : G.search start = A ++ (q, v) :: B := by simpa using h
    by_cases hA' : A = []
    · subst hA'
      obtain ⟨L, hL⟩ := search_head G start
      rw [hL] at hsplit
      cases hsplit
      refine ⟨[], [], s, .done, ?_, rfl⟩
      rw [hL]
      exact hs
    · obtain ⟨p, rfl⟩ := search_parent hG hsplit hA'
      have hnone : s.forest.semidominator v p [] = some (p, s.forest) := rfl
      exact .weighed hG hsplit hA' hs (List.nil_append _).symm hnone fun s hs => ih hA' hsplit hs

theorem Passes.remaining (hG : G.Coherent) (h : G.Passes start A f) : Remaining G start A f := by
  cases h with
  | handled hA h hs => exact .handled hG hA h hs
  | weighed hA h hs hback hf =>
    exact .weighed hG h hA hs hback hf fun _ hs => .handled hG hA h hs
  | @settled A B s p v t f hA h hs hf =>
    refine .settled hG h hs hf ?_ fun _ hs => .handled hG hA h hs
    have hset : (f.semi.set v t).get? v = some t := (Table.get?_set ..).trans (if_pos rfl)
    simp only [Table.set_get? hset]
  | emptied hA h hs hf hlink hbucket hs' =>
    exact .emptied hG h hs hf hlink hbucket hs' fun _ hs => .handled hG hA h hs

/-- A look-up of a linked vertex gives a vertex with the lowest semidominator on the way up to the
root of its tree, and later calls do not tell that the links were shortened. -/
theorem Passes.lookup (hG : G.Coherent) (h : G.Passes start A f) {v : α}
    (hv : f.up.contains v = true) :
    ∃ u f' a, f.lowest v = some (u, f') ∧ ReflTransGen f.Up v a ∧ f.up.contains a = false ∧
      OnWay (FoundFrom (G.search start)) a v u ∧
      (∃ m, f.semiNumber? u = some m ∧ ∀ x, OnWay (FoundFrom (G.search start)) a v x →
        ∃ n, f.semiNumber? x = some n ∧ m ≤ n) ∧
      ∀ cs A', Continues G start A cs A' → ∃ us g us' g',
        f.run cs = some (us, g) ∧ f'.run cs = some (us', g') ∧ g.Agrees g' ∧
        us.Forall₂ (fun u u' => ∃ s, g.semi.get? u = some s ∧ g.semi.get? u' = some s) us' := by
  have T := search_tree hG start
  obtain ⟨⟨B, hsearch⟩, hlinked⟩ := h.linked hG
  obtain ⟨hvr, hk⟩ := hlinked.linked.1 (Table.contains_iff.1 hv)
  obtain ⟨a, hva, hroot, hav, hak, hway⟩ := hlinked.exists_root T hvr hk
  obtain ⟨u, f', hu, hlinked', hagree, hur, huv, hku, hbest⟩ := hlinked.lowest T hvr hk
  have hnumber : ∀ x, ReflTransGen G.Step start x → A.length ≤ G.number start x →
      f.semiNumber? x = some (f.semiNum (G.number start) x) := by
    intro x hx hkx
    obtain ⟨s, hs, hsx⟩ := hlinked.semi hx hkx
    rw [semiNumber?, hs, Option.bind_some, hlinked.number hsx.reach, semiNum_eq _ hs]
  refine ⟨u, f', a, hu, hva, ?_, ⟨T.anc_of_le hav huv (by omega), ?_, huv⟩,
    ⟨_, hnumber u hur hku, fun x hx => ?_⟩, fun cs A' hcs => ?_⟩
  · rw [Table.contains, hroot]
    rfl
  · rintro rfl
    omega
  · obtain ⟨hxr, hkx⟩ := hway x hx
    exact ⟨_, hnumber x hxr hkx, hbest x hx.2.2 hkx⟩
  · obtain ⟨us, g, us', g', hrun, hrun', -, hagree', hus⟩ :=
      hlinked.run_alike hG hcs hsearch hlinked' hagree
    exact ⟨us, g, us', g', hrun, hrun', hagree', hus⟩

end Arcs

namespace Digraph

open LinkForest Arcs

variable {β : Type} {g : Digraph β}

/-- In every forest that the main loop goes through, on any graph and along the edges or against
them, the look-up of a linked vertex ends: the links lead to the root of its tree. What is looked up
is on the way down the search tree from that root, the root left out, and no vertex on this way has a
semidominator with a lower number. The main loop goes on from the forest by calls; and whatever calls
come next, none of them fails, whether the links are left as they were or shortened, and what it
gives in both cases has the same semidominator. -/
theorem lookups_are_lowest (hg : g.Closed) (start : NodeId) (reverse : Bool)
    {A : List (Option NodeId × NodeId)} {f : LinkForest NodeId}
    (hf : (g.arcsAlong reverse).Passes start A f) {v : NodeId} (hv : f.up.contains v = true) :
    Remaining (g.arcsAlong reverse) start A f ∧
    ∃ u f' a, f.lowest v = some (u, f') ∧ ReflTransGen f.Up v a ∧ f.up.contains a = false ∧
      OnWay (FoundFrom ((g.arcsAlong reverse).search start)) a v u ∧
      (∃ m, f.semiNumber? u = some m ∧
        ∀ x, OnWay (FoundFrom ((g.arcsAlong reverse).search start)) a v x →
          ∃ n, f.semiNumber? x = some n ∧ m ≤ n) ∧
      ∀ cs A', Continues (g.arcsAlong reverse) start A cs A' → ∃ us h us' h',
        f.run cs = some (us, h) ∧ f'.run cs = some (us', h') ∧ h.Agrees h' ∧
        us.Forall₂ (fun u u' => ∃ s, h.semi.get? u = some s ∧ h.semi.get? u' = some s) us' :=
  ⟨hf.remaining (hg.arcsAlong reverse), hf.lookup (hg.arcsAlong reverse) hv⟩

theorem tangle_lookup :
    tangle.Closed ∧ ∃ f f' a, (tangle.arcsAlong false).Passes ⟨0, 1⟩ [(none, ⟨0, 1⟩)] f ∧
      f.up.contains ⟨0, 3⟩ = true ∧ f.lowest ⟨0, 3⟩ = some (⟨0, 2⟩, f') ∧
      ReflTransGen f.Up ⟨0, 3⟩ a ∧ f.up.contains a = false ∧
      OnWay (FoundFrom ((tangle.arcsAlong false).search ⟨0, 1⟩)) a ⟨0, 3⟩ ⟨0, 2⟩ := by
  have hclosed : tangle.Closed := by
    unfold Closed
    decide
  have hsearch : (tangle.arcsAlong false).search ⟨0, 1⟩ =
      [(none, ⟨0, 1⟩)] ++ [(some ⟨0, 1⟩, ⟨0, 2⟩), (some ⟨0, 2⟩, ⟨0, 3⟩)] := by cbv
  have hlowest : ((initialSearch (tangle.arcsAlong false) ⟨0, 1⟩).handleAll (tangle.arcsAlong false)
      [(some ⟨0, 1⟩, ⟨0, 2⟩), (some ⟨0, 2⟩, ⟨0, 3⟩)]).map
        (fun s => (s.forest.up.contains ⟨0, 3⟩, (s.forest.lowest ⟨0, 3⟩).map (·.1))) =
        some (true, some ⟨0, 2⟩) := by cbv
  obtain ⟨s, hs, he⟩ := Option.map_eq_some_iff.1 hlowest
  rw [Prod.mk.injEq] at he
  have hpasses : (tangle.arcsAlong false).Passes ⟨0, 1⟩ [(none, ⟨0, 1⟩)] s.forest :=
    .handled (by simp) hsearch hs
  obtain ⟨-, u, f', a, hu, hva, hroot, hway, -⟩ :=
    lookups_are_lowest hclosed ⟨0, 1⟩ false hpasses he.1
  obtain rfl : u = ⟨0, 2⟩ := by
    rw [hu, Option.map_some, Option.some.injEq] at he
    exact he.2
  exact ⟨hclosed, s.forest, f', a, hpasses, he.1, hu, hva, hroot, hway⟩

end Digraph

end Structuring
