import Structuring.Graph.FixedPoint
import Structuring.Proofs.Graph.Multigraph
import Structuring.Proofs.Graph.Reducible
import Structuring.Proofs.Table

/-!
# Dominators by iteration

No set ever gets a vertex that it did not have, and none loses a dominator. So the passes come to an
end, and then what is in the set of a vertex is that vertex or in the sets of all its predecessors,
so that it is on every walk.

* `Arcs.within` — the arcs among some vertices.
* `Arcs.Bounded` — what holds of the sets at all times.
* `Arcs.Bounded.refine` — computing one set anew keeps it so.
* `Arcs.Settled` — no set is to be changed any more.
* `Arcs.Bounded.refineAll` — the iteration ends with sets that are settled.
* `Dominating` — the sets are those of the dominators.
* `immediateOf_spec` — from such sets the immediate dominators are found, and none is found twice.
* `Digraph.dominatorSets_correct` — both for the nodes of a multigraph.
-/

namespace Structuring

open Relation

variable {α : Type} [DecidableEq α]

theorem sameSet_iff {s t : List α} : sameSet s t = true ↔ ∀ y, y ∈ s ↔ y ∈ t := by
  simp only [sameSet, Bool.and_eq_true, List.all_eq_true, List.contains_iff_mem, iff_def, forall_and]

namespace Arcs

variable {G : Arcs α} {vs ws : List α} {start u v d : α} {s new : List α}
variable {sets sets' : Table α (List α)}

def within (G : Arcs α) (vs : List α) : Arcs α where
  vertices := vs
  next u := vs.filter fun v => u ∈ vs ∧ u ∈ G.back v
  back v := (G.back v).filter fun u => u ∈ vs ∧ v ∈ vs

theorem step_within : (G.within vs).Step u v ↔ u ∈ G.back v ∧ u ∈ vs ∧ v ∈ vs := by
  simp only [Step, within, List.mem_filter, decide_eq_true_eq]
  tauto

theorem within_coherent : (G.within vs).Coherent where
  ends_mem h := by
    obtain ⟨-, hu, hv⟩ := step_within.1 h
    exact ⟨hu, hv⟩
  mem_back := by
    intro u v
    simp only [within, List.mem_filter, decide_eq_true_eq]
    tauto

/-! ## One set -/

theorem mem_entrySets : s ∈ G.entrySets sets v ↔ ∃ u ∈ G.back v, sets.get? u = some s :=
  List.mem_filterMap

theorem joinedSet_eq_some (h : G.joinedSet sets v = some new) :
    ∃ s rest, G.entrySets sets v = s :: rest ∧
      new = (s.filter fun d => rest.all (·.contains d)).insert v := by
  unfold joinedSet at h
  split at h
  · cases h
  · next s rest heq => exact ⟨s, rest, heq, (Option.some.inj h).symm⟩

theorem mem_joinedSet (h : G.joinedSet sets v = some new) :
    d ∈ new ↔ d = v ∨ ∀ p ∈ G.entrySets sets v, d ∈ p := by
  obtain ⟨s, rest, heq, rfl⟩ := joinedSet_eq_some h
  simp [heq]

theorem exists_joinedSet (hs : s ∈ G.entrySets sets v) : ∃ new, G.joinedSet sets v = some new := by
  unfold joinedSet
  split
  · next heq =>
    rw [heq] at hs
    cases hs
  · exact ⟨_, rfl⟩

theorem exists_entrySet (h : G.joinedSet sets v = some new) : ∃ s, s ∈ G.entrySets sets v := by
  obtain ⟨s, rest, heq, -⟩ := joinedSet_eq_some h
  exact ⟨s, heq ▸ List.mem_cons_self⟩

theorem nodup_joinedSet (hs : ∀ p ∈ G.entrySets sets v, p.Nodup)
    (h : G.joinedSet sets v = some new) : new.Nodup := by
  obtain ⟨s, rest, heq, rfl⟩ := joinedSet_eq_some h
  exact ((hs s (heq ▸ List.mem_cons_self)).filter _).insert

theorem joinedSet_mono (hback : ∀ {u p}, sets'.get? u = some p → ∃ p', sets.get? u = some p')
    (hle : ∀ {u p}, sets.get? u = some p → ∃ p', sets'.get? u = some p' ∧ p' ⊆ p)
    (h : G.joinedSet sets' v = some new) :
    ∃ wider, G.joinedSet sets v = some wider ∧ new ⊆ wider := by
  obtain ⟨p, hp⟩ := exists_entrySet h
  obtain ⟨u, hu, hget⟩ := mem_entrySets.1 hp
  obtain ⟨q, hq⟩ := hback hget
  obtain ⟨wider, hwider⟩ := exists_joinedSet (mem_entrySets.2 ⟨u, hu, hq⟩)
  refine ⟨wider, hwider, fun d hd => (mem_joinedSet hwider).2 ?_⟩
  refine ((mem_joinedSet h).1 hd).imp_right fun hall p hp => ?_
  obtain ⟨w, hw, hget⟩ := mem_entrySets.1 hp
  obtain ⟨p', hp', hsub⟩ := hle hget
  exact hsub (hall p' (mem_entrySets.2 ⟨w, hw, hp'⟩))

/-! ## No set grows and dominators stay -/

/-- The sets are those of the listed vertices. They are among these, have all the dominators along
the arcs among them, and what is computed anew for a vertex is within the set that it has. -/
structure Bounded (G : Arcs α) (vs : List α) (start : α) (sets : Table α (List α)) : Prop where
  keys : ∀ {v}, v ∈ sets.keys ↔ v ∈ vs
  atStart : sets.get? start = some [start]
  nodup : ∀ {v s}, sets.get? v = some s → s.Nodup
  subset : ∀ {v s}, sets.get? v = some s → s ⊆ vs
  dominators : ∀ {v s d}, sets.get? v = some s → d ∈ vs →
    Dominates (G.within vs).Step start d v → d ∈ s
  shrinks : ∀ {v s new}, v ≠ start → sets.get? v = some s → G.joinedSet sets v = some new → new ⊆ s

namespace Bounded

theorem mem (h : Bounded G vs start sets) (hv : sets.get? v = some s) : v ∈ vs :=
  h.keys.1 (Table.mem_keys.2 ⟨s, hv⟩)

theorem exists_get? (h : Bounded G vs start sets) (hv : v ∈ vs) : ∃ s, sets.get? v = some s :=
  Table.mem_keys.1 (h.keys.2 hv)

theorem nodup_joinedSet (h : Bounded G vs start sets) (hnew : G.joinedSet sets v = some new) :
    new.Nodup := by
  refine Arcs.nodup_joinedSet (fun p hp => ?_) hnew
  obtain ⟨u, -, hu⟩ := mem_entrySets.1 hp
  exact h.nodup hu

theorem refine (h : Bounded G vs start sets) (hv : sets.get? v = some s) (hne : v ≠ start)
    (hnew : G.joinedSet sets v = some new) : Bounded G vs start (sets.set v new) := by
  have hsub : new ⊆ s := h.shrinks hne hv hnew
  have hget : ∀ {w s'}, (sets.set v new).get? w = some s' →
      v = w ∧ s' = new ∨ v ≠ w ∧ sets.get? w = some s' := by
    intro w s' hw
    rw [Table.get?_set] at hw
    split at hw
    · next heq => exact .inl ⟨heq, (Option.some.inj hw).symm⟩
    · next heq => exact .inr ⟨heq, hw⟩
  have hback : ∀ {w s'}, (sets.set v new).get? w = some s' → ∃ p, sets.get? w = some p := by
    intro w s' hw
    rcases hget hw with ⟨rfl, -⟩ | ⟨-, hw⟩
    · exact ⟨s, hv⟩
    · exact ⟨s', hw⟩
  have hle : ∀ {w p}, sets.get? w = some p → ∃ p', (sets.set v new).get? w = some p' ∧ p' ⊆ p := by
    intro w p hw
    rw [Table.get?_set]
    split
    · next heq =>
      subst heq
      rw [hv] at hw
      exact ⟨new, rfl, Option.some.inj hw ▸ hsub⟩
    · exact ⟨p, hw, List.Subset.refl p⟩
  refine ⟨?_, ?_, fun hw => ?_, fun hw => ?_, fun hw hd hdom => ?_, fun {w s' new'} hw hs' hnew' => ?_⟩
  · rw [Table.keys_set hv]
    exact h.keys
  · rw [Table.get?_set, if_neg hne]
    exact h.atStart
  · rcases hget hw with ⟨-, rfl⟩ | ⟨-, hw⟩
    · exact h.nodup_joinedSet hnew
    · exact h.nodup hw
  · rcases hget hw with ⟨-, rfl⟩ | ⟨-, hw⟩
    · exact List.Subset.trans hsub (h.subset hv)
    · exact h.subset hw
  · rcases hget hw with ⟨rfl, rfl⟩ | ⟨-, hw⟩
    · refine (mem_joinedSet hnew).2 (or_iff_not_imp_left.2 fun hdv p hp => ?_)
      obtain ⟨u, hu, hp⟩ := mem_entrySets.1 hp
      exact h.dominators hp hd (hdom.of_step (step_within.2 ⟨hu, h.mem hp, h.mem hv⟩) hdv)
    · exact h.dominators hw hd hdom
  · -- what is computed now is within what was computed before
    obtain ⟨wider, hwider, hnarrow⟩ := joinedSet_mono hback hle hnew'
    rcases hget hs' with ⟨rfl, rfl⟩ | ⟨-, hs'⟩
    · rw [hnew] at hwider
      exact Option.some.inj hwider ▸ hnarrow
    · exact List.Subset.trans hnarrow (h.shrinks hw hs' hwider)

end Bounded

/-! ## The end of the iteration -/

def weight (sets : Table α (List α)) : Nat := (sets.entries.map fun e => e.2.length).sum

theorem weight_set (hv : sets.get? v = some s) (new : List α) :
    weight (sets.set v new) + s.length = weight sets + new.length := by
  obtain ⟨es⟩ := sets
  change Table.getIn? v es = some s at hv
  simp only [weight, Table.set]
  induction es with
  | nil => simp [Table.getIn?] at hv
  | cons e es ih =>
    obtain ⟨k, c⟩ := e
    by_cases hk : k = v
    · simp only [Table.getIn?, if_pos hk, Option.some.injEq] at hv
      subst hv
      simp only [Table.setIn, if_pos hk, List.map_cons, List.sum_cons]
      omega
    · simp only [Table.getIn?, if_neg hk] at hv
      have := ih hv
      simp only [Table.setIn, if_neg hk, List.map_cons, List.sum_cons]
      omega

theorem length_lt_of_not_sameSet (hnew : new.Nodup) (hsub : new ⊆ s)
    (h : ¬ sameSet new s = true) : new.length < s.length := by
  by_contra hlt
  have hperm := (hnew.subperm hsub).perm_of_length_le (by omega)
  exact h (sameSet_iff.2 fun _ => hperm.mem_iff)

def Settled (G : Arcs α) (start : α) (sets : Table α (List α)) (ws : List α) : Prop :=
  ∀ w ∈ ws, w ≠ start → ∀ s new, sets.get? w = some s → G.joinedSet sets w = some new →
    sameSet new s = true

theorem settled_cons {w : α} (h : w ≠ start → ∀ s new, sets.get? w = some s →
      G.joinedSet sets w = some new → sameSet new s = true) (hws : G.Settled start sets ws) :
    G.Settled start sets (w :: ws) := List.forall_mem_cons.2 ⟨h, hws⟩

/-- A pass has an answer. The sets are smaller if it says that one has changed; otherwise all are as
they were, and settled. -/
theorem Bounded.refinePass (h : Bounded G vs start sets) (hws : ws ⊆ vs) (changed : Bool) :
    ∃ sets' c, G.refinePass start sets changed ws = some (sets', c) ∧ Bounded G vs start sets' ∧
      weight sets' ≤ weight sets ∧ (c = true → changed = true ∨ weight sets' < weight sets) ∧
      (c = false → changed = false ∧ sets' = sets ∧ G.Settled start sets ws) := by
  induction ws generalizing sets changed with
  | nil =>
    exact ⟨sets, changed, rfl, h, Nat.le_refl _, .inl, fun hc => ⟨hc, rfl, fun w hw => by cases hw⟩⟩
  | cons w ws ih =>
    obtain ⟨hw, hws⟩ := List.cons_subset.1 hws
    obtain ⟨s, hs⟩ := h.exists_get? hw
    have hstay : (w ≠ start → ∀ s new, sets.get? w = some s → G.joinedSet sets w = some new →
          sameSet new s = true) →
        G.refinePass start sets changed (w :: ws) = G.refinePass start sets changed ws →
        ∃ sets' c, G.refinePass start sets changed (w :: ws) = some (sets', c) ∧
          Bounded G vs start sets' ∧ weight sets' ≤ weight sets ∧
          (c = true → changed = true ∨ weight sets' < weight sets) ∧
          (c = false → changed = false ∧ sets' = sets ∧ G.Settled start sets (w :: ws)) := by
      intro hsame heq
      obtain ⟨sets', c, hrun, hbounded, hle, htrue, hfalse⟩ := ih h hws changed
      refine ⟨sets', c, heq.trans hrun, hbounded, hle, htrue, fun hc => ?_⟩
      obtain ⟨hchanged, hsets, hsettled⟩ := hfalse hc
      exact ⟨hchanged, hsets, settled_cons hsame hsettled⟩
    by_cases hstart : w = start
    · exact hstay (fun hne => absurd hstart hne) (by rw [Arcs.refinePass, if_pos hstart])
    cases hjoined : G.joinedSet sets w with
    | none =>
      exact hstay (fun _ _ _ _ hnew => by rw [hjoined] at hnew; cases hnew)
        (by rw [Arcs.refinePass, if_neg hstart, hjoined])
    | some new =>
      have hstep : G.refinePass start sets changed (w :: ws) =
          if sameSet new s then G.refinePass start sets changed ws
          else G.refinePass start (sets.set w new) true ws := by
        rw [Arcs.refinePass, if_neg hstart, hjoined, hs]
        rfl
      by_cases hsame : sameSet new s = true
      · refine hstay (fun _ s' new' hs' hnew' => ?_) (by rw [hstep, if_pos hsame])
        rw [hs] at hs'
        rw [hjoined] at hnew'
        cases hs'
        cases hnew'
        exact hsame
      · have hlt := length_lt_of_not_sameSet (h.nodup_joinedSet hjoined)
          (h.shrinks hstart hs hjoined) hsame
        have hweight := weight_set hs new
        obtain ⟨sets', c, hrun, hbounded, hle, -, hfalse⟩ :=
          ih (h.refine hs hstart hjoined) hws true
        refine ⟨sets', c, ?_, hbounded, by omega, fun _ => .inr (by omega), fun hc => ?_⟩
        · rw [hstep, if_neg hsame, hrun]
        · cases (hfalse hc).1

theorem Bounded.refineAll (h : Bounded G vs start sets) :
    ∃ sets', G.refineAll start vs sets = some sets' ∧ Bounded G vs start sets' ∧
      G.Settled start sets' vs := by
  induction hn : weight sets using Nat.strong_induction_on generalizing sets with
  | h n ih =>
    obtain ⟨sets', c, hrun, hbounded, -, htrue, hfalse⟩ :=
      h.refinePass (List.Subset.refl vs) false
    have hstep : G.refineAll start vs sets =
        if c then G.refineAll start vs sets' else some sets' := by
      rw [Arcs.refineAll, hrun]
      rfl
    rw [hstep]
    cases c with
    | true =>
      have hlt : weight sets' < weight sets := (htrue rfl).resolve_left (by simp)
      simpa using ih _ (hn ▸ hlt) hbounded rfl
    | false =>
      obtain ⟨-, rfl, hsettled⟩ := hfalse rfl
      exact ⟨sets', by simp, hbounded, hsettled⟩

/-- What stays in the sets is on every walk among the listed vertices. -/
theorem Bounded.dominates (h : Bounded G vs start sets) (hsettled : G.Settled start sets vs)
    (hv : sets.get? v = some s) (hd : d ∈ s) : Dominates (G.within vs).Step start d v := by
  by_contra hnot
  obtain ⟨hne, hreach⟩ := not_dominates_iff.1 hnot
  clear hnot
  induction hreach generalizing s with
  | refl =>
    rw [h.atStart] at hv
    cases hv
    exact hne (List.mem_singleton.1 hd).symm
  | @tail u v _ huv ih =>
    by_cases hvs : v = start
    · subst hvs
      rw [h.atStart] at hv
      cases hv
      exact hne (List.mem_singleton.1 hd).symm
    · obtain ⟨hback, hu, -⟩ := step_within.1 huv.1
      obtain ⟨p, hp⟩ := h.exists_get? hu
      have hentry : p ∈ G.entrySets sets v := mem_entrySets.2 ⟨u, hback, hp⟩
      obtain ⟨new, hnew⟩ := exists_joinedSet hentry
      have hd' := (sameSet_iff.1 (hsettled v (h.mem hv) hvs s new hv hnew) d).2 hd
      exact ih hp (((mem_joinedSet hnew).1 hd').resolve_left huv.2.symm p hentry)

theorem get?_initialSets (vs : List α) (start v : α) : (initialSets vs start).get? v =
    if v ∈ vs then some (if v = start then [v] else distinct vs) else none :=
  Table.get?_foldl_set _ vs ∅ v

theorem initial_bounded (G : Arcs α) (hstart : start ∈ vs) :
    Bounded G vs start (initialSets vs start) := by
  have hsome : ∀ {v s}, (initialSets vs start).get? v = some s →
      v ∈ vs ∧ s = if v = start then [v] else distinct vs := by
    intro v s hv
    rw [get?_initialSets] at hv
    split at hv
    · next hmem => exact ⟨hmem, (Option.some.inj hv).symm⟩
    · cases hv
  have hsubset : ∀ {v s}, (initialSets vs start).get? v = some s → s ⊆ vs := by
    intro v s hv d hd
    obtain ⟨hmem, rfl⟩ := hsome hv
    split at hd
    · exact List.mem_singleton.1 hd ▸ hmem
    · exact mem_distinct.1 hd
  refine ⟨fun {v} => ?_, ?_, fun hv => ?_, hsubset, fun {v s d} hv hd hdom => ?_,
    fun {v s new} hne hv hnew d hd => ?_⟩
  · rw [Table.mem_keys, get?_initialSets]
    by_cases hv : v ∈ vs
    · simp [hv]
    · simp [hv]
  · rw [get?_initialSets, if_pos hstart, if_pos rfl]
  · obtain ⟨-, rfl⟩ := hsome hv
    split
    · exact List.nodup_singleton _
    · exact nodup_distinct vs
  · obtain ⟨-, rfl⟩ := hsome hv
    split
    · next heq =>
      subst heq
      exact hdom _ (.single _)
    · exact mem_distinct.2 hd
  · obtain ⟨hmem, rfl⟩ := hsome hv
    rw [if_neg hne, mem_distinct]
    rcases (mem_joinedSet hnew).1 hd with rfl | hall
    · exact hmem
    · obtain ⟨p, hp⟩ := exists_entrySet hnew
      obtain ⟨u, -, hu⟩ := mem_entrySets.1 hp
      exact hsubset hu (hall p hp)

end Arcs

structure Dominating (r : α → α → Prop) (root : α) (vs : List α) (sets : Table α (List α)) :
    Prop where
  keys : ∀ {v}, v ∈ sets.keys ↔ v ∈ vs
  nodup : ∀ {v s}, sets.get? v = some s → s.Nodup
  mem_iff : ∀ {v s d}, sets.get? v = some s → (d ∈ s ↔ d ∈ vs ∧ Dominates r root d v)

/-- The iteration ends, with the sets of the dominators along the arcs among the listed vertices. -/
theorem Arcs.dominatorSets_spec (G : Arcs α) {vs : List α} {start : α} (hstart : start ∈ vs) :
    ∃ sets, G.dominatorSets vs start = some sets ∧
      Dominating (G.within vs).Step start vs sets := by
  obtain ⟨sets, hsets, h, hsettled⟩ := (initial_bounded G hstart).refineAll
  exact ⟨sets, hsets, h.keys, h.nodup, fun hv =>
    ⟨fun hd => ⟨h.subset hv hd, h.dominates hsettled hv hd⟩, fun hd => h.dominators hv hd.1 hd.2⟩⟩

/-! ## Immediate dominators -/

section Immediate

variable {sets : Table α (List α)} {strict : List α} {v x : α} {xs s : List α}

/-- The set of a vertex is just `strict`. -/
def HasSet (sets : Table α (List α)) (strict : List α) (x : α) : Prop :=
  ∃ s, sets.get? x = some s ∧ ∀ y, y ∈ s ↔ y ∈ strict

theorem soleWith_cons_of_hasSet (h : HasSet sets strict x) (xs : List α) :
    soleWith sets strict none (x :: xs) = soleWith sets strict (some x) xs := by
  obtain ⟨s, hs, hsame⟩ := h
  simp [soleWith, hs, sameSet_iff.2 hsame]

theorem soleWith_cons_of_not_hasSet {found : Option α} (hs : ∃ s, sets.get? x = some s)
    (h : ¬ HasSet sets strict x) (xs : List α) :
    soleWith sets strict found (x :: xs) = soleWith sets strict found xs := by
  obtain ⟨s, hs⟩ := hs
  have hsame : ¬ sameSet s strict = true := fun hsame => h ⟨s, hs, sameSet_iff.1 hsame⟩
  simp [soleWith, hs, hsame]

theorem soleWith_of_none {found : Option α} (hget : ∀ x ∈ xs, ∃ s, sets.get? x = some s)
    (h : ∀ x ∈ xs, ¬ HasSet sets strict x) : soleWith sets strict found xs = some found := by
  induction xs with
  | nil => rfl
  | cons x xs ih =>
    rw [List.forall_mem_cons] at hget h
    rw [soleWith_cons_of_not_hasSet hget.1 h.1, ih hget.2 h.2]

theorem soleWith_of_unique (hget : ∀ x ∈ xs, ∃ s, sets.get? x = some s) (hnodup : xs.Nodup)
    (hmem : x ∈ xs) (hx : HasSet sets strict x) (hone : ∀ y ∈ xs, HasSet sets strict y → y = x) :
    soleWith sets strict none xs = some (some x) := by
  induction xs with
  | nil => cases hmem
  | cons y ys ih =>
    rw [List.forall_mem_cons] at hget hone
    rw [List.nodup_cons] at hnodup
    by_cases hyx : y = x
    · subst hyx
      rw [soleWith_cons_of_hasSet hx]
      refine soleWith_of_none hget.2 fun z hz hzset => ?_
      exact hnodup.1 (hone.2 z hz hzset ▸ hz)
    · rw [soleWith_cons_of_not_hasSet hget.1 fun hy => hyx (hone.1 hy)]
      exact ih hget.2 hnodup.2 ((List.mem_cons.1 hmem).resolve_left (Ne.symm hyx)) hone.2

theorem immediateOf_eq {vs : List α} (h : ∀ v ∈ vs, ∃ d, immediateIn sets v = some d) :
    ∃ t, immediateOf sets vs = some t ∧
      ∀ v, t.get? v = if v ∈ vs then immediateIn sets v else none := by
  suffices hfold : ∀ t₀ : Table α (Option α), ∃ t,
      vs.foldlM (fun t v => return t.set v (← immediateIn sets v)) t₀ = some t ∧
        ∀ v, t.get? v = if v ∈ vs then immediateIn sets v else t₀.get? v from hfold ∅
  intro t₀
  induction vs generalizing t₀ with
  | nil => exact ⟨t₀, rfl, fun v => rfl⟩
  | cons w ws ih =>
    rw [List.forall_mem_cons] at h
    obtain ⟨d, hd⟩ := h.1
    obtain ⟨t, ht, hget⟩ := ih h.2 (t₀.set w d)
    refine ⟨t, ?_, fun v => ?_⟩
    · simpa [hd] using ht
    · rw [hget, Table.get?_set]
      by_cases hv : v ∈ ws
      · simp [hv]
      · by_cases hwv : w = v
        · simp [← hwv, hd]
        · simp [hv, hwv, Ne.symm hwv]

end Immediate

section Coherent

variable {H : Arcs α} {start v x : α} {sets : Table α (List α)} {s : List α}

theorem ImmediatelyDominates.unique (hH : H.Coherent) (hv : ReflTransGen H.Step start v) {d d' : α}
    (h : ImmediatelyDominates H.Step start d v) (h' : ImmediatelyDominates H.Step start d' v) :
    d = d' :=
  (Arcs.search_tree hH start).dominates_antisymm (h.1.2.reach hv) (h'.2 d h.1) (h.2 d' h'.1)

theorem exists_immediatelyDominates (hH : H.Coherent) (hv : ReflTransGen H.Step start v)
    (hne : v ≠ start) : ∃ d, ImmediatelyDominates H.Step start d v := by
  obtain ⟨t, -, -, -, himm⟩ := Arcs.immediateDominators_spec hH start
  obtain ⟨d, -, hd⟩ := himm v hv hne
  exact ⟨d, hd⟩

namespace Dominating

theorem exists_get? (h : Dominating H.Step start H.vertices sets) (hv : v ∈ H.vertices) :
    ∃ s, sets.get? v = some s := Table.mem_keys.1 (h.keys.2 hv)

theorem mem_vertices (h : Dominating H.Step start H.vertices sets) (hv : sets.get? v = some s) :
    v ∈ H.vertices := h.keys.1 (Table.mem_keys.2 ⟨s, hv⟩)

theorem mem_of_not_reach (h : Dominating H.Step start H.vertices sets) (hv : sets.get? v = some s)
    (hreach : ¬ ReflTransGen H.Step start v) (hx : x ∈ H.vertices) : x ∈ s :=
  (h.mem_iff hv).2 ⟨hx, fun _ hw => absurd (hw.reach_mem hw.last_mem) hreach⟩

/-- No two vertices have the same set among the strict dominators of a vertex. -/
theorem hasSet_unique (hH : H.Coherent) (h : Dominating H.Step start H.vertices sets)
    (hv : sets.get? v = some s) {y : α} (hxs : x ∈ s.filter (· ≠ v)) (hys : y ∈ s.filter (· ≠ v))
    (hx : HasSet sets (s.filter (· ≠ v)) x) (hy : HasSet sets (s.filter (· ≠ v)) y) : x = y := by
  obtain ⟨p, hp, hpx⟩ := hx
  obtain ⟨q, hq, hqy⟩ := hy
  have hxy : Dominates H.Step start x y := ((h.mem_iff hq).1 ((hqy x).2 hxs)).2
  have hyx : Dominates H.Step start y x := ((h.mem_iff hp).1 ((hpx y).2 hys)).2
  by_cases hreach : ReflTransGen H.Step start x
  · exact (Arcs.search_tree hH start).dominates_antisymm hreach hxy hyx
  · -- the set of a vertex that cannot be reached has `v`, which is no strict dominator of itself
    have := (hpx v).1 (h.mem_of_not_reach hp hreach (h.mem_vertices hv))
    simp at this

/-- The set of the immediate dominator is that of the strict dominators. -/
theorem hasSet_of_immediate (hH : H.Coherent) (hstart : start ∈ H.vertices)
    (h : Dominating H.Step start H.vertices sets) (hreach : ReflTransGen H.Step start v)
    (hv : sets.get? v = some s) (hx : ImmediatelyDominates H.Step start x v) :
    x ∈ s.filter (· ≠ v) ∧ HasSet sets (s.filter (· ≠ v)) x := by
  obtain ⟨⟨hne, hdom⟩, himm⟩ := hx
  have hxv := hH.reach_mem hstart (hdom.reach hreach)
  obtain ⟨p, hp⟩ := h.exists_get? hxv
  refine ⟨by simpa using ⟨(h.mem_iff hv).2 ⟨hxv, hdom⟩, hne⟩, p, hp, fun y => ?_⟩
  rw [List.mem_filter, decide_eq_true_eq, h.mem_iff hp, h.mem_iff hv]
  constructor
  · rintro ⟨hy, hyx⟩
    refine ⟨⟨hy, hyx.trans hdom⟩, ?_⟩
    rintro rfl
    exact hne ((Arcs.search_tree hH start).dominates_antisymm (hdom.reach hreach) hdom hyx)
  · rintro ⟨⟨hy, hyv⟩, hyne⟩
    exact ⟨hy, himm y ⟨hyne, hyv⟩⟩

/-- For every vertex there is an answer: the strict dominator with the set of all of them. -/
theorem immediateIn_spec (hH : H.Coherent) (h : Dominating H.Step start H.vertices sets)
    (hv : sets.get? v = some s) :
    ∃ d, immediateIn sets v = some d ∧
      ∀ x, d = some x ↔ x ∈ s.filter (· ≠ v) ∧ HasSet sets (s.filter (· ≠ v)) x := by
  have hget : ∀ x ∈ s.filter (· ≠ v), ∃ p, sets.get? x = some p := fun x hx =>
    h.exists_get? ((h.mem_iff hv).1 (List.mem_of_mem_filter hx)).1
  have heq : immediateIn sets v =
      soleWith sets (s.filter (· ≠ v)) none (s.filter (· ≠ v)) := by
    rw [immediateIn, hv]
    rfl
  rw [heq]
  by_cases hex : ∃ x ∈ s.filter (· ≠ v), HasSet sets (s.filter (· ≠ v)) x
  · obtain ⟨x, hxs, hx⟩ := hex
    have hone : ∀ y ∈ s.filter (· ≠ v), HasSet sets (s.filter (· ≠ v)) y → y = x :=
      fun y hys hy => h.hasSet_unique hH hv hys hxs hy hx
    refine ⟨some x, soleWith_of_unique hget ((h.nodup hv).filter _) hxs hx hone, fun y => ?_⟩
    rw [Option.some.injEq]
    exact ⟨fun heq => heq ▸ ⟨hxs, hx⟩, fun hy => (hone y hy.1 hy.2).symm⟩
  · refine ⟨none, soleWith_of_none hget fun x hxs hx => hex ⟨x, hxs, hx⟩, fun x => ?_⟩
    exact ⟨fun heq => (by cases heq), fun hx => absurd ⟨x, hx⟩ hex⟩

end Dominating

/-- From the sets of the dominators the immediate dominators are found. Every vertex has an entry;
that of the start is empty. -/
theorem immediateOf_spec (hH : H.Coherent) (hstart : start ∈ H.vertices)
    (h : Dominating H.Step start H.vertices sets) :
    ∃ t, immediateOf sets H.vertices = some t ∧
      (∀ v, (∃ d, t.get? v = some d) ↔ v ∈ H.vertices) ∧ t.get? start = some none ∧
      ∀ v, ReflTransGen H.Step start v → v ≠ start →
        ∃ d, t.get? v = some (some d) ∧ ImmediatelyDominates H.Step start d v := by
  have hone : ∀ v ∈ H.vertices, ∃ d, immediateIn sets v = some d := by
    intro v hv
    obtain ⟨s, hs⟩ := h.exists_get? hv
    obtain ⟨d, hd, -⟩ := h.immediateIn_spec hH hs
    exact ⟨d, hd⟩
  obtain ⟨t, ht, hget⟩ := immediateOf_eq hone
  refine ⟨t, ht, fun v => ?_, ?_, fun v hv hne => ?_⟩
  · rw [hget]
    by_cases hmem : v ∈ H.vertices
    · simpa [hmem] using hone v hmem
    · simp [hmem]
  · obtain ⟨s, hs⟩ := h.exists_get? hstart
    obtain ⟨d, hd, hiff⟩ := h.immediateIn_spec hH hs
    have hnil : d = none := by
      refine Option.eq_none_iff_forall_ne_some.2 fun x hx => ?_
      have hxs := ((hiff x).1 hx).1
      rw [List.mem_filter, decide_eq_true_eq] at hxs
      exact hxs.2 (List.mem_singleton.1 (((h.mem_iff hs).1 hxs.1).2 _ (.single start)))
    rw [hget, if_pos hstart, hd, hnil]
  · have hmem := hH.reach_mem hstart hv
    obtain ⟨s, hs⟩ := h.exists_get? hmem
    obtain ⟨x, hx⟩ := exists_immediatelyDominates hH hv hne
    obtain ⟨d, hd, hiff⟩ := h.immediateIn_spec hH hs
    refine ⟨x, ?_, hx⟩
    rw [hget, if_pos hmem, hd, (hiff x).2 (h.hasSet_of_immediate hH hstart hv hs hx)]

end Coherent

namespace Digraph

variable {β : Type}

theorem step_within_eq (g : Digraph β) (vs : List NodeId) :
    (g.arcs.within vs).Step = g.LeadsWithin vs := by
  funext u v
  rw [Arcs.step_within, LeadsWithin]
  exact propext (and_congr_left fun _ => mem_predecessors)

/-- For a list of nodes and a start among them, the iteration comes to an end and gives each listed
node the listed nodes that are on every walk to it among the listed ones; where there is no such walk,
that is all of them. From these sets exactly one immediate dominator is found for every node that can
be reached, and none for the start. -/
theorem dominatorSets_correct (g : Digraph β) {vs : List NodeId} {start : NodeId}
    (hstart : start ∈ vs) :
    ∃ sets, g.arcs.dominatorSets vs start = some sets ∧
      (∀ v, sets.contains v = true ↔ v ∈ vs) ∧
      (∀ v s, sets.get? v = some s →
        s.Nodup ∧ ∀ d, d ∈ s ↔ d ∈ vs ∧ Dominates (g.LeadsWithin vs) start d v) ∧
      ∃ t, immediateOf sets vs = some t ∧
        (∀ v, t.contains v = true ↔ v ∈ vs) ∧ t.get? start = some none ∧
        ∀ v, ReflTransGen (g.LeadsWithin vs) start v → v ≠ start →
          ∃ d, t.get? v = some (some d) ∧ ImmediatelyDominates (g.LeadsWithin vs) start d v ∧
            ∀ d', ImmediatelyDominates (g.LeadsWithin vs) start d' v → d' = d := by
  have hcoherent : (g.arcs.within vs).Coherent := Arcs.within_coherent
  obtain ⟨sets, hsets, h⟩ := g.arcs.dominatorSets_spec hstart
  obtain ⟨t, ht, hmem, hnone, himm⟩ := immediateOf_spec hcoherent hstart h
  rw [step_within_eq] at h himm
  refine ⟨sets, hsets, fun v => ?_, fun v s hv => ⟨h.nodup hv, fun d => h.mem_iff hv⟩, t, ht,
    fun v => ?_, hnone, fun v hv hne => ?_⟩
  · rw [Table.contains_iff, ← Table.mem_keys, h.keys]
  · rw [Table.contains_iff]
    exact hmem v
  · obtain ⟨d, hd, hdom⟩ := himm v hv hne
    refine ⟨d, hd, hdom, fun d' hd' => ?_⟩
    rw [← step_within_eq] at hv hdom hd'
    exact hd'.unique hcoherent hv hdom

/-- A cycle without one of its nodes, and a node that is not reached and leads into it. -/
theorem tangle_dominatorSets :
    (⟨0, 2⟩ : NodeId) ∈ [⟨0, 4⟩, ⟨0, 3⟩, ⟨0, 2⟩] ∧
      ∃ sets, tangle.arcs.dominatorSets [⟨0, 4⟩, ⟨0, 3⟩, ⟨0, 2⟩] ⟨0, 2⟩ = some sets ∧
        (∃ s, sets.get? ⟨0, 4⟩ = some s ∧
          ∀ d, d ∈ s ↔ d ∈ [⟨0, 4⟩, ⟨0, 3⟩, ⟨0, 2⟩] ∧
            Dominates (tangle.LeadsWithin [⟨0, 4⟩, ⟨0, 3⟩, ⟨0, 2⟩]) ⟨0, 2⟩ d ⟨0, 4⟩) ∧
        ∃ t, immediateOf sets [⟨0, 4⟩, ⟨0, 3⟩, ⟨0, 2⟩] = some t ∧
          t.get? ⟨0, 2⟩ = some none ∧ ∃ d, t.get? ⟨0, 3⟩ = some (some d) ∧
            ImmediatelyDominates (tangle.LeadsWithin [⟨0, 4⟩, ⟨0, 3⟩, ⟨0, 2⟩]) ⟨0, 2⟩ d ⟨0, 3⟩ := by
  have hmem : (⟨0, 2⟩ : NodeId) ∈ [⟨0, 4⟩, ⟨0, 3⟩, ⟨0, 2⟩] := by decide
  obtain ⟨sets, hrun, hkeys, hsets, t, ht, -, hnone, himm⟩ := dominatorSets_correct tangle hmem
  obtain ⟨s, hs⟩ := Table.contains_iff.1 ((hkeys ⟨0, 4⟩).2 (by decide))
  have hstep : tangle.LeadsWithin [⟨0, 4⟩, ⟨0, 3⟩, ⟨0, 2⟩] ⟨0, 2⟩ ⟨0, 3⟩ :=
    ⟨⟨⟨⟨0, 4⟩, ⟨0, 2⟩, ⟨0, 3⟩, ∅⟩, by decide, rfl, rfl⟩, by decide, by decide⟩
  obtain ⟨d, hd, hdom, -⟩ := himm ⟨0, 3⟩ (.single hstep) (by decide)
  exact ⟨hmem, sets, hrun, ⟨s, hs, (hsets _ s hs).2⟩, t, ht, hnone, d, hd, hdom⟩

end Digraph

end Structuring
