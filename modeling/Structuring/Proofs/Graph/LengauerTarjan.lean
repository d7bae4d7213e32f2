import Structuring.Proofs.Graph.LinkForest

/-!
# Immediate dominators by semidominators

The vertices are handled from the last one of the search on. What holds of the state of the main loop
is said for the place `k` of the vertex that was handled last.

* `LinkForest.Linked.semidominator` — the semidominator is found among the neighbours.
* `DominatorSearch.Answers` — what is settled is right.
* `DominatorSearch.Invariant` — every handled vertex is settled, deferred or in a bucket.
* `DominatorSearch.Invariant.handle` — handling one vertex keeps the invariant.
* `Arcs.immediateDominators_spec` — the whole algorithm.
-/

namespace Structuring

open Relation

variable {α : Type} [DecidableEq α]
variable {r : α → α → Prop} {root : α} {num : α → Nat} {par : α → α → Prop}

/-! ## The semidominator of one vertex -/

/-- A candidate for the semidominator of `v` is not after what the neighbour `w` offers. -/
def Beats (r : α → α → Prop) (root : α) (num : α → Nat) (par : α → α → Prop) (v s w : α) : Prop :=
  (num w ≤ num v → num s ≤ num w) ∧
    (num v < num w → ∀ u x, ReflTransGen par u w → num v < num u → ReflTransGen r root x →
      SemiPath r num u x → num s ≤ num x)

omit [DecidableEq α] in
theorem Beats.mono {v s s' w : α} (h : Beats r root num par v s w) (hle : num s' ≤ num s) :
    Beats r root num par v s' w :=
  ⟨fun hw => hle.trans (h.1 hw), fun hw u x hu hvu hx hxu => hle.trans (h.2 hw u x hu hvu hx hxu)⟩

namespace LinkForest
namespace Linked

variable {k : Nat} {f : LinkForest α} {v s w : α}

theorem lowestSemi (T : DepthFirstTree r root num par) (h : Linked r root num par (num v + 1) f)
    (hw : ReflTransGen r root w) (hlt : num v < num w) (hwv : r w v) :
    ∃ t f', f.lowestSemi w = some (t, f') ∧ Linked r root num par (num v + 1) f' ∧ f.Agrees f' ∧
      ReflTransGen r root t ∧ SemiPath r num v t ∧
      ∀ u x, ReflTransGen par u w → num v < num u → ReflTransGen r root x → SemiPath r num u x →
        num t ≤ num x := by
  obtain ⟨u, f', hu, h', hagree, hur, huw, hvu, hbest⟩ := h.lowest T hw hlt
  obtain ⟨t, ht, hsemi⟩ := h.semi hur hvu
  refine ⟨t, f', ?_, h', hagree, hsemi.reach, T.semiPath_trans hsemi.path huw hvu hwv, ?_⟩
  · simp [LinkForest.lowestSemi, hu, hagree.semi, ht]
  · intro u' x hu' hvu' hx hxu'
    have hu'r : ReflTransGen r root u' := hx.trans hxu'.reach
    obtain ⟨t', ht', hsemi'⟩ := h.semi hu'r hvu'
    have hle := hbest u' hu' hvu'
    rw [semiNum_eq num ht, semiNum_eq num ht'] at hle
    exact hle.trans (hsemi'.le hx hxu')

theorem improve (T : DepthFirstTree r root num par) (h : Linked r root num par (num v + 1) f)
    (hv : ReflTransGen r root v) (hs : ReflTransGen r root s) (hsv : SemiPath r num v s)
    (hwv : r w v) :
    ∃ s' f', f.improve v s w = some (s', f') ∧ Linked r root num par (num v + 1) f' ∧
      f.Agrees f' ∧ ReflTransGen r root s' ∧ SemiPath r num v s' ∧ num s' ≤ num s ∧
      (ReflTransGen r root w → Beats r root num par v s' w) := by
  by_cases hw : ReflTransGen r root w
  · -- in both cases the candidate `c` is compared with `s`
    have hchoose : ∀ c f', Linked r root num par (num v + 1) f' → f.Agrees f' →
        ReflTransGen r root c → SemiPath r num v c → Beats r root num par v c w →
        ∃ s', (do
            let m ← f'.number.get? c
            let n ← f'.number.get? s
            pure (if m < n then c else s, f')) = some (s', f') ∧
          ReflTransGen r root s' ∧ SemiPath r num v s' ∧ num s' ≤ num s ∧
          Beats r root num par v s' w := by
      intro c f' h' _ hc hcv hbeats
      rw [h'.number hc, h'.number hs]
      refine ⟨if num c < num s then c else s, rfl, ?_⟩
      split
      · next hlt => exact ⟨hc, hcv, hlt.le, hbeats⟩
      · next hlt => exact ⟨hs, hsv, Nat.le_refl _, hbeats.mono (by omega)⟩
    by_cases hle : num w ≤ num v
    · have hbeats : Beats r root num par v w w :=
        ⟨fun _ => Nat.le_refl _, fun hlt => absurd hle (Nat.not_le.2 hlt)⟩
      obtain ⟨s', hs', hrest⟩ := hchoose w f h (.refl f) hw (.step hwv) hbeats
      refine ⟨s', f, ?_, h, .refl f, hrest.1, hrest.2.1, hrest.2.2.1, fun _ => hrest.2.2.2⟩
      simpa [LinkForest.improve, h.number hw, h.number hv, hle] using hs'
    · obtain ⟨t, f', ht, h', hagree, htr, htv, hbest⟩ :=
        h.lowestSemi T hw (Nat.not_le.1 hle) hwv
      have hbeats : Beats r root num par v t w := ⟨fun h => absurd h hle, fun _ => hbest⟩
      obtain ⟨s', hs', hrest⟩ := hchoose t f' h' hagree htr htv hbeats
      refine ⟨s', f', ?_, h', hagree, hrest.1, hrest.2.1, hrest.2.2.1, fun _ => hrest.2.2.2⟩
      simpa [LinkForest.improve, h.number hw, h.number hv, hle, ht] using hs'
  · refine ⟨s, f, ?_, h, .refl f, hs, hsv, Nat.le_refl _, fun hw' => absurd hw' hw⟩
    rw [LinkForest.improve, h.number_none hw]

theorem semidominator (T : DepthFirstTree r root num par) {ws : List α}
    (h : Linked r root num par (num v + 1) f) (hv : ReflTransGen r root v)
    (hs : ReflTransGen r root s) (hsv : SemiPath r num v s) (hws : ∀ w ∈ ws, r w v) :
    ∃ s' f', f.semidominator v s ws = some (s', f') ∧ Linked r root num par (num v + 1) f' ∧
      f.Agrees f' ∧ ReflTransGen r root s' ∧ SemiPath r num v s' ∧ num s' ≤ num s ∧
      ∀ w ∈ ws, ReflTransGen r root w → Beats r root num par v s' w := by
  induction ws generalizing f s with
  | nil => exact ⟨s, f, rfl, h, .refl f, hs, hsv, Nat.le_refl _, by simp⟩
  | cons w ws ih =>
    obtain ⟨s₁, f₁, hf₁, h₁, hagree₁, hs₁, hsv₁, hle₁, hbeats⟩ :=
      h.improve T hv hs hsv (hws w List.mem_cons_self)
    obtain ⟨s₂, f₂, hf₂, h₂, hagree₂, hs₂, hsv₂, hle₂, hbeats₂⟩ :=
      ih h₁ hs₁ hsv₁ fun x hx => hws x (List.mem_cons_of_mem _ hx)
    refine ⟨s₂, f₂, ?_, h₂, hagree₁.trans hagree₂, hs₂, hsv₂, hle₂.trans hle₁, ?_⟩
    · simp [LinkForest.semidominator, hf₁, hf₂]
    · intro x hx hxr
      rcases List.mem_cons.1 hx with rfl | hx
      · exact (hbeats hxr).mono hle₂
      · exact hbeats₂ x hx hxr

end Linked
end LinkForest

/-! ## Settling the vertices of a bucket -/

theorem Table.exists_get?_set {β : Type} (t : Table α β) (w x : α) (b : β) :
    (∃ d, (t.set w b).get? x = some d) ↔ w = x ∨ ∃ d, t.get? x = some d := by
  rw [Table.get?_set]
  by_cases h : w = x
  · simp [h]
  · simp [h]

namespace DominatorSearch

/-- What is settled is right, and a deferred vertex has the immediate dominator of an earlier one. -/
structure Answers (r : α → α → Prop) (root : α) (num : α → Nat) (idom : Table α (Option α))
    (same : Table α α) : Prop where
  start : idom.get? root = some none
  settled : ∀ {w : α} {d : Option α}, idom.get? w = some d → w ≠ root →
    ReflTransGen r root w ∧ ∃ a, d = some a ∧ ImmediatelyDominates r root a w
  deferred : ∀ {w u : α}, same.get? w = some u → ReflTransGen r root u ∧ u ≠ root ∧ num u < num w ∧
    ReflTransGen r root w ∧ w ≠ root ∧
    ∀ i, ImmediatelyDominates r root i u → ImmediatelyDominates r root i w

def Done (s : DominatorSearch α) (w : α) : Prop :=
  (∃ d, s.idom.get? w = some d) ∨ ∃ u, s.same.get? w = some u

/-- A vertex whose semidominator is `p`, with all vertices on the way from `p` linked. -/
structure Ready (r : α → α → Prop) (root : α) (num : α → Nat) (par : α → α → Prop) (k : Nat)
    (p w : α) : Prop where
  reach : ReflTransGen r root w
  ne_root : w ≠ root
  le : k ≤ num w
  semi : Semidominator r root num p w
  linked : ∀ x, OnWay par p w x → k ≤ num x

theorem Answers.settle_one {idom : Table α (Option α)} {same : Table α α}
    (h : Answers r root num idom same) {w a : α} (hw : ReflTransGen r root w) (hne : w ≠ root)
    (ha : ImmediatelyDominates r root a w) :
    Answers r root num (idom.set w (some a)) same := by
  refine ⟨?_, ?_, h.deferred⟩
  · rw [Table.get?_set, if_neg hne, h.start]
  · intro x d hx hxr
    rw [Table.get?_set] at hx
    split at hx
    · next hwx =>
      cases hx
      subst hwx
      exact ⟨hw, a, rfl, ha⟩
    · exact h.settled hx hxr

theorem Answers.defer_one {idom : Table α (Option α)} {same : Table α α}
    (h : Answers r root num idom same) {w y : α} (hw : ReflTransGen r root w) (hne : w ≠ root)
    (hy : ReflTransGen r root y) (hyroot : y ≠ root) (hlt : num y < num w)
    (hi : ∀ i, ImmediatelyDominates r root i y → ImmediatelyDominates r root i w) :
    Answers r root num idom (same.set w y) := by
  refine ⟨h.start, h.settled, ?_⟩
  intro x u hx
  rw [Table.get?_set] at hx
  split at hx
  · next hwx =>
    cases hx
    subst hwx
    exact ⟨hy, hyroot, hlt, hw, hne, hi⟩
  · exact h.deferred hx

variable {k : Nat} {p : α}

theorem emptyBucket_one (T : DepthFirstTree r root num par) {s : DominatorSearch α} {w : α}
    (h : LinkForest.Linked r root num par k s.forest) (ha : Answers r root num s.idom s.same)
    (hpk : num p < k) (hw : Ready r root num par k p w) :
    ∃ s' : DominatorSearch α, (∀ ws, s.emptyBucket p (w :: ws) = s'.emptyBucket p ws) ∧
      LinkForest.Linked r root num par k s'.forest ∧ Answers r root num s'.idom s'.same ∧
      s'.bucket = s.bucket ∧ (∀ x, s.Done x → s'.Done x) ∧ s'.Done w := by
  obtain ⟨y, f, hy, hf, hagree, hyr, hyw, hky, hbest⟩ := h.lowest T hw.reach hw.le
  obtain ⟨t, ht, hty⟩ := h.semi hyr hky
  obtain ⟨p', hp', hpw⟩ := h.semi hw.reach hw.le
  obtain rfl : p' = p := T.semi_unique hpw hw.semi
  have hpanc := T.semi_anc hw.reach hw.ne_root hpw
  -- no vertex between has a semidominator before that of `y`
  have hlow : ∀ z x, OnWay par p' w z → ReflTransGen r root x → SemiPath r num z x →
      num t ≤ num x := by
    intro z x hz hx hxz
    obtain ⟨t', ht', htz⟩ := h.semi (hx.trans hxz.reach) (hw.linked z hz)
    have hle := hbest z hz.2.2 (hw.linked z hz)
    rw [LinkForest.semiNum_eq num ht, LinkForest.semiNum_eq num ht'] at hle
    exact hle.trans (htz.le hx hxz)
  by_cases hyp : t = p'
  · subst hyp
    refine ⟨{ s with forest := f, idom := s.idom.set w (some t) }, ?_, hf, ?_, rfl, ?_, ?_⟩
    · intro ws
      simp [emptyBucket, hy, hagree.semi, ht, hp']
    · exact ha.settle_one hw.reach hw.ne_root
        (T.immediate_of_semi hw.reach hw.ne_root hpw hlow)
    · rintro x (hx | hx)
      · exact .inl ((Table.exists_get?_set _ _ _ _).2 (.inr hx))
      · exact .inr hx
    · exact .inl ((Table.exists_get?_set _ _ _ _).2 (.inl rfl))
  · have htp : num t < num p' := by
      have hle := hbest w .refl hw.le
      rw [LinkForest.semiNum_eq num ht, LinkForest.semiNum_eq num hp'] at hle
      exact Nat.lt_of_le_of_ne hle fun he => hyp (T.inj hty.reach hpw.reach he)
    have hway : OnWay par p' w y := by
      refine ⟨T.anc_of_le hpanc hyw (by omega), ?_, hyw⟩
      rintro rfl
      omega
    have hyne : y ≠ w := by
      rintro rfl
      rw [ht] at hp'
      exact hyp (Option.some.inj hp')
    have hyroot : y ≠ root := by
      rintro rfl
      have := T.root_le hpw.reach
      omega
    refine ⟨{ s with forest := f, same := s.same.set w y }, ?_, hf, ?_, rfl, ?_, ?_⟩
    · intro ws
      simp [emptyBucket, hy, hagree.semi, ht, hp', hyp]
    · exact ha.defer_one hw.reach hw.ne_root hyr hyroot (T.anc_lt hyw hyne) fun i hi =>
        T.immediate_of_lowest hw.reach hw.ne_root hpw hway hty htp hlow hi
    · rintro x (hx | hx)
      · exact .inl hx
      · exact .inr ((Table.exists_get?_set _ _ _ _).2 (.inr hx))
    · exact .inr ((Table.exists_get?_set _ _ _ _).2 (.inl rfl))

theorem emptyBucket_spec (T : DepthFirstTree r root num par) {s : DominatorSearch α} {ws : List α}
    (h : LinkForest.Linked r root num par k s.forest) (ha : Answers r root num s.idom s.same)
    (hpk : num p < k) (hws : ∀ w ∈ ws, Ready r root num par k p w) :
    ∃ s', s.emptyBucket p ws = some s' ∧ LinkForest.Linked r root num par k s'.forest ∧
      Answers r root num s'.idom s'.same ∧ s'.bucket = s.bucket ∧
      (∀ x, s.Done x → s'.Done x) ∧ ∀ w ∈ ws, s'.Done w := by
  induction ws generalizing s with
  | nil => exact ⟨s, rfl, h, ha, rfl, fun _ hx => hx, by simp⟩
  | cons w ws ih =>
    obtain ⟨s₁, hs₁, h₁, ha₁, hb₁, hdone₁, hw₁⟩ :=
      emptyBucket_one T h ha hpk (hws w List.mem_cons_self)
    obtain ⟨s₂, hs₂, h₂, ha₂, hb₂, hdone₂, hw₂⟩ :=
      ih h₁ ha₁ fun x hx => hws x (List.mem_cons_of_mem _ hx)
    refine ⟨s₂, (hs₁ ws).trans hs₂, h₂, ha₂, hb₂.trans hb₁, fun x hx => hdone₂ x (hdone₁ x hx), ?_⟩
    intro x hx
    rcases List.mem_cons.1 hx with rfl | hx
    · exact hdone₂ x hw₁
    · exact hw₂ x hx

/-! ## The main loop -/

def pending (s : DominatorSearch α) (a : α) : List α := (s.bucket.get? a).getD []

/-- What holds when the vertices from place `k` on are handled. A vertex waits in the bucket of its
semidominator until the way from there is linked. -/
structure Invariant (r : α → α → Prop) (root : α) (num : α → Nat) (par : α → α → Prop) (k : Nat)
    (s : DominatorSearch α) : Prop where
  forest : LinkForest.Linked r root num par k s.forest
  answers : Answers r root num s.idom s.same
  waiting : ∀ {a w : α}, w ∈ s.pending a → ReflTransGen r root w ∧ w ≠ root ∧ k ≤ num w ∧
    Semidominator r root num a w ∧ ∃ x, OnWay par a w x ∧ num x < k
  handled : ∀ {w : α}, ReflTransGen r root w → w ≠ root → k ≤ num w →
    s.Done w ∨ ∃ a, w ∈ s.pending a
  buckets : ∀ {a : α}, ReflTransGen r root a → ∃ ws, s.bucket.get? a = some ws

omit [DecidableEq α] in
/-- The vertices below a parent, down to a handled one, are handled once its child is. -/
theorem le_of_onWay (T : DepthFirstTree r root num par) {v w x : α} (hv : ReflTransGen r root v)
    (hp : ReflTransGen r root p) (hpv : par p v) (hvw : num v ≤ num w) (hx : OnWay par p w x) :
    num v ≤ num x := by
  by_contra hlt
  have hxr := hp.trans (T.anc_reach hx.1)
  have hxv := T.anc_between hxr hv hx.2.2 (by omega) hvw
  have hpx := T.anc_lt hx.1 hx.2.1.symm
  cases hxv with
  | refl => exact hlt (Nat.le_refl _)
  | tail hxy hyv =>
    rw [T.unique hyv hpv] at hxy
    have := T.anc_le hxy
    omega

omit [DecidableEq α] in
/-- The parent of a vertex is on the way to it from every ancestor but itself. -/
theorem parent_onWay (T : DepthFirstTree r root num par) {a v w : α} (hpv : par p v) (hpa : p ≠ a)
    (hvw : OnWay par a w v) : OnWay par a w p := by
  refine ⟨?_, hpa, .head hpv hvw.2.2⟩
  cases hvw.1 with
  | refl => exact absurd rfl hvw.2.1
  | tail hay hyv => exact T.unique hyv hpv ▸ hay

theorem pending_set (s : DominatorSearch α) (t : Table α (List α)) (a b : α) (ws : List α)
    (h : s.bucket = t.set a ws) :
    s.pending b = if a = b then ws else (t.get? b).getD [] := by
  rw [pending, h, Table.get?_set]
  split <;> rfl

def wait (s : DominatorSearch α) (f : LinkForest α) (a v : α) : DominatorSearch α :=
  { s with forest := f, bucket := s.bucket.set a (s.pending a ++ [v]) }

/-- The steps of handling one vertex whose semidominator and parent have buckets. -/
theorem handle_eq {G : Arcs α} {s : DominatorSearch α} {p v t : α} {f : LinkForest α}
    (hf : s.forest.semidominator v p (G.back v) = some (t, f))
    (ht : ∃ ws, s.bucket.get? t = some ws) (hp : ∃ ws, s.bucket.get? p = some ws) :
    s.handle G p v = do
      let f' ← { f with semi := f.semi.set v t }.link p v
      let s' ← (s.wait f' t v).emptyBucket p ((s.wait f' t v).pending p)
      return { s' with bucket := s'.bucket.set p [] } := by
  obtain ⟨ws, hws⟩ := ht
  obtain ⟨ws', hws'⟩ : ∃ ws', (s.bucket.set t (ws ++ [v])).get? p = some ws' := by
    rw [Table.exists_get?_set]
    exact .inr hp
  simp [handle, hf, wait, pending, hws, hws']

theorem mem_pending_wait {s : DominatorSearch α} {f : LinkForest α} {a b v w : α} :
    w ∈ (s.wait f a v).pending b ↔ w ∈ s.pending b ∨ (a = b ∧ w = v) := by
  rw [pending_set (s.wait f a v) s.bucket a b _ rfl]
  split
  · next hab => simp [← hab]
  · next hab => simp [hab, pending]

omit [DecidableEq α] in
theorem ne_root_of_par (T : DepthFirstTree r root num par) {v : α} (hp : ReflTransGen r root p)
    (hpv : par p v) : v ≠ root := by
  rintro rfl
  have := T.root_le hp
  have := (T.step hpv).2
  omega

theorem Invariant.semidominator (T : DepthFirstTree r root num par) {G : Arcs α}
    {s : DominatorSearch α} {v : α} (h : Invariant r root num par (num v + 1) s)
    (hv : ReflTransGen r root v) (hp : ReflTransGen r root p) (hpv : par p v)
    (hback : ∀ u, u ∈ G.back v ↔ r u v) :
    ∃ t f, s.forest.semidominator v p (G.back v) = some (t, f) ∧
      LinkForest.Linked r root num par (num v + 1) f ∧ Semidominator r root num t v := by
  obtain ⟨t, f, hf, hforest, -, htr, htv, -, hbeats⟩ :=
    h.forest.semidominator T hv hp (.step (T.step hpv).1) fun u hu => (hback u).1 hu
  refine ⟨t, f, hf, hforest, T.semidominator_of hv (ne_root_of_par T hp hpv) htr htv ?_ ?_⟩
  · exact fun u hu huv => (hbeats u ((hback u).2 huv) hu).1
  · exact fun u y x hu huv hvu hyu hvy hx hxy =>
      (hbeats u ((hback u).2 huv) hu).2 hvu y x hyu hvy hx hxy

/-- Once the vertex is linked, those in the bucket of its parent can be settled. -/
theorem Invariant.ready (T : DepthFirstTree r root num par) {s : DominatorSearch α} {v t : α}
    (h : Invariant r root num par (num v + 1) s) (hv : ReflTransGen r root v)
    (hp : ReflTransGen r root p) (hpv : par p v) (ht : Semidominator r root num t v)
    (f : LinkForest α) :
    ∀ w ∈ (s.wait f t v).pending p, Ready r root num par (num v) p w := by
  intro w hw
  rcases mem_pending_wait.1 hw with hw | ⟨rfl, rfl⟩
  · obtain ⟨hwr, hne, hle, hpw, -⟩ := h.waiting hw
    exact ⟨hwr, hne, by omega, hpw, fun x hx => le_of_onWay T hv hp hpv (by omega) hx⟩
  · exact ⟨hv, ne_root_of_par T hp hpv, Nat.le_refl _, ht, fun x hx =>
      le_of_onWay T hv hp hpv (Nat.le_refl _) hx⟩

theorem Invariant.handle (T : DepthFirstTree r root num par) {G : Arcs α} {s : DominatorSearch α}
    {v : α} (h : Invariant r root num par (num v + 1) s) (hv : ReflTransGen r root v)
    (hp : ReflTransGen r root p) (hpv : par p v) (hback : ∀ u, u ∈ G.back v ↔ r u v) :
    ∃ s', s.handle G p v = some s' ∧ Invariant r root num par (num v) s' := by
  have hlt := (T.step hpv).2
  have hroot := ne_root_of_par T hp hpv
  obtain ⟨t, f, hf, hforest, hsemi⟩ := h.semidominator T hv hp hpv hback
  obtain ⟨f', hlink, hforest', -, -⟩ := hforest.link T hv hp hpv hsemi
  obtain ⟨s₂, hs₂, hforest₂, hanswers, hbucket, hdone, hdone'⟩ :=
    emptyBucket_spec (s := s.wait f' t v) T hforest' h.answers hlt
      (h.ready T hv hp hpv hsemi f')
  have hpend₂ : ∀ a, DominatorSearch.pending { s₂ with bucket := s₂.bucket.set p [] } a =
      if p = a then [] else (s.wait f' t v).pending a := by
    intro a
    rw [pending_set _ s₂.bucket p a [] rfl, hbucket]
    rfl
  refine ⟨{ s₂ with bucket := s₂.bucket.set p [] }, ?_, hforest₂, hanswers, ?_, ?_, fun ha => ?_⟩
  · simp only [handle_eq hf (h.buckets hsemi.reach) (h.buckets hp), hlink, hs₂,
      Option.bind_eq_bind, Option.bind_some, Option.pure_def]
  · intro a w hw
    rw [hpend₂] at hw
    split at hw
    · cases hw
    · next hpa =>
      have hparent : ∀ w, OnWay par a w v → ∃ x, OnWay par a w x ∧ num x < num v :=
        fun w hvw => ⟨p, parent_onWay T hpv hpa hvw, hlt⟩
      rcases mem_pending_wait.1 hw with hw | ⟨rfl, rfl⟩
      · obtain ⟨hwr, hne, hle, haw, x, hx, hxv⟩ := h.waiting hw
        refine ⟨hwr, hne, by omega, haw, ?_⟩
        by_cases hxv' : num x = num v
        · have hxr := haw.reach.trans (T.anc_reach hx.1)
          exact hparent w (T.inj hxr hv hxv' ▸ hx)
        · exact ⟨x, hx, by omega⟩
      · refine ⟨hv, hroot, Nat.le_refl _, hsemi, hparent w ⟨T.semi_anc hv hroot hsemi, ?_, .refl⟩⟩
        rintro rfl
        exact absurd (T.semi_lt hv hroot hsemi) (Nat.lt_irrefl _)
  · intro w hw hne hle
    have hcases : s.Done w ∨ ∃ a, w ∈ (s.wait f' t v).pending a := by
      by_cases hwv : w = v
      · exact .inr ⟨t, mem_pending_wait.2 (.inr ⟨rfl, hwv⟩)⟩
      · have hlt' : num v + 1 ≤ num w :=
          Nat.lt_of_le_of_ne hle fun he => hwv (T.inj hw hv he.symm)
        rcases h.handled hw hne hlt' with hd | ⟨a, ha⟩
        · exact .inl hd
        · exact .inr ⟨a, mem_pending_wait.2 (.inl ha)⟩
    rcases hcases with hd | ⟨a, ha⟩
    · exact .inl (hdone w hd)
    · by_cases hpa : p = a
      · subst hpa
        exact .inl (hdone' w ha)
      · refine .inr ⟨a, ?_⟩
        rw [hpend₂, if_neg hpa]
        exact ha
  · rw [Table.exists_get?_set, hbucket]
    exact .inr ((Table.exists_get?_set _ _ _ _).2 (.inr (h.buckets ha)))

theorem Invariant.all_done (T : DepthFirstTree r root num par) {s : DominatorSearch α}
    (h : Invariant r root num par 1 s) {w : α} (hw : ReflTransGen r root w) : s.Done w := by
  by_cases hne : w = root
  · exact .inl ⟨none, hne ▸ h.answers.start⟩
  have hlt : num root < num w :=
    Nat.lt_of_le_of_ne (T.root_le hw) fun he => hne (T.inj hw .refl he.symm)
  rcases h.handled hw hne (by omega) with hd | ⟨a, ha⟩
  · exact hd
  · obtain ⟨-, -, -, -, x, hx, hx1⟩ := h.waiting ha
    have := T.anc_lt hx.1 hx.2.1.symm
    omega

/-- Deferred vertices are settled after the vertices that they depend on. -/
theorem settle_spec {same : Table α α} (before vs : List α) {idom : Table α (Option α)}
    (h : Answers r root num idom same)
    (hall : ∀ v ∈ vs, (∃ d, idom.get? v = some d) ∨ ∃ u, same.get? v = some u)
    (hbefore : ∀ v ∈ before, ∃ d, idom.get? v = some d)
    (hsorted : ∀ {v u : α} (vs₁ : List α) {vs₂ : List α}, vs = vs₁ ++ v :: vs₂ →
      same.get? v = some u → u ∈ before ++ vs₁) :
    ∃ t, settle idom same vs = .ok t ∧ Answers r root num t same ∧
      ∀ v ∈ before ++ vs, ∃ d, t.get? v = some d := by
  induction vs generalizing before idom with
  | nil => exact ⟨idom, rfl, h, by simpa using hbefore⟩
  | cons v vs ih =>
    have hsorted' : ∀ {w u : α} (vs₁ : List α) {vs₂ : List α}, vs = vs₁ ++ w :: vs₂ →
        same.get? w = some u → u ∈ (before ++ [v]) ++ vs₁ := by
      intro w u vs₁ vs₂ he hwu
      simpa using hsorted (v :: vs₁) (by rw [he, List.cons_append]) hwu
    cases hsame : same.get? v with
    | none =>
      have hv : ∃ d, idom.get? v = some d :=
        (hall v List.mem_cons_self).resolve_right (by simp [hsame])
      obtain ⟨t, ht, hanswers, hdone⟩ := ih (before ++ [v]) h
        (fun w hw => hall w (List.mem_cons_of_mem _ hw))
        (fun w hw => by
          rcases List.mem_append.1 hw with hw | hw
          · exact hbefore w hw
          · exact List.mem_singleton.1 hw ▸ hv) hsorted'
      refine ⟨t, ?_, hanswers, by simpa using hdone⟩
      rw [settle, hsame]
      exact ht
    | some u =>
      have hu : u ∈ before := by simpa using hsorted [] rfl hsame
      obtain ⟨d, hd⟩ := hbefore u hu
      obtain ⟨-, hur, -, hvr, hvne, himm⟩ := h.deferred hsame
      obtain ⟨-, a, rfl, ha⟩ := h.settled hd hur
      have hset : ∀ w, v = w ∨ (∃ d, idom.get? w = some d) →
          ∃ d, (idom.set v (some a)).get? w = some d := fun w =>
        (Table.exists_get?_set idom v w (some a)).2
      obtain ⟨t, ht, hanswers, hdone⟩ := ih (before ++ [v]) (h.settle_one hvr hvne (himm a ha))
        (fun w hw => (hall w (List.mem_cons_of_mem _ hw)).imp_left fun hd => hset w (.inr hd))
        (fun w hw => by
          rcases List.mem_append.1 hw with hw | hw
          · exact hset w (.inr (hbefore w hw))
          · exact hset w (.inl (List.mem_singleton.1 hw).symm)) hsorted'
      refine ⟨t, ?_, hanswers, by simpa using hdone⟩
      rw [settle, hsame]
      simpa [hd] using ht

end DominatorSearch

namespace Arcs

/-! ## The algorithm -/

theorem get?_numbering {i : Nat} {vs : List α} (hvs : vs.Nodup) (t : Table α Nat) (v : α) :
    (numbering i vs t).get? v = if v ∈ vs then some (i + vs.idxOf v) else t.get? v := by
  induction vs generalizing i t with
  | nil => rfl
  | cons w vs ih =>
    rw [List.nodup_cons] at hvs
    rw [numbering, ih hvs.2, Table.get?_set]
    by_cases hwv : w = v
    · subst hwv
      simp [hvs.1]
    · simp only [List.mem_cons, Ne.symm hwv, false_or, List.idxOf_cons_ne _ hwv, hwv, if_false]
      split
      · congr 1
        omega
      · rfl

variable {G : Arcs α} {start : α}

theorem number_eq_length {A B : List (Option α × α)} {q : Option α} {v : α}
    (h : G.search start = A ++ (q, v) :: B) : G.number start v = A.length := by
  have hnodup := G.reachable_nodup start
  have hfound : G.reachable start = found A ++ v :: found B := by
    rw [reachable, h, List.map_append, List.map_cons]
    rfl
  rw [hfound, List.nodup_append] at hnodup
  have hv : v ∉ found A := fun hv => hnodup.2.2 v hv v List.mem_cons_self rfl
  rw [number, hfound, List.idxOf_append_of_notMem hv, List.idxOf_cons_self, Nat.add_zero, found,
    List.length_map]

theorem mem_of_number_lt {A B : List (Option α × α)} {u : α} (h : G.search start = A ++ B)
    (hu : G.number start u < A.length) : u ∈ found A := by
  by_contra hn
  have hfound : G.reachable start = found A ++ found B := by
    rw [reachable, h, List.map_append]
    rfl
  rw [number, hfound, List.idxOf_append_of_notMem hn, found, List.length_map] at hu
  omega

def initialSearch (G : Arcs α) (start : α) : DominatorSearch α :=
  ⟨⟨numbering 0 (G.reachable start) ∅, ∅, ∅, ∅⟩, emptyBuckets (G.reachable start),
    Table.empty.set start none, ∅⟩

theorem get?_emptyBuckets (vs : List α) (a : α) :
    (emptyBuckets vs).get? a = if a ∈ vs then some [] else none := Table.get?_foldl_set _ vs ∅ a

theorem initial_invariant (hG : G.Coherent) :
    DominatorSearch.Invariant G.Step start (G.number start) (FoundFrom (G.search start))
      (G.search start).length (initialSearch G start) := by
  have hnumber : ∀ v, (initialSearch G start).forest.number.get? v =
      if v ∈ G.reachable start then some (G.number start v) else none := by
    intro v
    rw [initialSearch, get?_numbering (G.reachable_nodup start), Nat.zero_add]
    rfl
  have hlt : ∀ v, ReflTransGen G.Step start v → G.number start v < (G.search start).length := by
    intro v hv
    have := List.idxOf_lt_length_of_mem ((mem_reachable hG).2 hv)
    rwa [reachable, List.length_map] at this
  have hnone : ∀ v, ReflTransGen G.Step start v →
      ¬ (G.search start).length ≤ G.number start v := fun v hv => Nat.not_le.2 (hlt v hv)
  refine ⟨⟨?_, ?_, ?_, ?_, ?_, ?_⟩, ⟨?_, ?_, ?_⟩, ?_, ?_, fun {a} ha => ?_⟩
  · intro v hv
    rw [hnumber, if_pos ((mem_reachable hG).2 hv)]
  · intro v hv
    rw [hnumber, if_neg fun h => hv ((mem_reachable hG).1 h)]
  · intro v hv hle
    exact absurd hle (hnone v hv)
  · intro v
    constructor
    · rintro ⟨a, ha⟩
      cases ha
    · rintro ⟨hv, hle⟩
      exact absurd hle (hnone v hv)
  · intro v a ha
    cases ha
  · intro v a ha
    cases ha
  · exact (Table.get?_set _ start start none).trans (if_pos rfl)
  · intro w d hw hne
    have hw' : (Table.empty.set start none).get? w = some d := hw
    rw [Table.get?_set, if_neg (Ne.symm hne)] at hw'
    cases hw'
  · intro w u hu
    cases hu
  · intro a w hw
    rw [DominatorSearch.pending, initialSearch, get?_emptyBuckets] at hw
    split at hw <;> cases hw
  · intro w hw _ hle
    exact absurd hle (hnone w hw)
  · exact ⟨[], by rw [initialSearch, get?_emptyBuckets, if_pos ((mem_reachable hG).2 ha)]⟩

theorem search_split (hG : G.Coherent) {A B : List (Option α × α)} {p v : α}
    (h : G.search start = A ++ (some p, v) :: B) :
    ReflTransGen G.Step start v ∧ ReflTransGen G.Step start p ∧
      FoundFrom (G.search start) p v ∧ G.number start v = A.length := by
  have T := search_tree hG start
  have hpv : FoundFrom (G.search start) p v := by
    rw [FoundFrom, h]
    exact List.mem_append_right _ List.mem_cons_self
  have hv : ReflTransGen G.Step start v := (mem_reachable hG).1 (mem_found_of_mem hpv)
  have hne : v ≠ start := by
    rintro rfl
    have hlt := (T.step hpv).2
    rw [number_start] at hlt
    omega
  obtain ⟨u, huv, hu⟩ := T.parent hv hne
  exact ⟨hv, T.unique huv hpv ▸ hu, hpv, number_eq_length h⟩

theorem search_parent (hG : G.Coherent) {A B : List (Option α × α)} {q : Option α} {v : α}
    (h : G.search start = A ++ (q, v) :: B) (hA : A ≠ []) : ∃ p, q = some p := by
  have hmem : (q, v) ∈ G.search start := by
    rw [h]
    exact List.mem_append_right _ List.mem_cons_self
  have hne : v ≠ start := by
    rintro rfl
    have hnum := number_eq_length h
    rw [number_start] at hnum
    exact hA (List.length_eq_zero_iff.1 hnum.symm)
  have hv : ReflTransGen G.Step start v := (mem_reachable hG).1 (mem_found_of_mem hmem)
  obtain ⟨p, hpv, -⟩ := (search_tree hG start).parent hv hne
  exact ⟨p, congrArg Prod.fst (List.inj_on_of_nodup_map (G.reachable_nodup start) hmem hpv rfl)⟩

/-- The main loop, from the last vertex on. `A` holds what is not handled yet. -/
theorem handleAll_spec (hG : G.Coherent) {A B : List (Option α × α)}
    (h : G.search start = A ++ B) (hA : A ≠ []) :
    ∃ s, (initialSearch G start).handleAll G B = some s ∧
      DominatorSearch.Invariant G.Step start (G.number start) (FoundFrom (G.search start))
        A.length s := by
  have T := search_tree hG start
  induction B generalizing A with
  | nil =>
    rw [List.append_nil] at h
    exact ⟨_, rfl, h ▸ initial_invariant hG⟩
  | cons e B ih =>
    obtain ⟨q, v⟩ := e
    obtain ⟨s, hs, hinv⟩ := ih (A := A ++ [(q, v)]) (by simpa using h) (by simp)
    obtain ⟨p, rfl⟩ := search_parent hG h hA
    obtain ⟨hv, hp, hpv, hnum⟩ := search_split hG h
    rw [List.length_append, List.length_singleton, ← hnum] at hinv
    obtain ⟨s', hs', hinv'⟩ := hinv.handle T (G := G) hv hp hpv fun _ => hG.mem_back
    refine ⟨s', ?_, hnum ▸ hinv'⟩
    simp [DominatorSearch.handleAll, hs, hs']

/-- Every vertex that can be reached gets its immediate dominator, the start gets none, and no
look-up fails. -/
theorem immediateDominators_spec (hG : G.Coherent) (start : α) :
    ∃ t, G.immediateDominators start = .ok t ∧
      (∀ v, (∃ d, t.get? v = some d) ↔ ReflTransGen G.Step start v) ∧
      t.get? start = some none ∧
      ∀ v, ReflTransGen G.Step start v → v ≠ start →
        ∃ d, t.get? v = some (some d) ∧ ImmediatelyDominates G.Step start d v := by
  have T := search_tree hG start
  obtain ⟨L, hL⟩ := search_head G start
  obtain ⟨s, hs, hinv⟩ := handleAll_spec hG (A := [(none, start)]) hL (by simp)
  have hmem : ∀ v, v ∈ start :: found L ↔ ReflTransGen G.Step start v := by
    intro v
    rw [← mem_reachable hG, reachable, hL]
    rfl
  obtain ⟨t, ht, hanswers, hdone⟩ := DominatorSearch.settle_spec [start] (found L)
    hinv.answers
    (fun v hv => hinv.all_done T ((hmem v).1 (List.mem_cons_of_mem _ hv)))
    (fun v hv => ⟨none, List.mem_singleton.1 hv ▸ hinv.answers.start⟩)
    (by
      intro v u vs₁ vs₂ hvs huv
      obtain ⟨L₁, L₂', rfl, rfl, hL₂⟩ := List.map_eq_append_iff.1 hvs
      obtain ⟨⟨q, v'⟩, L₂, rfl, rfl, -⟩ := List.map_eq_cons_iff.1 hL₂
      have hsplit : G.search start = ((none, start) :: L₁) ++ (q, v') :: L₂ := hL
      have hlt := (hinv.answers.deferred huv).2.2.1
      rw [number_eq_length hsplit] at hlt
      exact mem_of_number_lt hsplit hlt)
  refine ⟨t, ?_, fun v => ⟨?_, fun hv => hdone v ((hmem v).2 hv)⟩, hanswers.start, ?_⟩
  · have hs' : (initialSearch G start).handleAll G (G.search start).tail = some s := by
      rw [hL]
      exact hs
    have htail : found (G.search start).tail = found L := by
      rw [hL]
      rfl
    simp only [initialSearch, reachable, found] at hs' htail
    simp only [immediateDominators, hs', htail]
    exact ht
  · rintro ⟨d, hd⟩
    by_cases hv : v = start
    · rw [hv]
    · exact (hanswers.settled hd hv).1
  · intro v hv hne
    obtain ⟨d, hd⟩ := hdone v ((hmem v).2 hv)
    obtain ⟨-, a, rfl, ha⟩ := hanswers.settled hd hne
    exact ⟨a, hd, ha⟩

end Arcs

end Structuring
