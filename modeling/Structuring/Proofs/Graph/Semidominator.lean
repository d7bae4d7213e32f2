import Structuring.Proofs.Graph.DepthFirst
import Structuring.Proofs.Graph.Walk

/-!
# Semidominators

The theory behind finding immediate dominators by a depth-first search. A semidominator of `w` is the
first vertex from which `w` is reached through vertices that come after `w` in the search.

* `SemiPath`, `Semidominator` — the definition.
* `DepthFirstTree.landing` — a walk to `v` meets an ancestor of `v` that is not after its start.
* `DepthFirstTree.semidominator_of` — the semidominator in terms of the neighbours that enter `w`.
* `DepthFirstTree.dominates_of_le` — an ancestor that no walk passes by from above is a dominator.
* `DepthFirstTree.immediate_of_semi`, `immediate_of_lowest` — the immediate dominator of `w` is its
  semidominator, or else that of the vertex with the lowest semidominator between the two.
-/

namespace Structuring

open Relation

variable {α : Type}

/-- A walk from a vertex to `w` whose inner vertices all come after `w`. -/
inductive SemiPath (r : α → α → Prop) (num : α → Nat) (w : α) : α → Prop where
  | step {v : α} : r v w → SemiPath r num w v
  | cons {v u : α} : r v u → num w < num u → SemiPath r num w u → SemiPath r num w v

/-- The first vertex with such a walk. -/
structure Semidominator (r : α → α → Prop) (root : α) (num : α → Nat) (s w : α) : Prop where
  reach : ReflTransGen r root s
  path : SemiPath r num w s
  le : ∀ {x : α}, ReflTransGen r root x → SemiPath r num w x → num s ≤ num x

/-- `x` is on the way down the tree from `a` to `v`, `a` left out. -/
def OnWay (par : α → α → Prop) (a v x : α) : Prop :=
  ReflTransGen par a x ∧ x ≠ a ∧ ReflTransGen par x v

namespace SemiPath

variable {r : α → α → Prop} {num : α → Nat} {d v w : α}

theorem reach (h : SemiPath r num w v) : ReflTransGen r v w := by
  induction h with
  | step h => exact .single h
  | cons h _ _ ih => exact .head h ih

/-- Such a walk avoids what does not come after `w`. -/
theorem avoiding (h : SemiPath r num w v) (hd : d ≠ w) (hle : num d ≤ num w) :
    ReflTransGen (Avoiding r d) v w := by
  induction h with
  | step h => exact .single ⟨h, hd.symm⟩
  | cons h hlt _ ih =>
    refine .head ⟨h, ?_⟩ ih
    rintro rfl
    omega

theorem last (h : SemiPath r num w v) (hlt : num w < num v) :
    ∃ u, ReflTransGen (fun x y => r x y ∧ num w < num y) v u ∧ num w < num u ∧ r u w := by
  induction h with
  | step h => exact ⟨_, .refl, hlt, h⟩
  | cons h hu _ ih =>
    obtain ⟨x, hx, hlt', hxw⟩ := ih hu
    exact ⟨x, .head ⟨h, hu⟩ hx, hlt', hxw⟩

end SemiPath

namespace DepthFirstTree

variable {r : α → α → Prop} {root : α} {num : α → Nat} {par : α → α → Prop}
variable {d i s t u v w x y z : α}

theorem anc_le (T : DepthFirstTree r root num par) (h : ReflTransGen par u v) : num u ≤ num v := by
  induction h with
  | refl => exact Nat.le_refl _
  | tail _ h ih => exact ih.trans (T.step h).2.le

theorem anc_lt (T : DepthFirstTree r root num par) (h : ReflTransGen par u v) (hne : u ≠ v) :
    num u < num v := by
  cases h with
  | refl => exact absurd rfl hne
  | tail hu h => exact Nat.lt_of_le_of_lt (T.anc_le hu) (T.step h).2

theorem anc_reach (T : DepthFirstTree r root num par) (h : ReflTransGen par u v) :
    ReflTransGen r u v :=
  ReflTransGen.mono (fun _ _ h => (T.step h).1) _ _ h

theorem anc_of_le (T : DepthFirstTree r root num par) (hu : ReflTransGen par u w)
    (hv : ReflTransGen par v w) (hle : num u ≤ num v) : ReflTransGen par u v := by
  induction hv with
  | refl => exact hu
  | @tail y w hvy hyw ih =>
    cases hu with
    | refl => exact absurd hle (Nat.not_le.2 (Nat.lt_of_le_of_lt (T.anc_le hvy) (T.step hyw).2))
    | tail hux hxw => exact ih (T.unique hxw hyw ▸ hux)

theorem root_anc (T : DepthFirstTree r root num par) (hv : ReflTransGen r root v) :
    ReflTransGen par root v := by
  induction hn : num v using Nat.strong_induction_on generalizing v with
  | _ n ih =>
    by_cases hr : v = root
    · rw [hr]
    · obtain ⟨u, huv, hu⟩ := T.parent hv hr
      exact (ih _ (hn ▸ (T.step huv).2) hu rfl).tail huv

theorem root_le (T : DepthFirstTree r root num par) (hv : ReflTransGen r root v) :
    num root ≤ num v :=
  T.anc_le (T.root_anc hv)

theorem anc_between (T : DepthFirstTree r root num par) (hv : ReflTransGen r root v)
    (hx : ReflTransGen r root x) (h : ReflTransGen par v y) (hvx : num v ≤ num x)
    (hxy : num x ≤ num y) : ReflTransGen par v x := by
  induction h with
  | refl => rw [T.inj hx hv (by omega)]
  | @tail u y hvu huy ih =>
    by_cases hxu : num x ≤ num u
    · exact ih hxu
    · exact hvu.trans
        (T.span (hv.trans (T.anc_reach hvu)) (T.step huy).1 hx (by omega) hxy)

theorem onWay_split (T : DepthFirstTree r root num par) (huv : ReflTransGen par u v)
    (hx : OnWay par t v x) : OnWay par t u x ∨ OnWay par u v x := by
  rcases Nat.le_total (num x) (num u) with h | h
  · exact .inl ⟨hx.1, hx.2.1, T.anc_of_le hx.2.2 huv h⟩
  · have hux := T.anc_of_le huv hx.2.2 h
    by_cases hxu : x = u
    · exact .inl ⟨hx.1, hx.2.1, hxu ▸ .refl⟩
    · exact .inr ⟨hux, hxu, hx.2.2⟩

theorem onWay_iff (T : DepthFirstTree r root num par) (huv : OnWay par u v v)
    (htu : OnWay par t u u) : OnWay par t v x ↔ OnWay par t u x ∨ OnWay par u v x := by
  refine ⟨T.onWay_split huv.1, ?_⟩
  rintro (⟨htx, hne, hxu⟩ | ⟨hux, -, hxv⟩)
  · exact ⟨htx, hne, hxu.trans huv.1⟩
  · refine ⟨htu.1.trans hux, ?_, hxv⟩
    rintro rfl
    have := T.anc_le hux
    have := T.anc_lt htu.1 htu.2.1.symm
    omega

/-- The way down the tree to `w` visits ancestors of `w` only. -/
theorem avoiding_of_not_anc (T : DepthFirstTree r root num par) (hd : ¬ ReflTransGen par d w)
    (h : ReflTransGen par v w) : ReflTransGen (Avoiding r d) v w := by
  induction h using ReflTransGen.head_induction_on with
  | refl => exact .refl
  | head hab hbw ih =>
    refine .head ⟨(T.step hab).1, ?_⟩ ih
    rintro rfl
    exact hd hbw

/-- The way down the tree does not come back to what is before its start. -/
theorem avoiding_of_lt (T : DepthFirstTree r root num par) (h : ReflTransGen par v w)
    (hd : num d < num v) : ReflTransGen (Avoiding r d) v w := by
  induction h with
  | refl => exact .refl
  | tail hva hab ih =>
    refine .tail ih ⟨(T.step hab).1, ?_⟩
    rintro rfl
    have := T.anc_le hva
    have := (T.step hab).2
    omega

/-- A vertex is reached without visiting what comes after it. -/
theorem avoiding_of_after (T : DepthFirstTree r root num par) (hx : ReflTransGen r root x)
    (hd : num x < num d) : root ≠ d ∧ ReflTransGen (Avoiding r d) root x := by
  refine ⟨?_, T.avoiding_of_not_anc (fun h => ?_) (T.root_anc hx)⟩
  · rintro rfl
    have := T.root_le hx
    omega
  · have := T.anc_le h
    omega

/-- A walk to `v` meets an ancestor of `v` that does not come after its start, and until it meets it
all vertices come after that ancestor. -/
theorem landing (T : DepthFirstTree r root num par) {p : α → Prop} (hx : ReflTransGen r root x)
    (hp : p x) (h : ReflTransGen (fun a b => r a b ∧ p b) x v) :
    ∃ u, p u ∧ ReflTransGen r root u ∧ ReflTransGen par u v ∧ num u ≤ num x ∧
      (x = u ∨ SemiPath r num u x) := by
  induction h using ReflTransGen.head_induction_on with
  | refl => exact ⟨v, hp, hx, .refl, Nat.le_refl _, .inl rfl⟩
  | @head a b hab _ ih =>
    have hb := hx.tail hab.1
    obtain ⟨u, hpu, hu, huv, hle, hbu⟩ := ih hb hab.2
    by_cases hua : num u < num a
    · refine ⟨u, hpu, hu, huv, hua.le, .inr ?_⟩
      rcases hbu with rfl | hbu
      · exact .step hab.1
      · by_cases hbu' : b = u
        · exact .step (hbu' ▸ hab.1)
        · exact .cons hab.1 (lt_of_le_of_ne hle fun h => hbu' (T.inj hb hu h.symm)) hbu
    · have hau := T.span hx hab.1 hu (by omega) hle
      exact ⟨a, hp, hx, hau.trans huv, Nat.le_refl _, .inl rfl⟩

theorem anc_of_semiPath (T : DepthFirstTree r root num par) (hv : ReflTransGen r root v)
    (h : SemiPath r num w v) (hle : num v ≤ num w) : ReflTransGen par v w := by
  have hw := hv.trans h.reach
  cases h with
  | step h => exact T.span hv h hw hle (Nat.le_refl _)
  | cons h hlt _ => exact T.span hv h hw hle hlt.le

/-! ## Which vertex is the semidominator -/

theorem semiPath_of_anc (T : DepthFirstTree r root num par) (hu : ReflTransGen par u v)
    (hlt : num w < num u) (hv : r v w) : SemiPath r num w u := by
  induction hu using ReflTransGen.head_induction_on with
  | refl => exact .step hv
  | head hab _ ih =>
    have hab' := T.step hab
    exact .cons hab'.1 (by omega) (ih (by omega))

/-- What reaches an ancestor of a neighbour of `w` through later vertices reaches `w` so. -/
theorem semiPath_trans (T : DepthFirstTree r root num par) (ht : SemiPath r num u t)
    (hu : ReflTransGen par u v) (hlt : num w < num u) (hv : r v w) : SemiPath r num w t := by
  induction ht with
  | step h => exact .cons h hlt (T.semiPath_of_anc hu hlt hv)
  | cons h hc _ ih => exact .cons h (by omega) ih

/-- The semidominator of `w` is the first one among the neighbours that enter `w` and come before it,
and the semidominators of the ancestors, after `w`, of those that come after it. -/
theorem semidominator_of (T : DepthFirstTree r root num par) (hw : ReflTransGen r root w)
    (hne : w ≠ root) (hs : ReflTransGen r root s) (hsw : SemiPath r num w s)
    (hbefore : ∀ v, ReflTransGen r root v → r v w → num v ≤ num w → num s ≤ num v)
    (hafter : ∀ v u x, ReflTransGen r root v → r v w → num w < num v → ReflTransGen par u v →
      num w < num u → ReflTransGen r root x → SemiPath r num u x → num s ≤ num x) :
    Semidominator r root num s w := by
  refine ⟨hs, hsw, fun {x} hx h => ?_⟩
  cases h with
  | step h =>
    by_cases hxw : num x ≤ num w
    · exact hbefore x hx h hxw
    · obtain ⟨p, hpw, hp⟩ := T.parent hw hne
      have := hbefore p hp (T.step hpw).1 (T.step hpw).2.le
      have := (T.step hpw).2
      omega
  | @cons _ c hxc hlt h =>
    obtain ⟨v, hcv, hwv, hvw⟩ := h.last hlt
    have hc := hx.tail hxc
    obtain ⟨u, hu, hur, huv, hle, hcu⟩ := T.landing hc hlt hcv
    have hv : ReflTransGen r root v := hc.trans (ReflTransGen.mono (fun _ _ => And.left) _ _ hcv)
    refine hafter v u x hv hvw hwv huv hu hx ?_
    by_cases hcu' : c = u
    · exact .step (hcu' ▸ hxc)
    · exact .cons hxc (lt_of_le_of_ne hle fun h => hcu' (T.inj hc hur h.symm))
        (hcu.resolve_left hcu')

theorem semi_unique (T : DepthFirstTree r root num par) (hs : Semidominator r root num s w)
    (ht : Semidominator r root num t w) : s = t :=
  T.inj hs.reach ht.reach (Nat.le_antisymm (hs.le ht.reach ht.path) (ht.le hs.reach hs.path))

theorem semi_lt (T : DepthFirstTree r root num par) (hw : ReflTransGen r root w) (hne : w ≠ root)
    (hs : Semidominator r root num s w) : num s < num w := by
  obtain ⟨p, hpw, hp⟩ := T.parent hw hne
  exact Nat.lt_of_le_of_lt (hs.le hp (.step (T.step hpw).1)) (T.step hpw).2

theorem semi_anc (T : DepthFirstTree r root num par) (hw : ReflTransGen r root w) (hne : w ≠ root)
    (hs : Semidominator r root num s w) : ReflTransGen par s w :=
  T.anc_of_semiPath hs.reach hs.path (T.semi_lt hw hne hs).le

/-! ## From semidominators to dominators -/

theorem anc_of_dominates (T : DepthFirstTree r root num par) (hw : ReflTransGen r root w)
    (h : Dominates r root d w) : ReflTransGen par d w := by
  by_contra hn
  refine not_dominates_iff.2 ⟨?_, T.avoiding_of_not_anc hn (T.root_anc hw)⟩ h
  rintro rfl
  exact hn (T.root_anc hw)

theorem dominates_semi (T : DepthFirstTree r root num par) (hw : ReflTransGen r root w)
    (hs : Semidominator r root num s w) (h : StrictlyDominates r root d w) :
    Dominates r root d s := by
  by_contra hn
  obtain ⟨hroot, hds⟩ := not_dominates_iff.1 hn
  have hle := T.anc_le (T.anc_of_dominates hw h.2)
  exact not_dominates_iff.2 ⟨hroot, hds.trans (hs.path.avoiding h.1 hle)⟩ h.2

/-- A walk to `w` from before `z`, all later vertices being after `z`, reaches a vertex below `z`
through vertices after that one. -/
theorem exists_semiPath_below (T : DepthFirstTree r root num par) (hz : ReflTransGen par z w)
    (hx : ReflTransGen r root x) (hxz : num x < num z)
    (h : ReflTransGen (fun a b => r a b ∧ num z < num b) x w) :
    ∃ y, OnWay par z w y ∧ SemiPath r num y x := by
  cases h using ReflTransGen.head_induction_on with
  | refl =>
    have := T.anc_le hz
    omega
  | @head _ c hxc hcw =>
    have hc := hx.tail hxc.1
    obtain ⟨y, hzy, hy, hyw, hle, hcy⟩ := T.landing (p := (num z < num ·)) hc hxc.2 hcw
    refine ⟨y, ⟨T.anc_of_le hz hyw hzy.le, fun h => ?_, hyw⟩, ?_⟩
    · rw [h] at hzy
      omega
    · by_cases hcy' : c = y
      · exact .step (hcy' ▸ hxc.1)
      · exact .cons hxc.1 (lt_of_le_of_ne hle fun h => hcy' (T.inj hc hy h.symm))
          (hcy.resolve_left hcy')

/-- An ancestor dominates if no vertex below it, down to `w`, is reached through later vertices from
before the ancestor. -/
theorem dominates_of_le (T : DepthFirstTree r root num par) (hzr : ReflTransGen r root z)
    (hz : ReflTransGen par z w)
    (hle : ∀ y x, OnWay par z w y → ReflTransGen r root x → SemiPath r num y x → num z ≤ num x) :
    Dominates r root z w := by
  by_contra hn
  obtain ⟨hroot, h⟩ := not_dominates_iff.1 hn
  -- no vertex of the walk is before `z`: the last one would contradict `hle`
  have hno : ∀ a, ReflTransGen r root a → num a < num z →
      ¬ ReflTransGen (fun a b => r a b ∧ num z < num b) a w := by
    intro a ha haz haw
    obtain ⟨y, hy, hay⟩ := T.exists_semiPath_below hz ha haz haw
    exact absurd (hle y a hy ha hay) (by omega)
  have hlater : ∀ a, ReflTransGen r root a → ReflTransGen (Avoiding r z) a w →
      ReflTransGen (fun a b => r a b ∧ num z < num b) a w := by
    intro a ha haw
    induction haw using ReflTransGen.head_induction_on with
    | refl => exact .refl
    | @head a b hab _ ih =>
      have hb := ha.tail hab.1
      by_cases hzb : num z < num b
      · exact .head ⟨hab.1, hzb⟩ (ih hb)
      · have hne : num b ≠ num z := fun h => hab.2 (T.inj hb hzr h)
        exact absurd (ih hb) (hno b hb (by omega))
  have hlt : num root < num z :=
    lt_of_le_of_ne (T.root_le hzr) fun h => hroot (T.inj .refl hzr h)
  exact hno root .refl hlt (hlater root .refl h)

/-- The semidominator of `w` is its immediate dominator if none of the vertices between has a lower
one. -/
theorem immediate_of_semi (T : DepthFirstTree r root num par) (hw : ReflTransGen r root w)
    (hne : w ≠ root) (hs : Semidominator r root num s w)
    (hle : ∀ y x, OnWay par s w y → ReflTransGen r root x → SemiPath r num y x → num s ≤ num x) :
    ImmediatelyDominates r root s w := by
  refine ⟨⟨?_, T.dominates_of_le hs.reach (T.semi_anc hw hne hs) hle⟩, fun d hd =>
    T.dominates_semi hw hs hd⟩
  rintro rfl
  exact absurd (T.semi_lt hw hne hs) (Nat.lt_irrefl _)

theorem immediate_of_lowest (T : DepthFirstTree r root num par) (hw : ReflTransGen r root w)
    (hne : w ≠ root) (hs : Semidominator r root num s w) (hsuw : OnWay par s w u)
    (ht : Semidominator r root num t u) (hts : num t < num s)
    (hle : ∀ y x, OnWay par s w y → ReflTransGen r root x → SemiPath r num y x → num t ≤ num x)
    (hi : ImmediatelyDominates r root i u) :
    ImmediatelyDominates r root i w := by
  obtain ⟨hsu, hus, huw⟩ := hsuw
  have hu : ReflTransGen r root u := hs.reach.trans (T.anc_reach hsu)
  have hsu_lt := T.anc_lt hsu hus.symm
  have hut := T.anc_of_semiPath ht.reach ht.path (by omega)
  have hit : ReflTransGen par i t := T.anc_of_dominates ht.reach (T.dominates_semi hu ht hi.1)
  have hit_le := T.anc_le hit
  have hir : ReflTransGen r root i := hi.1.2.reach hu
  have hsw := T.semi_lt hw hne hs
  refine ⟨⟨?_, ?_⟩, fun d hd => ?_⟩
  · rintro rfl
    omega
  · refine T.dominates_of_le hir (hit.trans (hut.trans huw)) fun y x ⟨hiy, hyi, hyw⟩ hx hxy => ?_
    by_cases hsy : ReflTransGen par s y ∧ y ≠ s
    · exact hit_le.trans (hle y x ⟨hsy.1, hsy.2, hyw⟩ hx hxy)
    -- `y` is not below `s`, so it is above `u`, and a way past `i` to `y` goes on to `u`
    · have hys : ReflTransGen par y s := by
        rcases Nat.le_total (num y) (num s) with h | h
        · exact T.anc_of_le hyw (T.semi_anc hw hne hs) h
        · have hsy' := T.anc_of_le (T.semi_anc hw hne hs) hyw h
          have : y = s := by
            by_contra h
            exact hsy ⟨hsy', h⟩
          rw [this]
      by_contra hlt
      obtain ⟨hroot, hix⟩ := T.avoiding_of_after hx (Nat.not_le.1 hlt)
      have hiy_lt := T.anc_lt hiy hyi.symm
      have hxu := (hxy.avoiding hyi.symm hiy_lt.le).trans
        (T.avoiding_of_lt (hys.trans hsu) hiy_lt)
      exact not_dominates_iff.2 ⟨hroot, hix.trans hxu⟩ hi.1.2
  · have hds := T.anc_le (T.anc_of_dominates hs.reach (T.dominates_semi hw hs hd))
    refine hi.2 d ⟨?_, ?_⟩
    · rintro rfl
      omega
    · by_contra hn
      obtain ⟨hroot, hdu⟩ := not_dominates_iff.1 hn
      exact not_dominates_iff.2
        ⟨hroot, hdu.trans (T.avoiding_of_lt huw (by omega))⟩ hd.2

end DepthFirstTree

end Structuring
