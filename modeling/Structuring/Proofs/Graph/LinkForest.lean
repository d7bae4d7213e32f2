import Structuring.Graph.LengauerTarjan
import Structuring.Proofs.Graph.Semidominator
import Structuring.Proofs.Table

/-!
# Link forests

The vertices that are handled are linked to their parents, and looking up the vertex with the lowest
semidominator shortens the links.

* `LinkForest.Linked` — what holds of a forest in which the vertices from place `k` on are linked.
* `LinkForest.Linked.relink`, `shorten` — when a link may be replaced, and what shortening it keeps.
* `LinkForest.Linked.lowest` — the vertex that is looked up, and what the look-up keeps.
* `LinkForest.Linked.link` — what linking one more vertex keeps.
-/

namespace Structuring

open Relation

variable {α : Type}

namespace LinkForest

/-- What a look-up leaves as it is. -/
structure Agrees (f f' : LinkForest α) : Prop where
  number : f'.number = f.number
  semi : f'.semi = f.semi

theorem Agrees.refl (f : LinkForest α) : f.Agrees f := ⟨rfl, rfl⟩

theorem Agrees.trans {f g h : LinkForest α} (hfg : f.Agrees g) (hgh : g.Agrees h) : f.Agrees h :=
  ⟨hgh.number.trans hfg.number, hgh.semi.trans hfg.semi⟩

variable [DecidableEq α]

/-- Taking away a vertex does not matter further up. -/
theorem climb_erase {num : α → Nat} {links : Table α α} {x v : α}
    (hup : ∀ v a, links.get? v = some a → num a < num v) (hx : num x < num v) :
    climb (links.erase v) x = climb links x := by
  fun_induction climb links x with
  | case1 links x h =>
    have hvx : v ≠ x := fun h => absurd hx (h ▸ Nat.lt_irrefl _)
    rw [climb]
    split
    · rfl
    · next a ha => rw [Table.get?_erase, if_neg hvx, h] at ha; cases ha
  | case2 links x a h ih =>
    have hvx : v ≠ x := fun h => absurd hx (h ▸ Nat.lt_irrefl _)
    have hax := hup x a h
    rw [climb]
    split
    · next hn => rw [Table.get?_erase, if_neg hvx, h] at hn; cases hn
    · next a' ha =>
      rw [Table.get?_erase, if_neg hvx, h] at ha
      cases ha
      rw [Table.erase_comm, ih (fun w b hw => ?_) (hax.trans hx)]
      rw [Table.get?_erase] at hw
      split at hw
      · cases hw
      · exact hup w b hw

theorem climb_eq {num : α → Nat} {links : Table α α} {v a : α}
    (hup : ∀ v a, links.get? v = some a → num a < num v) (ha : links.get? v = some a) :
    climb links v = (v, a) :: climb links a := by
  rw [climb]
  split
  · next h => rw [ha] at h; cases h
  · next a' h =>
    rw [ha] at h
    cases h
    rw [climb_erase hup (hup v a ha)]

theorem climb_root {links : Table α α} {v : α} (h : links.get? v = none) : climb links v = [] := by
  rw [climb]
  split
  · rfl
  · next a ha => rw [h] at ha; cases ha

def semiNum (num : α → Nat) (f : LinkForest α) (v : α) : Nat := ((f.semi.get? v).map num).getD 0

theorem semiNum_eq (num : α → Nat) {f : LinkForest α} {v s : α} (h : f.semi.get? v = some s) :
    f.semiNum num v = num s := by
  rw [semiNum, h, Option.map_some, Option.getD_some]

variable {r : α → α → Prop} {root : α} {num : α → Nat} {par : α → α → Prop}

/-- A forest in which the vertices from place `k` on are linked: each to a proper ancestor such that
all vertices on the way are linked, with the best of these. -/
structure Linked (r : α → α → Prop) (root : α) (num : α → Nat) (par : α → α → Prop) (k : Nat)
    (f : LinkForest α) : Prop where
  number : ∀ {v : α}, ReflTransGen r root v → f.number.get? v = some (num v)
  number_none : ∀ {v : α}, ¬ ReflTransGen r root v → f.number.get? v = none
  semi : ∀ {v : α}, ReflTransGen r root v → k ≤ num v →
    ∃ s, f.semi.get? v = some s ∧ Semidominator r root num s v
  linked : ∀ {v : α}, (∃ a, f.up.get? v = some a) ↔ ReflTransGen r root v ∧ k ≤ num v
  up : ∀ {v a : α}, f.up.get? v = some a →
    ReflTransGen r root a ∧ OnWay par a v v ∧ ∀ x, OnWay par a v x → k ≤ num x
  best : ∀ {v a : α}, f.up.get? v = some a → ∃ b, f.best.get? v = some b ∧ OnWay par a v b ∧
    ∀ x, OnWay par a v x → f.semiNum num b ≤ f.semiNum num x

theorem Agrees.semiNum {f f' : LinkForest α} (h : f.Agrees f') (num : α → Nat) (v : α) :
    f'.semiNum num v = f.semiNum num v := by
  rw [LinkForest.semiNum, LinkForest.semiNum, h.semi]

namespace Linked

variable {k : Nat} {f : LinkForest α} {v a a' : α}

theorem up_lt (T : DepthFirstTree r root num par) (h : Linked r root num par k f)
    (ha : f.up.get? v = some a) : num a < num v :=
  T.anc_lt (h.up ha).2.1.1 (h.up ha).2.1.2.1.symm

theorem exists_semi (T : DepthFirstTree r root num par) (h : Linked r root num par k f)
    (ha : f.up.get? v = some a) {x : α} (hx : OnWay par a v x) :
    ∃ s, f.semi.get? x = some s ∧ ReflTransGen r root s := by
  obtain ⟨har, -, hk⟩ := h.up ha
  obtain ⟨s, hs, hs'⟩ := h.semi (har.trans (T.anc_reach hx.1)) (hk x hx)
  exact ⟨s, hs, hs'.reach⟩

/-- A link may lead to another ancestor if all vertices on the new way are linked and the best of them
is known. -/
theorem relink (h : Linked r root num par k f) {b : α} {best : Table α α}
    (hv : ∃ c, f.up.get? v = some c) (har : ReflTransGen r root a) (hav : OnWay par a v v)
    (hk : ∀ x, OnWay par a v x → k ≤ num x) (hb : best.get? v = some b) (hbw : OnWay par a v b)
    (hbest : ∀ x, OnWay par a v x → f.semiNum num b ≤ f.semiNum num x)
    (hother : ∀ x, v ≠ x → best.get? x = f.best.get? x) :
    Linked r root num par k { f with up := f.up.set v a, best := best } := by
  refine ⟨h.number, h.number_none, h.semi, fun {x} => ?_, fun {x c} hc => ?_, fun {x c} hc => ?_⟩
  · rw [← h.linked, Table.get?_set]
    by_cases hx : v = x
    · subst hx
      rw [if_pos rfl]
      exact ⟨fun _ => hv, fun _ => ⟨a, rfl⟩⟩
    · rw [if_neg hx]
  · rw [Table.get?_set] at hc
    split at hc
    · next hx =>
      cases hc
      subst hx
      exact ⟨har, hav, hk⟩
    · exact h.up hc
  · rw [Table.get?_set] at hc
    split at hc
    · next hx =>
      cases hc
      subst hx
      exact ⟨b, hb, hbw, hbest⟩
    · next hx =>
      obtain ⟨d, hd, hrest⟩ := h.best hc
      exact ⟨d, (hother x hx).trans hd, hrest⟩

theorem shorten (T : DepthFirstTree r root num par) (h : Linked r root num par k f)
    (ha : f.up.get? v = some a) (ha' : f.up.get? a = some a') :
    ∃ f', f.shorten (v, a) = some f' ∧ Linked r root num par k f' ∧ f.Agrees f' ∧
      ∀ x, f'.up.get? x = if v = x then some a' else f.up.get? x := by
  obtain ⟨har, hav, hk⟩ := h.up ha
  obtain ⟨ha'r, haa, hk'⟩ := h.up ha'
  obtain ⟨b, hb, hbw, hbest⟩ := h.best ha'
  obtain ⟨own, hown, hownw, hownbest⟩ := h.best ha
  obtain ⟨s, hs, hsr⟩ := h.exists_semi T ha' hbw
  obtain ⟨t, ht, htr⟩ := h.exists_semi T ha hownw
  have hbs := semiNum_eq num hs
  have hot := semiNum_eq num ht
  have hstep : f.shorten (v, a) = some
      { f with
        up := f.up.set v a'
        best := if num s < num t then f.best.set v b else f.best } := by
    simp only [LinkForest.shorten, hb, ha', hown, hs, ht, h.number hsr, h.number htr,
      Option.bind_eq_bind, Option.bind_some, Option.pure_def]
    split <;> rfl
  refine ⟨_, hstep, ?_, ⟨rfl, rfl⟩, fun x => Table.get?_set ..⟩
  have hway := fun x => T.onWay_iff (x := x) hav haa
  have hlinked : ∀ x, OnWay par a' v x → k ≤ num x := fun x hx =>
    ((hway x).1 hx).elim (hk' x) (hk x)
  split
  · refine h.relink ⟨a, ha⟩ ha'r ((hway v).2 (.inr hav)) hlinked
      ((Table.get?_set ..).trans (if_pos rfl)) ((hway b).2 (.inl hbw)) (fun x hx => ?_)
      fun x hx => (Table.get?_set ..).trans (if_neg hx)
    rcases (hway x).1 hx with hx | hx
    · exact hbest x hx
    · have := hownbest x hx
      omega
  · refine h.relink ⟨a, ha⟩ ha'r ((hway v).2 (.inr hav)) hlinked hown ((hway own).2 (.inr hownw))
      (fun x hx => ?_) fun _ _ => rfl
    rcases (hway x).1 hx with hx | hx
    · have := hbest x hx
      omega
    · exact hownbest x hx

/-- Shortening all links on the way links the vertex to the root of its tree. -/
theorem shortenAll (T : DepthFirstTree r root num par) (h : Linked r root num par k f)
    (hv : ReflTransGen r root v) (hk : k ≤ num v) :
    ∃ f' a, f.shortenAll (climb f.up v).dropLast = some f' ∧ Linked r root num par k f' ∧
      f.Agrees f' ∧ f'.up.get? v = some a ∧ f'.up.get? a = none ∧
      ∀ x, num v < num x → f'.up.get? x = f.up.get? x := by
  induction hn : num v using Nat.strong_induction_on generalizing v with
  | _ n ih =>
    obtain ⟨a, ha⟩ := h.linked.2 ⟨hv, hk⟩
    have hav := h.up_lt T ha
    rw [climb_eq (fun _ _ => h.up_lt T) ha]
    cases ha' : f.up.get? a with
    | none =>
      rw [climb_root ha']
      exact ⟨f, a, rfl, h, .refl f, ha, ha', fun _ _ => rfl⟩
    | some c =>
      -- the rest of the way first, so that the link above is short already
      obtain ⟨har, hka⟩ := h.linked.1 ⟨c, ha'⟩
      obtain ⟨f₁, b, hf₁, h₁, hagree₁, hb, hbroot, hup₁⟩ := ih _ (hn ▸ hav) har hka rfl
      have ha₁ : f₁.up.get? v = some a := (hup₁ v hav).trans ha
      obtain ⟨f₂, hf₂, h₂, hagree₂, hup₂⟩ := h₁.shorten T ha₁ hb
      have hbv : v ≠ b := by
        rintro rfl
        rw [ha₁] at hbroot
        cases hbroot
      refine ⟨f₂, b, ?_, h₂, hagree₁.trans hagree₂, ?_, ?_, fun x hx => ?_⟩
      · rw [climb_eq (fun _ _ => h.up_lt T) ha'] at hf₁ ⊢
        rw [List.dropLast_cons_cons, LinkForest.shortenAll, hf₁]
        exact hf₂
      · rw [hup₂, if_pos rfl]
      · rw [hup₂, if_neg hbv, hbroot]
      · have hvx : v ≠ x := by
          rintro rfl
          omega
        rw [hup₂, if_neg hvx, hup₁ x (by omega)]

theorem lowest (T : DepthFirstTree r root num par) (h : Linked r root num par k f)
    (hv : ReflTransGen r root v) (hk : k ≤ num v) :
    ∃ u f', f.lowest v = some (u, f') ∧ Linked r root num par k f' ∧ f.Agrees f' ∧
      ReflTransGen r root u ∧ ReflTransGen par u v ∧ k ≤ num u ∧
      ∀ x, ReflTransGen par x v → k ≤ num x → f.semiNum num u ≤ f.semiNum num x := by
  obtain ⟨f', a, hf', h', hagree, ha, hroot, -⟩ := h.shortenAll T hv hk
  obtain ⟨har, hav, hak⟩ := h'.up ha
  obtain ⟨u, hu, huw, hbest⟩ := h'.best ha
  have hcontains : f.up.contains v = true := Table.contains_iff.2 (h.linked.2 ⟨hv, hk⟩)
  have hka : num a < k := by
    by_contra hka
    obtain ⟨c, hc⟩ := h'.linked.2 ⟨har, Nat.not_lt.1 hka⟩
    rw [hroot] at hc
    cases hc
  refine ⟨u, f', ?_, h', hagree, har.trans (T.anc_reach huw.1), huw.2.2, hak u huw, ?_⟩
  · simp [LinkForest.lowest, hcontains, hf', hu]
  · intro x hx hkx
    have hax := T.anc_of_le hav.1 hx (by omega)
    rw [← hagree.semiNum, ← hagree.semiNum]
    refine hbest x ⟨hax, ?_, hx⟩
    rintro rfl
    omega

theorem settle (h : Linked r root num par (num v + 1) f) (s : α) :
    Linked r root num par (num v + 1) { f with semi := f.semi.set v s } := by
  have hkeep : ∀ x, num v + 1 ≤ num x → (f.semi.set v s).get? x = f.semi.get? x := by
    intro x hx
    rw [Table.get?_set, if_neg]
    rintro rfl
    omega
  refine ⟨h.number, h.number_none, fun {x} hx hk => ?_, h.linked, h.up, fun {x a} ha => ?_⟩
  · obtain ⟨t, ht, htx⟩ := h.semi hx hk
    exact ⟨t, (hkeep x hk).trans ht, htx⟩
  · obtain ⟨b, hb, hbw, hbest⟩ := h.best ha
    refine ⟨b, hb, hbw, fun y hy => ?_⟩
    have hway := (h.up ha).2.2
    simpa only [semiNum, hkeep b (hway b hbw), hkeep y (hway y hy)] using hbest y hy

theorem link (T : DepthFirstTree r root num par) (h : Linked r root num par (num v + 1) f)
    (hv : ReflTransGen r root v) {p s : α} (hp : ReflTransGen r root p) (hpv : par p v)
    (hs : Semidominator r root num s v) :
    ∃ f', { f with semi := f.semi.set v s }.link p v = some f' ∧
      Linked r root num par (num v) f' ∧ f'.number = f.number ∧ f'.semi = f.semi.set v s := by
  have hset := h.settle s
  have hup : ¬ ∃ a, f.up.get? v = some a := by
    rw [h.linked]
    omega
  have hcontains : f.up.contains v = false := by
    rw [← Bool.not_eq_true, Table.contains_iff]
    exact hup
  have hlt := (T.step hpv).2
  have honly : ∀ x, OnWay par p v x → x = v := by
    rintro x ⟨hpx, hxp, hxv⟩
    cases hxv with
    | refl => rfl
    | tail hxy hyv =>
      rw [T.unique hyv hpv] at hxy
      have := T.anc_lt hpx hxp.symm
      have := T.anc_le hxy
      omega
  have hway : OnWay par p v v := by
    refine ⟨.single hpv, ?_, .refl⟩
    rintro rfl
    omega
  have hbefore : ∀ {x}, ReflTransGen r root x → v ≠ x → num v ≤ num x → num v + 1 ≤ num x :=
    fun hx hvx hk => Nat.lt_of_le_of_ne hk fun he => hvx (T.inj hv hx he)
  refine ⟨{ f with semi := f.semi.set v s, up := f.up.set v p, best := f.best.set v v }, ?_, ?_,
    rfl, rfl⟩
  · simp [LinkForest.link, hcontains]
  refine ⟨h.number, h.number_none, fun {x} hx hk => ?_, fun {x} => ?_, fun {x a} ha => ?_,
    fun {x a} ha => ?_⟩
  · by_cases hvx : v = x
    · subst hvx
      exact ⟨s, (Table.get?_set ..).trans (if_pos rfl), hs⟩
    · exact hset.semi hx (hbefore hx hvx hk)
  · rw [Table.get?_set]
    by_cases hvx : v = x
    · subst hvx
      simp [hv]
    · rw [if_neg hvx, h.linked]
      exact and_congr_right fun hx => ⟨fun hk => by omega, hbefore hx hvx⟩
  · rw [Table.get?_set] at ha
    split at ha
    · next hvx =>
      cases ha
      subst hvx
      exact ⟨hp, hway, fun y hy => honly y hy ▸ Nat.le_refl _⟩
    · obtain ⟨har, hax, hk⟩ := h.up ha
      exact ⟨har, hax, fun y hy => (Nat.le_succ _).trans (hk y hy)⟩
  · rw [Table.get?_set] at ha ⊢
    by_cases hvx : v = x
    · rw [if_pos hvx] at ha
      cases ha
      subst hvx
      refine ⟨v, if_pos rfl, hway, fun y hy => ?_⟩
      rw [honly y hy]
    · rw [if_neg hvx] at ha ⊢
      exact hset.best ha

end Linked

end LinkForest

end Structuring
