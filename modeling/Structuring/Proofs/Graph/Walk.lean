import Mathlib.Logic.Relation
import Mathlib.Tactic

/-!
# Walks and dominance

Walks along a relation, with the vertices that they visit, and what is said in terms of walks.

* `Walk r a vs b` — from `a` to `b` along `r`, visiting `vs`.
* `Dominates r root v w` — every walk from the root to `w` visits `v`.
* `ImmediatelyDominates` — the strict dominator that all the others dominate.
* `SameWalks` — relations with the same walks from a root agree on dominance.
* `not_dominates_iff` — to be not dominated by `v` is to be reached without visiting it. Proofs about
  dominance use this form.
-/

namespace Structuring

open Relation

variable {α : Type}

/-- A walk along `r`. The list holds the vertices in order, both ends included. -/
inductive Walk (r : α → α → Prop) : α → List α → α → Prop where
  | single (a : α) : Walk r a [a] a
  | cons {a b c : α} {vs : List α} : r a b → Walk r b vs c → Walk r a (a :: vs) c

/-- `v` is on every walk from the root to `w`. -/
def Dominates (r : α → α → Prop) (root v w : α) : Prop :=
  ∀ vs, Walk r root vs w → v ∈ vs

def StrictlyDominates (r : α → α → Prop) (root v w : α) : Prop :=
  v ≠ w ∧ Dominates r root v w

/-- The strict dominator that is dominated by all strict dominators. -/
def ImmediatelyDominates (r : α → α → Prop) (root v w : α) : Prop :=
  StrictlyDominates r root v w ∧
    ∀ u, StrictlyDominates r root u w → Dominates r root u v

/-- The steps that do not lead to a vertex. -/
def Avoiding (r : α → α → Prop) (v : α) : α → α → Prop := fun a b => r a b ∧ b ≠ v

namespace Walk

variable {r : α → α → Prop} {a b c : α} {vs : List α}

theorem last_mem (h : Walk r a vs b) : b ∈ vs := by
  induction h with
  | single a => exact List.mem_singleton_self a
  | cons _ _ ih => exact List.mem_cons_of_mem _ ih

theorem first_mem (h : Walk r a vs b) : a ∈ vs := by
  cases h with
  | single => exact List.mem_singleton_self a
  | cons => exact List.mem_cons_self

theorem reach_mem (h : Walk r a vs b) {x : α} (hx : x ∈ vs) : ReflTransGen r a x := by
  induction h with
  | single a =>
    rw [List.mem_singleton] at hx
    rw [hx]
  | cons hab _ ih =>
    rcases List.mem_cons.1 hx with rfl | hx
    · exact .refl
    · exact .head hab (ih hx)

end Walk

/-- There is a walk within `p` exactly if there is a chain of steps that stay in `p`. -/
theorem exists_walk_iff {r : α → α → Prop} {p : α → Prop} {a b : α} :
    (∃ vs, Walk r a vs b ∧ ∀ x ∈ vs, p x) ↔
      p a ∧ ReflTransGen (fun x y => r x y ∧ p y) a b := by
  constructor
  · rintro ⟨vs, hw, hp⟩
    refine ⟨hp _ hw.first_mem, ?_⟩
    induction hw with
    | single => exact .refl
    | cons hab hbc ih =>
      exact .head ⟨hab, hp _ (List.mem_cons_of_mem _ hbc.first_mem)⟩
        (ih fun x hx => hp x (List.mem_cons_of_mem _ hx))
  · rintro ⟨ha, h⟩
    induction h using ReflTransGen.head_induction_on with
    | refl => exact ⟨[b], .single b, by simpa using ha⟩
    | head hab _ ih =>
      obtain ⟨vs, hw, hp⟩ := ih hab.2
      exact ⟨_, .cons hab.1 hw, by simpa using ⟨ha, hp⟩⟩

section Dominance

variable {r : α → α → Prop} {root u v w : α}

theorem not_dominates_iff :
    ¬ Dominates r root v w ↔ root ≠ v ∧ ReflTransGen (Avoiding r v) root w := by
  refine Iff.trans ?_ (exists_walk_iff (p := (· ≠ v)))
  unfold Dominates
  push Not
  constructor
  · rintro ⟨vs, hw, hv⟩
    exact ⟨vs, hw, fun x hx hxv => hv (hxv ▸ hx)⟩
  · rintro ⟨vs, hw, hp⟩
    exact ⟨vs, hw, fun hv => hp v hv rfl⟩

theorem dominates_self : Dominates r root v v := fun _ hw => hw.last_mem

theorem root_dominates : Dominates r root root v := fun _ hw => hw.first_mem

theorem Dominates.reach (h : Dominates r root v w) (hw : ReflTransGen r root w) :
    ReflTransGen r root v := by
  have hw' : ReflTransGen (fun x y => r x y ∧ True) root w :=
    ReflTransGen.mono (fun _ _ h => ⟨h, trivial⟩) _ _ hw
  obtain ⟨vs, hvs, _⟩ := exists_walk_iff.2 ⟨trivial, hw'⟩
  exact hvs.reach_mem (h vs hvs)

/-- What dominates a vertex that a step leads to is that vertex or dominates where the step
starts. -/
theorem Dominates.of_step (h : Dominates r root v w) (huw : r u w) (hv : v ≠ w) :
    Dominates r root v u := by
  by_contra hn
  obtain ⟨hroot, hu⟩ := not_dominates_iff.1 hn
  exact not_dominates_iff.2 ⟨hroot, hu.tail ⟨huw, hv.symm⟩⟩ h

theorem Dominates.trans (huv : Dominates r root u v) (hvw : Dominates r root v w) :
    Dominates r root u w := by
  by_contra hn
  obtain ⟨hroot, hw⟩ := not_dominates_iff.1 hn
  -- the walk to `w` that avoids `u` visits `v`, so `v` is reached without `u`
  obtain ⟨vs, hvs, hp⟩ := (exists_walk_iff (p := (· ≠ u))).2 ⟨hroot, hw⟩
  have hwalk : ∀ {a b : α} {vs : List α}, Walk r a vs b → (∀ x ∈ vs, x ≠ u) → v ∈ vs →
      ReflTransGen (Avoiding r u) a v := by
    intro a b vs h
    induction h with
    | single a =>
      intro _ hv
      rw [List.mem_singleton.1 hv]
    | cons hab hbc ih =>
      intro hp hv
      rcases List.mem_cons.1 hv with rfl | hv
      · exact .refl
      · have hp' := fun x hx => hp x (List.mem_cons_of_mem _ hx)
        exact .head ⟨hab, hp' _ hbc.first_mem⟩ (ih hp' hv)
  exact not_dominates_iff.2 ⟨hroot, hwalk hvs hp (hvw vs hvs)⟩ huv

end Dominance

/-! ## The same walks from a root -/

theorem reach_iff_walk {r : α → α → Prop} {a b : α} :
    ReflTransGen r a b ↔ ∃ vs, Walk r a vs b := by
  have := exists_walk_iff (r := r) (p := fun _ => True) (a := a) (b := b)
  simpa using this.symm

def SameWalks (r r' : α → α → Prop) (root : α) : Prop :=
  ∀ vs v, Walk r root vs v ↔ Walk r' root vs v

namespace SameWalks

variable {r r' : α → α → Prop} {root : α}

theorem of_steps {p : α → Prop} (hroot : p root) (hstep : ∀ u, p u → ∀ v, r u v ↔ r' u v)
    (hclosed : ∀ u, p u → ∀ v, r u v → p v) : SameWalks r r' root := by
  have hiff : ∀ {u vs v}, p u → (Walk r u vs v ↔ Walk r' u vs v) := by
    intro u vs v hu
    constructor
    · intro h
      induction h with
      | single => exact .single _
      | cons hab _ ih => exact .cons ((hstep _ hu _).1 hab) (ih (hclosed _ hu _ hab))
    · intro h
      induction h with
      | single => exact .single _
      | cons hab _ ih =>
        have hab := (hstep _ hu _).2 hab
        exact .cons hab (ih (hclosed _ hu _ hab))
  exact fun vs v => hiff hroot

theorem reach (h : SameWalks r r' root) : ReflTransGen r root = ReflTransGen r' root := by
  funext v
  simp only [reach_iff_walk, h _ v]

theorem dominates (h : SameWalks r r' root) : Dominates r root = Dominates r' root := by
  funext v w
  simp only [Dominates, h _ w]

theorem immediatelyDominates (h : SameWalks r r' root) :
    ImmediatelyDominates r root = ImmediatelyDominates r' root := by
  funext v w
  simp only [ImmediatelyDominates, StrictlyDominates, h.dominates]

end SameWalks

end Structuring
