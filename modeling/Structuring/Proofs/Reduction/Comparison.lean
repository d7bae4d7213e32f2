import Structuring.Proofs.Reduction.Copy
import Structuring.Proofs.Reduction.Outcome

/-!
# The two reductions compared

The two reductions contract different primitives, so their runs have nothing in common. What a run of
one says about the graph is enough for the other: a graph that is reduced by hammocks is reducible, and
if it has several nodes its first primitive shows that one node follows another, so that it is no limit.
The reduction by levels stops at a limit, and at a reducible one only if that is where it started.

* `Template.Sound.exists_sole` — a template has a member that is entered from its entry only.
* `FlowGraph.exists_follows_of_at` — where a template stands, some node follows another.
* `Progress.byLevels_of_isReducible` — a reducible graph is reduced by levels if it has a single node or
  is no limit.
* `FlowGraph.reduceByIntervals_of_reduceByHammocks` — what is reduced by hammocks is reduced by levels.
-/

namespace Structuring

open Relation

/-- A template has a member that is entered from its entry only: one that is not the exit, or the exit
if there is no such member. -/
theorem Template.Sound.exists_sole {α : Type} [DecidableEq α] {T : Template α} (hs : T.Sound) :
    ∃ v ∈ T.members, v ≠ T.entry ∧ (T.entry, v) ∈ T.inner ∧
      ∀ u, (u, v) ∈ T.inner → u = T.entry := by
  by_cases hother : ∃ v ∈ T.members, v ≠ T.entry ∧ T.exit? ≠ some v
  · obtain ⟨v, hv, hne, hexit⟩ := hother
    refine ⟨v, hv, hne, hs.branch v hv hne hexit, fun u hu => ?_⟩
    by_contra hue
    exact hexit (hs.inner_exit _ hu hue hne)
  · push Not at hother
    obtain ⟨v, hne, hv⟩ := hs.leads
    refine ⟨v, (hs.inner_mem _ hv).2.1, hne, hv, fun u hu => ?_⟩
    by_contra hue
    obtain ⟨hum, -, hexit⟩ := hs.inner_mem _ hu
    exact hexit (hother u hum hue)

namespace FlowGraph

variable {g : FlowGraph} {root : NodeId} {p : Primitive NodeId} {T : Template NodeId}

theorem exists_follows_of_at (hT : T ∈ p.templates) (hat : T.At (g.outline root)) :
    ∃ u v, g.Follows root u v := by
  obtain ⟨v, hv, hne, hlead, hsole⟩ := (Primitive.sound hT hat.nodup).exists_sole
  have hentered : ∀ u, g.Leads u v ↔ (u, v) ∈ T.inner := fun u => by
    rw [← mem_ends, ← mem_ins, ← mem_ins, ← hat.ins_eq v hv hne]
    rfl
  refine ⟨T.entry, v, ?_, (hentered _).2 hlead, fun u hu => hsole u ((hentered u).1 hu)⟩
  rintro rfl
  exact hne (hat.entry_eq hv)

end FlowGraph

namespace Progress

variable {s : Progress} {root : NodeId}

/-- A reduction by hammocks that ends normally has found a primitive, or there was nothing to do. -/
theorem not_isLimit_of_byHammocks (hg : s.graph.WellFormed) (hroot : s.graph.Rooted root)
    (hok : s.byHammocks.failure = none) : s.graph.size ≤ 1 ∨ ¬ s.graph.IsLimit := by
  refine or_iff_not_imp_left.2 fun hsize hlimit => ?_
  obtain ⟨t, ht, -⟩ := FlowGraph.dominatorTree_spec hg.closed hroot.1 (hg.entry_mem root hroot.1)
  cases hfind : s.graph.findMatch t none with
  | none =>
    have hnone : s.Exhausted := ⟨t, ht, hfind⟩
    obtain ⟨-, e, he⟩ := hnone.byHammocks ⟨hg, root, hroot⟩ (Nat.lt_of_not_le hsize)
    rw [hok] at he
    cases he
  | some p =>
    obtain ⟨T, hT, hat⟩ := FlowGraph.at_of_findMatch hg hroot ht hfind
    obtain ⟨u, v, hfollows⟩ := FlowGraph.exists_follows_of_at hT hat
    exact (FlowGraph.isLimit_iff hg hroot).1 hlimit u v hfollows

/-- A reduction by hammocks that ends normally shows that the graph is reducible. -/
theorem isReducible_of_byHammocks (hv : s.graph.Validated) (hok : s.byHammocks.failure = none) :
    s.graph.IsReducible := by
  obtain ⟨hruns, hends⟩ := byHammocks_ends hv
  obtain ⟨⟨hg, root, hroot⟩, hiff⟩ :=
    Descends.run_reducible_iff (Descends.run_of_advances hruns) hv
  rcases hends with ⟨-, hsize⟩ | ⟨s', heq, -⟩
  · exact hiff.2 ⟨root, hroot.1, FlowGraph.reducible_of_size_le hg hsize⟩
  · rw [heq] at hok
    cases hok

/-- A reducible graph is reduced by levels if there is nothing to do or it is no limit. The later graphs
have no loops, so that none of them is a reducible limit either. -/
theorem byLevels_of_isReducible (hv : s.graph.Validated) (hred : s.graph.IsReducible)
    (hlimit : s.graph.size ≤ 1 ∨ ¬ s.graph.IsLimit) :
    s.byLevels.failure = none ∧ s.byLevels.progress.graph.size = 1 := by
  obtain ⟨hruns, hends⟩ := byLevels_ends hv
  obtain ⟨hv', hiff⟩ := Descends.run_reducible_iff hruns hv
  rcases hends with ⟨hok, hsize⟩ | ⟨s', heq, hstuck⟩
  · exact ⟨hok, Nat.le_antisymm hsize hv'.size_pos⟩
  · exfalso
    rw [heq] at hv' hiff
    obtain ⟨hg', root', hroot'⟩ := hv'
    rcases hstuck.source with hsame | hloops
    · rcases hlimit with hsize | hnot
      · exact Nat.not_lt.2 hsize (hsame ▸ hstuck.large)
      · exact hnot (hsame ▸ hstuck.isLimit)
    · exact hstuck.isLimit.irreducible hg' hroot' hstuck.large (fun n _ => hloops n)
        (hroot'.isReducible_iff.1 (hiff.1 hred))

end Progress

namespace FlowGraph

variable {g h : FlowGraph} {φ : NodeId → NodeId} {r : Reduced}

/-- If the reduction by hammocks of a graph that passes the check ends normally, then so does the
reduction by levels of any copy of the graph. -/
theorem reduceByIntervals_of_reduceByHammocks (hg : g.WellFormed) (hvalid : g.validate = .ok ())
    (hrun : g.reduceByHammocks = .ok r) (hok : r.failure = none) (hh : h.WellFormed)
    (hcopy : IsCopy g h φ) :
    ∃ r', h.reduceByIntervals = .ok r' ∧ r'.failure = none ∧ r'.progress.graph.size = 1 := by
  obtain ⟨root, hroot⟩ := (validate_eq_ok hg.closed).1 hvalid
  obtain rfl := Except.ok.inj ((reduceByHammocks_eq hvalid).symm.trans hrun)
  have hred := Progress.isReducible_of_byHammocks
    (s := (Progress.start g).say (.structuring g.shown)) ⟨hg, root, hroot⟩ hok
  have hlimit := Progress.not_isLimit_of_byHammocks
    (s := (Progress.start g).say (.structuring g.shown)) hg hroot hok
  have hroot' := (hcopy.isQuotient hg hroot).rooted hroot
  exact ⟨_, reduceByIntervals_eq ((validate_eq_ok hh.closed).2 ⟨_, hroot'⟩),
    Progress.byLevels_of_isReducible (s := .start h) ⟨hh, _, hroot'⟩
      ((hcopy.isReducible_iff hg hh hroot).2 hred)
      (hlimit.imp (fun hsize => hcopy.size_eq ▸ hsize)
        fun hnot hh' => hnot ((hcopy.isLimit_iff hg hh hroot).1 hh'))⟩

/-- A node that leads to itself, between two others. -/
def loopBetween : FlowGraph := ofWords ["AB", "BB", "BC"]

theorem loopBetween_validate : loopBetween.validate = .ok () := by cbv

def loopClosed (name : Option String) : FlowGraph :=
  (loopBetween.merge (Primitive.postLoop ⟨0, 2⟩ ⟨0, 2⟩ ⟨0, 3⟩).region name).2

theorem loopBetween_finds : loopBetween.Finds (some (.postLoop ⟨0, 2⟩ ⟨0, 2⟩ ⟨0, 3⟩)) :=
  ⟨_, by cbv, by cbv⟩

theorem loopClosed_finds (name : Option String) :
    (loopClosed name).Finds (some (.sequence ⟨0, 1⟩ ⟨0, 4⟩)) :=
  ⟨_, by cbv, by cbv⟩

theorem loopBetween_reduceByHammocks :
    ∃ r, loopBetween.reduceByHammocks = .ok r ∧ r.failure = none := by
  have hg : loopBetween.WellFormed := ofWords_wellFormed _
  have hv : loopBetween.Validated := ⟨hg, (validate_eq_ok hg.closed).1 loopBetween_validate⟩
  obtain ⟨name, s₁, hs₁, hsize₁, -, hv₁, hrun₁⟩ := Progress.byHammocks_of_found
    (s := (Progress.start loopBetween).say (.structuring loopBetween.shown)) hv
    (by change 1 < loopBetween.size; decide) loopBetween_finds
  replace hs₁ : s₁.graph = loopClosed name := hs₁
  replace hsize₁ : s₁.graph.size + 2 = 3 + 1 := hsize₁
  obtain ⟨name', s₂, -, hsize₂, -, -, hrun₂⟩ := Progress.byHammocks_of_found hv₁ (by omega)
    (hs₁ ▸ loopClosed_finds name)
  replace hsize₂ : s₂.graph.size + 2 = s₁.graph.size + 1 := hsize₂
  refine ⟨_, reduceByHammocks_eq loopBetween_validate, ?_⟩
  rw [hrun₁, hrun₂, Progress.byHammocks, if_pos (by omega)]
  rfl

theorem loopBetween_reduceByIntervals :
    loopBetween.WellFormed ∧ loopBetween.validate = .ok () ∧
      ∃ r h φ, loopBetween.reduceByHammocks = .ok r ∧ r.failure = none ∧
        loopBetween.copy 1 = .ok h ∧ h.WellFormed ∧ IsCopy loopBetween h φ ∧
        ∃ r', h.reduceByIntervals = .ok r' ∧ r'.failure = none ∧ r'.progress.graph.size = 1 := by
  have hg : loopBetween.WellFormed := ofWords_wellFormed _
  obtain ⟨r, hrun, hok⟩ := loopBetween_reduceByHammocks
  obtain ⟨root, hroot⟩ := (validate_eq_ok hg.closed).1 loopBetween_validate
  obtain ⟨h, φ, hcopy, hh, hφ⟩ := copy_isCopy hg hroot.1 1
  exact ⟨hg, loopBetween_validate, r, h, φ, hrun, hok, hcopy, hh, hφ,
    reduceByIntervals_of_reduceByHammocks hg loopBetween_validate hrun hok hh hφ⟩

end FlowGraph

end Structuring
