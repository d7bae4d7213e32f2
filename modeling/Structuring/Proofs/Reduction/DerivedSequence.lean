import Structuring.Proofs.Reduction.Copy

/-!
# Derived sequences

A derived sequence goes from each graph to its derived graph, until it comes to a limit. It gets smaller
at every step, and all its graphs are reducible or none is. But it stops at a limit even if that still
has loops that its derived graph would not have, so a reducible graph can be a limit; this happens only
at the start, since derived graphs have no loops.

* `FlowGraph.DerivesTo` — the graphs derived one from another, up to a limit.
* `FlowGraph.derivedFrom_derivesTo` — a derived sequence consists of these.
* `DerivesTo.size_eq_one_iff` — when the limit is a single node.
* `FlowGraph.derivedSequence_spec` — the same for the derived sequence of a graph.
* `FlowGraph.loopAtEnd_derivedSequence` — a reducible graph whose derived sequence stops at two nodes.
-/

namespace Structuring

open Relation

namespace FlowGraph

inductive DerivesTo : FlowGraph → List (FlowGraph × List Interval) → FlowGraph → Prop where
  | limit {g : FlowGraph} {is : List Interval} : g.intervals = some is → is.length = g.size →
      DerivesTo g [(g, is)] g
  | derive {g d last : FlowGraph} {is : List Interval} {gs : List (FlowGraph × List Interval)} :
      g.intervals = some is → is.length < g.size → g.derived is g.tag = .ok d →
      DerivesTo d gs last → DerivesTo g ((g, is) :: gs) last

variable {g d last : FlowGraph} {root : NodeId} {is : List Interval}
  {gs : List (FlowGraph × List Interval)}

theorem Validated.derived (hv : g.Validated) (his : g.intervals = some is) (tag : Nat) :
    ∃ d, g.derived is tag = .ok d ∧ d.Validated ∧ d.size = is.length ∧ is.length ≤ g.size ∧
      (∀ n, ¬ d.Leads n n) ∧ (g.IsReducible ↔ d.IsReducible) := by
  obtain ⟨hg, root, hroot⟩ := hv
  obtain ⟨is', his', hpart⟩ := intervals_partitions hg hroot.1
  obtain rfl := Option.some.inj (his.symm.trans his')
  obtain ⟨d, hd, hderived⟩ := derived_isDerived hg hroot hpart tag
  have hroot' := (hderived.isQuotient hg hroot hpart).rooted hroot
  refine ⟨d, hd, ⟨hderived.wellFormed, _, hroot'⟩, ?_, hpart.length_le, fun n hn => ?_, ?_⟩
  · rw [← hderived.length_eq, Digraph.length_ids]
  · exact ((hderived.leads n n).1 hn).1 rfl
  · rw [hroot.isReducible_iff, hroot'.isReducible_iff]
    exact reducible_iff_of_derived hg hroot hpart hderived

theorem derivedFrom_derivesTo (hv : g.Validated) :
    ∃ gs last, g.derivedFrom = .ok gs ∧ DerivesTo g gs last := by
  -- on the number of nodes, which gets smaller as long as there is no limit
  induction hn : g.size using Nat.strong_induction_on generalizing g with
  | _ n ih =>
    subst hn
    obtain ⟨is, his, -⟩ := intervals_partitions hv.1 hv.2.choose_spec.1
    obtain ⟨d, hd, hvd, hsize, hle, -⟩ := hv.derived his g.tag
    unfold derivedFrom
    simp only [his]
    by_cases hlimit : is.length = g.size
    · exact ⟨_, g, if_pos hlimit, .limit his hlimit⟩
    · have hlt : is.length < g.size := Nat.lt_of_le_of_ne hle hlimit
      obtain ⟨gs, last, hgs, hderives⟩ := ih d.size (hsize ▸ hlt) hvd rfl
      refine ⟨(g, is) :: gs, last, ?_, .derive his hlt hd hderives⟩
      simp only [if_neg hlimit, hd, bind, Except.bind, hsize ▸ hlt, dif_pos, hgs]
      rfl

namespace DerivesTo

theorem getLast (h : DerivesTo g gs last) : ∃ is, gs.getLast? = some (last, is) := by
  induction h with
  | limit => exact ⟨_, rfl⟩
  | @derive g d last is gs _ _ _ _ ih =>
    obtain ⟨is', hlast⟩ := ih
    exact ⟨is', by rw [List.getLast?_cons, hlast]; rfl⟩

/-- No graph is larger than the first one, and each is smaller than those before it. -/
theorem sizes (h : DerivesTo g gs last) (hv : g.Validated) :
    (∀ x ∈ gs, x.1.size ≤ g.size) ∧ (gs.map (·.1.size)).Pairwise (· > ·) := by
  induction h with
  | limit => exact ⟨fun x hx => by rw [List.mem_singleton.1 hx], List.pairwise_singleton _ _⟩
  | derive his hlt hd _ ih =>
    obtain ⟨d', hd', hvd, hsize, -⟩ := hv.derived his _
    obtain rfl := Except.ok.inj (hd.symm.trans hd')
    obtain ⟨hle, hpairwise⟩ := ih hvd
    refine ⟨fun x hx => ?_, List.pairwise_cons.2 ⟨fun k hk => ?_, hpairwise⟩⟩
    · rcases List.mem_cons.1 hx with rfl | hx
      · exact Nat.le_refl _
      · exact (hle x hx).trans (by omega)
    · obtain ⟨x, hx, rfl⟩ := List.mem_map.1 hk
      exact Nat.lt_of_le_of_lt (hle x hx) (hsize ▸ hlt)

/-- The last graph is a limit, and is reducible exactly if the first one is. If it is another graph, it
has no loops. -/
theorem last_spec (h : DerivesTo g gs last) (hv : g.Validated) :
    last.Validated ∧ last.IsLimit ∧ (g.IsReducible ↔ last.IsReducible) ∧
      (last = g ∨ ¬ g.IsLimit ∧ ∀ n, ¬ last.Leads n n) := by
  induction h with
  | @limit g is his hsize => exact ⟨hv, ⟨is, his, hsize⟩, Iff.rfl, .inl rfl⟩
  | @derive g d last is gs his hlt hd _ ih =>
    obtain ⟨d', hd', hvd, -, -, hloops, hiff⟩ := hv.derived his _
    obtain rfl := Except.ok.inj (hd.symm.trans hd')
    obtain ⟨hvlast, hlimit, hiff', hsource⟩ := ih hvd
    refine ⟨hvlast, hlimit, hiff.trans hiff', .inr ⟨?_, ?_⟩⟩
    · rintro ⟨is', his', hsize⟩
      rw [his] at his'
      cases his'
      omega
    · -- the last graph is derived from `g` itself or from a later graph
      rcases hsource with rfl | ⟨-, hnone⟩
      · exact hloops
      · exact hnone

/-- The last graph is a single node exactly if the first one is reducible, and is a single node itself or
no limit. -/
theorem size_eq_one_iff (h : DerivesTo g gs last) (hv : g.Validated) :
    last.size = 1 ↔ g.IsReducible ∧ (g.size = 1 ∨ ¬ g.IsLimit) := by
  obtain ⟨hvlast, hlimit, hiff, hsource⟩ := h.last_spec hv
  have hpos := hvlast.size_pos
  obtain ⟨hg, root, hroot⟩ := hvlast
  constructor
  · intro hone
    refine ⟨hiff.2 ⟨root, hroot.1, reducible_of_size_le hg (Nat.le_of_eq hone)⟩, ?_⟩
    exact hsource.imp (fun hsame : last = g => hsame ▸ hone) And.left
  · rintro ⟨hred, hstart⟩
    by_contra hsize
    rcases hsource with rfl | ⟨-, hloops⟩
    · exact hstart.elim hsize fun hnot => hnot hlimit
    · have hmore : 1 < last.size := Nat.lt_of_le_of_ne hpos (Ne.symm hsize)
      exact hlimit.irreducible hg hroot hmore (fun n _ => hloops n)
        (hroot.isReducible_iff.1 (hiff.1 hred))

end DerivesTo

/-- The derived sequence of a graph that passes the check is found. Its graphs get smaller and smaller.
The last one is a single node exactly if the graph is reducible, and has a single node or one that
follows another. Where loops are at the entry only, this means that the graph is reducible. -/
theorem derivedSequence_spec (hg : g.WellFormed) (hvalid : g.validate = .ok ()) :
    ∃ root gs last, g.entry = some root ∧ g.derivedSequence = .ok gs ∧
      (gs.map (·.1.size)).Pairwise (· > ·) ∧ gs.getLast? = some last ∧
      (last.1.size = 1 ↔ g.IsReducible ∧ (g.size = 1 ∨ ∃ u v, g.Follows root u v)) ∧
      ((∀ n, n ≠ root → ¬ g.Leads n n) → (last.1.size = 1 ↔ g.IsReducible)) := by
  obtain ⟨root, hroot⟩ := (validate_eq_ok hg.closed).1 hvalid
  obtain ⟨c, φ, hcopy, hc, hφ⟩ := copy_isCopy hg hroot.1 g.tag
  have hvc : c.Validated := ⟨hc, _, (hφ.isQuotient hg hroot).rooted hroot⟩
  obtain ⟨gs, last, hgs, hderives⟩ := derivedFrom_derivesTo hvc
  obtain ⟨is, hlast⟩ := hderives.getLast
  have hfollows : ¬ c.IsLimit ↔ ∃ u v, g.Follows root u v := by
    rw [hφ.isLimit_iff hg hc hroot, isLimit_iff hg hroot]
    simp
  have hone : last.size = 1 ↔ g.IsReducible ∧ (g.size = 1 ∨ ∃ u v, g.Follows root u v) := by
    rw [hderives.size_eq_one_iff hvc, hφ.isReducible_iff hg hc hroot, hφ.size_eq, hfollows]
  refine ⟨root, gs, (last, is), hroot.1, by simp only [derivedSequence, hcopy, hgs],
    (hderives.sizes hvc).2, hlast, hone, fun hloops => hone.trans (and_iff_left_of_imp fun hred => ?_)⟩
  by_cases hmore : 1 < g.size
  · exact .inr (exists_follows hg hroot (hroot.isReducible_iff.1 hred) hmore hloops)
  · have hpos : 0 < g.size := Validated.size_pos ⟨hg, root, hroot⟩
    exact .inl (by omega)

theorem whileLoop_derivedSequence :
    whileLoop.WellFormed ∧ whileLoop.validate = .ok () ∧
      ∃ root gs last, whileLoop.entry = some root ∧ whileLoop.derivedSequence = .ok gs ∧
        (gs.map (·.1.size)).Pairwise (· > ·) ∧ gs.getLast? = some last ∧
        (last.1.size = 1 ↔
          whileLoop.IsReducible ∧ (whileLoop.size = 1 ∨ ∃ u v, whileLoop.Follows root u v)) ∧
        ((∀ n, n ≠ root → ¬ whileLoop.Leads n n) → (last.1.size = 1 ↔ whileLoop.IsReducible)) :=
  have hg : whileLoop.WellFormed := ofWords_wellFormed _
  ⟨hg, whileLoop_validate, derivedSequence_spec hg whileLoop_validate⟩

def loopAtEnd : FlowGraph := ofWords ["AB", "BB"]

theorem loopAtEnd_isReducible : loopAtEnd.IsReducible := by
  refine ⟨⟨0, 1⟩, by cbv, reducible_of_rank NodeId.serial ?_⟩
  rintro u v ⟨e, he, rfl, rfl⟩
  revert e
  decide

theorem loopAtEnd_derivedSequence :
    loopAtEnd.WellFormed ∧ loopAtEnd.validate = .ok () ∧ loopAtEnd.IsReducible ∧
      ∃ gs last, loopAtEnd.derivedSequence = .ok gs ∧ gs.getLast? = some last ∧
        last.1.size = 2 :=
  ⟨ofWords_wellFormed _, by cbv, loopAtEnd_isReducible, _, _, by cbv, by cbv, by cbv⟩

end FlowGraph

end Structuring
