import Structuring.Proofs.Graph.Interval
import Structuring.Proofs.Reduction.Run
import Structuring.Proofs.Reduction.Shape

/-!
# Primitives from outside

The test of a primitive counts edges at its nodes and asks the dominator tree. In a graph that passes
the check the counts are enough, as long as the graph is not entered in the middle of the primitive; and
they leave no way in but the entry and no way out but the exit.

* `Primitive.countsAgree` — the part of the test that looks at nodes and edges only.
* `Primitive.holds_iff_countsAgree` — the rest of the test asks whether the entry dominates the others.
* `Primitive.enters_of_countsAgree` — by the counts, a node other than the entry is entered, and from
  inside only.
* `FlowGraph.holds_iff_counts` — when the counts decide the test, and which edges cross the border of
  what passes it.
-/

namespace Structuring

open Relation

namespace Primitive

/-- Whether the nodes in the roles are distinct and their edges as the kind demands, whatever dominates
them. -/
def countsAgree (g : FlowGraph) : Primitive NodeId → Bool
  | .preLoop c b e =>
    allDistinct [c, b, e] &&
      g.targets c [b, e] && g.sources b [c] && g.targets b [c] && g.sources e [c]
  | .postLoop b c e =>
    if b = c then allDistinct [c, e] && g.targets c [c, e] && g.sources e [c]
    else
      allDistinct [b, c, e] &&
        g.targets b [c] && g.sources c [b] && g.targets c [b, e] && g.sources e [c]
  | .ifElseReturn c y n =>
    allDistinct [c, y, n] &&
      g.targets c [y, n] && g.sources y [c] && g.targets y [] && g.sources n [c] && g.targets n []
  | .ifReturn c b e =>
    allDistinct [c, b, e] &&
      g.targets c [b, e] && g.sources b [c] && g.targets b [] && g.sources e [c]
  | .ifThen c b e =>
    allDistinct [c, b, e] &&
      g.targets c [b, e] && g.sources b [c] && g.targets b [e] && g.sources e [c, b]
  | .ifElse c y n e =>
    allDistinct [c, y, n, e] &&
      g.targets c [y, n] && g.sources y [c] && g.targets y [e] && g.sources n [c] &&
      g.targets n [e] && g.sources e [y, n]
  | .fallthrough c e => allDistinct [c, e] && g.targets c [e, e] && g.sources e [c, c]
  | .sequence a b => allDistinct [a, b] && g.targets a [b] && g.sources b [a]
  | .nWay h cs e =>
    let succs := g.successors h
    let direct := succs.contains e
    decide (2 ≤ cs.length) && allDistinct (h :: e :: cs) &&
      g.targets h (if direct then e :: cs else cs) && decide (3 ≤ succs.length) &&
      cs.all (fun c => g.sources c [h] && g.targets c [e]) &&
      g.sources e (if direct then h :: cs else cs)

variable {g : FlowGraph} {t : DominatorTree NodeId} {p : Primitive NodeId} {u v : NodeId}

theorem mem_players_nWay {h e : NodeId} {cs : List NodeId} :
    v ∈ (Primitive.nWay h cs e).players ↔ v = h ∨ v ∈ cs ∨ v = e := by
  simp [players, roles, caseRoles_players]

theorem holds_iff_countsAgree : p.holds g t = true ↔
    p.countsAgree g = true ∧ ∀ v ∈ p.players, v ≠ p.entry → t.dominates p.entry v = true := by
  cases p with
  | nWay h cs e =>
    simp only [holds, countsAgree, mem_players_nWay, entry, Bool.and_eq_true, allDistinct_iff,
      dominatesAll_iff, List.nodup_cons, List.mem_cons]
    grind
  | postLoop b c e =>
    by_cases hbc : b = c
    · simp only [holds, countsAgree, players, roles, entry, if_pos hbc, Bool.and_eq_true,
        allDistinct_iff, List.map_cons, List.map_nil, List.nodup_cons, List.mem_cons]
      grind
    · simp only [holds, countsAgree, players, roles, entry, if_neg hbc, Bool.and_eq_true,
        allDistinct_iff, dominatesAll_iff, List.map_cons, List.map_nil, List.nodup_cons, List.mem_cons]
      grind
  | fallthrough | sequence =>
    simp only [holds, countsAgree, players, roles, entry, Bool.and_eq_true, allDistinct_iff,
      List.map_cons, List.map_nil, List.nodup_cons, List.mem_cons]
    grind
  | _ =>
    simp only [holds, countsAgree, players, roles, entry, Bool.and_eq_true, allDistinct_iff,
      dominatesAll_iff, List.map_cons, List.map_nil, List.nodup_cons, List.mem_cons]
    grind

theorem enters_of_sources {ms ns : List NodeId} (h : g.sources v ms = true) (hms : ms ≠ [])
    (hsub : ∀ u ∈ ms, u ∈ ns) : g.Enters ns v := by
  have hleads : ∀ u, g.Leads u v ↔ u ∈ ms := by
    intro u
    rw [← FlowGraph.mem_ends, ← mem_ins, FlowGraph.sources_iff.1 h, Multiset.mem_coe]
  obtain ⟨u, hu⟩ := List.exists_mem_of_ne_nil ms hms
  exact ⟨⟨u, (hleads u).2 hu⟩, fun w hw => hsub w ((hleads w).1 hw)⟩

theorem enters_of_countsAgree (h : p.countsAgree g = true) (hv : v ∈ p.players)
    (hne : v ≠ p.entry) : g.Enters p.players v := by
  cases p with
  | nWay n cs e =>
    simp only [countsAgree, Bool.and_eq_true, List.all_eq_true, decide_eq_true_eq] at h
    obtain ⟨⟨⟨⟨⟨hlen, -⟩, -⟩, -⟩, hcases⟩, hexit⟩ := h
    rcases mem_players_nWay.1 hv with rfl | hc | rfl
    · exact absurd rfl hne
    · exact enters_of_sources (hcases v hc).1 (by simp) (by simp [mem_players_nWay])
    · refine enters_of_sources hexit ?_ fun u hu => mem_players_nWay.2 ?_ <;> grind
  | postLoop b c e =>
    by_cases hbc : b = c
    · simp only [countsAgree, players, roles, entry, if_pos hbc, Bool.and_eq_true, List.map_cons,
        List.map_nil, List.mem_cons] at *
      grind [enters_of_sources]
    · simp only [countsAgree, players, roles, entry, if_neg hbc, Bool.and_eq_true, List.map_cons,
        List.map_nil, List.mem_cons] at *
      grind [enters_of_sources]
  | _ =>
    simp only [countsAgree, players, roles, entry, Bool.and_eq_true, List.map_cons, List.map_nil,
      List.mem_cons] at *
    grind [enters_of_sources]

/-- If the graph is not entered at any other node of a primitive, its entry dominates them. -/
theorem dominates_of_countsAgree {root : NodeId} (h : p.countsAgree g = true)
    (hroot : root ∈ p.players → root = p.entry) (hv : v ∈ p.players) :
    Dominates g.Leads root p.entry v := by
  by_contra hn
  obtain ⟨hne, hreach⟩ := not_dominates_iff.1 hn
  -- a walk that avoids the entry never comes inside
  have hout : ∀ w, ReflTransGen (Avoiding g.Leads p.entry) root w → w ∉ p.players := by
    intro w hw
    induction hw with
    | refl => exact fun hmem => hne (hroot hmem)
    | tail _ huv ih => exact fun hmem => ih ((enters_of_countsAgree h hmem huv.2).2 _ huv.1)
  exact hout v hreach hv

end Primitive

/-- An arc of an outline is one of those inside a template, or it comes inside at the entry only and
leaves at the exit only. -/
theorem Template.At.inner_or {α : Type} [DecidableEq α] {T : Template α} {G : Outline α}
    (hs : T.Sound) (h : T.At G) {u v : α} (huv : (u, v) ∈ G.arcs) :
    (u ∈ T.members ∧ v ∈ T.members ∧ T.exit? ≠ some u) ∨
      (u ∈ T.members → T.exit? = some u) ∧ (v ∈ T.members → v = T.entry) := by
  obtain ⟨F, hF, hborder⟩ := h.split hs
  rw [hF, Multiset.mem_add] at huv
  exact huv.imp (hs.inner_mem _) (hborder _)

namespace FlowGraph

variable {g : FlowGraph} {root : NodeId} {t : DominatorTree NodeId} {p : Primitive NodeId}

/-- In a graph whose nodes can all be reached, nodes pass the test of a primitive if they pass the
counts and the graph is not entered at any of them but the entry. -/
theorem Tells.holds_iff_countsAgree (ht : g.Tells root t) (hg : g.WellFormed) (hroot : g.Rooted root) :
    p.holds g t = true ↔
      p.countsAgree g = true ∧ ∀ v ∈ p.players, g.entry = some v → v = p.entry := by
  rw [Primitive.holds_iff_countsAgree, hroot.1]
  refine and_congr_right fun hcounts => ⟨fun hdom v hv hentry => ?_, fun hentry v hv hne => ?_⟩
  · obtain rfl := Option.some.inj hentry
    by_contra hne
    obtain ⟨-, hd⟩ := (ht _ _).1 (hdom root hv hne)
    exact hne (List.mem_singleton.1 (hd [root] (.single root))).symm
  · have hd := Primitive.dominates_of_countsAgree hcounts (fun hmem => hentry root hmem rfl) hv
    obtain ⟨⟨u, huv⟩, -⟩ := Primitive.enters_of_countsAgree hcounts hv hne
    exact (ht _ _).2 ⟨hroot.2 v (hg.closed.mem huv).2, hd⟩

/-- In a graph whose nodes can all be reached, the edges across the border of what passes the test of a
primitive lead to the entry and leave from the exit, and those from the exit back lead to the entry. -/
theorem Tells.border (ht : g.Tells root t) (hg : g.WellFormed) (hroot : g.Rooted root)
    (h : p.holds g t = true) {u v : NodeId} (huv : g.Leads u v) :
    (u ∉ p.players → v ∈ p.players → v = p.entry) ∧
      (u ∈ p.players → v ∉ p.players → p.exit? = some u) ∧
      (p.exit? = some u → v ∈ p.players → v = p.entry) := by
  obtain ⟨T, hT, hat⟩ := (holds_iff hg hroot ht).1 h
  obtain ⟨hmem, hentry, hexit⟩ := Primitive.region_of_template hT
  have hplayers : ∀ w, w ∈ p.players ↔ w ∈ T.members := fun w => mem_distinct.symm.trans (hmem w)
  rw [hplayers, hplayers, show p.entry = T.entry from hentry, show p.exit? = T.exit? from hexit]
  rcases hat.inner_or (Primitive.sound hT hat.nodup) (mem_ends.2 huv) with
    ⟨hu, hv, hx⟩ | ⟨hleave, henter⟩
  · exact ⟨fun hout => absurd hu hout, fun _ hout => absurd hv hout, fun heq => absurd heq hx⟩
  · exact ⟨fun _ => henter, fun hu _ => hleave hu, fun _ => henter⟩

/-- In a graph that passes the check, given its dominator tree by either algorithm, nodes pass the test
of a primitive exactly if they are distinct, their edges are counted as the kind demands, and the graph is
not entered at any of them but the entry of the primitive. From outside what passes the test, edges lead
to its entry only; to the outside they leave from its exit only, if it has one; and from the exit back
inside they lead to the entry only. -/
theorem holds_iff_counts (hg : g.WellFormed) (hvalid : g.validate = .ok ()) (a : Algorithm) :
    ∃ t, g.dominatorTree a = .ok t ∧ ∀ p : Primitive NodeId,
      (p.holds g t = true ↔
        p.countsAgree g = true ∧ ∀ v ∈ p.players, g.entry = some v → v = p.entry) ∧
      (p.holds g t = true →
        (∀ u v, g.Leads u v → u ∉ p.players → v ∈ p.players → v = p.entry) ∧
        (∀ u v, g.Leads u v → u ∈ p.players → v ∉ p.players → p.exit? = some u) ∧
        ∀ u v, g.Leads u v → p.exit? = some u → v ∈ p.players → v = p.entry) := by
  obtain ⟨root, hroot⟩ := (validate_eq_ok hg.closed).1 hvalid
  obtain ⟨t, ht, htells⟩ := exists_tells hg hroot.1 a
  refine ⟨t, ht, fun p => ⟨htells.holds_iff_countsAgree hg hroot, fun h => ?_⟩⟩
  have hborder := fun {u v} => htells.border hg hroot h (u := u) (v := v)
  exact ⟨fun u v huv => (hborder huv).1, fun u v huv => (hborder huv).2.1,
    fun u v huv => (hborder huv).2.2⟩

theorem whileLoop_holds_iff_counts :
    whileLoop.WellFormed ∧ whileLoop.validate = .ok () ∧
      ∃ t, whileLoop.dominatorTree .semidominators = .ok t ∧
        (Primitive.preLoop ⟨0, 2⟩ ⟨0, 3⟩ ⟨0, 4⟩).holds whileLoop t = true ∧
        (∀ u, whileLoop.Leads u ⟨0, 3⟩ → u ∈ [⟨0, 2⟩, ⟨0, 3⟩, ⟨0, 4⟩]) ∧
        ∀ v, ¬ whileLoop.Leads ⟨0, 2⟩ v ∨ v ∈ [⟨0, 2⟩, ⟨0, 3⟩, ⟨0, 4⟩] := by
  have hg : whileLoop.WellFormed := ofWords_wellFormed _
  obtain ⟨t, ht, hcounts⟩ := holds_iff_counts hg whileLoop_validate .semidominators
  obtain ⟨hholds, hborder⟩ := hcounts (.preLoop ⟨0, 2⟩ ⟨0, 3⟩ ⟨0, 4⟩)
  have hloop := hholds.2 ⟨by decide +kernel, by decide +kernel⟩
  obtain ⟨henters, hleaves, -⟩ := hborder hloop
  refine ⟨hg, whileLoop_validate, t, ht, hloop, fun u hu => ?_, fun v => ?_⟩
  · by_contra hout
    exact absurd (henters u _ hu hout (by decide)) (by decide)
  · by_contra hboth
    rw [not_or, not_not] at hboth
    exact absurd (hleaves _ v hboth.1 (by decide) hboth.2) (by decide)

end FlowGraph

end Structuring
