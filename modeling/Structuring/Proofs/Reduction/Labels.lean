import Structuring.Proofs.Reduction.Outcome

/-!
# What becomes of the labels

Every label of the graph at the start is in one of three places when a reduction ends: it is left in the
last graph, a primitive that was located has used it up, or an interval that was reported to become a
node has. The node that is made of a primitive or an interval carries on the label of its entry or
header, which is not used up.

* `Primitive.used`, `Interval.used` — the labels that a primitive or an interval uses up.
* `Merges.labels_perm`, `Derives.labels_perm` — what a contraction and a change of level use up.
* `Progress.Accounts` — the three places hold the labels of a graph.
* `Method.reduce_accounts` — they hold them at the end of every reduction.
-/

namespace Structuring

open Relation Arcs
open scoped List

/-- What plays a role and is not the entry, each once. -/
def Primitive.used {α : Type} [DecidableEq α] (p : Primitive α) : List α :=
  without (distinct p.players) p.entry

def Interval.used : Value × List Value → List Value
  | (header, labels) => without labels header

section Lists

variable {α : Type} [DecidableEq α]

theorem perm_cons_without {as : List α} {a : α} (has : as.Nodup) (ha : a ∈ as) :
    as.Perm (a :: without as a) := by
  have hfilter : as.filter (· != a) = without as a :=
    List.filter_congr fun b _ => by by_cases h : b = a <;> simp [h]
  rw [← hfilter, ← has.erase_eq_filter]
  exact List.perm_cons_erase ha

end Lists

theorem flatMap_filter {α β : Type} {f : α → List β} {p : α → Bool} {as : List α}
    (h : ∀ a ∈ as, p a = false → f a = []) : (as.filter p).flatMap f = as.flatMap f := by
  induction as with
  | nil => rfl
  | cons a as ih =>
    have ih := ih fun b hb => h b (List.mem_cons_of_mem a hb)
    cases hp : p a with
    | false => rw [List.filter_cons_of_neg (by simp [hp]), ih, List.flatMap_cons,
        h a List.mem_cons_self hp, List.nil_append]
    | true => rw [List.filter_cons_of_pos hp, List.flatMap_cons, List.flatMap_cons, ih]

namespace Primitive

variable {α β : Type}

@[simp] theorem entry_map (f : α → β) (p : Primitive α) : (p.map f).entry = f p.entry := by
  cases p <;> rfl

@[simp] theorem players_map (f : α → β) (p : Primitive α) :
    (p.map f).players = p.players.map f := by
  cases p <;> simp [players, roles, map, caseRoles_players]

/-- If different players have different labels, what is used up is labelled one by one. -/
theorem used_map [DecidableEq α] [DecidableEq β] {f : α → β} {p : Primitive α}
    (hf : ∀ a ∈ p.players, ∀ b ∈ p.players, f a = f b → a = b) :
    (p.map f).used = p.used.map f := by
  rw [used, used, players_map, entry_map, distinct_map hf]
  exact without_map fun b hb => hf b (mem_distinct.1 hb) _ p.entry_mem_players

end Primitive

namespace FlowGraph

variable {g d : FlowGraph} {root : NodeId} {is : List Interval}

theorem IsDerived.labels_eq (hd : IsDerived g is d) :
    d.labels = is.map fun i => g.label i.header := by
  rw [hd.wellFormed.labels_eq]
  refine List.ext_getElem (by simp [hd.length_eq]) fun j hj hj' => ?_
  rw [List.getElem_map, List.getElem_map]
  exact hd.label_eq j _ _

theorem Partitions.labels_perm (h : Partitions g root [] is) (hg : g.WellFormed) {i : Interval}
    (hi : i ∈ is) : (i.members.map g.label).Perm (g.label i.header :: Interval.used (g.labelled i)) := by
  obtain ⟨before, hgrows⟩ := h.grows i hi
  refine perm_cons_without (hgrows.nodup.map_on fun n hn m hm heq => ?_)
    (List.mem_map_of_mem hgrows.header_mem)
  exact hg.eq_of_key (h.mem_ids i hi n hn) (h.mem_ids i hi m hm) (congrArg Value.key heq)

/-- An interval with a single node uses up nothing. -/
theorem Partitions.used_eq_nil (h : Partitions g root [] is) {i : Interval} (hi : i ∈ is)
    (hsize : ¬ 1 < i.size) : Interval.used (g.labelled i) = [] := by
  have hmem := h.header_mem hi
  obtain ⟨v, hv⟩ := List.length_eq_one_iff.1
    (Nat.le_antisymm (Nat.le_of_not_lt hsize) (List.length_pos_of_mem hmem))
  rw [hv, List.mem_singleton] at hmem
  simp [Interval.used, labelled, hv, hmem, without]

end FlowGraph

namespace Progress

variable {s s' : Progress} {g : FlowGraph} {root n : NodeId} {within : Option (List NodeId)}
  {p : Primitive NodeId} {is : List Interval}

theorem Merges.labels_perm (h : Merges s within p n s') (hg : s.graph.WellFormed)
    (hroot : s.graph.Rooted root) :
    s.graph.labels.Perm (s'.graph.labels ++ (s.graph.located p).used) ∧
      ∀ l ∈ (s.graph.located p).players, l ∈ s.graph.labels := by
  obtain ⟨⟨T, hT, hat⟩, hc, -⟩ := h.spec hg hroot
  obtain ⟨hfits, -⟩ := FlowGraph.fits_of_at hroot.1 hT hat
  have hmem : ∀ v ∈ p.players, v ∈ s.graph.ids := fun v hv =>
    hfits.mem_ids v (mem_distinct.2 hv)
  have hused : (s.graph.located p).used = p.used.map s.graph.label :=
    Primitive.used_map fun v hv w hw heq =>
      hg.eq_of_key (hmem v hv) (hmem w hw) (congrArg Value.key heq)
  -- the labels outside the region stay, and the new node has that of the entry
  have hleft : s'.graph.labels =
      (s.graph.ids.filter fun v => v ∉ p.region.members).map s.graph.label ++
        [s.graph.label p.entry] := by
    rw [hc.wellFormed.labels_eq, hc.ids, List.map_append, List.map_singleton, hc.label]
    congr 1
    refine List.map_congr_left fun v hv => ?_
    obtain ⟨hv, hnot⟩ := List.mem_filter.1 hv
    exact hc.label_eq v hv (of_decide_eq_true hnot)
  have hmembers : p.region.members.Perm (p.entry :: p.used) :=
    perm_cons_without hfits.nodup hfits.entry_mem
  refine ⟨?_, fun l hl => ?_⟩
  · have hids := (hfits.ids_perm hg).trans (hmembers.append_left _)
    rw [hg.labels_eq, hleft, hused, List.append_assoc]
    simpa using hids.map s.graph.label
  · rw [FlowGraph.located, Primitive.players_map] at hl
    obtain ⟨v, hv, rfl⟩ := List.mem_map.1 hl
    rw [hg.labels_eq]
    exact List.mem_map_of_mem (hmem v hv)

theorem Derives.labels_perm (h : Derives s is s') (hg : s.graph.WellFormed)
    (hroot : s.graph.Rooted root) :
    s.graph.labels.Perm (s'.graph.labels ++
      ((is.filter fun i => 1 < i.size).map s.graph.labelled).flatMap Interval.used) := by
  obtain ⟨hpart, hderived⟩ := h.spec hg hroot
  have hsmall : ((is.filter fun i => 1 < i.size).map s.graph.labelled).flatMap Interval.used =
      is.flatMap fun i => Interval.used (s.graph.labelled i) := by
    rw [List.flatMap_map]
    exact flatMap_filter fun i hi hsize => hpart.used_eq_nil hi (of_decide_eq_false hsize)
  rw [hsmall, hg.labels_eq, hderived.labels_eq, List.map_eq_flatMap (l := is)]
  calc s.graph.ids.map s.graph.label
      ~ (is.flatMap Interval.members).map s.graph.label := (hpart.ids_perm hg hroot).map _
    _ = is.flatMap fun i => i.members.map s.graph.label := List.map_flatMap
    _ ~ is.flatMap fun i => [s.graph.label i.header] ++ Interval.used (s.graph.labelled i) :=
      List.Perm.flatMap_left is fun i hi => hpart.labels_perm hg hi
    _ ~ _ := (List.flatMap_append_perm is _ _).symm

/-- The labels that are left in the graph, those that primitives have used up, and those that intervals
have used up. -/
def accounted (s : Progress) : List Value :=
  s.graph.labels ++ s.located.flatMap Primitive.used ++ s.collapses.flatMap Interval.used

/-- No label of `g` is lost or used up twice. The primitives that were located are those that were
contracted, and what they quote was there. -/
structure Accounts (g : FlowGraph) (s : Progress) : Prop where
  labels : g.labels ~ s.accounted
  located : s.contractions.map (·.2) = s.located
  quoted : ∀ q ∈ s.contractions, ∀ l ∈ q.2.players, l ∈ q.1.labels

theorem Accounts.start (g : FlowGraph) : Accounts g (.start g) :=
  ⟨by simp [accounted, Progress.start, collapses], rfl, fun q hq => by cases hq⟩

theorem Descends.accounts (h : Descends s s') (hv : s.graph.Validated) (ha : Accounts g s) :
    Accounts g s' := by
  obtain ⟨hg, root, hroot⟩ := hv
  obtain ⟨hlabels, hlocated, hquoted⟩ := ha
  unfold accounted at hlabels
  cases h with
  | advance had =>
    cases had with
    | quiet hq =>
      refine ⟨?_, by rwa [hq.contractions, hq.located], by rwa [hq.contractions]⟩
      rwa [accounted, hq.graph, hq.located, hq.collapses]
    | @merge within p n hm =>
      obtain ⟨hused, hthere⟩ := hm.labels_perm hg hroot
      refine ⟨?_, ?_, fun q hq => ?_⟩
      · rw [accounted, hm.located, hm.collapses, List.flatMap_append, List.flatMap_singleton]
        refine hlabels.trans (List.Perm.append_right _ ((hused.append_right _).trans ?_))
        rw [List.append_assoc]
        exact List.perm_append_comm.append_left _
      · rw [hm.contractions, hm.located, List.map_append, hlocated, List.map_singleton]
      · rw [hm.contractions] at hq
        rcases List.mem_append.1 hq with hq | hq
        · exact hquoted q hq
        · rw [List.mem_singleton.1 hq]
          exact hthere
  | derive hd =>
    refine ⟨?_, by rwa [hd.contractions, hd.located], by rwa [hd.contractions]⟩
    rw [accounted, hd.located, hd.collapses, List.flatMap_append]
    rw [List.append_assoc] at hlabels
    refine hlabels.trans (((hd.labels_perm hg hroot).append_right _).trans ?_)
    simp only [List.append_assoc]
    exact (List.perm_append_comm.trans (by rw [List.append_assoc])).append_left _

end Progress

variable {g : FlowGraph}

/-- No reduction of a graph that passes the check loses a label or uses one up twice. Each label is left
in the last graph, which is what an incomplete reduction says of it, or is used up by one of the
primitives or of the reported intervals. Whatever a primitive quotes is in the graph in which it is
located. -/
theorem Method.reduce_accounts (m : Method) (hg : g.WellFormed) (hvalid : g.validate = .ok ()) :
    ∃ r, m.reduce g = .ok r ∧ g.labels ~ r.progress.accounted ∧
      (r.progress.accounted.map Value.key).Nodup ∧
      (∀ e, r.failure = some (.incomplete e) → e.remaining = r.progress.graph.labels) ∧
      r.progress.contractions.map (·.2) = r.progress.located ∧
      ∀ q ∈ r.progress.contractions, ∀ l ∈ q.2.players, l ∈ q.1.labels := by
  have hv : g.Validated := ⟨hg, (FlowGraph.validate_eq_ok hg.closed).1 hvalid⟩
  obtain ⟨hrun, hruns, hsettled⟩ := m.reduce_descends hg hvalid
  generalize m.run g = r at hrun hruns hsettled
  obtain ⟨-, hlabels, hlocated, hquoted⟩ := Progress.Descends.invariant
    (fun hv hd ha => hd.accounts hv ha) hruns hv (Progress.Accounts.start g)
  refine ⟨r, hrun, hlabels, (hlabels.map Value.key).nodup hg.labels, fun e he => ?_, hlocated,
    hquoted⟩
  rcases hsettled with ⟨hok, -⟩ | ⟨e', he', -, hremaining, -⟩
  · rw [hok] at he
    cases he
  · rw [he'] at he
    cases he
    exact hremaining

/-- A loop with a second way out. No primitive is found in it, so that it becomes a node as it is. -/
def FlowGraph.breakLoop : FlowGraph := ofWords ["EH", "HB", "HX", "BH", "BY", "XZ", "YZ"]

theorem FlowGraph.breakLoop_reduce_accounts :
    breakLoop.WellFormed ∧ breakLoop.validate = .ok () ∧
      ∃ r, Method.interval.reduce breakLoop = .ok r ∧ breakLoop.labels ~ r.progress.accounted ∧
        (r.progress.accounted.map Value.key).Nodup ∧
        (∀ e, r.failure = some (.incomplete e) → e.remaining = r.progress.graph.labels) ∧
        r.progress.contractions.map (·.2) = r.progress.located ∧
        ∀ q ∈ r.progress.contractions, ∀ l ∈ q.2.players, l ∈ q.1.labels := by
  have hg : breakLoop.WellFormed := ofWords_wellFormed _
  have hvalid : breakLoop.validate = .ok () := by cbv
  exact ⟨hg, hvalid, Method.interval.reduce_accounts hg hvalid⟩

end Structuring
