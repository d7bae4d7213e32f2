import Structuring.Proofs.Reduction.Quotient

/-!
# The search for primitives

* `FlowGraph.exists_candidate` — if some nodes pass the test of a primitive, a candidate of the kind
  at the same entry does.
* `FlowGraph.findMatch_ne_none` — the search, among some nodes or in the whole graph, finds a primitive
  if there is one.
-/

namespace Structuring

namespace Primitive

variable {g : FlowGraph} {t : DominatorTree NodeId} {T T' : Template NodeId}

theorem Passes.congr (h : Passes g t T) (hmembers : T.members.Perm T'.members)
    (hentry : T'.entry = T.entry) (hexit : T'.exit? = T.exit?) (hinner : T'.inner = T.inner) :
    Passes g t T' where
  nodup := hmembers.nodup_iff.1 h.nodup
  dominates m hm := by
    rw [hentry]
    exact h.dominates m (hmembers.mem_iff.2 hm)
  outs_eq m hm := by
    rw [hexit, hinner]
    exact h.outs_eq m (hmembers.mem_iff.2 hm)
  ins_eq m hm := by
    rw [hentry, hinner]
    exact h.ins_eq m (hmembers.mem_iff.2 hm)

theorem holds_ifElseReturn_swap {c y n : NodeId} (h : holds g t (.ifElseReturn c y n) = true) :
    holds g t (.ifElseReturn c n y) = true := by
  obtain ⟨T, hT, hp⟩ := holds_iff_passes.1 h
  obtain rfl := List.mem_singleton.1 hT
  refine holds_iff_passes.2 ⟨_, List.mem_singleton_self _, hp.congr ?_ rfl rfl ?_⟩
  · exact (List.Perm.swap n y []).cons c
  · exact Multiset.pair_comm _ _

theorem holds_ifElse_swap {c y n e : NodeId} (h : holds g t (.ifElse c y n e) = true) :
    holds g t (.ifElse c n y e) = true := by
  obtain ⟨T, hT, hp⟩ := holds_iff_passes.1 h
  obtain rfl := List.mem_singleton.1 hT
  refine holds_iff_passes.2 ⟨_, List.mem_singleton_self _, hp.congr ?_ rfl rfl ?_⟩
  · exact (List.Perm.swap n y [e]).cons c
  · simp only [Multiset.insert_eq_cons, ← Multiset.singleton_add]
    abel

theorem holds_nWay_perm {h e : NodeId} {cs cs' : List NodeId} (hperm : cs.Perm cs')
    (hh : holds g t (.nWay h cs e) = true) : holds g t (.nWay h cs' e) = true := by
  obtain ⟨T, hT, hp⟩ := holds_iff_passes.1 hh
  obtain ⟨direct, hlen, hlen', rfl⟩ := mem_templates_nWay.1 hT
  refine holds_iff_passes.2 ⟨_, mem_templates_nWay.2 ⟨direct, hperm.length_eq ▸ hlen, ?_, rfl⟩,
    hp.congr ((hperm.cons e).cons h) rfl rfl ?_⟩
  · cases direct with
    | false => simpa [hperm.length_eq] using hlen'
    | true => simpa [hperm.length_eq] using hlen'
  · simp only [fan, Multiset.coe_eq_coe.2 hperm]

theorem players_nWay_perm {h e : NodeId} {cs cs' : List NodeId} (hperm : cs.Perm cs') :
    (Primitive.nWay h cs e).players.Perm (Primitive.nWay h cs' e).players := by
  simp only [players, roles, List.map_cons, List.map_append, caseRoles_players, List.map_nil,
    List.cons_append]
  exact (hperm.append_right [e]).cons h

variable {p q : Primitive NodeId} {within : Option (List NodeId)}

/-- All players are in a set, if one is given. -/
def Inside (within : Option (List NodeId)) (p : Primitive NodeId) : Prop :=
  ∀ ns ∈ within, ∀ v ∈ p.players, v ∈ ns

theorem inside_none : p.Inside none := nofun

theorem inside_some {ns : List NodeId} : p.Inside (some ns) ↔ ∀ v ∈ p.players, v ∈ ns := by
  simp [Inside]

theorem isWithin_iff : FlowGraph.isWithin within p = true ↔ p.Inside within := by
  cases within <;> simp [FlowGraph.isWithin, Inside]

theorem Inside.of_perm (h : p.Inside within) (hperm : q.players.Perm p.players) :
    q.Inside within := by
  intro ns hns v hv
  exact h ns hns v (hperm.mem_iff.1 hv)

end Primitive

namespace FlowGraph

variable {g : FlowGraph} {root : NodeId} {t : DominatorTree NodeId} {p : Primitive NodeId}
  {within : Option (List NodeId)} {n a b : NodeId}

theorem successors_pair (h : g.targets n [a, b] = true) (hab : a ≠ b) :
    g.successors n = [a, b] ∨ g.successors n = [b, a] := by
  have hperm := successors_perm (targets_iff.1 h) (by simpa using hab)
  exact List.perm_pair.1 hperm

theorem successors_single (h : g.targets n [a] = true) : g.successors n = [a] := by
  have hperm := successors_perm (targets_iff.1 h) (List.nodup_singleton a)
  exact List.perm_singleton.1 hperm

theorem mem_twoWay (h : g.targets n [a, b] = true) (hab : a ≠ b) : (a, b) ∈ g.twoWay n := by
  unfold twoWay
  rcases successors_pair h hab with heq | heq
  · simp [heq]
  · simp [heq]

theorem mem_candidates_postLoop {b c e : NodeId}
    (h : (Primitive.postLoop b c e).holds g t = true) :
    .postLoop b c e ∈ Kind.candidates g b .postLoop := by
  by_cases hbc : b = c
  · subst hbc
    simp only [Primitive.holds, if_pos, Bool.and_eq_true, allDistinct_iff] at h
    have hbe : b ≠ e := by simpa using h.1.1.1
    rcases successors_pair h.1.2 hbe with heq | heq
    · simp [Kind.candidates, heq, Ne.symm hbe]
    · simp [Kind.candidates, heq, Ne.symm hbe]
  · simp only [Primitive.holds, if_neg hbc, Bool.and_eq_true, allDistinct_iff] at h
    have hbe : b ≠ e := fun heq => (List.nodup_cons.1 h.1.1.1.1.1).1 (by simp [heq])
    have heq := successors_single h.1.1.1.2
    rcases successors_pair h.1.2 hbe with heq' | heq'
    · simp [Kind.candidates, heq, heq', hbc, Ne.symm hbe]
    · simp [Kind.candidates, heq, heq', hbc, Ne.symm hbe]

/-- The cases of a multiway branch are the successors of its head but the exit. -/
theorem exists_candidate_nWay {e : NodeId} {cs : List NodeId}
    (h : (Primitive.nWay n cs e).holds g t = true) :
    ∃ q ∈ Kind.candidates g n .nWay,
      q.holds g t = true ∧ q.players.Perm (Primitive.nWay n cs e).players := by
  have h' := h
  simp only [Primitive.holds, Bool.and_eq_true, allDistinct_iff, decide_eq_true_eq,
    List.all_eq_true] at h'
  obtain ⟨⟨⟨⟨⟨⟨hlen, hnd⟩, -⟩, hn⟩, hlen'⟩, hcases⟩, -⟩ := h'
  obtain ⟨he, hcs⟩ := List.nodup_cons.1 hnd.of_cons
  have hsuccs : (g.successors n).Perm
      (if (g.successors n).contains e then e :: cs else cs) := by
    refine successors_perm (targets_iff.1 hn) ?_
    split
    · exact hnd.of_cons
    · exact hcs
  have hcs_self : cs.filter (· ≠ e) = cs :=
    List.filter_eq_self.2 fun c hc => by simpa using fun heq : c = e => he (heq ▸ hc)
  have hperm : ((g.successors n).filter (· ≠ e)).Perm cs := by
    refine (hsuccs.filter _).trans (List.Perm.of_eq ?_)
    split
    · rw [List.filter_cons_of_neg (by simp), hcs_self]
    · exact hcs_self
  obtain ⟨c, hc⟩ : ∃ c, c ∈ cs := List.exists_mem_of_length_pos (by omega)
  have hcn : c ∈ g.successors n := (List.mem_filter.1 (hperm.mem_iff.2 hc)).1
  have hce : e ∈ g.successors c := by
    rw [successors_single (hcases c hc).2]
    exact List.mem_singleton_self e
  refine ⟨_, ?_, Primitive.holds_nWay_perm hperm.symm h, Primitive.players_nWay_perm hperm⟩
  simp only [Kind.candidates, if_neg (Nat.not_lt.2 hlen')]
  exact List.mem_map_of_mem (mem_distinct.2 (List.mem_flatMap.2 ⟨c, hcn, hce⟩))

theorem exists_candidate (h : p.holds g t = true) :
    ∃ q ∈ p.kind.candidates g p.entry, q.holds g t = true ∧ q.players.Perm p.players := by
  cases p with
  | preLoop c b e | ifReturn c b e | ifThen c b e =>
    have h' := h
    simp only [Primitive.holds, Bool.and_eq_true, allDistinct_iff] at h'
    obtain ⟨⟨⟨⟨⟨hnd, -⟩, hc⟩, -⟩, -⟩, -⟩ := h'
    have hbe : b ≠ e := by simpa using hnd.of_cons
    exact ⟨_, List.mem_map_of_mem (mem_twoWay hc hbe), h, .refl _⟩
  | postLoop b c e => exact ⟨_, mem_candidates_postLoop h, h, .refl _⟩
  | ifElseReturn c y n =>
    have h' := h
    simp only [Primitive.holds, Bool.and_eq_true, allDistinct_iff] at h'
    obtain ⟨⟨⟨⟨⟨⟨hnd, -⟩, hc⟩, -⟩, -⟩, -⟩, -⟩ := h'
    have hyn : y ≠ n := by simpa using hnd.of_cons
    rcases successors_pair hc hyn with heq | heq
    · exact ⟨_, by simp [Primitive.kind, Primitive.entry, Kind.candidates, heq], h, .refl _⟩
    · exact ⟨_, by simp [Primitive.kind, Primitive.entry, Kind.candidates, heq],
        Primitive.holds_ifElseReturn_swap h, (List.Perm.swap y n []).cons c⟩
  | ifElse c y n e =>
    have h' := h
    simp only [Primitive.holds, Bool.and_eq_true, allDistinct_iff] at h'
    obtain ⟨⟨⟨⟨⟨⟨⟨hnd, -⟩, hc⟩, -⟩, hy⟩, -⟩, hn⟩, -⟩ := h'
    have hyn : y ≠ n := fun heq => (List.nodup_cons.1 hnd.of_cons).1 (by simp [heq])
    have hy' := successors_single hy
    have hn' := successors_single hn
    rcases successors_pair hc hyn with heq | heq
    · exact ⟨_, by simp [Primitive.kind, Primitive.entry, Kind.candidates, heq, hy'], h, .refl _⟩
    · exact ⟨_, by simp [Primitive.kind, Primitive.entry, Kind.candidates, heq, hn'],
        Primitive.holds_ifElse_swap h, (List.Perm.swap y n [e]).cons c⟩
  | fallthrough c e =>
    have h' := h
    simp only [Primitive.holds, Bool.and_eq_true, targets_iff] at h'
    obtain ⟨⟨-, hout⟩, -⟩ := h'
    have heq : g.successors c = [e] := by
      rw [outs_ends, Multiset.coe_eq_coe, show [e, e] = List.replicate 2 e from rfl,
        List.perm_replicate] at hout
      rw [Digraph.successors, hout]
      simp [distinct]
    exact ⟨_, by simp [Primitive.kind, Primitive.entry, Kind.candidates, heq], h, .refl _⟩
  | sequence a b =>
    have h' := h
    simp only [Primitive.holds, Bool.and_eq_true] at h'
    obtain ⟨⟨-, ha⟩, -⟩ := h'
    have heq := successors_single ha
    exact ⟨_, by simp [Primitive.kind, Primitive.entry, Kind.candidates, heq], h, .refl _⟩
  | nWay n cs e => exact exists_candidate_nWay h

def searched (g : FlowGraph) : Option (List NodeId) → List NodeId
  | none => g.ids
  | some ns => g.ids.filter ns.contains

theorem findMatch_eq (g : FlowGraph) (t : DominatorTree NodeId) (within : Option (List NodeId)) :
    g.findMatch t within =
      (g.searched within).findSome? fun n => Kind.all.findSome? fun k => g.matchAt t within k n := by
  cases within <;> rfl

theorem matchAt_ne_none (hin : p.Inside within) (h : p.holds g t = true) :
    g.matchAt t within p.kind p.entry ≠ none := by
  intro hnone
  obtain ⟨q, hq, hholds, hperm⟩ := exists_candidate h
  refine List.find?_eq_none.1 hnone q hq ?_
  rw [Bool.and_eq_true, Primitive.isWithin_iff]
  exact ⟨hin.of_perm hperm, hholds⟩

theorem searched_sublist : (g.searched within).Sublist g.ids := by
  cases within with
  | none => exact .refl _
  | some ns => exact List.filter_sublist

theorem mem_searched (hin : p.Inside within) (hentry : p.entry ∈ g.ids) :
    p.entry ∈ g.searched within := by
  cases within with
  | none => exact hentry
  | some ns =>
    have hmem := hin ns rfl _ p.entry_mem_players
    exact List.mem_filter.2 ⟨hentry, by simpa using hmem⟩

theorem findSome?_kinds_ne_none (hin : p.Inside within) (h : p.holds g t = true) :
    (Kind.all.findSome? fun k => g.matchAt t within k p.entry) ≠ none := by
  intro hnone
  exact matchAt_ne_none hin h (List.findSome?_eq_none_iff.1 hnone p.kind (Kind.mem_all p.kind))

theorem findMatch_ne_none (hin : p.Inside within) (hentry : p.entry ∈ g.ids)
    (h : p.holds g t = true) : g.findMatch t within ≠ none := by
  rw [findMatch_eq]
  intro hnone
  exact findSome?_kinds_ne_none hin h (List.findSome?_eq_none_iff.1 hnone _ (mem_searched hin hentry))

end FlowGraph

end Structuring
