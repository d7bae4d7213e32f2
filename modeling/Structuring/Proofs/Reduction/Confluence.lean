import Structuring.Proofs.Reduction.Overlap

/-!
# Reduction in any order

Two contractions can be made in either order, or one of them can be made up for. Where one of them
makes a loop of all that is left and the other one does not, a cut takes that loop away.

* `Template.Alike` — what templates with the same entry have in common.
* `Outline.cut_of_alike` — contractions of templates that are alike differ by a cut at most.
* `Outline.folds_steps` — an outline that folds still does so after any contraction and any cut.
-/

namespace Structuring

open Relation

variable {α : Type} [DecidableEq α]

namespace Primitive

variable {p : Primitive α} {T : Template α} {u c x : α}

/-- An arc back to the entry is the only one there, or another one leads to the exit. -/
theorem loop_back (hT : T ∈ p.templates) (hnd : T.members.Nodup) (hu : (u, T.entry) ∈ T.inner) :
    ∃ x, T.exit? = some x ∧ (outs T.inner u = {T.entry} ∨ (u, x) ∈ T.inner) := by
  cases p with
  | preLoop c b e =>
    obtain rfl := List.mem_singleton.1 hT
    refine ⟨e, rfl, .inl ?_⟩
    simp at hu hnd ⊢
    grind
  | postLoop b c e =>
    simp only [templates] at hT
    split at hT <;> obtain rfl := List.mem_singleton.1 hT
    · refine ⟨e, rfl, .inr ?_⟩
      simp at hu hnd ⊢
      grind
    · refine ⟨e, rfl, .inr ?_⟩
      simp at hu hnd ⊢
      grind
  | nWay h cs e =>
    simp only [templates, List.mem_append, List.mem_ite_nil_right, List.mem_singleton] at hT
    rcases hT with ⟨-, rfl⟩ | ⟨-, rfl⟩
    · simp [mem_fan] at hu hnd
      grind
    · simp [mem_fan] at hu hnd
      grind
  | _ =>
    obtain rfl := List.mem_singleton.1 hT
    simp at hu hnd
    grind

theorem eq_of_narrow (hT : T ∈ p.templates) (hnd : T.members.Nodup) (hx : T.exit? = some x)
    (hnot : (T.entry, x) ∉ T.inner) (hall : ∀ u, (T.entry, u) ∈ T.inner → u = c) :
    T = ⟨[T.entry, c, x], T.entry, some x, {(T.entry, c), (c, T.entry), (c, x)}⟩ := by
  cases p with
  | postLoop b c e =>
    simp only [templates] at hT
    split at hT <;> obtain rfl := List.mem_singleton.1 hT
    · simp at hx hnot
      grind
    · simp at hx hall
      grind
  | ifElseReturn c y n =>
    obtain rfl := List.mem_singleton.1 hT
    cases hx
  | nWay h cs e =>
    simp only [templates, List.mem_append, List.mem_ite_nil_right, List.mem_singleton] at hT
    rcases hT with ⟨-, rfl⟩ | ⟨hlen, rfl⟩
    · simp [mem_fan] at hx hnot
      grind
    · rcases cs with _ | ⟨c₁, _ | ⟨c₂, cs⟩⟩
      · simp at hlen
      · simp at hlen
      have h₁ := hall c₁
      have h₂ := hall c₂
      simp [mem_fan] at hnd h₁ h₂
      grind
  | ifElse c y n e =>
    obtain rfl := List.mem_singleton.1 hT
    simp at hnd hall
    grind
  | _ =>
    obtain rfl := List.mem_singleton.1 hT
    simp at hx hnot
    grind

theorem eq_of_single (hT : T ∈ p.templates) (hnd : T.members.Nodup) (hx : T.exit? = some c)
    (houts : outs T.inner T.entry = {c}) :
    T = ⟨[T.entry, c], T.entry, some c, {(T.entry, c)}⟩ := by
  have hcard := congrArg Multiset.card houts
  cases p with
  | postLoop b c e =>
    simp only [templates] at hT
    split at hT <;> obtain rfl := List.mem_singleton.1 hT
    · simp at hcard
    · next hne =>
      simp [Ne.symm hne] at hnd hx houts
      exact absurd (houts.trans hx.symm) hnd.2
  | nWay h cs e =>
    simp only [templates, List.mem_append, List.mem_ite_nil_right, List.mem_singleton] at hT
    have hh : T.members = h :: e :: cs → h ∉ cs := fun heq hm =>
      (List.nodup_cons.1 (heq ▸ hnd)).1 (List.mem_cons_of_mem _ hm)
    rcases hT with ⟨hlen, rfl⟩ | ⟨hlen, rfl⟩
    · simp [outs_fan_head (hh rfl)] at hcard
      simp [hcard] at hlen
    · simp [outs_fan_head (hh rfl)] at hcard
      omega
  | sequence a b =>
    obtain rfl := List.mem_singleton.1 hT
    simp at hx
    simp [hx]
  | _ =>
    obtain rfl := List.mem_singleton.1 hT
    simp at hnd hcard

end Primitive

namespace Outline

variable {G : Outline α} {p p' : Primitive α} {T T' : Template α} {u v : α}

open Template

/-! ## What is left of the arcs -/

def exits (G : Outline α) (T : Template α) : Multiset α := T.exit?.elim 0 (outs G.arcs)

/-- A contraction leaves the arcs out of other vertices and moves those out of the exit. -/
theorem contract_arcs_eq (hs : T.Sound) (h : T.At G) : (G.contract T).arcs =
    G.arcs.filter (·.1 ∉ T.members) + (G.exits T).map fun v => (T.entry, v) := by
  obtain ⟨F, hF, hrest⟩ := h.split hs
  have hinner : ∀ a ∈ T.inner, a.1 ∈ T.members ∧ T.exit? ≠ some a.1 := fun a ha =>
    ⟨(hs.inner_mem a ha).1, (hs.inner_mem a ha).2.2⟩
  have htarget : ∀ a ∈ F, T.rename a.2 = a.2 := by
    intro a ha
    by_cases hm : a.2 ∈ T.members
    · rw [(hrest a ha).2 hm, T.rename_entry]
    · exact rename_of_notMem hs hm
  have hother : G.arcs.filter (·.1 ∉ T.members) = F.filter (·.1 ∉ T.members) := by
    rw [hF, Multiset.filter_add, Multiset.filter_eq_nil.2 fun a ha hn => hn (hinner a ha).1, zero_add]
  have hexits : (G.exits T).map (fun v => (T.entry, v)) =
      (F.filter (·.1 ∈ T.members)).map (Prod.map T.rename T.rename) := by
    unfold exits
    cases hx : T.exit? with
    | none =>
      rw [Multiset.filter_eq_nil.2 fun a ha hm => ?_]
      · rfl
      · have := (hrest a ha).1 hm
        rw [hx] at this
        cases this
    | some x =>
      have hsame : F.filter (·.1 ∈ T.members) = G.arcs.filter (·.1 = x) := by
        have hnone : T.inner.filter (·.1 = x) = 0 :=
          Multiset.filter_eq_nil.2 fun a ha heq => (hinner a ha).2 (heq ▸ hx)
        rw [hF, Multiset.filter_add, hnone, zero_add]
        refine Multiset.filter_congr fun a ha => ⟨fun hm => ?_, fun heq => ?_⟩
        · exact Option.some.inj (((hrest a ha).1 hm).symm.trans hx)
        · exact heq ▸ (hs.exit_mem x hx).1
      rw [hsame, Option.elim_some, outs, Multiset.map_map]
      refine Multiset.map_congr rfl fun a ha => ?_
      rw [← hsame] at ha
      obtain ⟨hmem, hm⟩ := Multiset.mem_filter.1 ha
      simp only [Function.comp_apply, Prod.map, htarget a hmem, rename_exit ((hrest a hmem).1 hm)]
  have hkept : (F.filter (·.1 ∉ T.members)).map (Prod.map T.rename T.rename) =
      F.filter (·.1 ∉ T.members) := by
    conv_rhs => rw [← Multiset.map_id (F.filter _)]
    refine Multiset.map_congr rfl fun a ha => ?_
    obtain ⟨hmem, hm⟩ := Multiset.mem_filter.1 ha
    simp only [Prod.map, htarget a hmem, rename_of_notMem hs hm, id]
  calc (G.contract T).arcs
      = (F.filter (·.1 ∈ T.members) + F.filter (·.1 ∉ T.members)).map
          (Prod.map T.rename T.rename) := by
        rw [Multiset.filter_add_not, contract_arcs hF]
    _ = G.arcs.filter (·.1 ∉ T.members) + (G.exits T).map fun v => (T.entry, v) := by
        rw [Multiset.map_add, hkept, ← hexits, ← hother, add_comm]

/-! ## Loops that cannot be left -/

theorem notMem_of_loop (hs : T.Sound) (h : T.At G) (hloop : outs G.arcs v = {v}) :
    v ∉ T.members := by
  intro hv
  have hlead : G.Leads v v := mem_outs.1 (hloop ▸ Multiset.mem_singleton_self v)
  by_cases hve : v = T.entry
  · subst hve
    obtain ⟨w, hne, hw⟩ := hs.leads
    have : w ∈ outs G.arcs T.entry := mem_outs.2 (leads_of_inner hs h hw)
    rw [hloop] at this
    exact hne (Multiset.mem_singleton.1 this)
  · have hinner := inner_of_entered h hlead hv hve
    exact (hs.inner_mem _ hinner).2.2 (hs.inner_exit _ hinner hve hve)

theorem outs_contract (hs : T.Sound) (h : T.At G) (hv : v ∉ T.members) :
    outs (G.contract T).arcs v = outs G.arcs v := by
  have hmoved : outs ((G.exits T).map fun w => (T.entry, w)) v = 0 := by
    rw [outs_map_left, if_neg]
    rintro rfl
    exact hv hs.entry_mem
  rw [contract_arcs_eq hs h, outs_add, hmoved, add_zero, outs, outs, Multiset.filter_filter]
  congr 1
  exact Multiset.filter_congr fun a _ => ⟨And.left, fun ha => ⟨ha, ha ▸ hv⟩⟩

theorem outs_cut (hne : u ≠ v) : outs (G.cut v).arcs u = outs G.arcs u :=
  Multiset.ext' fun w => by
    rw [count_outs, count_outs, cut, Multiset.count_erase_of_ne fun heq => hne (congrArg Prod.fst heq)]

theorem ins_cut (hne : u ≠ v) : ins (G.cut v).arcs u = ins G.arcs u :=
  Multiset.ext' fun w => by
    rw [count_ins, count_ins, cut, Multiset.count_erase_of_ne fun heq => hne (congrArg Prod.snd heq)]

/-- A template is not touched by a cut. -/
theorem at_cut (hs : T.Sound) (h : T.At G) (hloop : outs G.arcs v = {v}) : T.At (G.cut v) := by
  have hne : ∀ m ∈ T.members, m ≠ v := fun m hm heq => notMem_of_loop hs h hloop (heq ▸ hm)
  exact ⟨h.nodup, h.mem_nodes, fun m hm hx => (outs_cut (hne m hm)).trans (h.outs_eq m hm hx),
    fun m hm he => (ins_cut (hne m hm)).trans (h.ins_eq m hm he), h.entry_eq⟩

/-- A cut and a contraction can be made in either order. -/
theorem contract_cut (hs : T.Sound) (h : T.At G) (hloop : outs G.arcs v = {v}) :
    (G.cut v).contract T = (G.contract T).cut v := by
  have hv := notMem_of_loop hs h hloop
  have hmem : (v, v) ∈ G.arcs - T.inner := by
    obtain ⟨F, hF, -⟩ := h.split hs
    have hleft := (Multiset.mem_add.1 (hF ▸ mem_of_loop hloop)).resolve_left fun hin =>
      hv (hs.inner_mem _ hin).1
    rwa [hF, add_tsub_cancel_left]
  have hself : Prod.map T.rename T.rename (v, v) = (v, v) := by
    rw [Prod.map, rename_of_notMem hs hv]
  refine Outline.ext rfl ?_ rfl
  calc (G.arcs.erase (v, v) - T.inner).map (Prod.map T.rename T.rename)
      = ((G.arcs - T.inner).erase (v, v)).map (Prod.map T.rename T.rename) := by
        rw [← Multiset.sub_singleton, ← Multiset.sub_singleton, tsub_right_comm]
    _ = ((G.arcs - T.inner).map (Prod.map T.rename T.rename)).erase (v, v) := by
        rw [Multiset.map_erase_of_mem _ _ hmem, hself]

theorem cut_comm (G : Outline α) (u v : α) : (G.cut u).cut v = (G.cut v).cut u :=
  Outline.ext rfl (Multiset.erase_comm G.arcs (u, u) (v, v)) rfl

/-- How many vertices and arcs there are. -/
def extent (G : Outline α) : Nat := G.nodes.card + G.arcs.card

theorem extent_contract_lt (hs : T.Sound) (h : T.At G) : (G.contract T).extent < G.extent := by
  have harcs : (G.contract T).arcs.card ≤ G.arcs.card := by
    rw [contract, Multiset.card_map]
    exact Multiset.card_le_card tsub_le_self
  exact Nat.add_lt_add_of_lt_of_le (card_contract_lt hs h) harcs

theorem extent_cut_lt (hloop : outs G.arcs v = {v}) : (G.cut v).extent < G.extent :=
  Nat.add_lt_add_left (Multiset.card_erase_lt_of_mem (mem_of_loop hloop)) _

/-! ## Templates with the same entry -/

end Outline

structure Template.Alike (T T' : Template α) : Prop where
  mem_iff : ∀ v, v ∈ T.members ↔ v ∈ T'.members
  entry_eq : T.entry = T'.entry

omit [DecidableEq α] in
theorem Template.Alike.symm {T T' : Template α} (h : Alike T T') : Alike T' T :=
  ⟨fun v => (h.mem_iff v).symm, h.entry_eq.symm⟩

namespace Outline

variable {G : Outline α} {p p' : Primitive α} {T T' : Template α} {u v x : α}

open Template

/-- An exit that is not that of the other template leads nowhere, or back to the entry. -/
theorem outs_exit (ha : Alike T T') (hs : T.Sound) (h : T.At G) (hT' : T' ∈ p'.templates)
    (h' : T'.At G) (hx : T.exit? = some x) (hx' : T'.exit? ≠ some x) :
    outs G.arcs x = 0 ∨ outs G.arcs x = {T.entry} := by
  have hs' := Primitive.sound hT' h'.nodup
  obtain ⟨hxT, hne⟩ := hs.exit_mem x hx
  have hxT' := (ha.mem_iff x).1 hxT
  -- an arc to another member would be inside, but those inside do not leave from the exit
  have hback : ∀ y, (x, y) ∈ T'.inner → y = T'.entry := by
    intro y hy
    by_contra hye
    have hmem := (ha.mem_iff y).2 (hs'.inner_mem _ hy).2.1
    have hinner := inner_of_entered h (leads_of_inner hs' h' hy) hmem (ha.entry_eq ▸ hye)
    exact (hs.inner_mem _ hinner).2.2 hx
  rw [h'.outs_eq x hxT' hx', ha.entry_eq]
  by_cases hloop : (x, T'.entry) ∈ T'.inner
  · obtain ⟨e, he, houts | hxe⟩ := Primitive.loop_back hT' h'.nodup hloop
    · exact .inr houts
    · exact absurd (hback e hxe) (hs'.exit_mem e he).2
  · refine .inl (Multiset.eq_zero_of_forall_notMem fun y hy => hloop ?_)
    have hxy := mem_outs.1 hy
    exact hback y hxy ▸ hxy

theorem nodes_eq_of_alike (ha : Alike T T') : (G.contract T).nodes = (G.contract T').nodes := by
  ext v
  rw [mem_contract, mem_contract, ha.mem_iff, ha.entry_eq]

theorem contract_eq_of_alike (ha : Alike T T') (hs : T.Sound) (hs' : T'.Sound) (h : T.At G)
    (h' : T'.At G) (hexits : G.exits T = G.exits T') : G.contract T = G.contract T' := by
  refine Outline.ext (nodes_eq_of_alike ha) ?_ rfl
  rw [contract_arcs_eq hs h, contract_arcs_eq hs' h', hexits, ha.entry_eq]
  congr 1
  refine Multiset.filter_congr fun a _ => ?_
  rw [ha.mem_iff]

/-- If the exit of one of two templates that are alike leads back to the entry and that of the other
one leads nowhere, a cut makes up for the difference. -/
theorem cut_of_alike (ha : Alike T T') (hs : T.Sound) (hs' : T'.Sound) (h : T.At G) (h' : T'.At G)
    (hE : G.exits T = {T.entry}) (hE' : G.exits T' = 0) :
    outs (G.contract T).arcs T.entry = {T.entry} ∧
      (G.contract T).cut T.entry = G.contract T' := by
  have hkept : (G.contract T).arcs = (G.contract T').arcs + {(T.entry, T.entry)} := by
    rw [contract_arcs_eq hs h, contract_arcs_eq hs' h', hE, hE', Multiset.map_singleton,
      Multiset.map_zero, add_zero]
    congr 1
    exact Multiset.filter_congr fun a _ => not_congr (ha.mem_iff _)
  have hnone : outs (G.contract T').arcs T.entry = 0 := by
    rw [contract_arcs_eq hs' h', hE', Multiset.map_zero, add_zero, outs, Multiset.filter_filter,
      Multiset.filter_eq_nil.2, Multiset.map_zero]
    exact fun a _ hmem => hmem.2 (hmem.1 ▸ (ha.mem_iff _).1 hs.entry_mem)
  refine ⟨?_, Outline.ext (nodes_eq_of_alike ha) ?_ rfl⟩
  · rw [hkept, outs_add, hnone, zero_add, outs_singleton, if_pos rfl]
  · rw [cut, hkept, add_comm, Multiset.singleton_add, Multiset.erase_cons_head]

/-- Of two templates that are alike, one can be contracted if the other one can. -/
theorem folds_of_alike (ha : Alike T T') (hT : T ∈ p.templates) (h : T.At G)
    (hT' : T' ∈ p'.templates) (h' : T'.At G) (hfolds : (G.contract T').Folds)
    (hcut : ∀ v, outs (G.contract T').arcs v = {v} → ((G.contract T').cut v).Folds) :
    (G.contract T).Folds := by
  have hs := Primitive.sound hT h.nodup
  have hs' := Primitive.sound hT' h'.nodup
  by_cases hexit : T.exit? = T'.exit?
  · rwa [contract_eq_of_alike ha hs hs' h h' (by rw [exits, exits, hexit])]
  have hE : G.exits T = 0 ∨ G.exits T = {T.entry} := by
    unfold exits
    cases hx : T.exit? with
    | none => exact .inl rfl
    | some x =>
      exact outs_exit ha hs h hT' h' hx fun heq => hexit (hx.trans heq.symm)
  have hE' : G.exits T' = 0 ∨ G.exits T' = {T'.entry} := by
    unfold exits
    cases hx : T'.exit? with
    | none => exact .inl rfl
    | some x =>
      exact outs_exit ha.symm hs' h' hT h hx fun heq => hexit (heq.trans hx.symm)
  rcases hE with hE | hE
  · rcases hE' with hE' | hE'
    · rwa [contract_eq_of_alike ha hs hs' h h' (hE.trans hE'.symm)]
    · obtain ⟨hloop, heq⟩ := cut_of_alike ha.symm hs' hs h' h hE' hE
      exact heq ▸ hcut _ hloop
  · rcases hE' with hE' | hE'
    · obtain ⟨hloop, heq⟩ := cut_of_alike ha hs hs' h h' hE hE'
      exact .cut hloop (heq ▸ hfolds)
    · rwa [contract_eq_of_alike ha hs hs' h h' (hE.trans (ha.entry_eq ▸ hE'.symm))]

/-- A loop whose condition follows its body: after the sequence of the two has been contracted they are
one vertex. -/
theorem loop_after_sequence {a c : α}
    (h : At ⟨[a, c, v], a, some v, {(a, c), (c, a), (c, v)}⟩ G)
    (hs : Sound ⟨[a, c, v], a, some v, {(a, c), (c, a), (c, v)}⟩) :
    At ⟨[a, v], a, some v, {(a, a), (a, v)}⟩ (G.contract ⟨[a, c], a, some c, {(a, c)}⟩) ∧
      (G.contract ⟨[a, c], a, some c, {(a, c)}⟩).contract ⟨[a, v], a, some v, {(a, a), (a, v)}⟩ =
        G.contract ⟨[a, c, v], a, some v, {(a, c), (c, a), (c, v)}⟩ := by
  obtain ⟨F, hF, hrest⟩ := h.split hs
  have hnd := h.nodup
  simp only [List.nodup_cons, List.mem_cons, List.not_mem_nil, or_false, not_or, not_false_eq_true,
    List.nodup_nil, and_true] at hnd
  obtain ⟨⟨hac, hav⟩, hcv⟩ := hnd
  have hends : ∀ w ∈ F, (w.1 ≠ a ∧ w.1 ≠ c) ∧ w.2 ≠ c ∧ w.2 ≠ v := by
    intro w hw
    have := hrest w hw
    simp only [List.mem_cons, List.not_mem_nil, or_false, Option.some.injEq] at this
    grind
  have harcs : (G.contract ⟨[a, c], a, some c, {(a, c)}⟩).arcs = {(a, a), (a, v)} + F := by
    have hF' : G.arcs = {(a, c)} + ({(c, a), (c, v)} + F) := by
      rw [hF]
      simp only [Multiset.insert_eq_cons, Multiset.cons_add, Multiset.singleton_add]
    have hkept : F.map (Prod.map (rename ⟨[a, c], a, some c, {(a, c)}⟩)
        (rename ⟨[a, c], a, some c, {(a, c)}⟩)) = F := by
      conv_rhs => rw [← Multiset.map_id F]
      refine Multiset.map_congr rfl fun w hw => ?_
      obtain ⟨⟨-, h₁⟩, h₂, -⟩ := hends w hw
      simp [rename, Prod.map, Ne.symm h₁, Ne.symm h₂]
    rw [contract_arcs hF', Multiset.map_add, hkept]
    congr 1
    simp [rename, Ne.symm hac, hcv]
  refine ⟨⟨by simpa using hav, fun m hm => ?_, fun m hm hx => ?_, fun m hm hne => ?_, fun hroot => ?_⟩,
    Outline.ext ?_ ?_ rfl⟩
  · simp only [List.mem_cons, List.not_mem_nil, or_false] at hm
    rw [mem_contract]
    refine ⟨h.mem_nodes m ?_, ?_⟩
    · simp only [List.mem_cons, List.not_mem_nil, or_false]
      grind
    · simp only [List.mem_cons, List.not_mem_nil, or_false]
      grind
  · have hma : m = a := by
      simp only [List.mem_cons, List.not_mem_nil, or_false] at hm
      exact hm.resolve_right fun heq => hx (heq ▸ rfl)
    have hnone : outs F m = 0 := Multiset.eq_zero_of_forall_notMem fun w hw =>
      (hends _ (mem_outs.1 hw)).1.1 hma
    rw [harcs, outs_add, hnone, add_zero]
  · have hmv : m = v := by
      simp only [List.mem_cons, List.not_mem_nil, or_false] at hm
      exact hm.resolve_left hne
    have hnone : ins F m = 0 := Multiset.eq_zero_of_forall_notMem fun w hw =>
      (hends _ (mem_ins.1 hw)).2.2 hmv
    rw [harcs, ins_add, hnone, add_zero]
  · refine h.entry_eq ?_
    simp only [List.mem_cons, List.not_mem_nil, or_false] at hroot ⊢
    exact hroot.imp_right .inr
  · ext w
    simp only [mem_contract, List.mem_cons, List.not_mem_nil, or_false]
    grind
  · rw [contract_arcs harcs, contract_arcs hF]
    rfl

/-- A template that has a member more than another one with the same entry is a loop whose condition
follows its body, and the other one is the sequence of the two. After that the loop has its condition
and its body in one vertex. -/
theorem loop_of_sequence (hT : T ∈ p.templates) (h : T.At G) (hT' : T' ∈ p'.templates)
    (h' : T'.At G) (hentry : T.entry = T'.entry) (hv : v ∈ T.members) (hv' : v ∉ T'.members) :
    ∃ T₁ ∈ (Primitive.postLoop T.entry T.entry v).templates, T₁.At (G.contract T') ∧
      (G.contract T').contract T₁ = G.contract T := by
  have hs := Primitive.sound hT h.nodup
  have hs' := Primitive.sound hT' h'.nodup
  have hsource : T'.exit? ≠ some T.entry := fun hx => (hs'.exit_mem _ hx).2 hentry
  have hfirst : ∀ u, (T.entry, u) ∈ T.inner → (T.entry, u) ∈ T'.inner := fun u hu =>
    inner_of_leaving h' (leads_of_inner hs h hu) (hentry ▸ hs'.entry_mem) hsource
  have hnot : (T.entry, v) ∉ T.inner := fun hmem => hv' (hs'.inner_mem _ (hfirst v hmem)).2.1
  have hve : v ≠ T.entry := fun heq => hv' (heq ▸ hentry ▸ hs'.entry_mem)
  have hx : T.exit? = some v := by
    by_contra hx
    exact hnot (hs.branch v hv hve hx)
  -- whatever the entry leads to is the exit of the other template, as it leads out of that one
  have hall : ∀ u, (T.entry, u) ∈ T.inner → T'.exit? = some u := by
    intro u hu
    by_contra hxu
    have huv := ((hs.merge v hx).resolve_left hnot u hu).1
    exact hv' (hs'.inner_mem _ (inner_of_leaving h' (leads_of_inner hs h huv)
      (hs'.inner_mem _ (hfirst u hu)).2.1 hxu)).2.1
  obtain ⟨c, hce, hc⟩ := hs.leads
  have hx' := hall c hc
  have hTeq := Primitive.eq_of_narrow hT h.nodup hx hnot fun u hu =>
    Option.some.inj ((hall u hu).symm.trans hx')
  have houts : outs T'.inner T'.entry = {c} := by
    have hout := congrArg (fun U => outs U.inner U.entry) hTeq
    simp only [Multiset.insert_eq_cons, outs_cons, if_neg hce, outs_singleton, if_pos] at hout
    rw [← h'.outs_eq _ hs'.entry_mem fun hx => (hs'.exit_mem _ hx).2 rfl, ← hentry,
      h.outs_eq _ hs.entry_mem fun hx => (hs.exit_mem _ hx).2 rfl, hout]
    rfl
  have hTeq' := Primitive.eq_of_single hT' h'.nodup hx' houts
  rw [hTeq] at h hs
  rw [← hentry] at hTeq'
  obtain ⟨hat, heq⟩ := loop_after_sequence h hs
  refine ⟨_, by simp [Primitive.templates], hTeq' ▸ hat, ?_⟩
  rw [hTeq', heq, ← hTeq]

/-! ## Any order -/

/-- An outline that folds still does so after any contraction of a primitive, and after any cut at a
vertex that leads to itself only. -/
theorem folds_steps (hG : G.Valid) (hfolds : G.Folds) :
    (∀ (p : Primitive α) (T : Template α), T ∈ p.templates → T.At G → (G.contract T).Folds) ∧
      ∀ v, outs G.arcs v = {v} → (G.cut v).Folds := by
  induction hn : G.extent using Nat.strong_induction_on generalizing G with
  | _ n ih =>
    subst hn
    cases hfolds with
    | single hcard =>
      refine ⟨fun p T hT h => ?_, fun v _ => .single hcard⟩
      exact .single ((card_contract_lt (Primitive.sound hT h.nodup) h).le.trans hcard)
    | @cut _ v hloop hcut =>
      obtain ⟨ihcontract, ihcut⟩ := ih _ (extent_cut_lt hloop) (hG.cut v) hcut rfl
      refine ⟨fun p T hT h => ?_, fun w hw => ?_⟩
      · have hs := Primitive.sound hT h.nodup
        have hv := notMem_of_loop hs h hloop
        refine .cut ((outs_contract hs h hv).trans hloop) ?_
        rw [← contract_cut hs h hloop]
        exact ihcontract p T hT (at_cut hs h hloop)
      · by_cases hwv : w = v
        · exact hwv ▸ hcut
        · refine .cut ((outs_cut (Ne.symm hwv)).trans hloop) ?_
          rw [cut_comm]
          exact ihcut w ((outs_cut hwv).trans hw)
    | @step _ p' T' hT' h' hrest =>
      have hs' := Primitive.sound hT' h'.nodup
      have hvalid := hG.contract hs' h'
      obtain ⟨ihcontract, ihcut⟩ := ih _ (extent_contract_lt hs' h') hvalid hrest rfl
      refine ⟨fun p T hT h => ?_, fun v hloop => ?_⟩
      · have hs := Primitive.sound hT h.nodup
        by_cases hentry : T.entry = T'.entry
        · by_cases hsub : ∀ v ∈ T.members, v ∈ T'.members
          · by_cases hsub' : ∀ v ∈ T'.members, v ∈ T.members
            · exact folds_of_alike ⟨fun v => ⟨hsub v, hsub' v⟩, hentry⟩ hT h hT' h' hrest ihcut
            · -- the other template is the loop, which can still be contracted
              push Not at hsub'
              obtain ⟨v, hv', hv⟩ := hsub'
              obtain ⟨T₁, hT₁, hat, heq⟩ := loop_of_sequence hT' h' hT h hentry.symm hv' hv
              exact .step hT₁ hat (heq ▸ hrest)
          · push Not at hsub
            obtain ⟨v, hv, hv'⟩ := hsub
            obtain ⟨T₁, hT₁, hat, heq⟩ := loop_of_sequence hT h hT' h' hentry hv hv'
            exact heq ▸ ihcontract _ T₁ hT₁ hat
        · have ha := hG.apart hs hs' h h' hentry
          have hboth := ihcontract _ _ (Primitive.templates_map hT (ha.symm.rename_injOn hs'))
            (ha.symm.at_contract hs' hs h' h)
          rw [← ha.contract_comm hs hs' h h'] at hboth
          exact .step (Primitive.templates_map hT' (ha.rename_injOn hs))
            (ha.at_contract hs hs' h h') hboth
      · refine .step hT' (at_cut hs' h' hloop) ?_
        rw [contract_cut hs' h' hloop]
        exact ihcut v ((outs_contract hs' h' (notMem_of_loop hs' h' hloop)).trans hloop)

theorem Folds.contract (hfolds : G.Folds) (hG : G.Valid) (hT : T ∈ p.templates) (h : T.At G) :
    (G.contract T).Folds := (folds_steps hG hfolds).1 p T hT h

end Outline

end Structuring
