import Structuring.Proofs.Reduction.Contraction

/-!
# Overlapping templates

* `Template.Apart` — two templates share nothing but the exit of one that is the entry of the other.
* `Outline.Valid.apart` — this holds of templates with different entries in a valid outline.
* `Apart.at_contract`, `Apart.contract_comm` — such templates can be contracted in either order.
-/

namespace Structuring

open Relation

variable {α : Type} [DecidableEq α]

namespace Template

/-- The templates share nothing but the exit of one that is the entry of the other, and not the entry
of the first as well. -/
structure Apart (T T' : Template α) : Prop where
  shared : ∀ v, v ∈ T.members → v ∈ T'.members →
    (v = T'.entry ∧ T.exit? = some v) ∨ (v = T.entry ∧ T'.exit? = some v)
  once : T.entry ∈ T'.members → T'.entry ∉ T.members

omit [DecidableEq α] in
theorem Apart.symm {T T' : Template α} (h : Apart T T') : Apart T' T :=
  ⟨fun v hv hv' => (h.shared v hv' hv).symm, fun hm hm' => h.once hm' hm⟩

end Template

namespace Outline

variable {G : Outline α} {T T' : Template α} {u v : α}

open Template

theorem inner_of_entered (h : T.At G) (huv : G.Leads u v) (hv : v ∈ T.members)
    (hne : v ≠ T.entry) : (u, v) ∈ T.inner := by
  rw [← mem_ins, ← h.ins_eq v hv hne, mem_ins]
  exact huv

theorem inner_of_leaving (h : T.At G) (huv : G.Leads u v) (hu : u ∈ T.members)
    (hx : T.exit? ≠ some u) : (u, v) ∈ T.inner := by
  rw [← mem_outs, ← h.outs_eq u hu hx, mem_outs]
  exact huv

theorem leads_of_inner (hs : T.Sound) (h : T.At G) (huv : (u, v) ∈ T.inner) : G.Leads u v := by
  obtain ⟨F, hF, -⟩ := h.split hs
  rw [Leads, hF]
  exact Multiset.mem_add.2 (.inl huv)

omit [DecidableEq α] in
/-- A set that is entered from itself only and does not hold the entry is not reached. -/
theorem Valid.not_mem (hG : G.Valid) {s : α → Prop} (hroot : ¬ s G.entry)
    (hs : ∀ u v, G.Leads u v → s v → s u) (hv : v ∈ G.nodes) : ¬ s v := by
  have hreach := hG.reach v hv
  clear hv
  induction hreach with
  | refl => exact hroot
  | tail _ huv ih => exact fun hsv => ih (hs _ _ huv hsv)

/-- If the entry of one template is a member of another, it is the exit there and all they share. -/
theorem shared_of_entry_mem (hs : T.Sound) (hs' : T'.Sound) (h : T.At G) (h' : T'.At G)
    (hmem : T'.entry ∈ T.members) (hnot : T.entry ∉ T'.members) :
    T.exit? = some T'.entry ∧ ∀ v, v ∈ T.members → v ∈ T'.members → v = T'.entry := by
  have hne : T'.entry ≠ T.entry := fun heq => hnot (heq ▸ hs'.entry_mem)
  have hout : ∀ v, G.Leads T'.entry v → (T'.entry, v) ∈ T'.inner := fun v hv =>
    inner_of_leaving h' hv hs'.entry_mem fun hx => (hs'.exit_mem _ hx).2 rfl
  have hexit : T.exit? = some T'.entry := by
    by_contra hx
    obtain ⟨w, hw, hlead⟩ := hs'.leads
    have hw' := inner_of_leaving h (leads_of_inner hs' h' hlead) hmem hx
    rcases hs.leaf _ hmem hne hx with hnone | hback | ⟨x, -, hall, u, hu, hux⟩
    · exact hnone w hw'
    · exact hnot (hs'.inner_mem _ (hout _ (leads_of_inner hs h hback))).2.1
    · -- the entry leads to the exit of the other template only, which is entered from elsewhere too
      have hall' : ∀ v, (T'.entry, v) ∈ T'.inner → v = x := fun v hv =>
        hall v (inner_of_leaving h (leads_of_inner hs' h' hv) hmem hx)
      obtain rfl := hall' w hlead
      have hmem' := (hs'.inner_mem _ hlead).2.1
      exact hu (hs'.narrow w hw hall' u
        (inner_of_entered h' (leads_of_inner hs h hux) hmem' hw))
  refine ⟨hexit, fun v hv hv' => ?_⟩
  by_contra hve
  have hvT : v ≠ T.entry := fun heq => hnot (heq ▸ hv')
  have hvx : T.exit? ≠ some v := fun heq => hve (Option.some.inj (heq.symm.trans hexit))
  have hbranch := leads_of_inner hs h (hs.branch v hv hvT hvx)
  exact hnot (hs'.inner_mem _ (inner_of_entered h' hbranch hv' hve)).1

theorem Valid.apart (hG : G.Valid) (hs : T.Sound) (hs' : T'.Sound) (h : T.At G) (h' : T'.At G)
    (hne : T.entry ≠ T'.entry) : Apart T T' := by
  have honce : T.entry ∈ T'.members → T'.entry ∉ T.members := by
    intro hm hm'
    -- what both have is entered from there only, so the entry of the outline would be there
    refine hG.not_mem (s := fun v => v ∈ T.members ∨ v ∈ T'.members) ?_ (fun u v huv hv => ?_)
      (h.mem_nodes _ hs.entry_mem) (.inl hs.entry_mem)
    · have hroot : G.entry ∈ T.members → G.entry ∈ T'.members := fun hr =>
        h.entry_eq hr ▸ hm
      have hroot' : G.entry ∈ T'.members → G.entry ∈ T.members := fun hr =>
        h'.entry_eq hr ▸ hm'
      rintro (hr | hr)
      · exact hne ((h.entry_eq hr).symm.trans (h'.entry_eq (hroot hr)))
      · exact hne ((h.entry_eq (hroot' hr)).symm.trans (h'.entry_eq hr))
    · have hT : v ∈ T.members → v ≠ T.entry → u ∈ T.members := fun hv hne =>
        (hs.inner_mem _ (inner_of_entered h huv hv hne)).1
      have hT' : v ∈ T'.members → v ≠ T'.entry → u ∈ T'.members := fun hv hne =>
        (hs'.inner_mem _ (inner_of_entered h' huv hv hne)).1
      by_cases hvT : v = T.entry
      · exact .inr (hT' (hvT ▸ hm) (hvT ▸ hne))
      · by_cases hvT' : v = T'.entry
        · exact .inl (hT (hvT' ▸ hm') hvT)
        · exact hv.imp (hT · hvT) (hT' · hvT')
  refine ⟨fun v hv hv' => ?_, honce⟩
  by_cases hm : T'.entry ∈ T.members
  · obtain ⟨hx, hall⟩ := shared_of_entry_mem hs hs' h h' hm fun hm' => honce hm' hm
    obtain rfl := hall v hv hv'
    exact .inl ⟨rfl, hx⟩
  · by_cases hm' : T.entry ∈ T'.members
    · obtain ⟨hx, hall⟩ := shared_of_entry_mem hs' hs h' h hm' hm
      obtain rfl := hall v hv' hv
      exact .inr ⟨rfl, hx⟩
    · refine absurd ⟨hv, hv'⟩ (hG.not_mem (s := fun v => v ∈ T.members ∧ v ∈ T'.members) ?_
        (fun u w huw hw => ⟨?_, ?_⟩) (h.mem_nodes v hv))
      · rintro ⟨hr, hr'⟩
        exact hne ((h.entry_eq hr).symm.trans (h'.entry_eq hr'))
      · exact (hs.inner_mem _ (inner_of_entered h huw hw.1 fun heq => hm' (heq ▸ hw.2))).1
      · exact (hs'.inner_mem _ (inner_of_entered h' huw hw.2 fun heq => hm (heq ▸ hw.1))).1

end Outline

/-! ## Contraction in either order -/

namespace Template.Apart

variable {G : Outline α} {T T' : Template α} {v w : α}

omit [DecidableEq α] in
/-- An exit that is shared is the other entry, and then the entries are not both shared. -/
theorem exit_shared (ha : Apart T T') (hs : T.Sound) (hx : T.exit? = some v) (hv : v ∈ T'.members) :
    v = T'.entry ∧ T.entry ∉ T'.members := by
  obtain ⟨hvT, hne⟩ := hs.exit_mem v hx
  have heq : v = T'.entry := by
    rcases ha.shared v hvT hv with ⟨heq, -⟩ | ⟨heq, -⟩
    · exact heq
    · exact absurd heq hne
  exact ⟨heq, fun hm => ha.once hm (heq ▸ hvT)⟩

omit [DecidableEq α] in
/-- An entry that is shared is the other exit. -/
theorem entry_shared (ha : Apart T T') (hs : T.Sound) (hm : T.entry ∈ T'.members) :
    T'.exit? = some T.entry := by
  rcases ha.shared _ hs.entry_mem hm with ⟨-, hx⟩ | ⟨-, hx⟩
  · exact absurd rfl (hs.exit_mem _ hx).2
  · exact hx

omit [DecidableEq α] in
theorem exit_ne (ha : Apart T T') (hs : T.Sound) (hs' : T'.Sound) (hx : T.exit? = some v) :
    T'.exit? ≠ some v := fun hx' =>
  (hs'.exit_mem v hx').2 (ha.exit_shared hs hx (hs'.exit_mem v hx').1).1

theorem rename_injOn (ha : Apart T T') (hs : T.Sound) :
    Set.InjOn T.rename {v | v ∈ T'.members} := by
  intro v hv w hw heq
  by_cases hxv : T.exit? = some v
  · by_cases hxw : T.exit? = some w
    · exact Option.some.inj (hxv.symm.trans hxw)
    · rw [rename_exit hxv, rename_of_ne hxw] at heq
      exact absurd (heq ▸ hw) (ha.exit_shared hs hxv hv).2
  · by_cases hxw : T.exit? = some w
    · rw [rename_of_ne hxv, rename_exit hxw] at heq
      exact absurd (heq ▸ hv) (ha.exit_shared hs hxw hw).2
    · rwa [rename_of_ne hxv, rename_of_ne hxw] at heq

/-- The arcs of an outline in which both templates stand. -/
theorem split (ha : Apart T T') (hs : T.Sound) (hs' : T'.Sound) (h : T.At G) (h' : T'.At G) :
    ∃ F, G.arcs = T.inner + (T'.inner + F) ∧
      (∀ a ∈ F, (a.1 ∈ T.members → T.exit? = some a.1) ∧ (a.2 ∈ T.members → a.2 = T.entry)) ∧
      ∀ a ∈ F, (a.1 ∈ T'.members → T'.exit? = some a.1) ∧ (a.2 ∈ T'.members → a.2 = T'.entry) := by
  obtain ⟨F, hF, hrest⟩ := h.split hs
  obtain ⟨F', hF', hrest'⟩ := h'.split hs'
  have hle : T'.inner ≤ F := by
    refine Multiset.le_iff_count.2 fun a => ?_
    by_cases hmem : a ∈ T'.inner
    · have hnot : a ∉ T.inner := by
        intro hmem'
        obtain ⟨hm, -, hx⟩ := hs.inner_mem a hmem'
        obtain ⟨hm', -, hx'⟩ := hs'.inner_mem a hmem
        rcases ha.shared _ hm hm' with ⟨-, heq⟩ | ⟨-, heq⟩
        · exact hx heq
        · exact hx' heq
      have hcount := congrArg (Multiset.count a) (hF.symm.trans hF')
      rw [Multiset.count_add, Multiset.count_add, Multiset.count_eq_zero.2 hnot] at hcount
      omega
    · rw [Multiset.count_eq_zero.2 hmem]
      exact Nat.zero_le _
  obtain ⟨E, rfl⟩ := Multiset.le_iff_exists_add.1 hle
  have hE : F' = T.inner + E := by
    have := hF'.symm.trans (hF.trans (add_left_comm _ _ _))
    exact add_left_cancel this
  refine ⟨E, hF, fun a hmem => hrest a (Multiset.mem_add.2 (.inr hmem)), fun a hmem => ?_⟩
  exact hrest' a (hE ▸ Multiset.mem_add.2 (.inr hmem))

/-- After the contraction of one template the other one stands there, with the exit of the first named
like its entry. -/
theorem at_contract (ha : Apart T T') (hs : T.Sound) (hs' : T'.Sound) (h : T.At G) (h' : T'.At G) :
    (T'.map T.rename).At (G.contract T) := by
  obtain ⟨F, hF, hrest, hrest'⟩ := ha.split hs hs' h h'
  have harcs : (G.contract T).arcs =
      (T'.map T.rename).inner + F.map (Prod.map T.rename T.rename) := by
    rw [Outline.contract_arcs hF, Multiset.map_add]
    rfl
  refine ⟨h'.nodup.map_on fun v hv w hw => ha.rename_injOn hs hv hw, fun m hm => ?_,
    fun m hm hx => ?_, fun m hm hne => ?_, fun hroot => ?_⟩
  · obtain ⟨v, hv, rfl⟩ := List.mem_map.1 hm
    rw [Outline.mem_contract]
    by_cases hxv : T.exit? = some v
    · rw [rename_exit hxv]
      exact ⟨h.mem_nodes _ hs.entry_mem, fun _ => rfl⟩
    · rw [rename_of_ne hxv]
      refine ⟨h'.mem_nodes v hv, fun hvT => ?_⟩
      exact ((ha.shared v hvT hv).resolve_left fun hsh => hxv hsh.2).1
  · obtain ⟨v, hv, rfl⟩ := List.mem_map.1 hm
    have hxv' : T'.exit? ≠ some v := fun heq => hx (by simp [Template.map, heq])
    have hnone : outs (F.map (Prod.map T.rename T.rename)) (T.rename v) = 0 := by
      refine Multiset.eq_zero_of_forall_notMem fun w hw => ?_
      obtain ⟨⟨u, y⟩, hmem, heq⟩ := Multiset.mem_map.1 (mem_outs.1 hw)
      have huv : T.rename u = T.rename v := congrArg Prod.fst heq
      by_cases hxu : T.exit? = some u
      · by_cases hxv : T.exit? = some v
        · obtain rfl := Option.some.inj (hxu.symm.trans hxv)
          exact hxv' ((hrest' _ hmem).1 hv)
        · rw [rename_exit hxu, rename_of_ne hxv] at huv
          subst huv
          exact hxv' (ha.entry_shared hs hv)
      · rw [rename_of_ne hxu] at huv
        by_cases hxv : T.exit? = some v
        · rw [rename_exit hxv] at huv
          exact hxu ((hrest _ hmem).1 (huv ▸ hs.entry_mem))
        · rw [rename_of_ne hxv] at huv
          exact hxv' (huv ▸ (hrest' _ hmem).1 (huv ▸ hv))
    rw [harcs, outs_add, hnone, add_zero]
  · obtain ⟨v, hv, rfl⟩ := List.mem_map.1 hm
    have hve : v ≠ T'.entry := fun heq => hne (by simp [Template.map, heq])
    have hxv : T.exit? ≠ some v := fun heq => hve (ha.exit_shared hs heq hv).1
    have hnone : ins (F.map (Prod.map T.rename T.rename)) (T.rename v) = 0 := by
      refine Multiset.eq_zero_of_forall_notMem fun w hw => ?_
      obtain ⟨⟨y, u⟩, hmem, heq⟩ := Multiset.mem_map.1 (mem_ins.1 hw)
      have huv : T.rename u = T.rename v := congrArg Prod.snd heq
      by_cases hxu : T.exit? = some u
      · exact (hs.exit_mem u hxu).2 ((hrest _ hmem).2 (hs.exit_mem u hxu).1)
      · rw [rename_of_ne hxu, rename_of_ne hxv] at huv
        exact hve (huv ▸ (hrest' _ hmem).2 (huv ▸ hv))
    rw [harcs, ins_add, hnone, add_zero]
  · obtain ⟨v, hv, heq⟩ := List.mem_map.1 hroot
    have heq' : T.rename v = G.entry := heq
    have hv' : v = T'.entry := by
      by_cases hxv : T.exit? = some v
      · exact (ha.exit_shared hs hxv hv).1
      · rw [rename_of_ne hxv] at heq'
        exact heq'.trans (h'.entry_eq (heq' ▸ hv))
    exact heq'.symm.trans (congrArg T.rename hv')

theorem exit_map (ha : Apart T T') (hs : T.Sound) (hs' : T'.Sound) :
    (T'.map T.rename).exit? = T'.exit? := by
  cases hx : T'.exit? with
  | none => simp [Template.map, hx]
  | some x => simp [Template.map, hx, rename_of_ne (ha.symm.exit_ne hs' hs hx)]

/-- The entry of the other template loses its name where it is the exit. -/
theorem rename_entry_eq (ha : Apart T T') (hs : T.Sound) (hs' : T'.Sound) :
    T.rename T'.entry = (T.map T'.rename).rename T'.entry := by
  by_cases hx : T.exit? = some T'.entry
  · have hnot := (ha.exit_shared hs hx hs'.entry_mem).2
    rw [rename_exit hx, rename_exit ((ha.symm.exit_map hs' hs).trans hx)]
    exact (rename_of_notMem hs' hnot).symm
  · rw [rename_of_ne hx, rename_of_ne fun h => hx ((ha.symm.exit_map hs' hs).symm.trans h)]

theorem rename_comm (ha : Apart T T') (hs : T.Sound) (hs' : T'.Sound) (v : α) :
    (T'.map T.rename).rename (T.rename v) = (T.map T'.rename).rename (T'.rename v) := by
  have hexit := ha.exit_map hs hs'
  have hexit' := ha.symm.exit_map hs' hs
  by_cases hx : T.exit? = some v
  · have hx' := ha.exit_ne hs hs' hx
    rw [rename_exit hx, rename_of_ne hx', rename_exit (hexit'.trans hx)]
    exact (ha.symm.rename_entry_eq hs' hs).symm
  · by_cases hx' : T'.exit? = some v
    · rw [rename_of_ne hx, rename_exit hx', rename_exit (hexit.trans hx')]
      exact ha.rename_entry_eq hs hs'
    · rw [rename_of_ne hx, rename_of_ne hx', rename_of_ne fun h => hx' (hexit.symm.trans h),
        rename_of_ne fun h => hx (hexit'.symm.trans h)]

theorem left_of_left (ha : Apart T T') (hs : T.Sound) (hs' : T'.Sound)
    (hT : v ∈ T.members → v = T.entry)
    (hT' : v ∈ (T'.map T.rename).members → v = (T'.map T.rename).entry) :
    (v ∈ T'.members → v = T'.entry) ∧
      (v ∈ (T.map T'.rename).members → v = (T.map T'.rename).entry) := by
  refine ⟨fun hv => ?_, fun hv => ?_⟩
  · by_cases hx : T.exit? = some v
    · exact (ha.exit_shared hs hx hv).1
    · have hv' : v = T.rename T'.entry := hT' (List.mem_map.2 ⟨v, hv, rename_of_ne hx⟩)
      by_cases hxe : T.exit? = some T'.entry
      · rw [rename_exit hxe] at hv'
        exact absurd (hv' ▸ hv) (ha.exit_shared hs hxe hs'.entry_mem).2
      · rwa [rename_of_ne hxe] at hv'
  · obtain ⟨m, hm, rfl⟩ := List.mem_map.1 hv
    by_cases hx : T'.exit? = some m
    · rw [(ha.symm.exit_shared hs' hx hm).1]
      rfl
    · rw [rename_of_ne hx] at hT ⊢
      rw [hT hm] at hx ⊢
      exact (rename_of_ne hx).symm

theorem contract_comm (ha : Apart T T') (hs : T.Sound) (hs' : T'.Sound) (h : T.At G)
    (h' : T'.At G) :
    (G.contract T).contract (T'.map T.rename) = (G.contract T').contract (T.map T'.rename) := by
  obtain ⟨F, hF, -⟩ := ha.split hs hs' h h'
  have hF' : G.arcs = T'.inner + (T.inner + F) := hF.trans (add_left_comm _ _ _)
  have hnodes : ((G.contract T).contract (T'.map T.rename)).nodes =
      ((G.contract T').contract (T.map T'.rename)).nodes := by
    ext v
    simp only [Outline.mem_contract, and_assoc]
    refine and_congr_right fun _ => ⟨fun hv => ?_, fun hv => ?_⟩
    · exact ha.left_of_left hs hs' hv.1 hv.2
    · exact ha.symm.left_of_left hs' hs hv.1 hv.2
  have harcs : ((G.contract T).contract (T'.map T.rename)).arcs =
      ((G.contract T').contract (T.map T'.rename)).arcs := by
    rw [Outline.contract_arcs (F := F.map (Prod.map T.rename T.rename)),
      Outline.contract_arcs (F := F.map (Prod.map T'.rename T'.rename)), Multiset.map_map,
      Multiset.map_map]
    · refine Multiset.map_congr rfl fun a _ => ?_
      simp only [Function.comp_apply, Prod.map, ha.rename_comm hs hs']
    · rw [Outline.contract_arcs hF', Multiset.map_add]
      rfl
    · rw [Outline.contract_arcs hF, Multiset.map_add]
      rfl
  exact Outline.ext hnodes harcs rfl

end Template.Apart

end Structuring
