import Structuring.Proofs.Reduction.Confluence

/-!
# Loops that are never left

A loop from which neither a way out nor the entry can be reached stays a loop, whatever is contracted.
A contraction makes such a loop only if it takes the one way out for the body of a conditional return.

* `Outline.Endless` — a vertex in such a loop.
* `Primitive.SealsLoop` — a conditional return whose body is the only way out of a loop.
* `Endless.contract`, `exists_endless_of_contract`, `SealsLoop.endless` — a contraction keeps such
  loops, and it makes one only in this case, and always then.
* `Folds.exists_endless` — an outline that folds by a cut only has one.
* `Endless.map` — names do not matter.
-/

namespace Structuring

open Relation

variable {α β : Type}

namespace Outline

/-- The vertex is on a cycle, all that it leads to leads back to it, and the entry is not among that. -/
structure Endless (G : Outline α) (v : α) : Prop where
  cycle : TransGen G.Leads v v
  back : ∀ w, ReflTransGen G.Leads v w → ReflTransGen G.Leads w v
  entry : ¬ ReflTransGen G.Leads v G.entry

theorem Endless.of_reach {G : Outline α} {v w : α} (hv : G.Endless v)
    (hvw : ReflTransGen G.Leads v w) : G.Endless w where
  cycle := ((TransGen.trans_right (hv.back w hvw) hv.cycle).trans_left hvw)
  back x hwx := (hv.back x (hvw.trans hwx)).trans hvw
  entry hw := hv.entry (hvw.trans hw)

end Outline

/-- A conditional return whose exit is in a loop that can be left by the body only: all else that the
exit leads to leads back to the condition, and the entry is not among it. -/
def Primitive.SealsLoop (p : Primitive α) (G : Outline α) : Prop :=
  ∃ c b e, p = .ifReturn c b e ∧
    (∀ v, ReflTransGen G.Leads e v → v = b ∨ ReflTransGen G.Leads v c) ∧
    ¬ ReflTransGen G.Leads e G.entry

variable [DecidableEq α]

namespace Primitive

variable {p : Primitive α} {T : Template α} {u x : α}

/-- Only a conditional return has a member without arcs besides its exit. -/
theorem eq_ifReturn (hT : T ∈ p.templates) (hx : T.exit? = some x) (hu : u ∈ T.members)
    (hne : u ≠ T.entry) (hux : u ≠ x) (hnone : ∀ v, (u, v) ∉ T.inner) :
    p = .ifReturn T.entry u x := by
  cases p with
  | postLoop b c e =>
    simp only [templates] at hT
    split at hT <;> obtain rfl := List.mem_singleton.1 hT
    · simp at hx hu hne hux
      grind
    · have := hnone e
      simp at hx hu hne hux this
      grind
  | ifElseReturn c y n =>
    obtain rfl := List.mem_singleton.1 hT
    cases hx
  | nWay h cs e =>
    have := hnone e
    simp only [templates, List.mem_append, List.mem_ite_nil_right, List.mem_singleton] at hT
    rcases hT with ⟨-, rfl⟩ | ⟨-, rfl⟩
    · simp [mem_fan] at hx hu hne hux this
      grind
    · simp [mem_fan] at hx hu hne hux this
      grind
  | preLoop c b e =>
    have := hnone c
    obtain rfl := List.mem_singleton.1 hT
    simp at hx hu hne hux this
    grind
  | ifThen c b e =>
    have := hnone e
    obtain rfl := List.mem_singleton.1 hT
    simp at hx hu hne hux this
    grind
  | ifElse c y n e =>
    have := hnone e
    obtain rfl := List.mem_singleton.1 hT
    simp at hx hu hne hux this
    grind
  | _ =>
    obtain rfl := List.mem_singleton.1 hT
    simp at hx hu hne hux
    grind

end Primitive

namespace Outline

variable {G : Outline α} {p : Primitive α} {T : Template α} {u v w : α}

open Template

/-- A vertex after a contraction has its own name. -/
theorem absorb_of_leads (hs : T.Sound) (h : T.At G) (huv : (G.contract T).Leads u v) :
    T.absorb v = v := by
  obtain ⟨_, -, -, -, hv⟩ := (leads_contract hs h).1 huv
  exact absorb_eq_self hv

theorem absorb_of_reach (hs : T.Sound) (h : T.At G) (hu : T.absorb u = u)
    (huv : ReflTransGen (G.contract T).Leads u v) : T.absorb v = v := by
  cases huv with
  | refl => exact hu
  | tail _ hwv => exact absorb_of_leads hs h hwv

/-- After a contraction the arcs out of the entry are those out of the exit. -/
theorem exit_of_leads (hs : T.Sound) (h : T.At G) (hv : (G.contract T).Leads T.entry v) :
    ∃ x, T.exit? = some x ∧ G.Leads x v := by
  obtain ⟨x, hname, hxv, hx, -⟩ := (leads_contract hs h).1 hv
  by_cases hm : x ∈ T.members
  · exact ⟨x, hx hm, hxv⟩
  · rw [rename_of_notMem hs hm] at hname
    exact absurd (hname ▸ hs.entry_mem) hm

/-- A cycle through a member leads to the entry. -/
theorem reach_entry_of_cycle (hs : T.Sound) (h : T.At G) (hv : v ∈ T.members)
    (hcycle : TransGen G.Leads v v) : ReflTransGen G.Leads v T.entry := by
  by_cases hve : v = T.entry
  · rw [hve]
  obtain ⟨u, hvu, huv⟩ := TransGen.tail'_iff.1 hcycle
  have hin := inner_of_entered h huv hv hve
  by_cases hue : u = T.entry
  · rwa [hue] at hvu
  have hx := hs.inner_exit _ hin hue hve
  cases hvu with
  | refl => exact absurd hx (hs.inner_mem _ hin).2.2
  | @tail w _ hvw hwu =>
    have hin' := inner_of_entered h hwu (hs.inner_mem _ hin).1 hue
    by_cases hwe : w = T.entry
    · rwa [hwe] at hvw
    · -- an arc inside would lead to the exit and another one out of it
      exact absurd (hs.inner_exit _ hin' hwe hue) (hs.inner_mem _ hin).2.2

theorem exists_exit (hT : T ∈ p.templates) (h : T.At G) (hv : G.Endless T.entry) :
    ∃ x, T.exit? = some x := by
  have hs := Primitive.sound hT h.nodup
  obtain ⟨u, hne, hu⟩ := hs.leads
  have hmem := (hs.inner_mem _ hu).2.1
  by_contra hnone
  have hnot : T.exit? ≠ some u := fun hx => hnone ⟨u, hx⟩
  rcases hs.leaf u hmem hne hnot with hleaf | hback | ⟨x, hx, -⟩
  · rcases ReflTransGen.cases_head (hv.back u (.single (leads_of_inner hs h hu))) with heq | ⟨w, huw, -⟩
    · exact hne heq
    · exact hleaf w (inner_of_leaving h huw hmem hnot)
  · obtain ⟨x, hx, -⟩ := Primitive.loop_back hT h.nodup hback
    exact hnone ⟨x, hx⟩
  · exact hnone ⟨x, hx⟩

theorem Endless.contract_of_absorb (hT : T ∈ p.templates) (h : T.At G) (hv : G.Endless v)
    (hself : v ∈ T.members → v = T.entry) : (G.contract T).Endless v := by
  have hs := Primitive.sound hT h.nodup
  have hname := absorb_eq_self hself
  refine ⟨?_, fun w hw => ?_, fun hentry => hv.entry (reach_of_contract hs h hentry)⟩
  · -- the arc by which the vertex is left stays
    obtain ⟨u, w, hu, huw, hname', hwv⟩ : ∃ u w, (u ∈ T.members → T.exit? = some u) ∧ G.Leads u w ∧
        T.absorb u = v ∧ ReflTransGen G.Leads w v := by
      by_cases hm : v ∈ T.members
      · obtain rfl := hself hm
        obtain ⟨x, hx⟩ := exists_exit hT h hv
        have hreach : ReflTransGen G.Leads T.entry x :=
          ReflTransGen.mono (fun _ _ hab => leads_of_inner hs h hab) _ _ (hs.exit_reach hx)
        rcases ReflTransGen.cases_head (hv.back x hreach) with heq | ⟨w, hxw, hw⟩
        · exact absurd heq (hs.exit_mem x hx).2
        · exact ⟨x, w, fun _ => hx, hxw, absorb_of_mem (hs.exit_mem x hx).1, hw⟩
      · obtain ⟨w, hvw, hw⟩ := TransGen.head'_iff.1 hv.cycle
        exact ⟨v, w, fun hm' => absurd hm' hm, hvw, hname, hw⟩
    have hfirst := leads_absorb hs h huw hu
    have hrest := reach_contract hs h hwv
    rw [hname'] at hfirst
    rw [hname] at hrest
    exact .head' hfirst hrest
  · have hback := reach_contract hs h (hv.back w (reach_of_contract hs h hw))
    rwa [absorb_of_reach hs h hname hw, hname] at hback

theorem Endless.contract (hT : T ∈ p.templates) (h : T.At G) (hv : G.Endless v) :
    (G.contract T).Endless (T.absorb v) := by
  have hs := Primitive.sound hT h.nodup
  by_cases hm : v ∈ T.members
  · rw [absorb_of_mem hm]
    have hentry := hv.of_reach (reach_entry_of_cycle hs h hm hv.cycle)
    exact hentry.contract_of_absorb hT h fun _ => rfl
  · rw [absorb_of_notMem hm]
    exact hv.contract_of_absorb hT h fun hm' => absurd hm' hm

/-- A loop that is never left and does not hold the entry of the template was there before. -/
theorem Endless.of_contract (hs : T.Sound) (h : T.At G) (hv : (G.contract T).Endless v)
    (hnot : ¬ ReflTransGen (G.contract T).Leads v T.entry) : G.Endless v := by
  have hname : T.absorb v = v := by
    obtain ⟨_, -, hlast⟩ := TransGen.tail'_iff.1 hv.cycle
    exact absorb_of_leads hs h hlast
  have hstay : ∀ w, ReflTransGen G.Leads v w → ReflTransGen (G.contract T).Leads v w := by
    intro w hw
    have hreach := reach_contract hs h hw
    rw [hname] at hreach
    by_cases hm : w ∈ T.members
    · rw [absorb_of_mem hm] at hreach
      exact absurd hreach hnot
    · rwa [absorb_of_notMem hm] at hreach
  exact ⟨TransGen.closed (fun _ _ => walk_of_contract hs h) _ _ hv.cycle,
    fun w hw => reach_of_contract hs h (hv.back w (hstay w hw)), fun hentry =>
    hv.entry (hstay _ hentry)⟩

theorem exists_endless_of_contract (hT : T ∈ p.templates) (h : T.At G)
    (hv : (G.contract T).Endless v) : (∃ w, G.Endless w) ∨ p.SealsLoop G := by
  have hs := Primitive.sound hT h.nodup
  by_cases hentry : ReflTransGen (G.contract T).Leads v T.entry
  swap
  · exact .inl ⟨v, hv.of_contract hs h hentry⟩
  have he := hv.of_reach hentry
  obtain ⟨w, hw, hwe⟩ := TransGen.head'_iff.1 he.cycle
  obtain ⟨x, hx, hxw⟩ := exit_of_leads hs h hw
  have hxe : ReflTransGen G.Leads x T.entry := .head hxw (reach_of_contract hs h hwe)
  obtain ⟨hxm, hxne⟩ := hs.exit_mem x hx
  -- what is reached from a member leads back, if it is not a member
  have hback : ∀ {a u}, a ∈ T.members → ReflTransGen G.Leads a u → u ∉ T.members →
      ReflTransGen G.Leads u T.entry := by
    intro a u ha hau hu
    have hreach := reach_contract hs h hau
    rw [absorb_of_mem ha, absorb_of_notMem hu] at hreach
    exact reach_of_contract hs h (he.back u hreach)
  have hroot : ∀ {a}, a ∈ T.members → ¬ ReflTransGen G.Leads a G.entry := by
    intro a ha hreach
    have := reach_contract hs h hreach
    rw [absorb_of_mem ha, absorb_eq_self h.entry_eq] at this
    exact he.entry this
  by_cases hall : ∀ u, ReflTransGen G.Leads T.entry u → ReflTransGen G.Leads u T.entry
  · exact .inl ⟨T.entry, TransGen.closed (fun _ _ => walk_of_contract hs h) _ _ he.cycle, hall,
      hroot hs.entry_mem⟩
  push Not at hall
  obtain ⟨b, heb, hbe⟩ := hall
  have hb : b ∈ T.members := by
    by_contra hb
    exact hbe (hback hs.entry_mem heb hb)
  have hbne : b ≠ T.entry := by
    rintro rfl
    exact hbe .refl
  have hbx : b ≠ x := by
    rintro rfl
    exact hbe hxe
  have hnot : T.exit? ≠ some b := fun heq => hbx (Option.some.inj (heq.symm.trans hx))
  have hleaf : ∀ u, (b, u) ∉ T.inner := by
    rcases hs.leaf b hb hbne hnot with hleaf | hloop | ⟨y, hy, hall, -⟩
    · exact hleaf
    · exact absurd (.single (leads_of_inner hs h hloop)) hbe
    · intro u hu
      obtain rfl := hall u hu
      obtain rfl := Option.some.inj (hx.symm.trans hy)
      exact hbe (.head (leads_of_inner hs h hu) hxe)
  have hp := Primitive.eq_ifReturn hT hx hb hbne hbx hleaf
  refine .inr ⟨T.entry, b, x, hp, fun u hu => ?_, hroot hxm⟩
  by_cases hm : u ∈ T.members
  · rw [hp] at hT
    obtain heq := List.mem_singleton.1 hT
    rw [heq] at hm
    simp only [List.mem_cons, List.not_mem_nil, or_false] at hm
    rcases hm with rfl | rfl | rfl
    · exact .inr .refl
    · exact .inl rfl
    · exact .inr hxe
  · exact .inr (hback hxm hu hm)

end Outline

theorem Primitive.SealsLoop.endless {G : Outline α} {p : Primitive α} {T : Template α}
    (hp : p.SealsLoop G) (hT : T ∈ p.templates) (h : T.At G) :
    (G.contract T).Endless T.entry := by
  have hs := Primitive.sound hT h.nodup
  obtain ⟨c, b, e, rfl, hall, hroot⟩ := hp
  obtain ⟨rfl, hx, hb, hcb, heb⟩ :
      T.entry = c ∧ T.exit? = some e ∧ b ∈ T.members ∧ b ≠ c ∧ e ≠ b := by
    have hnd := h.nodup
    obtain rfl := List.mem_singleton.1 hT
    simp only [List.nodup_cons, List.mem_cons, not_or] at hnd
    exact ⟨rfl, rfl, by simp, Ne.symm hnd.1.1, Ne.symm hnd.2.1.1⟩
  obtain ⟨he, hce⟩ := hs.exit_mem e hx
  have hself : T.absorb T.entry = T.entry := Template.absorb_of_mem hs.entry_mem
  have hnotb : T.absorb b ≠ b := by
    rw [Template.absorb_of_mem hb]
    exact Ne.symm hcb
  have hfrom : ∀ w, ReflTransGen (G.contract T).Leads T.entry w →
      w = T.entry ∨ ReflTransGen G.Leads e w := by
    intro w hw
    rcases ReflTransGen.cases_head hw with heq | ⟨u, hcu, huw⟩
    · exact .inl heq.symm
    · obtain ⟨x, hx', hxu⟩ := Outline.exit_of_leads hs h hcu
      obtain rfl := Option.some.inj (hx.symm.trans hx')
      exact .inr (.head hxu (Outline.reach_of_contract hs h huw))
  obtain ⟨u, heu, huc⟩ : ∃ u, G.Leads e u ∧ ReflTransGen G.Leads u T.entry := by
    rcases ReflTransGen.cases_head ((hall e .refl).resolve_left heb) with heq | hnext
    · exact absurd heq hce
    · exact hnext
  refine ⟨?_, fun w hw => ?_, fun hentry => ?_⟩
  · have hfirst := Outline.leads_absorb hs h heu fun _ => hx
    have hrest := Outline.reach_contract hs h huc
    rw [Template.absorb_of_mem he] at hfirst
    rw [hself] at hrest
    exact .head' hfirst hrest
  · rcases hfrom w hw with rfl | hew
    · exact .refl
    · have hname := Outline.absorb_of_reach hs h hself hw
      rcases hall w hew with rfl | hwc
      · exact absurd hname hnotb
      · have hback := Outline.reach_contract hs h hwc
        rwa [hname, hself] at hback
  · rcases hfrom _ hentry with heq | hreach
    · exact hroot (heq ▸ .head heu huc)
    · exact hroot hreach

namespace Outline

variable {G : Outline α} {v w : α}

omit [DecidableEq α] in
theorem Valid.reach_mem (hG : G.Valid) (hv : v ∈ G.nodes) (hvw : ReflTransGen G.Leads v w) :
    w ∈ G.nodes := by
  cases hvw with
  | refl => exact hv
  | tail _ h => exact (hG.closed h).2

omit [DecidableEq α] in
theorem Valid.not_endless (hG : G.Valid) (hcard : G.nodes.card ≤ 1) : ¬ G.Endless v := by
  intro hv
  obtain ⟨w, hvw, -⟩ := TransGen.head'_iff.1 hv.cycle
  have heq := Finset.card_le_one.1 hcard v (hG.closed hvw).1 _ hG.entry_mem
  exact hv.entry (heq ▸ .refl)

/-- A vertex that leads to itself only is in such a loop, unless it is the only one. -/
theorem Valid.endless_of_loop (hG : G.Valid) (hcard : 1 < G.nodes.card)
    (hloop : outs G.arcs v = {v}) : G.Endless v := by
  have hlead : G.Leads v v := mem_of_loop hloop
  have hstay : ∀ w, ReflTransGen G.Leads v w → w = v := by
    intro w hw
    induction hw with
    | refl => rfl
    | tail _ huw ih =>
      subst ih
      exact Multiset.mem_singleton.1 (hloop ▸ mem_outs.2 huw)
  refine ⟨.single hlead, fun w hw => hstay w hw ▸ .refl, fun hentry => ?_⟩
  obtain ⟨w, hw, hne⟩ := Finset.exists_mem_ne hcard v
  exact hne (hstay w (hstay _ hentry ▸ hG.reach w hw))

theorem Folds.exists_endless (hfolds : G.Folds) (hG : G.Valid) (hcard : 1 < G.nodes.card)
    (hnone : ∀ (p : Primitive α) (T : Template α), T ∈ p.templates → ¬ T.At G) :
    ∃ v, G.Endless v := by
  cases hfolds with
  | single hle => omega
  | step hT hat _ => exact absurd hat (hnone _ _ hT)
  | cut hloop _ => exact ⟨_, hG.endless_of_loop hcard hloop⟩

/-! ## Names -/

variable [DecidableEq β] {f : α → β}

omit [DecidableEq α] in
theorem leads_map (h : G.Leads v w) : (G.map f).Leads (f v) (f w) :=
  Multiset.mem_map.2 ⟨(v, w), h, rfl⟩

omit [DecidableEq α] in
theorem reach_of_map (hG : G.Valid) (hinj : Set.InjOn f G.nodes) (hv : v ∈ G.nodes) {b : β}
    (h : ReflTransGen (G.map f).Leads (f v) b) : ∃ w, f w = b ∧ ReflTransGen G.Leads v w := by
  induction h with
  | refl => exact ⟨v, rfl, .refl⟩
  | tail _ hbc ih =>
    obtain ⟨w, rfl, hvw⟩ := ih
    obtain ⟨⟨x, y⟩, hxy, heq⟩ := Multiset.mem_map.1 hbc
    obtain ⟨hx, rfl⟩ := Prod.mk.inj heq
    have hmem := hG.closed (u := x) (v := y) hxy
    obtain rfl := hinj hmem.1 (hG.reach_mem hv hvw) hx
    exact ⟨y, rfl, hvw.tail hxy⟩

omit [DecidableEq α] in
theorem Endless.map (hv : G.Endless v) (hG : G.Valid) (hinj : Set.InjOn f G.nodes) :
    (G.map f).Endless (f v) := by
  have hmem : v ∈ G.nodes := by
    obtain ⟨w, hvw, -⟩ := TransGen.head'_iff.1 hv.cycle
    exact (hG.closed hvw).1
  have hlift : ∀ {u w}, ReflTransGen G.Leads u w → ReflTransGen (G.map f).Leads (f u) (f w) :=
    fun h => h.lift f fun _ _ => leads_map
  refine ⟨hv.cycle.lift f fun _ _ => leads_map, fun b hb => ?_, fun hentry => ?_⟩
  · obtain ⟨w, rfl, hvw⟩ := reach_of_map hG hinj hmem hb
    exact hlift (hv.back w hvw)
  · obtain ⟨w, hw, hvw⟩ := reach_of_map hG hinj hmem hentry
    exact hv.entry (hinj (hG.reach_mem hmem hvw) hG.entry_mem hw ▸ hvw)

end Outline

end Structuring
