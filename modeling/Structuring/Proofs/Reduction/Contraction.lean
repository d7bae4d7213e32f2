import Structuring.Proofs.Reduction.Template

/-!
# Contractions of outlines

* `Outline.contract` — the members of a template become one vertex, which keeps the name of the entry.
* `Outline.Valid` — all vertices can be reached from the entry; contractions keep this.
* `Outline.cut` — takes a loop away from a vertex.
* `Outline.Folds` — some sequence of contractions and cuts leads to a single vertex.
* `Folds.map` — names do not matter.
-/

namespace Structuring

open Relation

variable {α β : Type} [DecidableEq α] [DecidableEq β]

namespace Template

/-- Gives the exit the name of the entry. -/
def rename (T : Template α) (v : α) : α := if T.exit? = some v then T.entry else v

/-- Gives all members the name of the entry. -/
def absorb (T : Template α) (v : α) : α := if v ∈ T.members then T.entry else v

def map (f : α → β) (T : Template α) : Template β :=
  ⟨T.members.map f, f T.entry, T.exit?.map f, T.inner.map (Prod.map f f)⟩

variable {T : Template α}

theorem rename_entry (T : Template α) : T.rename T.entry = T.entry := by
  unfold rename
  split <;> rfl

theorem rename_exit {v : α} (hv : T.exit? = some v) : T.rename v = T.entry := if_pos hv

theorem rename_of_ne {v : α} (hv : T.exit? ≠ some v) : T.rename v = v := if_neg hv

theorem rename_of_notMem (hs : T.Sound) {v : α} (hv : v ∉ T.members) : T.rename v = v :=
  rename_of_ne fun h => hv (hs.exit_mem v h).1

theorem absorb_of_mem {v : α} (hv : v ∈ T.members) : T.absorb v = T.entry := if_pos hv

theorem absorb_of_notMem {v : α} (hv : v ∉ T.members) : T.absorb v = v := if_neg hv

theorem absorb_eq_self {v : α} (hv : v ∈ T.members → v = T.entry) : T.absorb v = v := by
  unfold absorb
  split
  · next hm => exact (hv hm).symm
  · rfl

omit [DecidableEq α] in
/-- The exit is reached from the entry along the arcs inside. -/
theorem Sound.exit_reach (hs : T.Sound) {x : α} (hx : T.exit? = some x) :
    ReflTransGen (fun u v => (u, v) ∈ T.inner) T.entry x := by
  rcases hs.merge x hx with h | h
  · exact .single h
  · obtain ⟨v, -, hv⟩ := hs.leads
    exact (ReflTransGen.single hv).tail (h v hv).1

end Template

namespace Outline

variable {G : Outline α} {T : Template α} {u v : α}

def Leads (G : Outline α) (u v : α) : Prop := (u, v) ∈ G.arcs

/-- The members but the entry go, and so do the arcs inside. The arcs out of the exit then leave from
the entry. -/
def contract (G : Outline α) (T : Template α) : Outline α :=
  ⟨G.nodes \ T.members.toFinset.erase T.entry,
    (G.arcs - T.inner).map (Prod.map T.rename T.rename), G.entry⟩

def map (f : α → β) (G : Outline α) : Outline β :=
  ⟨G.nodes.image f, G.arcs.map (Prod.map f f), f G.entry⟩

/-- The arcs join vertices, and every vertex can be reached from the entry. -/
structure Valid (G : Outline α) : Prop where
  closed : ∀ {u v : α}, G.Leads u v → u ∈ G.nodes ∧ v ∈ G.nodes
  entry_mem : G.entry ∈ G.nodes
  reach : ∀ v ∈ G.nodes, ReflTransGen G.Leads G.entry v

theorem mem_contract : v ∈ (G.contract T).nodes ↔ v ∈ G.nodes ∧ (v ∈ T.members → v = T.entry) := by
  simp only [contract, Finset.mem_sdiff, Finset.mem_erase, List.mem_toFinset, not_and]
  exact and_congr_right fun _ =>
    ⟨fun h hv => by_contra fun hne => h hne hv, fun h hne hv => hne (h hv)⟩

theorem contract_arcs {F : Multiset (α × α)} (hF : G.arcs = T.inner + F) :
    (G.contract T).arcs = F.map (Prod.map T.rename T.rename) := by
  rw [contract, hF, add_tsub_cancel_left]

theorem card_contract_lt (hs : T.Sound) (h : T.At G) :
    (G.contract T).nodes.card < G.nodes.card := by
  obtain ⟨v, hne, hv⟩ := hs.leads
  have hmem := (hs.inner_mem _ hv).2.1
  refine Finset.card_lt_card ((Finset.ssubset_iff_of_subset Finset.sdiff_subset).2
    ⟨v, h.mem_nodes v hmem, fun hv' => hne ((mem_contract.1 hv').2 hmem)⟩)

theorem leads_contract (hs : T.Sound) (h : T.At G) :
    (G.contract T).Leads u v ↔ ∃ w, T.rename w = u ∧ G.Leads w v ∧
      (w ∈ T.members → T.exit? = some w) ∧ (v ∈ T.members → v = T.entry) := by
  obtain ⟨F, hF, hrest⟩ := h.split hs
  have hinner : ∀ {a b : α}, (a ∈ T.members → T.exit? = some a) → (a, b) ∉ T.inner :=
    fun ha hab => (hs.inner_mem _ hab).2.2 (ha (hs.inner_mem _ hab).1)
  have htarget : ∀ a ∈ F, T.rename a.2 = a.2 := by
    intro a ha
    by_cases hm : a.2 ∈ T.members
    · rw [(hrest a ha).2 hm, T.rename_entry]
    · exact Template.rename_of_notMem hs hm
  simp only [Leads, contract_arcs hF, hF, Multiset.mem_map, Multiset.mem_add, Prod.exists,
    Prod.map_apply, Prod.mk.injEq]
  constructor
  · rintro ⟨a, b, hab, rfl, rfl⟩
    rw [htarget _ hab]
    exact ⟨a, rfl, .inr hab, (hrest _ hab).1, (hrest _ hab).2⟩
  · rintro ⟨w, rfl, hwv, hw, -⟩
    have hwv' := hwv.resolve_left (hinner hw)
    exact ⟨w, v, hwv', rfl, htarget _ hwv'⟩

/-- A member that is renamed is reached from the vertex with its new name. -/
theorem reach_rename (hs : T.Sound) (h : T.At G) (v : α) :
    ReflTransGen G.Leads (T.rename v) v := by
  obtain ⟨F, hF, -⟩ := h.split hs
  unfold Template.rename
  split
  · next hx =>
    refine ReflTransGen.mono (fun a b hab => ?_) _ _ (hs.exit_reach hx)
    rw [Leads, hF]
    exact Multiset.mem_add.2 (.inl hab)
  · exact .refl

/-- Where an arc leads after a contraction there is a walk before. -/
theorem walk_of_contract (hs : T.Sound) (h : T.At G) (huv : (G.contract T).Leads u v) :
    TransGen G.Leads u v := by
  obtain ⟨x, rfl, hxv, -⟩ := (leads_contract hs h).1 huv
  exact .tail' (reach_rename hs h x) hxv

theorem reach_of_contract (hs : T.Sound) (h : T.At G)
    (huv : ReflTransGen (G.contract T).Leads u v) : ReflTransGen G.Leads u v := by
  induction huv with
  | refl => exact .refl
  | tail _ hvw ih => exact ih.trans (walk_of_contract hs h hvw).to_reflTransGen

/-- The arcs out of the exit and out of other vertices stay. -/
theorem leads_absorb (hs : T.Sound) (h : T.At G) (huv : G.Leads u v)
    (hu : u ∈ T.members → T.exit? = some u) :
    (G.contract T).Leads (T.absorb u) (T.absorb v) := by
  obtain ⟨F, hF, hrest⟩ := h.split hs
  have hinner : (u, v) ∉ T.inner := fun hin =>
    (hs.inner_mem _ hin).2.2 (hu (hs.inner_mem _ hin).1)
  have hv : v ∈ T.members → v = T.entry :=
    (hrest (u, v) ((Multiset.mem_add.1 (hF ▸ huv)).resolve_left hinner)).2
  have hname : T.rename u = T.absorb u := by
    by_cases hm : u ∈ T.members
    · rw [Template.rename_exit (hu hm), Template.absorb_of_mem hm]
    · rw [Template.rename_of_notMem hs hm, Template.absorb_of_notMem hm]
  rw [Template.absorb_eq_self hv]
  exact (leads_contract hs h).2 ⟨u, hname, huv, hu, hv⟩

/-- A walk is followed after a contraction, with all members named like the entry. -/
theorem reach_contract (hs : T.Sound) (h : T.At G) (huv : ReflTransGen G.Leads u v) :
    ReflTransGen (G.contract T).Leads (T.absorb u) (T.absorb v) := by
  induction huv with
  | refl => exact .refl
  | @tail a b _ hab ih =>
    by_cases ha : a ∈ T.members → T.exit? = some a
    · exact ih.tail (leads_absorb hs h hab ha)
    · push Not at ha
      have hin : b ∈ outs T.inner a := h.outs_eq a ha.1 ha.2 ▸ mem_outs.2 hab
      have hb := (hs.inner_mem _ (mem_outs.1 hin)).2.1
      rwa [Template.absorb_of_mem ha.1, ← Template.absorb_of_mem hb] at ih

theorem Valid.contract (hG : G.Valid) (hs : T.Sound) (h : T.At G) : (G.contract T).Valid := by
  have hroot : G.entry ∈ (G.contract T).nodes := mem_contract.2 ⟨hG.entry_mem, h.entry_eq⟩
  refine ⟨fun {u v} huv => ?_, hroot, fun v hv => ?_⟩
  · obtain ⟨w, rfl, hwv, hw, hv⟩ := (leads_contract hs h).1 huv
    refine ⟨?_, mem_contract.2 ⟨(hG.closed hwv).2, hv⟩⟩
    unfold Template.rename
    split
    · exact mem_contract.2 ⟨h.mem_nodes _ hs.entry_mem, fun _ => rfl⟩
    · next hx => exact mem_contract.2 ⟨(hG.closed hwv).1, fun hm => absurd (hw hm) hx⟩
  · obtain ⟨hvG, hvT⟩ := mem_contract.1 hv
    have hreach := reach_contract hs h (hG.reach v hvG)
    rwa [Template.absorb_eq_self h.entry_eq, Template.absorb_eq_self hvT] at hreach

/-! ## Cuts -/

def cut (G : Outline α) (v : α) : Outline α := ⟨G.nodes, G.arcs.erase (v, v), G.entry⟩

theorem leads_of_cut {w : α} (h : (G.cut w).Leads u v) : G.Leads u v := Multiset.mem_of_mem_erase h

theorem leads_cut {w : α} (h : G.Leads u v) (hne : u ≠ v) : (G.cut w).Leads u v :=
  (Multiset.mem_erase_of_ne fun heq => hne ((congrArg Prod.fst heq).trans
    (congrArg Prod.snd heq).symm)).2 h

theorem Valid.cut (hG : G.Valid) (v : α) : (G.cut v).Valid where
  closed h := hG.closed (leads_of_cut h)
  entry_mem := hG.entry_mem
  reach w hw := by
    have hreach := hG.reach w hw
    clear hw
    induction hreach with
    | refl => exact .refl
    | @tail a b _ hab ih =>
      by_cases heq : a = b
      · exact heq ▸ ih
      · exact ih.tail (leads_cut hab heq)

theorem mem_of_loop (h : outs G.arcs v = {v}) : (v, v) ∈ G.arcs :=
  mem_outs.1 (h ▸ Multiset.mem_singleton_self v)

/-- Some sequence leads to a single vertex of contractions of primitives and of cuts at vertices that
lead to themselves only. -/
inductive Folds : Outline α → Prop where
  | single {G : Outline α} : G.nodes.card ≤ 1 → Folds G
  | step {G : Outline α} {p : Primitive α} {T : Template α} : T ∈ p.templates → T.At G →
      Folds (G.contract T) → Folds G
  | cut {G : Outline α} {v : α} : outs G.arcs v = {v} → Folds (G.cut v) → Folds G

/-! ## Names -/

end Outline

variable {f : α → β}

theorem outs_map {A : Multiset (α × α)} {m : α} (h : ∀ a ∈ A, f a.1 = f m → a.1 = m) :
    outs (A.map (Prod.map f f)) (f m) = (outs A m).map f := by
  rw [outs, Multiset.filter_map, Multiset.map_map, outs, Multiset.map_map]
  rw [Multiset.filter_congr (q := fun a => a.1 = m)]
  · rfl
  · exact fun a ha => ⟨h a ha, fun heq => congrArg f heq⟩

theorem ins_map {A : Multiset (α × α)} {m : α} (h : ∀ a ∈ A, f a.2 = f m → a.2 = m) :
    ins (A.map (Prod.map f f)) (f m) = (ins A m).map f := by
  rw [ins, Multiset.filter_map, Multiset.map_map, ins, Multiset.map_map]
  rw [Multiset.filter_congr (q := fun a => a.2 = m)]
  · rfl
  · exact fun a ha => ⟨h a ha, fun heq => congrArg f heq⟩

omit [DecidableEq α] [DecidableEq β] in
theorem map_fan (f : α → β) (h e : α) (cs : List α) :
    (fan h cs e).map (Prod.map f f) = fan (f h) (cs.map f) (f e) := by
  simp only [fan, Multiset.map_add, Multiset.map_coe, List.map_map]
  rfl

theorem Primitive.templates_map {p : Primitive α} {T : Template α} (hT : T ∈ p.templates)
    (hinj : Set.InjOn f {v | v ∈ T.members}) : T.map f ∈ (p.map f).templates := by
  cases p with
  | postLoop b c e =>
    simp only [templates] at hT
    split at hT
    · next heq =>
      obtain rfl := List.mem_singleton.1 hT
      subst heq
      simp [templates, Template.map, Primitive.map]
    · next hne =>
      obtain rfl := List.mem_singleton.1 hT
      have hne' : f b ≠ f c := fun h => hne (hinj (by simp) (by simp) h)
      simp [templates, Template.map, Primitive.map, hne']
  | nWay h cs e =>
    simp only [templates, List.mem_append, List.mem_ite_nil_right, List.mem_singleton,
      Primitive.map, List.length_map] at hT ⊢
    rcases hT with ⟨hlen, rfl⟩ | ⟨hlen, rfl⟩
    · exact .inl ⟨hlen, by simp [Template.map, map_fan]⟩
    · exact .inr ⟨hlen, by simp [Template.map, map_fan]⟩
  | _ =>
    obtain rfl := List.mem_singleton.1 hT
    simp [templates, Template.map, Primitive.map]

namespace Outline

variable {G : Outline α} {T : Template α}

theorem at_map (hG : G.Valid) (hs : T.Sound) (h : T.At G) (hinj : Set.InjOn f G.nodes) :
    (T.map f).At (G.map f) := by
  have hmem := h.mem_nodes
  have hnodes : ∀ a ∈ G.arcs, a.1 ∈ G.nodes ∧ a.2 ∈ G.nodes := fun a ha => hG.closed ha
  have hinner : ∀ a ∈ T.inner, a.1 ∈ G.nodes ∧ a.2 ∈ G.nodes := fun a ha =>
    ⟨hmem _ (hs.inner_mem a ha).1, hmem _ (hs.inner_mem a ha).2.1⟩
  refine ⟨h.nodup.map_on fun a ha b hb => hinj (hmem a ha) (hmem b hb), fun m hm => ?_,
    fun m hm hx => ?_, fun m hm hne => ?_, fun hroot => ?_⟩
  · obtain ⟨v, hv, rfl⟩ := List.mem_map.1 hm
    exact Finset.mem_image_of_mem f (hmem v hv)
  · obtain ⟨v, hv, rfl⟩ := List.mem_map.1 hm
    have hvx : T.exit? ≠ some v := fun heq => hx (by simp [Template.map, heq])
    simp only [Outline.map, Template.map]
    rw [outs_map fun a ha => hinj (hnodes a ha).1 (hmem v hv),
      outs_map fun a ha => hinj (hinner a ha).1 (hmem v hv), h.outs_eq v hv hvx]
  · obtain ⟨v, hv, rfl⟩ := List.mem_map.1 hm
    have hve : v ≠ T.entry := fun heq => hne (by simp [Template.map, heq])
    simp only [Outline.map, Template.map]
    rw [ins_map fun a ha => hinj (hnodes a ha).2 (hmem v hv),
      ins_map fun a ha => hinj (hinner a ha).2 (hmem v hv), h.ins_eq v hv hve]
  · obtain ⟨v, hv, heq⟩ := List.mem_map.1 hroot
    have hv' : v = G.entry := hinj (hmem v hv) hG.entry_mem heq
    exact congrArg f (h.entry_eq (hv' ▸ hv))

theorem contract_map (hG : G.Valid) (hs : T.Sound) (h : T.At G) (hinj : Set.InjOn f G.nodes) :
    (G.map f).contract (T.map f) = (G.contract T).map f := by
  obtain ⟨F, hF, -⟩ := h.split hs
  have hmem := h.mem_nodes
  have hrename : ∀ v ∈ G.nodes, (T.map f).rename (f v) = f (T.rename v) := by
    intro v hv
    have hiff : (T.map f).exit? = some (f v) ↔ T.exit? = some v := by
      simp only [Template.map, Option.map_eq_some_iff]
      constructor
      · rintro ⟨x, hx, heq⟩
        rwa [← hinj (hmem x (hs.exit_mem x hx).1) hv heq]
      · exact fun hx => ⟨v, hx, rfl⟩
    simp only [Template.rename, hiff]
    split
    · rfl
    · rfl
  have hnodes : ((G.map f).contract (T.map f)).nodes = ((G.contract T).map f).nodes := by
    ext w
    simp only [mem_contract, Outline.map, Finset.mem_image]
    constructor
    · rintro ⟨⟨v, hv, rfl⟩, hentry⟩
      refine ⟨v, ⟨hv, fun hm => ?_⟩, rfl⟩
      exact hinj hv (hmem _ hs.entry_mem) (hentry (List.mem_map_of_mem hm))
    · rintro ⟨v, ⟨hvG, hvT⟩, rfl⟩
      refine ⟨⟨v, hvG, rfl⟩, fun hm => ?_⟩
      obtain ⟨u, hu, heq⟩ := List.mem_map.1 hm
      exact congrArg f (hvT (hinj (hmem u hu) hvG heq ▸ hu))
  have harcs : ((G.map f).contract (T.map f)).arcs = ((G.contract T).map f).arcs := by
    have hF' : (G.map f).arcs = (T.map f).inner + F.map (Prod.map f f) := by
      simp only [Outline.map, Template.map, hF, Multiset.map_add]
    rw [contract_arcs hF']
    simp only [Outline.map, contract_arcs hF, Multiset.map_map]
    refine Multiset.map_congr rfl fun a ha => ?_
    have hmem : G.Leads a.1 a.2 := by
      rw [Leads, hF]
      exact Multiset.mem_add.2 (.inr ha)
    obtain ⟨hu, hv⟩ := hG.closed hmem
    simp only [Function.comp_apply, Prod.map, hrename _ hu, hrename _ hv]
  exact Outline.ext hnodes harcs rfl

/-- Names that are taken back give the outline again. -/
theorem Valid.map_map_cancel {f' : β → α} (hG : G.Valid) (h : ∀ v ∈ G.nodes, f' (f v) = v) :
    (G.map f).map f' = G := by
  refine Outline.ext ?_ ?_ (h _ hG.entry_mem)
  · simp only [Outline.map, Finset.image_image]
    calc G.nodes.image (f' ∘ f) = G.nodes.image id := Finset.image_congr fun v hv => h v hv
      _ = G.nodes := Finset.image_id
  · simp only [Outline.map, Multiset.map_map]
    calc G.arcs.map (Prod.map f' f' ∘ Prod.map f f) = G.arcs.map id :=
          Multiset.map_congr rfl fun a ha => by
            obtain ⟨hu, hv⟩ := hG.closed (u := a.1) (v := a.2) ha
            exact Prod.ext (h _ hu) (h _ hv)
      _ = G.arcs := Multiset.map_id _

theorem cut_map (h : (v, v) ∈ G.arcs) : (G.map f).cut (f v) = (G.cut v).map f :=
  Outline.ext rfl (Multiset.map_erase_of_mem (Prod.map f f) G.arcs h).symm rfl

theorem Folds.map (h : G.Folds) (hG : G.Valid) (hinj : Set.InjOn f G.nodes) : (G.map f).Folds := by
  induction h with
  | single hcard => exact .single (Finset.card_image_le.trans hcard)
  | step hT hat _ ih =>
    have hs := Primitive.sound hT hat.nodup
    have hinj' := hinj.mono fun v hv => hat.mem_nodes v hv
    refine .step (Primitive.templates_map hT hinj') (at_map hG hs hat hinj) ?_
    rw [contract_map hG hs hat hinj]
    exact ih (hG.contract hs hat) (hinj.mono fun v hv => (mem_contract.1 hv).1)
  | @cut G v hloop _ ih =>
    have hmem := mem_of_loop hloop
    have hloop' : outs (G.map f).arcs (f v) = {f v} := by
      simp only [Outline.map]
      rw [outs_map fun a ha => hinj (hG.closed ha).1 (hG.closed hmem).1, hloop]
      rfl
    refine .cut hloop' ?_
    rw [cut_map hmem]
    exact ih (hG.cut v) hinj

end Outline

end Structuring
