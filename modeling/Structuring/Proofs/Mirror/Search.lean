import Structuring.Proofs.Mirror.Graph
import Structuring.Proofs.Reduction.Complete

/-!
# The search for primitives in mirrored graphs

The candidates at a node are read off the successors, so that they correspond in order. Which of them
pass the test is told by the outline, whatever the dominator trees look like.

* `Mirrors.candidates` — the candidates at corresponding nodes.
* `Mirrors.holds_map` — corresponding nodes pass the test of a primitive or fail it together.
* `Mirrors.findMatch` — the first primitives that are found correspond.
-/

namespace Structuring

namespace Primitive

variable {α β γ : Type}

theorem map_map (f : α → β) (f' : β → γ) (p : Primitive α) : (p.map f).map f' = p.map (f' ∘ f) := by
  cases p <;> simp [map]

@[simp] theorem map_id (p : Primitive α) : p.map id = p := by
  cases p <;> simp [map]

/-- Only what becomes of the players counts. -/
theorem map_congr {f f' : α → β} {p : Primitive α} (hf : ∀ a ∈ p.players, f a = f' a) :
    p.map f = p.map f' := by
  cases p with
  | nWay h cs e =>
    simp only [players, roles, List.map_cons, List.map_append, caseRoles_players, List.map_nil,
      List.cons_append, List.mem_cons, List.mem_append, List.not_mem_nil, or_false] at hf
    have hcs : cs.map f = cs.map f' := List.map_congr_left fun c hc => hf c (.inr (.inl hc))
    rw [map, map, hcs, hf h (.inl rfl), hf e (.inr (.inr rfl))]
  | _ =>
    simp only [players, roles, List.map_cons, List.map_nil, List.mem_cons, List.not_mem_nil,
      or_false, forall_eq_or_imp, forall_eq] at hf
    simp [map, hf]

end Primitive

theorem findSome?_congr {α β : Type} {f f' : α → Option β} {as : List α}
    (h : ∀ a ∈ as, f a = f' a) : as.findSome? f = as.findSome? f' := by
  rw [← List.head?_filterMap, ← List.head?_filterMap, List.filterMap_congr h]

namespace FlowGraph

theorem mem_successors_of_twoWay {g : FlowGraph} {n a b : NodeId} (h : (a, b) ∈ g.twoWay n) :
    a ∈ g.successors n ∧ b ∈ g.successors n := by
  unfold twoWay at h
  split at h
  · next x y hs =>
    rw [hs]
    simp only [List.mem_cons, Prod.mk.injEq, List.not_mem_nil, or_false] at h ⊢
    grind
  · cases h

theorem players_mem_of_candidate {g : FlowGraph} {n : NodeId} {p : Primitive NodeId} {k : Kind}
    (hg : g.WellFormed) (hn : n ∈ g.ids) (hp : p ∈ k.candidates g n) :
    ∀ v ∈ p.players, v ∈ g.ids := by
  have hsucc : ∀ {u}, ∀ v ∈ g.successors u, v ∈ g.ids := fun v => successors_mem hg
  have htwo : ∀ {a b}, (a, b) ∈ g.twoWay n → a ∈ g.ids ∧ b ∈ g.ids := fun hab =>
    (mem_successors_of_twoWay hab).imp (hsucc _) (hsucc _)
  cases k <;> simp only [Kind.candidates] at hp
  case preLoop | ifReturn | ifThen =>
    obtain ⟨⟨b, e⟩, hbe, rfl⟩ := List.mem_map.1 hp
    simp [Primitive.players, Primitive.roles, hn, htwo hbe]
  case postLoop =>
    split at hp
    · obtain ⟨e, he, rfl⟩ := List.mem_map.1 hp
      simp [Primitive.players, Primitive.roles, hn, hsucc e (List.mem_of_mem_filter he)]
    · split at hp
      · next c hs =>
        obtain ⟨e, he, rfl⟩ := List.mem_map.1 hp
        have hc : c ∈ g.ids := hsucc c (hs ▸ List.mem_cons_self)
        simp [Primitive.players, Primitive.roles, hn, hc, hsucc e (List.mem_of_mem_filter he)]
      · cases hp
  case ifElse =>
    split at hp
    · next y x hs =>
      obtain ⟨e, he, rfl⟩ := List.mem_map.1 hp
      have hy : y ∈ g.ids := hsucc y (hs ▸ List.mem_cons_self)
      have hx : x ∈ g.ids := hsucc x (hs ▸ List.mem_cons_of_mem _ List.mem_cons_self)
      simp [Primitive.players, Primitive.roles, hn, hy, hx, hsucc e he]
    · cases hp
  case ifElseReturn =>
    split at hp
    · next y x hs =>
      obtain rfl := List.mem_singleton.1 hp
      have hy : y ∈ g.ids := hsucc y (hs ▸ List.mem_cons_self)
      have hx : x ∈ g.ids := hsucc x (hs ▸ List.mem_cons_of_mem _ List.mem_cons_self)
      simp [Primitive.players, Primitive.roles, hn, hy, hx]
    · cases hp
  case fallthrough | sequence =>
    split at hp
    · next e hs =>
      obtain rfl := List.mem_singleton.1 hp
      have he : e ∈ g.ids := hsucc e (hs ▸ List.mem_cons_self)
      simp [Primitive.players, Primitive.roles, hn, he]
    · cases hp
  case nWay =>
    split at hp
    · cases hp
    · obtain ⟨e, he, rfl⟩ := List.mem_map.1 hp
      obtain ⟨u, -, hue⟩ := List.mem_flatMap.1 (mem_distinct.1 he)
      intro v hv
      simp only [Primitive.players, Primitive.roles, List.map_cons, List.map_append,
        List.cons_append, List.mem_cons, List.mem_append, Primitive.caseRoles_players] at hv
      rcases hv with rfl | hv | hv
      · exact hn
      · exact hsucc v (List.mem_of_mem_filter hv)
      · simp only [List.map_nil, List.not_mem_nil, or_false] at hv
        exact hv ▸ hsucc e hue

namespace Mirrors

variable {g h : FlowGraph} {root n v : NodeId} {φ : NodeId → NodeId} {t t' : DominatorTree NodeId}
  {p : Primitive NodeId} {T : Template NodeId} {ms : List NodeId} {within : Option (List NodeId)}

/-! ## Candidates -/

theorem twoWay (hm : Mirrors g h φ) (hn : n ∈ g.ids) :
    h.twoWay (φ n) = (g.twoWay n).map (Prod.map φ φ) := by
  unfold FlowGraph.twoWay
  rw [hm.successors hn]
  rcases g.successors n with _ | ⟨a, _ | ⟨b, _ | ⟨c, l⟩⟩⟩ <;> rfl

theorem filter_ne (hm : Mirrors g h φ) (hms : ∀ v ∈ ms, v ∈ g.ids) (hn : n ∈ g.ids) :
    ((ms.map φ).filter fun v => v ≠ φ n) = (ms.filter fun v => v ≠ n).map φ := by
  rw [List.filter_map]
  refine congrArg _ (List.filter_congr fun v hv => ?_)
  have hiff : φ v = φ n ↔ v = n := ⟨hm.injOn (hms v hv) hn, congrArg φ⟩
  simp only [Function.comp_apply, ne_eq, hiff]

theorem candidates (hm : Mirrors g h φ) (hn : n ∈ g.ids) (k : Kind) :
    k.candidates h (φ n) = (k.candidates g n).map (Primitive.map φ) := by
  have hsuccs := hm.successors hn
  have hmem : ∀ {u}, ∀ v ∈ g.successors u, v ∈ g.ids := fun v => successors_mem hm.left
  cases k with
  | preLoop =>
    simp only [Kind.candidates, hm.twoWay hn, List.map_map]
    rfl
  | postLoop =>
    simp only [Kind.candidates, hsuccs, hm.contains_map hmem hn]
    split
    · rw [hm.filter_ne hmem hn, List.map_map, List.map_map]
      rfl
    · have hone : ∀ c ∈ g.successors n, ((h.successors (φ c)).filter fun v => v ≠ φ n) =
          ((g.successors c).filter fun v => v ≠ n).map φ := fun c hc => by
        rw [hm.successors (hmem c hc), hm.filter_ne hmem hn]
      rcases hs : g.successors n with _ | ⟨a, _ | ⟨b, l⟩⟩
      · rfl
      · simp only [List.map_cons, List.map_nil, hone a (hs ▸ List.mem_cons_self), List.map_map]
        rfl
      · rfl
  | ifElseReturn =>
    simp only [Kind.candidates, hsuccs]
    rcases g.successors n with _ | ⟨a, _ | ⟨b, _ | ⟨c, l⟩⟩⟩ <;> rfl
  | ifReturn =>
    simp only [Kind.candidates, hm.twoWay hn, List.map_map]
    rfl
  | ifThen =>
    simp only [Kind.candidates, hm.twoWay hn, List.map_map]
    rfl
  | ifElse =>
    have hone : ∀ c ∈ g.successors n, h.successors (φ c) = (g.successors c).map φ :=
      fun c hc => hm.successors (hmem c hc)
    simp only [Kind.candidates, hsuccs]
    rcases hs : g.successors n with _ | ⟨a, _ | ⟨b, _ | ⟨c, l⟩⟩⟩
    · rfl
    · rfl
    · simp only [List.map_cons, List.map_nil, hone a (hs ▸ List.mem_cons_self), List.map_map]
      rfl
    · rfl
  | fallthrough =>
    simp only [Kind.candidates, hsuccs]
    rcases g.successors n with _ | ⟨a, _ | ⟨b, l⟩⟩ <;> rfl
  | sequence =>
    simp only [Kind.candidates, hsuccs]
    rcases g.successors n with _ | ⟨a, _ | ⟨b, l⟩⟩ <;> rfl
  | nWay =>
    have hnext : ((g.successors n).map φ).flatMap h.successors =
        ((g.successors n).flatMap g.successors).map φ := by
      rw [List.flatMap_map, List.map_flatMap]
      exact List.flatMap_congr fun v hv => hm.successors (hmem v hv)
    have hnextmem : ∀ v ∈ (g.successors n).flatMap g.successors, v ∈ g.ids := by
      intro v hv
      obtain ⟨u, -, huv⟩ := List.mem_flatMap.1 hv
      exact hmem v huv
    simp only [Kind.candidates, hsuccs, hnext, List.length_map]
    split
    · rfl
    · rw [distinct_map fun a ha b hb => hm.injOn (hnextmem a ha) (hnextmem b hb), List.map_map,
        List.map_map]
      refine List.map_congr_left fun e he => ?_
      simp only [Function.comp_apply, Primitive.map,
        hm.filter_ne hmem (hnextmem e (mem_distinct.1 he))]

/-! ## The test -/

theorem holds_of_holds (hm : Mirrors g h φ) (hroot : g.Rooted root) (ht : g.Tells root t)
    (ht' : h.Tells (φ root) t') (hp : p.holds g t = true) : (p.map φ).holds h t' = true := by
  obtain ⟨T, hT, hat⟩ := (holds_iff hm.left hroot ht).1 hp
  have hinj : Set.InjOn φ (g.outline root).nodes := fun u hu v hv heq =>
    hm.injOn (List.mem_toFinset.1 hu) (List.mem_toFinset.1 hv) heq
  refine (holds_iff hm.right (hm.rooted hroot) ht').2
    ⟨T.map φ, Primitive.templates_map hT (hinj.mono fun v hv => hat.mem_nodes v hv), ?_⟩
  rw [← hm.outline root]
  exact Outline.at_map (valid_outline hm.left hroot) (Primitive.sound hT hat.nodup) hat hinj

theorem holds_map (hm : Mirrors g h φ) (hroot : g.Rooted root) (ht : g.Tells root t)
    (ht' : h.Tells (φ root) t') (hp : ∀ v ∈ p.players, v ∈ g.ids) :
    (p.map φ).holds h t' = p.holds g t := by
  rw [Bool.eq_iff_iff]
  refine ⟨fun hh => ?_, hm.holds_of_holds hroot ht ht'⟩
  obtain ⟨ψ, hψ, hback⟩ := hm.symm
  have hroot' : ψ (φ root) = root := hback root (hm.left.entry_mem root hroot.1)
  have hback' := hψ.holds_of_holds (hm.rooted hroot) ht' (hroot'.symm ▸ ht) hh
  have hself : p.map (ψ ∘ φ) = p.map id := Primitive.map_congr fun v hv => hback v (hp v hv)
  rwa [Primitive.map_map, hself, Primitive.map_id] at hback'

/-! ## The search -/

theorem isWithin_map (hm : Mirrors g h φ) (hwithin : ∀ ns ∈ within, ∀ v ∈ ns, v ∈ g.ids)
    (hp : ∀ v ∈ p.players, v ∈ g.ids) :
    isWithin (within.map (List.map φ)) (p.map φ) = isWithin within p := by
  cases within with
  | none => rfl
  | some ns =>
    simp only [isWithin, Option.map_some, Primitive.players_map, List.all_map]
    rw [Bool.eq_iff_iff, List.all_eq_true, List.all_eq_true]
    refine forall₂_congr fun v hv => ?_
    rw [Function.comp_apply, hm.contains_map (hwithin ns rfl) (hp v hv)]

/-- The first primitives of a kind at corresponding nodes correspond. -/
theorem matchAt (hm : Mirrors g h φ) (hroot : g.Rooted root) (ht : g.Tells root t)
    (ht' : h.Tells (φ root) t') (hwithin : ∀ ns ∈ within, ∀ v ∈ ns, v ∈ g.ids) (hn : n ∈ g.ids)
    (k : Kind) : h.matchAt t' (within.map (List.map φ)) k (φ n) =
      (g.matchAt t within k n).map (Primitive.map φ) := by
  unfold FlowGraph.matchAt
  rw [hm.candidates hn, List.find?_map]
  congr 1
  refine List.find?_congr fun p hp => ?_
  have hmem := players_mem_of_candidate hm.left hn hp
  rw [Function.comp_apply, hm.isWithin_map hwithin hmem, hm.holds_map hroot ht ht' hmem]

theorem searched (hm : Mirrors g h φ) (hwithin : ∀ ns ∈ within, ∀ v ∈ ns, v ∈ g.ids) :
    h.searched (within.map (List.map φ)) = (g.searched within).map φ := by
  cases within with
  | none => exact hm.ids
  | some ns => exact hm.ids_filter fun v hv => hm.contains_map (hwithin ns rfl) hv

theorem findMatch (hm : Mirrors g h φ) (hroot : g.Rooted root) (ht : g.Tells root t)
    (ht' : h.Tells (φ root) t') (hwithin : ∀ ns ∈ within, ∀ v ∈ ns, v ∈ g.ids) :
    h.findMatch t' (within.map (List.map φ)) = (g.findMatch t within).map (Primitive.map φ) := by
  have hmem : ∀ n ∈ g.searched within, n ∈ g.ids := by
    cases within with
    | none => exact fun _ => id
    | some ns => exact fun n hn => List.mem_of_mem_filter hn
  rw [findMatch_eq, findMatch_eq, hm.searched hwithin, List.findSome?_map, List.map_findSome?]
  refine findSome?_congr fun n hn => ?_
  rw [Function.comp_apply, Function.comp_apply, List.map_findSome?]
  exact findSome?_congr fun k _ => hm.matchAt hroot ht ht' hwithin (hmem n hn) k

end Mirrors

end FlowGraph

end Structuring
