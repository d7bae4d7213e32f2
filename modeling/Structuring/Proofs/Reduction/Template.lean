import Structuring.Proofs.Graph.Link
import Structuring.Reduction.Pattern

/-!
# Templates

What a primitive demands of the edges of a graph, as data: its members with their two ends, and the
arcs inside. A template stands in a graph if all arcs out of a member that is not the exit, and all
arcs into a member that is not the entry, are those inside.

* `Outline` — vertices, arcs and entry of a graph, without numbers and attributes of edges.
* `Template`, `Primitive.templates` — the templates of a primitive; a multiway branch has two.
* `Template.At` — a template stands in an outline.
* `Template.At.split` — the arcs of the outline are then those inside and others, which leave from the
  exit and lead to the entry only.
* `Primitive.sound` — what all templates have in common.
-/

namespace Structuring

open Relation

/-- The vertices, the arcs and the entry of a graph. -/
@[ext]
structure Outline (α : Type) where
  nodes : Finset α
  arcs : Multiset (α × α)
  entry : α

structure Template (α : Type) where
  members : List α
  entry : α
  exit? : Option α
  inner : Multiset (α × α)

variable {α : Type} [DecidableEq α]

/-! ## Arcs at a vertex -/

def outs (A : Multiset (α × α)) (m : α) : Multiset α := (A.filter (·.1 = m)).map (·.2)

def ins (A : Multiset (α × α)) (m : α) : Multiset α := (A.filter (·.2 = m)).map (·.1)

@[simp] theorem mem_outs {A : Multiset (α × α)} {m v : α} : v ∈ outs A m ↔ (m, v) ∈ A := by
  simp [outs]

@[simp] theorem mem_ins {A : Multiset (α × α)} {m u : α} : u ∈ ins A m ↔ (u, m) ∈ A := by
  simp [ins]

@[simp] theorem outs_zero (m : α) : outs 0 m = 0 := rfl

@[simp] theorem ins_zero (m : α) : ins 0 m = 0 := rfl

@[simp] theorem outs_cons (a : α × α) (A : Multiset (α × α)) (m : α) :
    outs (a ::ₘ A) m = if a.1 = m then a.2 ::ₘ outs A m else outs A m := by
  unfold outs
  split <;> simp [*]

@[simp] theorem ins_cons (a : α × α) (A : Multiset (α × α)) (m : α) :
    ins (a ::ₘ A) m = if a.2 = m then a.1 ::ₘ ins A m else ins A m := by
  unfold ins
  split <;> simp [*]

@[simp] theorem outs_singleton (a : α × α) (m : α) :
    outs {a} m = if a.1 = m then {a.2} else 0 := by
  unfold outs
  split <;> simp [Multiset.filter_singleton, *]

@[simp] theorem ins_singleton (a : α × α) (m : α) :
    ins {a} m = if a.2 = m then {a.1} else 0 := by
  unfold ins
  split <;> simp [Multiset.filter_singleton, *]

@[simp] theorem outs_add (A B : Multiset (α × α)) (m : α) :
    outs (A + B) m = outs A m + outs B m := by
  simp [outs]

@[simp] theorem ins_add (A B : Multiset (α × α)) (m : α) :
    ins (A + B) m = ins A m + ins B m := by
  simp [ins]

theorem count_outs (A : Multiset (α × α)) (m v : α) : (outs A m).count v = A.count (m, v) := by
  induction A using Multiset.induction_on with
  | empty => rfl
  | cons a A ih =>
    obtain ⟨x, y⟩ := a
    simp only [outs_cons, Multiset.count_cons, Prod.mk.injEq]
    by_cases hx : x = m
    · subst hx
      simp [ih, Multiset.count_cons]
    · have : ¬ m = x := fun h => hx h.symm
      simp [hx, ih, this]

theorem count_ins (A : Multiset (α × α)) (m u : α) : (ins A m).count u = A.count (u, m) := by
  induction A using Multiset.induction_on with
  | empty => rfl
  | cons a A ih =>
    obtain ⟨x, y⟩ := a
    simp only [ins_cons, Multiset.count_cons, Prod.mk.injEq]
    by_cases hy : y = m
    · subst hy
      simp [ih, Multiset.count_cons]
    · have : ¬ m = y := fun h => hy h.symm
      simp [hy, ih, this]

/-! ## Templates in an outline -/

namespace Template

/-- The template stands in an outline: the arcs at its members are those inside, except those out of
the exit and those into the entry. -/
structure At (T : Template α) (G : Outline α) : Prop where
  nodup : T.members.Nodup
  mem_nodes : ∀ m ∈ T.members, m ∈ G.nodes
  outs_eq : ∀ m ∈ T.members, T.exit? ≠ some m → outs G.arcs m = outs T.inner m
  ins_eq : ∀ m ∈ T.members, m ≠ T.entry → ins G.arcs m = ins T.inner m
  entry_eq : G.entry ∈ T.members → G.entry = T.entry

/-- What the templates of all primitives have in common. -/
structure Sound (T : Template α) : Prop where
  entry_mem : T.entry ∈ T.members
  exit_mem : ∀ x, T.exit? = some x → x ∈ T.members ∧ x ≠ T.entry
  inner_mem : ∀ a ∈ T.inner, a.1 ∈ T.members ∧ a.2 ∈ T.members ∧ T.exit? ≠ some a.1
  /-- Between other members than the entry the arcs lead to the exit. -/
  inner_exit : ∀ a ∈ T.inner, a.1 ≠ T.entry → a.2 ≠ T.entry → T.exit? = some a.2
  /-- From the entry an arc leads to every member but the exit. -/
  branch : ∀ u ∈ T.members, u ≠ T.entry → T.exit? ≠ some u → (T.entry, u) ∈ T.inner
  /-- The exit is entered from the entry, or else from all that the entry leads to. -/
  merge : ∀ x, T.exit? = some x → (T.entry, x) ∈ T.inner ∨
    ∀ u, (T.entry, u) ∈ T.inner → (u, x) ∈ T.inner ∧
      ∀ v, (u, v) ∈ T.inner → v = T.entry ∨ v = x
  /-- A member between the two ends returns, leads back to the entry, or leads to the exit like
  another one. -/
  leaf : ∀ u ∈ T.members, u ≠ T.entry → T.exit? ≠ some u →
    (∀ v, (u, v) ∉ T.inner) ∨ (u, T.entry) ∈ T.inner ∨
      ∃ x, T.exit? = some x ∧ (∀ v, (u, v) ∈ T.inner → v = x) ∧ ∃ u', u' ≠ u ∧ (u', x) ∈ T.inner
  leads : ∃ v, v ≠ T.entry ∧ (T.entry, v) ∈ T.inner
  /-- If the entry leads to just one member, that one is entered from there only. -/
  narrow : ∀ w, w ≠ T.entry → (∀ v, (T.entry, v) ∈ T.inner → v = w) →
    ∀ u, (u, w) ∈ T.inner → u = T.entry

/-- The arcs of an outline in which a template stands: those inside and others, which touch the
members only where they leave from the exit or lead to the entry. -/
theorem At.split {T : Template α} {G : Outline α} (hs : T.Sound) (h : T.At G) :
    ∃ F, G.arcs = T.inner + F ∧
      ∀ a ∈ F, (a.1 ∈ T.members → T.exit? = some a.1) ∧ (a.2 ∈ T.members → a.2 = T.entry) := by
  have hinner : G.arcs.filter (fun a => a.1 ∈ T.members ∧ T.exit? ≠ some a.1) = T.inner := by
    ext ⟨u, v⟩
    rw [Multiset.count_filter]
    split
    · next hu => rw [← count_outs, ← count_outs, h.outs_eq u hu.1 hu.2]
    · next hu =>
      refine (Multiset.count_eq_zero.2 fun hmem => hu ?_).symm
      exact ⟨(hs.inner_mem _ hmem).1, (hs.inner_mem _ hmem).2.2⟩
  refine ⟨G.arcs.filter fun a => ¬ (a.1 ∈ T.members ∧ T.exit? ≠ some a.1), ?_, ?_⟩
  · have := Multiset.filter_add_not (fun a => a.1 ∈ T.members ∧ T.exit? ≠ some a.1) G.arcs
    rw [hinner] at this
    exact this.symm
  · rintro ⟨u, v⟩ ha
    obtain ⟨hG, hu⟩ := Multiset.mem_filter.1 ha
    refine ⟨fun hum => ?_, fun hvm => ?_⟩
    · by_contra hx
      exact hu ⟨hum, hx⟩
    · -- an arc to another member than the entry is one of those inside
      by_contra hv
      have hmem : (u, v) ∈ T.inner := by
        rw [← mem_ins, ← h.ins_eq v hvm hv, mem_ins]
        exact hG
      exact hu ⟨(hs.inner_mem _ hmem).1, (hs.inner_mem _ hmem).2.2⟩

/-- An arc into the members from outside leads to the entry. -/
theorem At.entered {T : Template α} {G : Outline α} (hs : T.Sound) (h : T.At G) {u v : α}
    (huv : (u, v) ∈ G.arcs) (hu : u ∉ T.members) (hv : v ∈ T.members) : v = T.entry := by
  by_contra hne
  have hmem : (u, v) ∈ T.inner := by
    rw [← mem_ins, ← h.ins_eq v hv hne, mem_ins]
    exact huv
  exact hu (hs.inner_mem _ hmem).1

end Template

/-! ## The templates of primitives -/

theorem outs_map_left (h m : α) (S : Multiset α) :
    outs (S.map fun c => (h, c)) m = if h = m then S else 0 := by
  induction S using Multiset.induction_on with
  | empty => simp
  | cons c S ih =>
    rw [Multiset.map_cons, outs_cons, ih]
    split <;> rfl

theorem outs_map_right (e m : α) (S : Multiset α) :
    outs (S.map fun c => (c, e)) m = Multiset.replicate (S.count m) e := by
  induction S using Multiset.induction_on with
  | empty => simp
  | cons c S ih =>
    rw [Multiset.map_cons, outs_cons, ih]
    by_cases h : c = m
    · simp [h]
    · simp [h, Multiset.count_cons_of_ne (Ne.symm h)]

theorem ins_map_left (h m : α) (S : Multiset α) :
    ins (S.map fun c => (h, c)) m = Multiset.replicate (S.count m) h := by
  induction S using Multiset.induction_on with
  | empty => simp
  | cons c S ih =>
    rw [Multiset.map_cons, ins_cons, ih]
    by_cases h : c = m
    · simp [h]
    · simp [h, Multiset.count_cons_of_ne (Ne.symm h)]

theorem ins_map_right (e m : α) (S : Multiset α) :
    ins (S.map fun c => (c, e)) m = if e = m then S else 0 := by
  induction S using Multiset.induction_on with
  | empty => simp
  | cons c S ih =>
    rw [Multiset.map_cons, ins_cons, ih]
    split <;> rfl

/-- The arcs from a head to each case and from each case to an exit. -/
def fan (h : α) (cs : List α) (e : α) : Multiset (α × α) :=
  (cs : Multiset α).map (fun c => (h, c)) + (cs : Multiset α).map fun c => (c, e)

namespace Primitive

/-- The templates of a primitive. A multiway branch may lead from the head to the exit or not. -/
def templates : Primitive α → List (Template α)
  | .preLoop c b e => [⟨[c, b, e], c, some e, {(c, b), (c, e), (b, c)}⟩]
  | .postLoop b c e =>
    if b = c then [⟨[c, e], c, some e, {(c, c), (c, e)}⟩]
    else [⟨[b, c, e], b, some e, {(b, c), (c, b), (c, e)}⟩]
  | .ifElseReturn c y n => [⟨[c, y, n], c, none, {(c, y), (c, n)}⟩]
  | .ifReturn c b e => [⟨[c, b, e], c, some e, {(c, b), (c, e)}⟩]
  | .ifThen c b e => [⟨[c, b, e], c, some e, {(c, b), (c, e), (b, e)}⟩]
  | .ifElse c y n e => [⟨[c, y, n, e], c, some e, {(c, y), (c, n), (y, e), (n, e)}⟩]
  | .fallthrough c e => [⟨[c, e], c, some e, {(c, e), (c, e)}⟩]
  | .sequence a b => [⟨[a, b], a, some b, {(a, b)}⟩]
  | .nWay h cs e =>
    (if 2 ≤ cs.length then [⟨h :: e :: cs, h, some e, fan h cs e + {(h, e)}⟩] else []) ++
    (if 3 ≤ cs.length then [⟨h :: e :: cs, h, some e, fan h cs e⟩] else [])

omit [DecidableEq α] in
theorem mem_fan {h e : α} {cs : List α} {a : α × α} :
    a ∈ fan h cs e ↔ (a.1 = h ∧ a.2 ∈ cs) ∨ (a.1 ∈ cs ∧ a.2 = e) := by
  obtain ⟨u, v⟩ := a
  simp only [fan, Multiset.mem_add, Multiset.mem_map, Multiset.mem_coe, Prod.mk.injEq]
  constructor
  · rintro (⟨c, hc, rfl, rfl⟩ | ⟨c, hc, rfl, rfl⟩)
    · exact .inl ⟨rfl, hc⟩
    · exact .inr ⟨hc, rfl⟩
  · rintro (⟨rfl, hv⟩ | ⟨hu, rfl⟩)
    · exact .inl ⟨v, hv, rfl, rfl⟩
    · exact .inr ⟨u, hu, rfl, rfl⟩

section Fan

variable {h e c : α} {cs : List α}

theorem outs_fan_head (hh : h ∉ cs) : outs (fan h cs e) h = ↑cs := by
  rw [fan, outs_add, outs_map_left, outs_map_right, if_pos rfl, Multiset.coe_count,
    List.count_eq_zero_of_not_mem hh]
  simp

theorem outs_fan_case (hcs : cs.Nodup) (hh : h ∉ cs) (hc : c ∈ cs) :
    outs (fan h cs e) c = {e} := by
  have hne : h ≠ c := fun heq => hh (heq ▸ hc)
  rw [fan, outs_add, outs_map_left, outs_map_right, if_neg hne, Multiset.coe_count,
    List.count_eq_one_of_mem hcs hc]
  simp

theorem ins_fan_case (hcs : cs.Nodup) (he : e ∉ cs) (hc : c ∈ cs) :
    ins (fan h cs e) c = {h} := by
  have hne : e ≠ c := fun heq => he (heq ▸ hc)
  rw [fan, ins_add, ins_map_left, ins_map_right, if_neg hne, Multiset.coe_count,
    List.count_eq_one_of_mem hcs hc]
  simp

theorem ins_fan_exit (he : e ∉ cs) : ins (fan h cs e) e = ↑cs := by
  rw [fan, ins_add, ins_map_left, ins_map_right, if_pos rfl, Multiset.coe_count,
    List.count_eq_zero_of_not_mem he]
  simp

/-- The templates of a multiway branch, with the arc from the head to the exit and without. -/
theorem mem_templates_nWay {T : Template α} :
    T ∈ templates (.nWay h cs e) ↔
      ∃ direct : Bool, 2 ≤ cs.length ∧ 3 ≤ (if direct then e :: cs else cs).length ∧
        T = ⟨h :: e :: cs, h, some e, fan h cs e + if direct then {(h, e)} else 0⟩ := by
  simp only [templates, List.mem_append, List.mem_ite_nil_right, List.mem_singleton,
    Bool.exists_bool, Bool.false_eq_true, if_false, if_true, add_zero, List.length_cons]
  constructor
  · rintro (⟨hlen, rfl⟩ | ⟨hlen, rfl⟩)
    · exact .inr ⟨hlen, by omega, rfl⟩
    · exact .inl ⟨by omega, hlen, rfl⟩
  · rintro (⟨-, hlen, rfl⟩ | ⟨hlen, -, rfl⟩)
    · exact .inr ⟨hlen, rfl⟩
    · exact .inl ⟨hlen, rfl⟩

end Fan

theorem sound_nWay {h e : α} {cs : List α} {T : Template α} (hT : T ∈ templates (.nWay h cs e))
    (hnd : T.members.Nodup) : T.Sound := by
  obtain ⟨direct, hlen, -, rfl⟩ := mem_templates_nWay.1 hT
  simp only [List.nodup_cons, List.mem_cons, not_or] at hnd
  obtain ⟨⟨hhe, hh⟩, he, hcs⟩ := hnd
  have hinner : ∀ u v, (u, v) ∈ fan h cs e + (if direct then {(h, e)} else 0) ↔
      (u = h ∧ v ∈ cs) ∨ (u ∈ cs ∧ v = e) ∨ (direct = true ∧ u = h ∧ v = e) := by
    intro u v
    cases direct with
    | false => simp [mem_fan]
    | true => simp [mem_fan, or_assoc]
  obtain ⟨c₁, c₂, hc₁, hc₂, hne⟩ : ∃ c₁ c₂, c₁ ∈ cs ∧ c₂ ∈ cs ∧ c₁ ≠ c₂ := by
    rcases cs with _ | ⟨c₁, _ | ⟨c₂, cs⟩⟩
    · simp at hlen
    · simp at hlen
    · exact ⟨c₁, c₂, by simp, by simp, by grind⟩
  constructor <;> simp only [Prod.forall, hinner]
  case leads => exact ⟨c₁, fun hc => hh (hc ▸ hc₁), .inl ⟨trivial, hc₁⟩⟩
  case leaf =>
    intro u hu huh hue
    refine .inr (.inr ⟨e, rfl, by grind, ?_⟩)
    by_cases huc : u = c₁
    · exact ⟨c₂, by grind, .inr (.inl ⟨hc₂, rfl⟩)⟩
    · exact ⟨c₁, Ne.symm huc, .inr (.inl ⟨hc₁, rfl⟩)⟩
  case narrow =>
    intro w hw hall
    exact absurd ((hall c₁ (.inl ⟨trivial, hc₁⟩)).trans (hall c₂ (.inl ⟨trivial, hc₂⟩)).symm) hne
  all_goals grind

theorem sound {p : Primitive α} {T : Template α} (hT : T ∈ p.templates) (hnd : T.members.Nodup) :
    T.Sound := by
  cases p with
  | preLoop c b e | ifReturn c b e =>
    obtain rfl := List.mem_singleton.1 hT
    constructor
    case leads => exact ⟨e, by grind, by simp⟩
    all_goals simp
    all_goals grind
  | postLoop b c e =>
    simp only [templates] at hT
    split at hT
    · obtain rfl := List.mem_singleton.1 hT
      constructor
      case leads => exact ⟨e, by grind, by simp⟩
      all_goals simp
      all_goals grind
    · obtain rfl := List.mem_singleton.1 hT
      constructor
      case leads => exact ⟨c, by grind, by simp⟩
      all_goals simp
      all_goals grind
  | ifElseReturn c y n =>
    obtain rfl := List.mem_singleton.1 hT
    constructor
    case leads => exact ⟨y, by grind, by simp⟩
    all_goals simp
    all_goals grind
  | ifThen c b e =>
    obtain rfl := List.mem_singleton.1 hT
    constructor
    case leads => exact ⟨e, by grind, by simp⟩
    case leaf =>
      intro u hu hne hexit
      refine .inr (.inr ⟨e, rfl, fun v hv => ?_, c, Ne.symm hne, by simp⟩)
      simp at hv
      grind
    all_goals simp
    all_goals grind
  | ifElse c y n e =>
    obtain rfl := List.mem_singleton.1 hT
    constructor
    case leads => exact ⟨y, by grind, by simp⟩
    case leaf =>
      intro u hu hne hexit
      refine .inr (.inr ⟨e, rfl, fun v hv => by simp at hv; grind, ?_⟩)
      by_cases huy : u = y
      · exact ⟨n, by grind, by simp⟩
      · exact ⟨y, Ne.symm huy, by simp⟩
    all_goals simp
    all_goals grind
  | fallthrough c e | sequence c e =>
    obtain rfl := List.mem_singleton.1 hT
    constructor
    case leads => exact ⟨e, by grind, by simp⟩
    all_goals simp
    all_goals grind
  | nWay h cs e => exact sound_nWay hT hnd

end Primitive

end Structuring
