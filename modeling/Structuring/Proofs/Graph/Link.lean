import Mathlib.Data.Multiset.Filter
import Structuring.Proofs.Graph.WellFormed

/-!
# Links

An edge without its number: two ends and attributes. The links of a graph are a multiset, so that
graphs can be compared whatever the order and the numbers of their edges.

* `Link`, `Digraph.links` — the links of a graph.
* `Link.Proper` — the two ends differ.
* `proper_map_proper` — two renamings of the ends, one after the other, may drop the links that the
  first one turns into loops.
-/

namespace Structuring

variable {α β γ : Type}

structure Link (α : Type) where
  source : α
  target : α
  attributes : Attributes
  deriving DecidableEq

namespace Link

def map (f : α → β) (l : Link α) : Link β := ⟨f l.source, f l.target, l.attributes⟩

@[simp] theorem map_mk (f : α → β) (a b : α) (x : Attributes) :
    map f ⟨a, b, x⟩ = ⟨f a, f b, x⟩ := rfl

@[simp] theorem map_id (l : Link α) : map id l = l := rfl

def Proper (l : Link α) : Prop := l.source ≠ l.target

instance [DecidableEq α] : DecidablePred (Proper (α := α)) :=
  fun l => inferInstanceAs (Decidable (l.source ≠ l.target))

theorem Proper.of_map {f : α → β} {l : Link α} (h : (l.map f).Proper) : l.Proper :=
  fun hl => h (congrArg f hl)

end Link

def proper [DecidableEq α] (ls : Multiset (Link α)) : Multiset (Link α) := ls.filter Link.Proper

theorem proper_map_proper [DecidableEq α] [DecidableEq β] (f : α → β) (ls : Multiset (Link α)) :
    proper ((proper ls).map (Link.map f)) = proper (ls.map (Link.map f)) := by
  simp only [proper, Multiset.filter_map, Multiset.filter_filter]
  congr 1
  refine Multiset.filter_congr fun l _ => ?_
  exact ⟨And.left, fun h => ⟨h, Link.Proper.of_map h⟩⟩

def Edge.link (e : Edge) : Link NodeId := ⟨e.source, e.target, e.attributes⟩

namespace Digraph

def links (g : Digraph β) : Multiset (Link NodeId) := (g.edges.map Edge.link : List (Link NodeId))

theorem mem_links {g : Digraph β} {l : Link NodeId} : l ∈ g.links ↔ ∃ e ∈ g.edges, e.link = l := by
  simp [links]

theorem leads_iff {g : Digraph β} {u v : NodeId} : g.Leads u v ↔ ∃ a, ⟨u, v, a⟩ ∈ g.links := by
  constructor
  · rintro ⟨e, he, rfl, rfl⟩
    exact ⟨e.attributes, mem_links.2 ⟨e, he, rfl⟩⟩
  · rintro ⟨a, ha⟩
    obtain ⟨e, he, hl⟩ := mem_links.1 ha
    exact ⟨e, he, congrArg Link.source hl, congrArg Link.target hl⟩

end Digraph

/-- Sorting a list by a key, for the keys of a list without repetitions, leaves what has one of
them. -/
theorem flatMap_filter_perm [DecidableEq α] (key : β → α) {ks : List α} (hks : ks.Nodup)
    (es : List β) :
    (ks.flatMap fun k => es.filter fun e => key e = k).Perm
      (es.filter fun e => key e ∈ ks) := by
  induction ks with
  | nil => simp
  | cons k ks ih =>
    rw [List.nodup_cons] at hks
    rw [List.flatMap_cons]
    have hsplit : (es.filter fun e => decide (key e ∈ k :: ks)).Perm
        (((es.filter fun e => decide (key e ∈ k :: ks)).filter fun e => decide (key e = k)) ++
          ((es.filter fun e => decide (key e ∈ k :: ks)).filter fun e => !decide (key e = k))) :=
      (List.filter_append_perm _ _).symm
    refine (List.Perm.append ?_ ((ih hks.2).trans ?_)).trans hsplit.symm
    · rw [List.filter_filter]
      refine List.Perm.of_eq (List.filter_congr fun e _ => ?_)
      by_cases h : key e = k
      · simp [h]
      · simp [h]
    · rw [List.filter_filter]
      refine List.Perm.of_eq (List.filter_congr fun e _ => ?_)
      by_cases h : key e = k
      · simp [h, hks.1]
      · simp [h]

end Structuring
