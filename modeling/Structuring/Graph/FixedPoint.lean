import Structuring.Graph.Search
import Structuring.Table

/-!
# Dominators by iteration

The dominators of a vertex are itself and what dominates all its predecessors. Starting from all
vertices, the sets are computed anew from those of the predecessors until none of them changes.

* `Arcs.dominatorSets` — the sets for a list of vertices and a start among them.
* `immediateOf` — the immediate dominators that such sets give.

`none` stands for a look-up that failed, for two immediate dominators of one vertex, and for passes
that never come to an end.
-/

namespace Structuring

variable {α : Type} [DecidableEq α]

/-- Whether two sets have the same elements. -/
def sameSet (s t : List α) : Bool := s.all t.contains && t.all s.contains

namespace Arcs

/-- The sets of the predecessors of a vertex, those that are not listed left out. -/
def entrySets (G : Arcs α) (sets : Table α (List α)) (v : α) : List (List α) :=
  (G.back v).filterMap sets.get?

/-- The set that its predecessors give a vertex: itself, and what is in all their sets. There is none
if no predecessor is listed. -/
def joinedSet (G : Arcs α) (sets : Table α (List α)) (v : α) : Option (List α) :=
  match G.entrySets sets v with
  | [] => none
  | s :: rest => some ((s.filter fun d => rest.all (·.contains d)).insert v)

/-- One pass over the vertices. `changed` says whether a set has changed since the pass began. -/
def refinePass (G : Arcs α) (start : α) (sets : Table α (List α)) (changed : Bool) :
    List α → Option (Table α (List α) × Bool)
  | [] => some (sets, changed)
  | v :: vs =>
    if v = start then G.refinePass start sets changed vs
    else match G.joinedSet sets v with
      | none => G.refinePass start sets changed vs
      | some set => do
        if sameSet set (← sets.get? v) then G.refinePass start sets changed vs
        else G.refinePass start (sets.set v set) true vs

/-- Passes until nothing changes. -/
def refineAll (G : Arcs α) (start : α) (vs : List α) (sets : Table α (List α)) :
    Option (Table α (List α)) := do
  let (sets, changed) ← G.refinePass start sets false vs
  if changed then G |>.refineAll start vs sets else return sets
partial_fixpoint

/-- At first the start has itself in its set, and every other vertex has all of them. -/
def initialSets (vs : List α) (start : α) : Table α (List α) :=
  vs.foldl (fun sets v => sets.set v (if v = start then [v] else distinct vs)) ∅

/-- For each of the given vertices those that are on every path to it from the start. -/
def dominatorSets (G : Arcs α) (vs : List α) (start : α) : Option (Table α (List α)) :=
  G.refineAll start vs (initialSets vs start)

end Arcs

/-- The vertex among those given whose set is `strict`, or the one that was found before them. There
is no answer if there are two. -/
def soleWith (sets : Table α (List α)) (strict : List α) (found : Option α) :
    List α → Option (Option α)
  | [] => some found
  | x :: xs => do
    if sameSet (← sets.get? x) strict then
      match found with
      | none => soleWith sets strict (some x) xs
      | some _ => none
    else soleWith sets strict found xs

/-- The vertex whose dominators are just the strict dominators of `v`. -/
def immediateIn (sets : Table α (List α)) (v : α) : Option (Option α) := do
  let strict := (← sets.get? v).filter (· ≠ v)
  soleWith sets strict none strict

/-- The immediate dominator of each vertex. -/
def immediateOf (sets : Table α (List α)) (vs : List α) : Option (Table α (Option α)) :=
  vs.foldlM (fun t v => return t.set v (← immediateIn sets v)) ∅

end Structuring
