import Structuring.Graph.Search
import Structuring.Table

/-!
# Immediate dominators by semidominators

The algorithm of Lengauer and Tarjan with path compression.

* `LinkForest` — the vertices handled so far, linked to their parents in the search tree.
* `LinkForest.lowest` — on the way to the root of a tree, the vertex with the lowest semidominator.
* `Arcs.immediateDominators` — each reachable vertex with its immediate dominator.

Every look-up can fail as far as the types go; `none` stands for a look-up that failed.
-/

namespace Structuring

set_option linter.unusedVariables false

/-- A forest over the vertices of a search tree. `number` is the place in the order of the search,
`semi` the semidominator, `up` the link towards the root, and `best` the vertex with the lowest
semidominator among those that the link leads past. -/
structure LinkForest (α : Type) where
  number : Table α Nat
  semi : Table α α
  up : Table α α
  best : Table α α

namespace LinkForest

variable {α : Type} [DecidableEq α]

/-- The links from a vertex to the root of its tree. -/
def climb (links : Table α α) (v : α) : List (α × α) :=
  match h : links.get? v with
  | none => []
  | some a => (v, a) :: climb (links.erase v) a
termination_by links.size
decreasing_by exact Table.size_erase_lt h

/-- Links a vertex to the one above its parent, and keeps the better of their best. -/
def shorten (f : LinkForest α) (link : α × α) : Option (LinkForest α) := do
  let (v, a) := link
  let b ← f.best.get? a
  let f := { f with up := f.up.set v (← f.up.get? a) }
  let own ← f.best.get? v
  let m ← f.number.get? (← f.semi.get? b)
  let n ← f.number.get? (← f.semi.get? own)
  return if m < n then { f with best := f.best.set v b } else f

/-- Shortens links, the last of the list first. -/
def shortenAll (f : LinkForest α) : List (α × α) → Option (LinkForest α)
  | [] => some f
  | link :: rest => do (← f.shortenAll rest).shorten link

/-- The vertex with the lowest semidominator from a linked vertex up to, but not including, the root
of its tree. The links on the way are shortened. -/
def lowest (f : LinkForest α) (v : α) : Option (α × LinkForest α) := do
  if !f.up.contains v then none
  else
    let f ← f.shortenAll (climb f.up v).dropLast
    return (← f.best.get? v, f)

/-- The semidominator of that vertex. -/
def lowestSemi (f : LinkForest α) (v : α) : Option (α × LinkForest α) := do
  let (u, f) ← f.lowest v
  return (← f.semi.get? u, f)

/-- Links a vertex to its parent. No vertex is linked twice. -/
def link (f : LinkForest α) (parent v : α) : Option (LinkForest α) :=
  if f.up.contains v then none
  else some { f with up := f.up.set v parent, best := f.best.set v v }

/-- The better of `s` and what a neighbour of `v` offers as its semidominator. -/
def improve (f : LinkForest α) (v s w : α) : Option (α × LinkForest α) :=
  match f.number.get? w with
  | none => some (s, f)
  | some i => do
    let n ← f.number.get? v
    let (candidate, f) ← if i ≤ n then some (w, f) else f.lowestSemi w
    return (if (← f.number.get? candidate) < (← f.number.get? s) then candidate else s, f)

/-- The semidominator of a vertex, given the neighbours from which it is entered. -/
def semidominator (f : LinkForest α) (v s : α) : List α → Option (α × LinkForest α)
  | [] => some (s, f)
  | w :: ws => do
    let (s, f) ← f.improve v s w
    f.semidominator v s ws

end LinkForest

/-- The state of the main loop. `bucket` holds, by semidominator, the vertices whose immediate
dominator is not settled; `idom` what is settled, and `same` the vertices that have the immediate
dominator of another one. -/
structure DominatorSearch (α : Type) where
  forest : LinkForest α
  bucket : Table α (List α)
  idom : Table α (Option α)
  same : Table α α

namespace DominatorSearch

variable {α : Type} [DecidableEq α]

/-- Settles the vertices in the bucket of `parent`. -/
def emptyBucket (s : DominatorSearch α) (parent : α) : List α → Option (DominatorSearch α)
  | [] => some s
  | v :: vs => do
    let (y, f) ← s.forest.lowest v
    let s := { s with forest := f }
    let s ← if (← f.semi.get? y) = (← f.semi.get? v) then
        some { s with idom := s.idom.set v (some parent) }
      else some { s with same := s.same.set v y }
    s.emptyBucket parent vs

/-- What is done for one vertex of the search tree. -/
def handle (G : Arcs α) (s : DominatorSearch α) (parent v : α) : Option (DominatorSearch α) := do
  let (semi, f) ← s.forest.semidominator v parent (G.back v)
  let f := { f with semi := f.semi.set v semi }
  let bucket := s.bucket.set semi ((← s.bucket.get? semi) ++ [v])
  let f ← f.link parent v
  let s := { s with forest := f, bucket := bucket }
  let s ← s.emptyBucket parent (← bucket.get? parent)
  return { s with bucket := s.bucket.set parent [] }

/-- The vertices of the search tree but the start, the last first. -/
def handleAll (G : Arcs α) (s : DominatorSearch α) :
    List (Option α × α) → Option (DominatorSearch α)
  | [] => some s
  | (parent, v) :: rest => do
    let s ← s.handleAll G rest
    s.handle G (← parent) v

/-- Settles the deferred vertices in the order of the search. A vertex whose immediate dominator is
needed and not known is refused. -/
def settle (idom : Table α (Option α)) (same : Table α α) :
    List α → Except α (Table α (Option α))
  | [] => .ok idom
  | v :: vs =>
    match same.get? v with
    | none => settle idom same vs
    | some u => match idom.get? u with
      | none => .error u
      | some d => settle (idom.set v d) same vs

end DominatorSearch

namespace Arcs

variable {α : Type} [DecidableEq α]

/-- Numbers in the order of a list. -/
def numbering (i : Nat) : List α → Table α Nat → Table α Nat
  | [], t => t
  | v :: vs, t => numbering (i + 1) vs (t.set v i)

/-- An empty bucket for each vertex. -/
def emptyBuckets (vs : List α) : Table α (List α) := vs.foldl (fun t v => t.set v []) ∅

/-- Each vertex that can be reached from a start with its immediate dominator; the start has none.
On arcs whose two directions do not fit together a vertex may be left without one, and is refused if
it is needed. -/
def immediateDominators (G : Arcs α) (start : α) : Except α (Table α (Option α)) :=
  let tree := G.search start
  let vs := tree.map (·.2)
  let s : DominatorSearch α :=
    ⟨⟨numbering 0 vs ∅, ∅, ∅, ∅⟩, emptyBuckets vs, Table.empty.set start none, ∅⟩
  match s.handleAll G tree.tail with
  | none => .error start
  | some s => DominatorSearch.settle s.idom s.same (tree.tail.map (·.2))

end Arcs

end Structuring
