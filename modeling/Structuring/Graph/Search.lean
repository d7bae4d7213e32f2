import Structuring.Graph.Digraph

/-!
# Depth-first search

* `Arcs` — a graph as a search sees it: its vertices and their neighbours both ways.
* `Arcs.search` — the vertices that can be reached, each with the vertex it was found from, in the
  order in which they are found.
* `Arcs.reversePostOrder` — the same vertices, those that are finished last first.
-/

namespace Structuring

set_option linter.unusedVariables false

/-- Vertices and their neighbours along the arcs and against them. -/
structure Arcs (α : Type) where
  vertices : List α
  next : α → List α
  back : α → List α

namespace Arcs

variable {α : Type} [DecidableEq α]

/-- The same arcs the other way. -/
def reverse (G : Arcs α) : Arcs α := ⟨G.vertices, G.back, G.next⟩

/-- A list without a vertex. -/
def without (vs : List α) (v : α) : List α := vs.filter (· ≠ v)

@[simp] theorem mem_without {v w : α} {vs : List α} : w ∈ without vs v ↔ w ∈ vs ∧ w ≠ v := by
  simp [without]

theorem length_without_lt {v : α} {vs : List α} (h : v ∈ vs) :
    (without vs v).length < vs.length :=
  List.length_filter_lt_length_iff_exists.2 ⟨v, h, by simp⟩

/-- Goes on with a search. `work` holds the vertices found, each with the vertex it was found from;
a vertex that has been visited since is passed over. -/
def searchFrom (next : α → List α) (unvisited : List α) (work : List (Option α × α)) :
    List (Option α × α) :=
  match work with
  | [] => []
  | (parent, v) :: rest =>
    if h : v ∈ unvisited then
      (parent, v) ::
        searchFrom next (without unvisited v) ((next v).map (some v, ·) ++ rest)
    else searchFrom next unvisited rest
termination_by (unvisited.length, work.length)
decreasing_by
  · exact Prod.Lex.left _ _ (length_without_lt h)
  · exact Prod.Lex.right _ (by simp)

/-- The vertices with another one, which need not be among them. -/
def withStart (G : Arcs α) (start : α) : List α := start :: without G.vertices start

/-- The vertices that can be reached from a start, in the order in which a depth-first search finds
them, each with the vertex that it is found from. -/
def search (G : Arcs α) (start : α) : List (Option α × α) :=
  searchFrom G.next (G.withStart start) [(none, start)]

/-- The vertices that can be reached from a start. -/
def reachable (G : Arcs α) (start : α) : List α := (G.search start).map (·.2)

/-- What a stack of vertices and their neighbours still holds. -/
def pending : List (α × List α) → Nat
  | [] => 0
  | (_, ws) :: rest => ws.length + 1 + pending rest

/-- Goes on with a search that keeps, for each vertex on the way to the current one, the neighbours
left to look at. `order` holds the vertices finished, last first. -/
def finishFrom (next : α → List α) (unvisited : List α) (stack : List (α × List α))
    (order : List α) : List α :=
  match stack with
  | [] => order
  | (v, []) :: rest => finishFrom next unvisited rest (v :: order)
  | (v, w :: ws) :: rest =>
    if h : w ∈ unvisited then
      finishFrom next (without unvisited w) ((w, next w) :: (v, ws) :: rest) order
    else finishFrom next unvisited ((v, ws) :: rest) order
termination_by (unvisited.length, pending stack)
decreasing_by
  · exact Prod.Lex.right _ (by simp [pending])
  · exact Prod.Lex.left _ _ (length_without_lt h)
  · exact Prod.Lex.right _ (by simp [pending])

/-- The vertices that can be reached from a start; a vertex comes before those that are finished
before it. -/
def reversePostOrder (G : Arcs α) (start : α) : List α :=
  finishFrom G.next (without G.vertices start) [(start, G.next start)] []

end Arcs

/-- A graph as a search sees it. -/
def Digraph.arcs {β : Type} (g : Digraph β) : Arcs NodeId := ⟨g.ids, g.successors, g.predecessors⟩

end Structuring
