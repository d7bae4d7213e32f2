import Structuring.Attributes

/-!
# Directed multigraphs

Nodes with a body, edges with attributes, and the operations that change them. Parallel edges and
edges from a node to itself are allowed.

* `Digraph.outEdges`, `inEdges` — the edges at a node, in the order in which they were added.
* `Digraph.addNode`, `deleteNode`, `addEdge`, `deleteEdge`, `removeEdge` — each either makes its
  change and counts it in `generation`, or says why it cannot and changes nothing.
-/

namespace Structuring

/-- A node is known by the graph that made it and the number that it got there. A graph never gives
the same number twice. -/
structure NodeId where
  owner : Nat
  serial : Nat
  deriving DecidableEq, Inhabited

/-- An edge is known by the graph that made it and the number that it got there. -/
structure EdgeId where
  owner : Nat
  serial : Nat
  deriving DecidableEq, Inhabited

structure Edge where
  id : EdgeId
  source : NodeId
  target : NodeId
  attributes : Attributes
  deriving DecidableEq

/-- Why a change of a graph, or a question about it, is refused. -/
inductive GraphError where
  | duplicateLabel (label : Value)
  | duplicateNode (n : NodeId)
  | edgesLeft (n : NodeId)
  | notAMember (n : NodeId)
  | noEdge (n m : NodeId)
  | noEntry
  | unreachable (label entry : Value)
  | noRoot
  deriving DecidableEq

/-- The wording of a graph error, given how a node is written. -/
def GraphError.message (write : NodeId → String) : GraphError → String
  | .duplicateLabel l => s!"Duplicate node label {l.shown}"
  | .duplicateNode n => s!"Node {write n} already in graph"
  | .edgesLeft n => s!"Cannot remove {write n}, it still has edges"
  | .notAMember n => s!"Node {write n} is not part of this graph"
  | .noEdge n m => s!"No edge from {write n} to {write m}"
  | .noEntry => "Control flow graph has no entry node"
  | .unreachable l e => s!"Node {l.shown} is not reachable from entry node {e.shown}"
  | .noRoot => "Cannot calculate dominators without entry"

/-- The first occurrence of each element, in order. -/
def distinct {α : Type} [DecidableEq α] : List α → List α
  | [] => []
  | a :: as => a :: (distinct as).filter (· ≠ a)

/-- A directed multigraph. `tag` tells it from other graphs, `lastNode` and `lastEdge` are the
numbers given last, and `generation` counts the changes. -/
structure Digraph (β : Type) where
  tag : Nat
  nodes : List (NodeId × β)
  edges : List Edge
  lastNode : Nat
  lastEdge : Nat
  generation : Nat

namespace Digraph

variable {β : Type}

def empty (tag : Nat) : Digraph β := ⟨tag, [], [], 0, 0, 0⟩

/-- The nodes in iteration order. -/
def ids (g : Digraph β) : List NodeId := g.nodes.map (·.1)

def size (g : Digraph β) : Nat := g.nodes.length

def body? (g : Digraph β) (n : NodeId) : Option β :=
  (g.nodes.find? fun e => e.1 = n).map (·.2)

def contains (g : Digraph β) (n : NodeId) : Bool := g.nodes.any fun e => e.1 = n

/-- Whether some node, of whatever graph, holds this number. -/
def holdsSerial (g : Digraph β) (serial : Nat) : Bool := g.nodes.any fun e => e.1.serial = serial

def outEdges (g : Digraph β) (n : NodeId) : List Edge := g.edges.filter fun e => e.source = n

def inEdges (g : Digraph β) (n : NodeId) : List Edge := g.edges.filter fun e => e.target = n

/-- The distinct targets of the edges out of a node, in edge order. -/
def successors (g : Digraph β) (n : NodeId) : List NodeId := distinct ((g.outEdges n).map (·.target))

/-- The distinct sources of the edges into a node, in edge order. -/
def predecessors (g : Digraph β) (n : NodeId) : List NodeId :=
  distinct ((g.inEdges n).map (·.source))

def hasEdge (g : Digraph β) (n m : NodeId) : Bool := (g.outEdges n).any fun e => e.target = m

def edgeCount (g : Digraph β) (n m : NodeId) : Nat := (g.outEdges n).countP fun e => e.target = m

/-- All edges, grouped by source in node order. -/
def edgeList (g : Digraph β) : List Edge := g.ids.flatMap g.outEdges

/-- Hands out a node number. -/
def fresh (g : Digraph β) : NodeId × Digraph β :=
  (⟨g.tag, g.lastNode + 1⟩, { g with lastNode := g.lastNode + 1 })

def addNode (g : Digraph β) (n : NodeId) (b : β) : Except GraphError (Digraph β) :=
  if g.holdsSerial n.serial then .error (.duplicateNode n)
  else .ok { g with nodes := g.nodes ++ [(n, b)], generation := g.generation + 1 }

def checkMember (g : Digraph β) (n : NodeId) : Except GraphError Unit :=
  if g.contains n then .ok () else .error (.notAMember n)

/-- Removes a node that has no edges left. -/
def deleteNode (g : Digraph β) (n : NodeId) : Except GraphError (Digraph β) := do
  g.checkMember n
  if g.outEdges n ≠ [] ∨ g.inEdges n ≠ [] then throw (.edgesLeft n)
  return { g with nodes := g.nodes.filter (fun e => e.1 ≠ n), generation := g.generation + 1 }

def addEdge (g : Digraph β) (n m : NodeId) (a : Attributes) :
    Except GraphError (Edge × Digraph β) := do
  g.checkMember n
  g.checkMember m
  let e : Edge := ⟨⟨g.tag, g.lastEdge + 1⟩, n, m, a⟩
  return (e, { g with
    edges := g.edges ++ [e], lastEdge := g.lastEdge + 1, generation := g.generation + 1 })

/-- Removes an edge; none if the edge is not there. -/
def removeEdge? (g : Digraph β) (e : EdgeId) : Option (Digraph β) :=
  if g.edges.any (·.id = e) then
    some { g with edges := g.edges.filter (·.id ≠ e), generation := g.generation + 1 }
  else none

/-- Removes the first edge between two nodes. -/
def deleteEdge (g : Digraph β) (n m : NodeId) : Except GraphError (Edge × Digraph β) :=
  match (g.outEdges n).find? fun e => e.target = m with
  | none => .error (.noEdge n m)
  | some e => match g.removeEdge? e.id with
    | none => .error (.noEdge n m)
    | some g' => .ok (e, g')

/-- Changes the body of a node in place. -/
def mapBody (g : Digraph β) (n : NodeId) (f : β → β) : Digraph β :=
  { g with nodes := g.nodes.map fun e => if e.1 = n then (e.1, f e.2) else e }

/-- Changes an edge's attributes in place. -/
def mapEdge (g : Digraph β) (id : EdgeId) (f : Attributes → Attributes) : Digraph β :=
  { g with edges := g.edges.map fun e =>
      if e.id = id then { e with attributes := f e.attributes } else e }

end Digraph

end Structuring
