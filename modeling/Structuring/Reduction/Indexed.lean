import Structuring.Graph.Workspace

/-!
# Graphs by their maps

A control flow graph as it is kept: its nodes by their numbers, the edges out of each node and those
into it, and its nodes by their labels. An edge stands in two lists and a node in several maps, which
are changed one after the other, so that a failure in between leaves some of them changed.

* `IndexedGraph` — the maps, with the entry and the numbers given last.
* `IndexedGraph.Edit` — changes of the maps; what was done before a failure stays.
* `IndexedGraph.newNode`, `connect`, `addEdge`, `deleteEdge`, `removeEdge`, `deleteNode`, `setEntry` —
  the operations.
* `IndexedGraph.contract`, `merge` — the contraction of a region.
-/

namespace Structuring

/-- A control flow graph by its maps. A node without a list of edges has none. -/
structure IndexedGraph where
  tag : Nat
  nodes : Table Nat (NodeId × Block)
  out : Table NodeId (List Edge)
  into : Table NodeId (List Edge)
  labels : Table Key NodeId
  entry : Option NodeId
  lastNode : Nat
  lastEdge : Nat
  generation : Nat

namespace IndexedGraph

def empty (tag : Nat) : IndexedGraph := ⟨tag, ∅, ∅, ∅, ∅, none, 0, 0, 0⟩

/-- The nodes in iteration order. -/
def ids (s : IndexedGraph) : List NodeId := s.nodes.entries.map (·.2.1)

def outEdges (s : IndexedGraph) (n : NodeId) : List Edge := (s.out.get? n).getD []

def inEdges (s : IndexedGraph) (n : NodeId) : List Edge := (s.into.get? n).getD []

/-- Whether a node, and no other with its number, is a member. -/
def contains (s : IndexedGraph) (n : NodeId) : Bool := (s.nodes.get? n.serial).map (·.1) = some n

/-- What a member carries. -/
def block? (s : IndexedGraph) (n : NodeId) : Option Block :=
  if s.contains n then (s.nodes.get? n.serial).map (·.2) else none

/-- The node with a label. -/
def find? (s : IndexedGraph) (label : Value) : Option NodeId := s.labels.get? label.key

/-- Changes of the maps. What was done before a failure stays. -/
abbrev Edit (α : Type) := ExceptT Failure (StateM IndexedGraph) α

/-- Counts a change. -/
def advance : Edit Unit := modify fun s => { s with generation := s.generation + 1 }

def checkMember (n : NodeId) : Edit Unit := do
  unless (← get).contains n do throw (.graph (.notAMember n))

/-! ## Nodes -/

/-- Takes a node into the map of nodes. -/
def enlist (n : NodeId) (b : Block) : Edit Unit := do
  if (← get).nodes.contains n.serial then throw (.graph (.duplicateNode n))
  modify fun s => { s with nodes := s.nodes.set n.serial (n, b) }
  advance

/-- Puts a node into the graph. The first node becomes the entry. -/
def addNode (n : NodeId) (b : Block) : Edit Unit := do
  if (← get).labels.contains b.label.key then throw (.graph (.duplicateLabel b.label))
  enlist n b
  modify fun s => { s with labels := s.labels.set b.label.key n }
  if (← get).entry = none then modify fun s => { s with entry := some n }

/-- Makes a node. Its number counts as given even if the node is refused. -/
def newNode (b : Block) : Edit NodeId := do
  modify fun s => { s with lastNode := s.lastNode + 1 }
  let s ← get
  addNode ⟨s.tag, s.lastNode⟩ b
  return ⟨s.tag, s.lastNode⟩

/-- Takes a node that has no edges left out of the map of nodes, and its lists of edges away. -/
def unlist (n : NodeId) : Edit Unit := do
  checkMember n
  let s ← get
  if s.outEdges n ≠ [] ∨ s.inEdges n ≠ [] then throw (.graph (.edgesLeft n))
  modify fun s => { s with nodes := s.nodes.erase n.serial }
  modify fun s => { s with out := s.out.erase n }
  modify fun s => { s with into := s.into.erase n }
  advance

/-- Takes a label, which has to be there, out of the map of labels. -/
def dropLabel (label : Value) : Edit Unit := do
  if (← get).labels.contains label.key then
    modify fun s => { s with labels := s.labels.erase label.key }
  else throw (.noLabel label)

/-- Removes a node that has no edges left. -/
def deleteNode (n : NodeId) : Edit Unit := do
  let b := ((← get).block? n).getD default
  unlist n
  dropLabel b.label
  if (← get).entry = some n then modify fun s => { s with entry := none }

def setEntry (n : NodeId) : Edit Unit := modify fun s => { s with entry := some n }

/-! ## Edges -/

def addEdge (n m : NodeId) (a : Attributes) : Edit Edge := do
  checkMember n
  checkMember m
  let s ← get
  let e : Edge := ⟨⟨s.tag, s.lastEdge + 1⟩, n, m, a⟩
  modify fun s => { s with lastEdge := s.lastEdge + 1 }
  modify fun s => { s with out := s.out.set n (s.outEdges n ++ [e]) }
  modify fun s => { s with into := s.into.set m (s.inEdges m ++ [e]) }
  advance
  return e

/-- Takes an edge, which has to be there, out of the list at its source. -/
def dropOut (e : Edge) : Edit Unit := do
  let es := (← get).outEdges e.source
  if e ∈ es then modify fun s => { s with out := s.out.set e.source (es.erase e) }
  else throw .noSuchEdge

/-- Takes an edge, which has to be there, out of the list at its target. -/
def dropInto (e : Edge) : Edit Unit := do
  let es := (← get).inEdges e.target
  if e ∈ es then modify fun s => { s with into := s.into.set e.target (es.erase e) }
  else throw .noSuchEdge

def removeEdge (e : Edge) : Edit Unit := do
  dropOut e
  dropInto e
  advance

/-- Removes the first edge between two nodes. -/
def deleteEdge (n m : NodeId) : Edit Edge := do
  match ((← get).outEdges n).find? fun e => e.target = m with
  | none => throw (.graph (.noEdge n m))
  | some e => do
    removeEdge e
    return e

/-- The node with a label, made if it is missing. -/
def nodeOf (label : Value) : Edit NodeId := do
  match (← get).find? label with
  | some n => return n
  | none => newNode ⟨label, none, ∅⟩

/-- Adds an edge between the nodes with two labels; missing nodes are made. -/
def connect (source target : Value) (a : Attributes) : Edit Edge := do
  let n ← nodeOf source
  let m ← nodeOf target
  addEdge n m a

/-! ## Contraction -/

/-- The edges into the entry of a region from outside. -/
def incoming (s : IndexedGraph) (r : Region) : List Edge :=
  (s.inEdges r.entry).filter fun e => !r.members.contains e.source

/-- The edges that leave from the new node, each with whether its new target is inside. -/
def outgoing (s : IndexedGraph) (r : Region) : List (Edge × Bool) :=
  r.members.flatMap fun n => (s.outEdges n).filterMap fun e =>
    if !r.members.contains e.target then some (e, false)
    else if r.exit? = some n then some (e, true)
    else none

/-- The edges at the members, each once. -/
def touching (s : IndexedGraph) (r : Region) : List Edge :=
  distinct (r.members.flatMap fun n => s.outEdges n ++ s.inEdges n)

/-- Contracts a region to a node with the given block. -/
def contract (r : Region) (b : Block) : Edit NodeId := do
  let s ← get
  (s.touching r).forM removeEdge
  let entry := (← get).entry
  r.members.forM deleteNode
  let n ← newNode b
  (s.incoming r).forM fun e => discard (addEdge e.source n e.attributes)
  (s.outgoing r).forM fun (e, inside) =>
    discard (addEdge n (if inside then n else e.target) e.attributes)
  if entry = some r.entry then setEntry n
  return n

/-- Contracts a region. The new node carries what its entry carries, and the given name. The graph loses
all members but one. -/
def merge (r : Region) (name : Option String) : Edit NodeId := do
  let s ← get
  let b := (s.block? r.entry).getD default
  let n ← contract r { b with name := name }
  if (← get).nodes.size + r.members.length = s.nodes.size + 1 then return n
  else throw .unbalanced

end IndexedGraph

end Structuring
