import Structuring.Graph.Sketch
import Structuring.Reduction.Merge

/-!
# Workspaces

Several graphs whose nodes are shared: a node that one graph made may stand in another one, and its
attributes are the same there. Nodes and edges outlive their deletion from a graph. The neighbours of
a node are those in the graph that made it.

* `AnyGraph` — a directed graph, or a control flow graph.
* `Workspace` — the graphs, and all nodes and edges that were ever made.
* `Session` — changes of a workspace that may fail; what was done until then stays.
* `Snapshot` — a dominator tree and the state of the graph that it belongs to.
-/

namespace Structuring

/-- Whether the keys can stand as names beside some reserved words: all are texts, and none is
reserved. -/
def Attributes.areNamed (a : Attributes) (reserved : List String) : Bool :=
  !a.mentions reserved && a.entries.all fun e => match e.1 with
    | .int _ => false
    | _ => true

/-- The graph without what its nodes carry. -/
def Digraph.forget {β : Type} (g : Digraph β) : Digraph Unit :=
  ⟨g.tag, g.nodes.map fun e => (e.1, ()), g.edges, g.lastNode, g.lastEdge, g.generation⟩

/-- A directed graph with the entry that was set, if one was, or a control flow graph. -/
inductive AnyGraph where
  | plain (g : Digraph Unit) (entry : Option (Option NodeId))
  | flow (g : FlowGraph)

namespace AnyGraph

def skeleton : AnyGraph → Digraph Unit
  | .plain g _ => g
  | .flow g => g.toDigraph.forget

/-- The nodes with what they carry, as far as the graph knows. -/
def blocks : AnyGraph → List (NodeId × Option Block)
  | .plain _ _ => []
  | .flow g => g.nodes.map fun e => (e.1, some e.2)

def deleteNode (n : NodeId) : AnyGraph → Except GraphError AnyGraph
  | .plain g entry => (g.deleteNode n).map (.plain · entry)
  | .flow g => (g.deleteNode n).map .flow

def addEdge (n m : NodeId) (a : Attributes) : AnyGraph → Except GraphError (Edge × AnyGraph)
  | .plain g entry => (g.addEdge n m a).map fun (e, g) => (e, .plain g entry)
  | .flow g => (g.addEdge n m a).map fun (e, g) => (e, .flow g)

def deleteEdge (n m : NodeId) : AnyGraph → Except GraphError (Edge × AnyGraph)
  | .plain g entry => (g.deleteEdge n m).map fun (e, g) => (e, .plain g entry)
  | .flow g => (g.deleteEdge n m).map fun (e, g) => (e, .flow g)

def removeEdge? (e : EdgeId) : AnyGraph → Option AnyGraph
  | .plain g entry => (g.removeEdge? e).map (.plain · entry)
  | .flow g => (g.removeEdge? e).map .flow

/-- Changes the attributes of a node wherever it stands. -/
def updateNode (n : NodeId) (f : Attributes → Attributes) : AnyGraph → AnyGraph
  | .plain g entry => .plain g entry
  | .flow g => .flow (g.updateAttributes n f)

def updateEdge (e : EdgeId) (f : Attributes → Attributes) : AnyGraph → AnyGraph
  | .plain g entry => .plain (g.mapEdge e f) entry
  | .flow g => .flow { g with toDigraph := g.toDigraph.mapEdge e f }

end AnyGraph

/-- Graphs, each with its place as its tag, and all nodes and edges that were ever made. -/
structure Workspace where
  graphs : List AnyGraph
  blocks : Table NodeId (Option Block)
  edges : Table EdgeId Edge
  deriving Inhabited

namespace Workspace

def empty : Workspace := ⟨[], ∅, ∅⟩

/-- A workspace with a new directed graph. -/
def addDigraph (w : Workspace) : Workspace :=
  { w with graphs := w.graphs ++ [.plain (.empty w.graphs.length) none] }

/-- A workspace with a new control flow graph. -/
def addFlowGraph (w : Workspace) (name : Option Value) : Workspace :=
  { w with graphs := w.graphs ++ [.flow (.empty name w.graphs.length)] }

/-- What a node carries; nothing if it was made by a directed graph. -/
def block? (w : Workspace) (n : NodeId) : Option Block := (w.blocks.get? n).join

/-- The node as it stands in a message. -/
def describe (w : Workspace) (n : NodeId) : String :=
  match w.block? n with
  | some b => b.shown
  | none => s!"node({n.serial})"

def label (w : Workspace) (n : NodeId) : Value := ((w.block? n).map (·.label)).getD (.text "")

/-- The edge as it stands in a message. -/
def describeEdge (w : Workspace) (e : Edge) : String :=
  s!"Edge({w.describe e.source} -> {w.describe e.target})"

/-- The graph that made a node. -/
def home (w : Workspace) (n : NodeId) : Digraph Unit :=
  match w.graphs[n.owner]? with
  | some g => g.skeleton
  | none => .empty n.owner

/-- All nodes with their neighbours. -/
def arcs (w : Workspace) : Arcs NodeId :=
  ⟨w.blocks.keys, fun n => (w.home n).successors n, fun n => (w.home n).predecessors n⟩

/-- Takes a block down for a node. -/
def noteBlock (w : Workspace) (n : NodeId) (b : Option Block) : Workspace :=
  { w with blocks := w.blocks.set n b }

/-- Puts a graph at the place of its tag, and takes down its nodes and edges. -/
def put (w : Workspace) (g : AnyGraph) : Workspace where
  graphs := w.graphs.set g.skeleton.tag g
  blocks := g.blocks.foldl (fun t e => t.set e.1 e.2) w.blocks
  edges := g.skeleton.edges.foldl (fun t e => t.set e.id e) w.edges

end Workspace

/-- A dominator tree, and the graph and its generation when the tree was made. -/
structure Snapshot where
  tag : Nat
  generation : Nat
  tree : DominatorTree NodeId

/-- Changes of a workspace. -/
abbrev Session (α : Type) := ExceptT Failure (StateM Workspace) α

namespace Session

def graphAt (tag : Nat) : Session AnyGraph := do
  match (← get).graphs[tag]? with
  | some g => return g
  | none => throw .noIndex

/-- The control flow graph at a place. A directed graph has none of its operations. -/
def flowAt (tag : Nat) : Session FlowGraph := do
  match ← graphAt tag with
  | .flow g => return g
  | .plain _ _ => throw .noAttribute

def put (g : AnyGraph) : Session Unit := modify (·.put g)

def putFlow (g : FlowGraph) : Session Unit := put (.flow g)

/-- A change that is made in full or not at all. -/
def change {α : Type} (tag : Nat) (f : AnyGraph → Except GraphError (α × AnyGraph)) :
    Session α := do
  match f (← graphAt tag) with
  | .error e => throw (.graph e)
  | .ok (a, g) => do
    put g
    return a

/-- Makes a node with a block, and says so even if the graph refuses it. -/
def makeBlock (g : FlowGraph) (b : Block) : Session NodeId := do
  modify (·.noteBlock g.toDigraph.fresh.1 (some b))
  let (outcome, g) := g.newNode b
  putFlow g
  match outcome with
  | .ok n => return n
  | .error e => throw (.graph e)

/-- Makes a node of a directed graph, with a block if it is to carry one. -/
def makeBare (g : Digraph Unit) (entry : Option (Option NodeId)) (b : Option Block) :
    Session NodeId := do
  let (n, g) := g.fresh
  put (.plain g entry)
  modify (·.noteBlock n b)
  match g.addNode n () with
  | .error e => throw (.graph e)
  | .ok g => do
    put (.plain g entry)
    return n

/-- Makes a node. A node of a directed graph has no label and no attributes. -/
def newNode (tag : Nat) (label : Value) (a : Attributes) : Session NodeId := do
  match ← graphAt tag with
  | .flow g =>
    if a.areNamed Dot.nodeReserved then makeBlock g ⟨label, none, a⟩ else throw .reserved
  | .plain g entry => makeBare g entry none

/-- The node with a label, made if it is missing. -/
def nodeOf (tag : Nat) (label : Value) : Session NodeId := do
  let g ← flowAt tag
  match g.find? label with
  | some n => return n
  | none => makeBlock g ⟨label, none, ∅⟩

def addEdge (tag : Nat) (n m : NodeId) (a : Attributes) : Session Edge :=
  change tag fun g => g.addEdge n m a

/-- Adds an edge between the nodes with two labels; missing nodes are made. -/
def connect (tag : Nat) (source target : Value) (a : Attributes) : Session Edge := do
  let _ ← flowAt tag
  if a.areNamed Dot.edgeReserved then
    let n ← nodeOf tag source
    let m ← nodeOf tag target
    addEdge tag n m a
  else throw .reserved

/-- Puts a node into a graph, which need not be the one that made it. A control flow graph takes
only nodes with a block. -/
def addNode (tag : Nat) (n : NodeId) : Session Unit := do
  match ← graphAt tag, (← get).block? n with
  | .plain g entry, _ => match g.addNode n () with
    | .error e => throw (.graph e)
    | .ok g => put (.plain g entry)
  | .flow g, some b => match g.addNode n b with
    | .error e => throw (.graph e)
    | .ok g => putFlow g
  | .flow _, none => throw .noAttribute

def deleteNode (tag : Nat) (n : NodeId) : Session Unit :=
  change tag fun g => (g.deleteNode n).map ((), ·)

def deleteEdge (tag : Nat) (n m : NodeId) : Session Edge := change tag fun g => g.deleteEdge n m

/-- Removes an edge that is known by its number. -/
def removeEdge (tag : Nat) (e : EdgeId) : Session Unit := do
  match (← graphAt tag).removeEdge? e with
  | none => throw .noSuchEdge
  | some g => put g

/-- Sets the entry, which need not be a member. -/
def setEntry (tag : Nat) (n : Option NodeId) : Session Unit := do
  match ← graphAt tag with
  | .flow g => putFlow { g with entry := n }
  | .plain g _ => put (.plain g (some n))

def setNodeAttribute (n : NodeId) (k v : Value) : Session Unit := do
  match (← get).block? n with
  | none => throw .noAttribute
  | some b => modify fun w =>
    { w with
      graphs := w.graphs.map (·.updateNode n (·.set k v))
      blocks := w.blocks.set n (some { b with attributes := b.attributes.set k v }) }

def setEdgeAttribute (e : EdgeId) (k v : Value) : Session Unit := do
  match (← get).edges.get? e with
  | none => throw .noIndex
  | some edge => modify fun w =>
    { w with
      graphs := w.graphs.map (·.updateEdge e (·.set k v))
      edges := w.edges.set e { edge with attributes := edge.attributes.set k v } }

/-- Copies a control flow graph. The copy is the last graph. -/
def copy (tag : Nat) : Session Nat := do
  let g ← flowAt tag
  let place := (← get).graphs.length
  match g.copy place with
  | .error e => throw (Failure.ofCopyError e)
  | .ok g => do
    modify fun w => w.addFlowGraph g.name
    putFlow g
    return place

/-- The entry of a graph. A directed graph has none until one is set. -/
def entryOf (tag : Nat) : Session (Option NodeId) := do
  match ← graphAt tag with
  | .flow g => return g.entry
  | .plain _ (some entry) => return entry
  | .plain _ none => throw .noAttribute

/-- The dominator tree of a control flow graph as it is. That of a directed graph is not given out,
since the graph has no name to tell of it. -/
def dominatorTree (tag : Nat) (a : Algorithm) : Session Snapshot := do
  let entry ← entryOf tag
  let g := (← graphAt tag).skeleton
  match FlowGraph.treeOn g.ids entry (← get).arcs a with
  | .error f => throw f
  | .ok t => do
    let _ ← flowAt tag
    return ⟨tag, g.generation, t⟩

/-- The dominator tree of a control flow graph by the algorithm with a name. -/
def dominatorTreeBy (tag : Nat) (algorithm : String) : Session Snapshot := do
  if (← entryOf tag) = none then throw (.graph .noRoot)
  match Algorithm.ofName? algorithm with
  | none => throw (.unknownAlgorithm algorithm)
  | some a => dominatorTree tag a

/-- Whether the graph of a tree has changed since the tree was made. -/
def isStale (s : Snapshot) : Session Bool := do
  return (← graphAt s.tag).skeleton.generation ≠ s.generation

/-- The tree, which must not be stale. -/
def fresh (s : Snapshot) : Session (DominatorTree NodeId) := do
  if ← isStale s then throw .staleTree
  return s.tree

/-- Whether a node strictly dominates another one. No tree is needed to deny it of a node and
itself. -/
def strictlyDominates (s : Snapshot) (n m : NodeId) : Session Bool := do
  if n = m then return false
  return (← fresh s).dominates n m

def immediateDominator (s : Snapshot) (n : NodeId) : Session (Option NodeId) := do
  match (← fresh s).immediateDominator? n with
  | some d => return d
  | none => throw (.noNode n)

def children (s : Snapshot) (n : NodeId) : Session (List NodeId) := do
  match (← fresh s).children? n with
  | some ns => return ns
  | none => throw (.noNode n)

/-- Checks that there is an entry and that all nodes can be reached from it. An entry without a block
has no label to complain with. -/
def validate (tag : Nat) : Session Unit := do
  let g ← flowAt tag
  let w ← get
  match g.validateOn w.arcs w.label with
  | .ok () => return
  | .error e =>
    if g.entry.any fun n => (w.block? n).isNone then throw .noAttribute
    throw (.graph e)

/-- Contracts a region of a control flow graph to a node with the given name. -/
def contract (tag : Nat) (r : Region) (name : Option String) : Session NodeId := do
  let g ← flowAt tag
  let b := ((← get).block? r.entry).getD default
  modify (·.noteBlock g.toDigraph.fresh.1 (some { b with name := name }))
  let (outcome, g) := g.mergeAs r { b with name := name }
  putFlow g
  match outcome with
  | .ok n => return n
  | .error f => throw f

/-- Contracts the first primitive of a control flow graph, or the first among some nodes. -/
def mergeFirst (tag : Nat) (within : Option (List NodeId)) (name : Option String) :
    Session (Option (Primitive Value × NodeId)) := do
  let g ← flowAt tag
  let t ← dominatorTree tag .semidominators
  match g.findMatch t.tree within with
  | none => return none
  | some p => do
    let n ← contract tag p.region name
    return some (g.located p, n)

/-- Contracts a region of a directed graph, which needs an entry that was set and a node with a block
as the entry of the region. What was done before a refusal stays. -/
def contractBare (tag : Nat) (r : Region) (name : Option String) : Session NodeId := do
  let g := (← graphAt tag).skeleton
  (g.touching r).forM (removeEdge tag)
  let entry ← entryOf tag
  r.members.forM (deleteNode tag)
  match (← get).block? r.entry with
  | none => throw .noAttribute
  | some b => do
    let n ← makeBare (← graphAt tag).skeleton (some entry) (some { b with name := name })
    (g.incoming r).forM fun e => discard (addEdge tag e.source n e.attributes)
    (g.outgoing r).forM fun (e, inside) =>
      discard (addEdge tag n (if inside then n else e.target) e.attributes)
    if entry = some r.entry then setEntry tag (some n)
    return n

/-- Contracts the nodes in some roles, whatever shape they have. -/
def mergeRoles (tag : Nat) (kind : Kind) (roles : List (String × NodeId)) (name : Option String) :
    Session NodeId := do
  match Region.ofRoles kind roles with
  | .error role => throw (.noKey role)
  | .ok r => match ← graphAt tag with
    | .flow _ => contract tag r name
    | .plain _ _ => contractBare tag r name

/-- The nodes that a search from a node finds, along the edges or against them. -/
def search (n : NodeId) (reverse : Bool) : Session (List (Option NodeId × NodeId)) := do
  let G := (← get).arcs
  return (if reverse then G.reverse else G).search n

/-- The immediate dominators from a node, along the edges or against them. -/
def immediateDominators (n : NodeId) (reverse : Bool) :
    Session (Table NodeId (Option NodeId)) := do
  let G := (← get).arcs
  match (if reverse then G.reverse else G).immediateDominators n with
  | .ok t => return t
  | .error m => throw (.noNode m)

end Session

end Structuring
