import Structuring.Graph.Digraph

/-!
# Control flow graphs

A directed multigraph whose nodes carry a label, unique in the graph, with an entry node.

* `Block` — what a node carries.
* `FlowGraph.newNode`, `connect` — the ways of making nodes.
* `FlowGraph.copy` — a graph with the same content and fresh numbers.
-/

namespace Structuring

/-- What a node of a control flow graph carries. A node made by a contraction has a `name`. -/
structure Block where
  label : Value
  name : Option String
  attributes : Attributes
  deriving DecidableEq, Inhabited

/-- The block as it stands in a message. -/
def Block.shown (b : Block) : String :=
  match b.name with
  | none => s!"CFG-node({b.label.shown})"
  | some name =>
    if name.isEmpty then s!"CFG-node({b.label.shown})" else s!"CFG-node({b.label.shown}, {name})"

/-- A control flow graph: a multigraph with a name, attributes of its own and an entry node. -/
structure FlowGraph extends Digraph Block where
  name : Option Value
  attributes : Attributes
  entry : Option NodeId

namespace FlowGraph

def empty (name : Option Value) (tag : Nat) : FlowGraph :=
  { Digraph.empty tag with name := name, attributes := ∅, entry := none }

instance : Inhabited FlowGraph := ⟨empty none 0⟩

/-- The name of the graph, or `None` where there is none. -/
def nameText (g : FlowGraph) : String := (g.name.map Value.shown).getD "None"

/-- The graph as it stands in a message. -/
def shown (g : FlowGraph) : String := s!"ControlFlowGraph({g.nameText}, {g.size} nodes)"

def block? (g : FlowGraph) (n : NodeId) : Option Block := g.toDigraph.body? n

def label? (g : FlowGraph) (n : NodeId) : Option Value := (g.block? n).map (·.label)

/-- The label of a member. -/
def label (g : FlowGraph) (n : NodeId) : Value := ((g.block? n).map (·.label)).getD (.text "")

/-- The node with a label. -/
def find? (g : FlowGraph) (label : Value) : Option NodeId :=
  (g.nodes.find? fun e => e.2.label.same label).map (·.1)

def hasLabel (g : FlowGraph) (label : Value) : Bool := g.nodes.any fun e => e.2.label.same label

/-- The labels in node order. -/
def labels (g : FlowGraph) : List Value := g.nodes.map (·.2.label)

/-- How a member is written in a message. -/
def describe (g : FlowGraph) (n : NodeId) : String :=
  match g.block? n with
  | some b => b.shown
  | none => s!"node({n.serial})"

/-- Puts a node into the graph. The first node becomes the entry. -/
def addNode (g : FlowGraph) (n : NodeId) (b : Block) : Except GraphError FlowGraph := do
  if g.hasLabel b.label then throw (.duplicateLabel b.label)
  let d ← g.toDigraph.addNode n b
  return { g with toDigraph := d, entry := g.entry.orElse fun _ => some n }

/-- Makes a node. Its number counts as given even if the node is refused. -/
def newNode (g : FlowGraph) (b : Block) : Except GraphError NodeId × FlowGraph :=
  let (n, d) := g.toDigraph.fresh
  let g' := { g with toDigraph := d }
  match g'.addNode n b with
  | .ok g'' => (.ok n, g'')
  | .error e => (.error e, g')

def deleteNode (g : FlowGraph) (n : NodeId) : Except GraphError FlowGraph := do
  let d ← g.toDigraph.deleteNode n
  return { g with toDigraph := d, entry := if g.entry = some n then none else g.entry }

def addEdge (g : FlowGraph) (n m : NodeId) (a : Attributes) :
    Except GraphError (Edge × FlowGraph) := do
  let (e, d) ← g.toDigraph.addEdge n m a
  return (e, { g with toDigraph := d })

def removeEdge? (g : FlowGraph) (e : EdgeId) : Option FlowGraph :=
  (g.toDigraph.removeEdge? e).map fun d => { g with toDigraph := d }

def deleteEdge (g : FlowGraph) (n m : NodeId) : Except GraphError (Edge × FlowGraph) := do
  let (e, d) ← g.toDigraph.deleteEdge n m
  return (e, { g with toDigraph := d })

/-- Changes the attributes of a node. -/
def updateAttributes (g : FlowGraph) (n : NodeId) (f : Attributes → Attributes) : FlowGraph :=
  { g with toDigraph := g.toDigraph.mapBody n fun b => { b with attributes := f b.attributes } }

/-- Changes of a graph that may be refused half-way; what was done until then stays. -/
abbrev Edit (α : Type) := ExceptT GraphError (StateM FlowGraph) α

namespace Edit

/-- A change that is made in full or not at all. -/
def ofExcept {α : Type} (f : FlowGraph → Except GraphError (α × FlowGraph)) : Edit α :=
  fun g => match f g with
    | .ok (a, g') => (.ok a, g')
    | .error e => (.error e, g)

def node (b : Block) : Edit NodeId := fun g => g.newNode b

def edge (n m : NodeId) (a : Attributes) : Edit Edge := ofExcept fun g => g.addEdge n m a

def dropNode (n : NodeId) : Edit Unit := ofExcept fun g => (g.deleteNode n).map ((), ·)

/-- The node with a label, made if it is missing. -/
def nodeOf (label : Value) : Edit NodeId := do
  match (← get).find? label with
  | some n => return n
  | none => node ⟨label, none, ∅⟩

end Edit

/-- Adds an edge between the nodes with two labels; missing nodes are made. -/
def connect (g : FlowGraph) (source target : Value) (a : Attributes) :
    Except GraphError Edge × FlowGraph :=
  let run : Edit Edge := do
    let n ← Edit.nodeOf source
    let m ← Edit.nodeOf target
    Edit.edge n m a
  run g

/-- What can go wrong when a graph is copied: the copy is refused, or the entry is no member. -/
inductive CopyError where
  | graph (e : GraphError)
  | notCopied (n : NodeId)

/-- The nodes of `g` made anew in `into`, each with its counterpart. -/
def copyNodes (into : FlowGraph) :
    List (NodeId × Block) → Except GraphError (List (NodeId × NodeId) × FlowGraph)
  | [] => .ok ([], into)
  | (n, b) :: rest =>
    match into.newNode { b with name := none } with
    | (.error e, _) => .error e
    | (.ok n', into') => do
      let (pairs, into'') ← copyNodes into' rest
      return ((n, n') :: pairs, into'')

/-- The counterpart of a node. -/
def counterpart (pairs : List (NodeId × NodeId)) (n : NodeId) : Except CopyError NodeId :=
  match pairs.find? fun p => p.1 = n with
  | some p => .ok p.2
  | none => .error (.notCopied n)

def copyEdges (pairs : List (NodeId × NodeId)) (into : FlowGraph) :
    List Edge → Except CopyError FlowGraph
  | [] => .ok into
  | e :: rest => do
    let n ← counterpart pairs e.source
    let m ← counterpart pairs e.target
    match into.addEdge n m e.attributes with
    | .error err => .error (.graph err)
    | .ok (_, into') => copyEdges pairs into' rest

/-- A graph with the same content, whose nodes are numbered from one. -/
def copy (g : FlowGraph) (tag : Nat) : Except CopyError FlowGraph := do
  let start := { empty g.name tag with attributes := g.attributes }
  match copyNodes start g.nodes with
  | .error e => .error (.graph e)
  | .ok (pairs, withNodes) => do
    let withEdges ← copyEdges pairs withNodes g.edgeList
    match g.entry with
    | none => return withEdges
    | some n => do
      let n' ← counterpart pairs n
      return { withEdges with entry := some n' }

end FlowGraph

end Structuring
