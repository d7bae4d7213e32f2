import Structuring.Reduction.Pattern

/-!
# Contracting a primitive

The nodes of a primitive become one node. It takes over the label and the attributes of the entry,
the edges into the entry from outside, and all edges out of the primitive. What leads from the exit
back into the primitive becomes an edge from the new node to itself; the other inner edges are
dropped.

* `Region` — nodes with an entry and perhaps an exit.
* `Digraph.incoming`, `outgoing` — the edges that stay.
* `FlowGraph.merge` — the contraction.
-/

namespace Structuring

/-- Nodes that are contracted, each once, with the entry and the exit among them. -/
structure Region where
  members : List NodeId
  entry : NodeId
  exit? : Option NodeId

def Primitive.region (p : Primitive NodeId) : Region := ⟨p.nodes, p.entry, p.exit?⟩

/-- The region of a kind with the given roles, whatever the graph looks like, or the role that is
missing. -/
def Region.ofRoles (kind : Kind) (roles : List (String × NodeId)) : Except String Region := do
  let entry ← Primitive.lookup roles kind.entryRole
  let exit? ← match kind.exitRole? with
    | none => .ok none
    | some r => (Primitive.lookup roles r).map some
  return ⟨distinct (roles.map (·.2)), entry, exit?⟩

namespace Digraph

variable {β : Type}

/-- The edges into the entry from outside. -/
def incoming (g : Digraph β) (r : Region) : List Edge :=
  (g.inEdges r.entry).filter fun e => !r.members.contains e.source

/-- The edges that leave from the new node, each with its new target if that is inside: the edges
out of the region, and those of the exit back into it. -/
def outgoing (g : Digraph β) (r : Region) : List (Edge × Bool) :=
  r.members.flatMap fun n => (g.outEdges n).filterMap fun e =>
    if !r.members.contains e.target then some (e, false)
    else if r.exit? = some n then some (e, true)
    else none

/-- The edges at the members, each once. -/
def touching (g : Digraph β) (r : Region) : List EdgeId :=
  distinct ((r.members.flatMap fun n => g.outEdges n ++ g.inEdges n).map (·.id))

/-- Removes edges one after the other. -/
def removeAll (g : Digraph β) : List EdgeId → Digraph β
  | [] => g
  | e :: es => match g.removeEdge? e with
    | none => g.removeAll es
    | some g' => g'.removeAll es

end Digraph

namespace FlowGraph

namespace Edit

def dropNodes : List NodeId → Edit Unit
  | [] => pure ()
  | n :: ns => do
    dropNode n
    dropNodes ns

def incoming (n : NodeId) : List Edge → Edit Unit
  | [] => pure ()
  | e :: es => do
    let _ ← edge e.source n e.attributes
    incoming n es

def outgoing (n : NodeId) : List (Edge × Bool) → Edit Unit
  | [] => pure ()
  | (e, inside) :: es => do
    let _ ← edge n (if inside then n else e.target) e.attributes
    outgoing n es

end Edit

/-- Contracts a region to a node with the given block. What was done before a refusal stays. -/
def contract (r : Region) (b : Block) : Edit NodeId := do
  let g ← get
  let incoming := g.toDigraph.incoming r
  let outgoing := g.toDigraph.outgoing r
  set { g with toDigraph := g.toDigraph.removeAll (g.toDigraph.touching r) }
  Edit.dropNodes r.members
  let n ← Edit.node b
  Edit.incoming n incoming
  Edit.outgoing n outgoing
  if g.entry = some r.entry then modify fun g => { g with entry := some n }
  return n

/-- Contracts a region. The new node carries the label and the attributes of the entry, and the given
name. The graph loses all members but one. -/
def mergeAs (g : FlowGraph) (r : Region) (b : Block) : Except Failure NodeId × FlowGraph :=
  match (contract r b).run g with
  | (.error e, g') => (.error (.graph e), g')
  | (.ok n, g') =>
    if g'.size + r.members.length = g.size + 1 then (.ok n, g') else (.error .unbalanced, g')

def merge (g : FlowGraph) (r : Region) (name : Option String) : Except Failure NodeId × FlowGraph :=
  match g.block? r.entry with
  | none => g.mergeAs r ⟨g.label r.entry, name, ∅⟩
  | some b => g.mergeAs r { b with name := name }

end FlowGraph

end Structuring
