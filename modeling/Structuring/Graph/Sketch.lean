import Structuring.Failure

/-!
# Building graphs

* `FlowGraph.nodeNamed` — the node with a label.
* `Sketch` — a graph given by lists.
* `Sketch.draw` — the graph of a sketch, or why there is none.
-/

namespace Structuring

namespace FlowGraph

/-- The node with a label, which has to be there. -/
def nodeNamed (g : FlowGraph) (label : Value) : Except Failure NodeId :=
  match g.find? label with
  | some n => .ok n
  | none => .error (.noLabel label)

end FlowGraph

/-- A graph given by lists. Edges are given by the labels of their ends. -/
structure Sketch where
  name : Option Value
  attributes : Attributes
  nodes : List (Value × Attributes)
  edges : List (Value × Value × Attributes)
  entry : Option Value

namespace Sketch

/-- The sketch of a list of two-letter words, each of which is an edge. -/
def ofWords (words : List String) : Sketch :=
  { name := none
    attributes := ∅
    nodes := []
    edges := words.filterMap fun w => match w.toList with
      | [a, b] => some (.text (String.ofList [a]), .text (String.ofList [b]), ∅)
      | _ => none
    entry := none }

def drawNodes (g : FlowGraph) : List (Value × Attributes) → Except Failure FlowGraph
  | [] => .ok g
  | (label, a) :: rest => match g.newNode ⟨label, none, a⟩ with
    | (.error e, _) => .error (.graph e)
    | (.ok _, g) => drawNodes g rest

def drawEdges (g : FlowGraph) : List (Value × Value × Attributes) → Except Failure FlowGraph
  | [] => .ok g
  | (source, target, a) :: rest => match g.connect source target a with
    | (.error e, _) => .error (.graph e)
    | (.ok _, g) => drawEdges g rest

/-- The graph of a sketch. The nodes are made first, then the edges, and the entry is set last. -/
def draw (s : Sketch) (tag : Nat) : Except Failure FlowGraph := do
  let g ← drawNodes { FlowGraph.empty s.name tag with attributes := s.attributes } s.nodes
  let g ← drawEdges g s.edges
  match s.entry with
  | none => return g
  | some label => do
    let n ← g.nodeNamed label
    return { g with entry := some n }

end Sketch

end Structuring
