import Structuring.Reduction.Step

/-!
# Reduction by hammocks

A hammock is a region with one entry and one exit. The whole graph is searched for the first
primitive, which is contracted, and this repeats until one node is left.

* `Progress.byHammocks` — the loop.
* `FlowGraph.runHammocks` — the reduction of a graph, with the state that it leaves.
* `FlowGraph.reduceByHammocks` — the reduction of a valid graph.
-/

namespace Structuring

set_option linter.unusedVariables false

/-- Contracts primitives until one node is left or none is found. Each contraction makes the graph
smaller. -/
def Progress.byHammocks (s : Progress) : Reduced :=
  if s.graph.size ≤ 1 then s.done
  else match s.step .hammock none with
    | .failed f s' => s'.fail f
    | .none s' => s'.stuck .noPrimitive
    | .merged _ s' =>
      if h : s'.graph.size < s.graph.size then s'.byHammocks else s'.fail .unbalanced
termination_by s.graph.size

/-- Reduces a graph to a single node. A graph that is not valid is refused before anything is done. -/
def FlowGraph.runHammocks (g : FlowGraph) : Reduced :=
  let s := Progress.start g
  match g.validate with
  | .error e => s.fail (.graph e)
  | .ok () => (s.say (.structuring g.shown)).byHammocks

/-- The reduction of a valid graph. -/
def FlowGraph.reduceByHammocks (g : FlowGraph) : Except GraphError Reduced := do
  g.validate
  return g.runHammocks

end Structuring
