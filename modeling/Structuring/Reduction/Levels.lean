import Structuring.Graph.Interval
import Structuring.Reduction.Step

/-!
# Reduction by intervals

The primitives within each interval are contracted first. Then each interval becomes a node of the
derived graph, and this repeats until one node is left or the derived graph no longer shrinks.

* `Progress.within` — the primitives among some nodes.
* `Progress.passes` — passes over the intervals until one contracts nothing.
* `Progress.byLevels` — level after level.
* `FlowGraph.runIntervals` — the reduction of a graph, with the state that it leaves.
* `FlowGraph.reduceByIntervals` — the reduction of a valid graph.
-/

namespace Structuring

set_option linter.unusedVariables false

namespace Progress

/-- Contracts primitives among some nodes until one of them is left or there is none. -/
def within (members : List NodeId) (s : Progress) : Reduced :=
  if members.length ≤ 1 then s.done
  else match s.step .interval (some members) with
    | .failed f s' => s'.fail f
    | .none s' => s'.done
    | .merged n s' =>
      if h : s'.graph.size < s.graph.size then
        s'.within (members.filter s'.graph.contains ++ [n])
      else s'.fail .unbalanced
termination_by s.graph.size

/-- Contracts the primitives within each of some intervals. -/
def withinEach (s : Progress) : List Interval → Reduced
  | [] => s.done
  | i :: is =>
    let r := s.within i.members
    match r.failure with
    | some _ => r
    | none => r.progress.withinEach is

/-- The intervals of the current graph, and that they were found is said. -/
def partition (s : Progress) : Except Failure (List Interval × Progress) :=
  match s.graph.intervals with
  | none => .error .noAttribute
  | some is => .ok (is, s.say (.partitioned s.graph.size is.length))

/-- One pass over the intervals of the current graph. -/
def pass (s : Progress) : Reduced :=
  match s.partition with
  | .error f => s.fail f
  | .ok (is, s) => s.withinEach is

/-- Passes until one node is left or a pass contracts nothing. -/
def passes (s : Progress) : Reduced :=
  if s.graph.size ≤ 1 then s.done
  else
    let r := s.pass
    match r.failure with
    | some _ => r
    | none => if h : r.progress.graph.size < s.graph.size then r.progress.passes else r
termination_by s.graph.size

/-- What is said and reported about an interval that becomes a node as it is. -/
def collapse (g : FlowGraph) (i : Interval) : List Event :=
  let header := g.label i.header
  let labels := i.members.map g.label
  [.notice (.collapsed header labels), .report (.collapsed header labels)]

/-- What is said and reported about the intervals with more than one node. -/
def collapseAll (g : FlowGraph) (is : List Interval) : List Event :=
  (is.filter fun i => 1 < i.size).flatMap (collapse g)

/-- Goes from level to level. At each one the graph has fewer nodes than at the start of the level
before, by contraction or by derivation; otherwise there is no way on. -/
def byLevels (s : Progress) : Reduced :=
  if s.graph.size ≤ 1 then s.done
  else
    let r := s.passes
    match r.failure with
    | some _ => r
    | none =>
      let t := r.progress
      if t.graph.size ≤ 1 then t.done
      else match t.partition with
        | .error f => t.fail f
        | .ok (is, t) =>
          let t := t.emit (collapseAll t.graph is)
          match t.graph.derived is t.graph.tag with
          | .error f => t.fail f
          | .ok d =>
            let t := t.say (.derived (t.earlier.length + 1) t.graph.size d.size)
            if h : d.size < s.graph.size then
              byLevels { t with earlier := t.earlier ++ [t.graph], graph := d }
            else t.stuck .irreducible
termination_by s.graph.size

end Progress

/-- Reduces a graph to a single node, level by level. A graph that is not valid is refused before
anything is done. -/
def FlowGraph.runIntervals (g : FlowGraph) : Reduced :=
  let s := Progress.start g
  match g.validate with
  | .error e => s.fail (.graph e)
  | .ok () => s.byLevels

/-- The reduction of a valid graph, level by level. -/
def FlowGraph.reduceByIntervals (g : FlowGraph) : Except GraphError Reduced := do
  g.validate
  return g.runIntervals

end Structuring
