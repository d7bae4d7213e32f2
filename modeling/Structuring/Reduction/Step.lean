import Structuring.Log
import Structuring.Reduction.Merge
import Structuring.Report

/-!
# Steps of a reduction

A reduction locates a primitive, contracts it and records it, over and over. What happens on the way
is kept as a list of events, from which log, report and intermediate graphs are read off.

* `Event` — what happens.
* `Progress` — the state of a reduction.
* `Progress.step` — one primitive.
-/

namespace Structuring

/-- What happens in a reduction: something is said, the graph stands before or after a contraction,
or a part of the report is due. -/
inductive Event where
  | notice (n : Notice)
  | before (g : FlowGraph) (p : Primitive Value)
  | after (g : FlowGraph) (p : Primitive Value)
  | report (i : Report.Item)

namespace Event

def notice? : Event → Option Notice
  | .notice n => some n
  | _ => none

def item? : Event → Option Report.Item
  | .report i => some i
  | _ => none

/-- What is said in a list of events. -/
def notices (es : List Event) : List Notice := es.filterMap notice?

/-- The parts of the report in a list of events. -/
def items (es : List Event) : List Report.Item := es.filterMap item?

end Event

/-- The state of a reduction: the graphs of the levels that are done, the current one, the primitives
located so far and what happened. -/
structure Progress where
  earlier : List FlowGraph
  graph : FlowGraph
  located : List (Primitive Value)
  events : List Event

namespace Progress

def start (g : FlowGraph) : Progress := ⟨[], g, [], []⟩

def emit (s : Progress) (es : List Event) : Progress := { s with events := s.events ++ es }

def say (s : Progress) (n : Notice) : Progress := s.emit [.notice n]

/-- The graphs of all levels. -/
def levels (s : Progress) : List FlowGraph := s.earlier ++ [s.graph]

/-- The name of the node that the next contraction makes. -/
def nextName (s : Progress) (p : Primitive NodeId) : String :=
  s!"{p.kind.name}_{s.located.length + 1}"

end Progress

/-- How a step ends: a primitive was contracted to a node, there was none, or something failed. -/
inductive Step where
  | merged (n : NodeId) (s : Progress)
  | none (s : Progress)
  | failed (f : Failure) (s : Progress)

namespace Progress

/-- What is said about the dominator tree of a graph. -/
def treeNotices (g : FlowGraph) (t : DominatorTree NodeId) : List Event :=
  [.notice (.searching g.size), .notice (.dominators g.nameText t.idom.size)]

/-- The blocks of some nodes. -/
def blocks (g : FlowGraph) (ns : List NodeId) : List Block := ns.filterMap g.block?

/-- The first primitive of the current graph by a dominator tree. Every question to the tree checks that
the graph has not changed since the tree was made. -/
def locate (s : Progress) (t : DatedTree) (within : Option (List NodeId)) :
    Except Failure (Option (Primitive NodeId)) := do
  return s.graph.findMatch (← t.check s.graph) within

/-- Locates a primitive, among some nodes if they are given, contracts and records it. -/
def step (m : Method) (within : Option (List NodeId)) (s : Progress) : Step :=
  match DatedTree.make s.graph .semidominators with
  | .error f => .failed f s
  | .ok t =>
    let s := s.emit (treeNotices s.graph t.tree)
    match s.locate t within with
    | .error f => .failed f s
    | .ok Option.none => .none s
    | .ok (some match') =>
      let p := s.graph.located match'
      let s := s.emit [.before s.graph p]
      let (outcome, g) := s.graph.merge match'.region (some (s.nextName match'))
      match outcome with
      | .error f => .failed f { s with graph := g }
      | .ok n =>
        let members := blocks s.graph match'.nodes
        let into := (g.block? n).getD default
        .merged n { s with
          graph := g
          located := s.located ++ [p]
          events := s.events ++ [.notice (.merged members into), .after g p,
            .notice (.located m p), .report (.located p)] }

end Progress

/-- A reduction that has ended: its last state, and the failure if it did not end with a single
node. -/
structure Reduced where
  progress : Progress
  failure : Option Failure

namespace Progress

def done (s : Progress) : Reduced := ⟨s, none⟩

def fail (s : Progress) (f : Failure) : Reduced := ⟨s, some f⟩

/-- The end of a reduction that cannot go on. -/
def stuck (s : Progress) (o : Obstacle) : Reduced :=
  s.fail (.incomplete ⟨o, s.located, s.graph.labels⟩)

end Progress

end Structuring
