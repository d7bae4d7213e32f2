import Structuring.Dot.Writer
import Structuring.Failure

/-!
# Intervals

An interval is the largest set of nodes around a header that is entered through the header only and
whose cycles all pass through it. Intervals partition the reachable nodes; with each one collapsed to
a node the graph becomes its derived graph, and this repeats until it no longer shrinks.

* `FlowGraph.intervals` — the partition.
* `FlowGraph.derived` — the derived graph.
* `FlowGraph.derivedSequence` — the graphs that are derived one from another.
-/

namespace Structuring

set_option linter.unusedVariables false

/-- A header and the members, the header first, in the order in which they were added. -/
structure Interval where
  header : NodeId
  members : List NodeId
  deriving DecidableEq

namespace FlowGraph

/-- The members of an interval after one pass over the nodes. A node is added if it is not `placed`
and all its predecessors, of which there is one at least, are members. -/
def growPass (g : FlowGraph) (placed : List NodeId) (members : List NodeId) :
    List NodeId → List NodeId
  | [] => members
  | n :: ns =>
    if n ∈ placed ∨ n ∈ members then g.growPass placed members ns
    else
      let preds := g.predecessors n
      if preds ≠ [] ∧ preds.all members.contains then g.growPass placed (members ++ [n]) ns
      else g.growPass placed members ns

/-- How many nodes are outside a list. -/
def outside (g : FlowGraph) (members : List NodeId) : Nat :=
  (g.ids.filter fun n => !members.contains n).length

/-- Passes until no node is added. -/
def grow (g : FlowGraph) (placed members : List NodeId) : List NodeId :=
  let members' := g.growPass placed members g.ids
  if g.outside members' < g.outside members then g.grow placed members' else members'
termination_by g.outside members

/-- The nodes that become headers after an interval: neither placed nor waiting, and entered from the
interval. -/
def newHeaders (g : FlowGraph) (placed waiting members : List NodeId) : List NodeId :=
  g.ids.filter fun n =>
    !placed.contains n && !waiting.contains n && (g.predecessors n).any members.contains

/-- The nodes that are neither placed nor waiting as headers. -/
def untouched (g : FlowGraph) (placed waiting : List NodeId) : List NodeId :=
  g.ids.filter fun n => !placed.contains n && !waiting.contains n

theorem untouched_append (g : FlowGraph) (placed waiting more : List NodeId) :
    g.untouched placed (waiting ++ more) =
      (g.untouched placed waiting).filter fun n => !more.contains n := by
  simp only [untouched, List.filter_filter]
  refine List.filter_congr fun n _ => ?_
  simp only [List.contains_append, Bool.not_or]
  cases List.contains placed n <;> cases List.contains waiting n <;> simp

theorem untouched_placed_le (g : FlowGraph) (placed members waiting : List NodeId) (n : NodeId)
    (hn : n ∈ members) :
    (g.untouched (placed ++ members) waiting).length ≤
      (g.untouched placed (n :: waiting)).length := by
  have h : g.untouched (placed ++ members) waiting =
      (g.untouched placed (n :: waiting)).filter fun x =>
        !members.contains x := by
    simp only [untouched, List.filter_filter]
    refine List.filter_congr fun x _ => ?_
    simp only [List.contains_append, Bool.not_or, List.contains_cons]
    by_cases hx : x = n
    · subst hx
      simp [hn]
    · have hb : (x == n) = false := by simpa using hx
      rw [hb]
      cases List.contains placed x <;> cases List.contains waiting x <;>
        cases List.contains members x <;> simp
  rw [h]
  exact List.length_filter_le _ _

theorem mem_growPass (g : FlowGraph) {placed members ns : List NodeId} {n : NodeId}
    (h : n ∈ members) : n ∈ g.growPass placed members ns := by
  induction ns generalizing members with
  | nil => exact h
  | cons m ms ih =>
    simp only [growPass]
    split
    · exact ih h
    · split
      · exact ih (List.mem_append_left _ h)
      · exact ih h

theorem mem_grow (g : FlowGraph) {placed members : List NodeId} {n : NodeId} (h : n ∈ members) :
    n ∈ g.grow placed members := by
  fun_induction grow g placed members with
  | case1 members members' _ ih => exact ih (mem_growPass g h)
  | case2 members members' _ => exact mem_growPass g h

/-- The intervals of the waiting headers and of those found on the way. -/
def intervalsFrom (g : FlowGraph) (placed : List NodeId) (waiting : List NodeId) :
    List Interval :=
  match waiting with
  | [] => []
  | header :: rest =>
    let members := g.grow placed [header]
    let placed' := placed ++ members
    ⟨header, members⟩ ::
      g.intervalsFrom placed' (rest ++ g.newHeaders placed' rest members)
termination_by ((g.untouched placed waiting).length, waiting.length)
decreasing_by
  have hle := untouched_placed_le g placed (g.grow placed [header]) rest header
    (mem_grow g (List.mem_singleton_self header))
  cases hnew : g.newHeaders (placed ++ g.grow placed [header]) rest
      (g.grow placed [header]) with
  | nil =>
    rw [List.append_nil]
    rcases Nat.lt_or_eq_of_le hle with h | h
    · exact Prod.Lex.left _ _ h
    · rw [h]
      exact Prod.Lex.right _ (by simp)
  | cons n ns =>
    refine Prod.Lex.left _ _ (Nat.lt_of_lt_of_le ?_ hle)
    rw [untouched_append]
    have hn : n ∈ g.newHeaders (placed ++ g.grow placed [header]) rest
        (g.grow placed [header]) := by rw [hnew]; exact List.mem_cons_self
    simp only [newHeaders, List.mem_filter, Bool.and_eq_true] at hn
    refine List.length_filter_lt_length_iff_exists.2 ⟨n, ?_, by simp⟩
    simp only [untouched, List.mem_filter, Bool.and_eq_true]
    exact ⟨hn.1, hn.2.1⟩

/-- The intervals of a graph with an entry: that of the entry first, then those of the headers in the
order in which they are found. -/
def intervals (g : FlowGraph) : Option (List Interval) :=
  g.entry.map fun n => g.intervalsFrom [] [n]

end FlowGraph

namespace Interval

def size (i : Interval) : Nat := i.members.length

/-- The interval as it stands in a message. -/
def shown (i : Interval) (g : FlowGraph) : String :=
  s!"Interval({(g.label i.header).shown}, " ++
    Text.listLiteral (i.members.map fun n => Failure.keyText (g.label n)) ++ ")"

/-- The interval as a graph description of its own, with the edges among its members. The header is
marked as entry. -/
def write (i : Interval) (g : FlowGraph) (name : Option Value) : String :=
  Dot.ofLines <|
    [Dot.headLine name] ++
    i.members.map (fun n =>
      let a := ((g.block? n).map (·.attributes)).getD ∅
      Dot.nodeLine (g.label n)
        (if n = i.header then a.set (.text "entry") (.text "true") else a)) ++
    (i.members.flatMap fun n => (g.outEdges n).filter fun e => i.members.contains e.target).map
      (fun e => Dot.edgeLine (g.label e.source) (g.label e.target) e.attributes) ++
    ["\x7d"]

end Interval

namespace FlowGraph

/-- The interval that holds a node, as its place in the partition. -/
def intervalOf? (partition : List Interval) (n : NodeId) : Option Nat :=
  partition.findIdx? fun i => i.members.contains n

/-- The intervals that a node's edges lead to, in edge order. -/
def targetIntervals (partition : List Interval) : List NodeId → Except Failure (List Nat)
  | [] => .ok []
  | n :: ns => match intervalOf? partition n with
    | none => .error (.noNode n)
    | some i => do return i :: (← targetIntervals partition ns)

/-- The other intervals that the edges out of an interval lead to, each once, in edge order. -/
def leadsTo (g : FlowGraph) (partition : List Interval) (own : Nat) (i : Interval) :
    Except Failure (List Nat) := do
  let targets ← targetIntervals partition (i.members.flatMap g.successors)
  return distinct (targets.filter (· ≠ own))

/-- Nodes for intervals, with the label and the attributes of each header. -/
def headerNodes (g : FlowGraph) (into : FlowGraph) :
    List Interval → Except GraphError (List NodeId × FlowGraph)
  | [] => .ok ([], into)
  | i :: rest =>
    let attributes := ((g.block? i.header).map (·.attributes)).getD ∅
    match into.newNode ⟨g.label i.header, none, attributes⟩ with
    | (.error e, _) => .error e
    | (.ok n, into) => do
      let (ns, into) ← g.headerNodes into rest
      return (n :: ns, into)

/-- Edges from one node to the nodes at some places of a list. -/
def linkTo (nodes : List NodeId) (n : NodeId) (into : FlowGraph) :
    List Nat → Except GraphError FlowGraph
  | [] => .ok into
  | j :: js => match nodes[j]? with
    | none => linkTo nodes n into js
    | some m => do
      let (_, into) ← into.addEdge n m ∅
      linkTo nodes n into js

/-- Edges between the nodes of intervals. `i` is the place of the next interval. -/
def linkIntervals (g : FlowGraph) (partition : List Interval) (nodes : List NodeId)
    (into : FlowGraph) (i : Nat) : List Interval → Except Failure FlowGraph
  | [] => .ok into
  | interval :: rest => do
    let targets ← g.leadsTo partition i interval
    match nodes[i]? with
    | none => g.linkIntervals partition nodes into (i + 1) rest
    | some n => match linkTo nodes n into targets with
      | .error e => throw (.graph e)
      | .ok into => g.linkIntervals partition nodes into (i + 1) rest

/-- The derived graph of a graph and its intervals: one node for each interval, and one edge from an
interval to another if there is any. -/
def derived (g : FlowGraph) (partition : List Interval) (tag : Nat) : Except Failure FlowGraph := do
  let start := { empty g.name tag with attributes := g.attributes }
  match g.headerNodes start partition with
  | .error e => throw (.graph e)
  | .ok (nodes, into) => g.linkIntervals partition nodes { into with entry := nodes.head? } 0 partition

/-- The graphs derived one from another, with the intervals of each. The last one has as many
intervals as nodes. -/
def derivedFrom (g : FlowGraph) : Except Failure (List (FlowGraph × List Interval)) := do
  match g.intervals with
  | none => throw .noAttribute
  | some partition =>
    if partition.length = g.size then return [(g, partition)]
    else
      let g' ← g.derived partition g.tag
      if h : g'.size < g.size then return (g, partition) :: (← g'.derivedFrom)
      else throw .unbalanced
termination_by g.size

/-- The derived sequence of a graph. The first graph is a copy of it. -/
def derivedSequence (g : FlowGraph) : Except Failure (List (FlowGraph × List Interval)) :=
  match g.copy g.tag with
  | .error e => .error (Failure.ofCopyError e)
  | .ok g => g.derivedFrom

end FlowGraph

end Structuring
