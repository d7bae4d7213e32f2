import Structuring.Graph.FixedPoint
import Structuring.Graph.FlowGraph
import Structuring.Graph.LengauerTarjan
import Structuring.Failure

/-!
# Dominator trees

The tree of immediate dominators of a graph as it was at one moment. Its vertices are numbered on
the way down and on the way up, so that dominance is a matter of comparing numbers.

* `DominatorTree.build` — the tree of some immediate dominators.
* `DominatorTree.dominates` — whether one vertex is on every path from the root to another.
* `FlowGraph.dominatorTree` — the tree of a control flow graph.
* `DatedTree` — a tree and when it was made; it is stale once its graph has changed.
-/

namespace Structuring

set_option linter.unusedVariables false

/-- How immediate dominators are found. -/
inductive Algorithm where
  | semidominators
  | iterative
  deriving DecidableEq, Inhabited

/-- The algorithm with a name. -/
def Algorithm.ofName? (s : String) : Option Algorithm :=
  if s = "lt" then some .semidominators
  else if s = "iterative" then some .iterative
  else none

/-- A tree of immediate dominators. `down` and `up` are the numbers of the vertices on the way down
and on the way up. -/
structure DominatorTree (α : Type) where
  idom : Table α (Option α)
  members : List α
  down : Table α Nat
  up : Table α Nat

namespace DominatorTree

variable {α : Type} [DecidableEq α]

/-- The members whose immediate dominator is a given vertex, in the order of the graph. -/
def childrenOf (idom : Table α (Option α)) (members : List α) (v : α) : List α :=
  members.filter fun w => idom.get? w = some (some v)

/-- Numbers a tree. A pair in `work` is a vertex to go down to, or, if it is marked, one to come up
from. -/
def numberFrom (children : α → List α) (unvisited : List α) (work : List (α × Bool)) (counter : Nat)
    (down up : Table α Nat) : Table α Nat × Table α Nat :=
  match work with
  | [] => (down, up)
  | (v, true) :: rest =>
    numberFrom children unvisited rest (counter + 1) down (up.set v (counter + 1))
  | (v, false) :: rest =>
    if h : v ∈ unvisited then
      numberFrom children (Arcs.without unvisited v)
        ((children v).map (·, false) ++ (v, true) :: rest) (counter + 1)
        (down.set v (counter + 1)) up
    else numberFrom children unvisited rest counter down up
termination_by (unvisited.length, work.length)
decreasing_by
  · exact Prod.Lex.right _ (by simp)
  · exact Prod.Lex.left _ _ (Arcs.length_without_lt h)
  · exact Prod.Lex.right _ (by simp)

/-- A vertex of the tree that is not a member of the graph: the parent of a member, or the root. -/
def missing? (idom : Table α (Option α)) (vertices members : List α) (root : α) : Option α :=
  (members.findSome? fun v => match idom.get? v with
    | some (some p) => if vertices.contains p then none else some p
    | _ => none).or (if vertices.contains root then none else some root)

/-- The tree of some immediate dominators. It has the members of the graph that have an entry among
them; a parent that is no member is refused. -/
def build (idom : Table α (Option α)) (members : List α) (root : α) :
    Except α (DominatorTree α) :=
  let vertices := members.filter idom.contains
  match missing? idom vertices members root with
  | some v => .error v
  | none =>
    let (down, up) := numberFrom (childrenOf idom members) vertices [(root, false)] 0 ∅ ∅
    .ok ⟨idom, vertices, down, up⟩

/-- Whether a vertex is on every path from the root to another. -/
def dominates (t : DominatorTree α) (v w : α) : Bool :=
  match t.down.get? v, t.down.get? w, t.up.get? v, t.up.get? w with
  | some dv, some dw, some uv, some uw => dv ≤ dw && uw ≤ uv
  | _, _, _, _ => false

def strictlyDominates (t : DominatorTree α) (v w : α) : Bool := v ≠ w && t.dominates v w

/-- The vertices on the way down: each before its children. -/
def nodes (t : DominatorTree α) : List α := t.down.keys

def immediateDominator? (t : DominatorTree α) (v : α) : Option (Option α) := t.idom.get? v

/-- The vertices immediately dominated by a vertex of the tree. -/
def children? (t : DominatorTree α) (v : α) : Option (List α) :=
  if t.members.contains v then some (childrenOf t.idom t.members v) else none

/-- The dominators of each vertex, the vertices being given in the order of `nodes`: the vertex, and the
dominators of its immediate dominator. `none` stands for a look-up that failed. -/
def setsFrom (t : DominatorTree α) (sets : Table α (List α)) : List α → Option (Table α (List α))
  | [] => some sets
  | v :: vs => do
    match ← t.idom.get? v with
    | none => t.setsFrom (sets.set v [v]) vs
    | some p => t.setsFrom (sets.set v (v :: (← sets.get? p))) vs

/-- The dominators of each vertex. -/
def dominatorSets (t : DominatorTree α) : Option (Table α (List α)) := t.setsFrom ∅ t.nodes

end DominatorTree

namespace FlowGraph

/-- The immediate dominators of the vertices that can be reached from a root. -/
def idomBy (a : Algorithm) (G : Arcs NodeId) (members : List NodeId) (root : NodeId) :
    Except Failure (Table NodeId (Option NodeId)) :=
  match a with
  | .semidominators => match G.immediateDominators root with
    | .ok t => .ok t
    | .error n => .error (.noNode n)
  | .iterative =>
    let reached := G.reachable root
    let vs := members.filter reached.contains
    match (G.dominatorSets vs root).bind (immediateOf · vs) with
    | some t => .ok t
    | none => .error .unbalanced

/-- The dominator tree of some members of a graph whose arcs are `G`. -/
def treeOn (members : List NodeId) (entry : Option NodeId) (G : Arcs NodeId) (a : Algorithm) :
    Except Failure (DominatorTree NodeId) := do
  match entry with
  | none => throw (.graph .noRoot)
  | some root =>
    let idom ← idomBy a G members root
    match DominatorTree.build idom members root with
    | .ok t => return t
    | .error n => throw (.noNode n)

def dominatorTree (g : FlowGraph) (a : Algorithm) : Except Failure (DominatorTree NodeId) :=
  treeOn g.ids g.entry g.toDigraph.arcs a

/-- Checks that there is an entry and that all nodes can be reached from it along `G`. -/
def validateOn (g : FlowGraph) (G : Arcs NodeId) (write : NodeId → Value) :
    Except GraphError Unit :=
  match g.entry with
  | none => .error .noEntry
  | some root =>
    let reached := G.reachable root
    match g.ids.find? fun n => !reached.contains n with
    | none => .ok ()
    | some n => .error (.unreachable (write n) (write root))

/-- Checks that there is an entry and that all nodes can be reached from it. -/
def validate (g : FlowGraph) : Except GraphError Unit := g.validateOn g.toDigraph.arcs g.label

end FlowGraph

/-- A dominator tree, and the generation that its graph had when it was made. -/
structure DatedTree where
  generation : Nat
  tree : DominatorTree NodeId

namespace DatedTree

/-- Makes the tree of a graph as it stands. -/
def make (g : FlowGraph) (a : Algorithm) : Except Failure DatedTree := do
  return ⟨g.generation, ← g.dominatorTree a⟩

/-- The tree, which must not be stale. -/
def check (t : DatedTree) (g : FlowGraph) : Except Failure (DominatorTree NodeId) :=
  if t.generation = g.generation then .ok t.tree else .error .staleTree

end DatedTree

end Structuring
