import Structuring.Graph.DominatorTree

/-!
# Recognising primitives

* `Kind.candidates` — the ways in which a node may be the entry of a primitive of a kind.
* `Primitive.holds` — whether nodes in the roles of a primitive have its shape in a graph.
* `FlowGraph.findMatch` — the first primitive of a graph: the first node in order, and there the first
  kind in order.
-/

namespace Structuring

variable {α : Type} [DecidableEq α]

/-- Whether no element occurs twice. -/
def allDistinct : List α → Bool
  | [] => true
  | a :: as => !as.contains a && allDistinct as

namespace FlowGraph

/-- Whether the edges out of a node go exactly to the given nodes. -/
def targets (g : FlowGraph) (n : NodeId) (expected : List NodeId) : Bool :=
  ((g.outEdges n).map (·.target)).isPerm expected

/-- Whether the edges into a node come exactly from the given nodes. -/
def sources (g : FlowGraph) (n : NodeId) (expected : List NodeId) : Bool :=
  ((g.inEdges n).map (·.source)).isPerm expected

/-- The two successors of a node in both orders; nothing if there are not just two. -/
def twoWay (g : FlowGraph) (n : NodeId) : List (NodeId × NodeId) :=
  match g.successors n with
  | [a, b] => [(a, b), (b, a)]
  | _ => []

end FlowGraph

/-- The ways in which a node may be the entry of a primitive of a kind, judged by the successors
alone. -/
def Kind.candidates (g : FlowGraph) (n : NodeId) : Kind → List (Primitive NodeId)
  | .preLoop => (g.twoWay n).map fun (b, e) => .preLoop n b e
  | .postLoop =>
    let succs := g.successors n
    if succs.contains n then (succs.filter (· ≠ n)).map fun e => .postLoop n n e
    else match succs with
      | [c] => ((g.successors c).filter (· ≠ n)).map fun e => .postLoop n c e
      | _ => []
  | .ifElseReturn => match g.successors n with
    | [y, x] => [.ifElseReturn n y x]
    | _ => []
  | .ifReturn => (g.twoWay n).map fun (b, e) => .ifReturn n b e
  | .ifThen => (g.twoWay n).map fun (b, e) => .ifThen n b e
  | .ifElse => match g.successors n with
    | [y, x] => (g.successors y).map fun e => .ifElse n y x e
    | _ => []
  | .fallthrough => match g.successors n with
    | [e] => [.fallthrough n e]
    | _ => []
  | .sequence => match g.successors n with
    | [b] => [.sequence n b]
    | _ => []
  | .nWay =>
    let succs := g.successors n
    if succs.length < 3 then []
    else (distinct (succs.flatMap g.successors)).map fun e =>
      .nWay n (succs.filter (· ≠ e)) e

/-- Whether a node dominates all the others. -/
def dominatesAll (t : DominatorTree NodeId) (n : NodeId) (ms : List NodeId) : Bool :=
  ms.all (t.dominates n)

namespace Primitive

/-- Whether the nodes in the roles have the shape of the primitive: they are distinct, the entry
dominates them, and their edges are as the kind demands. -/
def holds (g : FlowGraph) (t : DominatorTree NodeId) : Primitive NodeId → Bool
  | .preLoop c b e =>
    allDistinct [c, b, e] && dominatesAll t c [b, e] &&
      g.targets c [b, e] && g.sources b [c] && g.targets b [c] && g.sources e [c]
  | .postLoop b c e =>
    if b = c then
      allDistinct [c, e] && t.dominates c e && g.targets c [c, e] && g.sources e [c]
    else
      allDistinct [b, c, e] && dominatesAll t b [c, e] &&
        g.targets b [c] && g.sources c [b] && g.targets c [b, e] && g.sources e [c]
  | .ifElseReturn c y n =>
    allDistinct [c, y, n] && dominatesAll t c [y, n] &&
      g.targets c [y, n] && g.sources y [c] && g.targets y [] && g.sources n [c] && g.targets n []
  | .ifReturn c b e =>
    allDistinct [c, b, e] && dominatesAll t c [b, e] &&
      g.targets c [b, e] && g.sources b [c] && g.targets b [] && g.sources e [c]
  | .ifThen c b e =>
    allDistinct [c, b, e] && dominatesAll t c [b, e] &&
      g.targets c [b, e] && g.sources b [c] && g.targets b [e] && g.sources e [c, b]
  | .ifElse c y n e =>
    allDistinct [c, y, n, e] && dominatesAll t c [y, n, e] &&
      g.targets c [y, n] && g.sources y [c] && g.targets y [e] && g.sources n [c] &&
      g.targets n [e] && g.sources e [y, n]
  | .fallthrough c e =>
    allDistinct [c, e] && t.dominates c e && g.targets c [e, e] && g.sources e [c, c]
  | .sequence a b =>
    allDistinct [a, b] && t.dominates a b && g.targets a [b] && g.sources b [a]
  | .nWay h cs e =>
    let succs := g.successors h
    let direct := succs.contains e
    decide (2 ≤ cs.length) && allDistinct (h :: e :: cs) && dominatesAll t h (e :: cs) &&
      g.targets h (if direct then e :: cs else cs) && decide (3 ≤ succs.length) &&
      cs.all (fun c => g.sources c [h] && g.targets c [e]) &&
      g.sources e (if direct then h :: cs else cs)

/-- The nodes of a match, each once, in role order. -/
def nodes (p : Primitive NodeId) : List NodeId := distinct p.players

end Primitive

namespace FlowGraph

/-- Whether all players are in a set, if one is given. -/
def isWithin (within : Option (List NodeId)) (p : Primitive NodeId) : Bool :=
  match within with
  | none => true
  | some ns => p.players.all ns.contains

/-- The first primitive of a kind with a node as its entry. -/
def matchAt (g : FlowGraph) (t : DominatorTree NodeId) (within : Option (List NodeId)) (k : Kind)
    (n : NodeId) : Option (Primitive NodeId) :=
  (k.candidates g n).find? fun p => isWithin within p && p.holds g t

/-- The first primitive of a kind in the graph. -/
def findKind (g : FlowGraph) (t : DominatorTree NodeId) (k : Kind) : Option (Primitive NodeId) :=
  g.ids.findSome? (g.matchAt t none k)

/-- The first primitive in the graph, or among some nodes. -/
def findMatch (g : FlowGraph) (t : DominatorTree NodeId) (within : Option (List NodeId)) :
    Option (Primitive NodeId) :=
  (match within with
    | none => g.ids
    | some ns => g.ids.filter ns.contains).findSome? fun n =>
      Kind.all.findSome? fun k => g.matchAt t within k n

/-- A match in terms of the labels of its nodes. -/
def located (g : FlowGraph) (p : Primitive NodeId) : Primitive Value := p.map g.label

end FlowGraph

end Structuring
