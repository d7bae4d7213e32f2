import Structuring.Dot.Clause
import Structuring.Graph.FlowGraph

/-!
# From clauses to a control flow graph

Nodes appear in the order of their first mention and take the defaults in force there. A subgraph
starts with the defaults around it, and its own end with it. Each subgraph inside another one takes
room, so that they can be nested up to a limit only.

* `Draft` — the graph so far, the defaults in force and the nodes marked as entry.
* `Draft.obey` — what one clause does.
* `Draft.settleEntry` — the entry: the marked node, else the node labelled `entry`, else the first.
* `parse` — the graph of a text.
-/

namespace Structuring.Dot

/-- Why a text gives no graph. `reserved` stands for node defaults with a key that a node cannot be
made with, `missing` for an attribute that is looked up and is not there, `notText` for one that is
taken for a text and is none, and `tooDeep` for a subgraph for which there is no room. -/
inductive ReadError where
  | text (e : Error)
  | graph (e : GraphError)
  | reserved
  | missing (key : Value)
  | notText
  | tooDeep
  deriving DecidableEq

/-- The keys that a node cannot be made with. -/
def nodeReserved : List String := ["self", "label"]

/-- The keys that an edge cannot be made with by the labels of its ends. -/
def edgeReserved : List String := ["self", "src", "dst"]

/-- The defaults in force. -/
structure Scope where
  node : Attributes
  edge : Attributes
  deriving DecidableEq, Inhabited

/-- A graph under construction. `outer` holds the defaults of the scopes around the current one, and
`marks` the nodes marked as entry, each with the place where it was first marked. -/
structure Draft where
  graph : FlowGraph
  scope : Scope
  outer : List Scope
  marks : List (NodeId × Location)

namespace Draft

def start (name : Option Value) (tag : Nat) : Draft :=
  ⟨.empty name tag, ⟨∅, ∅⟩, [], []⟩

/-- Whether a value says true; capital letters make no difference. No character outside ASCII has a
letter of the word as its small letter, so only ASCII letters are folded. -/
def saysTrue (v : Value) : Bool := v.shown.toList.map Char.toLower = ['t', 'r', 'u', 'e']

/-- Marks a node whose attribute `entry` says true, unless it is marked already. The attribute has
to be there, and to be a text. -/
def mark (d : Draft) (n : NodeId) (l : Location) : Except ReadError Draft :=
  match (d.graph.block? n).bind fun b => b.attributes.get? (.text "entry") with
  | none => .error (.missing (.text "entry"))
  | some (.int _) => .error .notText
  | some v =>
    .ok <| if saysTrue v ∧ d.marks.all (·.1 ≠ n) then { d with marks := d.marks ++ [(n, l)] } else d

/-- The node with a label. If it is missing, it is made with the defaults in force. -/
def node (d : Draft) (label : Value) (l : Location) : Except ReadError (NodeId × Draft) :=
  match d.graph.find? label with
  | some n => .ok (n, d)
  | none =>
    if d.scope.node.mentions nodeReserved then .error .reserved
    else match d.graph.newNode ⟨label, none, d.scope.node⟩ with
      | (.error e, _) => .error (.graph e)
      | (.ok n, g) =>
        let d := { d with graph := g }
        if d.scope.node.contains (.text "entry") then (d.mark n l).map fun d => (n, d)
        else .ok (n, d)

/-- The nodes at the ends of an edge statement. -/
def nodes (d : Draft) : List (Value × Location) → Except ReadError (List NodeId × Draft)
  | [] => .ok ([], d)
  | (v, l) :: rest => do
    let (n, d) ← d.node v l
    let (ns, d) ← d.nodes rest
    return (n :: ns, d)

/-- Edges from each node to the next. -/
def chain (g : FlowGraph) (a : Attributes) : List NodeId → Except GraphError FlowGraph
  | n :: m :: rest => do
    let (_, g) ← g.addEdge n m a
    chain g a (m :: rest)
  | _ => .ok g

/-- What one clause does. At most `limit` subgraphs may be open at a time. -/
def obey (limit : Nat) (d : Draft) : Clause → Except ReadError Draft
  | .graphAttributes a =>
    .ok { d with graph := { d.graph with attributes := d.graph.attributes.update a } }
  | .nodeDefaults a => .ok { d with scope := { d.scope with node := d.scope.node.update a } }
  | .edgeDefaults a => .ok { d with scope := { d.scope with edge := d.scope.edge.update a } }
  | .opens =>
    if d.outer.length < limit then .ok { d with outer := d.scope :: d.outer } else .error .tooDeep
  | .closes => match d.outer with
    | [] => .ok d
    | s :: outer => .ok { d with scope := s, outer := outer }
  | .appears label l => (d.node label l).map (·.2)
  | .describes label l a =>
    match d.graph.find? label with
    | none => .ok d
    | some n =>
      let d := { d with graph := d.graph.updateAttributes n (·.update a) }
      if a.contains (.text "entry") then d.mark n l else .ok d
  | .edges ends a => do
    let (ns, d) ← d.nodes ends
    match chain d.graph (d.scope.edge.update a) ns with
    | .error e => throw (.graph e)
    | .ok g => return { d with graph := g }

def obeyAll (limit : Nat) (d : Draft) : List Clause → Except ReadError Draft
  | [] => .ok d
  | c :: cs => do
    let d ← d.obey limit c
    d.obeyAll limit cs

/-- The nodes whose attribute `label` is the word `entry`. -/
def labelledEntry (g : FlowGraph) : List (NodeId × Block) :=
  g.nodes.filter fun e => e.2.attributes.get? (.text "label") |>.any (·.same (.text "entry"))

/-- The graph with its entry: the only marked node, else the only node labelled `entry`, else the
first. -/
def settleEntry (d : Draft) (finish : Location) : Except Error FlowGraph :=
  match d.marks with
  | _ :: (_, l) :: _ => .error ⟨.manyEntries (d.marks.map fun m => d.graph.label m.1), l⟩
  | [(n, _)] => .ok { d.graph with entry := some n }
  | [] => match labelledEntry d.graph with
    | [] => .ok d.graph
    | [(n, _)] => .ok { d.graph with entry := some n }
    | es => .error ⟨.manyLabelledEntry (es.map (·.2.label)), finish⟩

end Draft

/-- The graph that a text describes. It need not be valid. -/
def parse (limit : Nat) (file : Option String) (text : String) (tag : Nat) : Except ReadError FlowGraph :=
  let (name, reading) := read (lex file text)
  match (Draft.start name tag).obeyAll limit reading.clauses with
  | .error e => .error e
  | .ok d => match reading.outcome with
    | .error e => .error (.text e)
    | .ok finish => match d.settleEntry finish with
      | .error e => .error (.text e)
      | .ok g => .ok g

end Structuring.Dot
