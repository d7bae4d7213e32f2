import Structuring.Files
import Structuring.Reduction.Hammock
import Structuring.Reduction.Levels

/-!
# Recovery of control flow primitives

From a source to the primitives of its graph, with all that is said and reported on the way.

* `Told` — a computation that may fail and tells what happens.
* `Source` — where a graph comes from.
* `FlowGraph.recover` — the primitives of a graph.
* `recoverFrom` — the primitives of a source by a method with a given name.
-/

namespace Structuring

/-- A computation that tells what happens and may fail; what was told until then stays. -/
abbrev Told (α : Type) := ExceptT Failure (StateM (List Event)) α

namespace Told

variable {α : Type}

def tell (es : List Event) : Told Unit := modify (· ++ es)

def say (n : Notice) : Told Unit := tell [.notice n]

def report (i : Report.Item) : Told Unit := tell [.report i]

def ofExcept (x : Except Failure α) : Told α := fun es => (x, es)

def fail (f : Failure) : Told α := throw f

/-- The outcome and what was told. -/
def outcome (x : Told α) : Except Failure α × List Event := x.run.run []

end Told

/-- Where a graph comes from. `text` stands for a description, or, if it holds no opening brace or
names something that is there, for a file; `opened` is a file that is open, with its name. -/
inductive Source where
  | graph (g : FlowGraph)
  | text (s : String)
  | opened (name : Option String) (text : String)
  | other (d : Datum)

/-- A valid graph from a description. -/
def graphOfText (limit : Nat) (file : Option String) (text : String) : Told FlowGraph := do
  match Dot.parse limit file text 0 with
  | .error e => Told.fail (Failure.ofReadError e)
  | .ok g =>
    Told.say (.parsed g.nameText g.size g.edges.length)
    match g.validate with
    | .error e => Told.fail (.graph e)
    | .ok () => return g

/-- A valid graph from a file. -/
def graphOfFile (limit : Nat) (fs : Files) (name : String) : Told FlowGraph := do
  let text ← Told.ofExcept (fs.open? name)
  graphOfText limit (some name) (Text.unifyNewlines text)

/-- The valid graph of a source. -/
def Source.read (limit : Nat) (fs : Files) : Source → Told FlowGraph
  | .graph g => match g.validate with
    | .error e => Told.fail (.graph e)
    | .ok () => return g
  | .text s =>
    if !fs.occupied s && s.contains '{' then graphOfText limit none s
    else graphOfFile limit fs s
  | .opened name content => graphOfText limit name content
  | .other d => Told.fail (.cannotOpen d)

/-- Reduces a graph to a single node, and returns the state that it leaves in any case. -/
def Method.run (m : Method) (g : FlowGraph) : Reduced :=
  match m with
  | .hammock => g.runHammocks
  | .interval => g.runIntervals

/-- The reduction of a valid graph. -/
def Method.reduce (m : Method) (g : FlowGraph) : Except GraphError Reduced :=
  match m with
  | .hammock => g.reduceByHammocks
  | .interval => g.reduceByIntervals

/-- The primitives of a copy of a graph. If structuring stops early, they are those located until
then. -/
def FlowGraph.recover (g : FlowGraph) (m : Method) : Told (List (Primitive Value)) := do
  match g.copy g.tag with
  | .error e => Told.fail (Failure.ofCopyError e)
  | .ok g =>
    Told.say (.started g.nameText g.size m)
    Told.report (.heading 2 "Control flow graph")
    Told.report (.graph g)
    Told.report (.heading 2 "Primitives")
    let r := m.run g
    Told.tell r.progress.events
    match r.failure with
    | none =>
      Told.say (.finished r.progress.located.length)
      return r.progress.located
    | some (.incomplete e) =>
      Told.say (.stopped e.message)
      Told.report (.stopped e.message)
      return e.located
    | some f => Told.fail f

/-- The method with a name. -/
def chooseMethod (name : String) : Told Method :=
  Told.ofExcept (match Method.ofName name with
    | .ok m => .ok m
    | .error e => .error (.method e))

/-- The primitives of a source. The method is chosen before the source is read, in which at most
`limit` subgraphs may be nested. -/
def recoverFrom (limit : Nat) (fs : Files) (s : Source) (method : String) :
    Told (List (Primitive Value)) := do
  let m ← chooseMethod method
  let g ← s.read limit fs
  g.recover m

end Structuring
