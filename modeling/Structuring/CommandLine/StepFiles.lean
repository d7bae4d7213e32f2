import Structuring.CommandLine.Console
import Structuring.CommandLine.Outlet
import Structuring.Image
import Structuring.Recovery

/-!
# Files of the steps

The graphs before and after each contraction, and the derived sequence of a graph, written as files.
That a file cannot be written or drawn is said, and nothing more comes of it.

* `Desk` — what is stored and what was said.
* `Steps` — how the files are named and whether they are drawn.
* `Steps.follow` — the file of an event.
* `Steps.writeSequence` — the files of a derived sequence.
-/

namespace Structuring.CommandLine

/-- What is stored, what was said so far, and the number of the next contraction. -/
structure Desk extends Storage where
  said : List Utterance
  step : Nat

namespace Desk

def say (d : Desk) (n : Notice) : Desk := { d with said := d.said ++ [.notice n] }

def sayAll (d : Desk) (ns : List Notice) : Desk :=
  { d with said := d.said ++ ns.map .notice }

end Desk

/-- What the names of the step files start with, for a description from a file with this name. -/
def stepPrefix (name : Option String) : String :=
  match name with
  | none => "stdin"
  | some name => if name.startsWith "<" then "stdin" else Path.stem name

/-- How step files are made. `start` is what their names start with; `command` draws them if they are
to be drawn. -/
structure Steps where
  start : String
  command : Option String

namespace Steps

/-- A number with four digits at least. -/
def fourDigits (n : Nat) : String :=
  let ds := (toString n).toList
  String.ofList (List.replicate (4 - ds.length) '0' ++ ds)

/-- Draws a file if this is asked for. -/
def draw (s : Steps) (path : String) (d : Desk) : Desk :=
  match s.command with
  | none => d
  | some command => match Image.render d.files command path "png" with
    | .ok _ => d
    | .error f => d.say (.notRendered path (f.message fun _ => ""))

/-- Writes a file and draws it. -/
def write (s : Steps) (path text : String) (d : Desk) : Desk :=
  let d := d.say (.creating path)
  match d.files.write path text with
  | .ok files => s.draw path { d with files := files }
  | .error f => d.say (.notCreated path (f.message fun _ => ""))

/-- The look of a node that a contraction is about. -/
def filled : Attributes :=
  .ofList [(.text "style", .text "filled"), (.text "fillcolor", .text "red")]

/-- The looks of some nodes, given by their labels. -/
def highlight (g : FlowGraph) (looks : List (Value × Attributes)) : Dot.Highlight :=
  looks.filterMap fun (label, a) => (g.find? label).map (·, a)

/-- Before a contraction all nodes of the primitive are filled, and the entry carries its kind. -/
def lookBefore (p : Primitive Value) : List (Value × Attributes) :=
  p.players.map (·, filled) ++ [(p.entry, filled.set (.text "xlabel") (.text p.kind.name))]

/-- After a contraction the new node is filled. -/
def lookAfter (p : Primitive Value) : List (Value × Attributes) := [(p.entry, filled)]

def path (s : Steps) (step : Nat) (letter : String) : String :=
  s!"{s.start}_{fourDigits step}{letter}.dot"

/-- The file of an event, if it has one. -/
def follow (s : Steps) (d : Desk) : Event → Desk
  | .before g p =>
    s.write (s.path d.step "a") (Dot.writeWith g (highlight g (lookBefore p))) (d.say (.before p))
  | .after g p =>
    let d := s.write (s.path d.step "b") (Dot.writeWith g (highlight g (lookAfter p))) d
    { d with step := d.step + 1 }
  | _ => d

/-- The files of a derived sequence: each graph, and then each interval of each graph. -/
def sequenceFiles (gs : List (FlowGraph × List Interval)) : List (String × String) :=
  gs.mapIdx (fun i e => (s!"G_{i + 1}.dot", Dot.write e.1)) ++
    (gs.mapIdx fun i e => e.2.mapIdx fun j interval =>
      let name := s!"I_{i + 1}_{j + 1}"
      (s!"{name}.dot", interval.write e.1 (some (.text name)))).flatten

/-- Writes the derived sequence of a graph beside the step files. -/
def writeSequence (s : Steps) (gs : List (FlowGraph × List Interval)) (d : Desk) : Desk :=
  let d := d.sayAll (gs.map fun (g, is) => .partitioned g.size is.length)
  (sequenceFiles gs).foldl
    (fun d (name, text) => s.write (Path.join (Path.directory s.start) name) text d) d

end Steps

end Structuring.CommandLine
