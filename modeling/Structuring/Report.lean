import Structuring.Dot.Writer
import Structuring.Log
import Structuring.Record

/-!
# Reports

What is written into a report on the recovery of primitives.

* `Report.Item` — the parts of a report.
* `Report.Item.pieces`, `text` — how each is written.
* `Reporter` — where the parts go.
-/

namespace Structuring

namespace Report

/-- A part of a report. -/
inductive Item where
  | header
  | heading (level : Int) (title : String)
  | message (text : String)
  | raw (text : String)
  | graph (g : FlowGraph)
  | located (p : Primitive Value)
  | stored (e : Entry)
  | stopped (message : String)
  | collapsed (header : Value) (labels : List Value)
  | problem (p : Problem)
  | exception (kind text : String)

/-- A line, as it is written: the text and then its end. -/
def linePieces (s : String) : List String := [s, "\n"]

/-- A title with a line of marks below it, and an empty line before and after. -/
def headingPieces (level : Int) (title : String) : List String :=
  let marker := if level = 1 then '=' else if level = 2 then '-' else '~'
  "\n" :: linePieces title ++
    linePieces (String.ofList (List.replicate title.length marker)) ++ ["\n"]

/-- The texts that are written for a part, one after the other. -/
def Item.pieces : Item → List String
  | .header => linePieces s!"Restructure report (version {version})"
  | .heading level title => headingPieces level title
  | .message s => linePieces s
  | .raw s => linePieces s
  | .graph g => linePieces (Dot.write g)
  | .located p => linePieces s!"- {p.shown}"
  | .stored e => linePieces s!"- {e.shown.string}"
  | .stopped s => headingPieces 2 "Incomplete" ++ linePieces s
  | .collapsed v vs => linePieces s!"- collapsed interval {v.shown}: {commaSeparated vs}"
  | .problem p => headingPieces 3 "Error" ++ linePieces p.print
  | .exception kind s => linePieces ((if s.isEmpty then kind else s!"{kind}: {s}") ++ "\n")

def Item.text (i : Item) : String := String.join i.pieces

/-- Parts one after the other. -/
def text (items : List Item) : String := String.join (items.map (·.text))

end Report

/-- Where the parts of a report go: nowhere, or into a text until it is closed. -/
inductive Reporter where
  | silent
  | writing (written : String)
  | closed
  deriving Inhabited

namespace Reporter

def name : Reporter → String
  | .silent => "DummyReportGenerator"
  | _ => "TextReportGenerator"

/-- The report as it stands in a message. -/
def shown (r : Reporter) : String := s!"<restructure.utils.reporting.{r.name}>"

/-- Puts a part into the report. Nothing can be put into a closed one. -/
def put (i : Report.Item) : Reporter → Except Failure Reporter
  | .silent => .ok .silent
  | .writing written => .ok (.writing (written ++ i.text))
  | .closed => .error .closedFile

def close : Reporter → Reporter
  | .silent => .silent
  | _ => .closed

/-- What was written; nothing once the report is closed. -/
def written? : Reporter → Option String
  | .silent => some ""
  | .writing written => some written
  | .closed => none

/-- The part of the report that tells of a failure. -/
def itemOf (write : NodeId → String) (f : Failure) : Option Report.Item :=
  (f.problem? write).map .problem

end Reporter

end Structuring
