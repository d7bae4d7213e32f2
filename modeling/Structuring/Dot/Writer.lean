import Structuring.Dot.Lexer
import Structuring.Graph.FlowGraph

/-!
# Writing graph descriptions

* `quote` — a value as an identifier of the DOT language.
* `formatAttributes` — an attribute list.
* `write` — a graph: its attributes, its nodes in order, and its edges grouped by source.
-/

namespace Structuring.Dot

/-- Whether a text is a name or a numeral. -/
def isPlain (cs : List Char) : Bool :=
  match cs with
  | [] => false
  | c :: rest => (isIdStart c && rest.all isIdChar) || (numeral cs).any (·.2.isEmpty)

/-- A text without one line feed at its end. -/
def dropFinalNewline (cs : List Char) : List Char :=
  match cs.reverse with
  | '\n' :: rest => rest.reverse
  | _ => cs

/-- Puts a backslash before each quote. -/
def escapeQuotes : List Char → List Char
  | [] => []
  | c :: cs => if c = '"' then '\\' :: '"' :: escapeQuotes cs else c :: escapeQuotes cs

/-- A text as an identifier. It stands as it is if it is a name or a numeral, which a line feed at
its end does not change, and not a keyword; else it stands in quotes. -/
def quoteChars (cs : List Char) : List Char :=
  if (isPlain cs ∨ isPlain (dropFinalNewline cs)) ∧ Keyword.ofWord? cs = none then cs
  else '"' :: escapeQuotes cs ++ ['"']

/-- A value as an identifier. An html string stands as it is. -/
def quote (v : Value) : String :=
  match v with
  | .html s => s
  | _ => String.ofList (quoteChars v.shown.toList)

/-- A key and its value. -/
def assignment (e : Value × Value) : String := quote e.1 ++ "=" ++ quote e.2

/-- An attribute list with a space before it; nothing if there are no attributes. -/
def formatAttributes (a : Attributes) : String :=
  if a.isEmpty then ""
  else " [" ++ ", ".intercalate (a.entries.map assignment) ++ "]"

def headLine (name : Option Value) : String :=
  match name with
  | none => "digraph \x7b"
  | some v => s!"digraph {quote v} \x7b"

def nodeLine (label : Value) (a : Attributes) : String :=
  "\t" ++ quote label ++ formatAttributes a ++ ";"

def edgeLine (source target : Value) (a : Attributes) : String :=
  "\t" ++ quote source ++ " -> " ++ quote target ++ formatAttributes a ++ ";"

/-- Lines, each with its end. -/
def ofLines (lines : List String) : String :=
  String.join (lines.map (· ++ "\n"))

/-- Attributes laid over those of some nodes for display. The last entry of a node counts. -/
abbrev Highlight := List (NodeId × Attributes)

/-- The attributes that a node is written with: its own, the mark of an entry node that is not the
first node, and its highlight. -/
def shownAttributes (g : FlowGraph) (highlight : Highlight) (n : NodeId) (b : Block) :
    Attributes :=
  let marked :=
    if g.entry = some n ∧ g.ids.head? ≠ some n then
      b.attributes.set (.text "entry") (.text "true")
    else b.attributes
  match highlight.reverse.find? fun h => h.1 = n with
  | none => marked
  | some h => marked.update h.2

/-- A graph as text. -/
def writeWith (g : FlowGraph) (highlight : Highlight) : String :=
  ofLines <|
    [headLine g.name] ++
    g.attributes.entries.map (fun e => "\t" ++ assignment e ++ ";") ++
    g.nodes.map (fun e => nodeLine e.2.label (shownAttributes g highlight e.1 e.2)) ++
    g.edgeList.map (fun e => edgeLine (g.label e.source) (g.label e.target) e.attributes) ++
    ["\x7d"]

def write (g : FlowGraph) : String := writeWith g []

end Structuring.Dot
