import Structuring.Failure

/-!
# Log

What is said about a run, with its weight and the part of the program that says it.

* `Level` — the weights, `Level.rank` as a number.
* `Notice` — what is said.
* `Notice.level`, `channel`, `message` — its weight, its source and its wording.
-/

namespace Structuring

inductive Level where
  | debug | info | warning | error | critical
  deriving DecidableEq, Inhabited

namespace Level

def rank : Level → Nat
  | .debug => 10
  | .info => 20
  | .warning => 30
  | .error => 40
  | .critical => 50

def name : Level → String
  | .debug => "DEBUG"
  | .info => "INFO"
  | .warning => "WARNING"
  | .error => "ERROR"
  | .critical => "CRITICAL"

/-- The names under which a rank can be asked for. -/
def ranks : List (String × Nat) :=
  [("CRITICAL", 50), ("FATAL", 50), ("ERROR", 40), ("WARNING", 30), ("WARN", 30), ("INFO", 20),
    ("DEBUG", 10), ("NOTSET", 0)]

/-- A character in capital letters, as far as ASCII letters come of it: the dotless i, the long s,
the sharp s and the ligatures of f, s and t are such characters besides the small letters. -/
def capitals (c : Char) : List Char :=
  if c = '\u0131' then ['I']
  else if c = '\u017f' then ['S']
  else if c = '\u00df' then ['S', 'S']
  else if c = '\ufb00' then ['F', 'F']
  else if c = '\ufb01' then ['F', 'I']
  else if c = '\ufb02' then ['F', 'L']
  else if c = '\ufb03' then ['F', 'F', 'I']
  else if c = '\ufb04' then ['F', 'F', 'L']
  else if c = '\ufb05' then ['S', 'T']
  else if c = '\ufb06' then ['S', 'T']
  else [c.toUpper]

/-- The rank with a name; capital and small letters make no difference. -/
def rankOf (s : String) : Except Failure Nat :=
  let name := String.ofList (s.toList.flatMap capitals)
  match ranks.find? fun r => r.1 = name with
  | some r => .ok r.2
  | none => .error (.unknownLevel s)

end Level

/-- The methods of structuring. -/
inductive Method where
  | hammock | interval
  deriving DecidableEq, Inhabited

namespace Method

def name : Method → String
  | .hammock => "hammock"
  | .interval => "interval"

/-- The names that are known, the last of which is not supported. -/
def knownNames : List String := ["hammock", "interval", "pattern-independent"]

def ofName (s : String) : Except MethodError Method :=
  if s = "hammock" then .ok .hammock
  else if s = "interval" then .ok .interval
  else if knownNames.contains s then .error (.unsupported s)
  else .error (.unknown s)

end Method

/-- The version of the program. -/
def version : String := "0.1.0"

/-- The version as it is told, with the platform that the program runs on. -/
def versionText (platform : String) : String := s!"restructure {version} on {platform}"

/-- What is said about a run. Nodes are given by their blocks. -/
inductive Notice where
  | searching (nodes : Nat)
  | dominators (graph : String) (nodes : Nat)
  | partitioned (nodes intervals : Nat)
  | merged (members : List Block) (into : Block)
  | structuring (graph : String)
  | derived (level nodes derived : Nat)
  | collapsed (header : Value) (labels : List Value)
  | located (m : Method) (p : Primitive Value)
  | parsed (graph : String) (nodes edges : Nat)
  | started (graph : String) (nodes : Nat) (m : Method)
  | finished (primitives : Nat)
  | stopped (message : String)
  | creating (path : String)
  | before (p : Primitive Value)
  | notCreated (path reason : String)
  | notRendered (path reason : String)
  | reporting (target : String)
  | attached
  | version (platform : String)
  | removing
  | failed (message : String)

namespace Notice

def level : Notice → Level
  | .collapsed .. => .warning
  | .located .. => .info
  | .started .. => .info
  | .finished .. => .info
  | .stopped .. => .warning
  | .notCreated .. => .warning
  | .notRendered .. => .warning
  | .failed .. => .error
  | _ => .debug

def channel : Notice → String
  | .searching .. => "lt"
  | .dominators .. => "cfg"
  | .partitioned .. => "interval"
  | .merged .. => "merge"
  | .structuring .. => "hammock"
  | .derived .. => "interval"
  | .collapsed .. => "interval"
  | .located m _ => m.name
  | .parsed .. => "dot"
  | .started .. => "restructure"
  | .finished .. => "restructure"
  | .stopped .. => "restructure"
  | .creating .. => "restructure"
  | .before .. => "restructure"
  | .notCreated .. => "restructure"
  | .notRendered .. => "restructure"
  | .reporting .. => "root"
  | .attached => "root"
  | .version .. => "root"
  | .removing => "root"
  | .failed .. => "root"

def message : Notice → String
  | .searching n => s!"Computing dominator tree from {n} nodes"
  | .dominators g n => s!"dominator tree for {g} with {n} nodes"
  | .partitioned n i => s!"{n} nodes in {i} intervals"
  | .merged ms b => s!"merged {Text.listLiteral (ms.map (·.shown))} into {b.shown}"
  | .structuring g => s!"structuring {g}"
  | .derived l n d => s!"level {l}: {n} nodes, derived graph has {d} nodes"
  | .collapsed h ls =>
    s!"warning: interval {h.shown} collapsed without a primitive" ++
      s!" ({ls.length} nodes: {commaSeparated ls})"
  | .located _ p => s!"Located primitive {p.shown}"
  | .parsed g n e => s!"parsed {g} with {n} nodes and {e} edges"
  | .started g n m => s!"Structuring {g} ({n} nodes) with the {m.name} method"
  | .finished n => s!"Located {n} primitives"
  | .stopped m => s!"warning: {m}"
  | .creating p => s!"creating file {p}"
  | .before p => s!"located primitive {p.shown}"
  | .notCreated p r => s!"unable to create {p}; {r}"
  | .notRendered p r => s!"unable to render {p}; {r}"
  | .reporting t => s!"Reporting to {t}"
  | .attached => "Loggers attached"
  | .version platform => versionText platform
  | .removing => "Removing loggers"
  | .failed m => m

/-- The notice as a line: level, source and message. -/
def line (n : Notice) : String := s!"{n.level.name} {n.channel}: {n.message}"

end Notice

/-- The lines of the notices of at least some rank. -/
def logLines (rank : Nat) (ns : List Notice) : List String :=
  (ns.filter fun n => rank ≤ n.level.rank).map (·.line)

end Structuring
