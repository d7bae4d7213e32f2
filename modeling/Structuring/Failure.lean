import Structuring.Dot.Reader
import Structuring.Json.Reader
import Structuring.Primitive

/-!
# Failures

What can go wrong, and the wording of it.

* `Problem` — an expected failure as it is reported: a message and perhaps a place.
* `Incomplete` — structuring that stopped with more than one node left.
* `Failure` — the causes, and `Failure.message` their wording.
-/

namespace Structuring

/-- What an expected failure is about. -/
inductive ProblemClass where
  | general | parse | graph | method
  deriving DecidableEq, Inhabited

/-- An expected failure as it is reported. -/
structure Problem where
  about : ProblemClass
  message : String
  location : Option Location
  deriving DecidableEq

/-- The message, with its place if it has one. -/
def Problem.print (p : Problem) : String :=
  match p.location with
  | some l => l.print p.message none
  | none => p.message ++ "\n"

/-- The message in double quotes. -/
def Problem.shown (p : Problem) : String := s!"\"{p.message}\""

/-- Why structuring stopped. -/
inductive Obstacle where
  | noPrimitive
  | irreducible
  deriving DecidableEq, Inhabited

def Obstacle.text : Obstacle → String
  | .noPrimitive => "no primitive found"
  | .irreducible => "irreducible limit graph"

/-- Structuring that stopped early: why, what was located until then, and the labels left over. -/
structure Incomplete where
  obstacle : Obstacle
  located : List (Primitive Value)
  remaining : List Value

/-- Values as they stand in a message, with commas between them. -/
def commaSeparated (vs : List Value) : String := ", ".intercalate (vs.map (·.shown))

def Incomplete.message (e : Incomplete) : String :=
  s!"incomplete control flow recovery; {e.obstacle.text} ({e.remaining.length} nodes left: " ++
    commaSeparated e.remaining ++ ")"

/-- Why a method of structuring is refused. -/
inductive MethodError where
  | unsupported (name : String)
  | unknown (name : String)
  deriving DecidableEq

def MethodError.message : MethodError → String
  | .unsupported name => s!"Control flow recovery method {name} is not supported"
  | .unknown name => s!"Unknown control flow recovery method {name}"

/-- Why a file cannot be opened, or a command not be started. -/
inductive FileFault where
  | missing
  | denied
  | notDirectory
  | isDirectory
  | nameTooLong
  deriving DecidableEq

/-- The number under which the fault is known. -/
def FileFault.number : FileFault → Nat
  | .missing => 2
  | .denied => 13
  | .notDirectory => 20
  | .isDirectory => 21
  | .nameTooLong => 36

def FileFault.text : FileFault → String
  | .missing => "No such file or directory"
  | .denied => "Permission denied"
  | .notDirectory => "Not a directory"
  | .isDirectory => "Is a directory"
  | .nameTooLong => "File name too long"

/-- The causes of failure. -/
inductive Failure where
  /-- An expected failure stated by a caller. -/
  | stated (p : Problem)
  /-- A stop of structuring stated by a caller. -/
  | statedStop (message : String)
  | dot (e : Dot.Error)
  | graph (e : GraphError)
  | method (e : MethodError)
  | incomplete (e : Incomplete)
  /-- Something that is no graph, no text and no file is opened. -/
  | cannotOpen (source : Datum)
  | file (fault : FileFault) (name : String)
  /-- A name with a null character is given to the system. -/
  | nullCharacter
  /-- A command ended with a status other than zero. -/
  | exitStatus (command : List String)
  /-- A node or an edge is made with a reserved attribute. -/
  | reserved
  /-- There is no room for a subgraph inside all those that are open. -/
  | tooDeep
  /-- A decoded value has the wrong type. -/
  | wrongType
  /-- A part of a list of pairs has another length than two. -/
  | notAPair (place length : Nat)
  /-- Something is asked for what it does not have, such as a directed graph for what only a control
  flow graph has. -/
  | noAttribute
  | noNode (n : NodeId)
  | noLabel (label : Value)
  | noKey (key : String)
  | noIndex
  | noSuchEdge
  | unknownAlgorithm (name : String)
  | unknownLevel (name : String)
  | closedFile
  | staleTree
  /-- A contraction that left the wrong number of nodes. -/
  | unbalanced
  | json (f : Json.Fault)
  /-- Any other error, stated by a caller. -/
  | other (text : String)

namespace Failure

def ofCopyError : FlowGraph.CopyError → Failure
  | .graph e => .graph e
  | .notCopied n => .noNode n

def ofReadError : Dot.ReadError → Failure
  | .text e => .dot e
  | .graph e => .graph e
  | .reserved => .reserved
  | .missing key => .noLabel key
  | .notText => .noAttribute
  | .tooDeep => .tooDeep

/-- The wording of a fault with the file that has it. -/
def fileText (f : FileFault) (name : String) : String :=
  s!"[Errno {f.number}] {f.text}: {Text.literal name}"

/-- A value as a key in a message: a text in quotes. -/
def keyText : Value → String
  | .text s => Text.literal s
  | .html s => Text.literal s
  | .int n => toString n

/-- The wording of a failure, given how a node is written. -/
def message (write : NodeId → String) : Failure → String
  | .stated p => p.message
  | .statedStop m => m
  | .dot e => e.fault.message
  | .graph e => e.message write
  | .method e => e.message
  | .incomplete e => e.message
  | .cannotOpen source => s!"Cannot open {source.inner}"
  | .file f name => fileText f name
  | .nullCharacter => "embedded null byte"
  | .exitStatus command =>
    s!"Command '{Text.listLiteral (command.map fun (word : String) => Text.literal word)}' returned non-zero exit status 1."
  | .reserved => ""
  | .tooDeep => "maximum recursion depth exceeded"
  | .wrongType => ""
  | .notAPair place length =>
    s!"dictionary update sequence element #{place} has length {length}; 2 is required"
  | .noAttribute => ""
  | .noNode n => write n
  | .noLabel label => keyText label
  | .noKey key => Text.literal key
  | .noIndex => "list index out of range"
  | .noSuchEdge => "list.remove(x): x not in list"
  | .unknownAlgorithm name => s!"Unknown dominator algorithm {name}"
  | .unknownLevel name => s!"Invalid log level: {name}"
  | .closedFile => "I/O operation on closed file"
  | .staleTree => "Dominator tree used after graph change"
  | .unbalanced => ""
  | .json f => f.message
  | .other text => text

/-- The failure as it is reported, if it is one of the expected kinds. -/
def problem? (write : NodeId → String) (f : Failure) : Option Problem :=
  let m := f.message write
  match f with
  | .stated p => some p
  | .statedStop _ => some ⟨.general, m, none⟩
  | .dot e => some ⟨.parse, m, some e.location⟩
  | .graph _ => some ⟨.graph, m, none⟩
  | .method _ => some ⟨.method, m, none⟩
  | .incomplete _ => some ⟨.general, m, none⟩
  | _ => none

end Failure

end Structuring
