import Structuring.Failure
import Structuring.Json.Reader
import Structuring.Json.Writer

/-!
# Records of primitives

Located primitives as they are stored. A stored primitive may hold any value where a located one
holds a label.

* `Entry` — a stored primitive.
* `Entry.same` — equality: the order of the roles makes no difference.
* `Record.write`, `Record.read` — a record as a JSON document, which fails for integers that are too
  long.
-/

namespace Structuring

/-- A stored primitive: its kind, what plays each role, and the two ends. -/
structure Entry where
  kind : Datum
  roles : List (Datum × Datum)
  entry : Datum
  exit : Datum
  deriving Inhabited

namespace Entry

/-- A located primitive as it is stored. -/
def ofPrimitive (p : Primitive Value) : Entry :=
  ⟨.text p.kind.name, p.roles.map fun (r, v) => (.text r, .ofValue v), .ofValue p.entry,
    (p.exit?.map Datum.ofValue).getD .null⟩

/-- A stored primitive as it stands in a message. -/
def shown (e : Entry) : CodeText :=
  e.kind.shown ++ "(" ++
    CodeText.intercalate ", " (e.roles.map fun (r, v) => r.shown ++ "=" ++ v.shown) ++ ")"

/-- What plays a role. -/
def player? (role : Datum) : List (Datum × Datum) → Option Datum
  | [] => none
  | (r, v) :: rest => if r.same role then some v else player? role rest

/-- Whether the same roles are played by the same values, in whatever order. -/
def sameRoles (rs ss : List (Datum × Datum)) : Bool :=
  rs.length = ss.length &&
    rs.all fun (r, v) => match player? r ss with
      | some w => v.same w
      | none => false

/-- Equality of stored primitives. -/
def same (d e : Entry) : Bool :=
  d.kind.same e.kind && sameRoles d.roles e.roles && d.entry.same e.entry && d.exit.same e.exit

/-- What the sorted roles of a primitive can be compared by. -/
inductive SortClass where
  | number | text | other
  deriving DecidableEq

def sortClass : Datum → SortClass
  | .text _ => .text
  | .html _ => .text
  | .bool _ => .number
  | .int _ => .number
  | .double _ => .number
  | _ => .other

/-- Whether the roles can be sorted: there is at most one, or they are all texts or all numbers. -/
def sortable (roles : List (Datum × Datum)) : Bool :=
  match roles with
  | [] => true
  | [_] => true
  | (r, _) :: rest =>
    sortClass r ≠ .other && rest.all fun e => sortClass e.1 = sortClass r

/-- Whether a primitive can be a key: its kind and its labels are plain values and its roles can be
sorted. -/
def hashable (e : Entry) : Bool :=
  e.kind.isScalar && sortable e.roles && e.roles.all fun r => r.2.isScalar

/-- Whether two primitives have the same hash, which takes in the kind and the sorted roles. -/
def sameHash (d e : Entry) : Except Failure Bool :=
  if d.hashable ∧ e.hashable then .ok (d.kind.same e.kind && sameRoles d.roles e.roles)
  else .error .wrongType

/-- A role name as the name of a member. -/
def memberName : Datum → Except Json.Fault CodeText
  | .text s => .ok s
  | .html s => .ok s
  | .null => .ok "null"
  | .bool true => .ok "true"
  | .bool false => .ok "false"
  | .int n => (Json.decimal n).map .ofString
  | .double x => .ok (Json.double x)
  | d => .ok d.shown

def membersOf : List (Datum × Datum) → Except Json.Fault (List (CodeText × Datum))
  | [] => .ok []
  | (r, v) :: rest => do
    let k ← memberName r
    return (k, v) :: (← membersOf rest)

/-- A stored primitive as a JSON object. -/
def toDatum (e : Entry) : Except Json.Fault Datum := do
  let node ← membersOf e.roles
  return .object [("prim", e.kind), ("node", .object node), ("entry", e.entry), ("exit", e.exit)]

/-- The parts of a value that can be taken apart: items, names of members, characters. -/
def parts? : Datum → Option (List Datum)
  | .list items => some items
  | .object ms => some (ms.map fun m => .text m.1)
  | .text s => some (s.points.map fun p => .text ⟨[p]⟩)
  | .html s => some (s.points.map fun p => .text ⟨[p]⟩)
  | _ => none

/-- The pairs of a list, whose next element has the given place. -/
def pairs (place : Nat) : List Datum → Except Failure (List (Datum × Datum))
  | [] => .ok []
  | d :: ds =>
    match parts? d with
    | none => .error .wrongType
    | some [k, v] => do
      if k.isScalar then return (k, v) :: (← pairs (place + 1) ds) else throw .wrongType
    | some ps => .error (.notAPair place ps.length)

/-- Roles set one after the other. -/
def rolesOfPairs (ps : List (Datum × Datum)) : List (Datum × Datum) :=
  ps.foldl (fun acc p => Datum.put p.1 p.2 acc) []

/-- The roles of a decoded primitive: an object, or pairs. -/
def rolesOf (d : Datum) : Except Failure (List (Datum × Datum)) :=
  match d with
  | .object ms => .ok (ms.map fun (k, v) => (.text k, v))
  | _ => match parts? d with
    | none => .error .wrongType
    | some ps => (pairs 0 ps).map rolesOfPairs

/-- The value of a member that has to be there. -/
def need (key : String) (ms : List (CodeText × Datum)) : Except Failure Datum :=
  match Datum.find? key ms with
  | some d => .ok d
  | none => .error (.noKey key)

/-- A primitive from a JSON object. The exit may be missing. -/
def ofDatum (d : Datum) : Except Failure Entry :=
  match d with
  | .object ms => do
    let kind ← need "prim" ms
    let node ← need "node" ms
    let entry ← need "entry" ms
    let exit := (Datum.find? "exit" ms).getD .null
    return ⟨kind, ← rolesOf node, entry, exit⟩
  | _ => .error .wrongType

end Entry

/-- Primitives in the order in which they were located. -/
structure Record where
  entries : List Entry
  deriving Inhabited

namespace Record

def ofPrimitives (ps : List (Primitive Value)) : Record := ⟨ps.map .ofPrimitive⟩

def size (r : Record) : Nat := r.entries.length

def append (r : Record) (e : Entry) : Record := ⟨r.entries ++ [e]⟩

def kinds (r : Record) : List Datum := r.entries.map (·.kind)

/-- The entry at a place; a negative one counts from the end. -/
def get (r : Record) (i : Int) : Except Failure Entry :=
  let j := if i < 0 then i + r.size else i
  if j < 0 then .error .noIndex
  else match r.entries[j.toNat]? with
    | some e => .ok e
    | none => .error .noIndex

/-- The record as it stands in a message. -/
def shown (r : Record) : CodeText :=
  "PrimitiveRecord([" ++ CodeText.intercalate ", " (r.entries.map (·.shown)) ++ "])"

def sameEntries : List Entry → List Entry → Bool
  | [], [] => true
  | d :: ds, e :: es => d.same e && sameEntries ds es
  | _, _ => false

def same (r s : Record) : Bool := sameEntries r.entries s.entries

/-- Whether a record equals a decoded value: only an empty record does, and only an empty list. -/
def sameDatum (r : Record) (d : Datum) : Bool :=
  match d with
  | .list [] => r.entries.isEmpty
  | _ => false

def objectsOf : List Entry → Except Json.Fault (List Datum)
  | [] => .ok []
  | e :: es => do
    let d ← e.toDatum
    return d :: (← objectsOf es)

/-- The record as a JSON document, on one line or indented. -/
def write (r : Record) (indent : Bool) : Except Failure String := do
  let d ← ((objectsOf r.entries).map .list).mapError .json
  let text ← (if indent then Json.writeIndented 0 d else Json.write d).mapError .json
  return text ++ "\n"

def entriesOf : List Datum → Except Failure (List Entry)
  | [] => .ok []
  | d :: ds => do
    let e ← Entry.ofDatum d
    return e :: (← entriesOf ds)

/-- The record in a JSON document. -/
def read (s : String) : Except Failure Record :=
  match Json.read s with
  | .error f => .error (.json f)
  | .ok d => match Entry.parts? d with
    | none => .error .wrongType
    | some ds => (entriesOf ds).map Record.mk

end Record

end Structuring
