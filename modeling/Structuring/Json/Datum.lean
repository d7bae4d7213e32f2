import Structuring.Number.Double
import Structuring.Text.Literal
import Structuring.Value

/-!
# Data

The values of JSON documents, and labels among them.

* `Datum` — a value. The members of an object stand in the order in which they were first given.
* `Datum.shown` — a value as it stands in a message.
* `Datum.same` — equality: numbers by value, objects without regard to order.
* `Json.Fault` — why a document cannot be read, or a value not be written.
-/

namespace Structuring

/-- A value of a JSON document. `html` is a text that was written between angle brackets. -/
inductive Datum where
  | null
  | bool (b : Bool)
  | int (n : Int)
  | double (x : Double)
  | text (s : CodeText)
  | html (s : CodeText)
  | list (items : List Datum)
  | object (members : List (CodeText × Datum))
  deriving Inhabited

namespace Datum

def ofValue : Value → Datum
  | .text s => .text s
  | .html s => .html s
  | .int n => .int n

mutual

/-- A value inside another one: texts in quotes. -/
def inner : Datum → String
  | .null => "None"
  | .bool true => "True"
  | .bool false => "False"
  | .int n => toString n
  | .double x => x.shown
  | .text s => Text.literal s
  | .html s => Text.literal s
  | .list items => "[" ++ ", ".intercalate (innerItems items) ++ "]"
  | .object members => "\x7b" ++ ", ".intercalate (innerMembers members) ++ "\x7d"

def innerItems : List Datum → List String
  | [] => []
  | d :: ds => d.inner :: innerItems ds

def innerMembers : List (CodeText × Datum) → List String
  | [] => []
  | (k, d) :: ms => (Text.literal k ++ ": " ++ d.inner) :: innerMembers ms

end

/-- A value as it stands in a message: a text as it is. -/
def shown : Datum → CodeText
  | .text s => s
  | .html s => s
  | d => d.inner

/-- The integer that a truth value or an integer counts as. -/
def integer? : Datum → Option Int
  | .bool b => some (if b then 1 else 0)
  | .int n => some n
  | _ => none

def text? : Datum → Option CodeText
  | .text s => some s
  | .html s => some s
  | _ => none

/-- The value of a member. -/
def find? (key : CodeText) : List (CodeText × Datum) → Option Datum
  | [] => none
  | (k, d) :: ms => if k = key then some d else find? key ms

mutual

/-- Equality. Truth values count as one and zero, numbers are compared by value, texts by their
code points, and objects member by member. -/
def same : Datum → Datum → Bool
  | .null, .null => true
  | .list ds, .list es => sameItems ds es
  | .object ms, .object ns => ms.length = ns.length && sameMembers ms ns
  | .double x, .double y => x.sameValue y
  | .double x, e => (e.integer?).any x.equalsInt
  | d, .double y => (d.integer?).any y.equalsInt
  | d, e => match d.integer?, e.integer? with
    | some i, some j => i = j
    | none, none => match d.text?, e.text? with
      | some s, some t => s = t
      | _, _ => false
    | _, _ => false

def sameItems : List Datum → List Datum → Bool
  | [], [] => true
  | d :: ds, e :: es => d.same e && sameItems ds es
  | _, _ => false

/-- Whether each member has its equal among the others. -/
def sameMembers : List (CodeText × Datum) → List (CodeText × Datum) → Bool
  | [], _ => true
  | (k, d) :: ms, ns => (match find? k ns with
    | some e => d.same e
    | none => false) && sameMembers ms ns

end

/-- Whether a value can be a key. -/
def isScalar : Datum → Bool
  | .list _ => false
  | .object _ => false
  | _ => true

/-- Puts a value under a key. A key that is there keeps its place and its spelling. -/
def put (k d : Datum) : List (Datum × Datum) → List (Datum × Datum)
  | [] => [(k, d)]
  | (k', d') :: ms => if k'.same k then (k', d) :: ms else (k', d') :: put k d ms

/-- Puts a value under a name. A name that is there keeps its place. -/
def putMember (k : CodeText) (d : Datum) : List (CodeText × Datum) → List (CodeText × Datum)
  | [] => [(k, d)]
  | (k', d') :: ms => if k' = k then (k', d) :: ms else (k', d') :: putMember k d ms

end Datum

namespace Json

/-- Why a document cannot be read, or a value not be written: the document is no JSON, or an integer
has too many digits for the one or the other. -/
inductive Fault where
  | malformed
  | tooManyDigits (count : Nat)
  | longInteger
  deriving DecidableEq

/-- How many digits an integer may have. -/
def digitLimit : Nat := 4300

def Fault.message : Fault → String
  | .malformed => ""
  | .tooManyDigits count =>
    s!"Exceeds the limit ({digitLimit} digits) for integer string conversion: value has {count} " ++
      "digits; use sys.set_int_max_str_digits() to increase the limit"
  | .longInteger =>
    s!"Exceeds the limit ({digitLimit} digits) for integer string conversion; " ++
      "use sys.set_int_max_str_digits() to increase the limit"

end Json

end Structuring
