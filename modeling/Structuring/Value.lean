/-!
# Values

Labels, names, attribute keys and attribute values of a graph description.

* `Value` — a text, a text written between angle brackets, or an integer.
* `Value.key` — what decides whether two values name the same thing.
* `Value.shown` — the value as it stands in a message.
-/

namespace Structuring

/-- A value of a graph description. The text of `html` includes its outer angle brackets. -/
inductive Value where
  | text (s : String)
  | html (s : String)
  | int (n : Int)
  deriving DecidableEq, Inhabited

/-- What a value is looked up by. The two ways of writing a text make no difference here. -/
inductive Key where
  | text (s : String)
  | int (n : Int)
  deriving DecidableEq, Inhabited

namespace Value

def key : Value → Key
  | .text s => .text s
  | .html s => .text s
  | .int n => .int n

/-- The value as it stands in a message; an integer is written in decimal. -/
def shown : Value → String
  | .text s => s
  | .html s => s
  | .int n => toString n

/-- Whether two values name the same thing. -/
def same (v w : Value) : Bool := v.key = w.key

theorem same_iff {v w : Value} : v.same w = true ↔ v.key = w.key := by simp [same]

@[simp] theorem same_self (v : Value) : v.same v = true := by simp [same]

end Value

end Structuring
