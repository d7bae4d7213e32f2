import Structuring.Json.Datum

/-!
# Writing JSON

* `Json.quoted` — a text in ASCII: what lies outside is given by UTF-16 units.
* `Json.decimal` — an integer, which may not be too long.
* `Json.write` — a value on one line.
* `Json.writeIndented` — a value over several lines, indented with tabs.
-/

namespace Structuring.Json

/-- A UTF-16 unit as an escape. -/
def unitEscape (n : Nat) : String := "\\u" ++ Text.hexDigits 4 n

/-- A code point inside a JSON text. -/
def escaped (p : CodePoint) : String :=
  if p = '"' then "\\\""
  else if p = '\\' then "\\\\"
  else if p = '\n' then "\\n"
  else if p = '\r' then "\\r"
  else if p = '\t' then "\\t"
  else if p = '\x0c' then "\\f"
  else if p = '\x08' then "\\b"
  else if 32 ≤ p.value ∧ p.value < 127 then String.ofList [p.char]
  else if p.value < 0x10000 then unitEscape p.value
  else unitEscape (0xd800 + (p.value - 0x10000) / 0x400) ++
    unitEscape (0xdc00 + (p.value - 0x10000) % 0x400)

def quoted (s : CodeText) : String :=
  "\"" ++ String.join (s.points.map escaped) ++ "\""

/-- A double in JSON. -/
def double (x : Double) : String := x.write "Infinity" "NaN"

/-- An integer in decimal. -/
def decimal (n : Int) : Except Fault String :=
  if n.natAbs < Nat.pow 10 digitLimit then .ok (toString n) else .error .longInteger

/-- Parts between brackets, on one line. -/
def enclosed (opening closing : String) (parts : List String) : String :=
  opening ++ ", ".intercalate parts ++ closing

mutual

/-- A value on one line. -/
def write : Datum → Except Fault String
  | .null => .ok "null"
  | .bool true => .ok "true"
  | .bool false => .ok "false"
  | .int n => decimal n
  | .double x => .ok (double x)
  | .text s => .ok (quoted s)
  | .html s => .ok (quoted s)
  | .list items => (writeItems items).map (enclosed "[" "]")
  | .object members => (writeMembers members).map (enclosed "\x7b" "\x7d")

def writeItems : List Datum → Except Fault (List String)
  | [] => .ok []
  | d :: ds => do
    let t ← write d
    return t :: (← writeItems ds)

def writeMembers : List (CodeText × Datum) → Except Fault (List String)
  | [] => .ok []
  | (k, d) :: ms => do
    let t ← write d
    return (quoted k ++ ": " ++ t) :: (← writeMembers ms)

end

/-- A line feed and tabs. -/
def breakLine (depth : Nat) : String := "\n" ++ String.ofList (List.replicate depth '\t')

/-- Parts between brackets, each on lines of its own. -/
def bracketed (depth : Nat) (opening closing : String) (parts : List String) : String :=
  if parts.isEmpty then opening ++ closing
  else opening ++ breakLine (depth + 1) ++
    ("," ++ breakLine (depth + 1)).intercalate parts ++ breakLine depth ++ closing

mutual

/-- A value over several lines, the first of which is indented already. -/
def writeIndented (depth : Nat) : Datum → Except Fault String
  | .list items => (indentedItems (depth + 1) items).map (bracketed depth "[" "]")
  | .object members => (indentedMembers (depth + 1) members).map (bracketed depth "\x7b" "\x7d")
  | .null => .ok "null"
  | .bool true => .ok "true"
  | .bool false => .ok "false"
  | .int n => decimal n
  | .double x => .ok (double x)
  | .text s => .ok (quoted s)
  | .html s => .ok (quoted s)

def indentedItems (depth : Nat) : List Datum → Except Fault (List String)
  | [] => .ok []
  | d :: ds => do
    let t ← writeIndented depth d
    return t :: (← indentedItems depth ds)

def indentedMembers (depth : Nat) : List (CodeText × Datum) → Except Fault (List String)
  | [] => .ok []
  | (k, d) :: ms => do
    let t ← writeIndented depth d
    return (quoted k ++ ": " ++ t) :: (← indentedMembers depth ms)

end

end Structuring.Json
