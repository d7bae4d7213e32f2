import Structuring.Json.Datum

/-!
# Reading JSON

Besides JSON itself the words `NaN`, `Infinity` and `-Infinity` are read. Of equal names in an object
the last one's value counts, in the place of the first.

* `Json.text` — a text up to its closing quote.
* `Json.number` — an integer, or a double if there is a fraction or an exponent.
* `Json.read` — a document.
-/

namespace Structuring.Json

/-- What was read and what is left, or why nothing was. -/
abbrev Outcome (α : Type) := Except Fault (α × List Char)

/-- A reading that is malformed if there is none. -/
def Outcome.ofOption {α : Type} : Option (α × List Char) → Outcome α
  | some p => .ok p
  | none => .error .malformed

def isBlank (c : Char) : Bool := c = ' ' || c = '\t' || c = '\n' || c = '\r'

def skipBlank (cs : List Char) : List Char := cs.dropWhile isBlank

def digit? (c : Char) : Option Nat :=
  if '0' ≤ c ∧ c ≤ '9' then some (c.toNat - '0'.toNat) else none

def hexDigit? (c : Char) : Option Nat :=
  if '0' ≤ c ∧ c ≤ '9' then some (c.toNat - '0'.toNat)
  else if 'a' ≤ c ∧ c ≤ 'f' then some (c.toNat - 'a'.toNat + 10)
  else if 'A' ≤ c ∧ c ≤ 'F' then some (c.toNat - 'A'.toNat + 10)
  else none

/-- Four digits in base sixteen. -/
def unit? (a b c d : Char) : Option Nat := do
  return (((← hexDigit? a) * 16 + (← hexDigit? b)) * 16 + (← hexDigit? c)) * 16 + (← hexDigit? d)

/-- The character of an escape with a single letter. -/
def simpleEscape? (c : Char) : Option Char :=
  if c = '"' then some '"'
  else if c = '\\' then some '\\'
  else if c = '/' then some '/'
  else if c = 'b' then some '\x08'
  else if c = 'f' then some '\x0c'
  else if c = 'n' then some '\n'
  else if c = 'r' then some '\r'
  else if c = 't' then some '\t'
  else none

/-- The code points of a text up to its closing quote, with the halves of pairs apart. Controls are
refused. -/
def units : List Char → Option (List CodePoint × List Char)
  | [] => none
  | '"' :: cs => some ([], cs)
  | '\\' :: 'u' :: a :: b :: c :: d :: cs =>
    match unit? a b c d with
    | none => none
    | some u => (units cs).map fun (us, r) => (.ofNat u :: us, r)
  | '\\' :: c :: cs =>
    match simpleEscape? c with
    | none => none
    | some e => (units cs).map fun (us, r) => (.ofChar e :: us, r)
  | c :: cs =>
    if c = '\\' ∨ c.toNat < 32 then none else (units cs).map fun (us, r) => (.ofChar c :: us, r)

/-- Code points with the two halves of each pair made one. -/
def join : List CodePoint → List CodePoint
  | [] => []
  | [u] => [u]
  | u :: v :: us => if u.isHigh && v.isLow then .pair u v :: join us else u :: join (v :: us)

/-- A text up to its closing quote. -/
def text (cs : List Char) : Option (CodeText × List Char) :=
  (units cs).map fun (us, r) => (⟨join us⟩, r)

def isDigit (c : Char) : Bool := (digit? c).isSome

/-- The number that digits stand for. -/
def natural (cs : List Char) : Nat :=
  cs.foldl (fun n c => n * 10 + (digit? c).getD 0) 0

/-- Digits after a point, or nothing. -/
def fraction (cs : List Char) : List Char × List Char :=
  match cs with
  | '.' :: rest =>
    match rest.takeWhile isDigit with
    | [] => ([], cs)
    | ds => (ds, rest.dropWhile isDigit)
  | _ => ([], cs)

/-- An exponent, or nothing. -/
def exponent (cs : List Char) : Option Int × List Char :=
  match cs with
  | e :: rest =>
    if e = 'e' ∨ e = 'E' then
      let (negative, rest') := match rest with
        | '-' :: r => (true, r)
        | '+' :: r => (false, r)
        | _ => (false, rest)
      match rest'.takeWhile isDigit with
      | [] => (none, cs)
      | ds => (some (if negative then -(natural ds : Int) else natural ds), rest'.dropWhile isDigit)
    else (none, cs)
  | [] => (none, cs)

/-- The digits before the point: a zero, or digits that do not start with one. -/
def whole (cs : List Char) : Option (List Char × List Char) :=
  match cs with
  | '0' :: rest => some (['0'], rest)
  | _ => match cs.takeWhile isDigit with
    | [] => none
    | ds => some (ds, cs.dropWhile isDigit)

/-- An integer from its sign and its digits, of which there may not be too many. -/
def integer (negative : Bool) (ds : List Char) : Except Fault Datum :=
  if digitLimit < ds.length then .error (.tooManyDigits ds.length)
  else .ok (.int (if negative then -(natural ds : Int) else natural ds))

/-- A number without its sign. -/
def unsigned (negative : Bool) (cs : List Char) : Outcome Datum :=
  match whole cs with
  | none => .error .malformed
  | some (ds, cs) =>
    let (fs, cs) := fraction cs
    let (x, cs) := exponent cs
    if fs.isEmpty ∧ x.isNone then (integer negative ds).map (·, cs)
    else .ok (.double (.ofDecimal negative (natural (ds ++ fs)) (x.getD 0 - fs.length)), cs)

def number (cs : List Char) : Outcome Datum :=
  match cs with
  | '-' :: rest => unsigned true rest
  | _ => unsigned false cs

/-- What follows a word. -/
def after? (word : List Char) (cs : List Char) : Option (List Char) :=
  match word, cs with
  | [], cs => some cs
  | w :: ws, c :: cs => if w = c then after? ws cs else none
  | _ :: _, [] => none

/-- The words that stand for a value. -/
def words : List (String × Datum) :=
  [("null", .null), ("true", .bool true), ("false", .bool false), ("NaN", .double .nan),
    ("Infinity", .double (.infinite false)), ("-Infinity", .double (.infinite true))]

/-- A word that stands for a value. -/
def word (cs : List Char) : Option (Datum × List Char) :=
  words.findSome? fun (w, d) => (after? w.toList cs).map (d, ·)

mutual

/-- A value, read with at most `fuel` levels and items. -/
def value : Nat → List Char → Outcome Datum
  | 0, _ => .error .malformed
  | fuel + 1, cs =>
    match cs with
    | '"' :: rest => (Outcome.ofOption (text rest)).map fun (t, r) => (.text t, r)
    | '[' :: rest =>
      match skipBlank rest with
      | ']' :: r => .ok (.list [], r)
      | rest => (items fuel rest).map fun (ds, r) => (.list ds, r)
    | '{' :: rest =>
      match skipBlank rest with
      | '}' :: r => .ok (.object [], r)
      | rest => (members fuel [] rest).map fun (ms, r) => (.object ms, r)
    | _ => match word cs with
      | some p => .ok p
      | none => number cs

/-- The items of a list up to its closing bracket. -/
def items : Nat → List Char → Outcome (List Datum)
  | 0, _ => .error .malformed
  | fuel + 1, cs =>
    match value fuel cs with
    | .error f => .error f
    | .ok (d, r) =>
      match skipBlank r with
      | ']' :: r => .ok ([d], r)
      | ',' :: r => (items fuel (skipBlank r)).map fun (ds, r) => (d :: ds, r)
      | _ => .error .malformed

/-- The members of an object up to its closing brace, after those read already. -/
def members : Nat → List (CodeText × Datum) → List Char → Outcome (List (CodeText × Datum))
  | 0, _, _ => .error .malformed
  | fuel + 1, ms, cs =>
    match cs with
    | '"' :: rest =>
      match text rest with
      | none => .error .malformed
      | some (k, r) =>
        match skipBlank r with
        | ':' :: r =>
          match value fuel (skipBlank r) with
          | .error f => .error f
          | .ok (d, r) =>
            let ms := Datum.putMember k d ms
            match skipBlank r with
            | '}' :: r => .ok (ms, r)
            | ',' :: r => members fuel ms (skipBlank r)
            | _ => .error .malformed
        | _ => .error .malformed
    | _ => .error .malformed

end

/-- The value of a document. -/
def read (s : String) : Except Fault Datum :=
  let cs := s.toList
  match value (cs.length + 1) (skipBlank cs) with
  | .error f => .error f
  | .ok (d, r) => if (skipBlank r).isEmpty then .ok d else .error .malformed

end Structuring.Json
