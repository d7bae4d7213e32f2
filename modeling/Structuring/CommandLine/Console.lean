import Structuring.Log
import Structuring.Location

/-!
# Console

What is written to the console: notices, one a line, with colours by their weight, and the excerpts
that errors are shown with.

* `Utterance` — what is said.
* `transcript` — the text of what is said and weighs enough.
-/

namespace Structuring.CommandLine

/-- The number of the colour in which a level is shown. -/
def colour? : Level → Option Nat
  | .info => some 37
  | .warning => some 33
  | .error => some 31
  | _ => none

/-- A line with colour. -/
def coloured (colour : Option Nat) (line : String) : String :=
  match colour with
  | none => line
  | some c => s!"\x1b[1;{c}m{line}\x1b[0m"

/-- How many letters the source of a notice has on the console. -/
def channelWidth : Nat := 10

/-- A notice as it stands on the console: time, level, source and message. -/
def consoleLine (time : String) (n : Notice) : String :=
  let channel := String.ofList (n.channel.toList.take channelWidth)
  coloured (colour? n.level) <|
    " | ".intercalate [time, padLeft 8 n.level.name, padLeft channelWidth channel, n.message]

/-- What is said on the console. -/
inductive Utterance where
  | notice (n : Notice)
  | excerpt (text : String)

/-- The text of what is said, without the notices below some rank. -/
def transcript (time : String) (rank : Nat) (said : List Utterance) : String :=
  String.join <| said.map fun u => match u with
    | .excerpt text => text
    | .notice n => if rank ≤ n.level.rank then consoleLine time n ++ "\n" else ""

end Structuring.CommandLine
