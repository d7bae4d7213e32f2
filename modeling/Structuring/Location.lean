import Structuring.Text.Lines

/-!
# Locations

A stretch of a source text, and how a message about it is printed.

* `Location` — file, row and column (both from 1), length, and the source if it is known.
* `Location.print` — the message below the line that it is about, with a marker.
-/

namespace Structuring

/-- A stretch of a source text. -/
structure Location where
  file : Option String
  row : Int
  column : Int
  length : Int
  source : Option String
  deriving DecidableEq, Inhabited

/-- Pads a text on the left with spaces. -/
def padLeft (width : Nat) (s : String) : String :=
  String.ofList (List.replicate (width - s.length) ' ') ++ s

/-- A text written several times; not at all if the number is negative. -/
def repeated (n : Int) (c : Char) : String :=
  String.ofList (List.replicate n.toNat c)

namespace Location

/-- The name of the file, or `None` where there is none. -/
def fileText (l : Location) : String := l.file.getD "None"

/-- The location in brackets: file, row, column and length. -/
def shown (l : Location) : String :=
  s!"({l.fileText}, {l.row}, {l.column}, {l.length})"

/-- The line that a location is about. -/
def line? (l : Location) (lines : List String) : Option String :=
  if 1 ≤ l.row then lines[l.row.toNat - 1]? else none

/-- A message below the line of `lines` that it is about, with a marker of at least one caret. -/
def printWithin (l : Location) (message : String) (lines : List String) : String :=
  let file := match l.file with
    | none => ""
    | some name => if name.isEmpty then "" else s!"File : \"{name}\"\n"
  let excerpt := match l.line? lines with
    | none => ""
    | some line =>
      padLeft 5 (toString l.row) ++ " :" ++ line ++ "\n" ++
        "      :" ++ repeated (l.column - 1) ' ' ++ repeated (max l.length 1) '^' ++ "\n"
  file ++ excerpt ++ "      : " ++ message ++ "\n"

/-- A message at a location. The lines are those of the source unless some are given; with neither,
row and column stand in front of the message. -/
def print (l : Location) (message : String) (lines : Option (List String)) : String :=
  match lines, l.source with
  | some ls, _ => l.printWithin message ls
  | none, some source => l.printWithin message (Text.lines source)
  | none, none => s!"{l.fileText}:{l.row}:{l.column}: {message}\n"

end Location

end Structuring
