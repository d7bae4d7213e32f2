/-!
# Lines

How a text is cut into lines when a place in it is shown.

* `isLineBreak` — the characters that end a line.
* `lines` — the lines without their ends; a carriage return with a line feed is one end.
* `unifyNewlines` — a text as it is read from a file.
-/

namespace Structuring.Text

/-- The characters that end a line: line feed, vertical tab, form feed, carriage return, the file,
group and record separators, next line, line separator and paragraph separator. -/
def isLineBreak (c : Char) : Bool :=
  c = '\n' || c = '\x0b' || c = '\x0c' || c = '\r' || c = '\x1c' || c = '\x1d' || c = '\x1e' ||
    c = '\u0085' || c = '\u2028' || c = '\u2029'

/-- The lines of a text, given the characters already read of the current one, last first. -/
def linesFrom (current : List Char) : List Char → List (List Char)
  | [] => if current.isEmpty then [] else [current.reverse]
  | '\r' :: '\n' :: cs => current.reverse :: linesFrom [] cs
  | c :: cs =>
    if isLineBreak c then current.reverse :: linesFrom [] cs else linesFrom (c :: current) cs

/-- The lines of a text, without their ends. No empty line follows the last end. -/
def lines (s : String) : List String :=
  (linesFrom [] s.toList).map String.ofList

def unifyNewlinesChars : List Char → List Char
  | [] => []
  | '\r' :: '\n' :: cs => '\n' :: unifyNewlinesChars cs
  | c :: cs => (if c = '\r' then '\n' else c) :: unifyNewlinesChars cs

/-- A text as it is read from a file: a carriage return, with a line feed after it or alone,
becomes a line feed. -/
def unifyNewlines (s : String) : String :=
  String.ofList (unifyNewlinesChars s.toList)

end Structuring.Text
