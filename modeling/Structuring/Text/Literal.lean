import Structuring.Text.Printable

/-!
# Text literals

A text in quotes, with escapes for what cannot be shown, as it stands in messages.

* `delimiter` — single quotes, or double quotes if the text holds single quotes only.
* `literal` — the text between its quotes.
-/

namespace Structuring.Text

/-- Digits in base sixteen, at least `width` of them. -/
def hexDigits (width n : Nat) : String :=
  let ds := Nat.toDigits 16 n
  String.ofList (List.replicate (width - ds.length) '0' ++ ds)

/-- The quote that a text is put into. -/
def delimiter (ps : List CodePoint) : Char :=
  if ps.contains '\'' && !ps.contains '"' then '"' else '\''

/-- A character between quotes. The quotes themselves and the backslash take a backslash; a
character that is not printable is given by its code point. -/
def escaped (quote : Char) (p : CodePoint) : String :=
  if p = '\\' then "\\\\"
  else if p = quote then String.ofList ['\\', quote]
  else if p = '\t' then "\\t"
  else if p = '\n' then "\\n"
  else if p = '\r' then "\\r"
  else if isPrintable p then String.ofList [p.char]
  else if p.value < 0x100 then "\\x" ++ hexDigits 2 p.value
  else if p.value < 0x10000 then "\\u" ++ hexDigits 4 p.value
  else "\\U" ++ hexDigits 8 p.value

/-- A text between quotes. -/
def literal (s : CodeText) : String :=
  let quote := delimiter s.points
  String.ofList [quote] ++ String.join (s.points.map (escaped quote)) ++ String.ofList [quote]

/-- Texts as a list in square brackets. -/
def listLiteral (items : List String) : String :=
  "[" ++ ", ".intercalate items ++ "]"

end Structuring.Text
