import Structuring.Value
import Structuring.Location

/-!
# Tokens of the DOT language

* `TokenKind` — identifiers, quoted strings, keywords, symbols, and the end of the text.
* `Dot.Error` — what can be wrong with a graph description, and where.
* `Stream` — the tokens of a text, ending at the end of the text or where no token starts.
-/

namespace Structuring.Dot

inductive Keyword where
  | strict | graph | digraph | node | edge | subgraph
  deriving DecidableEq, Inhabited

namespace Keyword

def all : List Keyword := [.strict, .graph, .digraph, .node, .edge, .subgraph]

def name : Keyword → String
  | .strict => "strict"
  | .graph => "graph"
  | .digraph => "digraph"
  | .node => "node"
  | .edge => "edge"
  | .subgraph => "subgraph"

/-- The keyword that a word is; capital letters make no difference. No character outside ASCII has
a letter of a keyword as its small letter, so only ASCII letters are folded. -/
def ofWord? (word : List Char) : Option Keyword :=
  all.find? fun k => word.map Char.toLower = k.name.toList

end Keyword

inductive Symbol where
  | arrow | line
  | openBrace | closeBrace | openBracket | closeBracket
  | equals | semicolon | comma | colon | plus
  deriving DecidableEq, Inhabited

namespace Symbol

def name : Symbol → String
  | .arrow => "->"
  | .line => "--"
  | .openBrace => "\x7b"
  | .closeBrace => "\x7d"
  | .openBracket => "["
  | .closeBracket => "]"
  | .equals => "="
  | .semicolon => ";"
  | .comma => ","
  | .colon => ":"
  | .plus => "+"

/-- The symbol that a single character is. -/
def ofChar? (c : Char) : Option Symbol :=
  if c = '{' then some .openBrace
  else if c = '}' then some .closeBrace
  else if c = '[' then some .openBracket
  else if c = ']' then some .closeBracket
  else if c = '=' then some .equals
  else if c = ';' then some .semicolon
  else if c = ',' then some .comma
  else if c = ':' then some .colon
  else if c = '+' then some .plus
  else none

end Symbol

/-- The kind of a token. `id` stands for identifiers, numerals and html strings, `string` for
quoted strings. -/
inductive TokenKind where
  | id
  | string
  | keyword (k : Keyword)
  | symbol (s : Symbol)
  | eof
  deriving DecidableEq, Inhabited

def TokenKind.name : TokenKind → String
  | .id => "ID"
  | .string => "STRING"
  | .keyword k => k.name
  | .symbol s => s.name
  | .eof => "EOF"

structure Token where
  kind : TokenKind
  value : Value
  location : Location
  deriving DecidableEq

/-- A token as it stands in a message. -/
def Token.shown (t : Token) : String :=
  s!"Token({t.kind.name}, {t.value.shown}, {t.location.shown})"

/-- What is wrong with a graph description. `found` is the text of the token met. -/
inductive Fault where
  | unexpectedChar (c : Char)
  | unterminatedHtml
  | expected (kinds : List TokenKind) (found : String)
  | expectedStatement (found : String)
  | undirectedGraph
  | undirectedEdge
  | edgeFromSubgraph
  | edgeToSubgraph
  | manyEntries (labels : List Value)
  | manyLabelledEntry (labels : List Value)
  deriving DecidableEq

/-- Quoted words with commas between them and an `or` before the last. -/
def commaOr (words : List String) : String :=
  match (words.map fun w => s!"\"{w}\"").reverse with
  | [] => ""
  | [w] => w
  | last :: first => ", ".intercalate first.reverse ++ " or " ++ last

/-- A number in base sixteen with capital digits. -/
def hexadecimal (n : Nat) : String :=
  String.ofList ((Nat.toDigits 16 n).map Char.toUpper)

def Fault.message : Fault → String
  | .unexpectedChar c => s!"Unexpected char: {c} (0x{hexadecimal c.toNat})"
  | .unterminatedHtml => "Unterminated html string"
  | .expected kinds found => s!"Expected {commaOr (kinds.map (·.name))}, got \"{found}\""
  | .expectedStatement found => s!"Expected statement, got \"{found}\""
  | .undirectedGraph => "Undirected graphs are not supported"
  | .undirectedEdge => "Undirected edges are not supported"
  | .edgeFromSubgraph => "Edges between subgraphs are not supported"
  | .edgeToSubgraph => "Edges to subgraphs are not supported"
  | .manyEntries labels => "Multiple entry nodes: " ++ ", ".intercalate (labels.map (·.shown))
  | .manyLabelledEntry labels =>
    "Multiple nodes labelled entry: " ++ ", ".intercalate (labels.map (·.shown))

/-- A fault and the place to which it is reported. -/
structure Error where
  fault : Fault
  location : Location
  deriving DecidableEq

/-- The tokens of a text. It ends with the place of the end of the text, or with the error where no
token starts. -/
inductive Stream where
  | done (location : Location)
  | broken (e : Error)
  | token (t : Token) (rest : Stream)

namespace Stream

def size : Stream → Nat
  | .done _ => 0
  | .broken _ => 0
  | .token _ rest => rest.size + 1

/-- The kind of the next token. -/
def peek : Stream → Except Error TokenKind
  | .done _ => .ok .eof
  | .broken e => .error e
  | .token t _ => .ok t.kind

theorem peek_map_eq_ok {α : Type} {s : Stream} {a b : α} (h : (s.peek.map fun _ => a) = .ok b) :
    b = a := by
  cases hp : s.peek with
  | error e => rw [hp] at h; cases h
  | ok k => rw [hp] at h; cases h; rfl

/-- The tokens, the one for the end of the text included, and the error if there is one. -/
def unroll : Stream → List Token × Option Error
  | .done l => ([⟨.eof, .text "EOF", l⟩], none)
  | .broken e => ([], some e)
  | .token t rest => (t :: rest.unroll.1, rest.unroll.2)

/-- Stops with a fault at the next token. -/
def fail {α : Type} (s : Stream) (f : String → Fault) : Except Error α :=
  match s with
  | .done l => .error ⟨f "EOF", l⟩
  | .broken e => .error e
  | .token t _ => .error ⟨f t.value.shown, t.location⟩

theorem fail_ne_ok {α : Type} {s : Stream} {f : String → Fault} {a : α} : s.fail f ≠ .ok a := by
  unfold fail
  split <;> simp

end Stream

end Structuring.Dot
