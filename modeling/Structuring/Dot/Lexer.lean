import Structuring.Dot.Token

/-!
# Lexical analysis of the DOT language

A text is cut from left to right into pieces; a piece is blank space, a comment, a line that starts
with `#`, or a token.

* `piece` — the piece at the start of a text.
* `Position.past` — the place after some characters.
* `lex` — the tokens of a text, each with the place where it starts.
-/

namespace Structuring.Dot

set_option linter.unusedVariables false

/-- A place in a text: row and column, both from one. -/
structure Position where
  row : Nat
  column : Nat
  deriving DecidableEq, Inhabited

namespace Position

def start : Position := ⟨1, 1⟩

def next (p : Position) (c : Char) : Position :=
  if c = '\n' then ⟨p.row + 1, 1⟩ else ⟨p.row, p.column + 1⟩

/-- The place after some characters. -/
def past (p : Position) (cs : List Char) : Position := cs.foldl next p

/-- A stretch of a text that starts here. -/
def stretch (p : Position) (file : Option String) (source : String) (length : Nat) : Location :=
  ⟨file, p.row, p.column, length, some source⟩

end Position

/-! ### Character classes -/

def isBlank (c : Char) : Bool :=
  c = ' ' || c = '\t' || c = '\r' || c = '\n' || c = '\x0c' || c = '\x0b'

def isDigit (c : Char) : Bool := '0' ≤ c && c ≤ '9'

/-- The characters that start an identifier: letters, the underscore, and what follows ASCII in the
basic plane. -/
def isIdStart (c : Char) : Bool :=
  ('A' ≤ c && c ≤ 'Z') || ('a' ≤ c && c ≤ 'z') || c = '_' || ('\u0080' ≤ c && c ≤ '\uffff')

def isIdChar (c : Char) : Bool := isIdStart c || isDigit c

/-! ### The parts of a text

Each reader gives the characters that it takes and those that are left. -/

/-- The longest run of characters of a class, and the rest. -/
def run (p : Char → Bool) (cs : List Char) : List Char × List Char :=
  (cs.takeWhile p, cs.dropWhile p)

/-- Up to and with the first `*/`. -/
def untilClose : List Char → Option (List Char × List Char)
  | [] => none
  | '*' :: '/' :: cs => some (['*', '/'], cs)
  | c :: cs => (untilClose cs).map fun (t, r) => (c :: t, r)

/-- What is skipped: blank space, a comment, or a line that starts with `#`. -/
def skipped (lineStart : Bool) (cs : List Char) : Option (List Char × List Char) :=
  match cs with
  | [] => none
  | '/' :: '/' :: rest =>
    let (t, r) := run (· ≠ '\n') rest
    some ('/' :: '/' :: t, r)
  | '/' :: '*' :: rest => (untilClose rest).map fun (t, r) => ('/' :: '*' :: t, r)
  | c :: rest =>
    if isBlank c then
      let (t, r) := run isBlank rest
      some (c :: t, r)
    else if c = '#' ∧ lineStart then
      let (t, r) := run (· ≠ '\n') rest
      some (c :: t, r)
    else none

/-- Digits with a point among them or before them. -/
def unsigned (cs : List Char) : Option (List Char × List Char) :=
  match cs with
  | '.' :: rest =>
    match run isDigit rest with
    | ([], _) => none
    | (d, r) => some ('.' :: d, r)
  | _ =>
    match run isDigit cs with
    | ([], _) => none
    | (d, '.' :: r) =>
      let (f, r') := run isDigit r
      some (d ++ '.' :: f, r')
    | (d, r) => some (d, r)

/-- A numeral: digits, a point, a sign. -/
def numeral (cs : List Char) : Option (List Char × List Char) :=
  match cs with
  | '-' :: rest => (unsigned rest).map fun (t, r) => ('-' :: t, r)
  | _ => unsigned cs

/-- The inside of a quoted string and its closing quote. A backslash keeps the next character from
closing the string. -/
def quotedBody : List Char → Option (List Char × List Char)
  | [] => none
  | '"' :: cs => some ([], cs)
  | '\\' :: c :: cs => (quotedBody cs).map fun (t, r) => ('\\' :: c :: t, r)
  | c :: cs => if c = '\\' then none else (quotedBody cs).map fun (t, r) => (c :: t, r)

/-- The number of open angle brackets after a character, one more than `depth` being open. -/
def nesting (depth : Nat) (c : Char) : Nat :=
  if c = '<' then depth + 2 else if c = '>' then depth else depth + 1

/-- The inside of an html string up to and with the bracket that closes it, `depth` brackets being
open. -/
def htmlBody : Nat → List Char → Option (List Char × List Char)
  | 0, cs => some ([], cs)
  | _ + 1, [] => none
  | depth + 1, c :: cs =>
    (htmlBody (nesting depth c) cs).map fun (t, r) => (c :: t, r)

/-- A backslash before a quote is dropped. -/
def dropQuoteEscapes : List Char → List Char
  | [] => []
  | '\\' :: '"' :: cs => '"' :: dropQuoteEscapes cs
  | c :: cs => c :: dropQuoteEscapes cs

/-- A backslash before the end of a line is dropped with that end. -/
def dropLineJoins : List Char → List Char
  | [] => []
  | '\\' :: '\n' :: cs => dropLineJoins cs
  | c :: cs => c :: dropLineJoins cs

/-- The text that a quoted string stands for, given its inside. -/
def unescape (cs : List Char) : List Char := dropLineJoins (dropQuoteEscapes cs)

/-- A piece of a text: the characters taken, the rest, and the token if it is one. `length` is the
extent with which the token is reported. -/
structure Piece where
  taken : List Char
  rest : List Char
  token : Option (TokenKind × Value)
  length : Nat

/-- A token that is reported with its whole extent. -/
def Piece.whole (kind : TokenKind) (value : Value) (p : List Char × List Char) : Piece :=
  ⟨p.1, p.2, some (kind, value), p.1.length⟩

/-- An identifier, or a keyword. -/
def word (cs : List Char) : Piece :=
  let p := run isIdChar cs
  let kind := match Keyword.ofWord? p.1 with
    | some k => .keyword k
    | none => .id
  .whole kind (.text (String.ofList p.1)) p

/-- A symbol of one or two characters. -/
def symbol? (cs : List Char) : Option (Symbol × List Char × List Char) :=
  match cs with
  | '-' :: '>' :: r => some (.arrow, ['-', '>'], r)
  | '-' :: '-' :: r => some (.line, ['-', '-'], r)
  | c :: r => (Symbol.ofChar? c).map (·, [c], r)
  | [] => none

/-- The piece at the start of a text, or the fault that there is none. -/
def piece (lineStart : Bool) (cs : List Char) : Except Fault Piece :=
  match skipped lineStart cs with
  | some (t, r) => .ok ⟨t, r, none, t.length⟩
  | none =>
  match symbol? cs with
  | some (s, t, r) => .ok (.whole (.symbol s) (.text s.name) (t, r))
  | none =>
  match numeral cs with
  | some (t, r) => .ok (.whole .id (.text (String.ofList t)) (t, r))
  | none =>
  match cs with
  | [] => .ok ⟨[], [], none, 0⟩
  | '"' :: rest =>
    match quotedBody rest with
    | some (t, r) =>
      .ok (.whole .string (.text (String.ofList (unescape t))) ('"' :: t ++ ['"'], r))
    | none => .error (.unexpectedChar '"')
  | '<' :: rest =>
    match htmlBody 1 rest with
    | some (t, r) => .ok ⟨'<' :: t, r, some (.id, .html (String.ofList ('<' :: t))), 1⟩
    | none => .error .unterminatedHtml
  | c :: _ => if isIdStart c then .ok (word cs) else .error (.unexpectedChar c)

/-! ### Nothing is lost -/

theorem run_append (p : Char → Bool) (cs : List Char) : (run p cs).1 ++ (run p cs).2 = cs :=
  List.takeWhile_append_dropWhile

/-- What is behind characters that were put in front was taken before. -/
theorem exists_of_map_front (front : List Char) {o : Option (List Char × List Char)}
    {t r : List Char} (h : (o.map fun (t, r) => (front ++ t, r)) = some (t, r)) :
    ∃ t', t = front ++ t' ∧ o = some (t', r) := by
  obtain ⟨⟨t', r'⟩, ho, heq⟩ := Option.map_eq_some_iff.1 h
  cases heq
  exact ⟨t', rfl, ho⟩

theorem untilClose_append {cs t r : List Char} (h : untilClose cs = some (t, r)) :
    t ++ r = cs := by
  fun_induction untilClose cs generalizing t r with
  | case1 => simp at h
  | case2 cs => simp at h; simp [← h.1, ← h.2]
  | case3 c cs _ ih =>
    obtain ⟨t', rfl, h'⟩ := exists_of_map_front [c] h
    exact congrArg (c :: ·) (ih h')

theorem quotedBody_append {cs t r : List Char} (h : quotedBody cs = some (t, r)) :
    t ++ '"' :: r = cs := by
  fun_induction quotedBody cs generalizing t r with
  | case1 => simp at h
  | case2 cs => simp at h; simp [← h.1, ← h.2]
  | case3 c cs ih =>
    obtain ⟨t', rfl, h'⟩ := exists_of_map_front ['\\', c] h
    exact congrArg ('\\' :: c :: ·) (ih h')
  | case4 => simp at h
  | case5 c cs _ _ _ ih =>
    obtain ⟨t', rfl, h'⟩ := exists_of_map_front [c] h
    exact congrArg (c :: ·) (ih h')

theorem htmlBody_append {depth : Nat} {cs t r : List Char}
    (h : htmlBody depth cs = some (t, r)) : t ++ r = cs := by
  fun_induction htmlBody depth cs generalizing t r with
  | case1 => simp at h; simp [← h.1, ← h.2]
  | case2 => simp at h
  | case3 depth c cs ih =>
    obtain ⟨t', rfl, h'⟩ := exists_of_map_front [c] h
    exact congrArg (c :: ·) (ih h')

theorem skipped_append {b : Bool} {cs t r : List Char} (h : skipped b cs = some (t, r)) :
    t ++ r = cs ∧ t ≠ [] := by
  unfold skipped at h
  split at h
  · simp at h
  · next rest =>
    simp only [Option.some.injEq, Prod.mk.injEq] at h
    simp [← h.1, ← h.2, run]
  · next rest =>
    obtain ⟨t', rfl, h'⟩ := exists_of_map_front ['/', '*'] h
    simp [untilClose_append h']
  · split at h
    · simp only [Option.some.injEq, Prod.mk.injEq] at h
      simp [← h.1, ← h.2, run]
    · split at h
      · simp only [Option.some.injEq, Prod.mk.injEq] at h
        simp [← h.1, ← h.2, run]
      · simp at h

theorem unsigned_append {cs t r : List Char} (h : unsigned cs = some (t, r)) :
    t ++ r = cs ∧ t ≠ [] := by
  unfold unsigned at h
  split at h
  · next rest =>
    have hr := run_append isDigit rest
    split at h
    · simp at h
    · next d r' _ heq =>
      rw [heq] at hr
      simp only [Option.some.injEq, Prod.mk.injEq] at h
      simp only [← h.1, ← h.2]
      exact ⟨by simpa using hr, by simp⟩
  · have hr := run_append isDigit cs
    split at h
    · simp at h
    · next d r' _ heq =>
      rw [heq] at hr
      have hr' := run_append isDigit r'
      simp only [Option.some.injEq, Prod.mk.injEq] at h
      simp only [← h.1, ← h.2]
      refine ⟨?_, by simp⟩
      simp only [List.append_assoc, List.cons_append]
      rw [hr']
      exact hr
    · next d r' hd _ heq =>
      rw [heq] at hr
      simp only [Option.some.injEq, Prod.mk.injEq] at h
      refine ⟨by simpa [← h.1, ← h.2] using hr, fun ht => ?_⟩
      rw [← h.1] at ht
      subst ht
      exact hd rfl

theorem numeral_append {cs t r : List Char} (h : numeral cs = some (t, r)) :
    t ++ r = cs ∧ t ≠ [] := by
  unfold numeral at h
  split at h
  · obtain ⟨t', rfl, h'⟩ := exists_of_map_front ['-'] h
    simp [(unsigned_append h').1]
  · exact unsigned_append h

theorem symbol?_append {cs t r : List Char} {s : Symbol} (h : symbol? cs = some (s, t, r)) :
    t ++ r = cs ∧ t ≠ [] := by
  unfold symbol? at h
  split at h
  · simp at h; simp [← h.2.1, ← h.2.2]
  · simp at h; simp [← h.2.1, ← h.2.2]
  · obtain ⟨s', _, heq⟩ := Option.map_eq_some_iff.1 h
    simp only [Prod.mk.injEq] at heq
    simp [← heq.2.1, ← heq.2.2]
  · simp at h

/-- A piece and what is left of it make up the text, and a piece of a text that is not empty is not
empty. -/
theorem piece_append {b : Bool} {cs : List Char} {p : Piece} (h : piece b cs = .ok p) :
    p.taken ++ p.rest = cs ∧ (cs ≠ [] → p.taken ≠ []) := by
  unfold piece at h
  split at h
  · next t r hs =>
    cases h
    exact ⟨(skipped_append hs).1, fun _ => (skipped_append hs).2⟩
  split at h
  · next s t r hs =>
    cases h
    exact ⟨(symbol?_append hs).1, fun _ => (symbol?_append hs).2⟩
  split at h
  · next t r hs =>
    cases h
    exact ⟨(numeral_append hs).1, fun _ => (numeral_append hs).2⟩
  split at h
  · cases h; simp
  · split at h
    · next t r hs =>
      cases h
      have := quotedBody_append hs
      simp [Piece.whole, this]
    · cases h
  · split at h
    · next t r hs =>
      cases h
      have := htmlBody_append hs
      simp [this]
    · cases h
  · split at h
    · next hc =>
      cases h
      exact ⟨run_append isIdChar _, fun _ => by simp [word, Piece.whole, run, isIdChar, hc]⟩
    · cases h

theorem length_rest_lt {b : Bool} {c : Char} {cs : List Char} {p : Piece}
    (h : piece b (c :: cs) = .ok p) : p.rest.length < (c :: cs).length := by
  obtain ⟨happ, hne⟩ := piece_append h
  have hpos := List.length_pos_iff.2 (hne (by simp))
  rw [← happ, List.length_append]
  omega

/-! ### The tokens -/

/-- The tokens of what is left of a text, the next character being at `p`. -/
def lexFrom (file : Option String) (source : String) (p : Position) (cs : List Char) : Stream :=
  match cs with
  | [] => .done (p.stretch file source 0)
  | c :: cs =>
    match h : piece (p.column = 1) (c :: cs) with
    | .error f => .broken ⟨f, p.stretch file source 1⟩
    | .ok q =>
      let rest := lexFrom file source (p.past q.taken) q.rest
      match q.token with
      | none => rest
      | some (kind, value) => .token ⟨kind, value, p.stretch file source q.length⟩ rest
termination_by cs.length
decreasing_by exact length_rest_lt h

/-- The tokens of a text. `file` is the name under which places in it are reported. -/
def lex (file : Option String) (text : String) : Stream :=
  lexFrom file text .start text.toList

end Structuring.Dot
