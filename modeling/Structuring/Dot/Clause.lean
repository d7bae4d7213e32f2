import Structuring.Attributes
import Structuring.Dot.Lexer

/-!
# The clauses of a graph description

The grammar of directed graphs in the DOT language. What a description says is given clause by
clause, in the order of the text, up to the end or to the first error.

* `Clause` — one thing that a description says.
* `identifier`, `ports`, `attributeLists`, `edgeEnds` — the parts of a statement.
* `clauses` — the clauses of a statement list.
* `read` — the clauses of a description.
-/

namespace Structuring.Dot

set_option linter.unusedVariables false

/-- One thing that a graph description says. `appears` is the first half of a node statement and
`describes` its second half: the attribute lists follow the label. -/
inductive Clause where
  | graphAttributes (a : Attributes)
  | nodeDefaults (a : Attributes)
  | edgeDefaults (a : Attributes)
  | opens
  | closes
  | appears (label : Value) (location : Location)
  | describes (label : Value) (location : Location) (a : Attributes)
  | edges (ends : List (Value × Location)) (a : Attributes)
  deriving DecidableEq

namespace Stream

/-- The stream without its next token, if that is the given symbol. -/
def skip (s : Stream) (y : Symbol) : Stream :=
  match s with
  | .token t rest => if t.kind = .symbol y then rest else s
  | _ => s

theorem size_skip_le (s : Stream) (y : Symbol) : (s.skip y).size ≤ s.size := by
  unfold skip
  split
  · split
    · simp [size]
    · exact Nat.le_refl _
  · exact Nat.le_refl _

/-- What follows the given symbol, if that is the next token. -/
def after? (s : Stream) (y : Symbol) : Option Stream :=
  match s with
  | .token t rest => if t.kind = .symbol y then some rest else none
  | _ => none

theorem size_after? {s r : Stream} {y : Symbol} (h : s.after? y = some r) : r.size < s.size := by
  unfold after? at h
  split at h
  · split at h
    · cases h; simp [size]
    · cases h
  · cases h

end Stream

/-! ### The parts of a statement -/

/-- The quoted strings that are joined to a text with `+`. -/
def joined (text : String) (s : Stream) : Except Error (String × Stream) :=
  match s with
  | .broken e => .error e
  | .token ⟨.symbol .plus, _, _⟩ rest =>
    match rest with
    | .token ⟨.string, v, _⟩ rest' => joined (text ++ v.shown) rest'
    | _ => rest.fail (.expected [.string])
  | _ => .ok (text, s)

theorem size_joined {text text' : String} {s r : Stream} (h : joined text s = .ok (text', r)) :
    r.size ≤ s.size := by
  fun_induction joined text s with
  | case1 => simp at h
  | case2 text _ _ v _ rest' ih =>
    have := ih h
    simp only [Stream.size]
    omega
  | case3 => exact absurd h Stream.fail_ne_ok
  | case4 => cases h; exact Nat.le_refl _

/-- An identifier: a name, a numeral, an html string, or quoted strings joined with `+`. -/
def identifier (s : Stream) : Except Error (Value × Stream) :=
  match s with
  | .token ⟨.id, v, _⟩ rest => .ok (v, rest)
  | .token ⟨.string, v, _⟩ rest => (joined v.shown rest).map fun (text, r) => (.text text, r)
  | _ => s.fail (.expected [.id, .string])

theorem size_identifier {s r : Stream} {v : Value} (h : identifier s = .ok (v, r)) :
    r.size < s.size := by
  unfold identifier at h
  split at h
  · cases h; simp [Stream.size]
  · next v' _ rest =>
    cases hj : joined v'.shown rest with
    | error e => rw [hj] at h; cases h
    | ok p =>
      rw [hj] at h
      cases h
      have := size_joined hj
      simp only [Stream.size]
      omega
  · exact absurd h Stream.fail_ne_ok

/-- The ports after a node's identifier; they are read and say nothing. -/
def ports (s : Stream) : Except Error Stream :=
  match h : s.after? .colon with
  | none => s.peek.map fun _ => s
  | some s' =>
    match h' : identifier s' with
    | .error e => .error e
    | .ok (_, r) => ports r
termination_by s.size
decreasing_by
  have := Stream.size_after? h
  have := size_identifier h'
  omega

theorem size_ports {s r : Stream} (h : ports s = .ok r) : r.size ≤ s.size := by
  fun_induction ports s with
  | case1 s _ =>
    cases Stream.peek_map_eq_ok h
    exact Nat.le_refl _
  | case2 => cases h
  | case3 s s' ha v r' hi ih =>
    have := Stream.size_after? ha
    have := size_identifier hi
    have := ih h
    omega

/-- The value of an attribute: what follows the sign of equality, or `true`. -/
def assigned (s : Stream) : Except Error (Value × Stream) :=
  match s.after? .equals with
  | some r => identifier r
  | none => .ok (.text "true", s)

theorem size_assigned {s r : Stream} {v : Value} (h : assigned s = .ok (v, r)) :
    r.size ≤ s.size := by
  unfold assigned at h
  split at h
  · next r' ha =>
    have := Stream.size_after? ha
    have := size_identifier h
    omega
  · cases h; exact Nat.le_refl _

/-- What may stand between two attributes: a semicolon, else a comma. -/
def separator (s : Stream) : Stream :=
  match s.after? .semicolon with
  | some r => r
  | none => s.skip .comma

theorem size_separator_le (s : Stream) : (separator s).size ≤ s.size := by
  unfold separator
  split
  · next h => exact Nat.le_of_lt (Stream.size_after? h)
  · exact Stream.size_skip_le s .comma

/-- The attributes up to a closing bracket, laid over `a`. -/
def attributeList (a : Attributes) (s : Stream) : Except Error (Attributes × Stream) :=
  match s.after? .closeBracket with
  | some r => .ok (a, r)
  | none =>
    match hk : identifier s with
    | .error e => .error e
    | .ok (k, r) =>
      match hv : assigned r with
      | .error e => .error e
      | .ok (v, r') => attributeList (a.set k v) (separator r')
termination_by s.size
decreasing_by
  have := size_identifier hk
  have := size_assigned hv
  have := size_separator_le r'
  omega

theorem size_attributeList {a b : Attributes} {s r : Stream}
    (h : attributeList a s = .ok (b, r)) : r.size < s.size := by
  fun_induction attributeList a s with
  | case1 a s r' ha => cases h; exact Stream.size_after? ha
  | case2 => cases h
  | case3 => cases h
  | case4 a s _ k r₁ hk v r₂ hv ih =>
    have := size_identifier hk
    have := size_assigned hv
    have := size_separator_le r₂
    have := ih h
    omega

/-- Any number of bracketed attribute lists, laid over `a`. -/
def attributeLists (a : Attributes) (s : Stream) : Except Error (Attributes × Stream) :=
  match ha : s.after? .openBracket with
  | none => s.peek.map fun _ => (a, s)
  | some s' =>
    match hl : attributeList a s' with
    | .error e => .error e
    | .ok (b, r) => attributeLists b r
termination_by s.size
decreasing_by
  have := Stream.size_after? ha
  have := size_attributeList hl
  omega

theorem size_attributeLists {a b : Attributes} {s r : Stream}
    (h : attributeLists a s = .ok (b, r)) : r.size ≤ s.size := by
  fun_induction attributeLists a s with
  | case1 a s _ =>
    cases Stream.peek_map_eq_ok h
    exact Nat.le_refl _
  | case2 => cases h
  | case3 a s s' ha b' r' hl ih =>
    have := Stream.size_after? ha
    have := size_attributeList hl
    have := ih h
    omega

/-- Whether an edge starts or goes on here. -/
def isEdgeSign : TokenKind → Bool
  | .symbol .arrow => true
  | .symbol .line => true
  | _ => false

/-- Whether a subgraph starts here. -/
def isSubgraphStart : TokenKind → Bool
  | .symbol .openBrace => true
  | .keyword .subgraph => true
  | _ => false

/-- The next end of an edge, with its place and its ports, after the arrow before it. -/
def edgeEnd (s : Stream) : Except Error ((Value × Location) × Stream) :=
  match s with
  | .token t _ =>
    if isSubgraphStart t.kind then .error ⟨.edgeToSubgraph, t.location⟩
    else match identifier s with
      | .error e => .error e
      | .ok (v, r) => (ports r).map fun r' => ((v, t.location), r')
  | _ => s.fail (.expected [.id, .string])

theorem size_edgeEnd {s r : Stream} {e : Value × Location} (h : edgeEnd s = .ok (e, r)) :
    r.size < s.size := by
  unfold edgeEnd at h
  split at h
  · next t rest =>
    split at h
    · cases h
    · split at h
      · cases h
      · next v r' hi =>
        cases hp : ports r' with
        | error e => rw [hp] at h; cases h
        | ok r'' =>
          rw [hp] at h
          cases h
          have := size_identifier hi
          have := size_ports hp
          omega
  · exact absurd h Stream.fail_ne_ok

/-- The ends of an edge after the first: as long as an arrow follows. -/
def edgeEnds (s : Stream) : Except Error (List (Value × Location) × Stream) :=
  match s with
  | .token t rest =>
    if t.kind = .symbol .line then .error ⟨.undirectedEdge, t.location⟩
    else if t.kind = .symbol .arrow then
      match h : edgeEnd rest with
      | .error e => .error e
      | .ok (v, r) => (edgeEnds r).map fun (vs, r') => (v :: vs, r')
    else .ok ([], s)
  | .broken e => .error e
  | .done _ => .ok ([], s)
termination_by s.size
decreasing_by
  have := size_edgeEnd h
  simp only [Stream.size]
  omega

theorem size_edgeEnds {s r : Stream} {es : List (Value × Location)}
    (h : edgeEnds s = .ok (es, r)) : r.size ≤ s.size := by
  fun_induction edgeEnds s generalizing es r with
  | case1 => cases h
  | case2 => cases h
  | case3 t rest _ _ v r' he ih =>
    cases hr : edgeEnds r' with
    | error e => rw [hr] at h; cases h
    | ok p =>
      rw [hr] at h
      cases h
      have := size_edgeEnd he
      have := ih hr
      simp only [Stream.size]
      omega
  | case4 => cases h; exact Nat.le_refl _
  | case5 => cases h
  | case6 => cases h; exact Nat.le_refl _

/-- An identifier if one follows. -/
def optionalIdentifier (s : Stream) : Except Error (Option Value × Stream) :=
  match s with
  | .broken e => .error e
  | .done l => .ok (none, .done l)
  | .token t rest =>
    if t.kind = .id ∨ t.kind = .string then
      (identifier (.token t rest)).map fun (v, r) => (some v, r)
    else .ok (none, .token t rest)

theorem size_optionalIdentifier {s r : Stream} {v : Option Value}
    (h : optionalIdentifier s = .ok (v, r)) : r.size ≤ s.size := by
  unfold optionalIdentifier at h
  split at h
  · cases h
  · cases h; exact Nat.le_refl _
  · next t rest =>
    split at h
    · cases hi : identifier (.token t rest) with
      | error e => rw [hi] at h; cases h
      | ok p =>
        rw [hi] at h
        cases h
        exact Nat.le_of_lt (size_identifier (v := p.1) (r := p.2) hi)
    · cases h; exact Nat.le_refl _

/-- What follows an opening brace. -/
def openBrace (s : Stream) : Except Error Stream :=
  match s.after? .openBrace with
  | some r => .ok r
  | none => s.fail (.expected [.symbol .openBrace])

theorem size_openBrace {s r : Stream} (h : openBrace s = .ok r) : r.size < s.size := by
  unfold openBrace at h
  split at h
  · next ha => cases h; exact Stream.size_after? ha
  · exact absurd h Stream.fail_ne_ok

/-- What follows the opening brace of a subgraph, which may have a name before it. -/
def subgraphBrace (s : Stream) : Except Error Stream :=
  match optionalIdentifier s with
  | .error e => .error e
  | .ok (_, r) => openBrace r

theorem size_subgraphBrace {s r : Stream} (h : subgraphBrace s = .ok r) : r.size < s.size := by
  unfold subgraphBrace at h
  split at h
  · cases h
  · next ho =>
    have := size_optionalIdentifier ho
    have := size_openBrace h
    omega

/-- What follows a subgraph; no edge may start there. -/
def afterSubgraph (s : Stream) : Except Error Stream :=
  match s with
  | .broken e => .error e
  | .done l => .ok (.done l)
  | .token t rest =>
    if isEdgeSign t.kind then .error ⟨.edgeFromSubgraph, t.location⟩
    else .ok (.token t rest)

theorem size_afterSubgraph {s r : Stream} (h : afterSubgraph s = .ok r) : r.size = s.size := by
  unfold afterSubgraph at h
  split at h
  · cases h
  · cases h; rfl
  · split at h
    · cases h
    · cases h; rfl

/-! ### Statement lists -/

/-- The clauses of a text up to where reading stopped, and how it stopped. -/
structure Reading (α : Type) where
  clauses : List Clause
  outcome : Except Error α

namespace Reading

def stop {α : Type} (e : Error) : Reading α := ⟨[], .error e⟩

def cons {α : Type} (c : Clause) (r : Reading α) : Reading α := ⟨c :: r.clauses, r.outcome⟩

end Reading

/-- The clauses up to the closing brace of the graph, `depth` subgraphs being open. A semicolon may
follow each statement. -/
def clauses (depth : Nat) (s : Stream) : Reading Stream :=
  match s with
  | .broken e => .stop e
  | .done l => .stop ⟨.expectedStatement "EOF", l⟩
  | .token t rest =>
    match t.kind, depth with
    | .symbol .closeBrace, 0 => ⟨[], .ok rest⟩
    | .symbol .closeBrace, depth + 1 =>
      .cons .closes <|
        match h : afterSubgraph rest with
        | .error e => .stop e
        | .ok r => clauses depth (r.skip .semicolon)
    | .symbol .openBrace, _ => .cons .opens (clauses (depth + 1) rest)
    | .keyword .subgraph, _ =>
      match h : subgraphBrace rest with
      | .error e => .stop e
      | .ok r => .cons .opens (clauses (depth + 1) r)
    | .keyword .graph, _ =>
      match h : attributeLists ∅ rest with
      | .error e => .stop e
      | .ok (a, r) => .cons (.graphAttributes a) (clauses depth (r.skip .semicolon))
    | .keyword .node, _ =>
      match h : attributeLists ∅ rest with
      | .error e => .stop e
      | .ok (a, r) => .cons (.nodeDefaults a) (clauses depth (r.skip .semicolon))
    | .keyword .edge, _ =>
      match h : attributeLists ∅ rest with
      | .error e => .stop e
      | .ok (a, r) => .cons (.edgeDefaults a) (clauses depth (r.skip .semicolon))
    | kind, _ =>
      if kind = .id ∨ kind = .string then
        match h : identifier (.token t rest) with
        | .error e => .stop e
        | .ok (v, r) =>
          match ha : r.after? .equals with
          | some r' =>
            match hv : identifier r' with
            | .error e => .stop e
            | .ok (w, r'') =>
              .cons (.graphAttributes (.ofList [(v, w)])) (clauses depth (r''.skip .semicolon))
          | none =>
            match hp : ports r with
            | .error e => .stop e
            | .ok r' =>
              match he : edgeEnds r' with
              | .error e => .stop e
              | .ok ([], _) =>
                .cons (.appears v t.location) <|
                  match hl : attributeLists ∅ r' with
                  | .error e => .stop e
                  | .ok (a, r'') =>
                    .cons (.describes v t.location a) (clauses depth (r''.skip .semicolon))
              | .ok (v' :: vs, r'') =>
                match hl : attributeLists ∅ r'' with
                | .error e => .stop e
                | .ok (a, r₃) =>
                  .cons (.edges ((v, t.location) :: v' :: vs) a)
                    (clauses depth (r₃.skip .semicolon))
      else .stop ⟨.expectedStatement t.value.shown, t.location⟩
termination_by s.size
decreasing_by
  all_goals simp only [Stream.size]
  · have := size_afterSubgraph h
    have := Stream.size_skip_le r .semicolon
    omega
  · omega
  · have := size_subgraphBrace h
    omega
  · have := size_attributeLists h
    have := Stream.size_skip_le r .semicolon
    omega
  · have := size_attributeLists h
    have := Stream.size_skip_le r .semicolon
    omega
  · have := size_attributeLists h
    have := Stream.size_skip_le r .semicolon
    omega
  · have := size_identifier h
    have := Stream.size_after? ha
    have := size_identifier hv
    have := Stream.size_skip_le r'' .semicolon
    simp only [Stream.size] at *
    omega
  · have := size_identifier h
    have := size_ports hp
    have := size_attributeLists hl
    have := Stream.size_skip_le r'' .semicolon
    simp only [Stream.size] at *
    omega
  · have := size_identifier h
    have := size_ports hp
    have := size_edgeEnds he
    have := size_attributeLists hl
    have := Stream.size_skip_le r₃ .semicolon
    simp only [Stream.size] at *
    omega

/-! ### Whole descriptions -/

/-- The stream without its next token, if that is the given keyword. -/
def skipKeyword (s : Stream) (k : Keyword) : Stream :=
  match s with
  | .token t rest => if t.kind = .keyword k then rest else s
  | _ => s

/-- The name of the graph, and what follows the brace that opens it. -/
def heading (s : Stream) : Except Error (Option Value × Stream) :=
  match skipKeyword s .strict with
  | .token ⟨.keyword .graph, _, l⟩ _ => .error ⟨.undirectedGraph, l⟩
  | .token ⟨.keyword .digraph, _, _⟩ rest => do
    let (name, r) ← optionalIdentifier rest
    let r' ← openBrace r
    return (name, r')
  | s' => s'.fail (.expected [.keyword .digraph])

/-- The place of the end of the text, where nothing may follow any more. -/
def ending (s : Stream) : Except Error Location :=
  match s with
  | .done l => .ok l
  | _ => s.fail (.expected [.eof])

/-- The name of a graph and the clauses of its description; the outcome of a description without
error is the place of its end. -/
def read (s : Stream) : Option Value × Reading Location :=
  match heading s with
  | .error e => (none, .stop e)
  | .ok (name, rest) =>
    let body := clauses 0 rest
    (name, ⟨body.clauses, body.outcome.bind ending⟩)

end Structuring.Dot
