import Structuring.Dot.Reader

/-!
# The grammar of graph descriptions

Which token sequences are descriptions of directed graphs, production by production, and what they
say. The relations say nothing about how a text is read: no look-ahead, no order of tests.

* `Statement`, `Body` — what a statement says, and a statement list with its subgraphs.
* `IsIdentifier`, `IsPorts`, `IsAttributeLists`, `IsStatement`, `IsBody` — the productions.
* `IsDescription` — the tokens of a whole description.
* `Body.clauses` — the clauses of a statement list, in the order of the text.
-/

namespace Structuring.Dot

/-- What a statement that is no subgraph says. Each label stands with the place where it starts. -/
inductive Statement where
  | graphAttributes (a : Attributes)
  | nodeDefaults (a : Attributes)
  | edgeDefaults (a : Attributes)
  | assignment (key value : Value)
  | node (label : Value) (location : Location) (a : Attributes)
  | edges (ends : List (Value × Location)) (a : Attributes)

/-- A statement list. A subgraph is a statement list inside another one. -/
inductive Body where
  | done
  | simple (s : Statement) (rest : Body)
  | subgraph (inner rest : Body)

/-! ## Productions

In front of each relation stands its production. `x*` is any number of `x`, `[x]` at most one. -/

/-- `('+' STRING)*`, and the text that the strings make up. -/
inductive IsJoined : String → List Token → Prop where
  | nil : IsJoined "" []
  | cons {p t : Token} {text : String} {ts : List Token} (hp : p.kind = .symbol .plus)
      (ht : t.kind = .string) (h : IsJoined text ts) :
      IsJoined (t.value.shown ++ text) (p :: t :: ts)

/-- `id ::= ID | STRING ('+' STRING)*` -/
inductive IsIdentifier : Value → List Token → Prop where
  | name {t : Token} (ht : t.kind = .id) : IsIdentifier t.value [t]
  | strings {t : Token} {text : String} {ts : List Token} (ht : t.kind = .string)
      (h : IsJoined text ts) : IsIdentifier (.text (t.value.shown ++ text)) (t :: ts)

/-- `[id]` -/
inductive IsOptionalIdentifier : Option Value → List Token → Prop where
  | none : IsOptionalIdentifier none []
  | some {v : Value} {ts : List Token} (h : IsIdentifier v ts) : IsOptionalIdentifier (some v) ts

/-- `[k | …]`, a token of one of the kinds `ks`. -/
inductive IsOptional (ks : List TokenKind) : List Token → Prop where
  | none : IsOptional ks []
  | some {t : Token} (ht : t.kind ∈ ks) : IsOptional ks [t]

/-- `ports ::= (':' id)*` -/
inductive IsPorts : List Token → Prop where
  | nil : IsPorts []
  | cons {c : Token} {v : Value} {ts us : List Token} (hc : c.kind = .symbol .colon)
      (hv : IsIdentifier v ts) (h : IsPorts us) : IsPorts (c :: (ts ++ us))

/-- `id ['=' id]`; a key without a value says `true`. -/
inductive IsAttribute : Value × Value → List Token → Prop where
  | flag {k : Value} {ts : List Token} (hk : IsIdentifier k ts) : IsAttribute (k, .text "true") ts
  | valued {k v : Value} {e : Token} {ts us : List Token} (hk : IsIdentifier k ts)
      (he : e.kind = .symbol .equals) (hv : IsIdentifier v us) :
      IsAttribute (k, v) (ts ++ e :: us)

/-- `(id ['=' id] [';' | ','])*` -/
inductive IsAttributes : List (Value × Value) → List Token → Prop where
  | nil : IsAttributes [] []
  | cons {e : Value × Value} {es : List (Value × Value)} {ts us vs : List Token}
      (he : IsAttribute e ts) (hu : IsOptional [.symbol .semicolon, .symbol .comma] us)
      (h : IsAttributes es vs) : IsAttributes (e :: es) (ts ++ (us ++ vs))

/-- `attrs ::= ('[' (id ['=' id] [';' | ','])* ']')*` -/
inductive IsAttributeLists : List (Value × Value) → List Token → Prop where
  | nil : IsAttributeLists [] []
  | cons {o c : Token} {es fs : List (Value × Value)} {ts us : List Token}
      (ho : o.kind = .symbol .openBracket) (he : IsAttributes es ts)
      (hc : c.kind = .symbol .closeBracket) (h : IsAttributeLists fs us) :
      IsAttributeLists (es ++ fs) (o :: (ts ++ c :: us))

/-- `id ports`, with the place where it starts. -/
inductive IsEnd : Value × Location → List Token → Prop where
  | mk {v : Value} {t : Token} {ts us : List Token} (hv : IsIdentifier v (t :: ts))
      (hp : IsPorts us) : IsEnd (v, t.location) (t :: (ts ++ us))

/-- `('->' id ports)*` -/
inductive IsEnds : List (Value × Location) → List Token → Prop where
  | nil : IsEnds [] []
  | cons {a : Token} {e : Value × Location} {es : List (Value × Location)} {ts us : List Token}
      (ha : a.kind = .symbol .arrow) (he : IsEnd e ts) (h : IsEnds es us) :
      IsEnds (e :: es) (a :: (ts ++ us))

/-- `stmt ::= ('graph' | 'node' | 'edge') attrs | id '=' id | id ports attrs
| id ports ('->' id ports)+ attrs`. Subgraphs are left to `IsBody`. -/
inductive IsStatement : Statement → List Token → Prop where
  | graphAttributes {k : Token} {es : List (Value × Value)} {ts : List Token}
      (hk : k.kind = .keyword .graph) (h : IsAttributeLists es ts) :
      IsStatement (.graphAttributes (.ofList es)) (k :: ts)
  | nodeDefaults {k : Token} {es : List (Value × Value)} {ts : List Token}
      (hk : k.kind = .keyword .node) (h : IsAttributeLists es ts) :
      IsStatement (.nodeDefaults (.ofList es)) (k :: ts)
  | edgeDefaults {k : Token} {es : List (Value × Value)} {ts : List Token}
      (hk : k.kind = .keyword .edge) (h : IsAttributeLists es ts) :
      IsStatement (.edgeDefaults (.ofList es)) (k :: ts)
  | assignment {k v : Value} {e : Token} {ts us : List Token} (hk : IsIdentifier k ts)
      (he : e.kind = .symbol .equals) (hv : IsIdentifier v us) :
      IsStatement (.assignment k v) (ts ++ e :: us)
  | node {v : Value} {l : Location} {es : List (Value × Value)} {ts us : List Token}
      (hv : IsEnd (v, l) ts) (h : IsAttributeLists es us) :
      IsStatement (.node v l (.ofList es)) (ts ++ us)
  | edges {e e' : Value × Location} {ends : List (Value × Location)} {es : List (Value × Value)}
      {ts us vs : List Token} (he : IsEnd e ts) (hes : IsEnds (e' :: ends) us)
      (h : IsAttributeLists es vs) :
      IsStatement (.edges (e :: e' :: ends) (.ofList es)) (ts ++ (us ++ vs))

/-- `['subgraph' [id]] '{'` -/
inductive IsSubgraphHead : List Token → Prop where
  | plain {o : Token} (ho : o.kind = .symbol .openBrace) : IsSubgraphHead [o]
  | named {k o : Token} {v : Option Value} {ts : List Token} (hk : k.kind = .keyword .subgraph)
      (hv : IsOptionalIdentifier v ts) (ho : o.kind = .symbol .openBrace) :
      IsSubgraphHead (k :: (ts ++ [o]))

/-- `stmts ::= (stmt [';'])*`, where `stmt` may also be `['subgraph' [id]] '{' stmts '}'`. -/
inductive IsBody : Body → List Token → Prop where
  | done : IsBody .done []
  | simple {s : Statement} {b : Body} {ts us vs : List Token} (hs : IsStatement s ts)
      (hu : IsOptional [.symbol .semicolon] us) (hb : IsBody b vs) :
      IsBody (.simple s b) (ts ++ (us ++ vs))
  | subgraph {inner b : Body} {c : Token} {hs ts us vs : List Token} (hh : IsSubgraphHead hs)
      (hi : IsBody inner ts) (hc : c.kind = .symbol .closeBrace)
      (hu : IsOptional [.symbol .semicolon] us) (hb : IsBody b vs) :
      IsBody (.subgraph inner b) (hs ++ (ts ++ c :: (us ++ vs)))

/-- `graph ::= ['strict'] 'digraph' [id] '{' stmts '}' EOF` -/
inductive IsDescription : Option Value → Body → List Token → Prop where
  | mk {name : Option Value} {b : Body} {d o c e : Token} {ts us vs : List Token}
      (ht : IsOptional [.keyword .strict] ts) (hd : d.kind = .keyword .digraph)
      (hn : IsOptionalIdentifier name us) (ho : o.kind = .symbol .openBrace) (hb : IsBody b vs)
      (hc : c.kind = .symbol .closeBrace) (he : e.kind = .eof) :
      IsDescription name b (ts ++ d :: (us ++ o :: (vs ++ [c, e])))

/-! ## Clauses -/

def Statement.clauses : Statement → List Clause
  | .graphAttributes a => [.graphAttributes a]
  | .nodeDefaults a => [.nodeDefaults a]
  | .edgeDefaults a => [.edgeDefaults a]
  | .assignment k v => [.graphAttributes (.ofList [(k, v)])]
  | .node v l a => [.appears v l, .describes v l a]
  | .edges ends a => [.edges ends a]

def Body.clauses : Body → List Clause
  | .done => []
  | .simple s rest => s.clauses ++ rest.clauses
  | .subgraph inner rest => .opens :: (inner.clauses ++ .closes :: rest.clauses)

/-! ## First tokens -/

theorem IsIdentifier.exists_cons {v : Value} {ts : List Token} (h : IsIdentifier v ts) :
    ∃ t us, ts = t :: us ∧ (t.kind = .id ∨ t.kind = .string) := by
  cases h with
  | name ht => exact ⟨_, _, rfl, .inl ht⟩
  | strings ht _ => exact ⟨_, _, rfl, .inr ht⟩

theorem IsEnd.exists_cons {e : Value × Location} {ts : List Token} (h : IsEnd e ts) :
    ∃ t us, ts = t :: us ∧ (t.kind = .id ∨ t.kind = .string) := by
  cases h with
  | mk hv _ =>
    obtain ⟨t, us, heq, ht⟩ := hv.exists_cons
    cases heq
    exact ⟨_, _, rfl, ht⟩

theorem IsAttribute.exists_cons {e : Value × Value} {ts : List Token} (h : IsAttribute e ts) :
    ∃ t us, ts = t :: us ∧ (t.kind = .id ∨ t.kind = .string) := by
  cases h with
  | flag hk => exact hk.exists_cons
  | valued hk _ _ =>
    obtain ⟨t, us, rfl, ht⟩ := hk.exists_cons
    exact ⟨t, _, rfl, ht⟩

end Structuring.Dot
