import Structuring.Proofs.Attributes
import Structuring.Proofs.Dot.Grammar

/-!
# What a description says about its graph

* `Content` — the nodes, edges and attributes that a stretch of a description speaks of.
* `Body.content` — the content of a statement list. Scopes are the braces of the text: a subgraph
  starts from the defaults around it, and what follows it does not see the defaults set in it.
* `Content.Depicts` — a graph has the nodes, edges and attributes of a content.
* `Account` — the content clause by clause, with a stack of scopes; `addAll_clauses` says that the
  stack comes to the same as the braces.
* `reached`, `deepest` — the clauses up to a subgraph for which there is no room, and how deep
  subgraphs are nested.
-/

namespace Structuring.Dot

/-- What a stretch of a description says. `mentions` holds the labels of node statements and of the
ends of edges with the node defaults in force there, `lists` the attributes of node statements. -/
structure Content where
  mentions : List (Value × Attributes)
  lists : List (Value × Attributes)
  edges : List (Value × Value × Attributes)
  attributes : List Attributes

namespace Content

def empty : Content := ⟨[], [], [], []⟩

instance : EmptyCollection Content := ⟨empty⟩

instance : Append Content :=
  ⟨fun c d => ⟨c.mentions ++ d.mentions, c.lists ++ d.lists, c.edges ++ d.edges,
    c.attributes ++ d.attributes⟩⟩

variable (c d e : Content)

@[simp] theorem mentions_append : (c ++ d).mentions = c.mentions ++ d.mentions := rfl

@[simp] theorem lists_append : (c ++ d).lists = c.lists ++ d.lists := rfl

@[simp] theorem edges_append : (c ++ d).edges = c.edges ++ d.edges := rfl

@[simp] theorem attributes_append : (c ++ d).attributes = c.attributes ++ d.attributes := rfl

@[ext] theorem ext {c d : Content} (hm : c.mentions = d.mentions) (hl : c.lists = d.lists)
    (he : c.edges = d.edges) (ha : c.attributes = d.attributes) : c = d := by
  cases c
  cases d
  cases hm
  cases hl
  cases he
  cases ha
  rfl

theorem append_assoc : (c ++ d) ++ e = c ++ (d ++ e) := by ext1 <;> simp

theorem append_empty : c ++ ∅ = c := by ext1 <;> exact List.append_nil _

def sum (said : List Content) : Content := said.foldr (· ++ ·) ∅

theorem mentions_sum (cs : List Content) : (sum cs).mentions = cs.flatMap (·.mentions) := by
  induction cs with
  | nil => rfl
  | cons c cs ih => rw [List.flatMap_cons, ← ih]; rfl

theorem lists_sum (cs : List Content) : (sum cs).lists = cs.flatMap (·.lists) := by
  induction cs with
  | nil => rfl
  | cons c cs ih => rw [List.flatMap_cons, ← ih]; rfl

theorem edges_sum (cs : List Content) : (sum cs).edges = cs.flatMap (·.edges) := by
  induction cs with
  | nil => rfl
  | cons c cs ih => rw [List.flatMap_cons, ← ih]; rfl

theorem attributes_sum (cs : List Content) :
    (sum cs).attributes = cs.flatMap (·.attributes) := by
  induction cs with
  | nil => rfl
  | cons c cs ih => rw [List.flatMap_cons, ← ih]; rfl

end Content

/-! ## Statements and statement lists -/

def Scope.after (σ : Scope) : Statement → Scope
  | .nodeDefaults a => { σ with node := σ.node.update a }
  | .edgeDefaults a => { σ with edge := σ.edge.update a }
  | _ => σ

/-- The edges along the labels of an edge statement, from each to the next. -/
def pathEdges (vs : List Value) (a : Attributes) : List (Value × Value × Attributes) :=
  (vs.zip vs.tail).map fun p => (p.1, p.2, a)

def Statement.content (σ : Scope) : Statement → Content
  | .graphAttributes a => ⟨[], [], [], [a]⟩
  | .assignment k v => ⟨[], [], [], [.ofList [(k, v)]]⟩
  | .nodeDefaults _ => ∅
  | .edgeDefaults _ => ∅
  | .node v _ a => ⟨[(v, σ.node)], [(v, a)], [], []⟩
  | .edges ends a =>
    ⟨ends.map fun e => (e.1, σ.node), [], pathEdges (ends.map (·.1)) (σ.edge.update a), []⟩

def Body.content (σ : Scope) : Body → Content
  | .done => ∅
  | .simple s rest => s.content σ ++ rest.content (σ.after s)
  | .subgraph inner rest => inner.content σ ++ rest.content σ

def Body.scope (σ : Scope) : Body → Scope
  | .done => σ
  | .simple s rest => rest.scope (σ.after s)
  | .subgraph _ rest => rest.scope σ

/-! ## First mentions -/

/-- The first of the entries for each label, in order. -/
def firsts : List (Value × Attributes) → List (Value × Attributes)
  | [] => []
  | m :: ms => m :: (firsts ms).filter fun m' => !m'.1.same m.1

theorem mem_keys_firsts {ms : List (Value × Attributes)} {k : Key} :
    k ∈ (firsts ms).map (·.1.key) ↔ k ∈ ms.map (·.1.key) := by
  induction ms with
  | nil => rfl
  | cons m ms ih =>
    simp only [firsts, List.map_cons, List.mem_cons, List.mem_map, List.mem_filter,
      Bool.not_eq_eq_eq_not, Bool.not_true, ← Bool.not_eq_true, Value.same_iff] at ih ⊢
    constructor
    · rintro (h | ⟨m', ⟨hm', -⟩, rfl⟩)
      · exact .inl h
      · exact .inr (ih.1 ⟨m', hm', rfl⟩)
    · rintro (h | h)
      · exact .inl h
      · obtain ⟨m', hm', rfl⟩ := ih.2 h
        by_cases heq : m'.1.key = m.1.key
        · exact .inl heq
        · exact .inr ⟨m', ⟨hm', heq⟩, rfl⟩

theorem firsts_append_new {ms : List (Value × Attributes)} {m : Value × Attributes}
    (h : m.1.key ∉ ms.map (·.1.key)) : firsts (ms ++ [m]) = firsts ms ++ [m] := by
  induction ms with
  | nil => rfl
  | cons m' ms ih =>
    rw [List.map_cons, List.mem_cons, not_or] at h
    rw [List.cons_append, firsts, ih h.2, List.filter_append, firsts]
    simp [Value.same, h.1]

theorem firsts_append_old {ms : List (Value × Attributes)} {m : Value × Attributes}
    (h : m.1.key ∈ ms.map (·.1.key)) : firsts (ms ++ [m]) = firsts ms := by
  induction ms with
  | nil => cases h
  | cons m' ms ih =>
    rw [List.cons_append, firsts, firsts]
    by_cases hold : m.1.key ∈ ms.map (·.1.key)
    · rw [ih hold]
    · have heq : m.1.key = m'.1.key := (List.mem_cons.1 h).resolve_right hold
      rw [firsts_append_new hold, List.filter_append]
      simp [Value.same, heq]

theorem firsts_subset (ms ms' : List (Value × Attributes)) : firsts ms ⊆ firsts (ms ++ ms') := by
  induction ms' generalizing ms with
  | nil => simp
  | cons m ms' ih =>
    rw [List.append_cons]
    refine List.Subset.trans ?_ (ih (ms ++ [m]))
    by_cases h : m.1.key ∈ ms.map (·.1.key)
    · simp [firsts_append_old h]
    · simp [firsts_append_new h]

theorem firsts_of_nodup {ms : List (Value × Attributes)} (h : (ms.map (·.1.key)).Nodup) :
    firsts ms = ms := by
  induction ms with
  | nil => rfl
  | cons m ms ih =>
    rw [List.map_cons, List.nodup_cons] at h
    rw [firsts, ih h.2, List.filter_eq_self.2]
    intro m' hm'
    have hne : m'.1.key ≠ m.1.key := by
      intro heq
      exact h.1 (heq ▸ List.mem_map_of_mem hm')
    simpa [Value.same] using hne

theorem firsts_append_mentioned {ms ms' : List (Value × Attributes)}
    (h : ∀ m ∈ ms', m.1.key ∈ ms.map (·.1.key)) : firsts (ms ++ ms') = firsts ms := by
  induction ms' generalizing ms with
  | nil => rw [List.append_nil]
  | cons m ms' ih =>
    rw [List.forall_mem_cons] at h
    rw [List.append_cons, ih, firsts_append_old h.1]
    intro m' hm'
    rw [List.map_append]
    exact List.mem_append_left _ (h.2 m' hm')

/-! ## Graphs with a content -/

namespace Content

/-- The attributes that a node is given after its first mention, list by list. -/
def listsOf (c : Content) (label : Value) : List Attributes :=
  (c.lists.filter fun l => l.1.same label).map (·.2)

/-- What a node carries: the defaults at its first mention, with its lists laid over them. -/
def block (c : Content) (m : Value × Attributes) : Block :=
  ⟨m.1, none, (c.listsOf m.1).foldl .update m.2⟩

theorem block_congr {c d : Content} (h : c.lists = d.lists) : c.block = d.block := by
  funext m
  rw [block, block, listsOf, listsOf, h]

structure Depicts (c : Content) (g : FlowGraph) : Prop where
  blocks : g.nodes.map (·.2) = (firsts c.mentions).map c.block
  edges : g.edges.map (fun e => ((g.label e.source).key, (g.label e.target).key, e.attributes)) =
    c.edges.map fun e => (e.1.key, e.2.1.key, e.2.2)
  attributes : g.attributes = c.attributes.foldl .update ∅

/-- Some node would be made with a key that no node can be made with. -/
def Clashes (c : Content) : Prop := ∃ m ∈ firsts c.mentions, m.2.mentions nodeReserved = true

instance (c : Content) : Decidable c.Clashes := inferInstanceAs (Decidable (∃ m ∈ _, _))

end Content

/-! ## Clause by clause -/

/-- What a description says up to some place, the defaults in force there, and those of the scopes
around it. -/
structure Account where
  content : Content
  scope : Scope
  outer : List Scope

namespace Account

def start : Account := ⟨∅, ⟨∅, ∅⟩, []⟩

def add (x : Account) : Clause → Account
  | .graphAttributes a => { x with content := x.content ++ ⟨[], [], [], [a]⟩ }
  | .nodeDefaults a => { x with scope := { x.scope with node := x.scope.node.update a } }
  | .edgeDefaults a => { x with scope := { x.scope with edge := x.scope.edge.update a } }
  | .opens => { x with outer := x.scope :: x.outer }
  | .closes => match x.outer with
    | [] => x
    | σ :: outer => { x with scope := σ, outer := outer }
  | .appears v _ =>
    { x with content := x.content ++ ⟨[(v, x.scope.node)], [], [], []⟩ }
  | .describes v _ a =>
    if v.key ∈ x.content.mentions.map (·.1.key) then
      { x with content := x.content ++ ⟨[], [(v, a)], [], []⟩ }
    else x
  | .edges ends a => { x with content := x.content ++ (Statement.edges ends a).content x.scope }

def addAll (x : Account) (cs : List Clause) : Account := cs.foldl add x

@[simp] theorem addAll_nil (x : Account) : x.addAll [] = x := rfl

@[simp] theorem addAll_cons (x : Account) (c : Clause) (cs : List Clause) :
    x.addAll (c :: cs) = (x.add c).addAll cs := rfl

theorem addAll_append (x : Account) (cs cs' : List Clause) :
    x.addAll (cs ++ cs') = (x.addAll cs).addAll cs' := List.foldl_append

theorem addAll_statement (x : Account) (s : Statement) :
    x.addAll s.clauses = ⟨x.content ++ s.content x.scope, x.scope.after s, x.outer⟩ := by
  cases s with
  | nodeDefaults a | edgeDefaults a =>
    rw [Statement.content, Content.append_empty]
    rfl
  | graphAttributes a | assignment k v | edges ends a => rfl
  | node v l a =>
    simp only [Statement.clauses, addAll_cons, addAll_nil, add]
    rw [if_pos (by simp)]
    simp only [Content.append_assoc, Statement.content, Scope.after]
    congr 2

theorem addAll_clauses (x : Account) (b : Body) :
    x.addAll b.clauses = ⟨x.content ++ b.content x.scope, b.scope x.scope, x.outer⟩ := by
  induction b generalizing x with
  | done =>
    rw [Body.content, Content.append_empty]
    rfl
  | simple s rest ih =>
    rw [Body.clauses, addAll_append, addAll_statement, ih, Body.content, Content.append_assoc]
    rfl
  | subgraph inner rest ihi ihr =>
    rw [Body.clauses, addAll_cons, addAll_append, ihi, addAll_cons, ihr, Body.content]
    simp only [add, Content.append_assoc]
    rfl

theorem exists_mentions_add (x : Account) (c : Clause) :
    ∃ ms, (x.add c).content.mentions = x.content.mentions ++ ms := by
  have hsame : ∃ ms, x.content.mentions = x.content.mentions ++ ms :=
    ⟨[], (List.append_nil _).symm⟩
  cases c with
  | nodeDefaults a | edgeDefaults a | opens => exact hsame
  | graphAttributes a | appears v l | edges ends a => exact ⟨_, rfl⟩
  | closes =>
    simp only [add]
    split <;> exact hsame
  | describes v l a =>
    simp only [add]
    split
    · exact ⟨[], rfl⟩
    · exact hsame

theorem clashes_addAll {x : Account} (h : x.content.Clashes) (cs : List Clause) :
    (x.addAll cs).content.Clashes := by
  induction cs generalizing x with
  | nil => exact h
  | cons c cs ih =>
    obtain ⟨ms, hms⟩ := x.exists_mentions_add c
    obtain ⟨m, hm, hclash⟩ := h
    refine ih ⟨m, ?_, hclash⟩
    rw [hms]
    exact firsts_subset _ _ hm

end Account

/-! ## Room for subgraphs -/

def Clause.depth (depth : Nat) : Clause → Nat
  | .opens => depth + 1
  | .closes => depth - 1
  | _ => depth

/-- The clauses in front of the first subgraph that would be the next one after `limit`, `depth`
subgraphs being open. -/
def reached (limit depth : Nat) : List Clause → List Clause
  | [] => []
  | c :: cs => if c = .opens ∧ limit ≤ depth then [] else c :: reached limit (c.depth depth) cs

/-- How many subgraphs are open at a time at most, `depth` being open at the start. -/
def deepest (depth : Nat) : List Clause → Nat
  | [] => depth
  | c :: cs => max depth (deepest (c.depth depth) cs)

def Body.depth : Body → Nat
  | .done => 0
  | .simple _ rest => rest.depth
  | .subgraph inner rest => max (inner.depth + 1) rest.depth

theorem le_deepest (depth : Nat) (cs : List Clause) : depth ≤ deepest depth cs := by
  cases cs with
  | nil => exact Nat.le_refl _
  | cons c cs => exact Nat.le_max_left _ _

theorem reached_of_deepest_le {limit depth : Nat} {cs : List Clause}
    (h : deepest depth cs ≤ limit) : reached limit depth cs = cs := by
  induction cs generalizing depth with
  | nil => rfl
  | cons c cs ih =>
    obtain ⟨-, hrest⟩ := Nat.max_le.1 h
    have hroom : ¬ (c = .opens ∧ limit ≤ depth) := by
      rintro ⟨rfl, hle⟩
      have := le_deepest (Clause.opens.depth depth) cs
      simp only [Clause.depth] at this hrest
      omega
    rw [reached, if_neg hroom, ih hrest]

theorem deepest_statement (depth : Nat) (s : Statement) (cs : List Clause) :
    deepest depth (s.clauses ++ cs) = deepest depth cs := by
  have hmax : max depth (deepest depth cs) = deepest depth cs := Nat.max_eq_right (le_deepest _ _)
  cases s <;> simp [Statement.clauses, deepest, Clause.depth, hmax]

theorem deepest_clauses (depth : Nat) (b : Body) (cs : List Clause) :
    deepest depth (b.clauses ++ cs) = max (depth + b.depth) (deepest depth cs) := by
  induction b generalizing depth cs with
  | done => exact (Nat.max_eq_right (le_deepest _ _)).symm
  | simple s rest ih => rw [Body.clauses, List.append_assoc, deepest_statement, ih, Body.depth]
  | subgraph inner rest ihi ihr =>
    rw [Body.clauses, List.cons_append, List.append_assoc, List.cons_append, deepest, Clause.depth,
      ihi, deepest, Clause.depth, Nat.add_sub_cancel, ihr, Body.depth]
    omega

theorem Account.length_outer_add (x : Account) (c : Clause) :
    (x.add c).outer.length = c.depth x.outer.length := by
  cases c with
  | closes =>
    simp only [add, Clause.depth]
    split
    · next h => simp [h]
    · next h => simp [h]
  | describes v l a =>
    simp only [add, Clause.depth]
    split <;> rfl
  | _ => rfl

end Structuring.Dot
