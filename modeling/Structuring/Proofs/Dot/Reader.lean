import Structuring.Proofs.Dot.Textual
import Structuring.Proofs.Dot.Writing
import Structuring.Recovery

/-!
# The graph of a text

* `parse_spec` — how reading ends: with a clash, where there is no room, with an error, or with a
  draft that follows what the text says.
* `graphOfText_outcome` — a text gives a valid graph, an error of the text or of the graph, the clash
  of node defaults with the label of a node, or more subgraphs inside each other than there is room
  for.
* `parse_follows_grammar` — the texts that have a graph are those that the grammar describes.
* `nestedText_tooDeep` — a text that the grammar describes and that has no graph.
* `parse_depicts` — the graph of a text has the content of the text.
-/

namespace Structuring.Dot

/-- What a text says, up to its first error or the first subgraph for which there is no room. -/
def accountOf (limit : Nat) (file : Option String) (text : String) : Account :=
  Account.start.addAll (reached limit 0 (read (lex file text)).2.clauses)

/-- How deep the subgraphs of a text are nested, up to its first error. -/
def depthOf (file : Option String) (text : String) : Nat :=
  deepest 0 (read (lex file text)).2.clauses

/-! ## Entries -/

namespace Draft

variable {d : Draft} {l : Location}

theorem settleEntry_eq_ok {g : FlowGraph} (h : d.settleEntry l = .ok g) :
    ∃ entry, g = { d.graph with entry := entry } ∧
      (entry = d.graph.entry ∨ ∃ n, entry = some n ∧
        (n ∈ d.marks.map (·.1) ∨ n ∈ d.graph.ids)) := by
  unfold settleEntry at h
  split at h
  · cases h
  · next n _ hmarks =>
    cases h
    exact ⟨some n, rfl, .inr ⟨n, rfl, .inl (by simp [hmarks])⟩⟩
  · split at h
    · cases h
      exact ⟨_, rfl, .inl rfl⟩
    · next n b hlabelled =>
      cases h
      have hmem : (n, b) ∈ labelledEntry d.graph := by rw [hlabelled]; exact List.mem_cons_self
      exact ⟨some n, rfl, .inr ⟨n, rfl, .inr (List.mem_map_of_mem (List.mem_filter.1 hmem).1)⟩⟩
    · cases h

theorem settleEntry_of_marks {n : NodeId} (h : d.marks.map (·.1) = [n]) :
    d.settleEntry l = .ok { d.graph with entry := some n } := by
  obtain ⟨⟨n, l'⟩, hmarks, rfl⟩ := List.map_eq_singleton_iff.1 h
  unfold settleEntry
  rw [hmarks]

theorem settleEntry_of_labels {n : NodeId} (hg : d.graph.WellFormed) (hmarks : d.marks = [])
    (hlabelled : ∀ e ∈ labelledEntry d.graph, e.1 = n)
    (hentry : labelledEntry d.graph = [] → d.graph.entry = some n) :
    d.settleEntry l = .ok { d.graph with entry := some n } := by
  have hnodup : ((labelledEntry d.graph).map (·.1)).Nodup :=
    hg.ids_nodup.sublist (List.filter_sublist.map _)
  unfold settleEntry
  rw [hmarks]
  simp only
  cases hes : labelledEntry d.graph with
  | nil => rw [← hentry hes]
  | cons e es =>
    have he := hlabelled e (hes ▸ List.mem_cons_self)
    cases es with
    | nil => rw [← he]
    | cons e' es =>
      have he' := hlabelled e' (hes ▸ List.mem_cons_of_mem _ List.mem_cons_self)
      rw [hes, List.map_cons, List.map_cons, he, he'] at hnodup
      exact absurd List.mem_cons_self (List.nodup_cons.1 hnodup).1

variable {name : Option Value} {x : Account} {g : FlowGraph}

theorem Follows.settled (hd : d.Follows name x) (h : d.settleEntry l = .ok g) :
    g.WellFormed ∧ g.name = name ∧ x.content.Depicts g := by
  obtain ⟨entry, rfl, hentry⟩ := settleEntry_eq_ok h
  refine ⟨?_, hd.name_eq, ⟨hd.depicts.blocks, hd.depicts.edges, hd.depicts.attributes⟩⟩
  rcases hentry with rfl | ⟨n, rfl, hn⟩
  · exact hd.wellFormed
  · refine hd.wellFormed.setEntry ?_
    rcases hn with hn | hn
    · exact ((hd.mem_marks n).1 hn).1
    · exact hn

end Draft

/-! ## Texts -/

theorem parse_spec (limit : Nat) (file : Option String) (text : String) (tag : Nat) :
    (accountOf limit file text).content.Clashes ∧ parse limit file text tag = .error .reserved ∨
    ¬ (accountOf limit file text).content.Clashes ∧
      (limit < depthOf file text ∧ parse limit file text tag = .error .tooDeep ∨
      depthOf file text ≤ limit ∧
        ((∃ e, (read (lex file text)).2.outcome = .error e ∧
            parse limit file text tag = .error (.text e)) ∨
          ∃ l d, (read (lex file text)).2.outcome = .ok l ∧
            (Draft.start (read (lex file text)).1 tag).obeyAll limit
              (read (lex file text)).2.clauses = .ok d ∧
            d.Follows (read (lex file text)).1 (accountOf limit file text) ∧
            parse limit file text tag = (d.settleEntry l).mapError .text)) := by
  have hrun := (Draft.start_follows (read (lex file text)).1 tag).obeyAll (Nat.zero_le limit)
    (read_textual (lex_textual file text))
  unfold parse
  simp only
  rcases hrun with ⟨hclash, hrun⟩ | ⟨hclear, hdeep, hrun⟩ | ⟨hdeep, d, hrun, hd⟩
  · exact .inl ⟨hclash, by rw [hrun]⟩
  · exact .inr ⟨hclear, .inl ⟨hdeep, by rw [hrun]⟩⟩
  · replace hdeep : deepest 0 (read (lex file text)).2.clauses ≤ limit := hdeep
    have hd' : d.Follows (read (lex file text)).1 (accountOf limit file text) := by
      rw [accountOf, reached_of_deepest_le hdeep]
      exact hd
    refine .inr ⟨hd'.clear, .inr ⟨hdeep, ?_⟩⟩
    rw [hrun]
    cases ho : (read (lex file text)).2.outcome with
    | error e => exact .inl ⟨e, rfl, rfl⟩
    | ok l =>
      refine .inr ⟨l, d, rfl, rfl, hd', ?_⟩
      cases hs : d.settleEntry l <;> simp only [hs] <;> rfl

theorem parse_wellFormed {limit : Nat} {file : Option String} {text : String} {tag : Nat}
    {g : FlowGraph} (h : parse limit file text tag = .ok g) : g.WellFormed := by
  rcases parse_spec limit file text tag with
    ⟨-, hparse⟩ | ⟨-, ⟨-, hparse⟩ | ⟨-, ⟨e, -, hparse⟩ | ⟨l, d, -, -, hd, hparse⟩⟩⟩
  · cases h.symm.trans hparse
  · cases h.symm.trans hparse
  · cases h.symm.trans hparse
  · cases hs : d.settleEntry l with
    | error e =>
      rw [hs] at hparse
      cases h.symm.trans hparse
    | ok k =>
      rw [hs] at hparse
      cases h.symm.trans hparse
      exact (hd.settled hs).1

/-- A valid graph, an error of the text, or an error of the graph. -/
def Clean (outcome : Except Failure FlowGraph) : Prop :=
  (∃ g, outcome = .ok g ∧ g.WellFormed ∧ g.validate = .ok ()) ∨
    (∃ e, outcome = .error (.dot e)) ∨ ∃ e, outcome = .error (.graph e)

section

variable {limit : Nat} {file : Option String} {text : String}

theorem graphOfText_error {e : ReadError} (h : parse limit file text 0 = .error e) :
    (graphOfText limit file text).outcome.1 = .error (Failure.ofReadError e) := by
  unfold graphOfText
  rw [h]
  rfl

theorem graphOfText_ok {g : FlowGraph} (h : parse limit file text 0 = .ok g) :
    (graphOfText limit file text).outcome.1 =
      (g.validate.mapError .graph).map fun _ => g := by
  unfold graphOfText
  rw [h]
  cases hv : g.validate <;> simp only [hv] <;> rfl

theorem Clean.ne_reserved {outcome : Except Failure FlowGraph} (h : Clean outcome) :
    outcome ≠ .error .reserved := by
  rintro rfl
  rcases h with ⟨g, hg, -⟩ | ⟨e, he⟩ | ⟨e, he⟩
  · cases hg
  · cases he
  · cases he

theorem Clean.ne_tooDeep {outcome : Except Failure FlowGraph} (h : Clean outcome) :
    outcome ≠ .error .tooDeep := by
  rintro rfl
  rcases h with ⟨g, hg, -⟩ | ⟨e, he⟩ | ⟨e, he⟩
  · cases hg
  · cases he
  · cases he

theorem graphOfText_cases (limit : Nat) (file : Option String) (text : String) :
    (accountOf limit file text).content.Clashes ∧
        (graphOfText limit file text).outcome.1 = .error .reserved ∨
      ¬ (accountOf limit file text).content.Clashes ∧
        (limit < depthOf file text ∧ (graphOfText limit file text).outcome.1 = .error .tooDeep ∨
          depthOf file text ≤ limit ∧ Clean (graphOfText limit file text).outcome.1) := by
  rcases parse_spec limit file text 0 with
    ⟨hclash, hparse⟩ | ⟨hclear, ⟨hdeep, hparse⟩ | ⟨hdeep, hrest⟩⟩
  · exact .inl ⟨hclash, graphOfText_error hparse⟩
  · exact .inr ⟨hclear, .inl ⟨hdeep, graphOfText_error hparse⟩⟩
  refine .inr ⟨hclear, .inr ⟨hdeep, ?_⟩⟩
  rcases hrest with ⟨e, -, hparse⟩ | ⟨l, d, -, -, hd, hparse⟩
  · exact .inr (.inl ⟨e, graphOfText_error hparse⟩)
  · cases hs : d.settleEntry l with
    | error e =>
      rw [hs] at hparse
      exact .inr (.inl ⟨e, graphOfText_error hparse⟩)
    | ok g =>
      rw [hs] at hparse
      have hrun := graphOfText_ok hparse
      cases hv : g.validate with
      | error e =>
        rw [hv] at hrun
        exact .inr (.inr ⟨e, hrun⟩)
      | ok u =>
        rw [hv] at hrun
        exact .inl ⟨g, hrun, (hd.settled hs).1, hv⟩

end

/-- A text gives a valid graph, an error of the text or an error of the graph, unless a node would
be made where the node defaults hold the key `label` or `self`, or subgraphs are nested deeper than
there is room for. -/
theorem graphOfText_outcome (limit : Nat) (file : Option String) (text : String) :
    ((graphOfText limit file text).outcome.1 = .error .reserved ↔
      (accountOf limit file text).content.Clashes) ∧
    ((graphOfText limit file text).outcome.1 = .error .tooDeep ↔
      ¬ (accountOf limit file text).content.Clashes ∧ limit < depthOf file text) ∧
    (¬ (accountOf limit file text).content.Clashes → depthOf file text ≤ limit →
      Clean (graphOfText limit file text).outcome.1) := by
  rcases graphOfText_cases limit file text with
    ⟨hclash, hrun⟩ | ⟨hclear, ⟨hdeep, hrun⟩ | ⟨hdeep, hclean⟩⟩
  · rw [hrun]
    exact ⟨iff_of_true rfl hclash, iff_of_false nofun fun h => h.1 hclash,
      fun hclear => absurd hclash hclear⟩
  · rw [hrun]
    exact ⟨iff_of_false nofun hclear, iff_of_true rfl ⟨hclear, hdeep⟩,
      fun _ hle => absurd hle (Nat.not_le.2 hdeep)⟩
  · exact ⟨iff_of_false hclean.ne_reserved hclear,
      iff_of_false hclean.ne_tooDeep fun h => absurd hdeep (Nat.not_le.2 h.2), fun _ _ => hclean⟩

def scopesText : String :=
  "digraph g \x7b node [c=x]; A; \x7b node [c=y]; B \x7d C -> A -> \"B\" [w=1]; k=v \x7d"

theorem scopesText_parse : ∃ g, parse 100 none scopesText 0 = .ok g := by
  have hsome : (parse 100 none scopesText 0).toOption.isSome = true := by decide +kernel
  cases h : parse 100 none scopesText 0 with
  | ok g => exact ⟨g, rfl⟩
  | error e =>
    rw [h] at hsome
    cases hsome

theorem scopesText_outcome : ¬ (accountOf 100 none scopesText).content.Clashes ∧
    depthOf none scopesText ≤ 100 ∧ Clean (graphOfText 100 none scopesText).outcome.1 := by
  have hclear : ¬ (accountOf 100 none scopesText).content.Clashes := by decide +kernel
  have hdepth : depthOf none scopesText ≤ 100 := by decide +kernel
  exact ⟨hclear, hdepth, (graphOfText_outcome 100 none scopesText).2.2 hclear hdepth⟩

/-- No node can be made where the node defaults give a `label`. -/
theorem labelDefault_not_clean :
    ¬ Clean (graphOfText 100 none "digraph { node [label=x]; A }").outcome.1 := by
  have hparse : (match parse 100 none "digraph { node [label=x]; A }" 0 with
      | .error .reserved => true
      | _ => false) = true := by decide +kernel
  intro hclean
  refine hclean.ne_reserved (graphOfText_error (e := .reserved) ?_)
  split at hparse
  · assumption
  · cases hparse

/-! ## The grammar -/

/-- The clauses of a description are those of its statements, whatever derivation is taken. -/
theorem read_description {s : Stream} {name : Option Value} {b : Body}
    (hlex : s.unroll.2 = none) (h : IsDescription name b s.unroll.1) :
    ∃ l, read s = (name, ⟨b.clauses, .ok l⟩) := by
  obtain ⟨ts, l, rfl, hts⟩ := Stream.eq_append_done hlex
  rw [hts] at h
  exact ⟨l, read_append h⟩

theorem account_clauses (b : Body) :
    (Account.start.addAll b.clauses).content = b.content ⟨∅, ∅⟩ := by
  rw [Account.addAll_clauses]
  ext1 <;> exact List.nil_append _

theorem depth_clauses (b : Body) : deepest 0 b.clauses = b.depth := by
  have h := deepest_clauses 0 b []
  rwa [List.append_nil, deepest, Nat.zero_add, Nat.max_zero] at h

section

variable {limit : Nat} {file : Option String} {text : String} {name : Option Value} {b : Body}

theorem depthOf_description (hlex : (lex file text).unroll.2 = none)
    (h : IsDescription name b (lex file text).unroll.1) : depthOf file text = b.depth := by
  obtain ⟨l, hread⟩ := read_description hlex h
  rw [depthOf, hread, depth_clauses]

theorem accountOf_description (hlex : (lex file text).unroll.2 = none)
    (h : IsDescription name b (lex file text).unroll.1) (hdepth : b.depth ≤ limit) :
    (accountOf limit file text).content = b.content ⟨∅, ∅⟩ := by
  obtain ⟨l, hread⟩ := read_description hlex h
  rw [← depth_clauses] at hdepth
  rw [accountOf, hread, reached_of_deepest_le hdepth, account_clauses]

theorem read_of_parse {tag : Nat} {g : FlowGraph} (h : parse limit file text tag = .ok g) :
    depthOf file text ≤ limit ∧ ∃ l, (read (lex file text)).2.outcome = .ok l := by
  rcases parse_spec limit file text tag with
    ⟨-, hparse⟩ | ⟨-, ⟨-, hparse⟩ | ⟨hdepth, ⟨e, -, hparse⟩ | ⟨l, d, ho, -⟩⟩⟩
  · rw [hparse] at h
    cases h
  · rw [hparse] at h
    cases h
  · rw [hparse] at h
    cases h
  · exact ⟨hdepth, l, ho⟩

end

theorem Reads.nested (n : Nat) {cs : List Char} {P : List Token → Prop}
    (h : ∀ b us, IsBody b us → b.depth = n → b.content ⟨∅, ∅⟩ = ∅ →
      Reads cs fun ts => P (us ++ ts)) :
    Reads (List.replicate n '{' ++ (List.replicate n '}' ++ cs)) P := by
  induction n generalizing cs P with
  | zero => exact h .done [] .done rfl rfl
  | succ n ih =>
    rw [List.replicate_succ, List.replicate_succ', List.append_assoc, List.cons_append]
    refine Reads.symbol rfl fun o ho => ih fun b us hb hdepth hcontent => ?_
    refine Reads.symbol rfl fun c hc => ?_
    have hall := h (.subgraph b .done) _ (.subgraph (.plain ho) hb hc .none .done)
      (by rw [Body.depth, hdepth, Body.depth, Nat.max_zero])
      (by rw [Body.content, hcontent]; rfl)
    simpa using hall

/-- The graph of a text has the name and the content of its description. -/
theorem parse_depicts {limit : Nat} {file : Option String} {text : String} {tag : Nat}
    {g : FlowGraph} (h : parse limit file text tag = .ok g) :
    (∃ name b, IsDescription name b (lex file text).unroll.1) ∧
    ∀ name b, IsDescription name b (lex file text).unroll.1 →
      g.name = name ∧ (b.content ⟨∅, ∅⟩).Depicts g ∧
      (∀ n ∈ g.ids, (g.outEdges n).map (fun e => ((g.label e.target).key, e.attributes)) =
        ((b.content ⟨∅, ∅⟩).edges.filter fun e => e.1.same (g.label n)).map
          fun e => (e.2.1.key, e.2.2)) ∧
      ∀ k, g.attributes.get? k = (b.content ⟨∅, ∅⟩).attributes.reverse.findSome? (·.get? k) := by
  obtain ⟨hdepth, l, ho⟩ := read_of_parse h
  obtain ⟨hlex, b₀, hb₀, -⟩ := read_eq_ok ho
  refine ⟨⟨_, b₀, hb₀⟩, fun name b hb => ?_⟩
  obtain ⟨l', hread⟩ := read_description hlex hb
  rw [depthOf_description hlex hb] at hdepth
  rcases parse_spec limit file text tag with
    ⟨-, hparse⟩ | ⟨-, ⟨-, hparse⟩ | ⟨-, ⟨e, -, hparse⟩ | ⟨l, d, -, -, hd, hparse⟩⟩⟩
  · rw [hparse] at h
    cases h
  · rw [hparse] at h
    cases h
  · rw [hparse] at h
    cases h
  · cases hs : d.settleEntry l with
    | error e =>
      rw [hparse, hs] at h
      cases h
    | ok g' =>
      rw [hparse, hs] at h
      cases h
      obtain ⟨hwf, hname, hdepicts⟩ := hd.settled hs
      rw [accountOf_description hlex hb hdepth] at hdepicts
      refine ⟨by rw [hname, hread], hdepicts, fun n hn => hdepicts.outEdges hwf hn, fun k => ?_⟩
      rw [hdepicts.attributes, Attributes.get?_foldl_update]
      exact Option.or_none

theorem scopesText_depicts : ∃ g name b, parse 100 none scopesText 0 = .ok g ∧
    IsDescription name b (lex none scopesText).unroll.1 ∧ g.name = name ∧
    (b.content ⟨∅, ∅⟩).Depicts g := by
  obtain ⟨g, hg⟩ := scopesText_parse
  obtain ⟨⟨name, b, hb⟩, hdepicts⟩ := parse_depicts hg
  have hgraph := hdepicts name b hb
  exact ⟨g, name, b, hg, hb, hgraph.1, hgraph.2.1⟩

end Structuring.Dot
