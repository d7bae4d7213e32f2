import Structuring.Proofs.Dot.Content
import Structuring.Proofs.Dot.Spelling
import Structuring.Proofs.Graph.WellFormed

/-!
# What is written follows the grammar

* `Reads.formatAttributes` — an attribute list.
* `IsLine` — a line that is one statement and changes no defaults.
* `Reads.lines` — such lines are a statement list.
* `writtenLines` — what the text of a graph says, line by line.
* `lex_write` — the text of a graph is a description that says this. It has no subgraphs.
-/

namespace Structuring.Dot

variable {cs : List Char} {P : List Token → Prop}

/-! ## Attribute lists -/

def WritableAttributes (a : Attributes) : Prop := ∀ e ∈ a.entries, Writable e.1 ∧ Writable e.2

instance (a : Attributes) : Decidable (WritableAttributes a) :=
  inferInstanceAs (Decidable (∀ e ∈ a.entries, _))

theorem WritableAttributes.mark {a : Attributes} (ha : WritableAttributes a) :
    WritableAttributes (a.set (.text "entry") (.text "true")) := by
  have hvalue : Writable (.text "true") := ⟨by decide, by decide⟩
  exact Attributes.forall_setEntries ha ⟨⟨by decide, by decide⟩, hvalue⟩
    fun e he => ⟨(ha e he).1, hvalue⟩

def IsAssignment (e : Value × Value) (ts : List Token) : Prop :=
  ∃ us q vs, ts = us ++ q :: vs ∧ IsIdentifier e.1 us ∧ q.kind = .symbol .equals ∧
    IsIdentifier e.2 vs

theorem Reads.assignment {e : Value × Value} (he : Writable e.1 ∧ Writable e.2) (hcs : Apart cs)
    (h : ∀ us, IsAssignment e us → Reads cs fun ts => P (us ++ ts)) :
    Reads ((assignment e).toList ++ cs) P := by
  have hsplit : (Dot.assignment e).toList ++ cs =
      (Dot.quote e.1).toList ++ '=' :: ((Dot.quote e.2).toList ++ cs) := by
    simp [Dot.assignment]
  rw [hsplit]
  refine Reads.quote he.1 (apart_cons (by decide) _) fun us hus => ?_
  refine Reads.symbol rfl fun q hq => ?_
  refine Reads.quote he.2 hcs fun vs hvs => ?_
  simpa using h (us ++ q :: vs) ⟨us, q, vs, rfl, hus, hq, hvs⟩

theorem IsAssignment.attribute {e : Value × Value} {ts : List Token} (h : IsAssignment e ts) :
    IsAttribute e ts := by
  obtain ⟨us, q, vs, rfl, hus, hq, hvs⟩ := h
  exact .valued hus hq hvs

theorem Reads.entries {es : List (Value × Value)} (hne : es ≠ [])
    (hes : ∀ e ∈ es, Writable e.1 ∧ Writable e.2)
    (h : ∀ us, IsAttributes es us → Reads (']' :: cs) fun ts => P (us ++ ts)) :
    Reads ((", ".intercalate (es.map Dot.assignment)).toList ++ ']' :: cs) P := by
  induction es generalizing P with
  | nil => exact absurd rfl hne
  | cons e es ih =>
    rw [List.forall_mem_cons] at hes
    cases es with
    | nil =>
      rw [List.map_cons, List.map_nil, String.intercalate_singleton]
      refine Reads.assignment hes.1 (apart_cons (by decide) _) fun us hus => ?_
      have hone := IsAttributes.cons hus.attribute .none .nil
      exact h us (by simpa using hone)
    | cons e' es =>
      have hsplit : (", ".intercalate ((e :: e' :: es).map Dot.assignment)).toList ++ ']' :: cs =
          (Dot.assignment e).toList ++ ',' :: ' ' ::
            ((", ".intercalate ((e' :: es).map Dot.assignment)).toList ++ ']' :: cs) := by
        simp [String.intercalate_cons_cons]
      rw [hsplit]
      refine Reads.assignment hes.1 (apart_cons (by decide) _) fun us hus => ?_
      refine Reads.symbol rfl fun c hc => Reads.blank rfl ?_
      refine ih (by simp) hes.2 fun vs hvs => ?_
      have hcomma : IsOptional [.symbol .semicolon, .symbol .comma] [c] := .some (by simp [hc])
      simpa using h _ (.cons hus.attribute hcomma hvs)

theorem Reads.formatAttributes {a : Attributes} (ha : WritableAttributes a)
    (h : ∀ us, IsAttributeLists a.entries us → Reads cs fun ts => P (us ++ ts)) :
    Reads ((formatAttributes a).toList ++ cs) P := by
  unfold Dot.formatAttributes
  split
  · next hempty =>
    have hnil : a.entries = [] := List.isEmpty_iff.1 hempty
    exact h [] (hnil ▸ .nil)
  · next hempty =>
    have hsplit : (" [" ++ ", ".intercalate (a.entries.map Dot.assignment) ++ "]").toList ++ cs =
        ' ' :: '[' :: ((", ".intercalate (a.entries.map Dot.assignment)).toList ++ ']' :: cs) := by
      simp
    rw [hsplit]
    refine Reads.blank rfl (Reads.symbol rfl fun o ho => ?_)
    refine Reads.entries (fun hnil => hempty (List.isEmpty_iff.2 hnil)) ha fun us hus => ?_
    refine Reads.symbol rfl fun c hc => ?_
    have hlist := IsAttributeLists.cons ho hus hc .nil
    rw [List.append_nil] at hlist
    simpa using h _ hlist

theorem apart_formatAttributes (a : Attributes) :
    Apart ((formatAttributes a).toList ++ ';' :: cs) := by
  unfold Dot.formatAttributes
  split
  · exact apart_cons (by decide) _
  · simp only [String.toList_append, List.append_assoc]
    exact apart_cons (c := ' ') (by decide) _

/-! ## Lines -/

/-- A statement and a semicolon. The statement says `c`, and changes no defaults. -/
def IsLine (c : Content) (ts : List Token) : Prop :=
  ∃ s us e, ts = us ++ [e] ∧ IsStatement s us ∧ e.kind = .symbol .semicolon ∧
    s.content ⟨∅, ∅⟩ = c ∧ Scope.after ⟨∅, ∅⟩ s = ⟨∅, ∅⟩

/-- A line of text that is read as such a line. -/
def SaysLine (c : Content) (line : String) : Prop :=
  ∀ (cs : List Char) (P : List Token → Prop),
    (∀ us, IsLine c us → Reads cs fun ts => P (us ++ ts)) → Reads (line.toList ++ '\n' :: cs) P

theorem saysLine_attribute {e : Value × Value} (he : Writable e.1 ∧ Writable e.2) :
    SaysLine ⟨[], [], [], [.ofList [e]]⟩ ("\t" ++ assignment e ++ ";") := by
  intro cs P h
  have hsplit : ("\t" ++ assignment e ++ ";").toList ++ '\n' :: cs =
      '\t' :: ((assignment e).toList ++ ';' :: '\n' :: cs) := by
    simp
  rw [hsplit]
  refine Reads.blank rfl (Reads.assignment he (apart_cons (by decide) _) fun us hus => ?_)
  refine Reads.symbol rfl fun t ht => Reads.blank rfl ?_
  obtain ⟨vs, q, ws, rfl, hvs, hq, hws⟩ := hus
  have hline := h _ ⟨_, _, t, rfl, .assignment hvs hq hws, ht, rfl, rfl⟩
  simpa using hline

theorem isEnd_of_identifier {v : Value} {ts : List Token} (h : IsIdentifier v ts) :
    ∃ l, IsEnd (v, l) ts := by
  obtain ⟨t, us, rfl, -⟩ := h.exists_cons
  exact ⟨t.location, by simpa using IsEnd.mk h .nil⟩

theorem saysLine_node {v : Value} {a : Attributes} (hv : Writable v) (ha : WritableAttributes a) :
    SaysLine ⟨[(v, ∅)], [(v, a)], [], []⟩ (nodeLine v a) := by
  intro cs P h
  have hsplit : (nodeLine v a).toList ++ '\n' :: cs =
      '\t' :: ((quote v).toList ++ ((formatAttributes a).toList ++ ';' :: '\n' :: cs)) := by
    simp [nodeLine]
  rw [hsplit]
  refine Reads.blank rfl (Reads.quote hv (apart_formatAttributes a) fun us hus => ?_)
  refine Reads.formatAttributes ha fun vs hvs => ?_
  refine Reads.symbol rfl fun t ht => Reads.blank rfl ?_
  obtain ⟨l, hend⟩ := isEnd_of_identifier hus
  have hcontent : (Statement.node v l (.ofList a.entries)).content ⟨∅, ∅⟩ =
      ⟨[(v, ∅)], [(v, a)], [], []⟩ := by
    rw [Attributes.ofList_entries]
    rfl
  have hline := h _ ⟨_, _, t, rfl, .node hend hvs, ht, hcontent, rfl⟩
  simpa using hline

theorem saysLine_edge {v w : Value} {a : Attributes} (hv : Writable v) (hw : Writable w)
    (ha : WritableAttributes a) :
    SaysLine ⟨[(v, ∅), (w, ∅)], [], [(v, w, a)], []⟩ (edgeLine v w a) := by
  intro cs P h
  have hsplit : (edgeLine v w a).toList ++ '\n' :: cs =
      '\t' :: ((quote v).toList ++ ' ' :: '-' :: '>' :: ' ' ::
        ((quote w).toList ++ ((formatAttributes a).toList ++ ';' :: '\n' :: cs))) := by
    simp [edgeLine]
  rw [hsplit]
  refine Reads.blank rfl (Reads.quote hv (apart_cons (by decide) _) fun us hus => ?_)
  refine Reads.blank rfl (Reads.arrow fun t ht => Reads.blank rfl ?_)
  refine Reads.quote hw (apart_formatAttributes a) fun vs hvs => ?_
  refine Reads.formatAttributes ha fun ws hws => ?_
  refine Reads.symbol rfl fun t' ht' => Reads.blank rfl ?_
  obtain ⟨l, hend⟩ := isEnd_of_identifier hus
  obtain ⟨l', hend'⟩ := isEnd_of_identifier hvs
  have hcontent : (Statement.edges [(v, l), (w, l')] (.ofList a.entries)).content ⟨∅, ∅⟩ =
      ⟨[(v, ∅), (w, ∅)], [], [(v, w, a)], []⟩ := by
    rw [Attributes.ofList_entries]
    simp [Statement.content, pathEdges, Attributes.empty_update]
  have hline := h _ ⟨_, _, t', rfl, .edges hend (.cons ht hend' .nil) hws, ht', hcontent, rfl⟩
  simpa using hline

def ofLinesChars (lines : List String) : List Char :=
  lines.flatMap fun line => line.toList ++ ['\n']

theorem toList_ofLines (lines : List String) : (ofLines lines).toList = ofLinesChars lines := by
  rw [ofLines, String.toList_join, ofLinesChars, List.flatMap_map]
  simp

theorem Reads.lines {lines : List (Content × String)} (hlines : ∀ x ∈ lines, SaysLine x.1 x.2)
    (h : ∀ b us, IsBody b us → b.content ⟨∅, ∅⟩ = Content.sum (lines.map (·.1)) → b.depth = 0 →
      Reads cs fun ts => P (us ++ ts)) :
    Reads (ofLinesChars (lines.map (·.2)) ++ cs) P := by
  induction lines generalizing P with
  | nil => exact h .done [] .done rfl rfl
  | cons x lines ih =>
    rw [List.forall_mem_cons] at hlines
    have hsplit : ofLinesChars ((x :: lines).map (·.2)) ++ cs =
        x.2.toList ++ '\n' :: (ofLinesChars (lines.map (·.2)) ++ cs) := by
      simp [ofLinesChars]
    rw [hsplit]
    refine hlines.1 _ _ ?_
    rintro ts ⟨s, us, e, rfl, hs, he, hc, hσ⟩
    refine ih hlines.2 fun b vs hb hsum hdepth => ?_
    have hsemicolon : IsOptional [.symbol .semicolon] [e] := .some (by simp [he])
    have hall := h (.simple s b) _ (.simple hs hsemicolon hb) (by
      rw [Body.content, hσ, hc, hsum]
      rfl) hdepth
    simpa using hall

/-! ## Graphs -/

def writtenLines (g : FlowGraph) : List (Content × String) :=
  g.attributes.entries.map (fun e =>
    (⟨[], [], [], [.ofList [e]]⟩, "\t" ++ assignment e ++ ";")) ++
  g.nodes.map (fun e =>
    (⟨[(e.2.label, ∅)], [(e.2.label, shownAttributes g [] e.1 e.2)], [], []⟩,
      nodeLine e.2.label (shownAttributes g [] e.1 e.2))) ++
  g.edgeList.map (fun e =>
    (⟨[(g.label e.source, ∅), (g.label e.target, ∅)], [],
      [(g.label e.source, g.label e.target, e.attributes)], []⟩,
      edgeLine (g.label e.source) (g.label e.target) e.attributes))

theorem toList_write (g : FlowGraph) : (write g).toList =
    (headLine g.name).toList ++
      '\n' :: (ofLinesChars ((writtenLines g).map (·.2)) ++ ['}', '\n']) := by
  rw [write, writeWith, toList_ofLines]
  simp [ofLinesChars, writtenLines, List.flatMap_map]

structure WritableGraph (g : FlowGraph) : Prop where
  name : ∀ v, g.name = some v → Writable v
  attributes : WritableAttributes g.attributes
  labels : ∀ e ∈ g.nodes, Writable e.2.label
  nodes : ∀ e ∈ g.nodes, WritableAttributes e.2.attributes
  edges : ∀ e ∈ g.edges, WritableAttributes e.attributes

instance (g : FlowGraph) : Decidable (WritableGraph g) :=
  decidable_of_iff
    ((∀ v ∈ g.name, Writable v) ∧ WritableAttributes g.attributes ∧
      (∀ e ∈ g.nodes, Writable e.2.label) ∧ (∀ e ∈ g.nodes, WritableAttributes e.2.attributes) ∧
      ∀ e ∈ g.edges, WritableAttributes e.attributes)
    ⟨fun h => ⟨h.1, h.2.1, h.2.2.1, h.2.2.2.1, h.2.2.2.2⟩,
      fun h => ⟨h.name, h.attributes, h.labels, h.nodes, h.edges⟩⟩

theorem shownAttributes_nil (g : FlowGraph) (n : NodeId) (b : Block) :
    shownAttributes g [] n b =
      if g.entry = some n ∧ g.ids.head? ≠ some n then
        b.attributes.set (.text "entry") (.text "true")
      else b.attributes := rfl

variable {g : FlowGraph}

theorem WritableGraph.shown (hw : WritableGraph g) {e : NodeId × Block} (he : e ∈ g.nodes) :
    WritableAttributes (shownAttributes g [] e.1 e.2) := by
  rw [shownAttributes_nil]
  split
  · exact (hw.nodes e he).mark
  · exact hw.nodes e he

theorem WritableGraph.saysLine (hw : WritableGraph g) (hg : g.WellFormed) :
    ∀ x ∈ writtenLines g, SaysLine x.1 x.2 := by
  have hlabel : ∀ n ∈ g.ids, Writable (g.label n) := by
    intro n hn
    obtain ⟨e, he, rfl⟩ := List.mem_map.1 hn
    rw [hg.label_eq he]
    exact hw.labels e he
  intro x hx
  simp only [writtenLines, List.mem_append, List.mem_map] at hx
  rcases hx with (⟨e, he, rfl⟩ | ⟨e, he, rfl⟩) | ⟨e, he, rfl⟩
  · exact saysLine_attribute (hw.attributes e he)
  · exact saysLine_node (hw.labels e he) (hw.shown he)
  · have hmem : e ∈ g.edges := by
      obtain ⟨n, -, hn⟩ := List.mem_flatMap.1 he
      exact (Digraph.mem_outEdges.1 hn).1
    have hends := hg.closed e hmem
    exact saysLine_edge (hlabel _ hends.1) (hlabel _ hends.2) (hw.edges e hmem)

theorem Reads.digraph (hcs : Apart cs)
    (h : ∀ d : Token, d.kind = .keyword .digraph → Reads cs fun ts => P (d :: ts)) :
    Reads ("digraph".toList ++ cs) P := by
  refine Reads.token _ (v := .text "digraph") (by decide) (fun b => ?_) fun d hd _ => h d hd
  exact ⟨_, piece_name (c := 'd') (w := "igraph".toList) (by decide) (by decide) hcs⟩

theorem Reads.headLine {name : Option Value} (hname : ∀ v, name = some v → Writable v)
    (h : ∀ d us o, d.kind = .keyword .digraph → IsOptionalIdentifier name us →
      o.kind = .symbol .openBrace → Reads cs fun ts => P (d :: (us ++ o :: ts))) :
    Reads ((headLine name).toList ++ '\n' :: cs) P := by
  cases name with
  | none =>
    refine Reads.digraph (apart_cons (c := ' ') (by decide) ('{' :: '\n' :: cs)) fun d hd => ?_
    refine Reads.blank rfl (Reads.symbol rfl fun o ho => Reads.blank rfl ?_)
    exact h d [] o hd .none ho
  | some v =>
    have hsplit : (Dot.headLine (some v)).toList ++ '\n' :: cs =
        "digraph".toList ++ ' ' :: ((Dot.quote v).toList ++ ' ' :: '{' :: '\n' :: cs) := by
      change ("digraph " ++ Dot.quote v ++ " \x7b").toList ++ '\n' :: cs = _
      simp
    rw [hsplit]
    refine Reads.digraph (apart_cons (by decide) _) fun d hd => Reads.blank rfl ?_
    refine Reads.quote (hname v rfl) (apart_cons (by decide) _) fun us hus => ?_
    refine Reads.blank rfl (Reads.symbol rfl fun o ho => Reads.blank rfl ?_)
    simpa using h d us o hd (.some hus) ho

theorem lex_write (hg : g.WellFormed) (hw : WritableGraph g) (file : Option String) :
    ∃ ts l b, lex file (write g) = ts ++ Stream.done l ∧
      IsDescription g.name b (ts ++ [endToken l]) ∧
      b.content ⟨∅, ∅⟩ = Content.sum ((writtenLines g).map (·.1)) ∧ b.depth = 0 := by
  have hreads : Reads (write g).toList fun ts => ∃ b,
      (∀ l, IsDescription g.name b (ts ++ [endToken l])) ∧
      b.content ⟨∅, ∅⟩ = Content.sum ((writtenLines g).map (·.1)) ∧ b.depth = 0 := by
    rw [toList_write]
    refine Reads.headLine hw.name fun d us o hd hus ho => ?_
    refine Reads.lines (hw.saysLine hg) fun b vs hb hsum hdepth => ?_
    refine Reads.symbol rfl fun c hc => Reads.blank rfl (Reads.nil ⟨b, fun l => ?_, hsum, hdepth⟩)
    simpa using IsDescription.mk .none hd hus ho hb hc (e := endToken l) rfl
  obtain ⟨ts, l, heq, b, hb, hsum⟩ := hreads file (write g) .start
  exact ⟨ts, l, b, heq, hb l, hsum⟩

end Structuring.Dot
