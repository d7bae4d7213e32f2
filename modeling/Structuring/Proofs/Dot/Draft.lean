import Structuring.Proofs.Dot.Depicts

/-!
# A draft follows the account of its description

* `Content.Marks` — which labels are said to be the entry.
* `Draft.Follows` — the graph of a draft has the content of an account, its scopes are those of the
  account, and the marked nodes are those whose labels are said to be the entry.
* `Follows.node`, `Follows.nodes`, `Follows.chain`, `Follows.describe` — what one step does.
* `Follows.obeyAll` — a run over clauses goes on to the end, unless a node would be made with a
  reserved key or there is no room for a subgraph.
-/

namespace Structuring.Dot

/-! ## Marks -/

def SaysEntry (a : Attributes) : Prop :=
  ∃ v, a.get? (.text "entry") = some v ∧ Draft.saysTrue v = true

instance (a : Attributes) : Decidable (SaysEntry a) :=
  inferInstanceAs (Decidable (∃ v, v ∈ a.get? (.text "entry") ∧ _))

theorem SaysEntry.contains {a : Attributes} (h : SaysEntry a) :
    a.contains (.text "entry") = true := by
  obtain ⟨v, hv, -⟩ := h
  exact Attributes.contains_iff.2 ⟨v, hv⟩

theorem not_saysEntry {a : Attributes} (h : a.contains (.text "entry") = false) :
    ¬ SaysEntry a := by
  intro htrue
  rw [htrue.contains] at h
  cases h

theorem saysEntry_iff {a : Attributes} {v : Value} (hv : a.get? (.text "entry") = some v) :
    SaysEntry a ↔ Draft.saysTrue v = true := by
  simp [SaysEntry, hv]

theorem saysEntry_set (a : Attributes) : SaysEntry (a.set (.text "entry") (.text "true")) :=
  ⟨.text "true", by rw [Attributes.get?_set]; rfl, by decide⟩

def Content.Marks (c : Content) (label : Value) : Prop :=
  (∃ m ∈ firsts c.mentions, m.1.key = label.key ∧ SaysEntry m.2) ∨
    ∃ l ∈ c.lists, l.1.key = label.key ∧ SaysEntry l.2

namespace Content

variable {c : Content} {v w : Value} {a : Attributes}

theorem marks_mention_old (h : v.key ∈ c.mentions.map (·.1.key)) :
    (c ++ ⟨[(v, a)], [], [], []⟩).Marks w ↔ c.Marks w := by
  have hfirsts := firsts_append_old (m := (v, a)) h
  simp only [Marks, mentions_append, lists_append, List.append_nil, hfirsts]

theorem marks_mention_new (h : v.key ∉ c.mentions.map (·.1.key)) :
    (c ++ ⟨[(v, a)], [], [], []⟩).Marks w ↔ c.Marks w ∨ v.key = w.key ∧ SaysEntry a := by
  have hfirsts := firsts_append_new (m := (v, a)) h
  simp only [Marks, mentions_append, lists_append, List.append_nil, hfirsts, List.mem_append,
    List.mem_singleton]
  constructor
  · rintro (⟨m, hm | rfl, hk, hs⟩ | hl)
    · exact .inl (.inl ⟨m, hm, hk, hs⟩)
    · exact .inr ⟨hk, hs⟩
    · exact .inl (.inr hl)
  · rintro ((⟨m, hm, hk, hs⟩ | hl) | ⟨hk, hs⟩)
    · exact .inl ⟨m, .inl hm, hk, hs⟩
    · exact .inr hl
    · exact .inl ⟨_, .inr rfl, hk, hs⟩

theorem marks_list :
    (c ++ ⟨[], [(v, a)], [], []⟩).Marks w ↔ c.Marks w ∨ v.key = w.key ∧ SaysEntry a := by
  simp only [Marks, mentions_append, lists_append, List.append_nil, List.mem_append,
    List.mem_singleton]
  constructor
  · rintro (hm | ⟨l, hl | rfl, hk, hs⟩)
    · exact .inl (.inl hm)
    · exact .inl (.inr ⟨l, hl, hk, hs⟩)
    · exact .inr ⟨hk, hs⟩
  · rintro ((hm | ⟨l, hl, hk, hs⟩) | ⟨hk, hs⟩)
    · exact .inl hm
    · exact .inr ⟨l, .inl hl, hk, hs⟩
    · exact .inr ⟨_, .inr rfl, hk, hs⟩

theorem not_marks (h : w.key ∉ c.mentions.map (·.1.key)) (hlists : ∀ l ∈ c.lists, l.1.key ≠ w.key) :
    ¬ c.Marks w := by
  rintro (⟨m, hm, hk, -⟩ | ⟨l, hl, hk, -⟩)
  · exact h (mem_keys_firsts.1 (hk ▸ List.mem_map_of_mem hm))
  · exact hlists l hl hk

end Content

namespace Draft

/-- `ms'` is `ms` with a mark for the node `n`, if it has none and `yes` holds. -/
structure Marked (ms ms' : List (NodeId × Location)) (n : NodeId) (yes : Prop) : Prop where
  nodup : (ms.map (·.1)).Nodup → (ms'.map (·.1)).Nodup
  mem : ∀ m, m ∈ ms'.map (·.1) ↔ m ∈ ms.map (·.1) ∨ m = n ∧ yes

variable {d : Draft} {n : NodeId} {b : Block} {yes : Prop} {ms ms' : List (NodeId × Location)}

theorem Marked.refl (h : ¬ yes) : Marked ms ms n yes := ⟨id, fun m => by simp [h]⟩

theorem Marked.append (hyes : yes) (hn : n ∉ ms.map (·.1)) (l : Location) :
    Marked ms (ms ++ [(n, l)]) n yes := by
  refine ⟨fun h => ?_, fun m => ?_⟩
  · rw [List.map_append, List.nodup_append]
    refine ⟨h, List.nodup_singleton _, ?_⟩
    rintro m hm m' hm' rfl
    cases List.mem_singleton.1 hm'
    exact hn hm
  · simp [hyes]

theorem mark_spec (l : Location) (hb : d.graph.block? n = some b)
    (hc : b.attributes.contains (.text "entry") = true)
    (htext : ∀ v, b.attributes.get? (.text "entry") = some v → ∀ i, v ≠ .int i) :
    ∃ ms, d.mark n l = .ok { d with marks := ms } ∧
      Marked d.marks ms n (SaysEntry b.attributes) := by
  obtain ⟨v, hv⟩ := Attributes.contains_iff.1 hc
  have hrun : d.mark n l = .ok (if saysTrue v ∧ d.marks.all (·.1 ≠ n) then
      { d with marks := d.marks ++ [(n, l)] } else d) := by
    unfold mark
    rw [hb, Option.bind_some, hv]
    cases v with
    | int i => exact absurd rfl (htext _ hv i)
    | text s | html s => rfl
  have hall : (d.marks.all (·.1 ≠ n)) = true ↔ n ∉ d.marks.map (·.1) := by
    simp only [List.all_eq_true, decide_eq_true_eq, List.mem_map, not_exists, not_and]
  rw [saysEntry_iff hv, hrun]
  by_cases htrue : saysTrue v = true
  · by_cases hmem : n ∈ d.marks.map (·.1)
    · rw [if_neg (fun h => hall.1 h.2 hmem)]
      refine ⟨d.marks, rfl, id, fun m => ⟨.inl, ?_⟩⟩
      rintro (h | ⟨rfl, -⟩)
      · exact h
      · exact hmem
    · rw [if_pos ⟨htrue, hall.2 hmem⟩]
      exact ⟨_, rfl, .append htrue hmem l⟩
  · rw [if_neg (fun h => htrue h.1)]
    exact ⟨d.marks, rfl, .refl htrue⟩

/-- A node is marked where attributes that it carries say true for `entry`. -/
theorem markWhere_spec {a : Attributes} (l : Location) (hb : d.graph.block? n = some b)
    (ha : a.Textual) (hcarries : ∀ v, a.get? (.text "entry") = some v →
      b.attributes.get? (.text "entry") = some v) :
    ∃ ms, (if a.contains (.text "entry") then d.mark n l else .ok d) =
        .ok { d with marks := ms } ∧ Marked d.marks ms n (SaysEntry a) := by
  by_cases hc : a.contains (.text "entry") = true
  · rw [if_pos hc]
    obtain ⟨v, hv⟩ := Attributes.contains_iff.1 hc
    have hv' := hcarries v hv
    have htext : ∀ w, b.attributes.get? (.text "entry") = some w → ∀ i, w ≠ .int i := by
      intro w hw
      rw [hv'] at hw
      exact Option.some.inj hw ▸ ha.get? hv
    have hmarked := mark_spec l hb (Attributes.contains_iff.2 ⟨v, hv'⟩) htext
    rwa [saysEntry_iff hv', ← saysEntry_iff hv] at hmarked
  · rw [if_neg hc]
    exact ⟨d.marks, rfl, .refl (not_saysEntry (eq_false_of_ne_true hc))⟩

/-- Marks go on to follow a content when one more node is marked and the content says so for its
label. -/
theorem Marked.mem_iff {g g' : FlowGraph} {c c' : Content} {v : Value} (h : Marked ms ms' n yes)
    (hmarks : ∀ m, m ∈ ms.map (·.1) ↔ m ∈ g.ids ∧ c.Marks (g.label m))
    (hids : ∀ m ∈ g.ids, m ∈ g'.ids ∧ g'.label m = g.label m)
    (hnew : ∀ m ∈ g'.ids, m ∉ g.ids → ¬ c.Marks (g'.label m))
    (hwf : g'.WellFormed) (hn : g'.find? v = some n)
    (hc : ∀ w, c'.Marks w ↔ c.Marks w ∨ v.key = w.key ∧ yes) (m : NodeId) :
    m ∈ ms'.map (·.1) ↔ m ∈ g'.ids ∧ c'.Marks (g'.label m) := by
  rw [h.mem, hmarks, hc]
  constructor
  · rintro (⟨hm, hmark⟩ | ⟨rfl, hyes⟩)
    · exact ⟨(hids m hm).1, .inl ((hids m hm).2 ▸ hmark)⟩
    · exact ⟨FlowGraph.mem_of_find hn, .inr ⟨(FlowGraph.key_of_find hwf hn).symm, hyes⟩⟩
  · rintro ⟨hm, hmark | ⟨hk, hyes⟩⟩
    · by_cases hold : m ∈ g.ids
      · exact .inl ⟨hold, (hids m hold).2 ▸ hmark⟩
      · exact absurd hmark (hnew m hm hold)
    · have hsame := FlowGraph.find?_eq_some hwf hm hk.symm
      rw [hn] at hsame
      exact .inr ⟨(Option.some.inj hsame).symm, hyes⟩

end Draft

def Clause.Textual : Clause → Prop
  | .nodeDefaults a => a.Textual
  | .describes _ _ a => a.Textual
  | _ => True

/-! ## Following -/

namespace Account

def mention (x : Account) (v : Value) : Account :=
  { x with content := x.content ++ ⟨[(v, x.scope.node)], [], [], []⟩ }

def mentionAll (x : Account) (vs : List Value) : Account := vs.foldl mention x

theorem mentionAll_eq (x : Account) (vs : List Value) :
    x.mentionAll vs =
      { x with content := x.content ++ ⟨vs.map fun v => (v, x.scope.node), [], [], []⟩ } := by
  induction vs generalizing x with
  | nil =>
    change x = ⟨x.content ++ ∅, _, _⟩
    rw [Content.append_empty]
  | cons v vs ih =>
    rw [mentionAll, List.foldl_cons, ← mentionAll, ih]
    simp only [mention, Content.append_assoc]
    rfl

theorem clashes_mentionAll {x : Account} (h : x.content.Clashes) (vs : List Value) :
    (x.mentionAll vs).content.Clashes := by
  obtain ⟨m, hm, hreserved⟩ := h
  rw [mentionAll_eq]
  exact ⟨m, firsts_subset _ _ hm, hreserved⟩

end Account

structure Draft.Follows (name : Option Value) (d : Draft) (x : Account) : Prop where
  wellFormed : d.graph.WellFormed
  name_eq : d.graph.name = name
  entry : d.graph.entry = d.graph.ids.head?
  scope : d.scope = x.scope
  outer : d.outer = x.outer
  textual : ∀ σ ∈ x.scope :: x.outer, σ.node.Textual
  depicts : x.content.Depicts d.graph
  listed : ∀ l ∈ x.content.lists, l.1.key ∈ x.content.mentions.map (·.1.key)
  clear : ¬ x.content.Clashes
  marks_nodup : (d.marks.map (·.1)).Nodup
  mem_marks : ∀ n, n ∈ d.marks.map (·.1) ↔
    n ∈ d.graph.ids ∧ x.content.Marks (d.graph.label n)

namespace Draft

variable {name : Option Value} {d : Draft} {x : Account} {limit : Nat}

theorem start_follows (name : Option Value) (tag : Nat) :
    (start name tag).Follows name .start where
  wellFormed := FlowGraph.WellFormed.empty name tag ∅
  name_eq := rfl
  entry := rfl
  scope := rfl
  outer := rfl
  textual := by
    intro σ hσ
    rw [List.mem_singleton.1 hσ]
    exact Attributes.textual_empty
  depicts := ⟨rfl, rfl, rfl⟩
  listed := by
    intro l hl
    cases hl
  clear := by
    rintro ⟨m, hm, -⟩
    cases hm
  marks_nodup := List.nodup_nil
  mem_marks := by
    intro n
    simp [start, FlowGraph.empty, Digraph.empty, Digraph.ids]

namespace Follows

theorem mention_old (h : d.Follows name x) {v : Value} {n : NodeId}
    (hn : d.graph.find? v = some n) : d.Follows name (x.mention v) := by
  have hold := h.depicts.mentioned hn
  refine { h with depicts := h.depicts.mention hold _, listed := ?_, clear := ?_, mem_marks := ?_ }
  · intro l hl
    simp only [Account.mention, Content.lists_append, List.append_nil] at hl
    exact List.map_append ▸ List.mem_append_left _ (h.listed l hl)
  · rw [Content.Clashes, Account.mention, Content.mentions_append, firsts_append_old hold]
    exact h.clear
  · intro m
    rw [h.mem_marks, Account.mention, Content.marks_mention_old hold]

/-- A new node with the defaults in force, marked if they say so, is the node of its mention. -/
theorem mention_new (h : d.Follows name x) {v : Value} {n : NodeId} {g : FlowGraph}
    {ms : List (NodeId × Location)} (hnew : d.graph.find? v = none)
    (hfree : d.scope.node.mentions nodeReserved = false)
    (hg : (d.graph.newNode ⟨v, none, d.scope.node⟩).2 = g)
    (hmarked : Marked d.marks ms n (SaysEntry d.scope.node)) (hn : g.find? v = some n) :
    Follows name { d with graph := g, marks := ms } (x.mention v) := by
  have hwf := h.wellFormed.newNode ⟨v, none, d.scope.node⟩
  have hold := h.depicts.unmentioned hnew
  have hlists : ∀ l ∈ x.content.lists, l.1.key ≠ v.key := by
    intro l hl heq
    exact hold (heq ▸ h.listed l hl)
  have hdepicts := h.depicts.newNode h.wellFormed hnew hlists d.scope.node
  rw [hg] at hwf hdepicts
  rw [h.wellFormed.newNode_eq (FlowGraph.find?_eq_none.1 hnew)] at hg
  have hnodes : g.nodes = d.graph.nodes ++
      [(⟨d.graph.tag, d.graph.lastNode + 1⟩, ⟨v, none, d.scope.node⟩)] := by rw [← hg]
  have hids : g.ids = d.graph.ids ++ [⟨d.graph.tag, d.graph.lastNode + 1⟩] := by
    rw [Digraph.ids, hnodes, List.map_append]
    rfl
  refine ⟨hwf, ?_, ?_, h.scope, h.outer, h.textual, ?_, ?_, ?_, hmarked.nodup h.marks_nodup, ?_⟩
  · rw [← hg]
    exact h.name_eq
  · rw [hids, ← hg]
    simp only
    rw [h.entry, List.head?_append]
    cases d.graph.ids.head? <;> rfl
  · rw [Account.mention, ← h.scope]
    exact hdepicts
  · intro l hl
    simp only [Account.mention, Content.lists_append, List.append_nil] at hl
    exact List.map_append ▸ List.mem_append_left _ (h.listed l hl)
  · rintro ⟨e, he, hreserved⟩
    rw [Account.mention, Content.mentions_append, firsts_append_new hold, List.mem_append,
      List.mem_singleton] at he
    rcases he with he | rfl
    · exact h.clear ⟨e, he, hreserved⟩
    · simp only [← h.scope, hfree, Bool.false_eq_true] at hreserved
  · refine hmarked.mem_iff h.mem_marks ?_ ?_ hwf hn fun w => ?_
    · intro m hm
      rw [hids]
      exact ⟨List.mem_append_left _ hm, FlowGraph.label_append hnodes hm⟩
    · -- no attributes were given for the label so far
      intro m hm hmem
      rw [hids, List.mem_append, List.mem_singleton] at hm
      rw [hm.resolve_left hmem, hwf.label_eq (hnodes ▸ List.mem_append_right _ List.mem_cons_self)]
      exact Content.not_marks hold hlists
    · rw [Account.mention, ← h.scope]
      exact Content.marks_mention_new hold

theorem node_new (h : d.Follows name x) {v : Value} (l : Location) (hnew : d.graph.find? v = none)
    (hfree : d.scope.node.mentions nodeReserved = false) {g : FlowGraph}
    (hg : (d.graph.newNode ⟨v, none, d.scope.node⟩).2 = g) :
    ∃ n ms, d.node v l = .ok (n, { d with graph := g, marks := ms }) ∧
      Marked d.marks ms n (SaysEntry d.scope.node) ∧ g.find? v = some n := by
  have hwf := h.wellFormed.newNode ⟨v, none, d.scope.node⟩
  have hrun := h.wellFormed.newNode_eq (b := ⟨v, none, d.scope.node⟩)
    (FlowGraph.find?_eq_none.1 hnew)
  generalize (⟨d.graph.tag, d.graph.lastNode + 1⟩ : NodeId) = n at hrun
  have hmem : (n, (⟨v, none, d.scope.node⟩ : Block)) ∈ g.nodes := by
    rw [← hg, hrun]
    exact List.mem_append_right _ List.mem_cons_self
  have hpair : d.graph.newNode ⟨v, none, d.scope.node⟩ = (.ok n, g) := by rw [← hg, hrun]
  rw [hg] at hwf
  have htextual : d.scope.node.Textual := h.scope ▸ h.textual _ List.mem_cons_self
  obtain ⟨ms, hms, hmarked⟩ := markWhere_spec (d := { d with graph := g }) l (hwf.block_eq hmem)
    htextual fun w hw => hw
  refine ⟨n, ms, ?_, hmarked, ?_⟩
  · unfold Draft.node
    rw [hnew]
    simp only [hfree, hpair]
    split at hms
    · next hc =>
      simp only [hc, if_true, hms]
      rfl
    · next hc =>
      cases hms
      simp only [hc]
      rfl
  · refine FlowGraph.find?_eq_some hwf (List.mem_map_of_mem hmem) ?_
    rw [hwf.label_eq hmem]

theorem node (h : d.Follows name x) (v : Value) (l : Location) :
    ((x.mention v).content.Clashes ∧ d.node v l = .error .reserved) ∨
    ∃ n d', d.node v l = .ok (n, d') ∧ d'.Follows name (x.mention v) ∧ d'.graph.find? v = some n ∧
      ∀ w m, d.graph.find? w = some m → d'.graph.find? w = some m := by
  cases hf : d.graph.find? v with
  | some n =>
    have hrun : d.node v l = .ok (n, d) := by
      unfold Draft.node
      rw [hf]
    exact .inr ⟨n, d, hrun, h.mention_old hf, hf, fun w m hw => hw⟩
  | none =>
    by_cases hreserved : d.scope.node.mentions nodeReserved = true
    · refine .inl ⟨⟨(v, x.scope.node), ?_, h.scope ▸ hreserved⟩, ?_⟩
      · simp only [Account.mention, Content.mentions_append]
        rw [firsts_append_new (h.depicts.unmentioned hf)]
        exact List.mem_append_right _ List.mem_cons_self
      · unfold Draft.node
        rw [hf]
        simp only [hreserved, if_true]
    · have hfree := eq_false_of_ne_true hreserved
      obtain ⟨n, ms, hrun, hmarked, hn⟩ := h.node_new l hf hfree rfl
      refine .inr ⟨n, _, hrun, h.mention_new hf hfree rfl hmarked hn, hn, fun w m hw => ?_⟩
      have hkey := FlowGraph.find?_eq_none.1 hf
      have hnew := h.wellFormed.newNode_eq (b := ⟨v, none, d.scope.node⟩) hkey
      exact FlowGraph.find?_append (by rw [hnew]) hw

theorem nodes (h : d.Follows name x) (ends : List (Value × Location)) :
    ((x.mentionAll (ends.map (·.1))).content.Clashes ∧ d.nodes ends = .error .reserved) ∨
    ∃ ns d', d.nodes ends = .ok (ns, d') ∧ d'.Follows name (x.mentionAll (ends.map (·.1))) ∧
      (ends.map (·.1)).map d'.graph.find? = ns.map some ∧
      ∀ w m, d.graph.find? w = some m → d'.graph.find? w = some m := by
  induction ends generalizing d x with
  | nil => exact .inr ⟨[], d, rfl, h, rfl, fun w m hw => hw⟩
  | cons e ends ih =>
    obtain ⟨v, l⟩ := e
    rcases h.node v l with ⟨hclash, hrun⟩ | ⟨n, d₁, hrun, h₁, hn, hkeep⟩
    · refine .inl ⟨Account.clashes_mentionAll hclash _, ?_⟩
      simp only [Draft.nodes, hrun]
      rfl
    · rcases ih h₁ with ⟨hclash, hrun'⟩ | ⟨ns, d', hrun', h', hns, hkeep'⟩
      · refine .inl ⟨hclash, ?_⟩
        simp only [Draft.nodes, hrun, bind, Except.bind, hrun']
      · refine .inr ⟨n :: ns, d', ?_, h', ?_, fun w m hw => hkeep' w m (hkeep w m hw)⟩
        · simp only [Draft.nodes, hrun, bind, Except.bind, hrun']
          rfl
        · rw [List.map_cons, List.map_cons, List.map_cons, hkeep' v n hn, hns]

/-- Edges and attributes of the graph, its nodes being left as they are. -/
theorem graph (h : d.Follows name x) {g : FlowGraph} (es : List (Value × Value × Attributes))
    (as : List Attributes) (hwf : g.WellFormed) (hname : g.name = d.graph.name)
    (hentry : g.entry = d.graph.entry) (hnodes : g.nodes = d.graph.nodes)
    (hdepicts : (x.content ++ ⟨[], [], es, as⟩).Depicts g) :
    Follows name { d with graph := g } { x with content := x.content ++ ⟨[], [], es, as⟩ } := by
  have hmentions : (x.content ++ ⟨[], [], es, as⟩).mentions = x.content.mentions :=
    List.append_nil _
  have hlists : (x.content ++ ⟨[], [], es, as⟩).lists = x.content.lists := List.append_nil _
  have hids : g.ids = d.graph.ids := by rw [Digraph.ids, hnodes]; rfl
  have hlabel : g.label = d.graph.label := by
    funext n
    rw [FlowGraph.label, FlowGraph.label, FlowGraph.block?, FlowGraph.block?, Digraph.body?, hnodes]
    rfl
  refine ⟨hwf, hname.trans h.name_eq, ?_, h.scope, h.outer, h.textual, hdepicts, ?_, ?_,
    h.marks_nodup, fun n => ?_⟩
  · rw [hentry, hids]
    exact h.entry
  · rw [hlists, hmentions]
    exact h.listed
  · rw [Content.Clashes, hmentions]
    exact h.clear
  · rw [Content.Marks, hmentions, hlists, hids, hlabel]
    exact h.mem_marks n

theorem edge (h : d.Follows name x) {v w : Value} {n m : NodeId} (hv : d.graph.find? v = some n)
    (hw : d.graph.find? w = some m) (a : Attributes) :
    ∃ e g, d.graph.addEdge n m a = .ok (e, g) ∧ g.nodes = d.graph.nodes ∧
      Follows name { d with graph := g }
        { x with content := x.content ++ ⟨[], [], [(v, w, a)], []⟩ } := by
  have hn := FlowGraph.mem_of_find hv
  have hm := FlowGraph.mem_of_find hw
  have hrun := FlowGraph.WellFormed.addEdge_eq hn hm a
  refine ⟨_, _, hrun, rfl, h.graph _ _ (h.wellFormed.addEdge hrun) rfl rfl rfl
    (h.depicts.edit _ _ rfl ?_ rfl)⟩
  rw [List.map_append, List.map_append, ← h.depicts.edges, List.map_singleton, List.map_singleton,
    ← FlowGraph.key_of_find h.wellFormed hv, ← FlowGraph.key_of_find h.wellFormed hw]
  rfl

theorem chain {vs : List Value} {ns : List NodeId} (h : d.Follows name x)
    (hns : vs.map d.graph.find? = ns.map some) (a : Attributes) :
    ∃ g, Draft.chain d.graph a ns = .ok g ∧ Follows name { d with graph := g }
      { x with content := x.content ++ ⟨[], [], pathEdges vs a, []⟩ } := by
  induction vs generalizing ns d x with
  | nil =>
    cases ns with
    | nil =>
      refine ⟨d.graph, rfl, ?_⟩
      change d.Follows name { x with content := x.content ++ ∅ }
      rwa [Content.append_empty]
    | cons n ns => cases hns
  | cons v vs ih =>
    cases ns with
    | nil => cases hns
    | cons n ns =>
      rw [List.map_cons, List.map_cons, List.cons.injEq] at hns
      cases vs with
      | nil =>
        cases ns with
        | nil =>
          refine ⟨d.graph, rfl, ?_⟩
          change d.Follows name { x with content := x.content ++ ∅ }
          rwa [Content.append_empty]
        | cons m ns => cases hns.2
      | cons w vs =>
        cases ns with
        | nil => cases hns.2
        | cons m ns =>
          have hm : d.graph.find? w = some m := (List.cons.inj hns.2).1
          obtain ⟨e, g₁, hrun, hnodes, h₁⟩ := h.edge hns.1 hm a
          have hfind : g₁.find? = d.graph.find? := by
            funext u
            rw [FlowGraph.find?, FlowGraph.find?, hnodes]
          have hrest : (w :: vs).map g₁.find? = (m :: ns).map some := by rw [hfind, hns.2]
          obtain ⟨g, hrun', h'⟩ := ih h₁ hrest
          refine ⟨g, ?_, ?_⟩
          · simp only [Draft.chain, hrun, bind, Except.bind]
            exact hrun'
          · simp only [Content.append_assoc] at h'
            exact h'

/-- Attributes laid over those of a node, which is marked where they say so. -/
theorem described (h : d.Follows name x) {v : Value} {a : Attributes} {n : NodeId}
    {ms : List (NodeId × Location)} (hn : d.graph.find? v = some n)
    (hmarked : Marked d.marks ms n (SaysEntry a)) :
    Follows name { d with graph := d.graph.updateAttributes n (·.update a), marks := ms }
      { x with content := x.content ++ ⟨[], [(v, a)], [], []⟩ } := by
  have hmem := FlowGraph.mem_of_find hn
  have hwf := h.wellFormed.updateAttributes n (·.update a)
  have hids : (d.graph.updateAttributes n (·.update a)).ids = d.graph.ids :=
    FlowGraph.ids_updateAttributes
  have hmentions : (x.content ++ ⟨[], [(v, a)], [], []⟩).mentions = x.content.mentions :=
    List.append_nil _
  refine ⟨hwf, h.name_eq, ?_, h.scope, h.outer, h.textual,
    h.depicts.updateAttributes h.wellFormed hn a, ?_, ?_, hmarked.nodup h.marks_nodup, ?_⟩
  · rw [hids]
    exact h.entry
  · intro l hl
    rw [hmentions]
    rcases List.mem_append.1 hl with hl | hl
    · exact h.listed l hl
    · rw [List.mem_singleton.1 hl]
      exact h.depicts.mentioned hn
  · rw [Content.Clashes, hmentions]
    exact h.clear
  · have hlabel := fun m hm =>
      FlowGraph.label_updateAttributes (n := n) (m := m) (f := (·.update a)) h.wellFormed hm
    have hfind : (d.graph.updateAttributes n (·.update a)).find? v = some n := by
      refine FlowGraph.find?_eq_some hwf (hids ▸ hmem) ?_
      rw [hlabel n hmem, FlowGraph.key_of_find h.wellFormed hn]
    refine hmarked.mem_iff h.mem_marks (fun m hm => ⟨hids ▸ hm, hlabel m hm⟩) ?_ hwf hfind
      fun w => Content.marks_list
    intro m hm hnone
    exact absurd (hids ▸ hm) hnone

theorem describe (h : d.Follows name x) (v : Value) (l : Location) {a : Attributes}
    (ha : a.Textual) : ∃ d', d.obey limit (.describes v l a) = .ok d' ∧
      d'.Follows name (x.add (.describes v l a)) := by
  cases hf : d.graph.find? v with
  | none =>
    refine ⟨d, ?_, ?_⟩
    · simp only [obey, hf]
    · simp only [Account.add]
      rw [if_neg (h.depicts.unmentioned hf)]
      exact h
  | some n =>
    obtain ⟨⟨n, b⟩, hb, rfl⟩ := List.mem_map.1 (FlowGraph.mem_of_find hf)
    have hblock : (d.graph.updateAttributes n (·.update a)).block? n =
        some { b with attributes := b.attributes.update a } :=
      (h.wellFormed.updateAttributes n _).block_eq (FlowGraph.mem_nodes_updateAttributes hb)
    obtain ⟨ms, hrun, hmarked⟩ := markWhere_spec
      (d := { d with graph := d.graph.updateAttributes n (·.update a) }) l hblock ha
      fun w hw => Attributes.get?_update_of_some hw
    refine ⟨{ d with graph := d.graph.updateAttributes n (·.update a), marks := ms }, ?_, ?_⟩
    · simp only [obey, hf]
      exact hrun
    · simp only [Account.add]
      rw [if_pos (h.depicts.mentioned hf)]
      exact h.described hf hmarked

theorem edges (h : d.Follows name x) (ends : List (Value × Location)) (a : Attributes) :
    ((x.add (.edges ends a)).content.Clashes ∧ d.obey limit (.edges ends a) = .error .reserved) ∨
    ∃ d', d.obey limit (.edges ends a) = .ok d' ∧ d'.Follows name (x.add (.edges ends a)) := by
  have hadd : x.add (.edges ends a) = { x.mentionAll (ends.map (·.1)) with
      content := (x.mentionAll (ends.map (·.1))).content ++
        ⟨[], [], pathEdges (ends.map (·.1)) (x.scope.edge.update a), []⟩ } := by
    rw [Account.mentionAll_eq]
    simp only [Account.add, Statement.content, Content.append_assoc, List.map_map]
    congr 1
    ext1 <;> simp [Function.comp_def]
  rcases h.nodes ends with ⟨hclash, hrun⟩ | ⟨ns, d', hrun, h', hns, -⟩
  · refine .inl ⟨?_, ?_⟩
    · rw [hadd, Content.Clashes, Content.mentions_append, List.append_nil]
      exact hclash
    · simp only [Draft.obey, hrun]
      rfl
  · obtain ⟨g, hchain, hg⟩ := h'.chain hns (x.scope.edge.update a)
    have hscope : d'.scope = x.scope := by
      rw [h'.scope, Account.mentionAll_eq]
    refine .inr ⟨{ d' with graph := g }, ?_, hadd ▸ hg⟩
    simp only [Draft.obey, hrun, bind, Except.bind, hscope, hchain]
    rfl

/-- One clause is obeyed, unless it would make a node with a reserved key or there is no room for the
subgraph that it opens. -/
theorem obey (h : d.Follows name x) {c : Clause} (hc : c.Textual)
    (hroom : ¬ (c = .opens ∧ limit ≤ x.outer.length)) :
    ((x.add c).content.Clashes ∧ d.obey limit c = .error .reserved) ∨
    ∃ d', d.obey limit c = .ok d' ∧ d'.Follows name (x.add c) := by
  obtain ⟨hscope, houter⟩ := List.forall_mem_cons.1 h.textual
  cases c with
  | graphAttributes a =>
    refine .inr ⟨_, rfl, h.graph [] [a] { h.wellFormed with } rfl rfl rfl
      (h.depicts.edit [] [a] rfl ?_ rfl)⟩
    rw [List.append_nil]
    exact h.depicts.edges
  | nodeDefaults a =>
    refine .inr ⟨_, rfl, { h with scope := ?_, textual := ?_ }⟩
    · simp only [Account.add, h.scope]
    · exact List.forall_mem_cons.2 ⟨hscope.update hc, houter⟩
  | edgeDefaults a =>
    refine .inr ⟨_, rfl, { h with scope := ?_, textual := ?_ }⟩
    · simp only [Account.add, h.scope]
    · exact List.forall_mem_cons.2 ⟨hscope, houter⟩
  | opens =>
    have hlt : d.outer.length < limit := by
      rw [h.outer]
      exact Nat.lt_of_not_le fun hle => hroom ⟨rfl, hle⟩
    refine .inr ⟨_, if_pos hlt, { h with outer := ?_, textual := ?_ }⟩
    · simp only [Account.add, h.scope, h.outer]
    · exact List.forall_mem_cons.2 ⟨hscope, h.textual⟩
  | closes =>
    have hstack := h.outer
    cases hx : x.outer with
    | nil =>
      rw [hx] at hstack
      refine .inr ⟨d, by simp only [Draft.obey, hstack], ?_⟩
      simp only [Account.add, hx]
      exact h
    | cons σ outer =>
      rw [hx] at hstack houter
      refine .inr ⟨{ d with scope := σ, outer := outer }, by simp only [Draft.obey, hstack], ?_⟩
      simp only [Account.add, hx]
      exact { h with scope := rfl, outer := rfl, textual := houter }
  | appears v l =>
    rcases h.node v l with ⟨hclash, hrun⟩ | ⟨n, d', hrun, h', -, -⟩
    · refine .inl ⟨hclash, ?_⟩
      simp only [Draft.obey, hrun]
      rfl
    · refine .inr ⟨d', ?_, h'⟩
      simp only [Draft.obey, hrun]
      rfl
  | describes v l a => exact .inr (h.describe v l hc)
  | edges ends a => exact h.edges ends a

/-- Clauses are obeyed up to the first that would make a node with a reserved key or for whose
subgraph there is no room. -/
theorem obeyAll (h : d.Follows name x) (hlimit : x.outer.length ≤ limit)
    {cs : List Clause} (hcs : ∀ c ∈ cs, c.Textual) :
    ((x.addAll (reached limit x.outer.length cs)).content.Clashes ∧
      d.obeyAll limit cs = .error .reserved) ∨
    (¬ (x.addAll (reached limit x.outer.length cs)).content.Clashes ∧
      limit < deepest x.outer.length cs ∧ d.obeyAll limit cs = .error .tooDeep) ∨
    deepest x.outer.length cs ≤ limit ∧
      ∃ d', d.obeyAll limit cs = .ok d' ∧ d'.Follows name (x.addAll cs) := by
  induction cs generalizing d x with
  | nil => exact .inr (.inr ⟨hlimit, d, rfl, h⟩)
  | cons c cs ih =>
    rw [List.forall_mem_cons] at hcs
    rw [reached, deepest]
    by_cases hroom : c = .opens ∧ limit ≤ x.outer.length
    · obtain ⟨rfl, hle⟩ := hroom
      have hdeep : limit < deepest (Clause.opens.depth x.outer.length) cs :=
        (Nat.lt_succ_of_le hle).trans_le (le_deepest _ _)
      have hstop : d.obey limit .opens = .error .tooDeep := by
        rw [← h.outer] at hle
        exact if_neg (Nat.not_lt.2 hle)
      refine .inr (.inl ⟨?_, lt_max_of_lt_right hdeep, ?_⟩)
      · rw [if_pos ⟨rfl, hle⟩]
        exact h.clear
      · simp only [Draft.obeyAll, hstop]
        rfl
    · rw [if_neg hroom, Account.addAll_cons, Account.addAll_cons]
      rcases h.obey hcs.1 hroom with ⟨hclash, hrun⟩ | ⟨d₁, hrun, h₁⟩
      · refine .inl ⟨Account.clashes_addAll hclash _, ?_⟩
        simp only [Draft.obeyAll, hrun]
        rfl
      · have hlength := x.length_outer_add c
        have hlimit₁ : (x.add c).outer.length ≤ limit := by
          rw [hlength]
          cases c <;> simp only [Clause.depth] <;> simp at hroom <;> omega
        have hrest := ih h₁ hlimit₁ hcs.2
        have hstep : d.obeyAll limit (c :: cs) = d₁.obeyAll limit cs := by
          simp only [Draft.obeyAll, hrun, bind, Except.bind]
        rw [hlength] at hrest
        rw [hstep]
        rcases hrest with hclash | ⟨hclear, hdeep, hrun'⟩ | ⟨hdeep, hok⟩
        · exact .inl hclash
        · exact .inr (.inl ⟨hclear, lt_max_of_lt_right hdeep, hrun'⟩)
        · exact .inr (.inr ⟨max_le hlimit hdeep, hok⟩)

end Follows

end Draft

end Structuring.Dot
