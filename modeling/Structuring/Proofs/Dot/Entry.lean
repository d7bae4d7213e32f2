import Structuring.Proofs.Dot.Reader

/-!
# The entry of a described graph

The entry is the only marked node, else the only node labelled `entry`, else the first. Labels are
looked up in the attributes that the nodes have in the end, but a mark stays when the attribute that
made it is overwritten.

* `EntryRule` — how the entry is decided where some blocks are marked.
* `Draft.Follows.decided` — the entry of a draft, decided by the marks of its account.
* `Content.marks_of_saysEntry` — what says true in the end has been marked.
* `parse_entry` — the entry of the graph of a text.
-/

namespace Structuring.Dot

/-! ## The rule -/

/-- Whether the attribute `label` of a block is the word `entry`. -/
def isLabelledEntry (b : Block) : Bool :=
  b.attributes.get? (.text "label") |>.any (·.same (.text "entry"))

/-- What is decided about the entry among some blocks: the only marked one, else the only one that is
labelled `entry`, else the first. Several of one kind are an error. -/
inductive EntryRule (marked : Block → Bool) (bs : List Block) : Except Fault Block → Prop where
  | marked {b : Block} (h : bs.filter marked = [b]) : EntryRule marked bs (.ok b)
  | manyMarked {labels : List Value} (h : 1 < (bs.filter marked).length)
      (hlabels : labels.Perm ((bs.filter marked).map (·.label))) :
      EntryRule marked bs (.error (.manyEntries labels))
  | labelled {b : Block} (hm : bs.filter marked = []) (h : bs.filter isLabelledEntry = [b]) :
      EntryRule marked bs (.ok b)
  | manyLabelled (hm : bs.filter marked = []) (h : 1 < (bs.filter isLabelledEntry).length) :
      EntryRule marked bs
        (.error (.manyLabelledEntry ((bs.filter isLabelledEntry).map (·.label))))
  | first {b : Block} (hm : bs.filter marked = []) (hl : bs.filter isLabelledEntry = [])
      (h : bs.head? = some b) : EntryRule marked bs (.ok b)

theorem EntryRule.congr {p q : Block → Bool} {bs : List Block} {o : Except Fault Block}
    (h : EntryRule p bs o) (hpq : ∀ b ∈ bs, p b = q b) : EntryRule q bs o := by
  have hfilter : bs.filter p = bs.filter q := List.filter_congr hpq
  cases h with
  | marked h => exact .marked (hfilter ▸ h)
  | manyMarked h hlabels => exact .manyMarked (hfilter ▸ h) (hfilter ▸ hlabels)
  | labelled hm h => exact .labelled (hfilter ▸ hm) h
  | manyLabelled hm h => exact .manyLabelled (hfilter ▸ hm) h
  | first hm hl h => exact .first (hfilter ▸ hm) hl h

namespace Content

variable {c : Content}

/-- What the nodes carry in the end, in the order of their first mentions. -/
def blocks (c : Content) : List Block := (firsts c.mentions).map c.block

instance (c : Content) (label : Value) : Decidable (c.Marks label) :=
  inferInstanceAs (Decidable ((∃ m ∈ _, _) ∨ ∃ l ∈ _, _))

/-- A result is a graph with the content whose entry has the block that is decided on, or the error
that is decided on. -/
def Decided (c : Content) (marked : Block → Bool) (result : Except ReadError FlowGraph) : Prop :=
  ∃ o, EntryRule marked c.blocks o ∧ match o with
    | .ok b => ∃ g n, result = .ok g ∧ c.Depicts g ∧ g.entry = some n ∧ g.block? n = some b
    | .error f => ∃ l, result = .error (.text ⟨f, l⟩)

theorem marks_of_saysEntry {b : Block} (hb : b ∈ c.blocks) (h : SaysEntry b.attributes) :
    c.Marks b.label := by
  obtain ⟨m, hm, rfl⟩ := List.mem_map.1 hb
  obtain ⟨v, hv, htrue⟩ := h
  rw [block, Attributes.get?_foldl_update] at hv
  cases hlist : (c.listsOf m.1).reverse.findSome? (·.get? (.text "entry")) with
  | some w =>
    rw [hlist, Option.some_or] at hv
    obtain ⟨a, ha, hw⟩ := List.exists_of_findSome?_eq_some hlist
    obtain ⟨l, hl, rfl⟩ := List.mem_map.1 (List.mem_reverse.1 ha)
    obtain ⟨hl, hsame⟩ := List.mem_filter.1 hl
    exact .inr ⟨l, hl, Value.same_iff.1 hsame, v, hw.trans hv, htrue⟩
  | none =>
    rw [hlist, Option.none_or] at hv
    exact .inl ⟨m, hm, rfl, v, hv, htrue⟩

end Content

/-! ## Drafts -/

namespace Draft

variable {name : Option Value} {d : Draft} {x : Account} {l : Location}

theorem settleEntry_of_manyMarks (h : 1 < d.marks.length) : ∃ l', d.settleEntry l =
    .error ⟨.manyEntries (d.marks.map fun m => d.graph.label m.1), l'⟩ := by
  unfold settleEntry
  split
  · next l' _ _ => exact ⟨l', rfl⟩
  · next hmarks =>
    rw [hmarks] at h
    cases h
    contradiction
  · next hmarks =>
    rw [hmarks] at h
    cases h

theorem settleEntry_of_manyLabels (hmarks : d.marks = []) (h : 1 < (labelledEntry d.graph).length) :
    d.settleEntry l = .error ⟨.manyLabelledEntry ((labelledEntry d.graph).map (·.2.label)), l⟩ := by
  unfold settleEntry
  rw [hmarks]
  simp only
  split
  · next hnone =>
    rw [hnone] at h
    cases h
  · next hone =>
    rw [hone] at h
    cases h
    contradiction
  · rfl

namespace Follows

theorem filter_blocks (hd : d.Follows name x) (p : Block → Bool) :
    x.content.blocks.filter p = (d.graph.nodes.filter (p ·.2)).map (·.2) := by
  rw [Content.blocks, ← hd.depicts.blocks, List.filter_map]
  rfl

/-- The marked nodes are those whose labels are marked, in the order of their marks. -/
theorem marks_perm (hd : d.Follows name x) : (d.marks.map (·.1)).Perm
    ((d.graph.nodes.filter (x.content.Marks ·.2.label)).map (·.1)) := by
  have hnodup :
      ((d.graph.nodes.filter (x.content.Marks ·.2.label)).map (·.1)).Nodup :=
    hd.wellFormed.ids_nodup.sublist (List.filter_sublist.map _)
  refine (List.perm_ext_iff_of_nodup hd.marks_nodup hnodup).2 fun n => ?_
  rw [hd.mem_marks]
  constructor
  · rintro ⟨hn, hmark⟩
    obtain ⟨⟨n, b⟩, hb, rfl⟩ := List.mem_map.1 hn
    rw [hd.wellFormed.label_eq hb] at hmark
    exact List.mem_map_of_mem (List.mem_filter.2 ⟨hb, decide_eq_true hmark⟩)
  · intro hn
    obtain ⟨⟨n, b⟩, hb, rfl⟩ := List.mem_map.1 hn
    obtain ⟨hb, hmark⟩ := List.mem_filter.1 hb
    rw [hd.wellFormed.label_eq hb]
    exact ⟨List.mem_map_of_mem hb, of_decide_eq_true hmark⟩

theorem labels_perm (hd : d.Follows name x) : (d.marks.map fun m => d.graph.label m.1).Perm
    ((x.content.blocks.filter (x.content.Marks ·.label)).map (·.label)) := by
  have hlabels : ((d.graph.nodes.filter (x.content.Marks ·.2.label)).map (·.1)).map d.graph.label =
      (x.content.blocks.filter (x.content.Marks ·.label)).map (·.label) := by
    rw [hd.filter_blocks, List.map_map, List.map_map]
    exact List.map_congr_left fun e he => hd.wellFormed.label_eq (List.mem_filter.1 he).1
  have hperm := hd.marks_perm.map d.graph.label
  rwa [hlabels, List.map_map] at hperm

theorem decided_ok (hd : d.Follows name x) {marked : Block → Bool} {n : NodeId} {b : Block}
    (hmem : (n, b) ∈ d.graph.nodes) (hrule : EntryRule marked x.content.blocks (.ok b))
    (hrun : d.settleEntry l = .ok { d.graph with entry := some n }) :
    x.content.Decided marked ((d.settleEntry l).mapError .text) := by
  refine ⟨.ok b, hrule, { d.graph with entry := some n }, n, by rw [hrun]; rfl, ?_, rfl,
    hd.wellFormed.block_eq hmem⟩
  exact ⟨hd.depicts.blocks, hd.depicts.edges, hd.depicts.attributes⟩

theorem decided_of_marks (hd : d.Follows name x) {e : NodeId × Block} {es : List (NodeId × Block)}
    (h : d.graph.nodes.filter (x.content.Marks ·.2.label) = e :: es) :
    x.content.Decided (x.content.Marks ·.label) ((d.settleEntry l).mapError .text) := by
  have hmarks := hd.marks_perm
  have hblocks := hd.filter_blocks (x.content.Marks ·.label)
  rw [h] at hmarks hblocks
  cases es with
  | nil =>
    have hmem : e ∈ d.graph.nodes := (List.mem_filter.1 (h ▸ List.mem_cons_self)).1
    exact hd.decided_ok hmem (.marked hblocks) (settleEntry_of_marks (List.perm_singleton.1 hmarks))
  | cons e' es =>
    have hmany : 1 < d.marks.length := by
      rw [← List.length_map (·.1), hmarks.length_eq]
      simp
    obtain ⟨l', hrun⟩ := settleEntry_of_manyMarks (l := l) hmany
    refine ⟨_, .manyMarked ?_ hd.labels_perm, l', by rw [hrun]; rfl⟩
    rw [hblocks]
    simp

/-- There is a first node, and it is the entry as long as nothing else is decided on. -/
theorem exists_first (hd : d.Follows name x) (hne : x.content.mentions ≠ []) :
    ∃ n b, (n, b) ∈ d.graph.nodes ∧ x.content.blocks.head? = some b ∧ d.graph.entry = some n := by
  obtain ⟨m, ms, hms⟩ := List.exists_cons_of_ne_nil hne
  have hblocks := hd.depicts.blocks
  rw [hms, firsts, List.map_cons] at hblocks
  obtain ⟨⟨n, b⟩, es, hnodes, hb, -⟩ := List.map_eq_cons_iff.1 hblocks
  refine ⟨n, b, hnodes ▸ List.mem_cons_self, ?_, ?_⟩
  · rw [Content.blocks, hms, firsts, List.map_cons, ← hb]
    rfl
  · rw [hd.entry, Digraph.ids, hnodes]
    rfl

theorem decided_of_labels (hd : d.Follows name x) (hne : x.content.mentions ≠ [])
    (h : d.graph.nodes.filter (x.content.Marks ·.2.label) = []) :
    x.content.Decided (x.content.Marks ·.label) ((d.settleEntry l).mapError .text) := by
  have hmarks := hd.marks_perm
  have hblocks := hd.filter_blocks (x.content.Marks ·.label)
  rw [h] at hmarks hblocks
  have hnone : d.marks = [] := List.map_eq_nil_iff.1 (List.perm_nil.1 hmarks)
  have hlabelled : x.content.blocks.filter isLabelledEntry = (labelledEntry d.graph).map (·.2) :=
    hd.filter_blocks isLabelledEntry
  rcases hes : labelledEntry d.graph with - | ⟨e, - | ⟨e', es⟩⟩
  · obtain ⟨n, b, hmem, hhead, hentry⟩ := hd.exists_first hne
    rw [hes] at hlabelled
    refine hd.decided_ok hmem (.first hblocks hlabelled hhead) ?_
    refine settleEntry_of_labels hd.wellFormed hnone (fun e he => ?_) fun _ => hentry
    rw [hes] at he
    cases he
  · have hmem : e ∈ d.graph.nodes := (List.mem_filter.1 (hes ▸ List.mem_cons_self)).1
    have hone : ∀ e' ∈ labelledEntry d.graph, e'.1 = e.1 := by
      rw [hes]
      exact fun e' he' => congrArg _ (List.mem_singleton.1 he')
    have hsome : labelledEntry d.graph ≠ [] := hes ▸ List.cons_ne_nil e []
    rw [hes] at hlabelled
    exact hd.decided_ok hmem (.labelled hblocks hlabelled)
      (settleEntry_of_labels hd.wellFormed hnone hone fun hnil => absurd hnil hsome)
  · have hmany : 1 < (labelledEntry d.graph).length := by
      rw [hes]
      simp
    have hlabels : (x.content.blocks.filter isLabelledEntry).map (·.label) =
        (labelledEntry d.graph).map (·.2.label) := by
      rw [hlabelled, List.map_map]
      rfl
    refine ⟨_, .manyLabelled hblocks ?_, l, ?_⟩
    · rw [hlabelled, List.length_map]
      exact hmany
    · rw [settleEntry_of_manyLabels hnone hmany, hlabels]
      rfl

theorem decided (hd : d.Follows name x) (hne : x.content.mentions ≠ []) (l : Location) :
    x.content.Decided (x.content.Marks ·.label) ((d.settleEntry l).mapError .text) := by
  cases h : d.graph.nodes.filter (x.content.Marks ·.2.label) with
  | nil => exact hd.decided_of_labels hne h
  | cons e es => exact hd.decided_of_marks h

end Follows

end Draft

/-! ## Texts -/

/-- The entry of a text with nodes is decided by its marks: a node is marked where its first mention
or one of its attribute lists says true for `entry`. What says true in the end has been marked; if
nothing else has, the entry is decided by the attributes that the nodes have in the end. -/
theorem parse_entry (limit : Nat) (file : Option String) (text : String) (tag : Nat)
    {name : Option Value} {b : Body} (hlex : (lex file text).unroll.2 = none)
    (hb : IsDescription name b (lex file text).unroll.1) (hdepth : b.depth ≤ limit)
    (hclear : ¬ (b.content ⟨∅, ∅⟩).Clashes) (hne : (b.content ⟨∅, ∅⟩).mentions ≠ []) :
    (b.content ⟨∅, ∅⟩).Decided ((b.content ⟨∅, ∅⟩).Marks ·.label) (parse limit file text tag) ∧
    (∀ k ∈ (b.content ⟨∅, ∅⟩).blocks, SaysEntry k.attributes → (b.content ⟨∅, ∅⟩).Marks k.label) ∧
    ((∀ k ∈ (b.content ⟨∅, ∅⟩).blocks,
        (b.content ⟨∅, ∅⟩).Marks k.label → SaysEntry k.attributes) →
      (b.content ⟨∅, ∅⟩).Decided (SaysEntry ·.attributes) (parse limit file text tag)) := by
  have hmarks : (b.content ⟨∅, ∅⟩).Decided ((b.content ⟨∅, ∅⟩).Marks ·.label)
      (parse limit file text tag) := by
    obtain ⟨l, hread⟩ := read_description hlex hb
    rw [← accountOf_description hlex hb hdepth] at hclear hne ⊢
    rw [← depthOf_description hlex hb] at hdepth
    rcases parse_spec limit file text tag with
      ⟨hclash, -⟩ | ⟨-, ⟨hdeep, -⟩ | ⟨-, ⟨e, ho, -⟩ | ⟨l', d, -, -, hd, hparse⟩⟩⟩
    · exact absurd hclash hclear
    · exact absurd hdepth (Nat.not_le.2 hdeep)
    · rw [hread] at ho
      cases ho
    · rw [hparse]
      exact hd.decided hne l'
  refine ⟨hmarks, fun k hk => Content.marks_of_saysEntry hk, fun hstale => ?_⟩
  obtain ⟨o, hrule, hresult⟩ := hmarks
  refine ⟨o, hrule.congr fun k hk => decide_eq_decide.2 ⟨hstale k hk, ?_⟩, hresult⟩
  exact Content.marks_of_saysEntry hk

/-- A text with a graph has a description, and its account says what the description says. -/
theorem exists_description (limit : Nat) (file : Option String) (text : String) (tag : Nat)
    (h : (parse limit file text tag).toOption.isSome = true) : ∃ name b,
      (lex file text).unroll.2 = none ∧ IsDescription name b (lex file text).unroll.1 ∧
      b.depth ≤ limit ∧ b.content ⟨∅, ∅⟩ = (accountOf limit file text).content := by
  cases hparse : parse limit file text tag with
  | error e =>
    rw [hparse] at h
    cases h
  | ok g =>
    obtain ⟨hdepth, l, ho⟩ := read_of_parse hparse
    obtain ⟨hlex, b, hb, -⟩ := read_eq_ok ho
    rw [depthOf_description hlex hb] at hdepth
    exact ⟨_, b, hlex, hb, hdepth, (accountOf_description hlex hb hdepth).symm⟩

def markedText : String := "digraph \x7b b -> a; a [entry=True]; a -> b \x7d"

theorem markedText_entry : ∃ name b, (lex none markedText).unroll.2 = none ∧
    IsDescription name b (lex none markedText).unroll.1 ∧ b.depth ≤ 100 ∧
    ¬ (b.content ⟨∅, ∅⟩).Clashes ∧ (b.content ⟨∅, ∅⟩).mentions ≠ [] ∧
    (b.content ⟨∅, ∅⟩).Decided ((b.content ⟨∅, ∅⟩).Marks ·.label) (parse 100 none markedText 0) := by
  obtain ⟨name, b, hlex, hb, hdepth, hcontent⟩ :=
    exists_description 100 none markedText 0 (by decide +kernel)
  have hclear : ¬ (b.content ⟨∅, ∅⟩).Clashes := by
    rw [hcontent]
    decide +kernel
  have hne : (b.content ⟨∅, ∅⟩).mentions ≠ [] := by
    rw [hcontent]
    decide +kernel
  exact ⟨name, b, hlex, hb, hdepth, hclear, hne,
    (parse_entry 100 none markedText 0 hlex hb hdepth hclear hne).1⟩

/-- A text in which the second node is first marked as the entry, and then said not to be it. -/
def remarkedText : String := "digraph \x7b b -> a; a [entry=true]; a [entry=false]; a -> b \x7d"

/-- In the end no node is said to be the entry, but it is not the first node that becomes it. -/
theorem remarkedText_entry : ∃ name b, IsDescription name b (lex none remarkedText).unroll.1 ∧
    ¬ (b.content ⟨∅, ∅⟩).Clashes ∧ (b.content ⟨∅, ∅⟩).mentions ≠ [] ∧
    ¬ (b.content ⟨∅, ∅⟩).Decided (SaysEntry ·.attributes) (parse 100 none remarkedText 0) := by
  have hentry : ((parse 100 none remarkedText 0).toOption.bind fun g => g.entry.bind g.block?).map
      (·.label) = some (.text "a") := by decide +kernel
  obtain ⟨name, b, -, hb, -, hcontent⟩ :=
    exists_description 100 none remarkedText 0 (by decide +kernel)
  refine ⟨name, b, hb, by rw [hcontent]; decide +kernel, by rw [hcontent]; decide +kernel, ?_⟩
  rw [hcontent]
  have hmarked : (accountOf 100 none remarkedText).content.blocks.filter
      (SaysEntry ·.attributes) = [] := by decide +kernel
  have hlabelled : (accountOf 100 none remarkedText).content.blocks.filter isLabelledEntry = [] := by
    decide +kernel
  have hfirst : (accountOf 100 none remarkedText).content.blocks.head?.map (·.label) =
      some (.text "b") := by decide +kernel
  rintro ⟨o, hrule, hresult⟩
  cases hrule with
  | marked h | manyMarked h _ => simp [hmarked] at h
  | labelled _ h | manyLabelled _ h => simp [hlabelled] at h
  | first _ _ hhead =>
    obtain ⟨g, n, hparse, -, hn, hblock⟩ := hresult
    rw [hhead] at hfirst
    rw [hparse, Except.toOption, Option.bind_some, hn, Option.bind_some, hblock] at hentry
    exact absurd (hfirst.symm.trans hentry) (by decide)

end Structuring.Dot
