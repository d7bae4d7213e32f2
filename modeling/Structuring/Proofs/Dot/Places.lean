import Structuring.Proofs.Dot.Cut
import Structuring.Proofs.Dot.Reader

/-!
# Where errors are reported

Every error of a description is reported at the place of a token, of the end of the text, or of the
first character where no token starts: reading only hands on the places that lexical analysis gave.

* `Stream.Located` — all places in a stream have a property.
* `Sited` — a result, or an error that is reported at a place with a property.
* `read_located`, `settleEntry_sited` — reading a stream, and settling the entry.
* `IsPlace` — the places of a text.
* `error_isPlace` — the errors of a text are reported at places of it.
-/

namespace Structuring.Dot

variable {P : Location → Prop} {s r : Stream} {α β : Type}

/-! ## Streams and results -/

def Stream.Located (P : Location → Prop) : Stream → Prop
  | .done l => P l
  | .broken e => P e.location
  | .token t rest => P t.location ∧ rest.Located P

def Sited (P : Location → Prop) (Q : α → Prop) : Except Error α → Prop
  | .ok a => Q a
  | .error e => P e.location

section

variable {Q : α → Prop} {R : β → Prop} {x : Except Error α} {a : α} {e : Error}

theorem Sited.ok (h : Sited P Q x) (hx : x = .ok a) : Q a := by
  subst hx
  exact h

theorem Sited.error (h : Sited P Q x) (hx : x = .error e) : P e.location := by
  subst hx
  exact h

theorem Sited.map {f : α → β} (h : Sited P Q x) (hf : ∀ a, Q a → R (f a)) : Sited P R (x.map f) := by
  cases x with
  | ok a => exact hf a h
  | error e => exact h

end

namespace Stream.Located

theorem after? {y : Symbol} (hs : s.Located P) (h : s.after? y = some r) : r.Located P := by
  obtain ⟨t, -, rfl⟩ := Stream.after?_eq_some h
  exact hs.2

theorem skip (hs : s.Located P) (y : Symbol) : (s.skip y).Located P := by
  unfold Stream.skip
  split
  · split
    · exact hs.2
    · exact hs
  · exact hs

theorem fail {Q : α → Prop} (hs : s.Located P) (f : String → Fault) : Sited P Q (s.fail f) := by
  cases s with
  | done l => exact hs
  | broken e => exact hs
  | token t rest => exact hs.1

theorem peek_map {Q : α → Prop} {a : α} (hs : s.Located P) (ha : Q a) :
    Sited P Q (s.peek.map fun _ => a) := by
  cases s with
  | done l => exact ha
  | broken e => exact hs
  | token t rest => exact ha

end Stream.Located

/-! ## The parts of a statement -/

theorem joined_sited (text : String) (hs : s.Located P) :
    Sited P (fun p => p.2.Located P) (joined text s) := by
  fun_induction joined text s with
  | case1 => exact hs
  | case2 text _ _ v _ rest ih => exact ih hs.2.2
  | case3 text _ _ rest => exact hs.2.fail _
  | case4 => exact hs

theorem identifier_sited (hs : s.Located P) :
    Sited P (fun p => p.2.Located P) (identifier s) := by
  unfold identifier
  split
  · exact hs.2
  · exact (joined_sited _ hs.2).map fun p hp => hp
  · exact hs.fail _

theorem ports_sited (hs : s.Located P) : Sited P (Stream.Located P) (ports s) := by
  fun_induction ports s with
  | case1 s _ => exact hs.peek_map hs
  | case2 s s' ha e hi => exact (identifier_sited (hs.after? ha)).error hi
  | case3 s s' ha v r hi ih => exact ih ((identifier_sited (hs.after? ha)).ok hi)

theorem assigned_sited (hs : s.Located P) : Sited P (fun p => p.2.Located P) (assigned s) := by
  unfold assigned
  split
  · next ha => exact identifier_sited (hs.after? ha)
  · exact hs

theorem separator_located (hs : s.Located P) : (separator s).Located P := by
  unfold separator
  split
  · next ha => exact hs.after? ha
  · exact hs.skip _

theorem attributeList_sited (a : Attributes) (hs : s.Located P) :
    Sited P (fun p => p.2.Located P) (attributeList a s) := by
  fun_induction attributeList a s with
  | case1 a s r ha => exact hs.after? ha
  | case2 a s _ e hk => exact (identifier_sited hs).error hk
  | case3 a s _ k r hk e hv => exact (assigned_sited ((identifier_sited hs).ok hk)).error hv
  | case4 a s _ k r₁ hk v r₂ hv ih =>
    exact ih (separator_located ((assigned_sited ((identifier_sited hs).ok hk)).ok hv))

theorem attributeLists_sited (a : Attributes) (hs : s.Located P) :
    Sited P (fun p => p.2.Located P) (attributeLists a s) := by
  fun_induction attributeLists a s with
  | case1 a s _ => exact hs.peek_map hs
  | case2 a s s' ha e hl => exact (attributeList_sited a (hs.after? ha)).error hl
  | case3 a s s' ha b r hl ih => exact ih ((attributeList_sited a (hs.after? ha)).ok hl)

theorem edgeEnd_sited (hs : s.Located P) :
    Sited P (fun p => P p.1.2 ∧ p.2.Located P) (edgeEnd s) := by
  unfold edgeEnd
  split
  · next t rest =>
    split
    · exact hs.1
    · split
      · next hi => exact (identifier_sited hs).error hi
      · next hi => exact (ports_sited ((identifier_sited hs).ok hi)).map fun r hr => ⟨hs.1, hr⟩
  · exact hs.fail _

theorem edgeEnds_sited (hs : s.Located P) :
    Sited P (fun p => (∀ e ∈ p.1, P e.2) ∧ p.2.Located P) (edgeEnds s) := by
  fun_induction edgeEnds s with
  | case1 => exact hs.1
  | case2 t rest _ _ e he => exact (edgeEnd_sited hs.2).error he
  | case3 t rest _ _ v r he ih =>
    obtain ⟨hv, hr⟩ := (edgeEnd_sited hs.2).ok he
    exact (ih hr).map fun p hp => ⟨List.forall_mem_cons.2 ⟨hv, hp.1⟩, hp.2⟩
  | case4 => exact ⟨List.forall_mem_nil _, hs⟩
  | case5 => exact hs
  | case6 => exact ⟨List.forall_mem_nil _, hs⟩

theorem optionalIdentifier_sited (hs : s.Located P) :
    Sited P (fun p => p.2.Located P) (optionalIdentifier s) := by
  unfold optionalIdentifier
  split
  · exact hs
  · exact hs
  · split
    · exact (identifier_sited hs).map fun p hp => hp
    · exact hs

theorem openBrace_sited (hs : s.Located P) : Sited P (Stream.Located P) (openBrace s) := by
  unfold openBrace
  split
  · next ha => exact hs.after? ha
  · exact hs.fail _

theorem subgraphBrace_sited (hs : s.Located P) : Sited P (Stream.Located P) (subgraphBrace s) := by
  unfold subgraphBrace
  split
  · next ho => exact (optionalIdentifier_sited hs).error ho
  · next ho => exact openBrace_sited ((optionalIdentifier_sited hs).ok ho)

theorem afterSubgraph_sited (hs : s.Located P) : Sited P (Stream.Located P) (afterSubgraph s) := by
  unfold afterSubgraph
  split
  · exact hs
  · exact hs
  · split
    · exact hs.1
    · exact hs

/-! ## Clauses -/

def Clause.Located (P : Location → Prop) : Clause → Prop
  | .appears _ l => P l
  | .describes _ l _ => P l
  | .edges ends _ => ∀ e ∈ ends, P e.2
  | _ => True

def Reading.Located (P : Location → Prop) (Q : α → Prop) (x : Reading α) : Prop :=
  (∀ c ∈ x.clauses, c.Located P) ∧ Sited P Q x.outcome

theorem Reading.Located.stop {Q : α → Prop} {e : Error} (h : P e.location) :
    (Reading.stop e : Reading α).Located P Q := ⟨List.forall_mem_nil _, h⟩

theorem Reading.Located.cons {Q : α → Prop} {c : Clause} {x : Reading α} (hc : c.Located P)
    (hx : x.Located P Q) : (x.cons c).Located P Q := ⟨List.forall_mem_cons.2 ⟨hc, hx.1⟩, hx.2⟩

theorem clauses_located (depth : Nat) (hs : s.Located P) :
    (clauses depth s).Located P (Stream.Located P) := by
  fun_induction clauses depth s with
  | case1 e => exact .stop hs
  | case2 depth l => exact .stop hs
  | case3 => exact ⟨List.forall_mem_nil _, hs.2⟩
  | case4 t rest depth _ ih =>
    refine .cons trivial ?_
    split
    · next h => exact .stop ((afterSubgraph_sited hs.2).error h)
    · next r h => exact ih r h (((afterSubgraph_sited hs.2).ok h).skip _)
  | case5 depth t rest _ ih => exact .cons trivial (ih hs.2)
  | case6 depth t rest _ e h => exact .stop ((subgraphBrace_sited hs.2).error h)
  | case7 depth t rest _ r h ih => exact .cons trivial (ih ((subgraphBrace_sited hs.2).ok h))
  | case8 depth t rest _ e h | case10 depth t rest _ e h | case12 depth t rest _ e h =>
    exact .stop ((attributeLists_sited _ hs.2).error h)
  | case9 depth t rest _ a r h ih | case11 depth t rest _ a r h ih | case13 depth t rest _ a r h ih =>
    have hr : r.Located P := (attributeLists_sited _ hs.2).ok h
    exact .cons trivial (ih (hr.skip _))
  | case14 depth t rest e h => exact .stop ((identifier_sited hs).error h)
  | case15 depth t rest v r₁ hv r₂ ha e hw =>
    have hr₁ : r₁.Located P := (identifier_sited hs).ok hv
    exact .stop ((identifier_sited (hr₁.after? ha)).error hw)
  | case16 depth t rest v r₁ hv r₂ ha w r hw _ _ _ _ _ _ _ _ ih =>
    have hr₁ : r₁.Located P := (identifier_sited hs).ok hv
    have hr : r.Located P := (identifier_sited (hr₁.after? ha)).ok hw
    exact .cons trivial (ih (hr.skip _))
  | case17 depth t rest v r₁ hv ha e hp =>
    exact .stop ((ports_sited ((identifier_sited hs).ok hv)).error hp)
  | case18 depth t rest v r₁ hv ha r₂ hp e he =>
    have hr₂ : r₂.Located P := (ports_sited ((identifier_sited hs).ok hv)).ok hp
    exact .stop ((edgeEnds_sited hr₂).error he)
  | case19 depth t rest v r₁ hv ha r₂ hp r₃ he _ _ _ _ _ _ _ _ ih =>
    have hr₂ : r₂.Located P := (ports_sited ((identifier_sited hs).ok hv)).ok hp
    refine .cons hs.1 ?_
    split
    · next h => exact .stop ((attributeLists_sited _ hr₂).error h)
    · next a r h =>
      have hr : r.Located P := (attributeLists_sited _ hr₂).ok h
      exact .cons hs.1 (ih a r h (hr.skip _))
  | case20 depth t rest v r₁ hv ha r₂ hp e es r₃ he e' hl =>
    have hr₂ : r₂.Located P := (ports_sited ((identifier_sited hs).ok hv)).ok hp
    exact .stop ((attributeLists_sited _ ((edgeEnds_sited hr₂).ok he).2).error hl)
  | case21 depth t rest v r₁ hv ha r₂ hp e es r₃ he a r hl _ _ _ _ _ _ _ _ ih =>
    have hr₂ : r₂.Located P := (ports_sited ((identifier_sited hs).ok hv)).ok hp
    obtain ⟨hends, hr₃⟩ := (edgeEnds_sited hr₂).ok he
    have hr : r.Located P := (attributeLists_sited _ hr₃).ok hl
    exact .cons (List.forall_mem_cons.2 ⟨hs.1, hends⟩) (ih (hr.skip _))
  | case22 => exact .stop hs.1

theorem skipKeyword_located (k : Keyword) (hs : s.Located P) : (skipKeyword s k).Located P := by
  unfold skipKeyword
  split
  · split
    · exact hs.2
    · exact hs
  · exact hs

theorem heading_sited (hs : s.Located P) : Sited P (fun p => p.2.Located P) (heading s) := by
  have hskip := skipKeyword_located .strict hs
  unfold heading
  split
  · next heq =>
    rw [heq] at hskip
    exact hskip.1
  · next rest heq =>
    rw [heq] at hskip
    have hname := optionalIdentifier_sited hskip.2
    cases hn : optionalIdentifier rest with
    | error e => exact hname.error hn
    | ok p =>
      have hbrace := openBrace_sited (hname.ok hn)
      cases hb : openBrace p.2 with
      | error e =>
        simp only [bind, Except.bind, hb]
        exact hbrace.error hb
      | ok r =>
        simp only [bind, Except.bind, hb]
        exact hbrace.ok hb
  · exact hskip.fail _

theorem ending_sited (hs : s.Located P) : Sited P P (ending s) := by
  unfold ending
  split
  · exact hs
  · exact hs.fail _

theorem read_located (hs : s.Located P) : (read s).2.Located P P := by
  unfold read
  split
  · next h => exact .stop ((heading_sited hs).error h)
  · next name rest h =>
    obtain ⟨hclauses, hout⟩ := clauses_located 0 ((heading_sited hs).ok h)
    refine ⟨hclauses, ?_⟩
    change Sited P P ((clauses 0 rest).outcome.bind ending)
    cases ho : (clauses 0 rest).outcome with
    | error e => exact hout.error ho
    | ok r => exact ending_sited (hout.ok ho)

/-! ## Marks -/

namespace Draft

variable {d d' : Draft} {l : Location} {limit : Nat}

def Located (P : Location → Prop) (d : Draft) : Prop := ∀ m ∈ d.marks, P m.2

theorem start_located (name : Option Value) (tag : Nat) : (start name tag).Located P := by
  intro m hm
  cases hm

theorem mark_located {n : NodeId} (hd : d.Located P) (hl : P l) (h : d.mark n l = .ok d') :
    d'.Located P := by
  unfold mark at h
  split at h
  · cases h
  · cases h
  · cases h
    split
    · exact List.forall_mem_append.2 ⟨hd, List.forall_mem_singleton.2 hl⟩
    · exact hd

theorem node_located {v : Value} {n : NodeId} (hd : d.Located P) (hl : P l)
    (h : d.node v l = .ok (n, d')) : d'.Located P := by
  unfold node at h
  split at h
  · cases h
    exact hd
  · split at h
    · cases h
    · split at h
      · cases h
      · next g _ =>
        simp only at h
        split at h
        · cases hm : mark { d with graph := g } _ l with
          | error e =>
            rw [hm] at h
            cases h
          | ok d₁ =>
            rw [hm] at h
            cases h
            exact mark_located (d := { d with graph := g }) hd hl hm
        · cases h
          exact hd

theorem nodes_located {ends : List (Value × Location)} {ns : List NodeId} (hd : d.Located P)
    (hends : ∀ e ∈ ends, P e.2) (h : d.nodes ends = .ok (ns, d')) : d'.Located P := by
  induction ends generalizing d ns with
  | nil =>
    cases h
    exact hd
  | cons e ends ih =>
    rw [List.forall_mem_cons] at hends
    cases hn : d.node e.1 e.2 with
    | error x =>
      simp only [nodes, hn, bind, Except.bind] at h
      cases h
    | ok p =>
      cases hns : p.2.nodes ends with
      | error x =>
        simp only [nodes, hn, hns, bind, Except.bind] at h
        cases h
      | ok q =>
        simp only [nodes, hn, hns, bind, Except.bind] at h
        cases h
        exact ih (node_located hd hends.1 hn) hends.2 hns

theorem obey_located {c : Clause} (hd : d.Located P) (hc : c.Located P)
    (h : d.obey limit c = .ok d') : d'.Located P := by
  cases c with
  | graphAttributes a | nodeDefaults a | edgeDefaults a =>
    cases h
    exact hd
  | opens | closes =>
    simp only [obey] at h
    split at h <;> cases h <;> exact hd
  | appears v l =>
    cases hn : d.node v l with
    | error x =>
      simp only [obey, hn] at h
      cases h
    | ok p =>
      simp only [obey, hn] at h
      cases h
      exact node_located hd hc hn
  | describes v l a =>
    simp only [obey] at h
    split at h
    · cases h
      exact hd
    · next n _ =>
      split at h
      · exact mark_located (d := { d with graph := d.graph.updateAttributes n (·.update a) }) hd hc h
      · cases h
        exact hd
  | edges ends a =>
    cases hns : d.nodes ends with
    | error x =>
      simp only [obey, hns, bind, Except.bind] at h
      cases h
    | ok p =>
      simp only [obey, hns, bind, Except.bind] at h
      have hp := nodes_located hd hc hns
      split at h
      · cases h
      · cases h
        exact hp

theorem obeyAll_located {cs : List Clause} (hd : d.Located P) (hcs : ∀ c ∈ cs, c.Located P)
    (h : d.obeyAll limit cs = .ok d') : d'.Located P := by
  induction cs generalizing d with
  | nil =>
    cases h
    exact hd
  | cons c cs ih =>
    rw [List.forall_mem_cons] at hcs
    cases hc : d.obey limit c with
    | error x =>
      simp only [obeyAll, hc, bind, Except.bind] at h
      cases h
    | ok d₁ =>
      simp only [obeyAll, hc, bind, Except.bind] at h
      exact ih (obey_located hd hcs.1 hc) hcs.2 h

theorem settleEntry_sited (hd : d.Located P) (hl : P l) :
    Sited P (fun _ => True) (d.settleEntry l) := by
  unfold settleEntry
  split
  · next m n l' ms hmarks =>
    refine hd (n, l') ?_
    rw [hmarks]
    exact .tail _ (.head _)
  · trivial
  · split
    · trivial
    · trivial
    · exact hl

end Draft

/-! ## Texts -/

/-- A place of a text: a character of it, which is no line feed, or its end. -/
def IsPlace (file : Option String) (text : String) (l : Location) : Prop :=
  ∃ before rest n, text.toList = before ++ rest ∧ rest.head? ≠ some '\n' ∧
    l = placeBehind file text before n

variable {file : Option String} {text : String}

theorem Lexeme.head?_ne {kind : TokenKind} {v : Value} {n : Nat} {w : List Char}
    (h : Lexeme kind v n w) : w ≠ [] ∧ w.head? ≠ some '\n' := by
  have hword : ∀ {w}, IsWord w → w ≠ [] ∧ w.head? ≠ some '\n' := by
    intro w hw
    cases w with
    | nil => exact hw.elim
    | cons c w =>
      refine ⟨List.cons_ne_nil _ _, fun heq => ?_⟩
      cases Option.some.inj heq
      exact absurd hw.1 (by decide)
  have hunsigned : ∀ {w}, IsUnsigned w → w ≠ [] ∧ w.head? ≠ some '\n' := by
    intro w hw
    obtain ⟨c, w, rfl, hc⟩ := hw.exists_cons
    refine ⟨List.cons_ne_nil _ _, fun heq => ?_⟩
    cases Option.some.inj heq
    revert hc
    decide
  cases h with
  | symbol y hw =>
    subst hw
    cases y <;> decide
  | keyword _ hw _ | name hw _ => exact hword hw
  | numeral hw =>
    cases hw with
    | unsigned hw => exact hunsigned hw
    | negative hw => exact ⟨List.cons_ne_nil _ _, fun heq => absurd (Option.some.inj heq) (by decide)⟩
  | string us hw =>
    subst hw
    exact ⟨List.cons_ne_nil _ _, fun heq => absurd (Option.some.inj heq) (by decide)⟩
  | html hw =>
    refine ⟨fun hnil => ?_, fun heq => ?_⟩
    · have hhead := hw.head
      rw [hnil] at hhead
      cases hhead
    · rw [hw.head] at heq
      exact absurd (Option.some.inj heq) (by decide)

theorem head?_ne_of_not_isPiece {b : Bool} {rest : List Char}
    (h : ∀ w, w <+: rest → ¬ IsPiece b w) : rest.head? ≠ some '\n' := by
  intro heq
  obtain ⟨cs, rfl⟩ := List.head?_eq_some_iff.1 heq
  refine h ['\n'] (List.prefix_append ['\n'] cs) (.inl (.blank (List.cons_ne_nil _ _) ?_))
  rw [List.forall_mem_singleton]
  decide

theorem Cut.located {before rest : List Char} (h : Cut file text before rest s)
    (htext : text.toList = before ++ rest) : s.Located (IsPlace file text) := by
  induction h with
  | done => exact ⟨_, _, _, htext, nofun, rfl⟩
  | unexpected _ hnone | unclosed _ hnone =>
    exact ⟨_, _, _, htext, head?_ne_of_not_isPiece hnone, rfl⟩
  | skip hrest _ _ _ ih => exact ih (by rw [htext, hrest, List.append_assoc])
  | @token before w after rest s kind v n hrest hw _ _ ih =>
    refine ⟨⟨_, _, _, htext, ?_, rfl⟩, ih (by rw [htext, hrest, List.append_assoc])⟩
    obtain ⟨hne, hhead⟩ := hw.head?_ne
    rwa [hrest, List.head?_append_of_ne_nil _ hne]

theorem lex_located (file : Option String) (text : String) :
    (lex file text).Located (IsPlace file text) :=
  (lexFrom_cut file text [] text.toList).located rfl

theorem Stream.Located.broken {e : Error} (hs : s.Located P) (he : s.unroll.2 = some e) :
    P e.location := by
  induction s with
  | done l => cases he
  | broken e' =>
    cases he
    exact hs
  | token t rest ih => exact ih hs.2 he

theorem error_isPlace {e : Error} (h : (lex file text).unroll.2 = some e ∨
    ∃ limit tag, parse limit file text tag = .error (.text e)) : IsPlace file text e.location := by
  have hlex := lex_located file text
  rcases h with h | ⟨limit, tag, h⟩
  · exact hlex.broken h
  · obtain ⟨hclauses, hout⟩ := read_located hlex
    rcases parse_spec limit file text tag with
      ⟨-, hparse⟩ | ⟨-, ⟨-, hparse⟩ | ⟨-, ⟨e', ho, hparse⟩ | ⟨l, d, ho, hrun, -, hparse⟩⟩⟩
    · rw [hparse] at h
      cases h
    · rw [hparse] at h
      cases h
    · rw [hparse] at h
      cases h
      exact hout.error ho
    · have hd : d.Located (IsPlace file text) :=
        Draft.obeyAll_located (Draft.start_located _ tag) hclauses hrun
      have hsettle := Draft.settleEntry_sited hd (hout.ok ho)
      cases hs : d.settleEntry l with
      | ok g =>
        rw [hparse, hs] at h
        cases h
      | error e' =>
        rw [hparse, hs] at h
        cases h
        exact hsettle.error hs

end Structuring.Dot
