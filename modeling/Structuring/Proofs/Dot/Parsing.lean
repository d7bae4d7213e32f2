import Structuring.Proofs.Dot.Parts

/-!
# Reading follows the grammar

* `read_eq_ok` — a description that is read without an error follows the grammar.
* `read_append` — a description that follows the grammar is read without an error.

Both give the clauses that are read: those of the statements, in order.
-/

namespace Structuring.Dot

variable {s r : Stream} {v : Value} {ts : List Token}

/-! ## Statements -/

theorem semicolon_eq (s : Stream) :
    ∃ us, s = us ++ s.skip .semicolon ∧ IsOptional [.symbol .semicolon] us := by
  unfold Stream.skip
  split
  · next t rest =>
    split
    · next ht => exact ⟨[t], rfl, .some (by simp [ht])⟩
    · exact ⟨[], rfl, .none⟩
  · exact ⟨[], rfl, .none⟩

theorem semicolon_append (h : IsOptional [.symbol .semicolon] ts)
    (hs : s.Free [.symbol .semicolon]) : (ts ++ s).skip .semicolon = s := by
  cases h with
  | none => exact hs.skip (by simp)
  | some ht => simp [Stream.skip, List.mem_singleton.1 ht]

theorem openBrace_eq_ok (h : openBrace s = .ok r) :
    ∃ o, o.kind = .symbol .openBrace ∧ s = .token o r := by
  unfold openBrace at h
  split at h
  · next ha =>
    cases h
    exact Stream.after?_eq_some ha
  · exact absurd h Stream.fail_ne_ok

theorem subgraphBrace_eq_ok (h : subgraphBrace s = .ok r) :
    ∃ v ts o, s = ts ++ Stream.token o r ∧ IsOptionalIdentifier v ts ∧
      o.kind = .symbol .openBrace := by
  unfold subgraphBrace at h
  split at h
  · cases h
  · next hn =>
    obtain ⟨ts, rfl, hts⟩ := optionalIdentifier_eq_ok hn
    obtain ⟨o, ho, rfl⟩ := openBrace_eq_ok h
    exact ⟨_, ts, o, rfl, hts, ho⟩

theorem subgraphBrace_append {v : Option Value} {o : Token} (h : IsOptionalIdentifier v ts)
    (ho : o.kind = .symbol .openBrace) : subgraphBrace (ts ++ Stream.token o s) = .ok s := by
  rw [subgraphBrace, optionalIdentifier_append h (by simp [ho])]
  simp only [openBrace, Stream.after?_token ho]

theorem afterSubgraph_eq_ok (h : afterSubgraph s = .ok r) : r = s := by
  unfold afterSubgraph at h
  split at h
  · cases h
  · cases h
    rfl
  · split at h
    · cases h
    · cases h
      rfl

/-! ## Statement lists -/

theorem Reading.cons_eq_ok {c : Clause} {cs : List Clause} {x : Reading Stream}
    (h : x.cons c = ⟨cs, .ok r⟩) : ∃ cs', x = ⟨cs', .ok r⟩ ∧ cs = c :: cs' := by
  obtain ⟨cs', outcome⟩ := x
  simp only [Reading.cons, Reading.mk.injEq] at h
  exact ⟨cs', by rw [h.2], h.1.symm⟩

theorem Reading.stop_ne_ok {e : Error} {cs : List Clause} :
    (Reading.stop e : Reading Stream) ≠ ⟨cs, .ok r⟩ := by
  simp [Reading.stop]

/-- What stands in front where a statement may stand: the closing brace, a statement, or the head of
a subgraph. -/
inductive Front (depth : Nat) (r : Stream) : Stream → List Clause → Prop where
  | closing {c : Token} {rest : Stream} {cs : List Clause} (hc : c.kind = .symbol .closeBrace) :
      Front depth r (.token c rest) cs
  | statement {st : Statement} {ts : List Token} {s : Stream} {cs : List Clause}
      (h : IsStatement st ts) (hrun : clauses depth (s.skip .semicolon) = ⟨cs, .ok r⟩) :
      Front depth r (ts ++ s) (st.clauses ++ cs)
  | head {ts : List Token} {s : Stream} {cs : List Clause} (h : IsSubgraphHead ts)
      (hrun : clauses (depth + 1) s = ⟨cs, .ok r⟩) : Front depth r (ts ++ s) (.opens :: cs)

theorem front_of_clauses {depth : Nat} {cs : List Clause} (h : clauses depth s = ⟨cs, .ok r⟩) :
    Front depth r s cs := by
  revert h
  fun_cases clauses depth s with
  | case1 | case2 | case6 | case8 | case10 | case12 | case14 | case15 | case17 | case18 | case20
  | case22 =>
    intro h
    exact absurd h Reading.stop_ne_ok
  | case3 t rest hk =>
    intro _
    exact .closing hk
  | case4 t rest depth hk =>
    intro _
    exact .closing hk
  | case5 depth t rest hk =>
    intro h
    obtain ⟨cs', hrun, rfl⟩ := Reading.cons_eq_ok h
    exact .head (.plain hk) hrun
  | case7 depth t rest hk s' hbrace =>
    intro h
    obtain ⟨cs', hrun, rfl⟩ := Reading.cons_eq_ok h
    obtain ⟨v, ts, o, rfl, hts, ho⟩ := subgraphBrace_eq_ok hbrace
    have hfront := Front.head (.named hk hts ho) hrun
    simpa using hfront
  | case9 depth t rest hk a s' hl =>
    intro h
    obtain ⟨cs', hrun, rfl⟩ := Reading.cons_eq_ok h
    obtain ⟨es, ts, rfl, hts, rfl⟩ := attributeLists_eq_ok hl
    exact .statement (.graphAttributes hk hts) hrun
  | case11 depth t rest hk a s' hl =>
    intro h
    obtain ⟨cs', hrun, rfl⟩ := Reading.cons_eq_ok h
    obtain ⟨es, ts, rfl, hts, rfl⟩ := attributeLists_eq_ok hl
    exact .statement (.nodeDefaults hk hts) hrun
  | case13 depth t rest hk a s' hl =>
    intro h
    obtain ⟨cs', hrun, rfl⟩ := Reading.cons_eq_ok h
    obtain ⟨es, ts, rfl, hts, rfl⟩ := attributeLists_eq_ok hl
    exact .statement (.edgeDefaults hk hts) hrun
  | case16 depth t rest v s₁ hv s₂ ha w s' hw =>
    intro h
    obtain ⟨cs', hrun, rfl⟩ := Reading.cons_eq_ok h
    obtain ⟨ts, heq, hts⟩ := identifier_eq_ok hv
    obtain ⟨e, he, rfl⟩ := Stream.after?_eq_some ha
    obtain ⟨us, rfl, hus⟩ := identifier_eq_ok hw
    have hfront := Front.statement (.assignment hts he hus) hrun
    rw [Stream.append_append, Stream.cons_append, ← heq] at hfront
    exact hfront
  | case19 depth t rest v s₁ hv ha s₂ hp _ he =>
    intro h
    obtain ⟨cs₁, hcs₁, rfl⟩ := Reading.cons_eq_ok h
    obtain ⟨ts, heq, hts⟩ := end_eq_ok hv hp
    split at hcs₁
    · exact absurd hcs₁ Reading.stop_ne_ok
    · next a s' hl =>
      obtain ⟨cs', hrun, rfl⟩ := Reading.cons_eq_ok hcs₁
      obtain ⟨es, us, rfl, hus, rfl⟩ := attributeLists_eq_ok hl
      have hfront := Front.statement (.node hts hus) hrun
      rw [Stream.append_append, ← heq] at hfront
      exact hfront
  | case21 depth t rest v s₁ hv ha s₂ hp e' ends s₃ he a s' hl =>
    intro h
    obtain ⟨cs', hrun, rfl⟩ := Reading.cons_eq_ok h
    obtain ⟨ts, heq, hts⟩ := end_eq_ok hv hp
    obtain ⟨us, rfl, hus⟩ := edgeEnds_eq_ok he
    obtain ⟨es, vs, rfl, hvs, rfl⟩ := attributeLists_eq_ok hl
    have hfront := Front.statement (.edges hts hus hvs) hrun
    rw [Stream.append_append, Stream.append_append, ← heq] at hfront
    exact hfront

theorem IsStatement.length_pos {st : Statement} (h : IsStatement st ts) : 0 < ts.length := by
  cases h with
  | graphAttributes | nodeDefaults | edgeDefaults => simp
  | assignment => rw [List.length_append, List.length_cons]; omega
  | node hv _ | edges hv _ _ =>
    obtain ⟨t, us, rfl, -⟩ := hv.exists_cons
    simp

theorem IsSubgraphHead.length_pos (h : IsSubgraphHead ts) : 0 < ts.length := by
  cases h <;> simp

/-- What is read as clauses up to the end of the graph starts with a statement list and a closing
brace, and its clauses start with those of the list. -/
theorem body_of_clauses {depth : Nat} {cs : List Clause} (h : clauses depth s = ⟨cs, .ok r⟩) :
    ∃ b ts c s' cs', s = ts ++ Stream.token c s' ∧ IsBody b ts ∧ c.kind = .symbol .closeBrace ∧
      clauses depth (.token c s') = ⟨cs', .ok r⟩ ∧ cs = b.clauses ++ cs' := by
  -- the subgraph in front and what follows it are both shorter
  induction hn : s.size using Nat.strongRecOn generalizing s depth cs with
  | ind n ih =>
    subst hn
    cases front_of_clauses h with
    | closing hc => exact ⟨.done, [], _, _, cs, rfl, .done, hc, h, rfl⟩
    | @statement st ts s' cs' hst hcs =>
      obtain ⟨us, heq, hus⟩ := semicolon_eq s'
      have hlt : (s'.skip .semicolon).size < (ts ++ s').size := by
        have := hst.length_pos
        have := Stream.size_skip_le s' .semicolon
        rw [Stream.size_append]
        omega
      obtain ⟨b, vs, c, s₁, cs₁, hs₁, hb, hc, hrun, rfl⟩ := ih _ hlt hcs rfl
      refine ⟨.simple st b, ts ++ (us ++ vs), c, s₁, cs₁, ?_, .simple hst hus hb, hc, hrun, ?_⟩
      · rw [heq, hs₁]
        simp
      · simp [Body.clauses]
    | @head ts s' cs' hts hcs =>
      have hlt : s'.size < (ts ++ s').size := by
        have := hts.length_pos
        rw [Stream.size_append]
        omega
      obtain ⟨inner, us, c, s₁, cs₁, rfl, hinner, hc, hrun, rfl⟩ := ih _ hlt hcs rfl
      -- behind the closing brace of the subgraph the list goes on
      rw [clauses.eq_def] at hrun
      simp only [hc] at hrun
      obtain ⟨cs₂, hcs₂, rfl⟩ := Reading.cons_eq_ok hrun
      split at hcs₂
      · exact absurd hcs₂ Reading.stop_ne_ok
      · next ha =>
        cases afterSubgraph_eq_ok ha
        obtain ⟨ws, heq, hws⟩ := semicolon_eq s₁
        have hlt : (s₁.skip .semicolon).size < (ts ++ (us ++ Stream.token c s₁)).size := by
          have := Stream.size_skip_le s₁ .semicolon
          rw [Stream.size_append, Stream.size_append, Stream.size]
          omega
        obtain ⟨b, vs, c', s₃, cs₃, hs₃, hb, hc', hrun', rfl⟩ := ih _ hlt hcs₂ rfl
        refine ⟨.subgraph inner b, ts ++ (us ++ c :: (ws ++ vs)), c', s₃, cs₃, ?_,
          .subgraph hts hinner hc hws hb, hc', hrun', ?_⟩
        · rw [heq, hs₃]
          simp
        · simp [Body.clauses]

/-! ## Whole descriptions -/

theorem skipKeyword_eq (s : Stream) (k : Keyword) :
    ∃ ts, s = ts ++ skipKeyword s k ∧ IsOptional [.keyword k] ts := by
  unfold skipKeyword
  split
  · next t rest =>
    split
    · next ht => exact ⟨[t], rfl, .some (by simp [ht])⟩
    · exact ⟨[], rfl, .none⟩
  · exact ⟨[], rfl, .none⟩

theorem heading_eq_ok {name : Option Value} (h : heading s = .ok (name, r)) :
    ∃ ts d us o, s = ts ++ (Stream.token d (us ++ Stream.token o r)) ∧
      IsOptional [.keyword .strict] ts ∧ d.kind = .keyword .digraph ∧
      IsOptionalIdentifier name us ∧ o.kind = .symbol .openBrace := by
  obtain ⟨ts, hs, hts⟩ := skipKeyword_eq s .strict
  unfold heading at h
  split at h
  · cases h
  · next v l rest heq =>
    cases hn : optionalIdentifier rest with
    | error e => simp [hn, bind, Except.bind] at h
    | ok p =>
      cases ho : openBrace p.2 with
      | error e => simp [hn, ho, bind, Except.bind] at h
      | ok r' =>
        simp only [hn, ho, bind, Except.bind] at h
        cases h
        obtain ⟨us, hrest, hus⟩ := optionalIdentifier_eq_ok (v := p.1) (r := p.2) hn
        obtain ⟨o, hok, hp⟩ := openBrace_eq_ok ho
        rw [hp] at hrest
        rw [heq, hrest] at hs
        exact ⟨ts, ⟨.keyword .digraph, v, l⟩, us, o, hs, hts, rfl, hus, hok⟩
  · exact absurd h Stream.fail_ne_ok

def endToken (l : Location) : Token := ⟨.eof, .text "EOF", l⟩

theorem Stream.eq_append_done (h : s.unroll.2 = none) :
    ∃ ts l, s = ts ++ Stream.done l ∧ s.unroll.1 = ts ++ [endToken l] := by
  induction s with
  | done l => exact ⟨[], l, rfl, rfl⟩
  | broken e => cases h
  | token t rest ih =>
    obtain ⟨ts, l, heq, hts⟩ := ih h
    refine ⟨t :: ts, l, by rw [heq]; rfl, ?_⟩
    rw [Stream.unroll, hts]
    rfl

theorem Stream.unroll_append_done (ts : List Token) (l : Location) :
    (ts ++ Stream.done l).unroll = (ts ++ [endToken l], none) := by
  induction ts with
  | nil => rfl
  | cons t ts ih => rw [Stream.cons_append, Stream.unroll, ih]; rfl

/-- A description that is read without an error follows the grammar, and its clauses are those of
its statements. -/
theorem read_eq_ok {l : Location} (h : (read s).2.outcome = .ok l) :
    s.unroll.2 = none ∧ ∃ b, IsDescription (read s).1 b s.unroll.1 ∧
      (read s).2.clauses = b.clauses := by
  unfold read at h ⊢
  split at h
  · cases h
  · next name rest hh =>
    simp only at h ⊢
    cases ho : (clauses 0 rest).outcome with
    | error e => rw [ho] at h; cases h
    | ok r =>
      rw [ho] at h
      obtain ⟨ts, d, us, o, rfl, hts, hd, hus, hok⟩ := heading_eq_ok hh
      obtain ⟨b, vs, c, s', cs', rfl, hb, hc, hrun, hcs⟩ := body_of_clauses
        (show clauses 0 rest = ⟨(clauses 0 rest).clauses, .ok r⟩ by rw [← ho])
      rw [clauses.eq_def] at hrun
      simp only [hc, Reading.mk.injEq] at hrun
      obtain ⟨rfl, hr⟩ := hrun
      cases hr
      cases r with
      | broken e => cases h
      | token t s'' => cases h
      | done l' =>
        have happ : ts ++ Stream.token d (us ++ Stream.token o (vs ++ Stream.token c (.done l'))) =
            (ts ++ d :: (us ++ o :: (vs ++ [c]))) ++ Stream.done l' := by simp
        rw [happ, Stream.unroll_append_done]
        refine ⟨rfl, b, ?_, by simpa using hcs⟩
        simpa using IsDescription.mk hts hd hus hok hb hc (e := endToken l') rfl

/-! ## What follows the grammar is read -/

def goesOn : List TokenKind :=
  [.symbol .plus, .symbol .colon, .symbol .equals, .symbol .openBracket, .symbol .arrow,
    .symbol .line]

/-- Clauses put before what is read. -/
def Reading.prepend {α : Type} (cs : List Clause) (x : Reading α) : Reading α :=
  ⟨cs ++ x.clauses, x.outcome⟩

section

variable {t : Token} {rest r₁ r₂ : Stream} {depth : Nat}

theorem clauses_graphAttributes {a : Attributes} (hk : t.kind = .keyword .graph)
    (hl : attributeLists ∅ rest = .ok (a, r)) : clauses depth (.token t rest) =
      .cons (.graphAttributes a) (clauses depth (r.skip .semicolon)) := by
  rw [clauses.eq_def]
  simp only [hk]
  grind

theorem clauses_nodeAttributes {a : Attributes} (hk : t.kind = .keyword .node)
    (hl : attributeLists ∅ rest = .ok (a, r)) : clauses depth (.token t rest) =
      .cons (.nodeDefaults a) (clauses depth (r.skip .semicolon)) := by
  rw [clauses.eq_def]
  simp only [hk]
  grind

theorem clauses_edgeAttributes {a : Attributes} (hk : t.kind = .keyword .edge)
    (hl : attributeLists ∅ rest = .ok (a, r)) : clauses depth (.token t rest) =
      .cons (.edgeDefaults a) (clauses depth (r.skip .semicolon)) := by
  rw [clauses.eq_def]
  simp only [hk]
  grind

theorem clauses_assignment {w : Value} (ht : t.kind = .id ∨ t.kind = .string)
    (hv : identifier (.token t rest) = .ok (v, r)) (ha : r.after? .equals = some r₁)
    (hw : identifier r₁ = .ok (w, r₂)) :
    clauses depth (.token t rest) =
      .cons (.graphAttributes (.ofList [(v, w)])) (clauses depth (r₂.skip .semicolon)) := by
  rw [clauses.eq_def]
  rcases ht with ht | ht <;> simp only [ht] <;> grind

theorem clauses_node {a : Attributes} (ht : t.kind = .id ∨ t.kind = .string)
    (hv : identifier (.token t rest) = .ok (v, r)) (ha : r.after? .equals = none)
    (hp : ports r = .ok r₁) (he : edgeEnds r₁ = .ok ([], r₁))
    (hl : attributeLists ∅ r₁ = .ok (a, r₂)) :
    clauses depth (.token t rest) = .cons (.appears v t.location)
      (.cons (.describes v t.location a) (clauses depth (r₂.skip .semicolon))) := by
  rw [clauses.eq_def]
  rcases ht with ht | ht <;> simp only [ht] <;> grind

theorem clauses_edges {e : Value × Location} {es : List (Value × Location)} {a : Attributes}
    {r₃ : Stream} (ht : t.kind = .id ∨ t.kind = .string)
    (hv : identifier (.token t rest) = .ok (v, r)) (ha : r.after? .equals = none)
    (hp : ports r = .ok r₁) (he : edgeEnds r₁ = .ok (e :: es, r₂))
    (hl : attributeLists ∅ r₂ = .ok (a, r₃)) :
    clauses depth (.token t rest) = .cons (.edges ((v, t.location) :: e :: es) a)
      (clauses depth (r₃.skip .semicolon)) := by
  rw [clauses.eq_def]
  rcases ht with ht | ht <;> simp only [ht] <;> grind

end

theorem clauses_statement {st : Statement} {us : List Token} {depth : Nat}
    (h : IsStatement st ts) (hu : IsOptional [.symbol .semicolon] us)
    (hs : s.Free (.symbol .semicolon :: goesOn)) :
    clauses depth (ts ++ (us ++ s)) = .prepend st.clauses (clauses depth s) := by
  have hskip : (us ++ s).skip .semicolon = s := semicolon_append hu (hs.mono (by simp))
  have hfree : (us ++ s).Free goesOn := by
    cases hu with
    | none => exact hs.mono (by simp)
    | some ht => simp [List.mem_singleton.1 ht, goesOn]
  cases h with
  | graphAttributes hk hl =>
    have hrun := attributeLists_append (a := ∅) hl (hfree.mono (by simp [goesOn]))
    rw [Stream.cons_append, clauses_graphAttributes hk hrun, hskip]
    rfl
  | nodeDefaults hk hl =>
    have hrun := attributeLists_append (a := ∅) hl (hfree.mono (by simp [goesOn]))
    rw [Stream.cons_append, clauses_nodeAttributes hk hrun, hskip]
    rfl
  | edgeDefaults hk hl =>
    have hrun := attributeLists_append (a := ∅) hl (hfree.mono (by simp [goesOn]))
    rw [Stream.cons_append, clauses_edgeAttributes hk hrun, hskip]
    rfl
  | @assignment k v e ts vs hk he hv =>
    have hkey := identifier_append (s := Stream.token e (vs ++ (us ++ s))) hk (by simp [he])
    obtain ⟨t, ts', rfl, ht⟩ := hk.exists_cons
    rw [Stream.append_append, Stream.cons_append, Stream.cons_append]
    rw [Stream.cons_append] at hkey
    rw [clauses_assignment ht hkey (Stream.after?_token he)
      (identifier_append hv (hfree.mono (by simp [goesOn]))), hskip]
    rfl
  | @node v l es ts vs hv hl =>
    have hnext : (vs ++ (us ++ s)).Free
        [.symbol .plus, .symbol .colon, .symbol .equals, .symbol .arrow, .symbol .line] := by
      cases hl with
      | nil => exact hfree.mono (by simp [goesOn])
      | cons ho _ _ _ => simp [ho]
    obtain ⟨t, rest, r, heq, ht, hloc, hrun, hp, hr⟩ := end_append hv (hnext.mono (by simp))
    have hequals := (hr [.symbol .equals] (hnext.mono (by simp)) (by simp)).after?
      (y := .equals) (by simp)
    have hnone : edgeEnds (vs ++ (us ++ s)) = .ok ([], vs ++ (us ++ s)) :=
      edgeEnds_append .nil (hnext.mono (by simp))
    rw [Stream.append_append, heq, clauses_node ht hrun hequals hp hnone
      (attributeLists_append hl (hfree.mono (by simp [goesOn]))), hskip]
    simp only at hloc
    rw [hloc]
    rfl
  | @edges e e' ends es ts vs ws he hes hl =>
    have hnext : (ws ++ (us ++ s)).Free
        [.symbol .plus, .symbol .colon, .symbol .arrow, .symbol .line] := by
      cases hl with
      | nil => exact hfree.mono (by simp [goesOn])
      | cons ho _ _ _ => simp [ho]
    have harrow : (vs ++ (ws ++ (us ++ s))).Free
        [.symbol .plus, .symbol .colon, .symbol .equals] := by
      cases hes with
      | cons ha _ _ => simp [ha]
    obtain ⟨t, rest, r, heq, ht, hloc, hrun, hp, hr⟩ := end_append he (harrow.mono (by simp))
    have hequals := (hr [.symbol .equals] (harrow.mono (by simp)) (by simp)).after?
      (y := .equals) (by simp)
    rw [Stream.append_append, Stream.append_append, heq, clauses_edges ht hrun hequals hp
      (edgeEnds_append hes hnext) (attributeLists_append hl (hfree.mono (by simp [goesOn]))), hskip,
      ← hloc]
    rfl

/-- A statement list does not start with a token that goes on a statement. -/
theorem IsBody.free {b : Body} (h : IsBody b ts) (hs : s.Free (.symbol .semicolon :: goesOn)) :
    (ts ++ s).Free (.symbol .semicolon :: goesOn) := by
  have hhead : ∀ {t : Token}, (t.kind = .id ∨ t.kind = .string) →
      t.kind ∉ .symbol .semicolon :: goesOn := by
    rintro t (ht | ht) <;> simp [ht, goesOn]
  cases h with
  | done => exact hs
  | simple hst _ _ =>
    cases hst with
    | graphAttributes hk | nodeDefaults hk | edgeDefaults hk => simp [hk, goesOn]
    | assignment hk _ _ =>
      obtain ⟨t, us, rfl, ht⟩ := hk.exists_cons
      simpa using hhead ht
    | node hv _ | edges hv _ _ =>
      obtain ⟨t, us, rfl, ht⟩ := hv.exists_cons
      simpa using hhead ht
  | subgraph hh _ _ _ _ =>
    cases hh with
    | plain ho => simp [ho, goesOn]
    | named hk _ _ => simp [hk, goesOn]

theorem clauses_head {depth : Nat} (h : IsSubgraphHead ts) :
    clauses depth (ts ++ s) = .cons .opens (clauses (depth + 1) s) := by
  cases h with
  | plain ho =>
    rw [Stream.cons_append, clauses.eq_def]
    simp only [ho]
    rfl
  | named hk hv ho =>
    have hrun := subgraphBrace_append (s := s) hv ho
    rw [Stream.cons_append, Stream.append_append, clauses.eq_def]
    simp only [hk]
    split
    · next heq => simp [hrun] at heq
    · next heq =>
      rw [Stream.cons_append, Stream.nil_append, hrun] at heq
      cases heq
      rfl

theorem afterSubgraph_eq (hs : s.Free [.symbol .arrow, .symbol .line]) :
    afterSubgraph s = .ok s := by
  unfold afterSubgraph
  split
  · simp [Stream.Free, Stream.peek] at hs
  · rfl
  · next t rest =>
    rw [if_neg]
    simp only [Stream.free_token, List.mem_cons, List.not_mem_nil, or_false, not_or] at hs
    unfold isEdgeSign
    split <;> simp_all

theorem clauses_body {b : Body} (h : IsBody b ts) (depth : Nat)
    (hs : s.Free (.symbol .semicolon :: goesOn)) :
    clauses depth (ts ++ s) = .prepend b.clauses (clauses depth s) := by
  induction h generalizing depth s with
  | done => rfl
  | simple hst hu hb ih =>
    rw [Stream.append_append, Stream.append_append, clauses_statement hst hu (hb.free hs), ih _ hs]
    simp [Reading.prepend, Body.clauses]
  | @subgraph inner b c hd ts us vs hh hi hc hu hb ihi ihb =>
    have hclose : (Stream.token c (us ++ (vs ++ s))).Free (.symbol .semicolon :: goesOn) := by
      simp [hc, goesOn]
    have hfree := hb.free hs
    have hafter : afterSubgraph (us ++ (vs ++ s)) = .ok (us ++ (vs ++ s)) := by
      refine afterSubgraph_eq ?_
      cases hu with
      | none => exact hfree.mono (by simp [goesOn])
      | some ht => simp [List.mem_singleton.1 ht]
    have hskip : (us ++ (vs ++ s)).skip .semicolon = vs ++ s :=
      semicolon_append hu (hfree.mono (by simp))
    simp only [Stream.append_append, Stream.cons_append]
    rw [clauses_head hh, ihi _ hclose, clauses.eq_def depth.succ]
    simp only [hc]
    split
    · next heq => simp [hafter] at heq
    · next heq =>
      rw [hafter] at heq
      cases heq
      rw [hskip, ihb _ hs]
      simp [Reading.prepend, Reading.cons, Body.clauses]

theorem skipKeyword_append {k : Keyword} (h : IsOptional [.keyword k] ts)
    (hs : s.Free [.keyword k]) : skipKeyword (ts ++ s) k = s := by
  cases h with
  | none =>
    rw [Stream.nil_append]
    unfold skipKeyword
    split
    · rw [if_neg (hs.kind_ne (by simp))]
    · rfl
  | some ht => simp [skipKeyword, List.mem_singleton.1 ht]

theorem read_append {name : Option Value} {b : Body} {l : Location}
    (h : IsDescription name b (ts ++ [endToken l])) :
    read (ts ++ Stream.done l) = (name, ⟨b.clauses, .ok l⟩) := by
  generalize hall : ts ++ [endToken l] = all at h
  cases h with
  | @mk d o c e us vs ws hu hd hn ho hb hc he =>
    have hsplit : ts ++ [endToken l] = (us ++ d :: (vs ++ o :: (ws ++ [c]))) ++ [e] := by
      simpa using hall
    obtain ⟨rfl, -⟩ := List.append_inj' hsplit rfl
    obtain ⟨_, v, l'⟩ := d
    cases hd
    have hhead : heading (us ++ Stream.token ⟨.keyword .digraph, v, l'⟩
        (vs ++ Stream.token o (ws ++ Stream.token c (.done l)))) =
        .ok (name, ws ++ Stream.token c (.done l)) := by
      rw [heading, skipKeyword_append hu (by simp)]
      simp only [optionalIdentifier_append hn
        (show (Stream.token o (ws ++ Stream.token c (.done l))).Free _ by simp [ho]), openBrace,
        Stream.after?_token ho, bind, Except.bind]
      rfl
    have hbody := clauses_body hb 0
      (show (Stream.token c (.done l)).Free (.symbol .semicolon :: goesOn) by simp [hc, goesOn])
    have hend : clauses 0 (Stream.token c (.done l)) = ⟨[], .ok (.done l)⟩ := by
      rw [clauses.eq_def]
      simp only [hc]
    simp only [Stream.append_append, Stream.cons_append, Stream.nil_append]
    rw [read, hhead]
    simp only [hbody, hend, Reading.prepend, List.append_nil]
    rfl

end Structuring.Dot
