import Structuring.Proofs.Dot.Draft
import Structuring.Proofs.Dot.Lexeme
import Structuring.Proofs.Dot.Parsing

/-!
# Descriptions hold no integers

Every value of a description is a text, so that what is looked up as the mark of an entry node is
one.

* `lex_textual` — the tokens of a text.
* `read_textual` — the clauses that are read, up to an error if there is one.
-/

namespace Structuring.Dot

variable {s r : Stream} {v : Value} {ts : List Token}

def Stream.Textual : Stream → Prop
  | .done _ => True
  | .broken _ => True
  | .token t rest => (∀ n, t.value ≠ .int n) ∧ rest.Textual

/-! ## Tokens -/

theorem Lexeme.textual {k : TokenKind} {n : Nat} {w : List Char} (h : Lexeme k v n w) (i : Int) :
    v ≠ .int i := by
  cases h <;> exact Value.noConfusion

theorem lex_textual (file : Option String) (text : String) : (lex file text).Textual := by
  unfold lex
  fun_induction lexFrom file text .start text.toList with
  | case1 => trivial
  | case2 => trivial
  | case3 p c cs q h rest hq ih => exact ih
  | case4 p c cs q h rest kind value hq ih =>
    have hsound := piece_sound (List.cons_ne_nil c cs) h
    rw [Piece.Sound, hq] at hsound
    exact ⟨hsound.textual, ih⟩

/-! ## Parts of a statement -/

theorem Stream.textual_append :
    (ts ++ s).Textual ↔ (∀ t ∈ ts, ∀ n, t.value ≠ .int n) ∧ s.Textual := by
  induction ts with
  | nil => simp
  | cons t ts ih => rw [Stream.cons_append, Textual, ih, List.forall_mem_cons, and_assoc]

theorem IsIdentifier.textual (h : IsIdentifier v ts) (hts : ∀ t ∈ ts, ∀ n, t.value ≠ .int n)
    (n : Int) : v ≠ .int n := by
  cases h with
  | name ht => exact hts _ List.mem_cons_self n
  | strings ht h => exact Value.noConfusion

theorem identifier_textual (hs : s.Textual) (h : identifier s = .ok (v, r)) :
    (∀ n, v ≠ .int n) ∧ r.Textual := by
  obtain ⟨ts, rfl, hts⟩ := identifier_eq_ok h
  obtain ⟨hvalues, hr⟩ := Stream.textual_append.1 hs
  exact ⟨hts.textual hvalues, hr⟩

theorem IsAttribute.textual {e : Value × Value} (h : IsAttribute e ts)
    (hts : ∀ t ∈ ts, ∀ n, t.value ≠ .int n) (n : Int) : e.2 ≠ .int n := by
  cases h with
  | flag hk => exact Value.noConfusion
  | valued hk he hv =>
    exact hv.textual (fun t ht => hts t (List.mem_append_right _ (List.mem_cons_of_mem _ ht))) n

theorem IsAttributes.textual {es : List (Value × Value)} (h : IsAttributes es ts)
    (hts : ∀ t ∈ ts, ∀ n, t.value ≠ .int n) : ∀ e ∈ es, ∀ n, e.2 ≠ .int n := by
  induction h with
  | nil => simp
  | cons he hu h ih =>
    simp only [List.mem_append] at hts
    rw [List.forall_mem_cons]
    exact ⟨he.textual fun t ht => hts t (.inl ht), ih fun t ht => hts t (.inr (.inr ht))⟩

theorem IsAttributeLists.textual {es : List (Value × Value)} (h : IsAttributeLists es ts)
    (hts : ∀ t ∈ ts, ∀ n, t.value ≠ .int n) : ∀ e ∈ es, ∀ n, e.2 ≠ .int n := by
  induction h with
  | nil => simp
  | cons ho he hc h ih =>
    simp only [List.mem_cons, List.mem_append] at hts
    rw [List.forall_mem_append]
    exact ⟨he.textual fun t ht => hts t (.inr (.inl ht)),
      ih fun t ht => hts t (.inr (.inr (.inr ht)))⟩

theorem attributeLists_textual {a b : Attributes} (hs : s.Textual) (ha : a.Textual)
    (h : attributeLists a s = .ok (b, r)) : b.Textual ∧ r.Textual := by
  obtain ⟨es, ts, rfl, hts, rfl⟩ := attributeLists_eq_ok h
  obtain ⟨hvalues, hr⟩ := Stream.textual_append.1 hs
  exact ⟨ha.setAll (hts.textual hvalues), hr⟩

theorem ports_textual (hs : s.Textual) (h : ports s = .ok r) : r.Textual := by
  obtain ⟨ts, rfl, -⟩ := ports_eq_ok h
  exact (Stream.textual_append.1 hs).2

theorem edgeEnds_textual {es : List (Value × Location)} (hs : s.Textual)
    (h : edgeEnds s = .ok (es, r)) : r.Textual := by
  obtain ⟨ts, rfl, -⟩ := edgeEnds_eq_ok h
  exact (Stream.textual_append.1 hs).2

theorem after?_textual {y : Symbol} (hs : s.Textual) (h : s.after? y = some r) : r.Textual := by
  obtain ⟨t, -, rfl⟩ := Stream.after?_eq_some h
  exact hs.2

theorem semicolon_textual (hs : s.Textual) : (s.skip .semicolon).Textual := by
  obtain ⟨us, heq, -⟩ := semicolon_eq s
  rw [heq] at hs
  exact (Stream.textual_append.1 hs).2

/-! ## Clauses -/

theorem Reading.forall_stop {P : Clause → Prop} {e : Error} :
    ∀ c ∈ (Reading.stop e : Reading Stream).clauses, P c := by
  intro c hc
  cases hc

theorem Reading.forall_cons {P : Clause → Prop} {c : Clause} {x : Reading Stream} (hc : P c)
    (hx : ∀ c' ∈ x.clauses, P c') : ∀ c' ∈ (x.cons c).clauses, P c' :=
  List.forall_mem_cons.2 ⟨hc, hx⟩

theorem clauses_textual (depth : Nat) (hs : s.Textual) :
    ∀ c ∈ (clauses depth s).clauses, c.Textual := by
  fun_induction clauses depth s with
  | case1 | case2 | case6 | case8 | case10 | case12 | case14 | case15 | case17 | case18 | case20
  | case22 => exact Reading.forall_stop
  | case3 => simp
  | case4 t rest depth _ ih =>
    refine Reading.forall_cons trivial ?_
    split
    · exact Reading.forall_stop
    · next r h =>
      cases afterSubgraph_eq_ok h
      exact ih _ h (semicolon_textual hs.2)
  | case5 depth t rest _ ih => exact Reading.forall_cons trivial (ih hs.2)
  | case7 depth t rest _ r h ih =>
    obtain ⟨v, ts, o, rfl, -, -⟩ := subgraphBrace_eq_ok h
    exact Reading.forall_cons trivial (ih (Stream.textual_append.1 hs.2).2.2)
  | case9 depth t rest _ a r h ih | case13 depth t rest _ a r h ih =>
    have hr := (attributeLists_textual hs.2 Attributes.textual_empty h).2
    exact Reading.forall_cons trivial (ih (semicolon_textual hr))
  | case11 depth t rest _ a r h ih =>
    obtain ⟨ha, hr⟩ := attributeLists_textual hs.2 Attributes.textual_empty h
    exact Reading.forall_cons ha (ih (semicolon_textual hr))
  | case16 depth t rest v r₁ hv r₂ ha w r hw _ _ _ _ _ _ _ _ ih =>
    have hr₁ := (identifier_textual hs hv).2
    have hr := (identifier_textual (after?_textual hr₁ ha) hw).2
    exact Reading.forall_cons trivial (ih (semicolon_textual hr))
  | case19 depth t rest v r₁ hv ha r₂ hp r₃ he _ _ _ _ _ _ _ _ ih =>
    have hr₂ := ports_textual (identifier_textual hs hv).2 hp
    refine Reading.forall_cons trivial ?_
    split
    · exact Reading.forall_stop
    · next a r h =>
      obtain ⟨ha, hr⟩ := attributeLists_textual hr₂ Attributes.textual_empty h
      exact Reading.forall_cons ha (ih a r h (semicolon_textual hr))
  | case21 depth t rest v r₁ hv ha r₂ hp e es r₃ he a r hl _ _ _ _ _ _ _ _ ih =>
    have hr₂ := ports_textual (identifier_textual hs hv).2 hp
    have hr := (attributeLists_textual (edgeEnds_textual hr₂ he) Attributes.textual_empty hl).2
    exact Reading.forall_cons trivial (ih (semicolon_textual hr))

theorem read_textual (hs : s.Textual) : ∀ c ∈ (read s).2.clauses, c.Textual := by
  unfold read
  split
  · intro c hc
    cases hc
  · next name rest h =>
    obtain ⟨ts, d, us, o, rfl, -⟩ := heading_eq_ok h
    obtain ⟨-, -, hrest⟩ := Stream.textual_append.1 hs
    exact clauses_textual 0 (Stream.textual_append.1 hrest).2.2

end Structuring.Dot
