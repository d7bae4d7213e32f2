import Structuring.Proofs.Attributes
import Structuring.Proofs.Dot.Grammar

/-!
# The parts of statements follow the grammar

Each reader of a part has two lemmas:

* `…_eq_ok` — what is taken from the stream follows the production.
* `…_append` — what follows the production is taken from the stream, if nothing behind it goes on
  with it. `Stream.Free` says which tokens would.
-/

namespace Structuring.Dot

instance : HAppend (List Token) Stream Stream := ⟨fun ts s => ts.foldr .token s⟩

namespace Stream

@[simp] theorem nil_append (s : Stream) : ([] : List Token) ++ s = s := rfl

@[simp] theorem cons_append (t : Token) (ts : List Token) (s : Stream) :
    (t :: ts) ++ s = .token t (ts ++ s) := rfl

@[simp] theorem append_append (ts us : List Token) (s : Stream) :
    (ts ++ us) ++ s = ts ++ (us ++ s) := List.foldr_append

theorem size_append (ts : List Token) (s : Stream) : (ts ++ s).size = ts.length + s.size := by
  induction ts with
  | nil => simp
  | cons t ts ih =>
    rw [cons_append, size, ih, List.length_cons]
    omega

/-- There is a next token, and it is of none of the kinds `ks`. -/
def Free (ks : List TokenKind) (s : Stream) : Prop := ∃ k, s.peek = .ok k ∧ k ∉ ks

variable {s r : Stream} {t : Token} {ks ks' : List TokenKind} {y : Symbol}

@[simp] theorem free_token : (Stream.token t s).Free ks ↔ t.kind ∉ ks := by
  simp [Free, peek]

theorem Free.mono (h : s.Free ks) (hks : ks' ⊆ ks) : s.Free ks' := by
  obtain ⟨k, hk, hmem⟩ := h
  exact ⟨k, hk, fun hm => hmem (hks hm)⟩

theorem Free.kind_ne (h : (Stream.token t s).Free ks) {k : TokenKind} (hk : k ∈ ks) :
    t.kind ≠ k :=
  fun heq => free_token.1 h (heq ▸ hk)

theorem Free.after? (h : s.Free ks) (hy : .symbol y ∈ ks) : s.after? y = none := by
  cases s with
  | done l => rfl
  | broken e => rfl
  | token t r => simp [Stream.after?, h.kind_ne hy]

theorem Free.skip (h : s.Free ks) (hy : .symbol y ∈ ks) : s.skip y = s := by
  cases s with
  | done l => rfl
  | broken e => rfl
  | token t r => simp [Stream.skip, h.kind_ne hy]

theorem after?_token (h : t.kind = .symbol y) : (Stream.token t s).after? y = some s := by
  simp [Stream.after?, h]

theorem after?_eq_some (h : s.after? y = some r) : ∃ t, t.kind = .symbol y ∧ s = .token t r := by
  unfold Stream.after? at h
  split at h
  · split at h
    · next ht =>
      cases h
      exact ⟨_, ht, rfl⟩
    · cases h
  · cases h

end Stream

variable {s r : Stream} {v : Value} {ts : List Token}

/-! ## Identifiers and ports -/

theorem joined_eq_ok {text text' : String} (h : joined text s = .ok (text', r)) :
    ∃ more ts, text' = text ++ more ∧ s = ts ++ r ∧ IsJoined more ts := by
  fun_induction joined text s with
  | case1 => cases h
  | case2 text l v l' v' rest ih =>
    obtain ⟨more, ts, rfl, rfl, hts⟩ := ih h
    exact ⟨_, ⟨_, l, v⟩ :: ⟨_, l', v'⟩ :: ts, String.append_assoc .., rfl,
      .cons (t := ⟨.string, l', v'⟩) rfl rfl hts⟩
  | case3 => exact absurd h Stream.fail_ne_ok
  | case4 =>
    cases h
    exact ⟨"", [], by simp, rfl, .nil⟩

theorem joined_append {text more : String} (h : IsJoined more ts) (hs : s.Free [.symbol .plus]) :
    joined text (ts ++ s) = .ok (text ++ more, s) := by
  induction h generalizing text with
  | nil =>
    rw [Stream.nil_append]
    unfold joined
    split
    · simp [Stream.Free, Stream.peek] at hs
    · simp at hs
    · simp
  | @cons p t more ts hp ht _ ih =>
    obtain ⟨_, v, _⟩ := p
    obtain ⟨_, w, _⟩ := t
    cases hp
    cases ht
    rw [Stream.cons_append, Stream.cons_append, joined, ih, String.append_assoc]

theorem identifier_eq_ok (h : identifier s = .ok (v, r)) :
    ∃ ts, s = ts ++ r ∧ IsIdentifier v ts := by
  unfold identifier at h
  split at h
  · next v' l rest =>
    cases h
    exact ⟨[⟨.id, v, l⟩], rfl, .name (t := ⟨.id, v, l⟩) rfl⟩
  · next v' l rest =>
    cases hj : joined v'.shown rest with
    | error e => rw [hj] at h; cases h
    | ok p =>
      rw [hj] at h
      cases h
      obtain ⟨more, ts, heq, rfl, hts⟩ := joined_eq_ok hj
      rw [heq]
      exact ⟨⟨.string, v', l⟩ :: ts, rfl, .strings (t := ⟨.string, v', l⟩) rfl hts⟩
  · exact absurd h Stream.fail_ne_ok

theorem identifier_append (h : IsIdentifier v ts) (hs : s.Free [.symbol .plus]) :
    identifier (ts ++ s) = .ok (v, s) := by
  cases h with
  | @name t ht =>
    obtain ⟨_, v, _⟩ := t
    cases ht
    rfl
  | @strings t text ts ht h =>
    obtain ⟨_, v, _⟩ := t
    cases ht
    rw [Stream.cons_append, identifier, joined_append h hs]
    rfl

theorem optionalIdentifier_eq_ok {v : Option Value} (h : optionalIdentifier s = .ok (v, r)) :
    ∃ ts, s = ts ++ r ∧ IsOptionalIdentifier v ts := by
  unfold optionalIdentifier at h
  split at h
  · cases h
  · cases h
    exact ⟨[], rfl, .none⟩
  · next t rest =>
    split at h
    · cases hi : identifier (.token t rest) with
      | error e => rw [hi] at h; cases h
      | ok p =>
        rw [hi] at h
        cases h
        obtain ⟨ts, heq, hts⟩ := identifier_eq_ok hi
        exact ⟨ts, heq, .some hts⟩
    · cases h
      exact ⟨[], rfl, .none⟩

theorem optionalIdentifier_append {v : Option Value} (h : IsOptionalIdentifier v ts)
    (hs : s.Free [.symbol .plus, .id, .string]) :
    optionalIdentifier (ts ++ s) = .ok (v, s) := by
  cases h with
  | none =>
    rw [Stream.nil_append]
    unfold optionalIdentifier
    split
    · simp [Stream.Free, Stream.peek] at hs
    · rfl
    · next t rest =>
      simp only [Stream.free_token, List.mem_cons, List.not_mem_nil, or_false, not_or] at hs
      rw [if_neg (by simp [hs])]
  | @some v ts h =>
    have hrun := identifier_append h (hs.mono (by simp))
    obtain ⟨t, us, rfl, ht⟩ := h.exists_cons
    rw [Stream.cons_append] at hrun ⊢
    rw [optionalIdentifier, if_pos ht, hrun]
    rfl

theorem Stream.Free.peek_map {α : Type} {ks : List TokenKind} (h : s.Free ks) (a : α) :
    (s.peek.map fun _ => a) = .ok a := by
  obtain ⟨k, hk, -⟩ := h
  rw [hk]
  rfl

theorem ports_eq_ok (h : ports s = .ok r) : ∃ ts, s = ts ++ r ∧ IsPorts ts := by
  fun_induction ports s with
  | case1 s _ =>
    rw [Stream.peek_map_eq_ok h]
    exact ⟨[], rfl, .nil⟩
  | case2 => cases h
  | case3 s s' ha v r' hi ih =>
    obtain ⟨us, rfl, hus⟩ := ih h
    obtain ⟨ts, rfl, hts⟩ := identifier_eq_ok hi
    obtain ⟨c, hc, rfl⟩ := Stream.after?_eq_some ha
    exact ⟨c :: (ts ++ us), by simp, .cons hc hts hus⟩

theorem ports_append (h : IsPorts ts) (hs : s.Free [.symbol .plus, .symbol .colon]) :
    ports (ts ++ s) = .ok s := by
  induction h with
  | nil =>
    rw [Stream.nil_append, ports]
    split
    · exact hs.peek_map s
    · next ha => simp [hs.after? (y := .colon) (by simp)] at ha
  | @cons c v ts us hc hv hus ih =>
    have hfree : (us ++ s).Free [.symbol .plus] := by
      cases hus with
      | nil => exact hs.mono (by simp)
      | cons hc _ _ => simp [hc]
    have hrun := identifier_append hv hfree
    rw [Stream.cons_append, Stream.append_append, ports]
    split
    · next ha => simp [Stream.after?_token hc] at ha
    · next s' ha =>
      rw [Stream.after?_token hc] at ha
      cases ha
      split
      · next he => simp [hrun] at he
      · next he =>
        rw [hrun] at he
        cases he
        exact ih

/-! ## Attribute lists -/

theorem attribute_eq_ok {k : Value} {r' : Stream} (hk : identifier s = .ok (k, r))
    (hv : assigned r = .ok (v, r')) : ∃ ts, s = ts ++ r' ∧ IsAttribute (k, v) ts := by
  obtain ⟨ts, rfl, hts⟩ := identifier_eq_ok hk
  unfold assigned at hv
  split at hv
  · next ha =>
    obtain ⟨e, he, rfl⟩ := Stream.after?_eq_some ha
    obtain ⟨us, rfl, hus⟩ := identifier_eq_ok hv
    exact ⟨ts ++ e :: us, by simp, .valued hts he hus⟩
  · cases hv
    exact ⟨ts, rfl, .flag hts⟩

theorem attribute_append {e : Value × Value} (h : IsAttribute e ts)
    (hs : s.Free [.symbol .plus, .symbol .equals]) :
    ∃ r, identifier (ts ++ s) = .ok (e.1, r) ∧ assigned r = .ok (e.2, s) := by
  cases h with
  | flag hk =>
    refine ⟨s, identifier_append hk (hs.mono (by simp)), ?_⟩
    rw [assigned, hs.after? (by simp)]
  | @valued k v e ts us hk he hv =>
    refine ⟨.token e (us ++ s), ?_, ?_⟩
    · rw [Stream.append_append, Stream.cons_append]
      exact identifier_append hk (by simp [he])
    · rw [assigned, Stream.after?_token he]
      exact identifier_append hv (hs.mono (by simp))

theorem separator_eq (s : Stream) :
    ∃ us, s = us ++ separator s ∧ IsOptional [.symbol .semicolon, .symbol .comma] us := by
  unfold separator
  split
  · next ha =>
    obtain ⟨t, ht, rfl⟩ := Stream.after?_eq_some ha
    exact ⟨[t], rfl, .some (by simp [ht])⟩
  · unfold Stream.skip
    split
    · next t rest _ =>
      split
      · next ht => exact ⟨[t], rfl, .some (by simp [ht])⟩
      · exact ⟨[], rfl, .none⟩
    · exact ⟨[], rfl, .none⟩

theorem separator_append (h : IsOptional [.symbol .semicolon, .symbol .comma] ts)
    (hs : s.Free [.symbol .semicolon, .symbol .comma]) : separator (ts ++ s) = s := by
  cases h with
  | none =>
    rw [Stream.nil_append, separator, hs.after? (by simp)]
    exact hs.skip (by simp)
  | @some t ht =>
    rw [Stream.cons_append, Stream.nil_append, separator]
    simp only [List.mem_cons, List.not_mem_nil, or_false] at ht
    rcases ht with ht | ht
    · rw [Stream.after?_token ht]
    · simp [Stream.after?, Stream.skip, ht]

theorem attributeList_eq_ok {a b : Attributes} (h : attributeList a s = .ok (b, r)) :
    ∃ es ts c, s = ts ++ Stream.token c r ∧ IsAttributes es ts ∧
      c.kind = .symbol .closeBracket ∧ b = a.setAll es := by
  fun_induction attributeList a s with
  | case1 a s r' ha =>
    cases h
    obtain ⟨c, hc, rfl⟩ := Stream.after?_eq_some ha
    exact ⟨[], [], c, rfl, .nil, hc, rfl⟩
  | case2 => cases h
  | case3 => cases h
  | case4 a s _ k r₁ hk v r₂ hv ih =>
    obtain ⟨es, vs, c, hr, hvs, hc, rfl⟩ := ih h
    obtain ⟨ts, rfl, hts⟩ := attribute_eq_ok hk hv
    obtain ⟨us, hus, husep⟩ := separator_eq r₂
    refine ⟨(k, v) :: es, ts ++ (us ++ vs), c, ?_, .cons hts husep hvs, hc, rfl⟩
    rw [hus, hr]
    simp

theorem attributeList_append {a : Attributes} {c : Token} {es : List (Value × Value)}
    (h : IsAttributes es ts) (hc : c.kind = .symbol .closeBracket) :
    attributeList a (ts ++ Stream.token c s) = .ok (a.setAll es, s) := by
  induction h generalizing a with
  | nil =>
    rw [Stream.nil_append, attributeList, Stream.after?_token hc]
    rfl
  | @cons e es ts us vs he hu h ih =>
    -- what follows an attribute is a separator, another attribute or the closing bracket
    have hnext : (vs ++ Stream.token c s).Free
        [.symbol .plus, .symbol .equals, .symbol .semicolon, .symbol .comma] := by
      cases h with
      | nil => simp [hc]
      | cons he _ _ =>
        obtain ⟨t, us, rfl, ht⟩ := he.exists_cons
        rcases ht with ht | ht <;> simp [ht]
    have hafter : (us ++ (vs ++ Stream.token c s)).Free [.symbol .plus, .symbol .equals] := by
      cases hu with
      | none => exact hnext.mono (by simp)
      | some ht =>
        simp only [List.mem_cons, List.not_mem_nil, or_false] at ht
        rcases ht with ht | ht <;> simp [ht]
    obtain ⟨r, hkey, hvalue⟩ := attribute_append he hafter
    have hfirst : (ts ++ (us ++ (vs ++ Stream.token c s))).after? .closeBracket = none := by
      obtain ⟨t, us, rfl, ht⟩ := he.exists_cons
      rcases ht with ht | ht <;> simp [Stream.after?, ht]
    rw [Stream.append_append, Stream.append_append, attributeList]
    simp only [hfirst]
    split
    · next heq => simp [hkey] at heq
    · next heq =>
      rw [hkey] at heq
      cases heq
      split
      · next heq => simp [hvalue] at heq
      · next heq =>
        rw [hvalue] at heq
        cases heq
        rw [separator_append hu (hnext.mono (by simp)), ih]
        rfl

theorem attributeLists_eq_ok {a b : Attributes} (h : attributeLists a s = .ok (b, r)) :
    ∃ es ts, s = ts ++ r ∧ IsAttributeLists es ts ∧ b = a.setAll es := by
  fun_induction attributeLists a s with
  | case1 a s _ =>
    cases Stream.peek_map_eq_ok h
    exact ⟨[], [], rfl, .nil, rfl⟩
  | case2 => cases h
  | case3 a s s' ha b' r' hl ih =>
    obtain ⟨fs, us, rfl, hus, rfl⟩ := ih h
    obtain ⟨es, ts, c, rfl, hts, hc, rfl⟩ := attributeList_eq_ok hl
    obtain ⟨o, ho, rfl⟩ := Stream.after?_eq_some ha
    exact ⟨es ++ fs, o :: (ts ++ c :: us), by simp, .cons ho hts hc hus,
      (Attributes.setAll_append ..).symm⟩

theorem attributeLists_append {a : Attributes} {es : List (Value × Value)}
    (h : IsAttributeLists es ts) (hs : s.Free [.symbol .openBracket]) :
    attributeLists a (ts ++ s) = .ok (a.setAll es, s) := by
  induction h generalizing a with
  | nil =>
    rw [Stream.nil_append, attributeLists]
    split
    · exact hs.peek_map (a, s)
    · next ha => simp [hs.after? (y := .openBracket) (by simp)] at ha
  | @cons o c es fs ts us ho he hc h ih =>
    have hrun := attributeList_append (a := a) (s := us ++ s) he hc
    rw [Stream.cons_append, Stream.append_append, Stream.cons_append, attributeLists]
    split
    · next ha => simp [Stream.after?_token ho] at ha
    · next ha =>
      rw [Stream.after?_token ho] at ha
      cases ha
      split
      · next heq => simp [hrun] at heq
      · next heq =>
        rw [hrun] at heq
        cases heq
        rw [ih, Attributes.setAll_append]

/-! ## The ends of an edge -/

theorem end_eq_ok {t : Token} {rest r' : Stream} (hv : identifier (.token t rest) = .ok (v, r))
    (hp : ports r = .ok r') : ∃ ts, Stream.token t rest = ts ++ r' ∧ IsEnd (v, t.location) ts := by
  obtain ⟨ts, heq, hts⟩ := identifier_eq_ok hv
  obtain ⟨us, rfl, hus⟩ := ports_eq_ok hp
  obtain ⟨t', ts, rfl, -⟩ := hts.exists_cons
  rw [Stream.cons_append] at heq
  cases heq
  exact ⟨t :: (ts ++ us), by simp, .mk hts hus⟩

theorem end_append {e : Value × Location} (h : IsEnd e ts)
    (hs : s.Free [.symbol .plus, .symbol .colon]) :
    ∃ t rest r, ts ++ s = .token t rest ∧ (t.kind = .id ∨ t.kind = .string) ∧
      e.2 = t.location ∧ identifier (.token t rest) = .ok (e.1, r) ∧ ports r = .ok s ∧
      ∀ ks, s.Free ks → .symbol .colon ∉ ks → r.Free ks := by
  cases h with
  | @mk v t ts us hv hp =>
    have hfree : ∀ ks, s.Free ks → .symbol .colon ∉ ks → (us ++ s).Free ks := by
      intro ks hks hcolon
      cases hp with
      | nil => exact hks
      | cons hc _ _ => simpa [hc] using hcolon
    have hrun := identifier_append hv (hfree [.symbol .plus] (hs.mono (by simp)) (by simp))
    obtain ⟨t', us', heq, ht⟩ := hv.exists_cons
    cases heq
    exact ⟨t, ts ++ (us ++ s), us ++ s, by simp, ht, rfl, by simpa using hrun,
      ports_append hp hs, hfree⟩

theorem edgeEnd_eq_ok {e : Value × Location} (h : edgeEnd s = .ok (e, r)) :
    ∃ ts, s = ts ++ r ∧ IsEnd e ts := by
  unfold edgeEnd at h
  split at h
  · next t rest =>
    split at h
    · cases h
    · split at h
      · cases h
      · next hv =>
        cases hp : ports _ with
        | error e => rw [hp] at h; cases h
        | ok r'' =>
          rw [hp] at h
          cases h
          exact end_eq_ok hv hp
  · exact absurd h Stream.fail_ne_ok

theorem edgeEnd_append {e : Value × Location} (h : IsEnd e ts)
    (hs : s.Free [.symbol .plus, .symbol .colon]) : edgeEnd (ts ++ s) = .ok (e, s) := by
  obtain ⟨t, rest, r, heq, ht, hl, hv, hp, -⟩ := end_append h hs
  have hstart : isSubgraphStart t.kind = false := by
    rcases ht with ht | ht <;> rw [ht] <;> rfl
  rw [heq, edgeEnd]
  simp only [hstart, hv, hp, Bool.false_eq_true, if_false, ← hl]
  rfl

theorem edgeEnds_eq_ok {es : List (Value × Location)} (h : edgeEnds s = .ok (es, r)) :
    ∃ ts, s = ts ++ r ∧ IsEnds es ts := by
  fun_induction edgeEnds s generalizing es r with
  | case1 => cases h
  | case2 => cases h
  | case3 t rest _ ht v r' he ih =>
    cases hr : edgeEnds r' with
    | error e => rw [hr] at h; cases h
    | ok p =>
      rw [hr] at h
      cases h
      obtain ⟨ts, rfl, hts⟩ := edgeEnd_eq_ok he
      obtain ⟨us, rfl, hus⟩ := ih hr
      exact ⟨t :: (ts ++ us), by simp, .cons ht hts hus⟩
  | case4 =>
    cases h
    exact ⟨[], rfl, .nil⟩
  | case5 => cases h
  | case6 =>
    cases h
    exact ⟨[], rfl, .nil⟩

theorem edgeEnds_append {es : List (Value × Location)} (h : IsEnds es ts)
    (hs : s.Free [.symbol .plus, .symbol .colon, .symbol .arrow, .symbol .line]) :
    edgeEnds (ts ++ s) = .ok (es, s) := by
  induction h with
  | nil =>
    rw [Stream.nil_append]
    unfold edgeEnds
    split
    · next t rest =>
      rw [if_neg (hs.kind_ne (by simp)), if_neg (hs.kind_ne (by simp))]
    · simp [Stream.Free, Stream.peek] at hs
    · rfl
  | @cons a e es ts us ha he h ih =>
    have hfree : (us ++ s).Free [.symbol .plus, .symbol .colon] := by
      cases h with
      | nil => exact hs.mono (by simp)
      | cons ha _ _ => simp [ha]
    have hrun := edgeEnd_append he hfree
    rw [Stream.cons_append, Stream.append_append, edgeEnds, if_neg (by simp [ha]), if_pos ha]
    split
    · next heq => simp [hrun] at heq
    · next heq =>
      rw [hrun] at heq
      cases heq
      rw [ih]
      rfl

end Structuring.Dot
