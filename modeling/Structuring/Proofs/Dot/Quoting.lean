import Mathlib.Data.Bool.Basic
import Structuring.Proofs.Dot.Lexeme
import Structuring.Proofs.Dot.Spelling

/-!
# What is read, written and read again

A value that lexical analysis yields is written with or without quotes, and read again. Names,
numerals and html strings come back. A quoted string does not always: the test for names and
numerals passes over a line feed at the end, and backslashes are written as they are, although
reading gives them a meaning.

* `ReadsBack` — a value in its spelling is a single token for it.
* `Rereadable` — what a value must look like for that.
* `readsBack_text_iff`, `readsBack_html` — when a text or an html string reads back.
* `Lexed`, `lex_lexed` — which values the tokens of a text have.
* `token_readsBack_iff` — when the value of a token reads back.
-/

namespace Structuring.Dot

/-- A value in its spelling is a single identifier or string for the same value, whatever the text
that it makes up is called. -/
def ReadsBack (v : Value) : Prop :=
  ∀ file, ∃ t l, (lex file (quote v)).unroll = ([t, endToken l], none) ∧
    (t.kind = .id ∨ t.kind = .string) ∧ t.value = v

/-- The values that read back. A text is no name or numeral with a line feed after it, none of its
backslashes gets in the way of a quote, and none stands at the end of a line. -/
def Rereadable : Value → Prop
  | .text s => (∀ w, s.toList = w ++ ['\n'] → isPlain w = false) ∧ quotable s.toList = true ∧
      ¬ ['\\', '\n'] <:+: s.toList
  | .html s => IsHtml s.toList
  | .int _ => False

variable {cs rest w : List Char} {v : Value} {s : String}

theorem isPlain_dropLast_iff : (cs.getLast? = some '\n' → isPlain cs.dropLast = false) ↔
    ∀ w, cs = w ++ ['\n'] → isPlain w = false := by
  constructor
  · rintro h w rfl
    simpa using h
  · intro h hlast
    exact h _ (List.dropLast_append_getLast? '\n' hlast).symm

instance (v : Value) : Decidable (Rereadable v) :=
  match v with
  | .text s =>
    decidable_of_iff ((s.toList.getLast? = some '\n' → isPlain s.toList.dropLast = false) ∧
      quotable s.toList = true ∧ ¬ ['\\', '\n'] <:+: s.toList) (and_congr_left' isPlain_dropLast_iff)
  | .html s => inferInstanceAs (Decidable (IsHtml s.toList))
  | .int _ => inferInstanceAs (Decidable False)

/-! ## Names and numerals -/

theorem IsUnsigned.chars (h : IsUnsigned w) : ∀ c ∈ w, isDigit c = true ∨ c = '.' := by
  cases h with
  | fraction _ hall => grind
  | decimal _ hall hf => grind
  | digits _ hall => grind

theorem isPlain_chars (hplain : isPlain cs = true) :
    ∀ c ∈ cs, isIdChar c = true ∨ c = '.' ∨ c = '-' := by
  have hdigit : ∀ c, isDigit c = true ∨ c = '.' → isIdChar c = true ∨ c = '.' ∨ c = '-' := by
    rintro c (hc | rfl)
    · exact .inl (by rw [isIdChar, hc, Bool.or_true])
    · exact .inr (.inl rfl)
  rcases isPlain_cases hplain with ⟨c, w, rfl, hc, hw⟩ | hnumeral
  · intro d hd
    rcases List.mem_cons.1 hd with rfl | hd
    · exact .inl (by rw [isIdChar, hc, Bool.true_or])
    · exact .inl (List.all_eq_true.1 hw d hd)
  · rcases numeral_cases hnumeral with ⟨r, rfl, hr⟩ | hr
    · intro d hd
      rcases List.mem_cons.1 hd with rfl | hd
      · exact .inr (.inr rfl)
      · exact hdigit d (hr.chars d hd)
    · exact fun d hd => hdigit d (hr.chars d hd)

theorem notMem_of_isPlain {c : Char} (hplain : isPlain cs = true)
    (hc : isIdChar c = false ∧ c ≠ '.' ∧ c ≠ '-') : c ∉ cs := by
  intro hmem
  rcases isPlain_chars hplain c hmem with h | h | h
  · rw [hc.1] at h
    cases h
  · exact hc.2.1 h
  · exact hc.2.2 h

theorem ofWord?_eq_none {c : Char} (hc : c ∈ w)
    (hletter : ∀ k ∈ Keyword.all, c.toLower ∉ k.name.toList) : Keyword.ofWord? w = none := by
  refine List.find?_eq_none.2 fun k hk heq => hletter k hk ?_
  rw [← of_decide_eq_true heq]
  exact List.mem_map_of_mem hc

theorem rereadable_of_isPlain (hplain : isPlain s.toList = true) : Rereadable (.text s) := by
  have hslash : '\\' ∉ s.toList := notMem_of_isPlain hplain (by decide)
  have hnewline : '\n' ∉ s.toList := notMem_of_isPlain hplain (by decide)
  refine ⟨fun w hw => ?_, quotable_of_notMem hslash, fun hin => hslash (hin.subset (by simp))⟩
  rw [hw] at hnewline
  exact absurd (List.mem_append_right w (List.mem_singleton_self '\n')) hnewline

/-! ## One token -/

theorem readsBack_of_piece {kind : TokenKind} (hkind : kind = .id ∨ kind = .string)
    (hne : (quote v).toList ≠ []) (hpiece : ∀ b, ∃ n, piece b ((quote v).toList ++ []) =
      .ok ⟨(quote v).toList, [], some (kind, v), n⟩) : ReadsBack v := by
  intro file
  have hreads : Reads ((quote v).toList ++ []) fun ts => ∃ t, ts = [t] ∧ t.kind = kind ∧ t.value = v :=
    Reads.token _ hne hpiece fun t ht hv => Reads.nil ⟨t, rfl, ht, hv⟩
  obtain ⟨ts, l, heq, t, rfl, rfl, hv⟩ := hreads file (quote v) .start
  rw [List.append_nil] at heq
  exact ⟨t, l, by rw [lex, heq, Stream.unroll_append_done]; rfl, hkind, hv⟩

/-- The first piece of a value that reads back is a token for it, if it is one. -/
theorem ReadsBack.piece (h : ReadsBack v) :
    ∃ q, piece true (quote v).toList = .ok q ∧ ∀ k w, q.token = some (k, w) → w = v := by
  obtain ⟨t, l, heq, -, hv⟩ := h none
  unfold lex at heq
  cases hcs : (quote v).toList with
  | nil => exact ⟨_, rfl, nofun⟩
  | cons c cs =>
    rw [hcs] at heq
    cases hq : Dot.piece true (c :: cs) with
    | error f =>
      rw [lexFrom_error (p := .start) hq] at heq
      cases heq
    | ok q =>
      rw [lexFrom_eq (p := .start) hq] at heq
      refine ⟨q, rfl, fun k w hw => ?_⟩
      rw [hw] at heq
      rw [← hv, ← (List.cons.inj (Prod.mk.inj heq).1).1]

/-! ## Quoted strings -/

/-- A quote among escaped characters stands behind the backslash that was put there for it. -/
theorem escapeQuotes_split {t r : List Char} (h : t ++ '"' :: r = escapeQuotes cs ++ ['"']) :
    t = escapeQuotes cs ∧ r = [] ∨
      ∃ pre post, cs = pre ++ '"' :: post ∧ t = escapeQuotes pre ++ ['\\'] := by
  induction cs generalizing t with
  | nil =>
    cases t with
    | nil => exact .inl ⟨rfl, (List.cons.inj h).2⟩
    | cons c t => exact absurd (congrArg List.length h) (by simp [escapeQuotes])
  | cons c cs ih =>
    by_cases hc : c = '"'
    · subst hc
      rw [escapeQuotes_quote] at h ⊢
      cases t with
      | nil => exact absurd (List.cons.inj h).1 (by decide)
      | cons d t =>
        simp only [List.cons_append, List.cons.injEq] at h
        obtain ⟨rfl, h⟩ := h
        cases t with
        | nil => exact .inr ⟨[], cs, rfl, rfl⟩
        | cons d t =>
          simp only [List.cons_append, List.cons.injEq] at h
          obtain ⟨rfl, h⟩ := h
          rcases ih h with ⟨rfl, rfl⟩ | ⟨pre, post, rfl, rfl⟩
          · exact .inl ⟨rfl, rfl⟩
          · exact .inr ⟨'"' :: pre, post, rfl, by rw [escapeQuotes_quote]; rfl⟩
    · rw [escapeQuotes_cons hc] at h ⊢
      cases t with
      | nil => exact absurd (List.cons.inj h).1.symm hc
      | cons d t =>
        simp only [List.cons_append, List.cons.injEq] at h
        obtain ⟨rfl, h⟩ := h
        rcases ih h with ⟨rfl, rfl⟩ | ⟨pre, post, rfl, rfl⟩
        · exact .inl ⟨rfl, rfl⟩
        · exact .inr ⟨d :: pre, post, rfl, by rw [escapeQuotes_cons hc]; rfl⟩

theorem length_dropLineJoins_le (cs : List Char) : (dropLineJoins cs).length ≤ cs.length := by
  fun_induction dropLineJoins cs with
  | case1 => exact Nat.le_refl 0
  | case2 cs ih => exact ih.trans (by simp; omega)
  | case3 c cs _ ih => exact Nat.succ_le_succ ih

/-- Where nothing is dropped there is no backslash at the end of a line. -/
theorem not_infix_of_length (h : (dropLineJoins cs).length = cs.length) : ¬ ['\\', '\n'] <:+: cs := by
  fun_induction dropLineJoins cs with
  | case1 => exact fun hin => by simp at hin
  | case2 cs ih =>
    have := length_dropLineJoins_le cs
    simp at h
    omega
  | case3 c cs hne ih =>
    intro hin
    rcases List.infix_cons_iff.1 hin with hpre | hin
    · obtain ⟨r, hr⟩ := hpre
      obtain ⟨rfl, rfl⟩ := List.cons.inj hr
      exact hne r rfl rfl
    · exact ih (Nat.succ.inj h) hin

/-- If a quoted string stands for the text that was put in quotes, it ends at the last quote and
nothing was dropped. -/
theorem eq_of_unescape_eq {t r : List Char} (h : t ++ '"' :: r = escapeQuotes cs ++ ['"'])
    (ht : unescape t = cs) : t = escapeQuotes cs ∧ r = [] ∧ ¬ ['\\', '\n'] <:+: cs := by
  rcases escapeQuotes_split h with ⟨rfl, rfl⟩ | ⟨pre, post, rfl, rfl⟩
  · rw [unescape_escapeQuotes] at ht
    exact ⟨rfl, rfl, not_infix_of_length (congrArg List.length ht)⟩
  · -- the string ended too early, at a quote; then a backslash would have to be that quote
    have hlast : dropQuoteEscapes ['\\'] = ['\\'] := rfl
    rw [unescape, dropQuoteEscapes_escapeQuotes pre (by decide), hlast] at ht
    have hlen := congrArg List.length ht
    have hle := length_dropLineJoins_le (pre ++ ['\\'])
    simp only [List.length_append, List.length_cons, List.length_nil] at hlen hle
    obtain rfl : post = [] := List.length_eq_zero_iff.1 (by omega)
    rw [dropLineJoins_eq_self (not_infix_of_length (by simpa using hlen))] at ht
    exact absurd (List.append_cancel_left ht) (by decide)

/-! ## Texts -/

theorem toList_quote_text : (quote (.text s)).toList = quoteChars s.toList := String.toList_ofList

theorem ofWord?_newline (w : List Char) : Keyword.ofWord? (w ++ ['\n']) = none :=
  ofWord?_eq_none (List.mem_append_right w (List.mem_singleton_self '\n')) (by decide)

theorem dropFinalNewline_append (w : List Char) : dropFinalNewline (w ++ ['\n']) = w := by
  rw [dropFinalNewline, List.reverse_append]
  exact List.reverse_reverse w

theorem dropFinalNewline_cases (cs : List Char) :
    dropFinalNewline cs = cs ∨ ∃ w, cs = w ++ ['\n'] ∧ dropFinalNewline cs = w := by
  by_cases h : cs.getLast? = some '\n'
  · obtain ⟨w, rfl⟩ := List.getLast?_eq_some_iff.1 h
    exact .inr ⟨w, rfl, dropFinalNewline_append w⟩
  · exact .inl (dropFinalNewline_eq h)

theorem readsBack_of_isPlain (hplain : isPlain s.toList = true)
    (hword : Keyword.ofWord? s.toList = none) : ReadsBack (.text s) := by
  have hquote : (quote (.text s)).toList = s.toList := by
    rw [toList_quote_text, quoteChars, if_pos ⟨.inl hplain, hword⟩]
  refine readsBack_of_piece (.inl rfl) (fun hnil => ?_) fun b => ?_
  · rw [← hquote, hnil] at hplain
    cases hplain
  · obtain ⟨kind, hpiece, hkind⟩ := piece_plain b hplain apart_nil
    obtain rfl := hkind hword
    rw [String.ofList_toList] at hpiece
    rw [hquote]
    exact ⟨_, hpiece⟩

/-- Without quotes a line feed at the end is lost. -/
theorem not_readsBack_of_newline (hw : isPlain w = true) (hs : s.toList = w ++ ['\n']) :
    ¬ ReadsBack (.text s) := by
  intro h
  obtain ⟨q, hq, hvalue⟩ := h.piece
  have hquote : (quote (.text s)).toList = w ++ ['\n'] := by
    rw [toList_quote_text, quoteChars, hs, dropFinalNewline_append,
      if_pos ⟨.inr hw, ofWord?_newline w⟩]
  obtain ⟨kind, hpiece, -⟩ := piece_plain true hw (apart_cons (c := '\n') (by decide) [])
  rw [hquote, hpiece] at hq
  cases hq
  have hlen := congrArg List.length hs
  rw [← Value.text.inj (hvalue kind _ rfl), String.toList_ofList] at hlen
  simp at hlen

/-- In quotes a text reads back if no quote closes too early and nothing is dropped. -/
theorem readsBack_quoted_iff
    (hquote : (quote (.text s)).toList = '"' :: escapeQuotes s.toList ++ ['"']) :
    ReadsBack (.text s) ↔ quotable s.toList = true ∧ ¬ ['\\', '\n'] <:+: s.toList := by
  constructor
  · intro h
    obtain ⟨q, hq, hvalue⟩ := h.piece
    rw [hquote, List.cons_append, piece_quote] at hq
    cases hbody : quotedBody (escapeQuotes s.toList ++ ['"']) with
    | none =>
      rw [hbody] at hq
      cases hq
    | some p =>
      obtain ⟨t, r⟩ := p
      rw [hbody] at hq
      cases hq
      have ht : unescape t = s.toList := by
        rw [← Value.text.inj (hvalue .string _ rfl), String.toList_ofList]
      obtain ⟨rfl, rfl, hjoin⟩ := eq_of_unescape_eq (quotedBody_append hbody) ht
      exact ⟨quotedBody_escapeQuotes.1 hbody, hjoin⟩
  · rintro ⟨hquotable, hjoin⟩
    refine readsBack_of_piece (.inr rfl) (by rw [hquote]; exact List.cons_ne_nil _ _) fun b => ?_
    have hpiece := piece_quoted (b := b) hquotable hjoin []
    rw [String.ofList_toList] at hpiece
    rw [hquote]
    exact ⟨_, hpiece⟩

theorem readsBack_text_iff : ReadsBack (.text s) ↔ Rereadable (.text s) := by
  by_cases hbare : (isPlain s.toList = true ∨ isPlain (dropFinalNewline s.toList) = true) ∧
      Keyword.ofWord? s.toList = none
  · by_cases hplain : isPlain s.toList = true
    · exact iff_of_true (readsBack_of_isPlain hplain hbare.2) (rereadable_of_isPlain hplain)
    · have hdrop := hbare.1.resolve_left hplain
      rcases dropFinalNewline_cases s.toList with heq | ⟨w, hs, heq⟩
      · exact absurd (heq ▸ hdrop) hplain
      · rw [heq] at hdrop
        refine iff_of_false (not_readsBack_of_newline hdrop hs) fun h => ?_
        rw [h.1 w hs] at hdrop
        cases hdrop
  · have hnewline : ∀ w, s.toList = w ++ ['\n'] → isPlain w = false := by
      intro w hs
      rw [hs, dropFinalNewline_append] at hbare
      by_contra hw
      exact hbare ⟨.inr (Bool.eq_true_of_not_eq_false hw), ofWord?_newline w⟩
    rw [readsBack_quoted_iff (by rw [toList_quote_text, quoteChars, if_neg hbare]), Rereadable,
      and_iff_right hnewline]

/-! ## Html strings -/

theorem readsBack_html (hs : IsHtml s.toList) : ReadsBack (.html s) := by
  refine readsBack_of_piece (.inl (rfl : TokenKind.id = .id)) (fun hnil => ?_) fun b => ?_
  · have hhead := hs.head
    rw [show s.toList = [] from hnil] at hhead
    cases hhead
  · have hpiece := piece_html (b := b) hs []
    rw [String.ofList_toList] at hpiece
    exact ⟨_, hpiece⟩

/-! ## The tokens of a text -/

inductive Lexed : TokenKind → Value → Prop where
  | plain {s : String} (hplain : isPlain s.toList = true) (hword : Keyword.ofWord? s.toList = none) :
      Lexed .id (.text s)
  | html {s : String} (hs : IsHtml s.toList) : Lexed .id (.html s)
  | string (s : String) : Lexed .string (.text s)
  | keyword (k : Keyword) (v : Value) : Lexed (.keyword k) v
  | symbol (y : Symbol) (v : Value) : Lexed (.symbol y) v

theorem isPlain_of_isWord (h : IsWord w) : isPlain w = true := by
  cases w with
  | nil => exact h.elim
  | cons c w => rw [isPlain, h.1, List.all_eq_true.2 h.2, Bool.true_and, Bool.true_or]

theorem isPlain_of_isNumeral (h : IsNumeral w) : isPlain w = true := by
  obtain ⟨t, r, hnumeral, hpre⟩ := numeral_complete h (List.prefix_refl w)
  have hlen := congrArg List.length (numeral_append hnumeral).1
  have hle := hpre.length_le
  rw [List.length_append] at hlen
  have hr : r = [] := List.length_eq_zero_iff.1 (by omega)
  cases w with
  | nil => cases hnumeral
  | cons c w => simp [isPlain, hnumeral, hr]

theorem toLower_of_isDigit {c : Char} (hc : isDigit c = true) : c.toLower = c := by
  refine dif_neg fun h => ?_
  simp only [isDigit, Char.le_def, UInt32.le_iff_toNat_le, Bool.and_eq_true, decide_eq_true_eq] at hc
  have hle : 'A'.val.toNat ≤ c.val.toNat := h.1
  have : 'A'.val.toNat = 65 := rfl
  have : '9'.val.toNat = 57 := rfl
  omega

theorem ofWord?_of_isDigit {c : Char} (hc : c ∈ w) (hdigit : isDigit c = true) :
    Keyword.ofWord? w = none := by
  have hname : ∀ k ∈ Keyword.all, k.name.toList.any isDigit = false := by decide
  refine ofWord?_eq_none hc fun k hk hmem => ?_
  rw [toLower_of_isDigit hdigit] at hmem
  exact List.any_eq_false.1 (hname k hk) c hmem hdigit

theorem IsUnsigned.exists_digit (h : IsUnsigned w) : ∃ c ∈ w, isDigit c = true := by
  cases h with
  | fraction hd hall =>
    obtain ⟨c, hc⟩ := List.exists_mem_of_ne_nil _ hd
    exact ⟨c, List.mem_cons_of_mem _ hc, List.all_eq_true.1 hall c hc⟩
  | decimal hd hall hf =>
    obtain ⟨c, hc⟩ := List.exists_mem_of_ne_nil _ hd
    exact ⟨c, List.mem_append_left _ hc, List.all_eq_true.1 hall c hc⟩
  | digits hd hall =>
    obtain ⟨c, hc⟩ := List.exists_mem_of_ne_nil _ hd
    exact ⟨c, hc, List.all_eq_true.1 hall c hc⟩

theorem IsNumeral.exists_digit (h : IsNumeral w) : ∃ c ∈ w, isDigit c = true := by
  cases h with
  | unsigned h => exact h.exists_digit
  | negative h =>
    obtain ⟨c, hc, hdigit⟩ := h.exists_digit
    exact ⟨c, List.mem_cons_of_mem _ hc, hdigit⟩

theorem Lexeme.lexed {k : TokenKind} {n : Nat} (h : Lexeme k v n w) : Lexed k v := by
  cases h with
  | symbol y hw => exact .symbol y _
  | keyword k hw hk => exact .keyword k _
  | name hw hk =>
    refine .plain ?_ ?_
    · rw [String.toList_ofList]
      exact isPlain_of_isWord hw
    · rw [String.toList_ofList]
      exact List.find?_eq_none.2 fun k _ heq => hk k (of_decide_eq_true heq)
  | numeral hw =>
    obtain ⟨c, hc, hdigit⟩ := hw.exists_digit
    refine .plain ?_ ?_
    · rw [String.toList_ofList]
      exact isPlain_of_isNumeral hw
    · rw [String.toList_ofList]
      exact ofWord?_of_isDigit hc hdigit
  | string us hw => exact .string _
  | html hw =>
    refine .html ?_
    rwa [String.toList_ofList]

theorem lex_lexed (file : Option String) (text : String) :
    ∀ t ∈ (lex file text).unroll.1, t.kind = .eof ∨ Lexed t.kind t.value := by
  unfold lex
  fun_induction lexFrom file text .start text.toList with
  | case1 => simp [Stream.unroll]
  | case2 => simp [Stream.unroll]
  | case3 p c cs q h rest hq ih => exact ih
  | case4 p c cs q h rest kind value hq ih =>
    have hsound := piece_sound (List.cons_ne_nil c cs) h
    rw [Piece.Sound, hq] at hsound
    exact List.forall_mem_cons.2 ⟨.inr hsound.lexed, ih⟩

/-- The value of each name, numeral, html string or quoted string of a text reads back exactly if it
is rereadable, and that of each name, numeral or html string does. -/
theorem token_readsBack_iff (file : Option String) (text : String) (t : Token)
    (ht : t ∈ (lex file text).unroll.1) (hkind : t.kind = .id ∨ t.kind = .string) :
    (ReadsBack t.value ↔ Rereadable t.value) ∧ (t.kind = .id → ReadsBack t.value) := by
  have hlexed : Lexed t.kind t.value := by
    rcases lex_lexed file text t ht with heof | hlexed
    · rw [heof] at hkind
      rcases hkind with hkind | hkind <;> cases hkind
    · exact hlexed
  obtain ⟨kind, v, p⟩ := t
  cases hlexed with
  | plain hplain hword =>
    exact ⟨readsBack_text_iff, fun _ => readsBack_of_isPlain hplain hword⟩
  | html hs => exact ⟨iff_of_true (readsBack_html hs) hs, fun _ => readsBack_html hs⟩
  | string s => exact ⟨readsBack_text_iff, nofun⟩
  | keyword | symbol => rcases hkind with hkind | hkind <;> cases hkind

/-- A quoted string with quotes in it, and one that stands for a single backslash. -/
def twoStrings : String := "\"say \\\"hi\\\"\" \"\\\\\n\""

theorem twoStrings_lex : (lex none twoStrings).unroll.1 =
    [⟨.string, .text "say \"hi\"", ⟨none, 1, 1, 12, some twoStrings⟩⟩,
      ⟨.string, .text "\\", ⟨none, 1, 14, 5, some twoStrings⟩⟩,
      ⟨.eof, .text "EOF", ⟨none, 2, 2, 0, some twoStrings⟩⟩] := by
  decide +kernel

theorem twoStrings_readsBack : ∃ t u e, (lex none twoStrings).unroll.1 = [t, u, e] ∧
    t.kind = .string ∧ t.value = .text "say \"hi\"" ∧ ReadsBack t.value ∧
    u.kind = .string ∧ u.value = .text "\\" ∧ ¬ ReadsBack u.value := by
  refine ⟨_, _, _, twoStrings_lex, rfl, rfl, ?_, rfl, rfl, ?_⟩
  · refine (token_readsBack_iff none twoStrings _ ?_ (.inr rfl)).1.2 (by decide)
    rw [twoStrings_lex]
    exact .head _
  · refine fun h => absurd ((token_readsBack_iff none twoStrings _ ?_ (.inr rfl)).1.1 h) (by decide)
    rw [twoStrings_lex]
    exact .tail _ (.head _)

/-- The string for a name and a line feed is written as that name. -/
theorem finalNewline_misread :
    ∃ t ∈ (lex none "\"abc\n\"").unroll.1, t.kind = .string ∧ ¬ ReadsBack t.value := by
  have hlex : (lex none "\"abc\n\"").unroll.1.head? =
      some ⟨.string, .text "abc\n", ⟨none, 1, 1, 6, some "\"abc\n\""⟩⟩ := by decide +kernel
  have hplain : isPlain ['a', 'b', 'c'] = true := rfl
  exact ⟨_, List.mem_of_head? hlex, rfl, not_readsBack_of_newline hplain rfl⟩

end Structuring.Dot
