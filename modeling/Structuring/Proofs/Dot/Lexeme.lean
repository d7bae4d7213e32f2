import Mathlib.Data.List.TakeWhile
import Structuring.Proofs.Dot.StringUnits

/-!
# Lexemes

Which characters make up a token and which are skipped, kind by kind, whatever the order in which
lexical analysis tries the kinds.

* `Skip` — blank space, comments, and lines that start with `#`.
* `Lexeme` — symbols, keywords, names, numerals, quoted strings and html strings.
* `piece_sound` — what is taken from the front of a text is one of them.
* `piece_complete` — where a text starts with one of them, at least that is taken.
* `piece_eq_error` — the fault that is found where it starts with none.
-/

namespace Structuring.Dot

open StringUnit (spelled decoded quotedBody_eq_some_iff unescape_spelled)

/-- Characters that are skipped. `lineStart` says whether they stand at the start of a line. -/
inductive Skip (lineStart : Bool) : List Char → Prop where
  | blank {w : List Char} (hne : w ≠ []) (hw : ∀ c ∈ w, isBlank c = true) : Skip lineStart w
  | lineComment {w : List Char} (hw : '\n' ∉ w) : Skip lineStart ('/' :: '/' :: w)
  | blockComment {w : List Char} (hw : ¬ ['*', '/'] <:+: w) :
      Skip lineStart ('/' :: '*' :: (w ++ ['*', '/']))
  | hashLine {w : List Char} (hstart : lineStart = true) (hw : '\n' ∉ w) :
      Skip lineStart ('#' :: w)

def IsWord : List Char → Prop
  | [] => False
  | c :: w => isIdStart c = true ∧ ∀ d ∈ w, isIdChar d = true

inductive IsNumeral : List Char → Prop where
  | unsigned {w : List Char} (hw : IsUnsigned w) : IsNumeral w
  | negative {w : List Char} (hw : IsUnsigned w) : IsNumeral ('-' :: w)

/-- The characters of a token, with its kind, its value, and the length with which it is reported.
Capital letters make no difference to what is a keyword. -/
inductive Lexeme : TokenKind → Value → Nat → List Char → Prop where
  | symbol {w : List Char} (y : Symbol) (hw : w = y.name.toList) :
      Lexeme (.symbol y) (.text (String.ofList w)) w.length w
  | keyword {w : List Char} (k : Keyword) (hw : IsWord w)
      (hk : w.map Char.toLower = k.name.toList) :
      Lexeme (.keyword k) (.text (String.ofList w)) w.length w
  | name {w : List Char} (hw : IsWord w) (hk : ∀ k : Keyword, w.map Char.toLower ≠ k.name.toList) :
      Lexeme .id (.text (String.ofList w)) w.length w
  | numeral {w : List Char} (hw : IsNumeral w) :
      Lexeme .id (.text (String.ofList w)) w.length w
  | string {w : List Char} (us : List StringUnit)
      (hw : w = '"' :: (spelled us ++ ['"'])) :
      Lexeme .string (.text (String.ofList (decoded us))) w.length w
  | html {w : List Char} (hw : IsHtml w) : Lexeme .id (.html (String.ofList w)) 1 w

def IsPiece (lineStart : Bool) (w : List Char) : Prop :=
  Skip lineStart w ∨ ∃ kind v n, Lexeme kind v n w

variable {b : Bool} {cs w t r : List Char}

/-! ## What is taken is a piece -/

theorem newline_notMem_run (cs : List Char) : '\n' ∉ (run (· ≠ '\n') cs).1 := by
  intro hmem
  have hall : (run (· ≠ '\n') cs).1.all (· ≠ '\n') = true := List.all_takeWhile
  have hne := List.all_eq_true.1 hall '\n' hmem
  simp at hne

theorem untilClose_sound (h : untilClose cs = some (t, r)) :
    ∃ w, t = w ++ ['*', '/'] ∧ ¬ ['*', '/'] <:+: w := by
  fun_induction untilClose cs generalizing t r with
  | case1 => cases h
  | case2 cs =>
    cases h
    exact ⟨[], rfl, by simp⟩
  | case3 c cs hclose ih =>
    obtain ⟨t', rfl, h'⟩ := exists_of_map_front [c] h
    obtain ⟨w, rfl, hw⟩ := ih h'
    refine ⟨c :: w, rfl, fun hin => (List.infix_cons_iff.1 hin).elim ?_ hw⟩
    rintro ⟨u, heq⟩
    obtain ⟨rfl, rfl⟩ := List.cons.inj heq
    exact hclose _ rfl (untilClose_append h').symm

theorem skipped_sound (h : skipped b cs = some (t, r)) : Skip b t := by
  unfold skipped at h
  split at h
  · cases h
  · cases h
    exact .lineComment (newline_notMem_run _)
  · obtain ⟨t', rfl, h'⟩ := exists_of_map_front ['/', '*'] h
    obtain ⟨w, rfl, hw⟩ := untilClose_sound h'
    exact .blockComment hw
  · next c rest _ _ =>
    split at h
    · next hc =>
      cases h
      exact .blank (List.cons_ne_nil _ _)
        (List.forall_mem_cons.2 ⟨hc, fun d hd => List.mem_takeWhile_imp hd⟩)
    · split at h
      · next hhash =>
        cases h
        obtain ⟨rfl, hstart⟩ := hhash
        exact .hashLine hstart (newline_notMem_run _)
      · cases h

theorem ofChar?_sound {c : Char} {y : Symbol} (h : Symbol.ofChar? c = some y) :
    [c] = y.name.toList := by
  unfold Symbol.ofChar? at h
  repeat
    split at h
    · subst c
      cases h
      decide
  cases h

theorem symbol?_sound {y : Symbol} (h : symbol? cs = some (y, t, r)) : t = y.name.toList := by
  unfold symbol? at h
  split at h
  · cases h
    decide
  · cases h
    decide
  · obtain ⟨y', hy, heq⟩ := Option.map_eq_some_iff.1 h
    cases heq
    exact ofChar?_sound hy
  · cases h

theorem numeral_sound (h : numeral cs = some (t, r)) : IsNumeral t := by
  rcases numeral_cases h with ⟨d, rfl, hd⟩ | hd
  · exact .negative hd
  · exact .unsigned hd

theorem Keyword.mem_all (k : Keyword) : k ∈ Keyword.all := by cases k <;> decide

/-- What holds of the token of a piece, if it has one, and else of the piece as skipped. -/
def Piece.Sound (b : Bool) (p : Piece) : Prop :=
  match p.token with
  | none => Skip b p.taken
  | some (kind, v) => Lexeme kind v p.length p.taken

theorem word_sound {c : Char} (hc : isIdStart c = true) (cs : List Char) :
    (word (c :: cs)).Sound b := by
  have hidChar : isIdChar c = true := by rw [isIdChar, hc, Bool.true_or]
  have hrun : run isIdChar (c :: cs) = (c :: cs.takeWhile isIdChar, cs.dropWhile isIdChar) := by
    simp [run, hidChar]
  have hword : IsWord (c :: cs.takeWhile isIdChar) :=
    ⟨hc, fun d hd => List.mem_takeWhile_imp hd⟩
  rw [word_of_run hrun]
  cases hk : Keyword.ofWord? (c :: cs.takeWhile isIdChar) with
  | some k =>
    unfold Keyword.ofWord? at hk
    have heq := List.find?_some hk
    exact .keyword k hword (of_decide_eq_true heq)
  | none =>
    refine .name hword fun k heq => ?_
    exact List.find?_eq_none.1 hk k k.mem_all (decide_eq_true heq)

theorem piece_sound {p : Piece} (hcs : cs ≠ []) (h : piece b cs = .ok p) : p.Sound b := by
  unfold piece at h
  split at h
  · next hskipped =>
    cases h
    exact skipped_sound hskipped
  split at h
  · next y t r hsymbol =>
    cases h
    have hname : String.ofList t = y.name := by
      rw [symbol?_sound hsymbol, String.ofList_toList]
    exact hname ▸ .symbol y (symbol?_sound hsymbol)
  split at h
  · next hnumeral =>
    cases h
    exact .numeral (numeral_sound hnumeral)
  split at h
  · exact absurd rfl hcs
  · split at h
    · next t r hbody =>
      cases h
      obtain ⟨us, rfl, -⟩ := quotedBody_eq_some_iff.1 hbody
      rw [unescape_spelled]
      exact .string us rfl
    · cases h
  · split at h
    · next hbody =>
      cases h
      exact .html (isHtml_of_htmlBody hbody)
    · cases h
  · split at h
    · next hc =>
      cases h
      exact word_sound hc _
    · cases h

/-! ## Where a piece stands, at least that is taken -/

theorem prefix_takeWhile {p : Char → Bool} (hw : ∀ c ∈ w, p c = true) (hpre : w <+: cs) :
    w <+: cs.takeWhile p := by
  obtain ⟨r, rfl⟩ := hpre
  rw [List.takeWhile_append_of_pos hw]
  exact List.prefix_append ..

theorem ne_newline (hw : '\n' ∉ w) : ∀ c ∈ w, decide (c ≠ '\n') = true :=
  fun _ hc => decide_eq_true fun heq => hw (heq ▸ hc)

theorem untilClose_complete (hw : ¬ ['*', '/'] <:+: w) (r : List Char) :
    untilClose (w ++ '*' :: '/' :: r) = some (w ++ ['*', '/'], r) := by
  induction w with
  | nil => rfl
  | cons c w ih =>
    rw [List.cons_append, untilClose, ih fun hin => hw (List.infix_cons hin)]
    · rfl
    · rintro ds rfl heq
      cases w with
      | nil => cases heq
      | cons d w =>
        obtain ⟨rfl, -⟩ := List.cons.inj heq
        exact hw (List.prefix_append ['*', '/'] w).isInfix

theorem skipped_complete (hw : Skip b w) (hpre : w <+: cs) :
    ∃ t r, skipped b cs = some (t, r) ∧ w <+: t := by
  cases hw with
  | blank hne hw =>
    cases w with
    | nil => exact absurd rfl hne
    | cons c w =>
      rw [List.forall_mem_cons] at hw
      obtain ⟨r, rfl⟩ := hpre
      exact ⟨_, _, skipped_of_blank hw.1 (w ++ r),
        List.cons_prefix_cons.2 ⟨rfl, prefix_takeWhile hw.2 (List.prefix_append ..)⟩⟩
  | @lineComment w hw =>
    obtain ⟨r, rfl⟩ := hpre
    refine ⟨_, _, rfl, ?_⟩
    refine List.cons_prefix_cons.2 ⟨rfl, List.cons_prefix_cons.2 ⟨rfl, ?_⟩⟩
    exact prefix_takeWhile (ne_newline hw) (List.prefix_append ..)
  | @blockComment w hw =>
    obtain ⟨r, rfl⟩ := hpre
    refine ⟨'/' :: '*' :: (w ++ ['*', '/']), r, ?_, List.prefix_refl _⟩
    have hclose := untilClose_complete hw r
    rw [List.cons_append, List.cons_append, List.append_assoc]
    simp only [skipped, List.cons_append, List.nil_append, hclose, Option.map_some]
  | @hashLine w hstart hw =>
    obtain ⟨r, rfl⟩ := hpre
    subst hstart
    refine ⟨_, _, rfl, List.cons_prefix_cons.2 ⟨rfl, ?_⟩⟩
    exact prefix_takeWhile (ne_newline hw) (List.prefix_append ..)

theorem prefix_of_run {p : Char → Bool} {d : List Char} (hall : d.all p = true) (hpre : d <+: cs)
    (hrun : run p cs = (t, r)) : d <+: t := by
  cases hrun
  exact prefix_takeWhile (List.all_eq_true.1 hall) hpre

/-- Of the numerals that a text starts with, the longest is taken. -/
theorem unsigned_complete (hw : IsUnsigned w) (hpre : w <+: cs) :
    ∃ t r, unsigned cs = some (t, r) ∧ w <+: t := by
  cases hw with
  | @fraction d hd hall =>
    obtain ⟨r, rfl⟩ := hpre
    rw [List.cons_append, unsigned]
    split
    · next hrun =>
      exact absurd (List.prefix_nil.1 (prefix_of_run hall (List.prefix_append d r) hrun)) hd
    · next hrun =>
      have hd' := prefix_of_run hall (List.prefix_append d r) hrun
      exact ⟨_, _, rfl, List.cons_prefix_cons.2 ⟨rfl, hd'⟩⟩
  | @decimal d f hd hall hf =>
    obtain ⟨r, rfl⟩ := hpre
    have hpoint : ∀ c ∈ ('.' :: (f ++ r)).head?, isDigit c = false := by
      intro c hc
      cases Option.some.inj hc
      rfl
    have hf' := prefix_takeWhile (List.all_eq_true.1 hf) (List.prefix_append f r)
    rw [List.append_assoc, List.cons_append, unsigned]
    · rw [run_apart hall hpoint]
      cases d with
      | nil => exact absurd rfl hd
      | cons c d =>
        refine ⟨_, _, rfl, ?_⟩
        rw [List.prefix_append_right_inj]
        exact List.cons_prefix_cons.2 ⟨rfl, hf'⟩
    · exact append_ne_point hd hall _
  | digits hd hall =>
    obtain ⟨r, rfl⟩ := hpre
    rw [unsigned]
    · split
      · next hrun =>
        exact absurd (List.prefix_nil.1 (prefix_of_run hall (List.prefix_append w r) hrun)) hd
      · next hrun =>
        have hw := prefix_of_run hall (List.prefix_append w r) hrun
        exact ⟨_, _, rfl, hw.trans (List.prefix_append ..)⟩
      · next hrun =>
        exact ⟨_, _, rfl, prefix_of_run hall (List.prefix_append w r) hrun⟩
    · exact append_ne_point hd hall _

theorem numeral_complete (hw : IsNumeral w) (hpre : w <+: cs) :
    ∃ t r, numeral cs = some (t, r) ∧ w <+: t := by
  cases hw with
  | @negative w hw =>
    obtain ⟨r, rfl⟩ := hpre
    obtain ⟨t, r', hrun, ht⟩ := unsigned_complete hw (List.prefix_append w r)
    refine ⟨'-' :: t, r', ?_, List.cons_prefix_cons.2 ⟨rfl, ht⟩⟩
    rw [List.cons_append, numeral, hrun]
    rfl
  | unsigned hw =>
    obtain ⟨t, r', hrun, ht⟩ := unsigned_complete hw hpre
    refine ⟨t, r', ?_, ht⟩
    obtain ⟨c, w', rfl, hc⟩ := hw.exists_cons
    obtain ⟨r, rfl⟩ := hpre
    rw [numeral]
    · exact hrun
    · intro r heq
      cases (List.cons.inj heq).1
      rcases hc with hc | hc <;> cases hc

theorem piece_of_skipped (h : skipped b cs = some (t, r)) :
    piece b cs = .ok ⟨t, r, none, t.length⟩ := by
  unfold piece
  rw [h]

theorem word_complete (hw : IsWord w) (hpre : w <+: cs) :
    ∃ p, piece b cs = .ok p ∧ w <+: p.taken := by
  cases w with
  | nil => exact hw.elim
  | cons c w =>
    have hall : ∀ d ∈ c :: w, isIdChar d = true :=
      List.forall_mem_cons.2 ⟨by rw [isIdChar, hw.1, Bool.true_or], hw.2⟩
    obtain ⟨r, rfl⟩ := hpre
    exact ⟨_, piece_word hw.1 (w ++ r), prefix_takeWhile hall (List.prefix_append ..)⟩

theorem symbol_complete (y : Symbol) (r : List Char) :
    ∃ p, piece b (y.name.toList ++ r) = .ok p ∧ y.name.toList <+: p.taken := by
  cases y with
  | arrow | line => exact ⟨_, rfl, List.prefix_refl _⟩
  | openBrace | closeBrace | openBracket | closeBracket | equals | semicolon | comma | colon | plus =>
    exact ⟨_, piece_symbol rfl, List.prefix_refl _⟩

theorem piece_complete (hw : IsPiece b w) (hpre : w <+: cs) :
    ∃ p, piece b cs = .ok p ∧ w <+: p.taken := by
  rcases hw with hw | ⟨kind, v, n, hw⟩
  · obtain ⟨t, r, hskipped, ht⟩ := skipped_complete hw hpre
    exact ⟨_, piece_of_skipped hskipped, ht⟩
  · cases hw with
    | symbol y hw =>
      obtain ⟨r, rfl⟩ := hpre
      rw [hw]
      exact symbol_complete y r
    | keyword _ hw _ | name hw _ => exact word_complete hw hpre
    | numeral hw =>
      obtain ⟨t, r, hnumeral, ht⟩ := numeral_complete hw hpre
      exact ⟨_, piece_of_numeral hnumeral, ht⟩
    | string us hw =>
      obtain ⟨r, rfl⟩ := hpre
      subst hw
      have hpiece : piece b ('"' :: (spelled us ++ ['"']) ++ r) =
          .ok (.whole .string (.text (String.ofList (unescape (spelled us))))
            ('"' :: (spelled us ++ ['"']), r)) := by
        rw [List.cons_append, List.append_assoc, List.singleton_append, piece_quote,
          quotedBody_eq_some_iff.2 ⟨us, rfl, rfl⟩]
        rfl
      exact ⟨_, hpiece, List.prefix_refl _⟩
    | html hw =>
      obtain ⟨r, rfl⟩ := hpre
      exact ⟨_, piece_html hw r, List.prefix_refl _⟩

/-! ## Where no piece stands -/

/-- An html string that is not closed has more opening than closing brackets everywhere. -/
theorem htmlBody_eq_none {depth : Nat} (h : htmlBody depth cs = none) :
    ∀ p, p <+: cs → depth + p.count '<' ≠ p.count '>' := by
  fun_induction htmlBody depth cs with
  | case1 => cases h
  | case2 depth =>
    intro p hp
    cases List.prefix_nil.1 hp
    simp
  | case3 depth c cs ih =>
    intro p hp heq
    cases p with
    | nil => simp at heq
    | cons d p =>
      obtain ⟨rfl, hpre⟩ := List.cons_prefix_cons.1 hp
      exact ih (Option.map_eq_none_iff.1 h) p hpre ((nesting_balanced depth d p).2 heq)

/-- An html string that starts here and is never closed. -/
def Unclosed (cs : List Char) : Prop :=
  cs.head? = some '<' ∧ ∀ w, w <+: cs → w ≠ [] → ¬ Balanced w

theorem unclosed_of_htmlBody (h : htmlBody 1 cs = none) : Unclosed ('<' :: cs) := by
  refine ⟨rfl, fun w hw hne hbalanced => ?_⟩
  cases w with
  | nil => exact hne rfl
  | cons c w =>
    obtain ⟨rfl, hpre⟩ := List.cons_prefix_cons.1 hw
    simp only [Balanced, List.count_cons_self] at hbalanced
    rw [List.count_cons_of_ne (by decide)] at hbalanced
    exact htmlBody_eq_none h w hpre (by omega)

theorem piece_eq_error {f : Fault} (h : piece b cs = .error f) :
    (Unclosed cs ∧ f = .unterminatedHtml) ∨
      ∃ c, cs.head? = some c ∧ c ≠ '<' ∧ f = .unexpectedChar c := by
  unfold piece at h
  split at h
  · cases h
  split at h
  · cases h
  split at h
  · cases h
  split at h
  · cases h
  · split at h
    · cases h
    · cases h
      exact .inr ⟨'"', rfl, by decide, rfl⟩
  · split at h
    · cases h
    · next hbody =>
      cases h
      exact .inl ⟨unclosed_of_htmlBody hbody, rfl⟩
  · next c rest _ hhtml _ _ _ =>
    split at h
    · cases h
    · cases h
      exact .inr ⟨c, rfl, hhtml, rfl⟩

end Structuring.Dot
