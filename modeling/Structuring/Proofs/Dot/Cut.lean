import Structuring.Proofs.Dot.Lexeme
import Structuring.Proofs.Dot.Spelling
import Structuring.Proofs.Text.Lines

/-!
# How a text is cut into tokens

At each place the longest piece is taken. Places are counted from the front: the row by the line
feeds before, the column by the characters behind the last of them.

* `placeBehind` — the place behind some characters.
* `Cut` — a text is cut into pieces, and the tokens among them make up a stream.
* `lex_cut` — lexical analysis cuts a text.
* `Cut.exists_lexeme` — the characters of a token, and its place.
* `string_decoded` — the units of a quoted string, and what it stands for.
-/

namespace Structuring.Dot

open Text (lastLine endsLine lastLine_newline lastLine_concat)

/-! ## Places -/

def placeBehind (file : Option String) (text : String) (before : List Char) (length : Nat) :
    Location :=
  ⟨file, ↑(1 + before.count '\n'), ↑(1 + (lastLine before).length), length, some text⟩

theorem past_append (p : Position) (cs ds : List Char) : p.past (cs ++ ds) = (p.past cs).past ds :=
  List.foldl_append

theorem past_start (cs : List Char) :
    Position.start.past cs = ⟨1 + cs.count '\n', 1 + (lastLine cs).length⟩ := by
  induction cs using List.reverseRecOn with
  | nil => rfl
  | append_singleton cs c ih =>
    rw [past_append, ih]
    by_cases hc : c = '\n'
    · subst hc
      rw [lastLine_newline, List.count_append, List.count_singleton_self]
      rfl
    · rw [lastLine_concat hc, List.count_append, List.count_singleton, if_neg (by simpa using hc),
        List.length_append]
      exact if_neg hc

theorem endsLine_iff (cs : List Char) :
    endsLine cs = true ↔ (Position.start.past cs).column = 1 := by
  rw [past_start]
  induction cs using List.reverseRecOn with
  | nil => exact iff_of_true rfl rfl
  | append_singleton cs c =>
    by_cases hc : c = '\n'
    · subst hc
      rw [lastLine_newline]
      simp [endsLine]
    · rw [lastLine_concat hc]
      simp [endsLine, hc]

/-! ## Cuts -/

/-- The characters `rest` of a text, with `before` in front of them, are cut into pieces, each the
longest that starts at its place; the tokens among them, up to the end or to the first place where no
piece starts, are those of a stream. -/
inductive Cut (file : Option String) (text : String) : List Char → List Char → Stream → Prop where
  | done {before : List Char} : Cut file text before [] (.done (placeBehind file text before 0))
  | unexpected {before rest : List Char} {c : Char} (hc : c ≠ '<')
      (hnone : ∀ w, w <+: c :: rest → ¬ IsPiece (endsLine before) w) :
      Cut file text before (c :: rest)
        (.broken ⟨.unexpectedChar c, placeBehind file text before 1⟩)
  | unclosed {before rest : List Char} (hopen : Unclosed rest)
      (hnone : ∀ w, w <+: rest → ¬ IsPiece (endsLine before) w) :
      Cut file text before rest (.broken ⟨.unterminatedHtml, placeBehind file text before 1⟩)
  | skip {before w after rest : List Char} {s : Stream} (hrest : rest = w ++ after)
      (hw : Skip (endsLine before) w)
      (hlongest : ∀ v, v <+: rest → IsPiece (endsLine before) v → v <+: w)
      (h : Cut file text (before ++ w) after s) : Cut file text before rest s
  | token {before w after rest : List Char} {s : Stream} {kind : TokenKind} {v : Value} {n : Nat}
      (hrest : rest = w ++ after) (hw : Lexeme kind v n w)
      (hlongest : ∀ v, v <+: rest → IsPiece (endsLine before) v → v <+: w)
      (h : Cut file text (before ++ w) after s) :
      Cut file text before rest (.token ⟨kind, v, placeBehind file text before n⟩ s)

variable {file : Option String} {text : String} {before rest : List Char} {s : Stream}

theorem stretch_past (n : Nat) :
    (Position.start.past before).stretch file text n = placeBehind file text before n := by
  rw [past_start]
  rfl

theorem column_eq_endsLine :
    decide ((Position.start.past before).column = 1) = endsLine before := by
  rw [Bool.eq_iff_iff, decide_eq_true_iff, endsLine_iff]

theorem longest_of_piece {b : Bool} {q : Piece} (h : piece b rest = .ok q) :
    ∀ v, v <+: rest → IsPiece b v → v <+: q.taken := by
  intro v hpre hv
  obtain ⟨q', hq', hpre'⟩ := piece_complete hv hpre
  rw [h] at hq'
  cases hq'
  exact hpre'

theorem not_isPiece_of_error {b : Bool} {f : Fault} (h : piece b rest = .error f) :
    ∀ w, w <+: rest → ¬ IsPiece b w := by
  intro w hpre hw
  obtain ⟨q, hq, -⟩ := piece_complete hw hpre
  rw [h] at hq
  cases hq

theorem lexFrom_cut (file : Option String) (text : String) (before rest : List Char) :
    Cut file text before rest (lexFrom file text (Position.start.past before) rest) := by
  generalize hp : Position.start.past before = p
  fun_induction lexFrom file text p rest generalizing before with
  | case1 p =>
    subst hp
    rw [stretch_past]
    exact .done
  | case2 p c cs f h =>
    subst hp
    rw [stretch_past]
    rw [column_eq_endsLine] at h
    rcases piece_eq_error h with ⟨hopen, rfl⟩ | ⟨d, hd, hne, rfl⟩
    · exact .unclosed hopen (not_isPiece_of_error h)
    · cases Option.some.inj hd
      exact .unexpected hne (not_isPiece_of_error h)
  | case3 p c cs q h rest hq ih =>
    subst hp
    rw [column_eq_endsLine] at h
    have hsound := piece_sound (List.cons_ne_nil c cs) h
    rw [Piece.Sound, hq] at hsound
    exact .skip (piece_append h).1.symm hsound (longest_of_piece h) (ih _ (past_append ..))
  | case4 p c cs q h rest kind value hq ih =>
    subst hp
    rw [column_eq_endsLine] at h
    have hsound := piece_sound (List.cons_ne_nil c cs) h
    rw [Piece.Sound, hq] at hsound
    rw [stretch_past]
    exact .token (piece_append h).1.symm hsound (longest_of_piece h) (ih _ (past_append ..))

theorem size_lexFrom_le (file : Option String) (text : String) (p : Position) (cs : List Char) :
    (lexFrom file text p cs).size ≤ cs.length := by
  fun_induction lexFrom file text p cs with
  | case1 | case2 => exact Nat.zero_le _
  | case3 p c cs q h rest hq ih => exact ih.trans (Nat.le_of_lt (length_rest_lt h))
  | case4 p c cs q h rest kind value hq ih => exact ih.trans_lt (length_rest_lt h)

/-- Lexical analysis cuts every text into pieces up to its end or to the first place where none
starts, with at most as many tokens as there are characters. -/
theorem lex_cut (file : Option String) (text : String) :
    Cut file text [] text.toList (lex file text) ∧ (lex file text).size ≤ text.length :=
  ⟨lexFrom_cut file text [] text.toList,
    String.length_toList ▸ size_lexFrom_le file text .start text.toList⟩

/-! ## The tokens of a cut -/

theorem Cut.exists_lexeme (h : Cut file text before rest s) {t : Token} (ht : t ∈ s.unroll.1) :
    t.kind = .eof ∨ ∃ between w after n, rest = between ++ (w ++ after) ∧
      Lexeme t.kind t.value n w ∧ t.location = placeBehind file text (before ++ between) n := by
  induction h with
  | done =>
    cases List.mem_singleton.1 ht
    exact .inl rfl
  | unexpected | unclosed => cases ht
  | @skip before w after rest s hrest hw hlongest h ih =>
    rcases ih ht with heof | ⟨between, v, after', n, rfl, hv, hplace⟩
    · exact .inl heof
    · refine .inr ⟨w ++ between, v, after', n, ?_, hv, ?_⟩
      · rw [hrest, List.append_assoc]
      · rw [hplace, List.append_assoc]
  | @token before w after rest s kind value n hrest hw hlongest h ih =>
    rcases List.mem_cons.1 ht with rfl | ht
    · refine .inr ⟨[], w, after, n, hrest, hw, ?_⟩
      rw [List.append_nil]
    · rcases ih ht with heof | ⟨between, v, after', n', rfl, hv, hplace⟩
      · exact .inl heof
      · refine .inr ⟨w ++ between, v, after', n', ?_, hv, ?_⟩
        · rw [hrest, List.append_assoc]
        · rw [hplace, List.append_assoc]

open StringUnit in
/-- A quoted string is made of units, in one way only. It stands for what they are taken for
together, and that is what they stand for one by one exactly if no pair of backslashes stands before
a line feed. -/
theorem string_decoded (file : Option String) (text : String) (t : Token)
    (ht : t ∈ (lex file text).unroll.1) (hkind : t.kind = .string) :
    ∃ before us after, text.toList = before ++ ('"' :: (spelled us ++ ['"']) ++ after) ∧
      t.location = placeBehind file text before ((spelled us).length + 2) ∧
      (∀ vs, spelled vs = spelled us → vs = us) ∧
      t.value = .text (String.ofList (decoded us)) ∧
      (t.value = .text (String.ofList (readings us)) ↔ ¬ slashesBeforeNewline <:+: us) := by
  obtain ⟨kind, value, place⟩ := t
  cases hkind
  have hcut := lexFrom_cut file text [] text.toList
  rcases hcut.exists_lexeme ht with heof | ⟨before, w, after, n, hrest, hw, hplace⟩
  · cases heof
  · cases hw with
    | string us hw =>
      have hlength : w.length = (spelled us).length + 2 := by simp [hw]
      refine ⟨before, us, after, ?_, ?_, fun vs h => spelled_injective h, rfl, ?_⟩
      · rw [hrest, hw]
      · rw [← hlength]
        exact hplace
      · rw [← decoded_eq_readings_iff, Value.text.injEq, String.ofList_inj]

/-- Strings with a line joined to the next, with quotes, and with a pair of backslashes before a line
feed. -/
def stringsText : String := "\"a\\\nb\" \"say \\\"hi\\\"\" \"\\\\\n\""

theorem stringsText_lex : (lex none stringsText).unroll.1 =
    [⟨.string, .text "ab", ⟨none, 1, 1, 6, some stringsText⟩⟩,
      ⟨.string, .text "say \"hi\"", ⟨none, 2, 4, 12, some stringsText⟩⟩,
      ⟨.string, .text "\\", ⟨none, 2, 17, 5, some stringsText⟩⟩,
      ⟨.eof, .text "EOF", ⟨none, 3, 2, 0, some stringsText⟩⟩] := by
  decide +kernel

open StringUnit in
theorem stringsText_decoded : ∃ t ∈ (lex none stringsText).unroll.1, t.kind = .string ∧
    t.value = .text "say \"hi\"" ∧ ∃ before us after,
      stringsText.toList = before ++ ('"' :: (spelled us ++ ['"']) ++ after) ∧
      t.value = .text (String.ofList (decoded us)) := by
  have ht : ⟨.string, .text "say \"hi\"", ⟨none, 2, 4, 12, some stringsText⟩⟩ ∈
      (lex none stringsText).unroll.1 := by
    rw [stringsText_lex]
    exact .tail _ (.head _)
  obtain ⟨before, us, after, htext, -, -, hvalue, -⟩ := string_decoded none stringsText _ ht rfl
  exact ⟨_, ht, rfl, rfl, before, us, after, htext, hvalue⟩

open StringUnit in
/-- Two backslashes and a line feed stand for themselves, but are taken for one backslash. -/
theorem slashesBeforeNewline_misread : ∃ t ∈ (lex none "\"\\\\\n\"").unroll.1, t.kind = .string ∧
    ∃ us, "\"\\\\\n\"".toList = '"' :: (spelled us ++ ['"']) ∧
      t.value ≠ .text (String.ofList (readings us)) := by
  have hlex : (lex none "\"\\\\\n\"").unroll.1.head? =
      some ⟨.string, .text "\\", ⟨none, 1, 1, 5, some "\"\\\\\n\""⟩⟩ := by decide +kernel
  refine ⟨_, List.mem_of_head? hlex, rfl, slashesBeforeNewline, by decide, ?_⟩
  decide

end Structuring.Dot
