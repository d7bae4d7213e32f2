import Mathlib.Data.List.DropRight
import Structuring.Text.Lines

/-!
# Two ways to count lines

Rows are counted by line feeds, but a text is shown line by line with more characters than that
ending a line. The two counts agree up to a place exactly if no other end of a line stands before it.

* `lastLine` — the characters behind the last line feed.
* `Uncounted` — an end of a line that is not counted as a line feed.
* `getElem?_linesFrom` — where all ends of lines are counted, the line with the number of line feeds
  is the one that goes on behind the last of them.
* `getElem?_linesFrom_of_uncounted` — else that line has ended before.
-/

namespace Structuring.Text

def lastLine (cs : List Char) : List Char := cs.rtakeWhile (· ≠ '\n')

def endsLine (cs : List Char) : Bool := cs.getLast?.all (· = '\n')

def Uncounted (cs : List Char) : Prop :=
  ∃ p c q, cs = p ++ c :: q ∧ isLineBreak c = true ∧ c ≠ '\n' ∧ ¬ (c = '\r' ∧ q.head? = some '\n')

/-- Some characters stand among others, and an end of a line stands behind them. -/
def Ended (line cs : List Char) : Prop :=
  ∃ p c q, cs = p ++ line ++ c :: q ∧ isLineBreak c = true

variable {c : Char} {cs current before rest line : List Char}

/-! ## Line feeds -/

theorem lastLine_newline (cs : List Char) : lastLine (cs ++ ['\n']) = [] :=
  List.rtakeWhile_concat_neg _ _ _ (by simp)

theorem lastLine_concat (hc : c ≠ '\n') (cs : List Char) : lastLine (cs ++ [c]) = lastLine cs ++ [c] :=
  List.rtakeWhile_concat_pos _ _ _ (by simpa using hc)

theorem lastLine_append_newline (cs ds : List Char) : lastLine (cs ++ '\n' :: ds) = lastLine ds := by
  induction ds using List.reverseRecOn with
  | nil => exact lastLine_newline cs
  | append_singleton ds c ih =>
    rw [← List.cons_append, ← List.append_assoc]
    by_cases hc : c = '\n'
    · rw [hc, lastLine_newline, lastLine_newline]
    · rw [lastLine_concat hc, lastLine_concat hc, ih]

theorem lastLine_eq_self (h : '\n' ∉ cs) : lastLine cs = cs :=
  List.rtakeWhile_eq_self_iff.2 fun _ hc => decide_eq_true fun heq => h (heq ▸ hc)

/-! ## Ends of lines -/

theorem not_uncounted_nil : ¬ Uncounted [] := by
  rintro ⟨p, c, q, heq, -⟩
  simp at heq

theorem uncounted_cons : Uncounted (c :: cs) ↔
    (isLineBreak c = true ∧ c ≠ '\n' ∧ ¬ (c = '\r' ∧ cs.head? = some '\n')) ∨ Uncounted cs := by
  constructor
  · rintro ⟨p, d, q, heq, hd⟩
    cases p with
    | nil =>
      obtain ⟨rfl, rfl⟩ := List.cons.inj heq
      exact .inl hd
    | cons _ p => exact .inr ⟨p, d, q, (List.cons.inj heq).2, hd⟩
  · rintro (hc | ⟨p, d, q, rfl, hd⟩)
    · exact ⟨[], c, cs, rfl, hc⟩
    · exact ⟨c :: p, d, q, rfl, hd⟩

theorem uncounted_newline : Uncounted ('\n' :: cs) ↔ Uncounted cs := by
  rw [uncounted_cons]
  exact or_iff_right fun h => h.2.1 rfl

theorem uncounted_return : Uncounted ('\r' :: '\n' :: cs) ↔ Uncounted cs := by
  rw [uncounted_cons, uncounted_newline]
  exact or_iff_right fun h => h.2.2 ⟨rfl, rfl⟩

theorem ended_nil (hc : isLineBreak c = true) (cs : List Char) : Ended line (line ++ c :: cs) :=
  ⟨[], c, cs, rfl, hc⟩

theorem Ended.append (h : Ended line cs) (front : List Char) : Ended line (front ++ cs) := by
  obtain ⟨p, c, q, rfl, hc⟩ := h
  exact ⟨front ++ p, c, q, by simp, hc⟩

/-! ## Lines -/

theorem linesFrom_break (hc : isLineBreak c = true) (h : ¬ (c = '\r' ∧ cs.head? = some '\n')) :
    linesFrom current (c :: cs) = current.reverse :: linesFrom [] cs := by
  rw [linesFrom, if_pos hc]
  rintro ds rfl rfl
  exact h ⟨rfl, rfl⟩

theorem linesFrom_return (current cs : List Char) :
    linesFrom current ('\r' :: '\n' :: cs) = current.reverse :: linesFrom [] cs := by rw [linesFrom]

theorem linesFrom_char (hc : isLineBreak c = false) :
    linesFrom current (c :: cs) = linesFrom (c :: current) cs := by
  rw [linesFrom, if_neg (by simp [hc])]
  rintro ds rfl -
  revert hc
  decide

theorem ne_newline_of_char (hc : isLineBreak c = false) : c ≠ '\n' := by
  rintro rfl
  revert hc
  decide

/-- A carriage return that stands alone does so whatever follows that is no line feed. -/
theorem not_return_append (h : ∀ ds, c = '\r' → cs = '\n' :: ds → False)
    (hrest : rest.head? ≠ some '\n') : ¬ (c = '\r' ∧ (cs ++ rest).head? = some '\n') := by
  rintro ⟨rfl, hhead⟩
  cases cs with
  | nil => exact hrest hhead
  | cons d cs =>
    cases Option.some.inj hhead
    exact h cs rfl rfl

theorem head?_linesFrom (h : current ≠ [] ∨ cs ≠ []) :
    (linesFrom current cs).head? = some (current.reverse ++ cs.takeWhile (!isLineBreak ·)) := by
  fun_induction linesFrom current cs with
  | case1 current hnil => simp_all
  | case2 current _ => simp
  | case3 current cs _ =>
    have hbreak : isLineBreak '\r' = true := by decide
    rw [List.takeWhile_cons_of_neg (by simp [hbreak])]
    simp
  | case4 current c cs _ hc _ =>
    rw [List.takeWhile_cons_of_neg (by simp [hc])]
    simp
  | case5 current c cs _ hc ih =>
    rw [ih (.inl (List.cons_ne_nil _ _)), List.takeWhile_cons_of_pos (by simpa using hc)]
    simp

/-- Where all ends of lines are counted, the lines from the one with the number of line feeds on are
those from the last line feed on. -/
theorem drop_linesFrom (hcurrent : '\n' ∉ current) (h : ¬ Uncounted before) (rest : List Char) :
    (linesFrom current (before ++ rest)).drop (before.count '\n') =
      linesFrom (lastLine (current.reverse ++ before)).reverse rest := by
  fun_induction linesFrom current before with
  | case1 current _ | case2 current _ =>
    rw [List.append_nil, lastLine_eq_self (by simpa using hcurrent), List.reverse_reverse]
    rfl
  | case3 current cs ih =>
    rw [uncounted_return] at h
    have hcount : ('\r' :: '\n' :: cs).count '\n' = cs.count '\n' + 1 := by simp
    have happ : current.reverse ++ '\r' :: '\n' :: cs = (current.reverse ++ ['\r']) ++ '\n' :: cs := by
      simp
    rw [List.cons_append, List.cons_append, linesFrom_return, hcount, List.drop_succ_cons,
      ih List.not_mem_nil h, happ, lastLine_append_newline]
    rfl
  | case4 current c cs hreturn hc ih =>
    obtain rfl : c = '\n' := by
      by_contra hne
      have hnot : ¬ (c = '\r' ∧ (cs ++ []).head? = some '\n') := not_return_append hreturn nofun
      rw [List.append_nil] at hnot
      exact h (uncounted_cons.2 (.inl ⟨hc, hne, hnot⟩))
    rw [uncounted_newline] at h
    rw [List.cons_append, linesFrom_break hc (fun heq => absurd heq.1 (by decide)),
      List.count_cons_self, List.drop_succ_cons, ih List.not_mem_nil h, lastLine_append_newline]
    rfl
  | case5 current c cs _ hc ih =>
    have hc : isLineBreak c = false := by simpa using hc
    have hne := ne_newline_of_char hc
    have hcons : '\n' ∉ c :: current := by simp [hcurrent, Ne.symm hne]
    rw [List.cons_append, linesFrom_char hc, List.count_cons_of_ne hne,
      ih hcons fun hcs => h (uncounted_cons.2 (.inr hcs)), List.reverse_cons, List.append_assoc]
    rfl

/-- Where all ends of lines are counted, the line with the number of line feeds is the one that goes
on behind the last of them, up to the next end. -/
theorem getElem?_linesFrom (h : ¬ Uncounted before) (hrest : rest ≠ []) :
    (linesFrom [] (before ++ rest))[before.count '\n']? =
      some (lastLine before ++ rest.takeWhile (!isLineBreak ·)) := by
  rw [← List.head?_drop, drop_linesFrom List.not_mem_nil h, head?_linesFrom (.inr hrest),
    List.reverse_reverse]
  rfl

/-- There are at least as many lines as line feeds, and each of these has ended. -/
theorem exists_ended (hrest : rest.head? ≠ some '\n') {i : Nat} (hi : i < before.count '\n') :
    ∃ line, (linesFrom current (before ++ rest))[i]? = some line ∧
      Ended line (current.reverse ++ before) := by
  fun_induction linesFrom current before generalizing i with
  | case1 | case2 => simp at hi
  | case3 current cs ih =>
    rw [List.cons_append, List.cons_append, linesFrom_return]
    cases i with
    | zero => exact ⟨current.reverse, rfl, ended_nil (by decide) _⟩
    | succ i =>
      obtain ⟨line, hline, hended⟩ := ih (i := i) (by simpa using hi)
      refine ⟨line, hline, ?_⟩
      simpa using hended.append (current.reverse ++ ['\r', '\n'])
  | case4 current c cs hreturn hc ih =>
    rw [List.cons_append, linesFrom_break hc (not_return_append hreturn hrest)]
    cases i with
    | zero => exact ⟨current.reverse, rfl, ended_nil hc _⟩
    | succ i =>
      have hle : (c :: cs).count '\n' ≤ cs.count '\n' + 1 := by
        rw [List.count_cons]
        split <;> omega
      obtain ⟨line, hline, hended⟩ := ih (i := i) (by omega)
      refine ⟨line, hline, ?_⟩
      simpa using hended.append (current.reverse ++ [c])
  | case5 current c cs _ hc ih =>
    have hc : isLineBreak c = false := by simpa using hc
    have hne := ne_newline_of_char hc
    rw [List.count_cons_of_ne hne] at hi
    rw [List.cons_append, linesFrom_char hc]
    simpa using ih hi

theorem getElem?_linesFrom_of_uncounted (hrest : rest.head? ≠ some '\n') (h : Uncounted before) :
    ∃ line, (linesFrom current (before ++ rest))[before.count '\n']? = some line ∧
      Ended line (current.reverse ++ before) := by
  fun_induction linesFrom current before with
  | case1 | case2 => exact absurd h not_uncounted_nil
  | case3 current cs ih =>
    rw [uncounted_return] at h
    have hcount : ('\r' :: '\n' :: cs).count '\n' = cs.count '\n' + 1 := by simp
    rw [List.cons_append, List.cons_append, linesFrom_return, hcount]
    obtain ⟨line, hline, hended⟩ := ih h
    refine ⟨line, hline, ?_⟩
    simpa using hended.append (current.reverse ++ ['\r', '\n'])
  | case4 current c cs hreturn hc ih =>
    rw [List.cons_append, linesFrom_break hc (not_return_append hreturn hrest)]
    by_cases hnewline : c = '\n'
    · subst hnewline
      rw [uncounted_newline] at h
      rw [List.count_cons_self]
      obtain ⟨line, hline, hended⟩ := ih h
      refine ⟨line, hline, ?_⟩
      simpa using hended.append (current.reverse ++ ['\n'])
    · -- this end is one line more than there are line feeds
      rw [List.count_cons_of_ne hnewline]
      cases hi : cs.count '\n' with
      | zero => exact ⟨current.reverse, rfl, ended_nil hc _⟩
      | succ i =>
        have hcount : i < cs.count '\n' := by omega
        obtain ⟨line, hline, hended⟩ : ∃ line, (linesFrom [] (cs ++ rest))[i]? = some line ∧
          Ended line cs := exists_ended hrest hcount
        refine ⟨line, hline, ?_⟩
        simpa using hended.append (current.reverse ++ [c])
  | case5 current c cs _ hc ih =>
    have hc : isLineBreak c = false := by simpa using hc
    have hne := ne_newline_of_char hc
    have hcs : Uncounted cs := (uncounted_cons.1 h).resolve_left fun hbreak => by simp [hc] at hbreak
    rw [List.cons_append, linesFrom_char hc, List.count_cons_of_ne hne]
    simpa using ih hcs

end Structuring.Text
