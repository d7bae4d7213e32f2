import Structuring.Failure
import Structuring.Proofs.Dot.Places

/-!
# What an error shows of a text

An error at a character is printed with a line above a marker. The row of the place counts line feeds
only, but the text is cut where any line ends, so the line is the one of the character only if all
ends of lines before it are counted.

* `excerpt` — a line, a marker under it, and a message.
* `print_placeBehind` — a place is printed as an excerpt.
* `aligned_iff` — the caret stands under the place as long as the row fits in its column.
* `error_excerpt` — what is printed of an error of lexical analysis or of reading.
-/

namespace Structuring.Dot

open Text (isLineBreak lastLine Uncounted Ended)

/-! ## Excerpts -/

def fileLine : Option String → String
  | none => ""
  | some name => if name.isEmpty then "" else s!"File : \"{name}\"\n"

/-- What stands in front of a line: its number, in a column for five digits. -/
def margin (row : Nat) : String := padLeft 5 (toString row) ++ " :"

/-- Carets behind as many spaces as there are characters before the place. -/
def marker (offset n : Nat) : String :=
  "      :" ++ String.ofList (List.replicate offset ' ') ++
    String.ofList (List.replicate (max n 1) '^')

/-- A line with its number, a marker of `n` carets behind `offset` characters of it, and a message. -/
def excerpt (file : Option String) (row : Nat) (line : String) (offset n : Nat)
    (message : String) : String :=
  fileLine file ++ (margin row ++ line ++ "\n" ++ marker offset n ++ "\n") ++
    "      : " ++ message ++ "\n"

variable {file : Option String} {text line message : String} {before rest : List Char}
  {row offset n : Nat}

theorem repeated_caret (n : Nat) :
    repeated (max (n : Int) 1) '^' = String.ofList (List.replicate (max n 1) '^') := by
  have hmax : (max (n : Int) 1).toNat = max n 1 := by omega
  rw [repeated, hmax]

theorem repeated_space (offset : Nat) :
    repeated (↑(1 + offset) - 1) ' ' = String.ofList (List.replicate offset ' ') := by
  have hsub : ((↑(1 + offset) : Int) - 1).toNat = offset := by omega
  rw [repeated, hsub]

theorem print_placeBehind (h : (Text.lines text)[before.count '\n']? = some line) :
    (placeBehind file text before n).print message none =
      excerpt file (1 + before.count '\n') line (lastLine before).length n message := by
  have hline : (placeBehind file text before n).line? (Text.lines text) = some line := by
    have hrow : 1 ≤ (↑(1 + before.count '\n') : Int) := by omega
    have hindex : (↑(1 + before.count '\n') : Int).toNat - 1 = before.count '\n' := by omega
    rw [Location.line?, placeBehind, if_pos hrow, hindex, h]
  have hprint : (placeBehind file text before n).print message none =
      (placeBehind file text before n).printWithin message (Text.lines text) := rfl
  rw [hprint, Location.printWithin, hline]
  simp only [placeBehind, repeated_caret, repeated_space]
  simp only [excerpt, fileLine, margin, marker, String.append_assoc]
  rfl

theorem excerpt_inj {line' : String}
    (h : excerpt file row line offset n message = excerpt file row line' offset n message) :
    line = line' := by
  simpa only [excerpt, String.append_left_inj, String.append_right_inj] using h

/-! ## The caret -/

theorem idxOf_marker (offset n : Nat) : (marker offset n).toList.idxOf '^' = 7 + offset := by
  have hlist : (marker offset n).toList =
      ("      :".toList ++ List.replicate offset ' ') ++ '^' :: List.replicate (max n 1 - 1) '^' := by
    have hmax : max n 1 = max n 1 - 1 + 1 := by omega
    rw [← List.replicate_succ, ← hmax, marker, String.toList_append, String.toList_append,
      String.toList_ofList, String.toList_ofList, String.toList_ofList]
  have hne : '^' ∉ "      :".toList ++ List.replicate offset ' ' := by
    rw [List.mem_append, List.mem_replicate]
    rintro (h | ⟨-, h⟩)
    · revert h
      decide
    · cases h
  rw [hlist, List.idxOf_append_of_notMem hne, List.idxOf_cons_self, List.length_append,
    List.length_replicate]
  rfl

theorem length_padLeft (width : Nat) (s : String) : (padLeft width s).length = max width s.length := by
  rw [padLeft, String.length_append, String.length_ofList, List.length_replicate]
  omega

/-- The first caret stands under the place in its line exactly if the number of the line has at most
five digits. -/
theorem aligned_iff :
    (marker offset n).toList.idxOf '^' = (margin row).length + offset ↔ row < 100000 := by
  have hdigits : (toString row).length ≤ 5 ↔ row < 10 ^ 5 := Nat.length_repr_le_iff (by decide)
  have hmargin : (margin row).length = max 5 (toString row).length + 2 := by
    rw [margin, String.length_append, length_padLeft]
    rfl
  rw [idxOf_marker, hmargin]
  omega

/-! ## Errors -/

/-- An error at a character is printed with a line, and with a caret for the place in it. Where all
ends of lines before the character are counted, the line is the one in which the character stands, up
to its next end; else it is one that has ended before. The caret stands under the place exactly if
the number of the line has at most five digits. -/
theorem error_excerpt (file : Option String) (text : String) (e : Error) (write : NodeId → String)
    (h : (lex file text).unroll.2 = some e ∨
      ∃ limit tag, parse limit file text tag = .error (.text e)) :
    ∃ before rest n, text.toList = before ++ rest ∧ e.location = placeBehind file text before n ∧
      (rest ≠ [] → ∃ line,
        ((Failure.dot e).problem? write).map Problem.print =
          some (excerpt file (1 + before.count '\n') line (lastLine before).length n
            e.fault.message) ∧
        (¬ Uncounted before →
          line.toList = lastLine before ++ rest.takeWhile (!isLineBreak ·)) ∧
        (Uncounted before → Ended line.toList before) ∧
        ((marker (lastLine before).length n).toList.idxOf '^' =
            (margin (1 + before.count '\n')).length + (lastLine before).length ↔
          1 + before.count '\n' < 100000)) := by
  obtain ⟨before, rest, n, htext, hhead, hplace⟩ := error_isPlace h
  refine ⟨before, rest, n, htext, hplace, fun hrest => ?_⟩
  have hprint : ∀ line, (Text.linesFrom [] (before ++ rest))[before.count '\n']? = some line →
      ((Failure.dot e).problem? write).map Problem.print =
        some (excerpt file (1 + before.count '\n') (String.ofList line) (lastLine before).length n
          e.fault.message) := by
    intro line hline
    refine congrArg some ?_
    have hlines : (Text.lines text)[before.count '\n']? = some (String.ofList line) := by
      rw [Text.lines, htext, List.getElem?_map, hline]
      rfl
    rw [← print_placeBehind hlines, ← hplace]
    rfl
  by_cases hbreaks : Uncounted before
  · obtain ⟨line, hline, hended⟩ := Text.getElem?_linesFrom_of_uncounted hhead hbreaks
    refine ⟨_, hprint line hline, fun hnot => absurd hbreaks hnot, fun _ => ?_, aligned_iff⟩
    rwa [String.toList_ofList]
  · have hline := Text.getElem?_linesFrom hbreaks hrest
    refine ⟨_, hprint _ hline, fun _ => ?_, fun h => absurd h hbreaks, aligned_iff⟩
    rw [String.toList_ofList]

theorem parse_eq_error {limit : Nat} {file : Option String} {text : String} {tag : Nat}
    {e : ReadError} (h : (parse limit file text tag).map (fun _ => ()) = .error e) :
    parse limit file text tag = .error e := by
  cases hparse : parse limit file text tag with
  | error e' =>
    rw [hparse] at h
    exact congrArg Except.error (Except.error.inj h)
  | ok g =>
    rw [hparse] at h
    cases h

def bracketText : String := "digraph \x7b\n  ]\n\x7d"

theorem bracketText_excerpt : ∃ e, parse 100 none bracketText 0 = .error (.text e) ∧
    ∃ before rest n, bracketText.toList = before ++ rest ∧
      e.location = placeBehind none bracketText before n ∧
      (rest ≠ [] → ∃ line, ((Failure.dot e).problem? fun _ => "").map Problem.print =
        some (excerpt none (1 + before.count '\n') line (lastLine before).length n
          e.fault.message)) := by
  have herror : parse 100 none bracketText 0 =
      .error (.text ⟨.expectedStatement "]", ⟨none, 2, 3, 1, some bracketText⟩⟩) :=
    parse_eq_error (by decide +kernel)
  obtain ⟨before, rest, n, htext, hplace, hshown⟩ :=
    error_excerpt none bracketText _ (fun _ => "") (.inr ⟨100, 0, herror⟩)
  refine ⟨_, herror, before, rest, n, htext, hplace, fun hrest => ?_⟩
  obtain ⟨line, hline, -⟩ := hshown hrest
  exact ⟨line, hline⟩

def formFeedText : String := "digraph \x7b\x0c\n]\n\x7d"

/-- The bracket stands on a line of its own, but an empty line is shown for it. -/
theorem formFeedText_excerpt : ∃ e before rest, parse 100 none formFeedText 0 = .error (.text e) ∧
    formFeedText.toList = before ++ rest ∧ e.location = placeBehind none formFeedText before 1 ∧
    String.ofList (lastLine before ++ rest.takeWhile (· ≠ '\n')) = "]" ∧
    e.location.print e.fault.message none = excerpt none 2 "" 0 1 e.fault.message ∧
    e.location.print e.fault.message none ≠ excerpt none 2 "]" 0 1 e.fault.message := by
  have herror : parse 100 none formFeedText 0 =
      .error (.text ⟨.expectedStatement "]", ⟨none, 2, 1, 1, some formFeedText⟩⟩) :=
    parse_eq_error (by decide +kernel)
  have hprint : (placeBehind none formFeedText "digraph \x7b\x0c\n".toList 1).print
      (Fault.message (.expectedStatement "]")) none =
        excerpt none 2 "" 0 1 (Fault.message (.expectedStatement "]")) :=
    print_placeBehind (by decide)
  refine ⟨_, "digraph \x7b\x0c\n".toList, "]\n\x7d".toList, herror, by decide, by decide, by decide,
    hprint, fun heq => ?_⟩
  have hline : "" = "]" := excerpt_inj (hprint.symm.trans heq)
  exact absurd hline (by decide)

end Structuring.Dot
