import Structuring.Proofs.Dot.Parsing
import Structuring.Proofs.Dot.Pieces

/-!
# Values are spelled so that they are read again

* `Reads` — the characters up to the end of a text become tokens with some property. Each lemma
  about it takes the characters of one piece from the front.
* `Writable` — the values that have a spelling.
* `Reads.quote` — a value in its spelling is read as an identifier for the same value.
-/

namespace Structuring.Dot

/-- Wherever lexical analysis stands, the characters become tokens for which `P` holds, up to the
end of the text. -/
def Reads (cs : List Char) (P : List Token → Prop) : Prop :=
  ∀ file source p, ∃ ts l, lexFrom file source p cs = ts ++ Stream.done l ∧ P ts

variable {cs rest : List Char} {P : List Token → Prop}

theorem Reads.nil (h : P []) : Reads [] P := by
  intro file source p
  refine ⟨[], p.stretch file source 0, ?_, h⟩
  rw [lexFrom]
  rfl

theorem lexFrom_eq {file : Option String} {source : String} {p : Position} {c : Char} {q : Piece}
    (h : piece (p.column = 1) (c :: cs) = .ok q) :
    lexFrom file source p (c :: cs) =
      match q.token with
      | none => lexFrom file source (p.past q.taken) q.rest
      | some (kind, value) => .token ⟨kind, value, p.stretch file source q.length⟩
          (lexFrom file source (p.past q.taken) q.rest) := by
  rw [lexFrom]
  split
  · next hp => rw [h] at hp; cases hp
  · next hp => rw [h] at hp; cases hp; rfl

theorem lexFrom_error {file : Option String} {source : String} {p : Position} {c : Char} {f : Fault}
    (h : piece (p.column = 1) (c :: cs) = .error f) :
    lexFrom file source p (c :: cs) = .broken ⟨f, p.stretch file source 1⟩ := by
  rw [lexFrom]
  split
  · next hp => rw [h] at hp; cases hp; rfl
  · next hp => rw [h] at hp; cases hp

theorem Reads.token (cs : List Char) {kind : TokenKind} {v : Value} (hcs : cs ≠ [])
    (hpiece : ∀ b, ∃ n, piece b (cs ++ rest) = .ok ⟨cs, rest, some (kind, v), n⟩)
    (h : ∀ t : Token, t.kind = kind → t.value = v → Reads rest fun ts => P (t :: ts)) :
    Reads (cs ++ rest) P := by
  intro file source p
  obtain ⟨n, hn⟩ := hpiece (p.column = 1)
  obtain ⟨ts, l, heq, hts⟩ := h ⟨kind, v, p.stretch file source n⟩ rfl rfl file source (p.past cs)
  cases cs with
  | nil => exact absurd rfl hcs
  | cons c cs =>
    refine ⟨_ :: ts, l, ?_, hts⟩
    rw [List.cons_append] at hn ⊢
    rw [lexFrom_eq hn, Stream.cons_append, ← heq]

theorem lexFrom_blank {file : Option String} {source : String} {p : Position} {c : Char}
    (hc : isBlank c = true) (cs : List Char) :
    lexFrom file source p (c :: cs) = lexFrom file source (p.past (c :: cs.takeWhile isBlank))
      (cs.dropWhile isBlank) := by
  have hpiece : piece (p.column = 1) (c :: cs) =
      .ok ⟨c :: cs.takeWhile isBlank, cs.dropWhile isBlank, none,
        (c :: cs.takeWhile isBlank).length⟩ := by
    unfold piece
    rw [skipped_of_blank hc]
  rw [lexFrom_eq hpiece]

theorem Reads.blank {c : Char} (hc : isBlank c = true) (h : Reads cs P) : Reads (c :: cs) P := by
  intro file source p
  have heq : lexFrom file source p (c :: cs) = lexFrom file source (p.next c) cs := by
    rw [lexFrom_blank hc]
    cases cs with
    | nil => rfl
    | cons d cs =>
      by_cases hd : isBlank d = true
      · rw [lexFrom_blank hd, List.takeWhile_cons_of_pos hd, List.dropWhile_cons_of_pos hd]
        rfl
      · rw [List.takeWhile_cons_of_neg hd, List.dropWhile_cons_of_neg hd]
        rfl
  rw [heq]
  exact h file source (p.next c)

theorem Reads.symbol {c : Char} {y : Symbol} (hc : Symbol.ofChar? c = some y)
    (h : ∀ t : Token, t.kind = .symbol y → Reads cs fun ts => P (t :: ts)) : Reads (c :: cs) P :=
  Reads.token [c] (List.cons_ne_nil _ _) (fun _ => ⟨_, piece_symbol hc⟩)
    fun t ht _ => h t ht

theorem Reads.arrow (h : ∀ t : Token, t.kind = .symbol .arrow → Reads cs fun ts => P (t :: ts)) :
    Reads ('-' :: '>' :: cs) P := by
  have hpiece : ∀ b, piece b ('-' :: '>' :: cs) =
      .ok (.whole (.symbol .arrow) (.text Symbol.arrow.name) (['-', '>'], cs)) := fun _ => rfl
  exact Reads.token ['-', '>'] (List.cons_ne_nil _ _) (fun b => ⟨_, hpiece b⟩)
    fun t ht _ => h t ht

/-! ## Values -/

def Writable : Value → Prop
  | .text s => '\\' ∉ s.toList ∧ s.toList.getLast? ≠ some '\n'
  | .html s => IsHtml s.toList
  | .int _ => False

instance : DecidablePred Writable
  | .text s => inferInstanceAs (Decidable ('\\' ∉ s.toList ∧ s.toList.getLast? ≠ some '\n'))
  | .html s => inferInstanceAs (Decidable (IsHtml s.toList))
  | .int _ => isFalse id

theorem dropFinalNewline_eq (h : cs.getLast? ≠ some '\n') : dropFinalNewline cs = cs := by
  rw [← List.head?_reverse] at h
  unfold dropFinalNewline
  split
  · next heq =>
    rw [heq] at h
    exact absurd rfl h
  · rfl

theorem isIdentifier_of_token {t : Token} {v : Value} {kind : TokenKind} (hkind : t.kind = kind)
    (hv : t.value = v) (h : kind = .id ∨ kind = .string ∧ ∃ s, v = .text s) :
    IsIdentifier v [t] := by
  rcases h with rfl | ⟨rfl, s, rfl⟩
  · rw [← hv]
    exact .name hkind
  · have hstrings := IsIdentifier.strings hkind .nil
    rw [hv, String.append_empty] at hstrings
    exact hstrings

theorem Reads.identifier (kind : TokenKind) {v : Value} (hcs : cs ≠ [])
    (hkind : kind = .id ∨ kind = .string ∧ ∃ s, v = .text s)
    (hpiece : ∀ b, ∃ n, piece b (cs ++ rest) = .ok ⟨cs, rest, some (kind, v), n⟩)
    (h : ∀ us, IsIdentifier v us → Reads rest fun ts => P (us ++ ts)) : Reads (cs ++ rest) P :=
  Reads.token cs hcs hpiece fun _ ht hv => h _ (isIdentifier_of_token ht hv hkind)

theorem Reads.plain (hplain : isPlain cs = true) (hword : Keyword.ofWord? cs = none)
    (hrest : Apart rest)
    (h : ∀ us, IsIdentifier (.text (String.ofList cs)) us → Reads rest fun ts => P (us ++ ts)) :
    Reads (cs ++ rest) P := by
  refine Reads.identifier .id (fun hnil => by subst hnil; cases hplain) (.inl rfl) (fun b => ?_) h
  obtain ⟨kind, hpiece, hkind⟩ := piece_plain b hplain hrest
  exact ⟨_, hkind hword ▸ hpiece⟩

theorem Reads.quote {v : Value} (hv : Writable v) (hrest : Apart rest)
    (h : ∀ us, IsIdentifier v us → Reads rest fun ts => P (us ++ ts)) :
    Reads ((quote v).toList ++ rest) P := by
  cases v with
  | int n => exact hv.elim
  | html s =>
    have hne : s.toList ≠ [] := by
      intro hnil
      have hhead := hv.head
      rw [hnil] at hhead
      cases hhead
    refine Reads.identifier .id hne (.inl rfl) (fun b => ?_) h
    have hpiece := piece_html (b := b) hv rest
    rw [String.ofList_toList] at hpiece
    exact ⟨1, hpiece⟩
  | text s =>
    obtain ⟨hslash, hnewline⟩ := hv
    have hquote : (Dot.quote (.text s)).toList = quoteChars s.toList := String.toList_ofList
    rw [hquote, quoteChars, dropFinalNewline_eq hnewline]
    split
    · next hplain =>
      refine Reads.plain (hplain.1.elim id id) hplain.2 hrest ?_
      rwa [String.ofList_toList]
    · refine Reads.identifier .string (by simp) (.inr ⟨rfl, s, rfl⟩) (fun b => ?_) h
      have hpiece := piece_quoted (b := b) (quotable_of_notMem hslash)
        (fun hin => hslash (hin.subset List.mem_cons_self)) rest
      rw [String.ofList_toList] at hpiece
      exact ⟨_, hpiece⟩

end Structuring.Dot
