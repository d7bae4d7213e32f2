import Structuring.Proofs.Json.Number
import Structuring.Proofs.Json.Text

/-!
# Data are read back as they were written

On one line or indented, a value that holds no doubles and no integer that is too long is written in
ASCII and read as the same value. Html texts come back as texts, pairs of surrogates come back joined,
and of equal names in an object the last one counts.

* `Spelled` — the texts of a value, with blank space wherever it may stand.
* `Writable` — a value that can be written.
* `Writable.write`, `Writable.writeIndented` — what is written is such a text.
* `Spelled.ascii` — such a text is ASCII.
* `decoded` — what comes back of a value.
* `Reads` — with fuel for its characters such a text is read up to its end.
* `read_spelled` — what is read of such a text.
-/

namespace Structuring.Json

variable {b cs rest : List Char} {c : Char} {d : Datum} {ds : List Datum} {k : CodeText}
  {ms acc : List (CodeText × Datum)} {fuel : Nat}

/-! ## Blank space -/

def Blank (b : List Char) : Prop := ∀ c ∈ b, isBlank c = true

instance (b : List Char) : Decidable (Blank b) :=
  List.decidableBAll _ b

theorem Blank.nil : Blank [] := nofun

theorem skipBlank_append (hb : Blank b) (hc : isBlank c = false) (cs : List Char) :
    skipBlank (b ++ c :: cs) = c :: cs := by
  rw [skipBlank, List.dropWhile_append_of_pos hb, List.dropWhile_cons_of_neg (by simp [hc])]

theorem skipBlank_cons (hc : isBlank c = false) (cs : List Char) : skipBlank (c :: cs) = c :: cs :=
  skipBlank_append Blank.nil hc cs

theorem skipBlank_blank (hb : Blank b) : skipBlank b = [] := by
  induction b with
  | nil => rfl
  | cons c b ih =>
    have hc : isBlank c = true := hb c List.mem_cons_self
    rw [skipBlank, List.dropWhile_cons_of_pos hc]
    exact ih fun e he => hb e (List.mem_cons_of_mem c he)

theorem isBlank_eq_false (hc : isDigit c = true) : isBlank c = false := by
  have hne : ∀ d, isDigit d = false → c ≠ d := fun d hd => ne_of_isDigit hc hd
  simp [isBlank, hne ' ' (by decide), hne '\t' (by decide), hne '\n' (by decide),
    hne '\r' (by decide)]

theorem ends_of_isBlank (hc : isBlank c = true) (cs : List Char) : Ends (c :: cs) := by
  refine ends_cons ?_ cs
  simp only [isBlank, Bool.or_eq_true, decide_eq_true_eq] at hc
  obtain ((rfl | rfl) | rfl) | rfl := hc
  all_goals decide

theorem Blank.ends (hb : Blank b) (h : Ends rest) : Ends (b ++ rest) := by
  cases b with
  | nil => exact h
  | cons c b => exact ends_of_isBlank (hb c List.mem_cons_self) _

/-! ## Spellings -/

mutual

/-- The texts of a value that holds no doubles and no integer that is too long. -/
inductive Spelled : Datum → List Char → Prop where
  | null : Spelled .null "null".toList
  | true : Spelled (.bool true) "true".toList
  | false : Spelled (.bool false) "false".toList
  | int {n : Int} (hn : n.natAbs < 10 ^ digitLimit) : Spelled (.int n) (toString n).toList
  | text (s : CodeText) : Spelled (.text s) (quoted s).toList
  | html (s : CodeText) : Spelled (.html s) (quoted s).toList
  | nil : Spelled (.list []) ['[', ']']
  | list {ds : List Datum} {b cs : List Char} (hb : Blank b) (hds : SpelledItems ds cs) :
    Spelled (.list ds) ('[' :: (b ++ cs))
  | empty : Spelled (.object []) ['{', '}']
  | object {ms : List (CodeText × Datum)} {b cs : List Char} (hb : Blank b)
    (hms : SpelledMembers ms cs) : Spelled (.object ms) ('{' :: (b ++ cs))

inductive SpelledItems : List Datum → List Char → Prop where
  | last {d : Datum} {b cs : List Char} (hd : Spelled d cs) (hb : Blank b) :
    SpelledItems [d] (cs ++ (b ++ [']']))
  | cons {d : Datum} {ds : List Datum} {b cs cs' : List Char} (hd : Spelled d cs) (hb : Blank b)
    (hds : SpelledItems ds cs') : SpelledItems (d :: ds) (cs ++ ',' :: (b ++ cs'))

inductive SpelledMembers : List (CodeText × Datum) → List Char → Prop where
  | last {k : CodeText} {d : Datum} {b b' cs : List Char} (hb : Blank b) (hd : Spelled d cs)
    (hb' : Blank b') : SpelledMembers [(k, d)] ((quoted k).toList ++ ':' :: (b ++ (cs ++ (b' ++ ['}']))))
  | cons {k : CodeText} {d : Datum} {ms : List (CodeText × Datum)} {b b' cs cs' : List Char}
    (hb : Blank b) (hd : Spelled d cs) (hb' : Blank b') (hms : SpelledMembers ms cs') :
    SpelledMembers ((k, d) :: ms) ((quoted k).toList ++ ':' :: (b ++ (cs ++ ',' :: (b' ++ cs'))))

end

theorem exists_toString_cons (z : Int) :
    ∃ c cs, (toString z).toList = c :: cs ∧ (isDigit c = true ∨
      c = '-' ∧ ∃ e cs', cs = e :: cs' ∧ isDigit e = true) := by
  obtain ⟨c, cs, hcs, hc⟩ := exists_toDigits_cons z.natAbs
  rw [toList_toString, hcs]
  split
  · exact ⟨_, _, rfl, .inr ⟨rfl, c, cs, rfl, hc⟩⟩
  · exact ⟨_, _, rfl, .inl hc⟩

/-- What starts a value: no blank space and no closing bracket. -/
def Opens (cs : List Char) : Prop := ∃ c cs', cs = c :: cs' ∧ isBlank c = false ∧ c ≠ ']'

theorem Opens.append (h : Opens cs) (rest : List Char) : Opens (cs ++ rest) := by
  obtain ⟨c, cs, rfl, hc⟩ := h
  exact ⟨c, cs ++ rest, rfl, hc⟩

theorem Opens.length_pos (h : Opens cs) : 0 < cs.length := by
  obtain ⟨c, cs, rfl, -⟩ := h
  exact Nat.succ_pos _

theorem Opens.skipBlank (h : Opens cs) (hb : Blank b) : skipBlank (b ++ cs) = cs := by
  obtain ⟨c, cs, rfl, hc, -⟩ := h
  exact skipBlank_append hb hc cs

theorem opens_quoted (s : CodeText) : Opens (quoted s).toList :=
  ⟨_, _, toList_quoted s, by decide⟩

theorem Spelled.opens (h : Spelled d cs) : Opens cs := by
  cases h with
  | @int n hn =>
    obtain ⟨c, cs, hcs, hc | ⟨rfl, -⟩⟩ := exists_toString_cons n
    · exact ⟨c, cs, hcs, isBlank_eq_false hc, ne_of_isDigit hc (by decide)⟩
    · exact ⟨_, cs, hcs, by decide⟩
  | text s | html s => exact opens_quoted s
  | _ => exact ⟨_, _, rfl, by decide⟩

theorem SpelledItems.opens (h : SpelledItems ds cs) : Opens cs := by
  cases h with
  | last hd | cons hd => exact hd.opens.append _

theorem SpelledMembers.opens (h : SpelledMembers ms cs) : Opens cs := by
  cases h with
  | last | cons => exact (opens_quoted _).append _

/-! ## Writing -/

/-- A value that can be written and holds no doubles. -/
inductive Writable : Datum → Prop where
  | null : Writable .null
  | bool (b : Bool) : Writable (.bool b)
  | int {n : Int} (hn : n.natAbs < 10 ^ digitLimit) : Writable (.int n)
  | text (s : CodeText) : Writable (.text s)
  | html (s : CodeText) : Writable (.html s)
  | list {ds : List Datum} (h : ∀ d ∈ ds, Writable d) : Writable (.list ds)
  | object {ms : List (CodeText × Datum)} (h : ∀ m ∈ ms, Writable m.2) : Writable (.object ms)

theorem decimal_eq_ok {n : Int} (hn : n.natAbs < 10 ^ digitLimit) : decimal n = .ok (toString n) := by
  rw [decimal, Nat.pow_eq, if_pos hn]

def Spells (d : Datum) (t : String) : Prop := Spelled d t.toList

def SpellsMember (m : CodeText × Datum) (t : String) : Prop :=
  ∃ u, Spells m.2 u ∧ t = quoted m.1 ++ ": " ++ u

section Parts

variable {ts : List String} {b' : List Char} {separator : String}

theorem writeItems_eq (ds : List Datum) : writeItems ds = ds.mapM write := by
  induction ds with
  | nil => rfl
  | cons d ds ih => rw [writeItems, ih, List.mapM_cons]

theorem writeMembers_eq (ms : List (CodeText × Datum)) :
    writeMembers ms = ms.mapM fun m => do return quoted m.1 ++ ": " ++ (← write m.2) := by
  induction ms with
  | nil => rfl
  | cons m ms ih =>
    rw [writeMembers, ih, List.mapM_cons]
    cases write m.2 <;> rfl

theorem indentedItems_eq (depth : Nat) (ds : List Datum) :
    indentedItems depth ds = ds.mapM (writeIndented depth) := by
  induction ds with
  | nil => rfl
  | cons d ds ih => rw [indentedItems, ih, List.mapM_cons]

theorem indentedMembers_eq (depth : Nat) (ms : List (CodeText × Datum)) :
    indentedMembers depth ms =
      ms.mapM fun m => do return quoted m.1 ++ ": " ++ (← writeIndented depth m.2) := by
  induction ms with
  | nil => rfl
  | cons m ms ih =>
    rw [indentedMembers, ih, List.mapM_cons]
    cases writeIndented depth m.2 <;> rfl

theorem exists_mapM {α : Type} {as : List α} {f : α → Except Fault String} {P : α → String → Prop}
    (h : ∀ a ∈ as, ∃ t, f a = .ok t ∧ P a t) : ∃ ts, as.mapM f = .ok ts ∧ List.Forall₂ P as ts := by
  induction as with
  | nil => exact ⟨[], rfl, .nil⟩
  | cons a as ih =>
    obtain ⟨t, ht, hspells⟩ := h a List.mem_cons_self
    obtain ⟨ts, hts, hall⟩ := ih fun e he => h e (List.mem_cons_of_mem a he)
    refine ⟨t :: ts, ?_, .cons hspells hall⟩
    rw [List.mapM_cons, ht, hts]
    rfl

theorem exists_mapM_members {f : Datum → Except Fault String}
    (h : ∀ m ∈ ms, ∃ t, f m.2 = .ok t ∧ Spells m.2 t) :
    ∃ ts, (ms.mapM fun m => do return quoted m.1 ++ ": " ++ (← f m.2)) = .ok ts ∧
      List.Forall₂ SpellsMember ms ts := by
  refine exists_mapM fun m hm => ?_
  obtain ⟨t, ht, hspells⟩ := h m hm
  refine ⟨_, ?_, t, hspells, rfl⟩
  rw [ht]
  rfl

theorem spelledItems_intercalate (hb : Blank b) (hb' : Blank b')
    (hseparator : separator.toList = ',' :: b) (hne : ds ≠ []) (h : List.Forall₂ Spells ds ts) :
    SpelledItems ds ((separator.intercalate ts).toList ++ (b' ++ [']'])) := by
  induction h with
  | nil => exact absurd rfl hne
  | @cons d t ds ts hd hds ih =>
    cases hds with
    | nil =>
      rw [String.intercalate_singleton]
      exact .last hd hb'
    | cons he hes =>
      have hitems := ih (List.cons_ne_nil _ _)
      rw [String.intercalate_cons_of_ne_nil (List.cons_ne_nil _ _)]
      simp only [String.toList_append, hseparator, List.append_assoc, List.cons_append]
      exact .cons hd hb hitems

theorem spelledMembers_intercalate (hb : Blank b) (hb' : Blank b')
    (hseparator : separator.toList = ',' :: b) (hne : ms ≠ [])
    (h : List.Forall₂ SpellsMember ms ts) :
    SpelledMembers ms ((separator.intercalate ts).toList ++ (b' ++ ['}'])) := by
  have hcolon : ": ".toList = [':', ' '] := rfl
  have hspace : Blank [' '] := by decide
  induction h with
  | nil => exact absurd rfl hne
  | @cons m t ms ts hm hms ih =>
    obtain ⟨u, hu, rfl⟩ := hm
    cases hms with
    | nil =>
      rw [String.intercalate_singleton]
      simp only [String.toList_append, hcolon, List.append_assoc, List.cons_append]
      exact .last hspace hu hb'
    | cons he hes =>
      have hmembers := ih (List.cons_ne_nil _ _)
      rw [String.intercalate_cons_of_ne_nil (List.cons_ne_nil _ _)]
      simp only [String.toList_append, hcolon, hseparator, List.append_assoc, List.cons_append]
      exact .cons hspace hu hb hmembers

end Parts

theorem Writable.write (h : Writable d) : ∃ t, write d = .ok t ∧ Spells d t := by
  have hseparator : ", ".toList = ',' :: [' '] := rfl
  induction h with
  | null => exact ⟨_, rfl, .null⟩
  | bool b =>
    cases b with
    | true => exact ⟨_, rfl, .true⟩
    | false => exact ⟨_, rfl, .false⟩
  | int hn => exact ⟨_, decimal_eq_ok hn, .int hn⟩
  | text s => exact ⟨_, rfl, .text s⟩
  | html s => exact ⟨_, rfl, .html s⟩
  | @list ds h ih =>
    obtain ⟨ts, hts, hall⟩ := exists_mapM ih
    refine ⟨_, by rw [Json.write, writeItems_eq, hts]; rfl, ?_⟩
    cases hall with
    | nil => exact .nil
    | cons hd hds =>
      have hitems := spelledItems_intercalate (by decide) Blank.nil hseparator
        (List.cons_ne_nil _ _) (.cons hd hds)
      have hlist := Spelled.list Blank.nil hitems
      simpa [Spells, enclosed] using hlist
  | @object ms h ih =>
    obtain ⟨ts, hts, hall⟩ := exists_mapM_members ih
    refine ⟨_, by rw [Json.write, writeMembers_eq, hts]; rfl, ?_⟩
    cases hall with
    | nil => exact .empty
    | cons hd hds =>
      have hmembers := spelledMembers_intercalate (by decide) Blank.nil hseparator
        (List.cons_ne_nil _ _) (.cons hd hds)
      have hobject := Spelled.object Blank.nil hmembers
      simpa [Spells, enclosed] using hobject

theorem blank_breakLine (depth : Nat) : Blank (breakLine depth).toList := by
  have hbreak : (breakLine depth).toList = '\n' :: List.replicate depth '\t' := by
    simp [breakLine]
  intro c hc
  rw [hbreak, List.mem_cons, List.mem_replicate] at hc
  rcases hc with rfl | ⟨-, rfl⟩
  · rfl
  · rfl

theorem toList_bracketed {parts : List String} (depth : Nat) (opening closing : String)
    (hne : parts ≠ []) :
    (bracketed depth opening closing parts).toList = opening.toList ++ ((breakLine (depth + 1)).toList ++
      ((("," ++ breakLine (depth + 1)).intercalate parts).toList ++
        ((breakLine depth).toList ++ closing.toList))) := by
  rw [bracketed, if_neg (by simp [hne])]
  simp only [String.toList_append, List.append_assoc]

theorem Writable.writeIndented (h : Writable d) (depth : Nat) :
    ∃ t, writeIndented depth d = .ok t ∧ Spells d t := by
  have hseparator : ∀ depth, ("," ++ breakLine depth).toList = ',' :: (breakLine depth).toList := by
    intro depth
    rw [String.toList_append]
    rfl
  induction h generalizing depth with
  | null => exact ⟨_, rfl, .null⟩
  | bool b =>
    cases b with
    | true => exact ⟨_, rfl, .true⟩
    | false => exact ⟨_, rfl, .false⟩
  | int hn => exact ⟨_, decimal_eq_ok hn, .int hn⟩
  | text s => exact ⟨_, rfl, .text s⟩
  | html s => exact ⟨_, rfl, .html s⟩
  | @list ds h ih =>
    obtain ⟨ts, hts, hall⟩ := exists_mapM fun d hd => ih d hd (depth + 1)
    refine ⟨_, by rw [Json.writeIndented, indentedItems_eq, hts]; rfl, ?_⟩
    cases hall with
    | nil =>
      rw [Spells, bracketed, if_pos List.isEmpty_nil]
      exact .nil
    | cons hd hds =>
      have hitems := spelledItems_intercalate (blank_breakLine (depth + 1)) (blank_breakLine depth)
        (hseparator (depth + 1)) (List.cons_ne_nil _ _)
        (.cons hd hds)
      rw [Spells, toList_bracketed depth "[" "]" (List.cons_ne_nil _ _)]
      have hlist := Spelled.list (blank_breakLine (depth + 1)) hitems
      exact hlist
  | @object ms h ih =>
    obtain ⟨ts, hts, hall⟩ := exists_mapM_members fun m hm => ih m hm (depth + 1)
    refine ⟨_, by rw [Json.writeIndented, indentedMembers_eq, hts]; rfl, ?_⟩
    cases hall with
    | nil =>
      rw [Spells, bracketed, if_pos List.isEmpty_nil]
      exact .empty
    | cons hd hds =>
      have hmembers := spelledMembers_intercalate (blank_breakLine (depth + 1))
        (blank_breakLine depth) (hseparator (depth + 1)) (List.cons_ne_nil _ _)
        (.cons hd hds)
      rw [Spells, toList_bracketed depth "\x7b" "\x7d" (List.cons_ne_nil _ _)]
      have hobject := Spelled.object (blank_breakLine (depth + 1)) hmembers
      exact hobject

/-! ## ASCII -/

theorem toNat_lt_of_isBlank (hc : isBlank c = true) : c.toNat < 128 := by
  simp only [isBlank, Bool.or_eq_true, decide_eq_true_eq] at hc
  obtain ((rfl | rfl) | rfl) | rfl := hc
  all_goals decide

theorem toNat_toString_lt {z : Int} (hc : c ∈ (toString z).toList) : c.toNat < 128 := by
  have hdigits : ∀ c ∈ Nat.toDigits 10 z.natAbs, c.toNat < 128 := by
    intro c hc
    exact toNat_lt_of_isDigit (isDigit_of_mem_toDigits hc)
  rw [toList_toString] at hc
  split at hc
  · rcases List.mem_cons.1 hc with rfl | hc
    · decide
    · exact hdigits c hc
  · exact hdigits c hc

def Ascii (cs : List Char) : Prop := ∀ c ∈ cs, c.toNat < 128

instance (cs : List Char) : Decidable (Ascii cs) :=
  List.decidableBAll _ cs

theorem Ascii.append {cs' : List Char} (h : Ascii cs) (h' : Ascii cs') : Ascii (cs ++ cs') := by
  intro c hc
  rcases List.mem_append.1 hc with hc | hc
  · exact h c hc
  · exact h' c hc

theorem Ascii.cons (hc : c.toNat < 128) (h : Ascii cs) : Ascii (c :: cs) := by
  intro e he
  rcases List.mem_cons.1 he with rfl | he
  · exact hc
  · exact h e he

theorem Blank.ascii (hb : Blank b) : Ascii b := fun c hc => toNat_lt_of_isBlank (hb c hc)

mutual

theorem Spelled.ascii {d : Datum} {cs : List Char} : Spelled d cs → Ascii cs
  | .null => by decide
  | .true => by decide
  | .false => by decide
  | .int _ => fun _ => toNat_toString_lt
  | .text _ => fun _ => toNat_quoted_lt
  | .html _ => fun _ => toNat_quoted_lt
  | .nil => by decide
  | .list hb hds => .cons (by decide) (hb.ascii.append hds.ascii)
  | .empty => by decide
  | .object hb hms => .cons (by decide) (hb.ascii.append hms.ascii)

theorem SpelledItems.ascii {ds : List Datum} {cs : List Char} : SpelledItems ds cs → Ascii cs
  | .last hd hb => hd.ascii.append (hb.ascii.append (by decide))
  | .cons hd hb hds => hd.ascii.append (.cons (by decide) (hb.ascii.append hds.ascii))

theorem SpelledMembers.ascii {ms : List (CodeText × Datum)} {cs : List Char} :
    SpelledMembers ms cs → Ascii cs
  | .last hb hd hb' =>
    .append (fun _ => toNat_quoted_lt) <|
      .cons (by decide) (hb.ascii.append (hd.ascii.append (hb'.ascii.append (by decide))))
  | .cons hb hd hb' hms =>
    .append (fun _ => toNat_quoted_lt) <| .cons (by decide) <|
      hb.ascii.append (hd.ascii.append (.cons (by decide) (hb'.ascii.append hms.ascii)))

end

/-! ## What comes back -/

mutual

def decoded : Datum → Datum
  | .text s => .text (joined s)
  | .html s => .text (joined s)
  | .list ds => .list (decodedItems ds)
  | .object ms => .object (decodedMembers [] ms)
  | d => d

def decodedItems : List Datum → List Datum
  | [] => []
  | d :: ds => decoded d :: decodedItems ds

/-- What is read of members, after those read already. -/
def decodedMembers (acc : List (CodeText × Datum)) :
    List (CodeText × Datum) → List (CodeText × Datum)
  | [] => acc
  | (k, d) :: ms => decodedMembers (Datum.putMember (joined k) (decoded d) acc) ms

end

theorem putMember_of_notMem (hk : k ∉ ms.map (·.1)) : Datum.putMember k d ms = ms ++ [(k, d)] := by
  induction ms with
  | nil => rfl
  | cons m ms ih =>
    rw [List.map_cons, List.mem_cons, not_or] at hk
    rw [Datum.putMember, if_neg (Ne.symm hk.1), ih hk.2]
    rfl

theorem decodedItems_eq (ds : List Datum) : decodedItems ds = ds.map decoded := by
  induction ds with
  | nil => rfl
  | cons d ds ih => rw [decodedItems, ih, List.map_cons]

/-- Members whose names stay distinct stay in their order. -/
theorem decodedMembers_eq (hnodup : (acc.map (·.1) ++ ms.map fun m => joined m.1).Nodup) :
    decodedMembers acc ms = acc ++ ms.map fun m => (joined m.1, decoded m.2) := by
  induction ms generalizing acc with
  | nil => simp [decodedMembers]
  | cons m ms ih =>
    have hm : joined m.1 ∉ acc.map (·.1) := by
      intro hmem
      rw [List.map_cons, List.nodup_append] at hnodup
      exact hnodup.2.2 (joined m.1) hmem (joined m.1) List.mem_cons_self rfl
    have hnames : (acc ++ [(joined m.1, decoded m.2)]).map (·.1) ++ ms.map (fun m => joined m.1) =
        acc.map (·.1) ++ (m :: ms).map fun m => joined m.1 := by simp
    rw [decodedMembers, putMember_of_notMem hm, ih (hnames ▸ hnodup)]
    simp

/-! ## Reading -/

theorem value_quoted (s : CodeText) :
    value (fuel + 1) ((quoted s).toList ++ rest) = .ok (.text (joined s), rest) := by
  obtain ⟨cs, hcs, htext⟩ := text_quoted s rest
  rw [hcs, value, htext]
  rfl

theorem value_other (h₁ : c ≠ '"') (h₂ : c ≠ '[') (h₃ : c ≠ '{') (h : word (c :: cs) = none) :
    value (fuel + 1) (c :: cs) = number (c :: cs) := by
  unfold value
  split
  · next heq => exact absurd (List.cons.inj heq).1 h₁
  · next heq => exact absurd (List.cons.inj heq).1 h₂
  · next heq => exact absurd (List.cons.inj heq).1 h₃
  · rw [h]

theorem value_toString (h : Ends rest) {z : Int} (hz : z.natAbs < 10 ^ digitLimit) :
    value (fuel + 1) ((toString z).toList ++ rest) = .ok (.int z, rest) := by
  have hnumber := number_toString h hz
  obtain ⟨c, cs, hcs, hc⟩ := exists_toString_cons z
  rw [hcs, List.cons_append] at hnumber ⊢
  rw [← hnumber]
  have hne : ∀ d, isDigit d = false → d ≠ '-' → c ≠ d := by
    intro d hd hminus
    obtain hc | ⟨rfl, -⟩ := hc
    · exact ne_of_isDigit hc hd
    · exact hminus.symm
  refine value_other (hne _ (by decide) (by decide)) (hne _ (by decide) (by decide))
    (hne _ (by decide) (by decide)) ?_
  obtain hc | ⟨rfl, e, cs, rfl, he⟩ := hc
  · have hne : ∀ d, isDigit d = false → ¬ d = c := fun d hd heq => ne_of_isDigit hc hd heq.symm
    simp [word, words, after?, hne 'n' (by decide), hne 't' (by decide), hne 'f' (by decide),
      hne 'N' (by decide), hne 'I' (by decide), hne '-' (by decide)]
  · have hne : ¬ 'I' = e := fun heq => ne_of_isDigit he (by decide) heq.symm
    simp [word, words, after?, hne]

theorem value_list (hb : Blank b) (h : Opens cs) :
    value (fuel + 1) ('[' :: (b ++ cs)) = (items fuel cs).map fun (ds, r) => (.list ds, r) := by
  rw [value, h.skipBlank hb]
  obtain ⟨c, cs, rfl, -, hc⟩ := h
  split
  · next heq => exact absurd (List.cons.inj heq).1 hc
  · rfl

theorem value_object (hb : Blank b) (k : CodeText) :
    value (fuel + 1) ('{' :: (b ++ ((quoted k).toList ++ cs))) =
      (members fuel [] ((quoted k).toList ++ cs)).map fun (ms, r) => (.object ms, r) := by
  rw [value, ((opens_quoted k).append cs).skipBlank hb, toList_quoted]
  rfl

theorem items_last (hb : Blank b) (h : value fuel cs = .ok (d, b ++ ']' :: rest)) :
    items (fuel + 1) cs = .ok ([d], rest) := by
  simp only [items, h, skipBlank_append hb (by decide : isBlank ']' = false)]

theorem items_cons (hb : Blank b) (hrest : Opens rest)
    (h : value fuel cs = .ok (d, ',' :: (b ++ rest))) :
    items (fuel + 1) cs = (items fuel rest).map fun (ds, r) => (d :: ds, r) := by
  simp only [items, h, skipBlank_cons (by decide : isBlank ',' = false), hrest.skipBlank hb]

theorem members_last {b' : List Char} (hb : Blank b) (hcs : Opens cs) (hb' : Blank b')
    (h : value fuel cs = .ok (d, b' ++ '}' :: rest)) :
    members (fuel + 1) acc ((quoted k).toList ++ ':' :: (b ++ cs)) =
      .ok (Datum.putMember (joined k) d acc, rest) := by
  obtain ⟨cs', hquoted, htext⟩ := text_quoted k (':' :: (b ++ cs))
  rw [hquoted, members, htext]
  simp only [skipBlank_cons (by decide : isBlank ':' = false), hcs.skipBlank hb, h,
    skipBlank_append hb' (by decide : isBlank '}' = false)]

theorem members_cons {b' : List Char} (hb : Blank b) (hcs : Opens cs) (hb' : Blank b')
    (hrest : Opens rest) (h : value fuel cs = .ok (d, ',' :: (b' ++ rest))) :
    members (fuel + 1) acc ((quoted k).toList ++ ':' :: (b ++ cs)) =
      members fuel (Datum.putMember (joined k) d acc) rest := by
  obtain ⟨cs', hquoted, htext⟩ := text_quoted k (':' :: (b ++ cs))
  rw [hquoted, members, htext]
  simp only [skipBlank_cons (by decide : isBlank ':' = false), hcs.skipBlank hb, h,
    skipBlank_cons (by decide : isBlank ',' = false), hrest.skipBlank hb']

structure Reads (fuel : Nat) : Prop where
  value : ∀ {d cs rest}, Spelled d cs → cs.length ≤ fuel → Ends rest →
    value fuel (cs ++ rest) = .ok (decoded d, rest)
  items : ∀ {ds cs rest}, SpelledItems ds cs → cs.length ≤ fuel →
    items fuel (cs ++ rest) = .ok (decodedItems ds, rest)
  members : ∀ {ms cs rest acc}, SpelledMembers ms cs → cs.length ≤ fuel →
    members fuel acc (cs ++ rest) = .ok (decodedMembers acc ms, rest)

namespace Reads

theorem zero : Reads 0 where
  value h hle := absurd h.opens.length_pos (Nat.not_lt.2 hle)
  items h hle := absurd h.opens.length_pos (Nat.not_lt.2 hle)
  members h hle := absurd h.opens.length_pos (Nat.not_lt.2 hle)

theorem value_succ (hr : Reads fuel) (h : Spelled d cs) (hle : cs.length ≤ fuel + 1)
    (hends : Ends rest) : Json.value (fuel + 1) (cs ++ rest) = .ok (decoded d, rest) := by
  cases h with
  | null | true | false | nil | empty => rfl
  | int hn => exact value_toString hends hn
  | text s | html s => exact value_quoted s
  | list hb hds =>
    simp only [List.length_cons, List.length_append] at hle
    rw [List.cons_append, List.append_assoc, value_list hb (hds.opens.append _),
      hr.items hds (by omega), decoded]
    rfl
  | object hb hms =>
    simp only [List.length_cons, List.length_append] at hle
    have hmembers : Json.members fuel [] (_ ++ rest) = _ := hr.members hms (by omega)
    rw [List.cons_append, List.append_assoc, decoded]
    cases hms with
    | last | cons =>
      rw [List.append_assoc] at hmembers ⊢
      rw [value_object hb, hmembers]
      rfl

theorem items_succ (hr : Reads fuel) (h : SpelledItems ds cs) (hle : cs.length ≤ fuel + 1) :
    Json.items (fuel + 1) (cs ++ rest) = .ok (decodedItems ds, rest) := by
  cases h with
  | last hd hb =>
    simp only [List.length_cons, List.length_append, List.length_nil] at hle
    rw [List.append_assoc, List.append_assoc]
    exact items_last hb (hr.value hd (by omega) (hb.ends (ends_cons (by decide) _)))
  | cons hd hb hds =>
    simp only [List.length_cons, List.length_append] at hle
    have hpos := hd.opens.length_pos
    rw [List.append_assoc, List.cons_append, List.append_assoc,
      items_cons hb (hds.opens.append _) (hr.value hd (by omega) (ends_cons (by decide) _)),
      hr.items hds (by omega), decodedItems]
    rfl

theorem members_succ (hr : Reads fuel) (h : SpelledMembers ms cs) (hle : cs.length ≤ fuel + 1) :
    Json.members (fuel + 1) acc (cs ++ rest) = .ok (decodedMembers acc ms, rest) := by
  cases h with
  | last hb hd hb' =>
    simp only [List.length_cons, List.length_append, List.length_nil] at hle
    simp only [List.append_assoc, List.cons_append, List.nil_append]
    exact members_last hb (hd.opens.append _) hb'
      (hr.value hd (by omega) (hb'.ends (ends_cons (by decide) _)))
  | cons hb hd hb' hms =>
    simp only [List.length_cons, List.length_append] at hle
    simp only [List.append_assoc, List.cons_append]
    rw [members_cons hb (hd.opens.append _) hb' (hms.opens.append _)
      (hr.value hd (by omega) (ends_cons (by decide) _)), decodedMembers]
    exact hr.members hms (by omega)

end Reads

theorem reads (fuel : Nat) : Reads fuel := by
  induction fuel with
  | zero => exact Reads.zero
  | succ fuel ih => exact ⟨ih.value_succ, ih.items_succ, ih.members_succ⟩

theorem read_spelled {s blank : String} (h : Spells d s) (hb : Blank blank.toList) :
    read (s ++ blank) = .ok (decoded d) := by
  have hends : Ends blank.toList := by
    have := hb.ends ends_nil
    rwa [List.append_nil] at this
  have hvalue : ∀ fuel, s.toList.length ≤ fuel →
      value fuel (s.toList ++ blank.toList) = .ok (decoded d, blank.toList) :=
    fun fuel hle => (reads fuel).value h hle hends
  have hskip := (h.opens.append blank.toList).skipBlank Blank.nil
  rw [List.nil_append] at hskip
  simp only [read, String.toList_append, hskip]
  rw [hvalue _ (by rw [List.length_append]; omega)]
  simp only [skipBlank_blank hb]
  rfl

end Structuring.Json
