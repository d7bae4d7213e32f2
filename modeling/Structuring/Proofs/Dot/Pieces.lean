import Mathlib.Data.List.Infix
import Structuring.Dot.Writer

/-!
# Pieces of a text

What lexical analysis takes from the front of characters that start with a symbol, a name, a
numeral, a quoted string or an html string, whatever follows it.

* `Apart` — what may follow a name or a numeral.
* `quotable` — when a text that is put in quotes ends at the closing quote.
* `piece_symbol`, `piece_name`, `piece_numeral`, `piece_quoted`, `piece_html` — the pieces.
-/

namespace Structuring.Dot

variable {cs rest : List Char}

/-! ## Blank space and symbols -/

theorem skipped_of_blank {b : Bool} {c : Char} (hc : isBlank c = true) (cs : List Char) :
    skipped b (c :: cs) = some (c :: cs.takeWhile isBlank, cs.dropWhile isBlank) := by
  have hslash : c ≠ '/' := by
    rintro rfl
    revert hc
    decide
  unfold skipped
  split
  · contradiction
  · next heq => exact absurd (List.cons.inj heq).1 hslash
  · next heq => exact absurd (List.cons.inj heq).1 hslash
  · next heq =>
    cases heq
    rw [if_pos hc]
    rfl

theorem piece_symbol {b : Bool} {c : Char} {y : Symbol} (hc : Symbol.ofChar? c = some y) :
    piece b (c :: cs) = .ok (.whole (.symbol y) (.text y.name) ([c], cs)) := by
  unfold Symbol.ofChar? at hc
  repeat
    split at hc
    · subst c
      cases hc
      rfl
  cases hc

/-! ## Names and numerals -/

def Apart (rest : List Char) : Prop := ∀ c ∈ rest.head?, isIdChar c = false ∧ c ≠ '.'

theorem apart_nil : Apart [] := by simp [Apart]

theorem apart_cons {c : Char} (hc : isIdChar c = false ∧ c ≠ '.') (cs : List Char) :
    Apart (c :: cs) := by
  rintro d hd
  cases Option.some.inj hd
  exact hc

theorem run_apart {p : Char → Bool} {w : List Char} (hw : w.all p = true)
    (hrest : ∀ c ∈ rest.head?, p c = false) : run p (w ++ rest) = (w, rest) := by
  have hall : ∀ c ∈ w, p c = true := List.all_eq_true.1 hw
  unfold run
  rw [List.takeWhile_append_of_pos hall, List.dropWhile_append_of_pos hall]
  cases rest with
  | nil => simp
  | cons c rest =>
    have hc : ¬ p c = true := by
      rw [hrest c rfl]
      simp
    rw [List.takeWhile_cons_of_neg hc, List.dropWhile_cons_of_neg hc, List.append_nil]

/-- The characters that start blank space, a comment or a symbol. -/
def specials : List Char :=
  [' ', '\t', '\r', '\n', '\x0c', '\x0b', '/', '#', '-', '>', '{', '}', '[', ']', '=', ';', ',',
    ':', '+']

theorem not_special {p : Char → Bool} {c : Char} (hp : specials.any p = false) (hc : p c = true) :
    c ∉ specials := by
  intro hmem
  rw [List.any_eq_false] at hp
  exact hp c hmem hc

theorem isBlank_of_not_special {c : Char} (h : c ∉ specials) : isBlank c = false := by
  simp only [specials, List.mem_cons, List.not_mem_nil, or_false, not_or] at h
  simp [isBlank, h]

theorem ofChar?_of_not_special {c : Char} (h : c ∉ specials) : Symbol.ofChar? c = none := by
  simp only [specials, List.mem_cons, List.not_mem_nil, or_false, not_or] at h
  simp [Symbol.ofChar?, h]

theorem ne_of_not_special {c d : Char} (h : c ∉ specials) (hd : d ∈ specials) : c ≠ d :=
  fun heq => h (heq ▸ hd)

theorem skipped_eq_none {b : Bool} {c : Char} (hblank : isBlank c = false) (hslash : c ≠ '/')
    (hhash : c ≠ '#') (cs : List Char) : skipped b (c :: cs) = none := by
  unfold skipped
  split
  · contradiction
  · next heq => exact absurd (List.cons.inj heq).1 hslash
  · next heq => exact absurd (List.cons.inj heq).1 hslash
  · next heq =>
    cases heq
    rw [if_neg (by simp [hblank]), if_neg (fun h => hhash h.1)]

theorem symbol?_eq_none {c : Char} (hminus : c ≠ '-') (hc : Symbol.ofChar? c = none)
    (cs : List Char) : symbol? (c :: cs) = none := by
  unfold symbol?
  split
  · next heq => exact absurd (List.cons.inj heq).1 hminus
  · next heq => exact absurd (List.cons.inj heq).1 hminus
  · next heq =>
    cases heq
    rw [hc]
    rfl
  · rfl

theorem numeral_eq_none {c : Char} (hminus : c ≠ '-') (hpoint : c ≠ '.')
    (hdigit : isDigit c = false) (cs : List Char) : numeral (c :: cs) = none := by
  have hrun : run isDigit (c :: cs) = ([], c :: cs) := by
    simp [run, hdigit]
  unfold numeral
  split
  · next heq => exact absurd (List.cons.inj heq).1 hminus
  · unfold unsigned
    split
    · next heq => exact absurd (List.cons.inj heq).1 hpoint
    · rw [hrun]

theorem isDigit_of_isIdStart {c : Char} (hc : isIdStart c = true) : isDigit c = false := by
  simp only [isIdStart, isDigit, Char.le_def, UInt32.le_iff_toNat_le, Bool.or_eq_true,
    Bool.and_eq_true, decide_eq_true_eq, Bool.and_eq_false_iff, decide_eq_false_iff_not] at hc ⊢
  rcases hc with ((hc | hc) | rfl) | hc
  · right
    have : 'A'.val.toNat = 65 := rfl
    have : '9'.val.toNat = 57 := rfl
    omega
  · right
    have : 'a'.val.toNat = 97 := rfl
    have : '9'.val.toNat = 57 := rfl
    omega
  · decide
  · right
    have : '\u0080'.val.toNat = 128 := rfl
    have : '9'.val.toNat = 57 := rfl
    omega

theorem word_of_run {p : List Char × List Char} (h : run isIdChar cs = p) :
    word cs = .whole
      (match Keyword.ofWord? p.1 with
        | some k => .keyword k
        | none => .id) (.text (String.ofList p.1)) p := by
  subst h
  rfl

/-- What starts like a name is taken as far as it is one. -/
theorem piece_word {b : Bool} {c : Char} (hc : isIdStart c = true) (cs : List Char) :
    piece b (c :: cs) = .ok (word (c :: cs)) := by
  have hne : ∀ d, isIdStart d = false → c ≠ d := by
    rintro d hd rfl
    rw [hc] at hd
    cases hd
  have hspecial : c ∉ specials := not_special (by decide) hc
  have hblank := isBlank_of_not_special hspecial
  have hsymbol := ofChar?_of_not_special hspecial
  have hminus := hne '-' (by decide)
  unfold piece
  rw [skipped_eq_none hblank (hne '/' (by decide)) (hne '#' (by decide)),
    symbol?_eq_none hminus hsymbol,
    numeral_eq_none hminus (hne '.' (by decide)) (isDigit_of_isIdStart hc)]
  simp only
  split
  · contradiction
  · next heq => exact absurd (List.cons.inj heq).1 (hne '"' (by decide))
  · next heq => exact absurd (List.cons.inj heq).1 (hne '<' (by decide))
  · next heq =>
    cases heq
    rw [if_pos hc]

theorem piece_name {b : Bool} {c : Char} {w : List Char} (hc : isIdStart c = true)
    (hw : w.all isIdChar = true) (hrest : Apart rest) :
    piece b (c :: w ++ rest) = .ok (.whole
      (match Keyword.ofWord? (c :: w) with
        | some k => .keyword k
        | none => .id) (.text (String.ofList (c :: w))) (c :: w, rest)) := by
  have hrun : run isIdChar (c :: w ++ rest) = (c :: w, rest) := by
    refine run_apart ?_ fun d hd => (hrest d hd).1
    rw [List.all_cons, hw, Bool.and_true, isIdChar, hc, Bool.true_or]
  rw [List.cons_append, piece_word hc]
  exact congrArg Except.ok (word_of_run hrun)

theorem all_of_run {p : Char → Bool} {w t r : List Char} (h : run p w = (t, r)) :
    t.all p = true := by
  cases h
  exact List.all_takeWhile

theorem Apart.digit (h : Apart rest) : ∀ c ∈ rest.head?, isDigit c = false := by
  intro c hc
  have hid := (h c hc).1
  rw [isIdChar, Bool.or_eq_false_iff] at hid
  exact hid.2

inductive IsUnsigned : List Char → Prop where
  | fraction {d : List Char} (hd : d ≠ []) (hall : d.all isDigit = true) : IsUnsigned ('.' :: d)
  | decimal {d f : List Char} (hd : d ≠ []) (hall : d.all isDigit = true)
      (hf : f.all isDigit = true) : IsUnsigned (d ++ '.' :: f)
  | digits {d : List Char} (hd : d ≠ []) (hall : d.all isDigit = true) : IsUnsigned d

theorem isUnsigned_of_unsigned {w r : List Char} (h : unsigned cs = some (w, r)) : IsUnsigned w := by
  unfold unsigned at h
  split at h
  · split at h
    · cases h
    · next d r hd hrun =>
      cases h
      exact .fraction (fun hnil => hd hnil) (all_of_run hrun)
  · split at h
    · cases h
    · next d r hd hrun =>
      obtain ⟨f, r', hf⟩ : ∃ f r', run isDigit r = (f, r') := ⟨_, _, rfl⟩
      rw [hf] at h
      cases h
      exact .decimal (fun hnil => hd hnil) (all_of_run hrun) (all_of_run hf)
    · next d r hd _ hrun =>
      cases h
      exact .digits (fun hnil => hd hnil) (all_of_run hrun)

theorem append_ne_point {d : List Char} (hd : d ≠ []) (hall : d.all isDigit = true)
    (cs r : List Char) : d ++ cs ≠ '.' :: r := by
  intro heq
  cases d with
  | nil => exact hd rfl
  | cons c d =>
    cases (List.cons.inj heq).1
    rw [List.all_cons] at hall
    cases hall

theorem unsigned_apart {w : List Char} (hw : IsUnsigned w) (hrest : Apart rest) :
    unsigned (w ++ rest) = some (w, rest) := by
  cases hw with
  | @fraction d hd hall =>
    rw [List.cons_append, unsigned, run_apart hall hrest.digit]
    cases d with
    | nil => exact absurd rfl hd
    | cons c d => rfl
  | @decimal d f hd hall hf =>
    have hpoint : ∀ c ∈ ('.' :: (f ++ rest)).head?, isDigit c = false := by
      intro c hc
      cases Option.some.inj hc
      rfl
    rw [List.append_assoc, List.cons_append, unsigned]
    · rw [run_apart hall hpoint]
      cases d with
      | nil => exact absurd rfl hd
      | cons c d => simp only [run_apart hf hrest.digit]
    · exact append_ne_point hd hall _
  | digits hd hall =>
    rw [unsigned]
    · rw [run_apart hall hrest.digit]
      cases w with
      | nil => exact absurd rfl hd
      | cons c w =>
        cases rest with
        | nil => rfl
        | cons c' rest =>
          have hc' := (hrest c' rfl).2
          split
          · next heq => cases heq
          · next heq =>
            cases heq
            exact absurd rfl hc'
          · next heq =>
            cases heq
            rfl
    · exact append_ne_point hd hall _

theorem IsUnsigned.exists_cons {w : List Char} (h : IsUnsigned w) :
    ∃ c w', w = c :: w' ∧ (c = '.' ∨ isDigit c = true) := by
  have hdigit : ∀ {d : List Char} (cs : List Char), d ≠ [] → d.all isDigit = true →
      ∃ c w', d ++ cs = c :: w' ∧ (c = '.' ∨ isDigit c = true) := by
    intro d cs hd hall
    cases d with
    | nil => exact absurd rfl hd
    | cons c d =>
      rw [List.all_cons, Bool.and_eq_true] at hall
      exact ⟨c, d ++ cs, rfl, .inr hall.1⟩
  cases h with
  | fraction => exact ⟨'.', _, rfl, .inl rfl⟩
  | decimal hd hall _ => exact hdigit _ hd hall
  | digits hd hall => simpa using hdigit [] hd hall

theorem numeral_cases {w r : List Char} (h : numeral cs = some (w, r)) :
    (∃ r, w = '-' :: r ∧ IsUnsigned r) ∨ IsUnsigned w := by
  unfold numeral at h
  split at h
  · obtain ⟨t, rfl, hr⟩ := exists_of_map_front ['-'] h
    exact .inl ⟨t, rfl, isUnsigned_of_unsigned hr⟩
  · exact .inr (isUnsigned_of_unsigned h)

theorem numeral_apart {w r : List Char} (hw : numeral cs = some (w, r)) (hrest : Apart rest) :
    numeral (w ++ rest) = some (w, rest) := by
  rcases numeral_cases hw with ⟨r, rfl, hr⟩ | hr
  · rw [List.cons_append, numeral, unsigned_apart hr hrest]
    rfl
  · obtain ⟨c, w', rfl, hc⟩ := hr.exists_cons
    have hrun := unsigned_apart hr hrest
    rw [List.cons_append] at hrun ⊢
    rw [numeral]
    · exact hrun
    · intro r heq
      cases (List.cons.inj heq).1
      rcases hc with hc | hc <;> cases hc

theorem not_special_of_unsigned {c : Char} (hc : c = '.' ∨ isDigit c = true) : c ∉ specials := by
  refine not_special (p := fun d => d = '.' || isDigit d) (by decide) ?_
  rwa [Bool.or_eq_true, decide_eq_true_eq]

theorem piece_of_numeral {b : Bool} {w r : List Char} (hw : numeral cs = some (w, r)) :
    piece b cs = .ok (.whole .id (.text (String.ofList w)) (w, r)) := by
  have hnone : skipped b cs = none ∧ symbol? cs = none := by
    rw [← (numeral_append hw).1]
    rcases numeral_cases hw with ⟨d, rfl, hd⟩ | hd
    · obtain ⟨c, w', rfl, hc⟩ := hd.exists_cons
      have hspecial := not_special_of_unsigned hc
      have hgreater := ne_of_not_special (d := '>') hspecial (by decide)
      have hminus := ne_of_not_special (d := '-') hspecial (by decide)
      refine ⟨skipped_eq_none (by decide) (by decide) (by decide) _, ?_⟩
      unfold symbol?
      split
      · next heq => exact absurd (List.cons.inj (List.cons.inj heq).2).1 hgreater
      · next heq => exact absurd (List.cons.inj (List.cons.inj heq).2).1 hminus
      · next heq =>
        cases heq
        rfl
      · rfl
    · obtain ⟨c, w', rfl, hc⟩ := hd.exists_cons
      have hspecial := not_special_of_unsigned hc
      exact ⟨skipped_eq_none (isBlank_of_not_special hspecial)
          (ne_of_not_special hspecial (by decide)) (ne_of_not_special hspecial (by decide)) _,
        symbol?_eq_none (ne_of_not_special hspecial (by decide))
          (ofChar?_of_not_special hspecial) _⟩
  unfold piece
  rw [hnone.1, hnone.2, hw]

theorem piece_numeral {b : Bool} {w r : List Char} (hw : numeral cs = some (w, r))
    (hrest : Apart rest) :
    piece b (w ++ rest) = .ok (.whole .id (.text (String.ofList w)) (w, rest)) :=
  piece_of_numeral (numeral_apart hw hrest)

theorem isPlain_cases (hplain : isPlain cs = true) :
    (∃ c w, cs = c :: w ∧ isIdStart c = true ∧ w.all isIdChar = true) ∨
      numeral cs = some (cs, []) := by
  cases cs with
  | nil => cases hplain
  | cons c w =>
    simp only [isPlain, Bool.or_eq_true, Bool.and_eq_true, Option.any_eq_true, Prod.exists] at hplain
    rcases hplain with ⟨hc, hw⟩ | ⟨t, r, hnumeral, hr⟩
    · exact .inl ⟨c, w, rfl, hc, hw⟩
    · cases List.isEmpty_iff.1 hr
      have hsplit := (numeral_append hnumeral).1
      rw [List.append_nil] at hsplit
      exact .inr (hsplit ▸ hnumeral)

/-- What stands without quotes is a piece of its own. -/
theorem piece_plain (b : Bool) (hplain : isPlain cs = true) (hrest : Apart rest) :
    ∃ kind, piece b (cs ++ rest) = .ok (.whole kind (.text (String.ofList cs)) (cs, rest)) ∧
      (Keyword.ofWord? cs = none → kind = .id) := by
  rcases isPlain_cases hplain with ⟨c, w, rfl, hc, hw⟩ | hnumeral
  · exact ⟨_, piece_name hc hw hrest, fun hword => by rw [hword]⟩
  · exact ⟨.id, piece_numeral hnumeral hrest, fun _ => rfl⟩

/-! ## Quoted strings and html strings -/

/-- Whether backslashes keep no quote from closing: read from the left, a backslash together with the
next character, none is taken with a quote, and none is left over at the end. -/
def quotable : List Char → Bool
  | [] => true
  | ['\\'] => false
  | '\\' :: c :: cs => c ≠ '"' && quotable cs
  | _ :: cs => quotable cs

theorem quotable_of_notMem (hcs : '\\' ∉ cs) : quotable cs = true := by
  fun_induction quotable cs with
  | case1 => rfl
  | case2 => exact absurd List.mem_cons_self hcs
  | case3 c cs ih => exact absurd List.mem_cons_self hcs
  | case4 c cs _ _ ih => exact ih fun hmem => hcs (List.mem_cons_of_mem _ hmem)

theorem quotedBody_cons {c : Char} (hquote : c ≠ '"') (hslash : c ≠ '\\') (cs : List Char) :
    quotedBody (c :: cs) = (quotedBody cs).map fun (t, r) => (c :: t, r) := by
  rw [quotedBody, if_neg hslash]
  · exact hquote
  · exact fun d ds heq _ => hslash heq

theorem escapeQuotes_cons {c : Char} (hc : c ≠ '"') (cs : List Char) :
    escapeQuotes (c :: cs) = c :: escapeQuotes cs := by rw [escapeQuotes, if_neg hc]

theorem escapeQuotes_quote (cs : List Char) :
    escapeQuotes ('"' :: cs) = '\\' :: '"' :: escapeQuotes cs := by rw [escapeQuotes, if_pos rfl]

theorem map_front_eq_some (front : List Char) {o : Option (List Char × List Char)} {t r : List Char} :
    (o.map fun (t, r) => (front ++ t, r)) = some (front ++ t, r) ↔ o = some (t, r) := by
  constructor
  · intro h
    obtain ⟨t', ht, ho⟩ := exists_of_map_front front h
    rw [ho, List.append_cancel_left ht]
  · rintro rfl
    rfl

/-- The string that quotes make of a text ends at the last one exactly if no backslash is in the way. -/
theorem quotedBody_escapeQuotes : quotedBody (escapeQuotes cs ++ '"' :: rest) =
    some (escapeQuotes cs, rest) ↔ quotable cs = true := by
  fun_induction quotable cs with
  | case1 => exact iff_of_true rfl rfl
  | case2 =>
    refine iff_of_false (fun h => ?_) nofun
    obtain ⟨_, -, heq⟩ := Option.map_eq_some_iff.1 h
    cases heq
  | case3 c cs ih =>
    rw [escapeQuotes_cons (by decide), Bool.and_eq_true, decide_eq_true_eq, ← ih]
    by_cases hc : c = '"'
    · subst hc
      rw [escapeQuotes_quote]
      refine iff_of_false (fun h => ?_) fun h => h.1 rfl
      obtain ⟨⟨t, r⟩, hnil, heq⟩ := Option.map_eq_some_iff.1 h
      simp only [Prod.mk.injEq, List.cons.injEq, true_and] at heq
      obtain ⟨rfl, -⟩ := heq
      cases hnil
    · rw [escapeQuotes_cons hc]
      exact (map_front_eq_some ['\\', c]).trans (and_iff_right hc).symm
  | case4 c cs hlast hpair ih =>
    rw [← ih]
    by_cases hc : c = '"'
    · subst hc
      rw [escapeQuotes_quote]
      exact map_front_eq_some ['\\', '"']
    · have hslash : c ≠ '\\' := by
        rintro rfl
        cases cs with
        | nil => exact hlast rfl rfl
        | cons d ds => exact hpair d ds rfl rfl
      rw [escapeQuotes_cons hc, List.cons_append, quotedBody_cons hc hslash]
      exact map_front_eq_some [c]

theorem head?_escapeQuotes (cs : List Char) (hrest : rest.head? ≠ some '"') :
    (escapeQuotes cs ++ rest).head? ≠ some '"' := by
  cases cs with
  | nil => exact hrest
  | cons c cs =>
    by_cases hc : c = '"'
    · subst hc
      rw [escapeQuotes_quote]
      exact fun heq => absurd (Option.some.inj heq) (by decide)
    · rw [escapeQuotes_cons hc]
      exact fun heq => hc (Option.some.inj heq)

theorem dropQuoteEscapes_escapeQuotes (cs : List Char) (hrest : rest.head? ≠ some '"') :
    dropQuoteEscapes (escapeQuotes cs ++ rest) = cs ++ dropQuoteEscapes rest := by
  induction cs with
  | nil => rfl
  | cons c cs ih =>
    by_cases hc : c = '"'
    · subst hc
      rw [escapeQuotes_quote, List.cons_append, List.cons_append, dropQuoteEscapes, ih]
      rfl
    · rw [escapeQuotes_cons hc, List.cons_append, dropQuoteEscapes, ih]
      · rfl
      · rintro ds - heq
        exact head?_escapeQuotes cs hrest (by rw [heq]; rfl)

theorem unescape_escapeQuotes (cs : List Char) : unescape (escapeQuotes cs) = dropLineJoins cs := by
  have hdrop : dropQuoteEscapes (escapeQuotes cs ++ []) = cs ++ dropQuoteEscapes [] :=
    dropQuoteEscapes_escapeQuotes cs nofun
  rw [List.append_nil, dropQuoteEscapes, List.append_nil] at hdrop
  rw [unescape, hdrop]

/-- Where no backslash stands at the end of a line nothing is dropped. -/
theorem dropLineJoins_eq_self (hcs : ¬ ['\\', '\n'] <:+: cs) : dropLineJoins cs = cs := by
  fun_induction dropLineJoins cs with
  | case1 => rfl
  | case2 cs ih => exact absurd (List.prefix_append ['\\', '\n'] cs).isInfix hcs
  | case3 c cs _ ih => rw [ih fun hin => hcs (List.infix_cons hin)]

theorem piece_quote (b : Bool) (cs : List Char) : piece b ('"' :: cs) =
    match quotedBody cs with
    | some (t, r) => .ok (.whole .string (.text (String.ofList (unescape t))) ('"' :: t ++ ['"'], r))
    | none => .error (.unexpectedChar '"') := by
  have hskipped : skipped b ('"' :: cs) = none := skipped_eq_none (by decide) (by decide) (by decide) cs
  have hsymbol : symbol? ('"' :: cs) = none := symbol?_eq_none (by decide) (by decide) cs
  have hnumeral : numeral ('"' :: cs) = none :=
    numeral_eq_none (by decide) (by decide) (by decide) cs
  unfold piece
  cases hbody : quotedBody cs <;> simp only [hskipped, hsymbol, hnumeral, hbody]

theorem piece_quoted {b : Bool} (hcs : quotable cs = true) (hjoin : ¬ ['\\', '\n'] <:+: cs)
    (rest : List Char) : piece b ('"' :: escapeQuotes cs ++ ['"'] ++ rest) =
      .ok (.whole .string (.text (String.ofList cs)) ('"' :: escapeQuotes cs ++ ['"'], rest)) := by
  rw [List.cons_append, List.cons_append, List.append_assoc, List.singleton_append, piece_quote,
    quotedBody_escapeQuotes.2 hcs]
  simp only [unescape_escapeQuotes, dropLineJoins_eq_self hjoin]
  rfl

def Balanced (cs : List Char) : Prop := cs.count '<' = cs.count '>'

/-- The text of an html string: it starts with a bracket and ends where the brackets are balanced
for the first time. -/
structure IsHtml (cs : List Char) : Prop where
  head : cs.head? = some '<'
  balanced : Balanced cs
  shortest : ∀ p, p <+: cs → p ≠ [] → Balanced p → p = cs

instance (cs : List Char) : Decidable (IsHtml cs) :=
  decidable_of_iff
    (cs.head? = some '<' ∧ cs.count '<' = cs.count '>' ∧
      ∀ p ∈ cs.inits, p ≠ [] → p.count '<' = p.count '>' → p = cs)
    ⟨fun h => ⟨h.1, h.2.1, fun p hp => h.2.2 p ((List.mem_inits p cs).2 hp)⟩,
      fun h => ⟨h.head, h.balanced, fun p hp => h.shortest p ((List.mem_inits p cs).1 hp)⟩⟩

theorem nesting_balanced (depth : Nat) (c : Char) (cs : List Char) :
    nesting depth c + cs.count '<' = cs.count '>' ↔
      depth + 1 + (c :: cs).count '<' = (c :: cs).count '>' := by
  unfold nesting
  by_cases hl : c = '<'
  · subst hl
    simp
    omega
  · by_cases hr : c = '>'
    · subst hr
      simp
      omega
    · simp [hl, hr]

/-- An html string ends where the brackets are balanced for the first time. -/
theorem htmlBody_eq_some {depth : Nat} {t r : List Char} (h : htmlBody depth cs = some (t, r)) :
    depth + t.count '<' = t.count '>' ∧
      ∀ p, p <+: t → p ≠ t → depth + p.count '<' ≠ p.count '>' := by
  fun_induction htmlBody depth cs generalizing t r with
  | case1 =>
    cases h
    exact ⟨rfl, fun p hp hne => absurd (List.prefix_nil.1 hp) hne⟩
  | case2 => cases h
  | case3 depth c cs ih =>
    obtain ⟨t, rfl, hnext⟩ := exists_of_map_front [c] h
    obtain ⟨hend, hopen⟩ := ih hnext
    refine ⟨(nesting_balanced depth c t).1 hend, fun p hp hne heq => ?_⟩
    cases p with
    | nil => simp at heq
    | cons d p =>
      obtain ⟨rfl, hpre⟩ := List.cons_prefix_cons.1 hp
      exact hopen p hpre (fun hpt => hne (hpt ▸ rfl)) ((nesting_balanced _ _ p).2 heq)

theorem htmlBody_append_rest {depth : Nat} (hend : depth + cs.count '<' = cs.count '>')
    (hopen : ∀ p, p <+: cs → p ≠ cs → depth + p.count '<' ≠ p.count '>') :
    htmlBody depth (cs ++ rest) = some (cs, rest) := by
  induction cs generalizing depth with
  | nil =>
    simp at hend
    subst hend
    rw [List.nil_append, htmlBody]
  | cons c cs ih =>
    cases depth with
    | zero => exact absurd rfl (hopen [] List.nil_prefix (by simp))
    | succ depth =>
      have hnext : htmlBody (nesting depth c) (cs ++ rest) = some (cs, rest) := by
        refine ih ((nesting_balanced depth c cs).2 hend) fun p hp hne heq => ?_
        refine hopen (c :: p) ?_ ?_ ((nesting_balanced depth c p).1 heq)
        · exact List.cons_prefix_cons.2 ⟨rfl, hp⟩
        · simpa using hne
      rw [List.cons_append, htmlBody, hnext]
      rfl

theorem isHtml_of_htmlBody {t r : List Char} (h : htmlBody 1 cs = some (t, r)) : IsHtml ('<' :: t) := by
  obtain ⟨hend, hopen⟩ := htmlBody_eq_some h
  refine ⟨rfl, ?_, fun p hp hne hbalanced => ?_⟩
  · simp [Balanced]
    omega
  · cases p with
    | nil => exact absurd rfl hne
    | cons d p =>
      obtain ⟨rfl, hpre⟩ := List.cons_prefix_cons.1 hp
      simp [Balanced] at hbalanced
      by_contra hshort
      exact hopen p hpre (fun hpt => hshort (hpt ▸ rfl)) (by omega)

theorem piece_html {b : Bool} (hcs : IsHtml cs) (rest : List Char) :
    piece b (cs ++ rest) = .ok ⟨cs, rest, some (.id, .html (String.ofList cs)), 1⟩ := by
  cases cs with
  | nil => cases hcs.head
  | cons c cs =>
    cases Option.some.inj hcs.head
    have hbody : htmlBody 1 (cs ++ rest) = some (cs, rest) := by
      have hbalanced := hcs.balanced
      unfold Balanced at hbalanced
      simp at hbalanced
      refine htmlBody_append_rest (by omega) fun p hp hne heq => ?_
      have hshort := hcs.shortest ('<' :: p) (List.cons_prefix_cons.2 ⟨rfl, hp⟩) (by simp) (by
        unfold Balanced
        simp
        omega)
      exact hne (List.cons.inj hshort).2
    have hskipped : skipped b ('<' :: (cs ++ rest)) = none :=
      skipped_eq_none (by decide) (by decide) (by decide) _
    have hsymbol : symbol? ('<' :: (cs ++ rest)) = none := symbol?_eq_none (by decide) (by decide) _
    have hnumeral : numeral ('<' :: (cs ++ rest)) = none :=
      numeral_eq_none (by decide) (by decide) (by decide) _
    unfold piece
    simp only [List.cons_append, hskipped, hsymbol, hnumeral, hbody]

end Structuring.Dot
