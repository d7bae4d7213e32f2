import Structuring.Proofs.Dot.Pieces

/-!
# The units of quoted strings

Where a quoted string ends is found unit by unit: a backslash is taken together with the character
after it. What the string stands for is found by two passes over the whole inside that know no
units. The two agree but for one thing: a pair of backslashes before a line feed.

* `StringUnit` — a unit, its characters, and what it stands for on its own.
* `quotedBody_eq_some_iff` — the inside of a quoted string is its units, up to the first quote that
  is a unit of its own.
* `unescape_spelled` — what the two passes make of units.
* `decoded_eq_readings_iff` — when that is what the units stand for one by one.
-/

namespace Structuring.Dot

/-- A unit of a quoted string: a backslash with the character after it, or a character that is
neither a backslash nor a quote. -/
inductive StringUnit where
  | pair (c : Char)
  | single (c : Char) (plain : c ≠ '"' ∧ c ≠ '\\')
  deriving DecidableEq

namespace StringUnit

def source : StringUnit → List Char
  | pair c => ['\\', c]
  | single c _ => [c]

/-- What a unit stands for: a backslash before a quote is dropped, one before a line feed is dropped
with it, and every other unit stands for itself. -/
def reading : StringUnit → List Char
  | pair c => if c = '"' then ['"'] else if c = '\n' then [] else ['\\', c]
  | single c _ => [c]

def spelled (us : List StringUnit) : List Char := us.flatMap source

def readings (us : List StringUnit) : List Char := us.flatMap reading

/-- What some units are taken for together. A pair of backslashes before a line feed counts as a
backslash and a backslash at the end of a line, so that one backslash is left of the three. -/
def decoded : List StringUnit → List Char
  | [] => []
  | .pair '\\' :: .single '\n' _ :: us => '\\' :: decoded us
  | u :: us => u.reading ++ decoded us

def slashesBeforeNewline : List StringUnit := [.pair '\\', .single '\n' (by decide)]

variable {us vs : List StringUnit} {cs t r : List Char}

theorem spelled_cons (u : StringUnit) (us : List StringUnit) :
    spelled (u :: us) = u.source ++ spelled us := List.flatMap_cons

theorem readings_cons (u : StringUnit) (us : List StringUnit) :
    readings (u :: us) = u.reading ++ readings us := List.flatMap_cons

/-! ## Where a string ends -/

theorem quotedBody_spelled (us : List StringUnit) (r : List Char) :
    quotedBody (spelled us ++ '"' :: r) = some (spelled us, r) := by
  induction us with
  | nil => rfl
  | cons u us ih =>
    cases u with
    | pair c =>
      change quotedBody ('\\' :: c :: (spelled us ++ '"' :: r)) = _
      rw [quotedBody, ih]
      rfl
    | single c plain =>
      change quotedBody (c :: (spelled us ++ '"' :: r)) = _
      rw [quotedBody_cons plain.1 plain.2, ih]
      rfl

theorem exists_spelled (h : quotedBody cs = some (t, r)) : ∃ us, t = spelled us := by
  fun_induction quotedBody cs generalizing t r with
  | case1 => cases h
  | case2 =>
    cases h
    exact ⟨[], rfl⟩
  | case3 c cs ih =>
    obtain ⟨t', rfl, h'⟩ := exists_of_map_front ['\\', c] h
    obtain ⟨us, rfl⟩ := ih h'
    exact ⟨.pair c :: us, rfl⟩
  | case4 => cases h
  | case5 c cs hquote _ hslash ih =>
    obtain ⟨t', rfl, h'⟩ := exists_of_map_front [c] h
    obtain ⟨us, rfl⟩ := ih h'
    exact ⟨.single c ⟨hquote, hslash⟩ :: us, rfl⟩

theorem quotedBody_eq_some_iff : quotedBody cs = some (t, r) ↔
    ∃ us, t = spelled us ∧ cs = spelled us ++ '"' :: r := by
  constructor
  · intro h
    obtain ⟨us, rfl⟩ := exists_spelled h
    exact ⟨us, rfl, (quotedBody_append h).symm⟩
  · rintro ⟨us, rfl, rfl⟩
    exact quotedBody_spelled us r

/-- There is only one way to split the inside of a string into units. -/
theorem spelled_injective : Function.Injective spelled := by
  intro us
  induction us with
  | nil =>
    intro vs h
    cases vs with
    | nil => rfl
    | cons v vs => cases v <;> cases h
  | cons u us ih =>
    intro vs h
    cases vs with
    | nil => cases u <;> cases h
    | cons v vs =>
      rw [spelled_cons, spelled_cons] at h
      cases u with
      | pair c =>
        cases v with
        | pair d =>
          obtain ⟨rfl, htail⟩ := List.cons.inj (List.cons.inj h).2
          rw [ih htail]
        | single d plain => exact absurd (List.cons.inj h).1.symm plain.2
      | single c plain =>
        cases v with
        | pair d => exact absurd (List.cons.inj h).1 plain.2
        | single d plain' =>
          obtain ⟨rfl, htail⟩ := List.cons.inj h
          rw [ih htail]

/-! ## What a string stands for -/

/-- What is left of a unit when backslashes before quotes are dropped. -/
def unquoted : StringUnit → List Char
  | pair c => if c = '"' then ['"'] else ['\\', c]
  | single c _ => [c]

theorem dropQuoteEscapes_cons {c : Char} (h : c ≠ '\\' ∨ cs.head? ≠ some '"') :
    dropQuoteEscapes (c :: cs) = c :: dropQuoteEscapes cs := by
  rw [dropQuoteEscapes]
  rintro ds rfl rfl
  exact h.elim (fun hc => hc rfl) (fun hcs => hcs rfl)

theorem dropLineJoins_cons {c : Char} (h : c ≠ '\\' ∨ cs.head? ≠ some '\n') :
    dropLineJoins (c :: cs) = c :: dropLineJoins cs := by
  rw [dropLineJoins]
  rintro ds rfl rfl
  exact h.elim (fun hc => hc rfl) (fun hcs => hcs rfl)

theorem head?_spelled (us : List StringUnit) : (spelled us).head? ≠ some '"' := by
  cases us with
  | nil => exact nofun
  | cons u us =>
    cases u with
    | pair c => exact fun heq => absurd (Option.some.inj heq) (by decide)
    | single c plain => exact fun heq => plain.1 (Option.some.inj heq)

theorem dropQuoteEscapes_spelled (us : List StringUnit) :
    dropQuoteEscapes (spelled us) = us.flatMap unquoted := by
  induction us with
  | nil => rfl
  | cons u us ih =>
    rw [List.flatMap_cons, ← ih]
    cases u with
    | pair c =>
      change dropQuoteEscapes ('\\' :: c :: spelled us) = _
      by_cases hc : c = '"'
      · subst hc
        rw [dropQuoteEscapes]
        rfl
      · rw [dropQuoteEscapes_cons (.inr (by simpa using hc)),
          dropQuoteEscapes_cons (.inr (head?_spelled us)), unquoted, if_neg hc]
        rfl
    | single c plain => exact dropQuoteEscapes_cons (.inl plain.2)

/-- Behind a backslash no line feed comes up unless a unit of its own stands there. -/
theorem head?_unquoted (h : ∀ plain vs, us ≠ .single '\n' plain :: vs) :
    (us.flatMap unquoted).head? ≠ some '\n' := by
  cases us with
  | nil => exact nofun
  | cons u us =>
    cases u with
    | pair c =>
      rw [List.flatMap_cons, unquoted]
      split
      · exact fun heq => absurd (Option.some.inj heq) (by decide)
      · exact fun heq => absurd (Option.some.inj heq) (by decide)
    | single c plain =>
      intro heq
      cases Option.some.inj heq
      exact h plain us rfl

theorem dropLineJoins_unquoted (us : List StringUnit) :
    dropLineJoins (us.flatMap unquoted) = decoded us := by
  fun_induction decoded us with
  | case1 => rfl
  | case2 plain us ih =>
    change dropLineJoins ('\\' :: '\\' :: '\n' :: us.flatMap unquoted) = _
    have hhead : ('\\' :: '\n' :: us.flatMap unquoted).head? ≠ some '\n' := by simp
    rw [dropLineJoins_cons (.inr hhead), dropLineJoins, ih]
  | case3 u us hjoin ih =>
    rw [List.flatMap_cons, ← ih]
    cases u with
    | single c plain => exact dropLineJoins_cons (.inl plain.2)
    | pair c =>
      by_cases hquote : c = '"'
      · subst hquote
        exact dropLineJoins_cons (.inl (by decide))
      · by_cases hnewline : c = '\n'
        · subst hnewline
          change dropLineJoins ('\\' :: '\n' :: us.flatMap unquoted) = _
          rw [dropLineJoins]
          rfl
        · have hnext : c ≠ '\\' ∨ (us.flatMap unquoted).head? ≠ some '\n' := by
            by_cases hslash : c = '\\'
            · subst hslash
              exact .inr (head?_unquoted fun plain vs heq => hjoin plain vs rfl heq)
            · exact .inl hslash
          rw [unquoted, reading, if_neg hquote, if_neg hquote, if_neg hnewline]
          change dropLineJoins ('\\' :: c :: us.flatMap unquoted) = _
          rw [dropLineJoins_cons (.inr (by simpa using hnewline)), dropLineJoins_cons hnext]
          rfl

theorem unescape_spelled (us : List StringUnit) : unescape (spelled us) = decoded us := by
  rw [unescape, dropQuoteEscapes_spelled, dropLineJoins_unquoted]

theorem length_decoded_le (us : List StringUnit) : (decoded us).length ≤ (readings us).length := by
  fun_induction decoded us with
  | case1 => exact Nat.le_refl 0
  | case2 plain us ih =>
    change _ ≤ (['\\', '\\', '\n'] ++ readings us).length
    simp only [List.length_cons, List.length_append, List.length_nil]
    omega
  | case3 u us _ ih =>
    rw [readings_cons, List.length_append, List.length_append]
    omega

/-- Units are taken for what they stand for one by one exactly if no pair of backslashes stands
before a line feed. -/
theorem decoded_eq_readings_iff : decoded us = readings us ↔ ¬ slashesBeforeNewline <:+: us := by
  fun_induction decoded us with
  | case1 => exact iff_of_true rfl (by simp [slashesBeforeNewline])
  | case2 plain us _ =>
    refine iff_of_false (fun h => ?_) (not_not.2 (List.prefix_append slashesBeforeNewline us).isInfix)
    have hlen := congrArg List.length h
    change _ = (['\\', '\\', '\n'] ++ readings us).length at hlen
    have := length_decoded_le us
    simp only [List.length_cons, List.length_append, List.length_nil] at hlen
    omega
  | case3 u us hjoin ih =>
    rw [readings_cons, List.append_cancel_left_eq, ih, not_iff_not]
    refine ⟨List.infix_cons, fun hin => (List.infix_cons_iff.1 hin).resolve_left ?_⟩
    rintro ⟨vs, heq⟩
    obtain ⟨rfl, rfl⟩ := List.cons.inj heq
    exact hjoin _ vs rfl rfl

end StringUnit

end Structuring.Dot
