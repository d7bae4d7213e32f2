import Mathlib.Data.List.Chain
import Structuring.Json.Reader
import Structuring.Json.Writer

/-!
# Texts in JSON

A text that is written between quotes is ASCII. A code point beyond the basic plane is written as two
halves, which are put together again, and so are two halves that stood side by side from the start: a
text is read as the same text if it holds no such pair.

* `toList_hexDigits` — the four digits of a unit.
* `units_escaped` — a code point that is written is read as itself or as its halves.
* `join_flatMap_halves` — the halves of a text are joined as the text is.
* `join_eq_self_iff` — which texts stay as they are.
* `text_quoted` — a text up to its closing quote.
-/

namespace Structuring.Json

variable {c : Char} {n w : Nat} {cs rest : List Char} {p u v : CodePoint} {ps us : List CodePoint}

/-! ## Digits in base sixteen -/

theorem hexDigit?_digitChar (hn : n < 16) : hexDigit? n.digitChar = some n := by
  revert n
  decide

theorem toNat_digitChar_lt (hn : n < 16) : n.digitChar.toNat < 128 := by
  revert n
  decide

theorem toList_hexDigits_succ (hw : 0 < w) :
    (Text.hexDigits (w + 1) n).toList = (Text.hexDigits w (n / 16)).toList ++ [(n % 16).digitChar] := by
  simp only [Text.hexDigits, String.toList_ofList]
  by_cases hn : n < 16
  · rw [Nat.toDigits_of_lt_base hn, Nat.div_eq_of_lt hn, Nat.mod_eq_of_lt hn, Nat.toDigits_zero]
    obtain ⟨w, rfl⟩ := Nat.exists_eq_add_of_lt hw
    simp [List.replicate_succ']
  · rw [Nat.toDigits_of_base_le (by omega) (by omega), List.length_append, List.length_singleton,
      Nat.add_sub_add_right, List.append_assoc]

theorem toList_hexDigits (hn : n < 0x10000) :
    (Text.hexDigits 4 n).toList = [(n / 4096).digitChar, (n / 256 % 16).digitChar,
      (n / 16 % 16).digitChar, (n % 16).digitChar] := by
  have hone : (Text.hexDigits 1 (n / 4096)).toList = [(n / 4096).digitChar] := by
    simp only [Text.hexDigits, String.toList_ofList]
    rw [Nat.toDigits_of_lt_base (by omega)]
    rfl
  rw [toList_hexDigits_succ (by omega), toList_hexDigits_succ (by omega),
    toList_hexDigits_succ (by omega)]
  simp only [Nat.div_div_eq_div_mul, Nat.reduceMul, hone, List.cons_append, List.nil_append]

theorem unit?_digits (hn : n < 0x10000) :
    unit? (n / 4096).digitChar (n / 256 % 16).digitChar (n / 16 % 16).digitChar (n % 16).digitChar =
      some n := by
  have hsum : (((n / 4096) * 16 + n / 256 % 16) * 16 + n / 16 % 16) * 16 + n % 16 = n := by omega
  have h₁ : hexDigit? (n / 4096).digitChar = some (n / 4096) := hexDigit?_digitChar (by omega)
  have h₂ : hexDigit? (n / 256 % 16).digitChar = some (n / 256 % 16) := hexDigit?_digitChar (by omega)
  have h₃ : hexDigit? (n / 16 % 16).digitChar = some (n / 16 % 16) := hexDigit?_digitChar (by omega)
  have h₄ : hexDigit? (n % 16).digitChar = some (n % 16) := hexDigit?_digitChar (by omega)
  simp [unit?, h₁, h₂, h₃, h₄, hsum]

theorem units_unitEscape (hn : n < 0x10000) :
    units ((unitEscape n).toList ++ cs) = (units cs).map fun x => (.ofNat n :: x.1, x.2) := by
  rw [unitEscape, String.toList_append, toList_hexDigits hn]
  change units ('\\' :: 'u' :: _ :: _ :: _ :: _ :: cs) = _
  rw [units, unit?_digits hn]

/-! ## Halves -/

/-- What a code point is written by: itself, or two halves. -/
def halves (p : CodePoint) : List CodePoint :=
  if p.value < 0x10000 then [p]
  else [.ofNat (0xd800 + (p.value - 0x10000) / 0x400), .ofNat (0xdc00 + (p.value - 0x10000) % 0x400)]

theorem halves_of_lt (hp : p.value < 0x10000) : halves p = [p] := if_pos hp

theorem halves_of_le (hp : 0x10000 ≤ p.value) :
    ∃ u v, halves p = [u, v] ∧ u.isHigh = true ∧ v.isLow = true ∧ u.isLow = false ∧ u.pair v = p := by
  have hlt := p.lt
  have hhigh := CodePoint.value_ofNat
    (by omega : 0xd800 + (p.value - 0x10000) / 0x400 < 0x110000)
  have hlow := CodePoint.value_ofNat
    (by omega : 0xdc00 + (p.value - 0x10000) % 0x400 < 0x110000)
  refine ⟨_, _, if_neg (by omega), ?_, ?_, ?_, ?_⟩
  · simp only [CodePoint.isHigh, hhigh, Bool.and_eq_true, decide_eq_true_eq]
    omega
  · simp only [CodePoint.isLow, hlow, Bool.and_eq_true, decide_eq_true_eq]
    omega
  · simp only [CodePoint.isLow, hhigh, Bool.and_eq_false_iff, decide_eq_false_iff_not]
    omega
  · have hsum : 0x10000 + (0xd800 + (p.value - 0x10000) / 0x400 - 0xd800) * 0x400 +
        (0xdc00 + (p.value - 0x10000) % 0x400 - 0xdc00) = p.value := by omega
    rw [CodePoint.pair, hhigh, hlow, hsum, CodePoint.ofNat_value]

theorem lt_of_isHigh (hu : u.isHigh = true) : u.value < 0x10000 := by
  simp only [CodePoint.isHigh, Bool.and_eq_true, decide_eq_true_eq] at hu
  omega

theorem lt_of_isLow (hu : u.isLow = true) : u.value < 0x10000 := by
  simp only [CodePoint.isLow, Bool.and_eq_true, decide_eq_true_eq] at hu
  omega

/-! ## Pairs -/

/-- Two code points that are no pair. -/
def Apart (u v : CodePoint) : Prop := (u.isHigh && v.isLow) = false

instance (u v : CodePoint) : Decidable (Apart u v) := inferInstanceAs (Decidable (_ = _))

theorem apart_of_isLow (hv : v.isLow = false) : Apart u v := by rw [Apart, hv, Bool.and_false]

theorem join_pair (h : (u.isHigh && v.isLow) = true) : join (u :: v :: us) = u.pair v :: join us := by
  rw [join, if_pos h]

theorem join_cons (h : ∀ v ∈ us.head?, Apart u v) : join (u :: us) = u :: join us := by
  cases us with
  | nil => rfl
  | cons v us =>
    have hapart : (u.isHigh && v.isLow) = false := h v rfl
    rw [join, hapart, if_neg Bool.false_ne_true]

theorem join_flatMap_halves (ps : List CodePoint) : join (ps.flatMap halves) = join ps := by
  induction ps using join.induct with
  | case1 => rfl
  | case2 p =>
    rw [List.flatMap_singleton]
    rcases Nat.lt_or_ge p.value 0x10000 with hp | hp
    · rw [halves_of_lt hp]
    · obtain ⟨u, v, heq, hu, hv, -, rfl⟩ := halves_of_le hp
      rw [heq, join_pair (by rw [hu, hv]; rfl)]
      rfl
  | case3 p q ps hpair ih =>
    obtain ⟨hp, hq⟩ := Bool.and_eq_true_iff.1 hpair
    rw [List.flatMap_cons, List.flatMap_cons, halves_of_lt (lt_of_isHigh hp),
      halves_of_lt (lt_of_isLow hq), join_pair hpair]
    have hjoin : join (p :: q :: ps.flatMap halves) = p.pair q :: join (ps.flatMap halves) :=
      join_pair hpair
    exact hjoin.trans (by rw [ih])
  | case4 p q ps hapart ih =>
    have hapart : Apart p q := Bool.eq_false_iff.2 hapart
    have hcons : join (p :: q :: ps) = p :: join (q :: ps) :=
      join_cons (by rintro _ ⟨⟩; exact hapart)
    rw [List.flatMap_cons, hcons, ← ih]
    rcases Nat.lt_or_ge p.value 0x10000 with hp | hp
    · -- what follows is the second code point or a first half
      rw [halves_of_lt hp]
      refine join_cons fun w hw => ?_
      rw [List.flatMap_cons] at hw
      rcases Nat.lt_or_ge q.value 0x10000 with hq | hq
      · rw [halves_of_lt hq] at hw
        cases hw
        exact hapart
      · obtain ⟨u, v, heq, -, -, hlow, -⟩ := halves_of_le hq
        rw [heq] at hw
        cases hw
        exact apart_of_isLow hlow
    · obtain ⟨u, v, heq, hu, hv, -, rfl⟩ := halves_of_le hp
      rw [heq]
      exact join_pair (by rw [hu, hv]; rfl)

def joined (s : CodeText) : CodeText := ⟨join s.points⟩

def Unpaired (ps : List CodePoint) : Prop := ps.IsChain Apart

instance (ps : List CodePoint) : Decidable (Unpaired ps) :=
  inferInstanceAs (Decidable (ps.IsChain Apart))

theorem length_join_le (ps : List CodePoint) : (join ps).length ≤ ps.length := by
  induction ps using join.induct with
  | case1 => exact Nat.le_refl _
  | case2 p => exact Nat.le_refl _
  | case3 p q ps hpair ih =>
    rw [join_pair hpair, List.length_cons, List.length_cons, List.length_cons]
    omega
  | case4 p q ps hapart ih =>
    rw [join, if_neg hapart, List.length_cons, List.length_cons]
    omega

theorem join_eq_self_iff (ps : List CodePoint) : join ps = ps ↔ Unpaired ps := by
  induction ps using join.induct with
  | case1 => exact iff_of_true rfl .nil
  | case2 p => exact iff_of_true rfl (.singleton p)
  | case3 p q ps hpair ih =>
    rw [Unpaired, List.isChain_cons_cons, join_pair hpair]
    refine iff_of_false (fun heq => ?_) fun h => ?_
    · -- the joined text is shorter
      have hlength := congrArg List.length heq
      have hle := length_join_le ps
      simp only [List.length_cons] at hlength
      omega
    · exact absurd (hpair.symm.trans h.1) nofun
  | case4 p q ps hapart ih =>
    have hapart' : Apart p q := Bool.eq_false_iff.2 hapart
    rw [Unpaired, List.isChain_cons_cons, join, if_neg hapart, List.cons.injEq]
    exact ⟨fun h => ⟨hapart', ih.1 h.2⟩, fun h => ⟨rfl, ih.2 h.2⟩⟩

example : join [.ofNat 0xd83d, .ofNat 0xde00] = [.ofChar '😀'] := by decide

theorem joined_eq {s : CodeText} (h : Unpaired s.points) : joined s = s := by
  rw [joined, (join_eq_self_iff s.points).2 h]

theorem isHigh_ofChar (c : Char) : (CodePoint.ofChar c).isHigh = false := by
  have := c.valid
  simp only [UInt32.isValidChar, Nat.isValidChar] at this
  change (decide (_ ≤ c.val.toNat) && decide (c.val.toNat < _)) = false
  simp only [Bool.and_eq_false_iff, decide_eq_false_iff_not]
  omega

theorem unpaired_ofString (s : String) : Unpaired (CodeText.ofString s).points := by
  rw [CodeText.ofString, ← join_eq_self_iff]
  induction s.toList with
  | nil => rfl
  | cons c cs ih =>
    rw [List.map_cons, join_cons, ih]
    intro v _
    rw [Apart, isHigh_ofChar, Bool.false_and]

/-! ## Code points that are written -/

/-- A code point is written with a letter, as it is, as one unit or as two. -/
theorem escaped_cases (p : CodePoint) :
    (∃ c d, p = .ofChar c ∧ escaped p = String.ofList ['\\', d] ∧ simpleEscape? d = some c ∧
      d ≠ 'u' ∧ d.toNat < 128 ∧ c.toNat < 128) ∨
    (∃ c, p = .ofChar c ∧ escaped p = String.ofList [c] ∧ c ≠ '"' ∧ c ≠ '\\' ∧ 32 ≤ c.toNat ∧
      c.toNat < 127) ∨
    (escaped p = unitEscape p.value ∧ p.value < 0x10000) ∨
    (escaped p = unitEscape (0xd800 + (p.value - 0x10000) / 0x400) ++
      unitEscape (0xdc00 + (p.value - 0x10000) % 0x400) ∧ 0x10000 ≤ p.value) := by
  unfold escaped
  split
  · exact .inl ⟨'"', '"', ‹_›, by decide⟩
  split
  · exact .inl ⟨'\\', '\\', ‹_›, by decide⟩
  split
  · exact .inl ⟨'\n', 'n', ‹_›, by decide⟩
  split
  · exact .inl ⟨'\r', 'r', ‹_›, by decide⟩
  split
  · exact .inl ⟨'\t', 't', ‹_›, by decide⟩
  split
  · exact .inl ⟨'\x0c', 'f', ‹_›, by decide⟩
  split
  · exact .inl ⟨'\x08', 'b', ‹_›, by decide⟩
  split
  · next hquote hslash _ _ _ _ _ hp =>
    have hchar : CodePoint.ofChar p.char = p := CodePoint.ofChar_char (.inl (by omega))
    have hvalue : p.char.toNat = p.value := congrArg CodePoint.value hchar
    exact .inr (.inl ⟨p.char, hchar.symm, rfl, fun h => hquote (by rw [← hchar, h]),
      fun h => hslash (by rw [← hchar, h]), by omega, by omega⟩)
  split
  · next hp => exact .inr (.inr (.inl ⟨rfl, hp⟩))
  · next hp => exact .inr (.inr (.inr ⟨rfl, Nat.le_of_not_lt hp⟩))

theorem units_escaped (p : CodePoint) (cs : List Char) :
    units ((escaped p).toList ++ cs) = (units cs).map fun x => (halves p ++ x.1, x.2) := by
  have hlt := p.lt
  obtain ⟨c, d, rfl, heq, hd, hu, -, hc⟩ | ⟨c, rfl, heq, hquote, hslash, hlo, hhi⟩ | ⟨heq, hp⟩ |
    ⟨heq, hp⟩ := escaped_cases p
  · rw [heq, halves_of_lt (by change c.toNat < _; omega), String.toList_ofList]
    change units ('\\' :: d :: cs) = _
    rw [units, hd]
    · rfl
    · -- the letter is not the one that starts a unit
      rintro _ _ _ _ _ rfl
      exact absurd rfl hu
  · rw [heq, halves_of_lt (by change c.toNat < _; omega), String.toList_ofList]
    change units (c :: cs) = _
    rw [units, if_neg (by simp only [hslash, false_or]; omega)]
    · rfl
    · exact hquote
    · rintro _ _ _ _ _ rfl
      exact absurd rfl hslash
    · rintro _ _ rfl
      exact absurd rfl hslash
  · rw [heq, halves_of_lt hp, units_unitEscape hp, CodePoint.ofNat_value]
    rfl
  · rw [heq, halves, if_neg (by omega), String.toList_append, List.append_assoc,
      units_unitEscape (by omega), units_unitEscape (by omega), Option.map_map]
    rfl

theorem toNat_unitEscape_lt (hn : n < 0x10000) (hc : c ∈ (unitEscape n).toList) : c.toNat < 128 := by
  have hstart : "\\u".toList = ['\\', 'u'] := rfl
  rw [unitEscape, String.toList_append, toList_hexDigits hn, hstart] at hc
  simp only [List.cons_append, List.nil_append, List.mem_cons, List.not_mem_nil, or_false] at hc
  rcases hc with rfl | rfl | rfl | rfl | rfl | rfl
  · decide
  · decide
  all_goals exact toNat_digitChar_lt (by omega)

theorem toNat_escaped_lt (hc : c ∈ (escaped p).toList) : c.toNat < 128 := by
  have hlt := p.lt
  obtain ⟨_, e, -, heq, -, -, he, -⟩ | ⟨d, -, heq, -, -, -, hhi⟩ | ⟨heq, hp⟩ | ⟨heq, hp⟩ :=
    escaped_cases p
  · rw [heq, String.toList_ofList, List.mem_cons, List.mem_singleton] at hc
    rcases hc with rfl | rfl
    · decide
    · exact he
  · rw [heq, String.toList_ofList, List.mem_singleton] at hc
    subst hc
    omega
  · rw [heq] at hc
    exact toNat_unitEscape_lt hp hc
  · rw [heq, String.toList_append, List.mem_append] at hc
    rcases hc with hc | hc
    · exact toNat_unitEscape_lt (by omega) hc
    · exact toNat_unitEscape_lt (by omega) hc

/-! ## Texts in quotes -/

theorem toList_quoted (s : CodeText) :
    (quoted s).toList = '"' :: (s.points.flatMap (fun p => (escaped p).toList) ++ ['"']) := by
  simp [quoted, String.toList_join, List.flatMap_map]

theorem toNat_quoted_lt {s : CodeText} (hc : c ∈ (quoted s).toList) : c.toNat < 128 := by
  rw [toList_quoted, List.mem_cons, List.mem_append, List.mem_flatMap] at hc
  rcases hc with rfl | ⟨p, -, hc⟩ | hc
  · decide
  · exact toNat_escaped_lt hc
  · rw [List.mem_singleton.1 hc]
    decide

theorem units_flatMap_escaped (ps : List CodePoint) (rest : List Char) :
    units (ps.flatMap (fun p => (escaped p).toList) ++ '"' :: rest) =
      some (ps.flatMap halves, rest) := by
  induction ps with
  | nil => rfl
  | cons p ps ih =>
    rw [List.flatMap_cons, List.append_assoc, units_escaped, ih]
    rfl

theorem text_quoted (s : CodeText) (rest : List Char) :
    ∃ cs, (quoted s).toList ++ rest = '"' :: cs ∧ text cs = some (joined s, rest) := by
  refine ⟨s.points.flatMap (fun p => (escaped p).toList) ++ '"' :: rest, ?_, ?_⟩
  · rw [toList_quoted, List.cons_append, List.append_assoc]
    rfl
  · rw [text, units_flatMap_escaped, Option.map_some, joined, ← join_flatMap_halves]

end Structuring.Json
