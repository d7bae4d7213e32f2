import Mathlib.Algebra.Group.Nat.Defs
import Structuring.Json.Reader

/-!
# Integers in JSON

An integer that is written is read as the same integer.

* `Ends` — what may follow a number.
* `natural_toDigits` — the digits of a number stand for it.
* `unsigned_toDigits`, `number_toString` — an integer up to its end.
-/

namespace Structuring.Json

variable {c : Char} {n : Nat} {cs ds rest : List Char} {negative : Bool}

def Ends (rest : List Char) : Prop :=
  ∀ c ∈ rest.head?, isDigit c = false ∧ c ≠ '.' ∧ c ≠ 'e' ∧ c ≠ 'E'

theorem ends_nil : Ends [] := nofun

theorem ends_cons (hc : isDigit c = false ∧ c ≠ '.' ∧ c ≠ 'e' ∧ c ≠ 'E') (cs : List Char) :
    Ends (c :: cs) := by
  intro d hd
  cases Option.some.inj hd
  exact hc

theorem fraction_ends (h : Ends rest) : fraction rest = ([], rest) := by
  unfold fraction
  split
  · exact absurd rfl (h '.' rfl).2.1
  · rfl

theorem exponent_ends (h : Ends rest) : exponent rest = (none, rest) := by
  cases rest with
  | nil => rfl
  | cons c rest =>
    obtain ⟨-, -, he, hE⟩ := h c rfl
    simp [exponent, he, hE]

/-! ## Digits -/

theorem digit?_digitChar (hn : n < 10) : digit? n.digitChar = some n := by
  revert n
  decide

theorem isDigit_of_mem_toDigits (hc : c ∈ Nat.toDigits 10 n) : isDigit c = true := by
  have hdigit := Nat.isDigit_of_mem_toDigits (by omega) (by omega) hc
  simp only [Char.isDigit, ge_iff_le, Bool.and_eq_true, decide_eq_true_eq] at hdigit
  have hle : '0' ≤ c ∧ c ≤ '9' := hdigit
  simp [isDigit, digit?, hle]

theorem toNat_lt_of_isDigit (hc : isDigit c = true) : c.toNat < 128 := by
  unfold isDigit digit? at hc
  split at hc
  · next h =>
    have hle : c.toNat ≤ '9'.toNat := h.2
    have : '9'.toNat = 57 := rfl
    omega
  · cases hc

theorem ne_of_isDigit {d : Char} (hc : isDigit c = true) (hd : isDigit d = false) : c ≠ d := by
  rintro rfl
  rw [hc] at hd
  cases hd

theorem natural_toDigits (n : Nat) : natural (Nat.toDigits 10 n) = n := by
  induction n using Nat.strongRecOn with
  | _ n ih =>
    by_cases hn : n < 10
    · rw [Nat.toDigits_of_lt_base hn]
      simp [natural, digit?_digitChar hn]
    · have hlast := digit?_digitChar (Nat.mod_lt n (by omega : 10 > 0))
      have hrest := ih (n / 10) (by omega)
      unfold natural at hrest
      rw [Nat.toDigits_of_base_le (by omega) (by omega), natural, List.foldl_append, hrest]
      simp only [List.foldl_cons, List.foldl_nil, hlast, Option.getD_some]
      omega

theorem exists_toDigits_eq (hn : 0 < n) : ∃ c cs, Nat.toDigits 10 n = c :: cs ∧ c ≠ '0' := by
  induction n using Nat.strongRecOn with
  | _ n ih =>
    by_cases hlt : n < 10
    · refine ⟨_, _, Nat.toDigits_of_lt_base hlt, ?_⟩
      rw [Ne, Nat.digitChar_eq_zero]
      omega
    · obtain ⟨c, cs, hcs, hc⟩ := ih (n / 10) (by omega) (by omega)
      refine ⟨c, cs ++ [(n % 10).digitChar], ?_, hc⟩
      rw [Nat.toDigits_of_base_le (by omega) (by omega), hcs]
      rfl

theorem exists_toDigits_cons (n : Nat) :
    ∃ c cs, Nat.toDigits 10 n = c :: cs ∧ isDigit c = true := by
  cases hds : Nat.toDigits 10 n with
  | nil => exact absurd hds Nat.toDigits_ne_nil
  | cons c cs => exact ⟨c, cs, rfl, isDigit_of_mem_toDigits (hds ▸ List.mem_cons_self)⟩

/-! ## Integers -/

theorem takeWhile_toDigits (h : Ends rest) (n : Nat) :
    (Nat.toDigits 10 n ++ rest).takeWhile isDigit = Nat.toDigits 10 n ∧
      (Nat.toDigits 10 n ++ rest).dropWhile isDigit = rest := by
  have hall : ∀ c ∈ Nat.toDigits 10 n, isDigit c = true := fun _ hc => isDigit_of_mem_toDigits hc
  rw [List.takeWhile_append_of_pos hall, List.dropWhile_append_of_pos hall]
  cases rest with
  | nil => simp
  | cons c rest => simp [(h c rfl).1]

theorem whole_toDigits (h : Ends rest) (n : Nat) :
    whole (Nat.toDigits 10 n ++ rest) = some (Nat.toDigits 10 n, rest) := by
  obtain rfl | hn := Nat.eq_zero_or_pos n
  · rw [Nat.toDigits_zero]
    rfl
  · obtain ⟨c, cs, hcs, hc⟩ := exists_toDigits_eq hn
    obtain ⟨htake, hdrop⟩ := takeWhile_toDigits h n
    unfold whole
    split
    · next heq =>
      rw [hcs] at heq
      exact absurd (List.cons.inj heq).1 hc
    · rw [htake, hdrop, hcs]

theorem integer_toDigits (negative : Bool) (hn : n < 10 ^ digitLimit) :
    integer negative (Nat.toDigits 10 n) = .ok (.int (if negative then -(n : Int) else n)) := by
  have hlength : (Nat.toDigits 10 n).length ≤ digitLimit :=
    (Nat.length_toDigits_le_iff (by omega) (by decide)).2 hn
  rw [integer, natural_toDigits, if_neg (Nat.not_lt.2 hlength)]

theorem unsigned_toDigits (h : Ends rest) (negative : Bool) (n : Nat) :
    unsigned negative (Nat.toDigits 10 n ++ rest) =
      (integer negative (Nat.toDigits 10 n)).map (·, rest) := by
  simp only [unsigned, whole_toDigits h, fraction_ends h, exponent_ends h]
  rfl

/-- The characters of an integer: a sign if it is negative, and its digits. -/
theorem toList_toString (z : Int) :
    (toString z).toList =
      if z < 0 then '-' :: Nat.toDigits 10 z.natAbs else Nat.toDigits 10 z.natAbs := by
  rw [Int.toString_eq_repr, Int.repr_eq_if]
  by_cases hz : z < 0
  · have habs : (-z).toNat = z.natAbs := by omega
    rw [if_neg (by omega), if_pos hz, habs]
    simp
  · have habs : z.toNat = z.natAbs := by omega
    rw [if_pos (by omega), if_neg hz, habs, Nat.toList_repr]

theorem number_toString (h : Ends rest) {z : Int} (hz : z.natAbs < 10 ^ digitLimit) :
    number ((toString z).toList ++ rest) = .ok (.int z, rest) := by
  rw [toList_toString]
  by_cases hneg : z < 0
  · have habs : -(z.natAbs : Int) = z := by omega
    rw [if_pos hneg]
    change unsigned true (Nat.toDigits 10 z.natAbs ++ rest) = _
    rw [unsigned_toDigits h, integer_toDigits true hz, if_pos rfl, habs]
    rfl
  · have habs : (z.natAbs : Int) = z := by omega
    rw [if_neg hneg]
    have hnumber : number (Nat.toDigits 10 z.natAbs ++ rest) =
        unsigned false (Nat.toDigits 10 z.natAbs ++ rest) := by
      obtain ⟨c, cs, hcs, hc⟩ := exists_toDigits_cons z.natAbs
      unfold number
      split
      · next heq =>
        rw [hcs] at heq
        exact absurd (List.cons.inj heq).1 (ne_of_isDigit hc (by decide))
      · rfl
    rw [hnumber, unsigned_toDigits h, integer_toDigits false hz, if_neg Bool.false_ne_true, habs]
    rfl

end Structuring.Json
