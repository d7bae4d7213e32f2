/-!
# Code points

Texts that may hold surrogates, the halves that UTF-16 writes a character beyond the basic plane by. A
half is a code point but no character, so a `String` has none.

* `CodePoint` — a number below `0x110000`.
* `CodePoint.pair` — the code point that two halves stand for.
* `CodeText` — a text of code points.
-/

namespace Structuring

/-- A code point: a character or a surrogate. -/
structure CodePoint where
  value : Nat
  lt : value < 0x110000
  deriving DecidableEq

namespace CodePoint

/-- The code point with a number, if there is one. -/
def ofNat (n : Nat) : CodePoint := if h : n < 0x110000 then ⟨n, h⟩ else ⟨0, by decide⟩

theorem value_ofNat {n : Nat} (hn : n < 0x110000) : (ofNat n).value = n := by simp [ofNat, hn]

@[simp] theorem ofNat_value (p : CodePoint) : ofNat p.value = p := by simp [ofNat, p.lt]

theorem toNat_lt (c : Char) : c.toNat < 0x110000 := by
  have := c.valid
  simp only [UInt32.isValidChar, Nat.isValidChar] at this
  change c.val.toNat < _
  omega

def ofChar (c : Char) : CodePoint := ⟨c.toNat, toNat_lt c⟩

instance : Coe Char CodePoint := ⟨ofChar⟩

/-- The character of a code point; a surrogate has none, and is replaced. -/
def char (p : CodePoint) : Char := if p.value.isValidChar then Char.ofNat p.value else '\ufffd'

theorem ofChar_char {p : CodePoint} (hp : p.value.isValidChar) : ofChar p.char = p := by
  have hvalue : (Char.ofNat p.value).toNat = p.value := by
    rw [Char.ofNat, dif_pos hp]
    rfl
  simp only [ofChar, char, if_pos hp, hvalue]

/-- Whether a code point is the first, or the second, half of a pair of surrogates. -/
def isHigh (p : CodePoint) : Bool := 0xd800 ≤ p.value && p.value < 0xdc00

def isLow (p : CodePoint) : Bool := 0xdc00 ≤ p.value && p.value < 0xe000

/-- The code point that two halves stand for. -/
def pair (p q : CodePoint) : CodePoint :=
  ofNat (0x10000 + (p.value - 0xd800) * 0x400 + (q.value - 0xdc00))

end CodePoint

/-- A text of code points. -/
structure CodeText where
  points : List CodePoint
  deriving DecidableEq, Inhabited

namespace CodeText

def ofString (s : String) : CodeText := ⟨s.toList.map .ofChar⟩

instance : Coe String CodeText := ⟨ofString⟩

/-- The text without surrogates, each of which is replaced. -/
def string (s : CodeText) : String := String.ofList (s.points.map (·.char))

instance : Append CodeText := ⟨fun s t => ⟨s.points ++ t.points⟩⟩

/-- Texts with another one between them. -/
def intercalate (separator : CodeText) (texts : List CodeText) : CodeText :=
  ⟨separator.points.intercalate (texts.map (·.points))⟩

end CodeText

end Structuring
