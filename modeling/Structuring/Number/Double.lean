/-!
# Double precision numbers

Binary floating point numbers with 53 digits, as exact values.

* `Double.ofDecimal` — the nearest double of a decimal number; of two, the one with even mantissa.
* `Double.digits` — the fewest decimal digits that read back as the same number, and of these the
  nearest.
* `Double.shown` — those digits, positional from 0.0001 to below 10 ^ 16.
-/

namespace Structuring

/-- A double: `mantissa * 2 ^ exponent` with a sign, an infinity, or no number. -/
inductive Double where
  | finite (negative : Bool) (mantissa : Nat) (exponent : Int)
  | infinite (negative : Bool)
  | nan
  deriving DecidableEq, Inhabited

namespace Double

/-- A power of two. -/
def twoTo (n : Nat) : Nat := Nat.pow 2 n

/-- A power of ten. -/
def tenTo (n : Nat) : Nat := Nat.pow 10 n

/-- The integer nearest to a quotient; of two, the even one. -/
def roundDiv (num den : Nat) : Nat :=
  let q := num / den
  let r := num % den
  if den < 2 * r ∨ (2 * r = den ∧ q % 2 = 1) then q + 1 else q

/-- A quotient times a power of two, as numerator and denominator. -/
def scale (num den : Nat) (e : Int) : Nat × Nat :=
  if 0 ≤ e then (num * twoTo e.toNat, den) else (num, den * twoTo (-e).toNat)

def minExponent : Int := -1074

def maxExponent : Int := 971

/-- The double nearest to a quotient of positive numbers. -/
def ofQuotient (negative : Bool) (num den : Nat) : Double :=
  let guess : Int := num.log2 - den.log2 - 53
  let fits (e : Int) : Bool :=
    let (n, d) := scale num den (-e)
    n < d * twoTo 53
  let e := if fits guess then guess else if fits (guess + 1) then guess + 1 else guess + 2
  let e := max e minExponent
  let (n, d) := scale num den (-e)
  let m := roundDiv n d
  let (m, e) := if m = twoTo 53 then (twoTo 52, e + 1) else (m, e)
  if maxExponent < e then .infinite negative else .finite negative m e

/-- The double nearest to `digits * 10 ^ exponent`. Exponents far beyond the range of doubles are
settled by their size alone. -/
def ofDecimal (negative : Bool) (digits : Nat) (exponent : Int) : Double :=
  if digits = 0 then .finite negative 0 minExponent
  else
    let magnitude : Int := (Nat.toDigits 10 digits).length + exponent
    if 310 < magnitude then .infinite negative
    else if magnitude < -330 then .finite negative 0 minExponent
    else if 0 ≤ exponent then ofQuotient negative (digits * tenTo exponent.toNat) 1
    else ofQuotient negative digits (tenTo (-exponent).toNat)

/-! ### Decimal digits

A double `m * 2 ^ e` stands for the numbers between the points halfway to its neighbours, these
points included if `m` is even. With all quantities times four there are no fractions: the
value is `4 * m`, the neighbours' halfway points are `4 * m + 2` above and `4 * m - 2` or, at the lower
end of a binade, `4 * m - 1` below. -/

/-- Whether `n * 10 ^ p` reads back as `m * 2 ^ e`. -/
def readsBack (m : Nat) (e : Int) (n : Nat) (p : Int) : Bool :=
  let low := if m = twoTo 52 ∧ minExponent < e then 4 * m - 1 else 4 * m - 2
  let high := 4 * m + 2
  -- compare `n * 10 ^ p * 4` with `low * 2 ^ e` and `high * 2 ^ e`
  let left := 4 * n * (if 0 ≤ p then tenTo p.toNat else 1) * (if 0 ≤ e then 1 else twoTo (-e).toNat)
  let unit := (if 0 ≤ p then 1 else tenTo (-p).toNat) * (if 0 ≤ e then twoTo e.toNat else 1)
  if m % 2 = 0 then low * unit ≤ left ∧ left ≤ high * unit
  else low * unit < left ∧ left < high * unit

/-- The value `m * 2 ^ e` over `10 ^ p` as numerator and denominator. -/
def inUnits (m : Nat) (e p : Int) : Nat × Nat :=
  (m * (if 0 ≤ e then twoTo e.toNat else 1) * (if 0 ≤ p then 1 else tenTo (-p).toNat),
    (if 0 ≤ e then 1 else twoTo (-e).toNat) * (if 0 ≤ p then tenTo p.toNat else 1))

/-- The multiple of `10 ^ p` that stands for `m * 2 ^ e`, if one of the two around it does: the
nearer of them, and of two as near the even one. -/
def nearestOnGrid (m : Nat) (e p : Int) : Option Nat :=
  let (num, den) := inUnits m e p
  let below := num / den
  let near := roundDiv num den
  let far := if near = below then below + 1 else below
  if readsBack m e near p then some near
  else if readsBack m e far p then some far
  else none

/-- The exponent `k` for which the value is at least `10 ^ (k - 1)` and below `10 ^ k`, found from
`k` upwards. -/
def decimalMagnitude (m : Nat) (e : Int) : Nat → Int → Int
  | 0, k => k
  | fuel + 1, k =>
    let (num, den) := inUnits m e k
    if num < den then k else decimalMagnitude m e fuel (k + 1)

/-- The first grid, from coarse to fine, with a point that stands for the value. -/
def searchGrids (m : Nat) (e : Int) (k : Int) : List Nat → Nat × Int
  | [] => (m, e)
  | places :: rest =>
    let p := k - places
    match nearestOnGrid m e p with
    | some n => (n, p)
    | none => searchGrids m e k rest

/-- Digits without zeros at the end, and the exponent of the last. -/
def trimZeros : Nat → Nat × Int → Nat × Int
  | 0, np => np
  | fuel + 1, (n, p) => if n % 10 = 0 ∧ n ≠ 0 then trimZeros fuel (n / 10, p + 1) else (n, p)

/-- The fewest digits that read back, as a number and the exponent of its last digit. -/
def digits (m : Nat) (e : Int) : Nat × Int :=
  let start : Int := (e + m.log2) * 3 / 10 - 1
  let k := decimalMagnitude m e 700 (start - 2)
  trimZeros 20 (searchGrids m e k ((List.range 17).map (· + 1)))

/-- A decimal number: `0.001` and `1000000.0` positional, `1e-05` and `1e+16` with an exponent of two
digits or more. -/
def writeDecimal (n : Nat) (p : Int) : String :=
  let ds := Nat.toDigits 10 n
  let point : Int := ds.length + p
  if -4 < point ∧ point ≤ 16 then
    if point ≤ 0 then
      "0." ++ String.ofList (List.replicate (-point).toNat '0' ++ ds)
    else if 0 ≤ p then
      String.ofList (ds ++ List.replicate p.toNat '0') ++ ".0"
    else
      String.ofList (ds.take point.toNat) ++ "." ++ String.ofList (ds.drop point.toNat)
  else
    let fraction := match ds with
      | [] => ""
      | [d] => String.ofList [d]
      | d :: rest => String.ofList (d :: '.' :: rest)
    let x := point - 1
    let xs := Nat.toDigits 10 x.natAbs
    fraction ++ (if x < 0 then "e-" else "e+") ++
      String.ofList (List.replicate (2 - xs.length) '0' ++ xs)

/-- A double as text. Infinities and no number are given by the words. -/
def write (infinity nothing : String) : Double → String
  | .nan => nothing
  | .infinite negative => (if negative then "-" else "") ++ infinity
  | .finite negative m e =>
    (if negative then "-" else "") ++
      if m = 0 then "0.0" else let (n, p) := digits m e; writeDecimal n p

/-- A double as it stands in a message. -/
def shown (x : Double) : String := x.write "inf" "nan"

/-- Whether an integer has the value of a double. -/
def equalsInt (x : Double) (i : Int) : Bool :=
  match x with
  | .finite negative m e =>
    let scaled : Int := if 0 ≤ e then m * twoTo e.toNat else m
    let other : Int := if 0 ≤ e then i else i * twoTo (-e).toNat
    (if negative then -scaled else scaled) = other
  | _ => false

/-- Whether two doubles have the same value. The two zeros do. -/
def sameValue (x y : Double) : Bool :=
  match x, y with
  | .finite _ 0 _, .finite _ 0 _ => true
  | _, _ => x = y

end Double

end Structuring
