/-!
# Decoding

Bytes read as a text in UTF-8. Bytes that are no part of a character are read as replacement
characters.

* `encoded` — the bytes of a text.
* `decoded` — the text of some bytes.
-/

namespace Structuring.Text

/-- What the first byte of a character of several bytes tells: the bits that it gives, how many bytes
follow, and the range of the next one. -/
structure Lead where
  bits : Nat
  count : Nat
  low : Nat
  high : Nat

/-- What a byte tells as a first one, if it can be one. Ranges leave out characters with a shorter
form, surrogates and what is above all characters. -/
def lead? (b : Nat) : Option Lead :=
  if 0xc2 ≤ b ∧ b ≤ 0xdf then some ⟨b - 0xc0, 1, 0x80, 0xbf⟩
  else if b = 0xe0 then some ⟨0, 2, 0xa0, 0xbf⟩
  else if b = 0xed then some ⟨b - 0xe0, 2, 0x80, 0x9f⟩
  else if 0xe1 ≤ b ∧ b ≤ 0xef then some ⟨b - 0xe0, 2, 0x80, 0xbf⟩
  else if b = 0xf0 then some ⟨0, 3, 0x90, 0xbf⟩
  else if b = 0xf4 then some ⟨b - 0xf0, 3, 0x80, 0x8f⟩
  else if 0xf1 ≤ b ∧ b ≤ 0xf3 then some ⟨b - 0xf0, 3, 0x80, 0xbf⟩
  else none

/-- The bytes that go on with a character, up to some count. The first is in a range of its own. -/
def following : Nat → Nat → Nat → List UInt8 → List UInt8
  | count + 1, low, high, b :: bs =>
    if low ≤ b.toNat ∧ b.toNat ≤ high then b :: following count 0x80 0xbf bs else []
  | _, _, _, _ => []

/-- The character of the bits of its bytes. -/
def joined (bits : Nat) (bs : List UInt8) : Char :=
  Char.ofNat (bs.foldl (fun v b => v * 64 + (b.toNat - 0x80)) bits)

/-- The character that stands for bytes that are no part of one. -/
def replacement : Char := '\ufffd'

/-- The characters of some bytes. A character that breaks off is replaced as a whole. -/
def characters : List UInt8 → List Char
  | [] => []
  | b :: bs =>
    if b < 0x80 then Char.ofNat b.toNat :: characters bs
    else match lead? b.toNat with
      | none => replacement :: characters bs
      | some l =>
        let tail := following l.count l.low l.high bs
        (if tail.length = l.count then joined l.bits tail else replacement) ::
          characters (bs.drop tail.length)
termination_by bs => bs.length

/-- The bytes of a text. -/
def encoded (s : String) : ByteArray := s.toUTF8

/-- The text of some bytes. -/
def decoded (bytes : ByteArray) : String :=
  match String.fromUTF8? bytes with
  | some s => s
  | none => String.ofList (characters bytes.data.toList)

end Structuring.Text
