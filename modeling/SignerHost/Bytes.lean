/-!
# Byte strings

Byte strings are lists of bytes.  This module holds the fixed-width integers written in them, the
hexadecimal text of a byte string, and positions in lists, which may be out of bounds.

* `ofNatLE width n` keeps the low `width` bytes of `n`; `toNatLE` reads any number of bytes.
* `fits width n` says when an integer, possibly negative, has a `width`-byte form.
* `ofHex?` reads digits of either case and refuses an odd number of them.
* `position?` also counts from the end, where the last element has the position `-1`, and
  `elementAt` counts from the start only.
-/

namespace SignerHost

/-- Byte strings are plain lists, so that they can be taken apart from the front like any data. -/
abbrev Bytes := List UInt8

namespace Bytes

/-- The natural number with the given bytes, least significant first.  The empty byte string
counts as zero, so a field that is cut at the end of the data still has a value. -/
def toNatLE : Bytes → Nat
  | [] => 0
  | b :: bs => b.toNat + 256 * toNatLE bs

/-- The natural number with the given bytes, most significant first. -/
def toNatBE (bs : Bytes) : Nat := toNatLE bs.reverse

/-- The low `width` bytes of a natural number, least significant first.  Higher bytes are lost;
whoever may meet a larger number asks `fits` first. -/
def ofNatLE : Nat → Nat → Bytes
  | 0, _ => []
  | width + 1, n => UInt8.ofNat (n % 256) :: ofNatLE width (n / 256)

/-- The low `width` bytes of a natural number, most significant first. -/
def ofNatBE (width n : Nat) : Bytes := (ofNatLE width n).reverse

@[simp] theorem length_ofNatLE (width n : Nat) : (ofNatLE width n).length = width := by
  induction width generalizing n with
  | zero => rfl
  | succ width ih => simp [ofNatLE, ih]

@[simp] theorem length_ofNatBE (width n : Nat) : (ofNatBE width n).length = width := by
  simp [ofNatBE]

/-- Whether an integer has a form of `width` bytes.  No negative number has one, whatever the
width. -/
def fits (width : Nat) (n : Int) : Bool := 0 ≤ n && n < ((1 <<< (8 * width) : Nat) : Int)

/-- The bytes of a positive number without leading zeros, and one zero byte for zero. -/
def minimalBE (n : Nat) : Bytes := ofNatBE (Nat.log2 n / 8 + 1) n

/-! ## Hexadecimal text -/

def hexDigit (n : Nat) : Char :=
  if n < 10 then Char.ofNat (48 + n) else Char.ofNat (87 + n)

/-- Two lowercase digits for each byte. -/
def toHex (bs : Bytes) : String :=
  String.ofList (bs.flatMap fun b => [hexDigit (b.toNat / 16), hexDigit (b.toNat % 16)])

def hexValue? (c : Char) : Option Nat :=
  if '0' ≤ c ∧ c ≤ '9' then some (c.toNat - 48)
  else if 'a' ≤ c ∧ c ≤ 'f' then some (c.toNat - 87)
  else if 'A' ≤ c ∧ c ≤ 'F' then some (c.toNat - 55)
  else none

/-- Reads digits in pairs; anything else than whole pairs of digits is refused.  Digits of either
case may be mixed. -/
def ofHex? : List Char → Option Bytes
  | [] => some []
  | [_] => none
  | hi :: lo :: rest =>
      match hexValue? hi, hexValue? lo, ofHex? rest with
      | some h, some l, some bs => some (UInt8.ofNat (16 * h + l) :: bs)
      | _, _, _ => none

/-- The text of an integer in hexadecimal, with the sign in front and zeros up to `width`.  The
sign takes one of the `width` places, and a number that needs more places gets them. -/
def hexOfInt (width : Nat) (n : Int) : String :=
  let sign := if n < 0 then ['-'] else []
  let digits := Nat.toDigits 16 n.natAbs
  String.ofList (sign ++ List.replicate (width - sign.length - digits.length) '0' ++ digits)

end Bytes

/-! ## Positions in lists -/

/-- Whether an integer fits into a signed word of 64 bits.  No other integer can be a position in
a list. -/
def isWord (i : Int) : Bool := -0x8000000000000000 ≤ i && i < 0x8000000000000000

/-- The place that a position stands for in a list of a size.  A negative position counts from the
end. -/
def position? (size : Nat) (i : Int) : Option Nat :=
  let place := if i < 0 then i + size else i
  if 0 ≤ place ∧ place < size then some place.toNat else none

/-- The element of a list at a position.  A negative position has none here, unlike in
`position?`. -/
def elementAt {α : Type} (xs : List α) (index : Int) : Option α :=
  if 0 ≤ index then xs[index.toNat]? else none

end SignerHost
