import SignerHost.Bytes

/-!
# Base 64

Three bytes are written as four characters of six bits each.

* `encode` pads the last group to four characters.
* `decode?` is lenient: it skips characters outside of the alphabet and padding that ends no
  group, and it ignores what follows a complete padding.  Text that stops inside a group, or that
  has a character outside of ASCII, is refused.
-/

namespace SignerHost

namespace Base64

/-- The character of six bits. -/
def digit (n : Nat) : Char :=
  if n < 26 then Char.ofNat (65 + n)
  else if n < 52 then Char.ofNat (71 + n)
  else if n < 62 then Char.ofNat (n - 4)
  else if n = 62 then '+'
  else '/'

/-- The six bits of a character of the alphabet.  Padding has none. -/
def value? (c : Char) : Option Nat :=
  if 'A' ≤ c ∧ c ≤ 'Z' then some (c.toNat - 65)
  else if 'a' ≤ c ∧ c ≤ 'z' then some (c.toNat - 71)
  else if '0' ≤ c ∧ c ≤ '9' then some (c.toNat + 4)
  else if c = '+' then some 62
  else if c = '/' then some 63
  else none

def encodeChars : Bytes → List Char
  | [] => []
  | [a] => [digit (a.toNat / 4), digit (a.toNat % 4 * 16), '=', '=']
  | [a, b] =>
      [digit (a.toNat / 4), digit (a.toNat % 4 * 16 + b.toNat / 16), digit (b.toNat % 16 * 4), '=']
  | a :: b :: c :: rest =>
      digit (a.toNat / 4) :: digit (a.toNat % 4 * 16 + b.toNat / 16)
        :: digit (b.toNat % 16 * 4 + c.toNat / 64) :: digit (c.toNat % 64) :: encodeChars rest

def encode (bs : Bytes) : String := String.ofList (encodeChars bs)

/-- Reads on inside a group: `place` characters of the group were read, `carry` holds the bits of
the last one that are not written yet, and `pads` counts the padding since then. -/
def decodeFrom (place carry pads : Nat) : List Char → Option Bytes
  | [] => if place = 0 then some [] else none
  | c :: cs =>
      if c = '=' then
        if place < 2 then decodeFrom place carry pads cs
        else if 4 ≤ place + (pads + 1) then some []
        else decodeFrom place carry (pads + 1) cs
      else
        match value? c with
        | none => decodeFrom place carry pads cs
        | some v =>
            if place = 0 then decodeFrom 1 v 0 cs
            else if place = 1 then
              (decodeFrom 2 (v % 16) 0 cs).map (UInt8.ofNat (carry * 4 + v / 16) :: ·)
            else if place = 2 then
              (decodeFrom 3 (v % 4) 0 cs).map (UInt8.ofNat (carry * 16 + v / 4) :: ·)
            else (decodeFrom 0 0 0 cs).map (UInt8.ofNat (carry * 64 + v) :: ·)

/-- The bytes of a text.  A character outside of ASCII is refused wherever it stands. -/
def decode? (cs : List Char) : Option Bytes :=
  if cs.all fun c => c.toNat < 128 then decodeFrom 0 0 0 cs else none

end Base64

end SignerHost
