import SignerHost.Hash.Sha2

/-!
# Base 58

A byte string is written as a number in base 58, with one `1` for each leading zero byte.  With a
checksum, the first four bytes of the double digest follow the payload.
-/

namespace SignerHost

namespace Base58

def alphabet : List Char :=
  "123456789ABCDEFGHJKLMNPQRSTUVWXYZabcdefghijkmnopqrstuvwxyz".toList

/-- The digits of a number, least significant first; `fuel` bounds their count.  Zero has none;
the zeros in front of a number are written elsewhere. -/
def digits : Nat → Nat → List Char
  | 0, _ => []
  | fuel + 1, n => if n = 0 then [] else alphabet.getD (n % 58) '1' :: digits fuel (n / 58)

/-- The text of a byte string.  Each leading zero byte is written as one character, and the rest
as a number. -/
def encode (bs : Bytes) : String :=
  let zeros := bs.takeWhile (· = 0)
  String.ofList
    (zeros.map (fun _ => '1') ++ (digits (2 * bs.length) (Bytes.toNatBE bs)).reverse)

/-- The number that a text of digits stands for.  A character outside of the alphabet is refused. -/
def number? : Nat → List Char → Option Nat
  | n, [] => some n
  | n, c :: cs =>
      match alphabet.findIdx? (· = c) with
      | some d => number? (58 * n + d) cs
      | none => none

/-- The bytes of a text of digits.  The last digit always counts as part of the number. -/
def decode? (cs : List Char) : Option Bytes :=
  if cs = [] then some []
  else (number? 0 cs).map fun n =>
    (cs.dropLast.takeWhile (· = '1')).map (fun _ => 0) ++ Bytes.minimalBE n

def checksum (payload : Bytes) : Bytes := (doubleSha256 payload).take 4

/-- The text of a payload with the checksum behind it. -/
def encodeCheck (payload : Bytes) : String := encode (payload ++ checksum payload)

/-- The payload of a text whose checksum is right.  The checksum is the last four bytes, or all
of them if there are fewer. -/
def decodeCheck? (cs : List Char) : Option Bytes :=
  match decode? cs with
  | some bs =>
      let payload := bs.take (bs.length - 4)
      if bs.drop (bs.length - 4) = checksum payload then some payload else none
  | none => none

end Base58

end SignerHost
