import SignerHost.Text.Basic

/-!
# Decimal numbers in any script

The decimal digits of every script come in runs of ten, and each is known by its zero.  A few
more characters count as digits without having a decimal value: superscripts, circled digits and
their like.  Both tables are those of Unicode 14; later versions only add characters to them.

* `natural` reads a text of digits; it refuses a digit without a decimal value, and more than
  4300 digits.
* `integer?` also takes blanks around the number, a sign, and single underscores between digits.
-/

namespace SignerHost

namespace Decimal

/-- The zeros of the runs of ten decimal digits: in Unicode 14 the characters of category Nd whose
value is zero, in increasing order. -/
def zeros : List Nat :=
  [0x30, 0x660, 0x6f0, 0x7c0, 0x966, 0x9e6, 0xa66, 0xae6, 0xb66, 0xbe6, 0xc66, 0xce6, 0xd66,
    0xde6, 0xe50, 0xed0, 0xf20, 0x1040, 0x1090, 0x17e0, 0x1810, 0x1946, 0x19d0, 0x1a80, 0x1a90,
    0x1b50, 0x1bb0, 0x1c40, 0x1c50, 0xa620, 0xa8d0, 0xa900, 0xa9d0, 0xa9f0, 0xaa50, 0xabf0,
    0xff10, 0x104a0, 0x10d30, 0x11066, 0x110f0, 0x11136, 0x111d0, 0x112f0, 0x11450, 0x114d0,
    0x11650, 0x116c0, 0x11730, 0x118e0, 0x11950, 0x11c50, 0x11d50, 0x11da0, 0x16a60, 0x16ac0,
    0x16b50, 0x1d7ce, 0x1d7d8, 0x1d7e2, 0x1d7ec, 0x1d7f6, 0x1e140, 0x1e2f0, 0x1e950, 0x1fbf0]

/-- Ranges of digits that have no decimal value: in Unicode 14 the characters with a digit value
that are not of category Nd. -/
def otherDigits : List (Nat × Nat) :=
  [(0xb2, 0xb3), (0xb9, 0xb9), (0x1369, 0x1371), (0x19da, 0x19da), (0x2070, 0x2070),
    (0x2074, 0x2079), (0x2080, 0x2089), (0x2460, 0x2468), (0x2474, 0x247c), (0x2488, 0x2490),
    (0x24ea, 0x24ea), (0x24f5, 0x24fd), (0x24ff, 0x24ff), (0x2776, 0x277e), (0x2780, 0x2788),
    (0x278a, 0x2792), (0x10a40, 0x10a43), (0x10e60, 0x10e68), (0x11052, 0x1105a),
    (0x1f100, 0x1f10a)]

/-- The value of a decimal digit.  Digits of all scripts count alike, and may be mixed. -/
def value? (c : Char) : Option Nat :=
  (zeros.find? fun z => z ≤ c.toNat && c.toNat < z + 10).map fun z => c.toNat - z

/-- Whether a character counts as a digit, with or without a decimal value. -/
def isDigit (c : Char) : Bool :=
  (value? c).isSome || otherDigits.any fun r => r.1 ≤ c.toNat && c.toNat ≤ r.2

/-- The largest number of digits that is read.  Leading zeros count as digits too. -/
def maxDigits : Nat := 4300

/-- The number with the given digits, most significant first. -/
def ofDigits (ds : List Nat) : Nat := ds.foldl (fun n d => 10 * n + d) 0

/-- The number that a text of digits stands for.  The bound on the digits is checked before the
digits themselves. -/
def natural (cs : List Char) : Except Failure Nat :=
  let leading := cs.takeWhile fun c => (value? c).isSome
  if maxDigits < leading.length then .error (.malformed (.tooManyDigits leading.length))
  else if leading.length = cs.length ∧ cs ≠ [] then .ok (ofDigits (cs.filterMap value?))
  else .error (.malformed (.notDecimal (String.ofList cs)))

/-- Whether no underscore is at an end or beside another one.  An empty text has an empty part,
so it does not pass either. -/
def underscoresApart (cs : List Char) : Bool :=
  (Text.splitAt '_' cs).all fun part => !part.isEmpty

/-- Whether a character may stand around a number: any blank but the four ASCII separators. -/
def isMargin (c : Char) : Bool := Text.isBlank c && !(0x1c ≤ c.toNat && c.toNat ≤ 0x1f)

/-- The integer that a text stands for: blanks around it, a sign, and single underscores between
its digits are allowed. -/
def integer? (cs : List Char) : Option Int :=
  let body := Text.trim isMargin cs
  let (negative, digits) := match body with
    | '-' :: rest => (true, rest)
    | '+' :: rest => (false, rest)
    | rest => (false, rest)
  if underscoresApart digits then
    match natural (digits.filter (· ≠ '_')) with
    | .ok n => some (if negative then -(n : Int) else n)
    | .error _ => none
  else none

end Decimal

end SignerHost
