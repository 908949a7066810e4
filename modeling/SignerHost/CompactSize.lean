import SignerHost.Reader

/-!
# Compact sizes

Counts and lengths are written with one byte below 253, and otherwise with a marker byte and two,
four or eight bytes, least significant first.  Writing chooses the shortest form; reading accepts
any form.

* `write` refuses what has no form: a negative number, or one of `2 ^ 64` and above.
* `read` takes an optional first part that was read before; only the three markers ask for more.
-/

namespace SignerHost

namespace CompactSize

/-- The shortest form of a number below `2 ^ 64`.  A larger number would lose its high bytes, so
`write` refuses it. -/
def encode (n : Nat) : Bytes :=
  if n ≤ 0xFC then Bytes.ofNatLE 1 n
  else if n ≤ 0xFFFF then 0xFD :: Bytes.ofNatLE 2 n
  else if n ≤ 0xFFFFFFFF then 0xFE :: Bytes.ofNatLE 4 n
  else 0xFF :: Bytes.ofNatLE 8 n

/-- Writes an integer in the shortest form.  A negative one and one that is too large are refused
in different ways. -/
def write (n : Int) : Except Failure Bytes :=
  if n < 0 then .error .overflow
  else if n < 0x10000000000000000 then .ok (encode n.toNat)
  else .error (.malformed (.compactSizeBound n))

/-- Reads a compact size whose first part may have been read before.  Data without a first byte
and a number that is cut are refused, each in words of its own. -/
def readAfter (first : Bytes) : Reader Nat := do
  let marker ← if first = [] then Reader.upTo 1 else pure first
  if marker = [] then throw (.malformed .noCompactSize)
  let width := if marker = [0xFD] then 2 else if marker = [0xFE] then 4
    else if marker = [0xFF] then 8 else 1
  let payload ← if width > 1 then Reader.upTo width else pure marker
  if payload.length ≠ width then throw (.malformed .cutCompactSize)
  return Bytes.toNatLE payload

/-- Reads a compact size of which nothing was read before. -/
def read : Reader Nat := readAfter []

end CompactSize

end SignerHost
