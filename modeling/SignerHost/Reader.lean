import SignerHost.Failure

/-!
# Reading byte strings from the front

A reader runs on the bytes not read yet.  It ends in a value or in a failure, and in both cases
leaves the bytes that it did not consume.

* `grab n` takes at most `n` bytes and never fails for lack of bytes; a negative bound asks for
  everything that is left.
* `Field` holds the strict readers of device messages: a field that is cut is a failure, and what
  was left is consumed.
-/

namespace SignerHost

/-- A reader of the bytes that are not read yet.  A failure does not bring back what was
consumed. -/
abbrev Reader := EStateM Failure Bytes

inductive ByteOrder
  | big
  | little
  deriving DecidableEq

namespace ByteOrder

def toNat : ByteOrder → Bytes → Nat
  | big => Bytes.toNatBE
  | little => Bytes.toNatLE

end ByteOrder

namespace Reader

/-- Takes at most `n` bytes.  At the end of the data it takes nothing, and never fails. -/
def upTo (n : Nat) : Reader Bytes := fun s => .ok (s.take n) (s.drop n)

/-- Takes everything that is left. -/
def remaining : Reader Bytes := fun s => .ok s []

/-- Takes at most `n` bytes, or everything if `n` is negative.  A bound that is no word fails before
anything is consumed. -/
def grab (n : Int) : Reader Bytes :=
  if ¬ isWord n then throw .overflow
  else if n < 0 then remaining
  else upTo n.toNat

/-- An unsigned integer of `bits / 8` whole bytes.  It fails if fewer bytes are left, and
consumes them all the same. -/
def uint (bits : Int) (order : ByteOrder) : Reader Nat := do
  let size := Int.fdiv bits 8
  let bs ← grab size
  if (bs.length : Int) < size then throw (.malformed (.cutInteger bits))
  return order.toNat bs

end Reader

namespace Field

/-- Exactly `n` bytes, or everything if `n` is negative.  Where fewer are left, all of them are
consumed before it fails. -/
def bytes (n : Int) : Reader Bytes := do
  let bs ← Reader.grab n
  if (bs.length : Int) < n then throw (.malformed .exhausted)
  return bs

/-- The number in `n` bytes, in either order. -/
def uint (n : Int) (order : ByteOrder) : Reader Nat := do
  return order.toNat (← bytes n)

/-- A compact size: one byte, or a marker and two, four or eight bytes.  The larger forms are
read whatever number they hold, so a number may have several. -/
def compactSize : Reader Nat := do
  let first ← uint 1 .big
  if first = 253 then uint 2 .little
  else if first = 254 then uint 4 .little
  else if first = 255 then uint 8 .little
  else return first

/-- Nothing is left; otherwise one byte is consumed. -/
def finish : Reader Unit := do
  let bs ← Reader.upTo 1
  if bs ≠ [] then throw (.malformed .leftover)

end Field

end SignerHost
