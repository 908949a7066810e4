import SignerHost.CompactSize

/-!
# Fields of transactions

Transactions and the maps around them are read with rules of their own.

* An integer at the end of the data may be cut: `uint` and `compactSize` take what is left.  Only
  the first byte of a compact size has to be there.
* `string` checks the length in front of it, and `cutString` does not.
* `entries` reads keys, each with the field behind it, until an empty key.
* `whole` reads a byte string to its end.
-/

namespace SignerHost

namespace Wire

/-- The failure of data that is no partially signed transaction.  It tells neither the field nor
the place that is at fault. -/
def refuse {α : Type} : Except Failure α := .error (.psbt .unreadable)

/-- An integer of at most `width` bytes.  With no byte left it is zero. -/
def uint (width : Nat) : Reader Nat := do
  return Bytes.toNatLE (← Reader.upTo width)

/-- A compact size whose number may be cut at the end of the data.  Only its first byte has to be
there. -/
def compactSize : Reader Nat := do
  match ← Reader.upTo 1 with
  | [] => throw .missingCompactSize
  | marker :: _ =>
      if marker < 0xFD then return marker.toNat
      uint (1 <<< (marker.toNat - 0xFC))

/-- The bytes behind their length, or those that are left.  What is missing is not noticed. -/
def cutString : Reader Bytes := do
  let length ← compactSize
  Reader.grab length

/-- The bytes behind their length.  Here a string that is cut is refused. -/
def string : Reader Bytes := do
  let length ← compactSize
  let bs ← Reader.grab length
  if bs.length = length then return bs
  MonadExcept.ofExcept refuse

/-- The same reader `n` times. -/
def many {α : Type} (reader : Reader α) : Nat → Reader (List α)
  | 0 => return []
  | n + 1 => do
      let first ← reader
      let rest ← many reader n
      return first :: rest

/-- Reads at most `fuel` keys, each with the field behind it, until an empty key. -/
def entriesFrom {α : Type} (key : Reader Bytes) (field : α → Bytes → Reader α) :
    Nat → α → Reader α
  | 0, a => return a
  | fuel + 1, a => do
      let k ← key
      if k = [] then return a
      let next ← field a k
      entriesFrom key field fuel next

/-- Reads keys, each with the field behind it, until an empty key.  The bound on their number
does not show where every key takes at least one byte. -/
def entries {α : Type} (key : Reader Bytes) (field : α → Bytes → Reader α) (a : α) : Reader α :=
  fun bs => entriesFrom key field (bs.length + 1) a bs

/-- Reads a byte string to its end.  Data behind its end is refused, and a failure of the reader
stays as it is. -/
def whole {α : Type} (reader : Reader α) (bs : Bytes) : Except Failure α :=
  match reader bs with
  | .ok a [] => .ok a
  | .ok _ _ => refuse
  | .error failure _ => .error failure

/-- The bytes behind their length, as they are written. -/
def prefixed (bs : Bytes) : Bytes := CompactSize.encode bs.length ++ bs

end Wire

end SignerHost
