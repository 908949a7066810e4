import SignerHost.ByteMap
import SignerHost.CompactSize
import SignerHost.Wire

/-!
# Maps as they are written

A map is written pair by pair, key and value each behind its length, and ends with an empty key.

* A length or a key that is cut also ends the map; a value that is cut is refused, and so is a key
  that appears twice.
* After a failure the reader stands where the failure was found.
-/

namespace SignerHost

namespace MapCodec

/-- The bytes behind their length.  A length or a string that is cut is refused. -/
def string : Reader Bytes := do
  let length ← CompactSize.read
  let bs ← Reader.grab length
  if bs.length ≠ length then throw (.malformed (.cutString length))
  return bs

/-- A key, or an empty one if the data ends inside it.  What was read of it is used up all the
same. -/
def key : Reader Bytes := fun s =>
  match string s with
  | .error (.malformed _) rest => .ok [] rest
  | result => result

/-- Reads the value of a key that was not there before.  The value is read before the key is
looked at, so a value that is cut comes first. -/
def readField (m : ByteMap) (k : Bytes) : Reader ByteMap := do
  let value ← string
  if m.contains k then throw (.psbt (.mapKey k))
  return m.insert k value

/-- Reads one map with its end.  What follows the end is left for the next reader. -/
def read : Reader ByteMap := Wire.entries key readField .empty

/-- One pair as it is written. -/
def encodePair (pair : Bytes × Bytes) : Bytes := Wire.prefixed pair.1 ++ Wire.prefixed pair.2

/-- The pairs in their order, and the end.  An empty key would end the map early; the writer does
not look for one. -/
def encode (pairs : List (Bytes × Bytes)) : Bytes := pairs.flatMap encodePair ++ [0x00]

end MapCodec

end SignerHost
