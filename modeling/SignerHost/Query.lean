import SignerHost.Reader

/-!
# Queries of the device

While a command is interrupted, the device asks the host for data.  A query is one byte of code
and the fields that the code calls for, with nothing after them.

* `parse` reads a query; every failure is a protocol failure.
* `codeName?` names the codes that are known, for the log.
-/

namespace SignerHost

/-- What the device asks the host for while a command is interrupted. -/
inductive Query
  /-- Hand over a fragment of the result. -/
  | yield (fragment : Bytes)
  /-- Ask for the byte string with this digest. -/
  | preimage (digest : Bytes)
  /-- Ask for a leaf of a committed list, and for its proof. -/
  | leafProof (root : Bytes) (size index : Nat)
  /-- Ask where a committed list holds a leaf. -/
  | leafIndex (root leaf : Bytes)
  /-- Ask for what an earlier answer left over. -/
  | moreElements
  deriving DecidableEq

namespace Query

/-- The codes with their names.  They are the commands that the device may send in an
interruption. -/
def codes : List (UInt8 × String) :=
  [(0x10, "YIELD"), (0x40, "GET_PREIMAGE"), (0x41, "GET_MERKLE_LEAF_PROOF"),
    (0x42, "GET_MERKLE_LEAF_INDEX"), (0xA0, "GET_MORE_ELEMENTS")]

def codeName? (code : UInt8) : Option String := codes.lookup code

/-- A zero byte and the digest.  Any other first byte is refused in words of its own. -/
def readPreimage : Reader Query := do
  let kind ← Field.bytes 1
  if kind ≠ [0] then throw (.protocol .digestKind)
  let digest ← Field.bytes 32
  Field.finish
  return .preimage digest

/-- The root, the number of leaves, and the position of the leaf. -/
def readLeafProof : Reader Query := do
  let root ← Field.bytes 32
  let size ← Field.compactSize
  let index ← Field.compactSize
  Field.finish
  return .leafProof root size index

/-- The root and the leaf hash. -/
def readLeafIndex : Reader Query := do
  let root ← Field.bytes 32
  let leaf ← Field.bytes 32
  Field.finish
  return .leafIndex root leaf

/-- Turns a field of the wrong form into a protocol failure of the query.  Every other failure
stays as it is. -/
def blame (code : UInt8) : Failure → Failure
  | .malformed cause => .protocol (.malformed code cause)
  | failure => failure

/-- Reads the fields behind a code.  What the reader leaves over is not looked at; the readers
check the end themselves. -/
def readBody (code : UInt8) (reader : Reader Query) (body : Bytes) : Except Failure Query :=
  match reader body with
  | .ok query _ => .ok query
  | .error failure _ => .error (blame code failure)

/-- Reads a query.  The fragment that is handed over may be any bytes; every other query has its
fields and nothing behind them. -/
def parse : Bytes → Except Failure Query
  | [] => .error (.protocol .emptyRequest)
  | code :: body =>
      if code = 0x10 then .ok (.yield body)
      else if code = 0x40 then readBody code readPreimage body
      else if code = 0x41 then readBody code readLeafProof body
      else if code = 0x42 then readBody code readLeafIndex body
      else if code = 0xA0 then
        if body = [] then .ok .moreElements else .error (.protocol .requestLength)
      else .error (.protocol (.unknownCode code))

end Query

end SignerHost
