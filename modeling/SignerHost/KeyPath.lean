import SignerHost.Text.Decimal

/-!
# Derivation paths

A path is written as steps between slashes, with an optional `m` in front.  A step is a decimal
index below `2 ^ 31`, followed by an apostrophe or an `h` if it is hardened.

* `parse` gives at most ten steps; a longer path is refused before any step is read.
* `Step.number` is the index with the hardened bit, and `Step.encode` its four bytes.
-/

namespace SignerHost

/-- A step of a path: its index and whether it is hardened.  The type allows larger indices than
the reader does. -/
structure PathStep where
  index : Nat
  hardened : Bool
  deriving DecidableEq

namespace PathStep

/-- The bit that marks a hardened step.  Indices are below it, so the sum with it and the union
of bits are the same. -/
def hardenedBit : Nat := 0x80000000

/-- The index with the hardened bit. -/
def number (s : PathStep) : Nat := s.index + if s.hardened then hardenedBit else 0

/-- The four bytes of a step, most significant first. -/
def encode (s : PathStep) : Bytes := Bytes.ofNatBE 4 s.number

/-- Whether a character marks the step before it as hardened.  A capital letter marks none. -/
def isMarker (c : Char) : Bool := c = '\x27' || c = 'h'

/-- Reads one step of the path that is given for the message. -/
def parse (path : String) (cs : List Char) : Except Failure PathStep := do
  let hardened := cs.getLast?.any isMarker
  let digits := if hardened then cs.dropLast else cs
  if digits = [] ∨ ¬ digits.all Decimal.isDigit then throw (.input (.pathFormat path))
  let index ← Decimal.natural digits
  if hardenedBit ≤ index then throw (.input (.pathFormat path))
  return { index, hardened }

end PathStep

namespace KeyPath

/-- The largest number of steps. -/
def maxSteps : Nat := 10

/-- The texts between the slashes, without a leading `m`.  An empty path has one empty text, and
so has the path `m` followed by a slash. -/
def components (path : String) : List (List Char) :=
  match Text.splitAt '/' path.toList with
  | ['m'] :: rest => rest
  | parts => parts

/-- Reads a path.  The empty text and `m` alone stand for the path of no steps. -/
def parse (path : String) : Except Failure (List PathStep) :=
  let parts := components path
  if parts = [] ∨ parts = [[]] then .ok []
  else if maxSteps < parts.length then .error (.input (.pathLength path))
  else parts.mapM (PathStep.parse path)

/-- The steps behind one byte that counts them. -/
def encode (steps : List PathStep) : Bytes :=
  UInt8.ofNat steps.length :: steps.flatMap PathStep.encode

end KeyPath

end SignerHost
