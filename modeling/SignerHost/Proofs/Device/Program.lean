import SignerHost.Proofs.Responder.Answers
import SignerHost.Merkle.Verify
import SignerHost.Wire

/-!
# What a device does with the answers

A device reads what a responder knows by asking queries and putting the answers together.  Its
programs are written here as the device runs them: they see the answers only, read each of them to
its last byte, and stop as soon as something is missing, left over or not as announced.

* `gather` asks for pending elements until as many as were announced are there.
* `readLeaf`, `readPreimage` and `readElement` read without judging what they read.
* `element` and `lookup` also check each proof against the root and each preimage against its
  digest, as a device does that trusts nothing but a commitment.
-/

namespace SignerHost

/-- Why a program of a device stops.  A query may be unwritable or refused, and an answer garbled
or wrong. -/
inductive DeviceFault
  /-- A query has no form. -/
  | unwritable
  /-- The responder did not answer. -/
  | refused (failure : Failure)
  /-- An answer does not have the form that was announced. -/
  | garbled
  /-- What was read is not what the commitment stands for. -/
  | mismatch
  deriving DecidableEq

/-- A program that a device runs against a responder.  It sees nothing but the answers, and does
not know how they are made. -/
abbrev Device := EStateM DeviceFault Responder

namespace Device

/-- Asks one query and receives the bytes of the answer.  A query that is refused stops the
program. -/
def ask (q : Query) : Device Bytes := fun r =>
  if q.HasForm then
    match Responder.execute q.toBytes r with
    | .ok answer after => .ok answer after
    | .error failure after => .error (.refused failure) after
  else .error .unwritable r

/-- Reads an answer to its end.  Bytes that are left over stop the program. -/
def parse {α : Type} (reader : Reader α) (answer : Bytes) : Device α :=
  match reader answer with
  | .ok a [] => return a
  | _ => throw .garbled

/-! ## Forms of answers -/

/-- The length of a byte string and the first part of it. -/
def readPreimageAnswer : Reader (Nat × Bytes) := do
  let total ← Field.compactSize
  let count ← Field.uint 1 .big
  let part ← Field.bytes count
  return (total, part)

/-- A leaf, the length of its proof and the first part of the proof. -/
def readLeafAnswer : Reader (Bytes × Nat × List Bytes) := do
  let leaf ← Field.bytes 32
  let total ← Field.uint 1 .big
  let count ← Field.uint 1 .big
  let part ← Wire.many (Field.bytes 32) count
  return (leaf, total, part)

/-- The length of pending elements and some of them. -/
def readElementsAnswer : Reader (Nat × List Bytes) := do
  let count ← Field.uint 1 .big
  let width ← Field.uint 1 .big
  let part ← Wire.many (Field.bytes width) count
  return (width, part)

/-- The position of a leaf, or none. -/
def readIndexAnswer : Reader (Option Nat) := do
  let found ← Field.uint 1 .big
  let index ← Field.compactSize
  return if found = 1 then some index else none

/-! ## Reading -/

/-- Asks for pending elements of one length until a number of them is there.  An answer with none
of them, or with too many, stops the program. -/
def gather (width remaining : Nat) : Device (List Bytes) :=
  if remaining = 0 then return []
  else do
    let (length, part) ← parse readElementsAnswer (← ask .moreElements)
    if h : length = width ∧ part ≠ [] ∧ part.length ≤ remaining then
      have : remaining - part.length < remaining := by
        have := List.length_pos_iff.mpr h.2.1
        omega
      let rest ← gather width (remaining - part.length)
      return part ++ rest
    else throw .garbled
termination_by remaining

/-- What is read of one element of a committed list. -/
structure Reading where
  leaf : Bytes
  proof : List Bytes
  preimage : Bytes

/-- Reads a leaf and its whole proof.  The rest of a long proof is asked for as pending elements. -/
def readLeaf (root : Bytes) (size index : Nat) : Device (Bytes × List Bytes) := do
  let (leaf, total, part) ← parse readLeafAnswer (← ask (.leafProof root size index))
  if total < part.length then throw .garbled
  let rest ← gather 32 (total - part.length)
  return (leaf, part ++ rest)

/-- Reads a whole byte string by its digest.  What does not fit into the first answer is asked
for as pending elements of one byte. -/
def readPreimage (digest : Bytes) : Device Bytes := do
  let (total, part) ← parse readPreimageAnswer (← ask (.preimage digest))
  if total < part.length then throw .garbled
  let rest ← gather 1 (total - part.length)
  return part ++ rest.flatten

/-- Reads a leaf with its proof, and then what the leaf is the digest of.  What is read is not
checked here. -/
def readElement (root : Bytes) (size index : Nat) : Device Reading := do
  let (leaf, proof) ← readLeaf root size index
  let preimage ← readPreimage leaf
  return { leaf, proof, preimage }

/-! ## Reading what a commitment stands for -/

/-- The leaf at a position, checked against the root.  A proof that does not lead to the root
stops the program. -/
def checkedLeaf (root : Bytes) (size index : Nat) : Device Bytes := do
  let (leaf, proof) ← readLeaf root size index
  match verifyProof root size index leaf proof with
  | .ok true => return leaf
  | _ => throw .mismatch

/-- The element at a position of a committed list.  It is checked twice: the leaf against the
root, and the element against the leaf. -/
def element (root : Bytes) (size index : Nat) : Device Bytes := do
  let leaf ← checkedLeaf root size index
  let preimage ← readPreimage leaf
  if sha256 preimage ≠ leaf then throw .mismatch
  match preimage with
  | 0x00 :: e => return e
  | _ => throw .mismatch

/-- A map commitment: the number of pairs, and the roots of the keys and of the values. -/
def readCommitment : Reader (Nat × Bytes × Bytes) := do
  let count ← Field.compactSize
  let keys ← Field.bytes 32
  let values ← Field.bytes 32
  return (count, keys, values)

/-- The value of a key in a committed map, or none.  The key has to stand where its leaf was said
to be. -/
def lookup (commitment key : Bytes) : Device (Option Bytes) := do
  let (count, keys, values) ← parse readCommitment commitment
  let position ← parse readIndexAnswer (← ask (.leafIndex keys (elementHash key)))
  match position with
  | none => return none
  | some index =>
      let leaf ← checkedLeaf keys count index
      if leaf ≠ elementHash key then throw .mismatch
      let value ← element values count index
      return some value

/-- The value of a key in one of a committed list of maps.  Its commitment is an element of the
list, and is checked like any other. -/
def lookupAt (root : Bytes) (size index : Nat) (key : Bytes) : Device (Option Bytes) := do
  let commitment ← element root size index
  lookup commitment key

end Device
end SignerHost
