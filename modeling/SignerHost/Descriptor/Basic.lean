import SignerHost.Address
import SignerHost.Descriptor.Key

/-!
# Descriptors

A descriptor says which scripts a wallet pays to: scripts of one key, or scripts that ask for
signatures of some of several keys.

* `Descriptor.read?` reads a descriptor; what follows it has to be a checksum, which is not
  checked.
* `Descriptor.destination?` derives the keys of an address and gives its script.
-/

namespace SignerHost

/-- Signatures of a number of keys.  The order of the keys counts unless they are sorted. -/
structure MultiKeys where
  threshold : Nat
  sorted : Bool
  keys : List KeyExpression

/-- The scripts that can be derived here: of one key, by its digest or by its abscissa, and of
several keys, bare or behind a digest. -/
inductive Descriptor
  | keyHash (key : KeyExpression)
  | witnessKeyHash (key : KeyExpression)
  | nestedWitnessKeyHash (key : KeyExpression)
  | taproot (key : KeyExpression)
  | multi (keys : MultiKeys)
  | witnessMulti (keys : MultiKeys)
  | nestedWitnessMulti (keys : MultiKeys)

namespace MultiKeys

/-! ## Reading -/

/-- The keys behind commas, up to the closing parenthesis; `fuel` bounds their number. -/
def readKeys? : Nat → List Char → Option (List KeyExpression × List Char)
  | fuel + 1, ',' :: cs => do
      let (key, rest) ← KeyExpression.read? false cs
      let (keys, rest) ← readKeys? fuel rest
      return (key :: keys, rest)
  | _, ')' :: rest => some ([], rest)
  | _, _ => none

/-- Whether all sets of steps have the same size. -/
def setsAgree (keys : List KeyExpression) : Bool :=
  match keys.filterMap KeyExpression.setSize? with
  | [] => true
  | size :: sizes => sizes.all (· = size)

/-- Reads the threshold and the keys behind the opening parenthesis.  The threshold is at least
one and at most the number of the keys. -/
def readBody? (sorted : Bool) (cs : List Char) : Option (MultiKeys × List Char) := do
  let (digits, rest) := cs.span Char.isDigit
  let (keys, rest) ← readKeys? rest.length rest
  let threshold := Decimal.ofDigits (digits.filterMap Decimal.value?)
  if 1 ≤ threshold ∧ threshold ≤ keys.length ∧ setsAgree keys then
    return ({ threshold, sorted, keys }, rest)
  else none

/-- The text behind a word, if the text starts with it. -/
def behind? (word : String) (cs : List Char) : Option (List Char) :=
  if word.toList.isPrefixOf cs then some (cs.drop word.length) else none

/-- Reads the word, the threshold and the keys.  A colon may stand in front of the word. -/
def read? (cs : List Char) : Option (MultiKeys × List Char) :=
  let cs := if cs.head? = some ':' then cs.drop 1 else cs
  match behind? "multi(" cs, behind? "sortedmulti(" cs with
  | some rest, _ => readBody? false rest
  | none, some rest => readBody? true rest
  | none, none => none

/-! ## The script -/

/-- A byte string behind its length. -/
def push (bs : Bytes) : Bytes := UInt8.ofNat bs.length :: bs

/-- A positive number with as few bytes as possible and without the sign bit. -/
def numberBytes (n : Nat) : Bytes :=
  let bs := (Bytes.minimalBE n).reverse
  if bs.getLastD 0 < 0x80 then bs else bs ++ [0]

/-- A number as it is pushed. -/
def pushNumber (n : Nat) : Bytes :=
  if n = 0 then [0x00] else if n ≤ 16 then [UInt8.ofNat (0x50 + n)] else push (numberBytes n)

/-- The script for the address at an index.  Keys that are to be sorted are sorted as they are
pushed, after derivation. -/
def script? (m : MultiKeys) (index : Int) : Option Bytes := do
  let keys ← m.keys.mapM fun k => (k.derive? index).bind DerivedKey.publicKey?
  let pushes := keys.map fun k => push k.toBytes
  let pushes := if m.sorted then pushes.mergeSort (fun a b => decide (a ≤ b)) else pushes
  return pushNumber m.threshold ++ pushes.flatten ++ pushNumber keys.length ++ [0xAE]

end MultiKeys

namespace Descriptor

/-! ## Reading -/

/-- Reads a key and makes a descriptor of it. -/
def ofKey? (taproot : Bool) (make : KeyExpression → Descriptor) (cs : List Char) :
    Option (Descriptor × List Char) :=
  (KeyExpression.read? taproot cs).map fun r => (make r.1, r.2)

/-- Reads several keys and makes a descriptor of them. -/
def ofMulti? (make : MultiKeys → Descriptor) (cs : List Char) : Option (Descriptor × List Char) :=
  (MultiKeys.read? cs).map fun r => (make r.1, r.2)

/-- How a descriptor starts, how many parentheses close it, and what is read between.  The first
form that a text starts with decides, so the longer starts come first. -/
def forms : List (String × Nat × (List Char → Option (Descriptor × List Char))) :=
  [("tr(", 1, ofKey? true taproot),
    ("sh(wsh(", 2, ofMulti? nestedWitnessMulti),
    ("wsh(", 1, ofMulti? witnessMulti),
    ("sh(wpkh(", 2, ofKey? false nestedWitnessKeyHash),
    ("wpkh(", 1, ofKey? false witnessKeyHash),
    ("pkh(", 1, ofKey? false keyHash),
    ("sh(", 1, ofMulti? multi)]

/-- Whether a text closes a number of parentheses and goes on with nothing but a checksum.  The
checksum itself is not looked at. -/
def closes (count : Nat) (cs : List Char) : Bool :=
  cs.take count = List.replicate count ')' && (cs.drop count).head?.all (· = '#')

/-- Reads a descriptor.  A text that starts like one of the forms is read as that form or not at
all. -/
def read? (cs : List Char) : Option Descriptor :=
  match forms.find? fun form => form.1.toList.isPrefixOf cs with
  | some (start, count, body) =>
      match body (cs.drop start.length) with
      | some (descriptor, rest) => if closes count rest then some descriptor else none
      | none => none
  | none => none

/-! ## Deriving -/

/-- The digest of the public key for the address at an index.  It is the digest of the key in the
form in which it was given. -/
def keyDigest? (key : KeyExpression) (index : Int) : Option Bytes := do
  let k ← key.derive? index
  return hash160 (← k.publicKey?).toBytes

/-- The script of the address at an index. -/
def destination? (index : Int) : Descriptor → Option Destination
  | keyHash key => (keyDigest? key index).map Destination.keyHash
  | witnessKeyHash key => (keyDigest? key index).map (Destination.witness 0)
  | nestedWitnessKeyHash key =>
      (keyDigest? key index).map fun hash => (Destination.witness 0 hash).nested
  | taproot key => do
      let k ← key.derive? index
      return .witness 1 (← k.taprootOutput?)
  | multi keys => (keys.script? index).map Destination.ofScript
  | witnessMulti keys => (keys.script? index).map Destination.ofWitnessScript
  | nestedWitnessMulti keys =>
      (keys.script? index).map fun script => (Destination.ofWitnessScript script).nested

end Descriptor

end SignerHost
