import SignerHost.Curve.PublicKey
import SignerHost.Psbt.KeyOrigin
import SignerHost.Transaction

/-!
# Inputs and outputs of a partially signed transaction

Each input and each output has a map of its own.  The first byte of a key says which field it
holds, and the rest of the key is part of the field or has to be empty.

* `InputScope.read` and `OutputScope.read` read one map on top of what is known before.
* `pairs` are the fields as they are written back.  The outpoint, the sequence, the amount and the
  script of an output are not among them.
* A key that stands for no field is kept as it is, in its place among the others of its kind.
* A caller may change a scope after it was read, and put any integers and any keys into it.
  `write` gives the fields if all integers among them have the lengths in which they are written.
-/

namespace SignerHost

namespace Scope

/-- A field that stands under its bare kind, once.  A second one, or one with more behind the
kind, is refused. -/
def once {α : Type} (rest : Bytes) (old : Option α) (new : Except Failure α) :
    Except Failure (Option α) :=
  if rest = [] ∧ old.isNone then some <$> new else Wire.refuse

/-- Adds a field under a key that was not there before.  The key is read first, and the value
only if the key is new. -/
def addNew {κ ν : Type} [DecidableEq κ] (entries : List (κ × ν)) (key : Except Failure κ)
    (value : Except Failure ν) : Except Failure (List (κ × ν)) := do
  let k ← key
  if entries.any fun e => e.1 = k then Wire.refuse
  else return entries ++ [(k, ← value)]

def publicKey (bs : Bytes) : Except Failure PublicKey :=
  match PublicKey.ofBytes? bs with
  | some key => .ok key
  | none => Wire.refuse

/-- A public key by its abscissa, which has to have 32 bytes.  Another length is a failure of its
own, and no refusal of the data. -/
def xOnlyKey (bs : Bytes) : Except Failure PublicKey :=
  if bs.length ≠ 32 then .error .xOnlyLength
  else
    match PublicKey.ofXOnly? bs with
    | some key => .ok key
    | none => Wire.refuse

/-- The origin of a key in the leaves of a script tree.  A key that is there already stays as it
is, and the new value is not read. -/
def addLeafOrigin (entries : List (PublicKey × LeafOrigin)) (rest value : Bytes) :
    Except Failure (List (PublicKey × LeafOrigin)) := do
  let key ← xOnlyKey rest
  if entries.any fun e => e.1 = key then return entries
  else return entries ++ [(key, ← Wire.whole LeafOrigin.read value)]

/-- The pair of a field under its bare kind. -/
def field (kind : UInt8) (value : Option Bytes) : List (Bytes × Bytes) :=
  value.toList.map fun v => ([kind], v)

/-- The pairs of the fields of one kind.  The kind stands in front of each key. -/
def fields {κ ν : Type} (kind : UInt8) (key : κ → Bytes) (value : ν → Bytes)
    (entries : List (κ × ν)) : List (Bytes × Bytes) :=
  entries.map fun e => (kind :: key e.1, value e.2)

/-- The pairs that are written, if all integers among their values fit.  An integer that does not
fit fails wherever it stands among them. -/
def write (fits : Bool) (pairs : List (Bytes × Bytes)) : Except Failure (List (Bytes × Bytes)) :=
  if fits then .ok pairs else .error .overflow

end Scope

/-- What is known about an input.  The first three fields may come from the unsigned transaction
or from fields of their own. -/
structure InputScope where
  /-- The id of the transaction that made the spent output. -/
  txid : Option Bytes := none
  vout : Option Int := none
  sequence : Option Int := none
  /-- The transaction that made the spent output. -/
  previous : Option Transaction := none
  /-- The spent output. -/
  spent : Option TxOutput := none
  partialSignatures : List (PublicKey × Bytes) := []
  signatureHash : Option Int := none
  redeemScript : Option Bytes := none
  witnessScript : Option Bytes := none
  origins : List (PublicKey × KeyOrigin) := []
  finalScript : Option Bytes := none
  finalWitness : Option (List Bytes) := none
  /-- Signatures by key and leaf. -/
  leafSignatures : List ((PublicKey × Bytes) × Bytes) := []
  /-- Scripts by the path that leads to them. -/
  leafScripts : List (Bytes × Bytes) := []
  leafOrigins : List (PublicKey × LeafOrigin) := []
  internalKey : Option PublicKey := none
  scriptRoot : Option Bytes := none
  /-- The pairs whose keys stand for no field, in the order of their first appearance. -/
  unknown : List (Bytes × Bytes) := []

namespace InputScope

/-- The sequence of an input that states none.  It is the largest number of four bytes. -/
def finalSequence : Int := 0xFFFFFFFF

/-- What the unsigned transaction says about an input.  A sequence of zero counts as none. -/
def ofTxInput (i : TxInput) : InputScope where
  txid := some i.txid
  vout := some i.vout
  sequence := some (if i.sequence = 0 then finalSequence else i.sequence)

/-- An input of which nothing is known. -/
def blank : InputScope where
  sequence := some finalSequence

/-- The hash type of the signatures, which has exactly four bytes. -/
def signatureHashOf (value : Bytes) : Except Failure Int :=
  if value.length = 4 then .ok (Bytes.toNatLE value) else Wire.refuse

/-- The key and the leaf behind the kind of a leaf signature.  Together they have to have 64
bytes, of which the key comes first. -/
def leafKey (rest : Bytes) : Except Failure (PublicKey × Bytes) :=
  if rest.length ≠ 64 then Wire.refuse
  else (Scope.xOnlyKey (rest.take 32)).map fun key => (key, rest.drop 32)

/-- Sets the field of a kind. -/
def set (s : InputScope) (kind : UInt8) (rest value : Bytes) : Except Failure InputScope := do
  if kind = 0x01 then
    return { s with spent := ← Scope.once rest s.spent (Wire.whole TxOutput.read value) }
  else if kind = 0x02 then
    return { s with
      partialSignatures := ← Scope.addNew s.partialSignatures (Scope.publicKey rest) (.ok value) }
  else if kind = 0x03 then
    return { s with signatureHash := ← Scope.once rest s.signatureHash (signatureHashOf value) }
  else if kind = 0x04 then
    return { s with redeemScript := ← Scope.once rest s.redeemScript (.ok value) }
  else if kind = 0x05 then
    return { s with witnessScript := ← Scope.once rest s.witnessScript (.ok value) }
  else if kind = 0x06 then
    return { s with
      origins := ← Scope.addNew s.origins (Scope.publicKey rest) (KeyOrigin.ofBytes value) }
  else if kind = 0x07 then
    return { s with finalScript := ← Scope.once rest s.finalScript (.ok value) }
  else if kind = 0x08 then
    return { s with
      finalWitness := ← Scope.once rest s.finalWitness (Wire.whole Witness.read value) }
  else if kind = 0x14 then
    return { s with
      leafSignatures := ← Scope.addNew s.leafSignatures (leafKey rest) (.ok value) }
  else if kind = 0x15 then
    return { s with leafScripts := ← Scope.addNew s.leafScripts (.ok rest) (.ok value) }
  else if kind = 0x16 then
    return { s with leafOrigins := ← Scope.addLeafOrigin s.leafOrigins rest value }
  else if kind = 0x17 then
    return { s with internalKey := some (← Scope.xOnlyKey value) }
  else if kind = 0x18 then
    return { s with scriptRoot := some value }
  else if kind = 0x0E ∧ rest = [] then
    return { s with txid := some value }
  else if kind = 0x0F ∧ rest = [] then
    return { s with vout := some (Bytes.toNatLE value : Int) }
  else if kind = 0x10 ∧ rest = [] then
    return { s with sequence := some (Bytes.toNatLE value : Int) }
  else
    return { s with unknown := ← Scope.addNew s.unknown (.ok (kind :: rest)) (.ok value) }

/-- Reads the field of a key.  The previous transaction ends where it ends, whatever length is
stated in front of it. -/
def readField (s : InputScope) : Bytes → Reader InputScope
  | [] => return s
  | kind :: rest => do
      if kind = 0x00 then
        if rest ≠ [] ∨ s.previous.isSome then MonadExcept.ofExcept Wire.refuse
        discard Wire.compactSize
        return { s with previous := some (← Transaction.read) }
      else
        let value ← Wire.string
        MonadExcept.ofExcept (s.set kind rest value)

/-- Reads the map of an input on top of what is known before. -/
def read (start : InputScope) : Reader InputScope := Wire.entries Wire.string readField start

/-- The fields as they are written back. -/
def pairs (s : InputScope) : List (Bytes × Bytes) :=
  Scope.field 0x00 (s.previous.map Transaction.toBytes)
    ++ Scope.field 0x01 (s.spent.map TxOutput.toBytes)
    ++ Scope.fields 0x02 PublicKey.toBytes id s.partialSignatures
    ++ Scope.field 0x03 (s.signatureHash.map fun n => Bytes.ofNatLE 4 n.toNat)
    ++ Scope.field 0x04 s.redeemScript
    ++ Scope.field 0x05 s.witnessScript
    ++ Scope.fields 0x06 PublicKey.toBytes KeyOrigin.toBytes s.origins
    ++ Scope.field 0x07 s.finalScript
    ++ Scope.field 0x08 (s.finalWitness.map Witness.toBytes)
    ++ Scope.fields 0x14 (fun k => k.1.xOnly ++ k.2) id s.leafSignatures
    ++ Scope.fields 0x15 id id s.leafScripts
    ++ Scope.fields 0x16 PublicKey.xOnly LeafOrigin.toBytes s.leafOrigins
    ++ Scope.field 0x17 (s.internalKey.map PublicKey.xOnly)
    ++ Scope.field 0x18 s.scriptRoot
    ++ s.unknown

/-- Whether all integers in the fields have the lengths in which they are written: those of the
transactions, the hash type of the signatures and the steps of the origins. -/
def fits (s : InputScope) : Bool :=
  s.previous.all Transaction.fits && s.spent.all TxOutput.fits
    && s.signatureHash.all (Bytes.fits 4) && s.origins.all (fun e => e.2.fits)
    && s.leafOrigins.all fun e => e.2.origin.fits

/-- Writes the fields. -/
def write (s : InputScope) : Except Failure (List (Bytes × Bytes)) := Scope.write s.fits s.pairs

end InputScope

/-- What is known about an output.  The amount and the script may come from the unsigned
transaction or from fields of their own. -/
structure OutputScope where
  value : Option Int := none
  script : Option Bytes := none
  redeemScript : Option Bytes := none
  witnessScript : Option Bytes := none
  origins : List (PublicKey × KeyOrigin) := []
  internalKey : Option PublicKey := none
  leafOrigins : List (PublicKey × LeafOrigin) := []
  /-- The pairs whose keys stand for no field, in the order of their first appearance. -/
  unknown : List (Bytes × Bytes) := []

namespace OutputScope

/-- What the unsigned transaction says about an output. -/
def ofTxOutput (o : TxOutput) : OutputScope where
  value := some o.value
  script := some o.script

/-- An output of which nothing is known. -/
def blank : OutputScope := {}

/-- Sets the field of a kind. -/
def set (s : OutputScope) (kind : UInt8) (rest value : Bytes) : Except Failure OutputScope := do
  if kind = 0x00 then
    return { s with redeemScript := ← Scope.once rest s.redeemScript (.ok value) }
  else if kind = 0x01 then
    return { s with witnessScript := ← Scope.once rest s.witnessScript (.ok value) }
  else if kind = 0x02 then
    return { s with
      origins := ← Scope.addNew s.origins (Scope.publicKey rest) (KeyOrigin.ofBytes value) }
  else if kind = 0x03 ∧ rest = [] then
    return { s with value := some (Bytes.toNatLE value : Int) }
  else if kind = 0x04 ∧ rest = [] then
    return { s with script := some value }
  else if kind = 0x05 then
    return { s with internalKey := some (← Scope.xOnlyKey value) }
  else if kind = 0x07 then
    return { s with leafOrigins := ← Scope.addLeafOrigin s.leafOrigins rest value }
  else
    return { s with unknown := ← Scope.addNew s.unknown (.ok (kind :: rest)) (.ok value) }

/-- Reads the field of a key. -/
def readField (s : OutputScope) : Bytes → Reader OutputScope
  | [] => return s
  | kind :: rest => do
      let value ← Wire.string
      MonadExcept.ofExcept (s.set kind rest value)

/-- Reads the map of an output on top of what is known before. -/
def read (start : OutputScope) : Reader OutputScope := Wire.entries Wire.string readField start

/-- The fields as they are written back. -/
def pairs (s : OutputScope) : List (Bytes × Bytes) :=
  Scope.field 0x00 s.redeemScript
    ++ Scope.field 0x01 s.witnessScript
    ++ Scope.fields 0x02 PublicKey.toBytes KeyOrigin.toBytes s.origins
    ++ Scope.field 0x05 (s.internalKey.map PublicKey.xOnly)
    ++ Scope.fields 0x07 PublicKey.xOnly LeafOrigin.toBytes s.leafOrigins
    ++ s.unknown

/-- Whether all integers in the fields, which are the steps of the origins, have the lengths in
which they are written. -/
def fits (s : OutputScope) : Bool :=
  s.origins.all (fun e => e.2.fits) && s.leafOrigins.all fun e => e.2.origin.fits

/-- Writes the fields. -/
def write (s : OutputScope) : Except Failure (List (Bytes × Bytes)) := Scope.write s.fits s.pairs

end OutputScope

end SignerHost
