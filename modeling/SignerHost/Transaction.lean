import SignerHost.Hash.Sha2
import SignerHost.Wire

/-!
# Transactions

A transaction spends outputs of earlier transactions and makes new ones.  Its id is the double
digest of its form without witnesses.

* A transaction whose count of inputs reads as zero is one with witnesses: a one, the inputs and
  outputs, and one witness for each input follow.
* `toBytes` writes witnesses only if one of them has an item.
* Integers that are cut at the end of the data are read as what is left of them.
* A caller may put any integers into a transaction.  `fits` says whether they can be written; the
  bytes of a transaction whose integers do not fit have no meaning.
-/

namespace SignerHost

/-- An input: the output that it spends, and what is needed to spend it. -/
structure TxInput where
  /-- The id of the transaction that made the spent output. -/
  txid : Bytes
  vout : Int
  script : Bytes
  sequence : Int
  witness : List Bytes := []
  deriving DecidableEq

/-- An output: an amount, and the script that it is paid to. -/
structure TxOutput where
  value : Int
  script : Bytes
  deriving DecidableEq

/-- A transaction as it is read.  Its integers may be any, since a caller may change them. -/
structure Transaction where
  version : Int
  inputs : List TxInput
  outputs : List TxOutput
  lockTime : Int
  deriving DecidableEq

namespace TxInput

def read : Reader TxInput := do
  let txid ← Reader.upTo 32
  let vout ← Wire.uint 4
  let script ← Wire.string
  let sequence ← Wire.uint 4
  return { txid, vout, script, sequence }

def toBytes (i : TxInput) : Bytes :=
  i.txid ++ Bytes.ofNatLE 4 i.vout.toNat ++ Wire.prefixed i.script
    ++ Bytes.ofNatLE 4 i.sequence.toNat

/-- Whether the position and the sequence have a form of four bytes each. -/
def fits (i : TxInput) : Bool := Bytes.fits 4 i.vout && Bytes.fits 4 i.sequence

end TxInput

namespace TxOutput

def read : Reader TxOutput := do
  let value ← Wire.uint 8
  let script ← Wire.string
  return { value, script }

def toBytes (o : TxOutput) : Bytes := Bytes.ofNatLE 8 o.value.toNat ++ Wire.prefixed o.script

/-- Whether the amount has a form of eight bytes. -/
def fits (o : TxOutput) : Bool := Bytes.fits 8 o.value

end TxOutput

namespace Witness

/-- The items of a witness; an item may be cut at the end of the data. -/
def read : Reader (List Bytes) := do
  let count ← Wire.compactSize
  Wire.many Wire.cutString count

def toBytes (items : List Bytes) : Bytes :=
  CompactSize.encode items.length ++ items.flatMap Wire.prefixed

end Witness

namespace Transaction

/-- Gives each input the witness at its place.  A list of witnesses that is too short would drop
the inputs beyond it; the reader reads one for each input. -/
def attach (inputs : List TxInput) (witnesses : List (List Bytes)) : List TxInput :=
  inputs.zipWith (fun input witness => { input with witness }) witnesses

def readInputs (count : Nat) : Reader (List TxInput) := Wire.many TxInput.read count

def readOutputs : Reader (List TxOutput) := do
  let count ← Wire.compactSize
  Wire.many TxOutput.read count

/-- The part of a transaction with witnesses that follows the zero count.  The byte behind the
count has to be a one, and any other byte is refused. -/
def readWithWitnesses (version : Int) : Reader Transaction := do
  if (← Reader.upTo 1) ≠ [0x01] then MonadExcept.ofExcept Wire.refuse
  let inputs ← readInputs (← Wire.compactSize)
  let outputs ← readOutputs
  let witnesses ← Wire.many Witness.read inputs.length
  let lockTime ← Wire.uint 4
  return { version, inputs := attach inputs witnesses, outputs, lockTime }

/-- Reads a transaction in either form.  What follows it is left for the next reader. -/
def read : Reader Transaction := do
  let version ← Wire.uint 4
  let count ← Wire.compactSize
  if count = 0 then readWithWitnesses version
  else
    let inputs ← readInputs count
    let outputs ← readOutputs
    let lockTime ← Wire.uint 4
    return { version, inputs, outputs, lockTime }

/-- The inputs and the outputs behind their counts. -/
def body (t : Transaction) : Bytes :=
  CompactSize.encode t.inputs.length ++ t.inputs.flatMap TxInput.toBytes
    ++ CompactSize.encode t.outputs.length ++ t.outputs.flatMap TxOutput.toBytes

def hasWitness (t : Transaction) : Bool := t.inputs.any fun i => !i.witness.isEmpty

/-- The form that the id is the digest of.  It never holds a witness, so transactions that differ
in their witnesses share their id. -/
def strippedBytes (t : Transaction) : Bytes :=
  Bytes.ofNatLE 4 t.version.toNat ++ t.body ++ Bytes.ofNatLE 4 t.lockTime.toNat

def toBytes (t : Transaction) : Bytes :=
  if t.hasWitness then
    Bytes.ofNatLE 4 t.version.toNat ++ [0x00, 0x01] ++ t.body
      ++ t.inputs.flatMap (fun i => Witness.toBytes i.witness) ++ Bytes.ofNatLE 4 t.lockTime.toNat
  else t.strippedBytes

/-- The id, by which later transactions name this one. -/
def txid (t : Transaction) : Bytes := doubleSha256 t.strippedBytes

/-- Whether all integers of a transaction have the lengths in which they are written, in the form
with witnesses and in the one without. -/
def fits (t : Transaction) : Bool :=
  Bytes.fits 4 t.version && t.inputs.all TxInput.fits && t.outputs.all TxOutput.fits
    && Bytes.fits 4 t.lockTime

end Transaction

end SignerHost
