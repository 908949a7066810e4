import SignerHost.ExtendedKey
import SignerHost.Psbt.Scope

/-!
# Partially signed transactions

After a magic number come a global map, one map for each input and one for each output.

* In version 0 the global map holds the unsigned transaction, whose inputs and outputs the maps
  belong to.  In version 2 it states the numbers of inputs and outputs, and there is no
  transaction.
* Fields of version 2 are also read beside a transaction, and replace what it says.
* `parse` reads a byte string to its end.
-/

namespace SignerHost

/-- A partially signed transaction after it was read.  A caller may then change any part of it,
so nothing about its parts is taken for granted. -/
structure Psbt where
  version : Option Nat
  txVersion : Option Int
  lockTime : Option Int
  inputs : List InputScope
  outputs : List OutputScope
  xpubs : List (ExtendedKey × KeyOrigin)
  /-- The other pairs of the global map, in the order of their first appearance. -/
  unknown : List (Bytes × Bytes)

namespace Psbt

def magic : Bytes := [0x70, 0x73, 0x62, 0x74, 0xFF]

/-- The pairs of the global map as they are read.  The transaction and the version are told apart
from the rest because the rest is read in their light. -/
structure GlobalMap where
  transaction : Option Transaction := none
  version : Option Nat := none
  others : List (Bytes × Bytes) := []

/-- Reads the field of a key of the global map.  A second transaction is refused, a second
version replaces the first, and any other key may appear once. -/
def GlobalMap.readField (g : GlobalMap) (key : Bytes) : Reader GlobalMap := do
  let value ← Wire.string
  if key = [0x00] then
    if g.transaction.isSome then MonadExcept.ofExcept Wire.refuse
    let transaction ← MonadExcept.ofExcept (Wire.whole Transaction.read value)
    return { g with transaction := some transaction }
  else if key = [0xFB] then return { g with version := some (Bytes.toNatLE value) }
  else if g.others.any fun e => e.1 = key then MonadExcept.ofExcept Wire.refuse
  else return { g with others := g.others ++ [(key, value)] }

def GlobalMap.read : Reader GlobalMap := Wire.entries Wire.string GlobalMap.readField {}

/-- What the global map says once all its fields are known.  The inputs and the outputs are those
of the transaction; without any, their numbers are stated. -/
structure Outline where
  txInputs : List TxInput
  txOutputs : List TxOutput
  txVersion : Option Int
  lockTime : Option Int
  /-- The stated numbers of inputs and outputs. -/
  inputCount : Nat := 0
  outputCount : Nat := 0
  xpubs : List (ExtendedKey × KeyOrigin) := []
  unknown : List (Bytes × Bytes) := []

namespace Outline

/-- What the unsigned transaction says. -/
def ofTransaction? : Option Transaction → Outline
  | some t =>
      { txInputs := t.inputs, txOutputs := t.outputs, txVersion := some t.version,
        lockTime := some t.lockTime }
  | none => { txInputs := [], txOutputs := [], txVersion := none, lockTime := none }

/-- A stated number of inputs or outputs; beside a transaction that has some it is refused.  The
value is one compact size and nothing else. -/
def count {α : Type} (fromTransaction : List α) (value : Bytes) : Except Failure Nat :=
  if fromTransaction.isEmpty then Wire.whole Wire.compactSize value else Wire.refuse

def xpub (key : Bytes) : Except Failure ExtendedKey :=
  match ExtendedKey.ofBytes? key with
  | some k => .ok k
  | none => Wire.refuse

/-- Takes in a pair of the global map.  Keys that name no field are kept as they are. -/
def add (o : Outline) (pair : Bytes × Bytes) : Except Failure Outline := do
  let (key, value) := pair
  if key.head? = some 0x01 then
    let k ← xpub (key.drop 1)
    return { o with xpubs := o.xpubs ++ [(k, ← KeyOrigin.ofBytes value)] }
  else if key = [0x02] then return { o with txVersion := some (Bytes.toNatLE value : Int) }
  else if key = [0x03] then return { o with lockTime := some (Bytes.toNatLE value : Int) }
  else if key = [0x04] then return { o with inputCount := ← count o.txInputs value }
  else if key = [0x05] then return { o with outputCount := ← count o.txOutputs value }
  else return { o with unknown := o.unknown ++ [pair] }

/-- Takes in the pairs of the global map in their order.  A transaction in version 2 is refused. -/
def ofGlobalMap (g : GlobalMap) : Except Failure Outline :=
  if g.transaction.isSome ∧ g.version = some 2 then Wire.refuse
  else g.others.foldlM add (ofTransaction? g.transaction)

end Outline

/-- Reads the maps of the inputs: first those of the transaction, then as many more as are
stated. -/
def readInputs (o : Outline) : Reader (List InputScope) := do
  let known ← o.txInputs.mapM fun i => InputScope.read (.ofTxInput i)
  let others ← Wire.many (InputScope.read .blank) o.inputCount
  return known ++ others

def readOutputs (o : Outline) : Reader (List OutputScope) := do
  let known ← o.txOutputs.mapM fun t => OutputScope.read (.ofTxOutput t)
  let others ← Wire.many (OutputScope.read .blank) o.outputCount
  return known ++ others

/-- Reads the magic number, the global map, and the maps of the inputs and outputs that it calls
for. -/
def read : Reader Psbt := do
  if (← Reader.upTo magic.length) ≠ magic then MonadExcept.ofExcept Wire.refuse
  let g ← GlobalMap.read
  let o ← MonadExcept.ofExcept (Outline.ofGlobalMap g)
  let inputs ← readInputs o
  let outputs ← readOutputs o
  return {
    version := g.version
    txVersion := o.txVersion
    lockTime := o.lockTime
    inputs, outputs
    xpubs := o.xpubs
    unknown := o.unknown }

/-- Whether the integers of an extended key and of its origin have the lengths in which they are
written. -/
def xpubFits (x : ExtendedKey × KeyOrigin) : Bool := Bytes.fits 4 x.1.number && x.2.fits

/-- Puts a pair among the other pairs of the global map, in place of one with the same key.  A
caller may so add keys that flattening then refuses. -/
def setUnknown (p : Psbt) (key value : Bytes) : Psbt :=
  if p.unknown.any fun e => e.1 = key then
    { p with unknown := p.unknown.map fun e => if e.1 = key then (key, value) else e }
  else { p with unknown := p.unknown ++ [(key, value)] }

/-- Reads a byte string to its end.  Bytes behind the last map are refused. -/
def parse (bs : Bytes) : Except Failure Psbt := Wire.whole read bs

end Psbt

end SignerHost
