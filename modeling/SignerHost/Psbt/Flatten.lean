import SignerHost.Command
import SignerHost.Psbt.Basic
import SignerHost.Responder

/-!
# Flattening

The device sees a partially signed transaction as one global map, one map for each input and one
for each output, in the form of version 2 and without the unsigned transaction.

* The fields of an input or an output are those that are read back once the scope is written.
* What the unsigned transaction says about an input or an output takes the place of the fields
  0e, 0f and 10 of an input and 03 and 04 of an output.
* A transaction may have been changed after it was read.  An integer that does not fit into its
  bytes, wherever it stands, makes flattening fail.
* Flattening finds every fault before anything is registered.
* `register` makes all maps known to a responder and gives their commitments.
-/

namespace SignerHost

/-- A number in a fixed number of bytes, least significant first.  One that does not fit fails,
instead of losing its high bytes. -/
def fixedLE (width : Nat) (n : Int) : Except Failure Bytes :=
  if Bytes.fits width n then .ok (Bytes.ofNatLE width n.toNat) else .error .overflow

/-- Adds a pair to a map; a key that is there already is refused. -/
def ByteMap.insertNew (m : ByteMap) (pair : Bytes × Bytes) : Except Failure ByteMap :=
  if m.contains pair.1 then .error (.psbt (.mapKey pair.1)) else .ok (m.insert pair.1 pair.2)

/-- The map that is read back where pairs were written one after the other.  The first empty key
ends it, so the pairs from there on are lost, and before it a key that appears twice is refused.
`MapCodec.result_read_encode` has the bytes in between. -/
def ByteMap.ofWritten (pairs : List (Bytes × Bytes)) : Except Failure ByteMap :=
  (pairs.takeWhile fun pair => pair.1 ≠ []).foldlM insertNew .empty

/-- What the unsigned transaction declares for an input.  A caller may declare an input without
an id, which flattening refuses. -/
structure UnsignedInput where
  txid : Option Bytes
  vout : Int
  sequence : Int
  deriving DecidableEq

/-- What the unsigned transaction declares for an output.  One without a script is refused in the
same way. -/
structure UnsignedOutput where
  value : Int
  script : Option Bytes
  deriving DecidableEq

namespace InputScope

/-- What is declared for the input at a position. -/
def unsigned (s : InputScope) (index : Int) : Except Failure UnsignedInput :=
  match s.txid, s.vout with
  | some txid, some vout =>
      .ok { txid := some txid, vout, sequence := s.sequence.getD finalSequence }
  | _, _ => .error (.psbt (.inputOutpoint index))

/-- Whether the declared input spends the outpoint of the scope and an output of the previous
transaction, which has to have an id. -/
def check (s : InputScope) (txid : Bytes) (vout : Int) : Except Failure Unit := do
  if s.txid.isSome ∧ (s.txid ≠ some txid ∨ s.vout ≠ some vout) then
    throw (.psbt .outpointMismatch)
  if let some t := s.previous then
    if ¬ t.fits then throw .overflow
    if t.txid ≠ txid then throw (.psbt .previousTxid)
    if (t.outputs.length : Int) ≤ vout then throw (.psbt (.previousOutput vout))

/-- The map of an input, given what is declared for it. -/
def flatten (s : InputScope) (declared : Option UnsignedInput) : Except Failure ByteMap := do
  let some { txid := some txid, vout, sequence } := declared | throw (.psbt .noOutpoint)
  s.check txid vout
  let m ← ByteMap.ofWritten (← s.write)
  let position ← fixedLE 4 vout
  let sequence ← fixedLE 4 sequence
  return ((m.insert [0x0E] txid).insert [0x0F] position).insert [0x10] sequence

end InputScope

namespace OutputScope

/-- What is declared for the output at a position. -/
def unsigned (s : OutputScope) (index : Int) : Except Failure UnsignedOutput :=
  match s.value, s.script with
  | some value, some script => .ok { value, script := some script }
  | _, _ => .error (.psbt (.outputFields index))

/-- Whether the declared output has the amount and the script of the scope. -/
def check (s : OutputScope) (value : Int) (script : Bytes) : Except Failure Unit := do
  if s.value.isSome ∧ s.value ≠ some value then throw (.psbt .amountMismatch)
  if s.script.isSome ∧ s.script ≠ some script then throw (.psbt .scriptMismatch)

/-- The map of an output, given what is declared for it. -/
def flatten (s : OutputScope) (declared : Option UnsignedOutput) : Except Failure ByteMap := do
  let some { value, script := some script } := declared | throw (.psbt .noOutput)
  s.check value script
  let m ← ByteMap.ofWritten (← s.write)
  let amount ← fixedLE 8 value
  return (m.insert [0x03] amount).insert [0x04] script

end OutputScope

/-- The maps that a device sees.  They are in the form of version 2, whatever the version of the
transaction is. -/
structure Flattened where
  globalMap : ByteMap
  inputs : List ByteMap
  outputs : List ByteMap

namespace Psbt

def unsignedInput (p : Psbt) (index : Int) : Except Failure UnsignedInput :=
  match elementAt p.inputs index with
  | some s => s.unsigned index
  | none => .error (.psbt (.inputIndex index p.inputs.length))

def unsignedOutput (p : Psbt) (index : Int) : Except Failure UnsignedOutput :=
  match elementAt p.outputs index with
  | some s => s.unsigned index
  | none => .error (.psbt (.outputIndex index p.outputs.length))

/-- The transaction version of a transaction that states none. -/
def defaultTxVersion : Int := 2

/-- Adds the other pairs of the global map.  A key that the map has already is refused. -/
def addUnknown (m : ByteMap) (pair : Bytes × Bytes) : Except Failure ByteMap :=
  if m.contains pair.1 then .error (.psbt (.globalKey pair.1)) else .ok (m.insert pair.1 pair.2)

/-- Writes the extended keys with their origins.  An integer in them that has no form of its own
length makes this fail. -/
def writeXpubs (p : Psbt) : Except Failure (List (Bytes × Bytes)) :=
  Scope.write (p.xpubs.all xpubFits)
    (Scope.fields 0x01 ExtendedKey.toBytes KeyOrigin.toBytes p.xpubs)

/-- The global map in the form of version 2.  The extended keys come first, then the fields of
the version, and the other pairs last. -/
def flattenGlobal (p : Psbt) : Except Failure ByteMap := do
  let keys := ByteMap.ofPairs (← p.writeXpubs)
  let txVersion ← fixedLE 4 (p.txVersion.getD defaultTxVersion)
  let lockTime ← p.lockTime.mapM (fixedLE 4)
  let inputs ← CompactSize.write p.inputs.length
  let outputs ← CompactSize.write p.outputs.length
  let stated := keys.insert [0x02] txVersion
  let stated := match lockTime with
    | some bs => stated.insert [0x03] bs
    | none => stated
  let stated := (stated.insert [0x04] inputs).insert [0x05] outputs
  p.unknown.foldlM addUnknown (stated.insert [0xFB] (Bytes.ofNatLE 4 2))

def flattenInput (p : Psbt) (scope : InputScope × Nat) : Except Failure ByteMap := do
  scope.1.flatten (some (← p.unsignedInput scope.2))

def flattenOutput (p : Psbt) (scope : OutputScope × Nat) : Except Failure ByteMap := do
  scope.1.flatten (some (← p.unsignedOutput scope.2))

/-- All maps of a transaction.  The global map is flattened first, so its faults come before
those of the inputs and outputs. -/
def flatten (p : Psbt) : Except Failure Flattened := do
  let globalMap ← p.flattenGlobal
  let inputs ← p.inputs.zipIdx.mapM p.flattenInput
  let outputs ← p.outputs.zipIdx.mapM p.flattenOutput
  return { globalMap, inputs, outputs }

end Psbt

namespace Flattened

/-- Makes the maps known and gives their commitments.  The maps of the inputs and of the outputs
are lists in their turn, of the commitments of the maps. -/
def register (f : Flattened) : Dialogue PsbtCommitments := do
  let globalMap ← Responder.addMap f.globalMap
  let inputs ← f.inputs.mapM Responder.addMap
  let outputs ← f.outputs.mapM Responder.addMap
  let inputsRoot ← Responder.addList inputs
  let outputsRoot ← Responder.addList outputs
  return {
    globalMap
    inputCount := inputs.length
    inputsRoot
    outputCount := outputs.length
    outputsRoot }

end Flattened

/-- Flattens a transaction and makes its maps known.  A transaction that cannot be flattened
leaves the responder as it was. -/
def Psbt.register (p : Psbt) : Dialogue PsbtCommitments := do
  let f ← MonadExcept.ofExcept p.flatten
  f.register

end SignerHost
