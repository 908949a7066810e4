import SignerHost.KeyPath
import SignerHost.Wallet.Policy

/-!
# Commands

A command is a header of four fields and the data.  The builders below write the data of each
operation; `Command.serialize` writes the whole command, whose data is at most 255 bytes.

* A missing registration code counts as 32 zero bytes.
* A builder fails only if an argument has no form of its own.
-/

namespace SignerHost

/-- A command before it is written.  Header fields are integers, which need not fit into their
bytes. -/
structure Command where
  cla : Int
  instruction : Instruction
  p1 : Int := 0
  p2 : Int := 1
  data : Bytes := []
  deriving DecidableEq

/-- What a signing command commits to.  The counts are integers because nothing before the
builder says that they have a form. -/
structure PsbtCommitments where
  globalMap : Bytes
  inputCount : Int
  inputsRoot : Bytes
  outputCount : Int
  outputsRoot : Bytes
  deriving DecidableEq

namespace Command

/-- The class of the instructions that every app answers. -/
def claDefault : Int := 0xB0

/-- The class of the instructions of the Bitcoin app. -/
def claBitcoin : Int := 0xE1

/-- The class of the instructions of the framework.  Its only instruction carries an interrupted
command on. -/
def claFramework : Int := 0xF8

/-- The largest length of the data.  The length stands in one byte of the header. -/
def maxData : Nat := 255

/-- The header, the length of the data, and the data.  Data of more than 255 bytes is refused as
the caller's mistake, a header field that is no byte as an error of its own. -/
def serialize (c : Command) : Except Failure Bytes :=
  if maxData < c.data.length then .error (.input (.commandLength c.data.length))
  else
    let header := [c.cla, c.instruction.code, c.p1, c.p2]
    if header.all (Bytes.fits 1) then
      .ok (header.map (fun n => UInt8.ofNat n.toNat) ++ UInt8.ofNat c.data.length :: c.data)
    else .error .headerByte

def flag (b : Bool) : UInt8 := if b then 1 else 0

/-- A registration code, or zeros if there is none.  The field has a place of 32 bytes in the
data, so a missing code cannot be left out. -/
def hmacField (hmac : Option Bytes) : Bytes := hmac.getD (List.replicate 32 0)

/-- The four bytes of an address index.  The most significant byte comes first, and any index
that fits is accepted here. -/
def indexField (index : Int) : Except Failure Bytes :=
  if Bytes.fits 4 index then .ok (Bytes.ofNatBE 4 index.toNat) else .error .overflow

/-- A command of the Bitcoin app, whose header is the same for all of them but for the
instruction. -/
def bitcoin (instruction : Instruction) (data : Bytes) : Command :=
  { cla := claBitcoin, instruction, data }

/-- The command that every app answers.  It has another class, and zero in its last header field. -/
def getVersion : Command :=
  { cla := claDefault, instruction := .getVersion, p2 := 0 }

def getMasterFingerprint : Command := bitcoin .getMasterFingerprint []

/-- The flag for showing the key, and the path. -/
def getExtendedPubkey (path : String) (display : Bool) : Except Failure Command := do
  let steps ← KeyPath.parse path
  return bitcoin .getExtendedPubkey (flag display :: KeyPath.encode steps)

/-- The serialization of the wallet behind its length. -/
def registerWallet (wallet : Wallet) : Except Failure Command := do
  let serialized ← wallet.serialize
  let length ← CompactSize.write serialized.length
  return bitcoin .registerWallet (length ++ serialized)

/-- The flag for showing the address, the id and the code of the wallet, the branch and the
index. -/
def getWalletAddress (wallet : Wallet) (hmac : Option Bytes) (index : Int)
    (change display : Bool) : Except Failure Command := do
  let id ← wallet.id
  let position ← indexField index
  return bitcoin .getWalletAddress
    (flag display :: (id ++ hmacField hmac ++ flag change :: position))

/-- The commitments to the transaction, then the id and the code of the wallet. -/
def signPsbt (commitments : PsbtCommitments) (wallet : Wallet) (hmac : Option Bytes) :
    Except Failure Command := do
  let inputs ← CompactSize.write commitments.inputCount
  let outputs ← CompactSize.write commitments.outputCount
  let id ← wallet.id
  return bitcoin .signPsbt
    (commitments.globalMap ++ inputs ++ commitments.inputsRoot ++ outputs
      ++ commitments.outputsRoot ++ id ++ hmacField hmac)

/-- The path, the length of the message, and the root of its chunks. -/
def signMessage (length : Int) (root : Bytes) (path : String) : Except Failure Command := do
  let steps ← KeyPath.parse path
  let size ← CompactSize.write length
  return bitcoin .signMessage (KeyPath.encode steps ++ size ++ root)

/-- Carries an answer back to the device.  The data is the whole answer; the device knows what it
asked for. -/
def continueInterrupted (data : Bytes) : Command :=
  { cla := claFramework, instruction := .continueInterrupted, data }

/-- A command in a log: header and data in hexadecimal.  Each field has two digits if it is a
byte, and as many as it needs otherwise. -/
def headerText (c : Command) : String :=
  Bytes.hexOfInt 2 c.cla ++ Bytes.hexOfInt 2 c.instruction.code ++ Bytes.hexOfInt 2 c.p1
    ++ Bytes.hexOfInt 2 c.p2

end Command

end SignerHost
