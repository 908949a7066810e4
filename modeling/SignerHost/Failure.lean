import SignerHost.Bytes
import SignerHost.Instruction

/-!
# What can go wrong

Every operation fails with a cause from one type.  The causes fall into two groups.

* The client's own family says what a caller can act on: the channel failed, the device asked for
  something unknown, its result is invalid, the caller's data is invalid, or the device refused.
* The others are failures of single steps: bytes without the form asked for, a position out of
  bounds, a number or a text that has no encoding.

`Failure.message` holds the wording; nothing else in the library does.
-/

namespace SignerHost

/-- Bytes, text or a number without the form that is asked for.  Each cause holds what its
message shows, such as the length that was stated. -/
inductive Malformed
  /-- A compact size is due and no byte is left. -/
  | noCompactSize
  /-- A compact size is cut after its first byte. -/
  | cutCompactSize
  | cutInteger (bits : Int)
  | cutString (length : Nat)
  /-- A field of a device message is longer than what is left. -/
  | exhausted
  /-- A device message goes on after its last field. -/
  | leftover
  /-- A number is too large for a compact size. -/
  | compactSizeBound (n : Int)
  | digestLength
  | unknownLeaf
  | signatureEncoding (length : Nat)
  | inputIndex (index : Nat)
  | versionFormat
  | notAscii
  | byteBound
  /-- A digit that has no decimal value. -/
  | notDecimal (text : String)
  | tooManyDigits (count : Nat)
  deriving DecidableEq

namespace Malformed

def message : Malformed → String
  | noCompactSize => "Can't read prefix: 'b'''!"
  | cutCompactSize => "Can't read varint!"
  | cutInteger bits => "Can't read u" ++ toString bits ++ " in buffer!"
  | cutString length => "Can't read " ++ toString length ++ " bytes in buffer!"
  | exhausted => "Byte stream exhausted"
  | leftover => "Byte stream was expected to be empty"
  | compactSizeBound n => "Can't write to varint: '" ++ toString n ++ "'!"
  | digestLength => "The elements must be 32-bytes sha256 outputs."
  | unknownLeaf => "Leaf not found"
  | signatureEncoding length => "Invalid signature encoding (" ++ toString length ++ " bytes)"
  | inputIndex index => "Input index out of range: " ++ toString index
  | versionFormat => "Unsupported format"
  | notAscii => ""
  | byteBound => "bytes must be in range(0, 256)"
  | notDecimal text =>
      "invalid literal for int() with base 10: "
        ++ String.ofList (('\x27' :: text.toList ++ ['\x27']).take 200)
  | tooManyDigits count =>
      "Exceeds the limit (4300 digits) for integer string conversion: value has "
        ++ toString count ++ " digits; use sys.set_int_max_str_digits() to increase the limit"

end Malformed

/-- A position that a list or a tree does not have.  Lists and trees refuse positions in words of
their own. -/
inductive Bounds
  | leaf
  | list
  /-- A position that no list can have. -/
  | word
  | bytes
  | noSibling
  /-- A node whose parent has other children. -/
  | notAChild
  deriving DecidableEq

namespace Bounds

def message : Bounds → String
  | leaf => "Index out of bounds"
  | list => "list index out of range"
  | word => "cannot fit 'int' into an index-sized integer"
  | bytes => "index out of range"
  | noSibling => "The root does not have a sibling."
  | notAChild => "Invalid state: not a child of his parent."

end Bounds

/-- Why a request of the device cannot be answered.  A cause holds what its message shows, such
as the digest that is not known. -/
inductive ProtocolCause
  | emptyRequest
  | unknownCode (code : UInt8)
  | malformed (code : UInt8) (cause : Malformed)
  /-- The byte before a requested digest is not zero. -/
  | digestKind
  | unknownPreimage (digest : Bytes)
  | unknownRoot (root : Bytes)
  | indexOrSize
  | elementsPending
  | requestLength
  | noElements
  | unevenElements
  | tooManyInterruptions (instruction : Instruction) (limit : Int)
  /-- Raised by the channel itself. -/
  | raised (text : String)
  deriving DecidableEq

namespace ProtocolCause

/-- The code of a query as messages show it, in uppercase hexadecimal. -/
def codeText (code : UInt8) : String :=
  "0x" ++ (Bytes.hexOfInt 2 code.toNat).toUpper

def message : ProtocolCause → String
  | emptyRequest =>
      "Unexpected empty SW_INTERRUPTED_EXECUTION response from hardware wallet."
  | unknownCode code => "Unexpected command code: " ++ codeText code
  | malformed code cause => "Malformed client command " ++ codeText code ++ ": " ++ cause.message
  | digestKind => "Unsupported request: the first byte should be 0"
  | unknownPreimage digest => "Requested unknown preimage for: " ++ Bytes.toHex digest
  | unknownRoot root => "Unknown Merkle root: " ++ Bytes.toHex root ++ "."
  | indexOrSize => "Invalid index or tree size."
  | elementsPending => "This command should not execute when the queue is not empty."
  | requestLength => "Wrong request length."
  | noElements => "No elements to get."
  | unevenElements =>
      "The queue contains elements of different byte length, which is not expected."
  | tooManyInterruptions instruction limit =>
      "Command " ++ instruction.display ++ " interrupted more than " ++ toString limit ++ " times"
  | raised text => text

end ProtocolCause

/-- Why the caller's data is refused.  The client checks the arguments of an operation before it
sends anything; a channel may raise such a failure itself. -/
inductive InputCause
  | pathLength (path : String)
  | pathFormat (path : String)
  | walletVersion
  | walletName
  | walletKeys
  | threshold
  | addressType (text : String)
  | commandLength (length : Nat)
  | notAPolicy
  | hmacLength
  | changeBranch
  | addressIndex (index : Int)
  /-- Raised by the channel itself. -/
  | raised (text : String)
  deriving DecidableEq

namespace InputCause

def message : InputCause → String
  | pathLength path => "BIP32 path too long: '" ++ path ++ "'"
  | pathFormat path => "BIP32 path format error: '" ++ path ++ "'"
  | walletVersion => "Invalid wallet policy version"
  | walletName => "Wallet name too long: at most 64 bytes are allowed"
  | walletKeys => "Too many keys: at most 252 are allowed"
  | threshold => "Invalid threshold or number of keys"
  | addressType text => "Unexpected address type: " ++ text
  | commandLength length => "APDU data too long: " ++ toString length ++ " bytes"
  | notAPolicy =>
      "wallet type must be WalletPolicy, with version either WALLET_POLICY_V1 or WALLET_POLICY_V2"
  | hmacLength => "The wallet hmac must be 32 bytes long"
  | changeBranch => "Invalid change"
  | addressIndex index => "Invalid address index: " ++ toString index
  | raised text => text

end InputCause

/-- Why a partially signed transaction is refused.  Those with an index name the input or the
output by its place. -/
inductive PsbtCause
  | unreadable
  | inputIndex (index : Int) (count : Nat)
  | outputIndex (index : Int) (count : Nat)
  | inputOutpoint (index : Int)
  | outputFields (index : Int)
  | globalKey (key : Bytes)
  | mapKey (key : Bytes)
  | noOutpoint
  | outpointMismatch
  | previousTxid
  | previousOutput (index : Int)
  | noOutput
  | amountMismatch
  | scriptMismatch
  deriving DecidableEq

namespace PsbtCause

def message : PsbtCause → String
  | unreadable => "Invalid PSBT"
  | inputIndex index count =>
      "Input index out of range: " ++ toString index ++ " (the PSBT has " ++ toString count
        ++ " inputs)"
  | outputIndex index count =>
      "Output index out of range: " ++ toString index ++ " (the PSBT has " ++ toString count
        ++ " outputs)"
  | inputOutpoint index => "Missing previous outpoint for input " ++ toString index
  | outputFields index => "Missing amount or script for output " ++ toString index
  | globalKey key => "Duplicated key in PSBT global map: " ++ Bytes.toHex key
  | mapKey key => "Duplicated key in PSBT map: " ++ Bytes.toHex key
  | noOutpoint => "Missing previous outpoint"
  | outpointMismatch => "The input does not match the outpoint of the unsigned transaction"
  | previousTxid => "Previous txid doesn't match the non-witness UTXO"
  | previousOutput index =>
      "Output index " ++ toString index ++ " out of range in the non-witness UTXO"
  | noOutput => "Missing output of the unsigned transaction"
  | amountMismatch => "The output amount does not match the unsigned transaction"
  | scriptMismatch => "The output script does not match the unsigned transaction"

end PsbtCause

/-- Which of the three kinds of invalid result was met.  A caller can tell them apart without the
message. -/
inductive ResultKind
  | unexpected
  | addressMismatch
  | unsupportedApp
  deriving DecidableEq

/-- Why a completed command's result is invalid.  The data that is refused belongs to the failure
and not to its cause. -/
inductive ResultCause
  /-- A wording given from outside; an empty one stands for the default wording. -/
  | text (message : String)
  | versionResponse (cause : Malformed)
  | fingerprintLength (length : Nat)
  | responseLength (length : Nat)
  | extendedKey
  | privateKey
  | walletId
  | address
  | fragment
  | partialSignature (cause : Malformed)
  | messageSignature
  | derivedAddress
  | noDerivedAddress
  | appVersion (version : String)
  | app (name version : String)
  deriving DecidableEq

namespace ResultCause

def message (instruction : Option Instruction) (data : Bytes) : ResultCause → String
  | text "" =>
      "Unexpected result for " ++ (instruction.map Instruction.display).getD "None" ++ ": "
        ++ Bytes.toHex data
  | text message => message
  | versionResponse .notAscii => "Invalid version response"
  | versionResponse cause => "Invalid version response: " ++ cause.message
  | fingerprintLength length => "Invalid fingerprint length: " ++ toString length
  | responseLength length => "Invalid response length: " ++ toString length
  | extendedKey => "Invalid extended public key"
  | privateKey => "The device returned a private key"
  | walletId => "The device returned a different wallet id"
  | address => "Invalid address"
  | fragment => "Invalid response"
  | partialSignature cause => "Invalid signature: " ++ cause.message
  | messageSignature => "Invalid signature"
  | derivedAddress => "Invalid address. Please update your Bitcoin app."
  | noDerivedAddress => "Failed to derive the address"
  | appVersion version => "Invalid app version: " ++ version
  | app name version => "Unsupported app: " ++ name ++ " " ++ version

end ResultCause

/-- Why no answer came over the channel.  A fault that belongs to no family of failures becomes
the first of these. -/
inductive TransportCause
  /-- The channel failed with this text while it carried a command. -/
  | exchange (instruction : Instruction) (text : String)
  /-- Raised by the channel itself. -/
  | raised (text : String)
  deriving DecidableEq

namespace TransportCause

def message : TransportCause → String
  | exchange instruction text =>
      "Exchange failed for command " ++ instruction.display ++ ": " ++ text
  | raised text => text

end TransportCause

/-- The kinds of refusal by a device.  Every kind but `unknown` belongs to one final status word
other than success. -/
inductive Refusal
  | unknown
  | deny
  | incorrectData
  | notSupported
  | wrongP1P2
  | wrongDataLength
  | insNotSupported
  | claNotSupported
  | wrongResponseLength
  | badState
  | signatureFail
  | interruptedExecution
  deriving DecidableEq

namespace Refusal

/-- The status words for which a kind of refusal is registered, each with its kind.  No word
stands for two kinds, and success is not among them. -/
def registered : List (Int × Refusal) := [
  (0x6985, deny),
  (0x6A80, incorrectData),
  (0x6A82, notSupported),
  (0x6A86, wrongP1P2),
  (0x6A87, wrongDataLength),
  (0x6D00, insNotSupported),
  (0x6E00, claNotSupported),
  (0xB000, wrongResponseLength),
  (0xB007, badState),
  (0xB008, signatureFail),
  (0xE000, interruptedExecution)]

/-- The kind of refusal that a status word stands for: the one that is registered for it, or
`unknown` if none is. -/
def ofStatus (status : Int) : Refusal := (registered.lookup status).getD unknown

end Refusal

/-- What an operation may fail with.  The last six causes are those of the client's own family, and
the others are failures of single steps. -/
inductive Failure
  | malformed (cause : Malformed)
  | bounds (cause : Bounds)
  /-- A function was applied outside its domain. -/
  | domain
  /-- An integer has no form of the fixed length asked for. -/
  | overflow
  /-- A text has characters outside of Latin-1. -/
  | notLatin1
  /-- A header field of a command is not a byte. -/
  | headerByte
  /-- A wallet was replaced or altered so that it cannot be serialized. -/
  | unusableWallet
  /-- A transaction ends where a compact size is due. -/
  | missingCompactSize
  /-- A field that holds an x-only public key has another length than 32 bytes. -/
  | xOnlyLength
  | transport (cause : TransportCause)
  | protocol (cause : ProtocolCause)
  | result (kind : ResultKind) (instruction : Option Instruction) (data : Bytes)
      (cause : ResultCause)
  | input (cause : InputCause)
  | psbt (cause : PsbtCause)
  /-- The device ended a command with a status word other than success. -/
  | device (kind : Refusal) (status : Int) (instruction : Option Instruction) (message : String)
  deriving DecidableEq

namespace Failure

/-- Whether a failure belongs to the client's own family.  These are the failures that a caller
is meant to handle. -/
def isClientError : Failure → Bool
  | transport _ | protocol _ | result .. | input _ | psbt _ | device .. => true
  | _ => false

/-- The wording of a failure; causes that are told by their kind alone have none. -/
def message : Failure → String
  | malformed cause => cause.message
  | bounds cause => cause.message
  | transport cause => cause.message
  | protocol cause => cause.message
  | result _ instruction data cause => cause.message instruction data
  | input cause => cause.message
  | psbt cause => cause.message
  | device _ _ _ message => message
  | _ => ""

/-- The refusal by which a device ends a command with a status word.  Its kind is the one that the
word stands for. -/
def ofStatus (status : Int) (instruction : Option Instruction) (message : String) : Failure :=
  .device (.ofStatus status) status instruction message

/-- The three parts of a refusal by the device: the status word, the command, and the message.
The word is in hexadecimal with its sign in front, and an unknown command is left out. -/
def refusalParts (status : Int) (instruction : Option Instruction) (message : String) :
    List String :=
  let sign := if status < 0 then "-" else ""
  let command := match instruction with
    | some i => "Error in " ++ i.display ++ " command"
    | none => "Error in command"
  [sign ++ "0x" ++ Bytes.hexOfInt 0 status.natAbs, command, message]

end Failure

/-- A failure of the client's own family.  Only such a failure can come out of the channel as it
is. -/
abbrev ClientError := { f : Failure // f.isClientError = true }

end SignerHost
