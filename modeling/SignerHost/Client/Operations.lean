import SignerHost.Client.AppVersion
import SignerHost.Client.Basic
import SignerHost.Psbt.Flatten
import SignerHost.Psbt.Source

/-!
# Operations of the client

Each operation checks its arguments, runs its requests, and checks what came back.

* Arguments are refused before anything is sent.
* A result that does not have the form of its command is refused with the data of the device.
* Registering a wallet checks its first address afterwards, if addresses are to be checked.
-/

namespace SignerHost

/-- What an app says about itself.  The flags are kept as they came, and no check depends on
them. -/
structure AppInfo where
  name : String
  version : String
  flags : Bytes
  deriving DecidableEq

namespace AppInfo

/-- A text in ASCII behind one byte of length.  Bytes above 127 are refused, so the text says
exactly what was sent. -/
def readText : Reader String := do
  let length ← Field.uint 1 .big
  MonadExcept.ofExcept (Text.ofAscii (← Field.bytes length))

/-- Format 1: the name, the version and the flags.  What follows them does not count.  Any other
first byte is refused as another format. -/
def read : Reader AppInfo := do
  if (← Field.uint 1 .big) ≠ 1 then throw (.malformed .versionFormat)
  let name ← readText
  let version ← readText
  let length ← Field.uint 1 .big
  let flags ← Field.bytes length
  return { name, version, flags }

end AppInfo

/-- Reads the signature of an input: the index of the input and the bytes of the signature up to the
end. -/
def readInputSignature (isSignature : Bytes → Bool) (inputCount : Int) :
    Reader (Nat × PartialSignature) := do
  let index ← CompactSize.read
  if inputCount ≤ index then throw (.malformed (.inputIndex index))
  let signature ← MonadExcept.ofExcept (PartialSignature.ofBytes isSignature (← Reader.remaining))
  return (index, signature)

/-- A message in the form in which a caller hands it over.  A text is signed by its UTF-8 bytes. -/
inductive MessageSource
  | bytes (bs : Bytes)
  | text (content : String)

/-- The bytes that are signed. -/
def MessageSource.content : MessageSource → Bytes
  | bytes bs => bs
  | text content => Text.utf8 content

/-- A message is sent in chunks of this length.  Each chunk is one element of the list whose root
the command commits to. -/
def chunkLength : Nat := 64

/-- The chunks of a message; only the last one may be shorter.  An empty message has no chunk at
all. -/
def chunks (message : Bytes) : List Bytes :=
  (List.range ((message.length + (chunkLength - 1)) / chunkLength)).map fun i =>
    (message.drop (chunkLength * i)).take chunkLength

namespace Client

/-- The policy of a wallet, if it and the registration code can be used.  A code has to have 32
bytes, and no code at all will do as well. -/
def usablePolicy (wallet : Wallet) (hmac : Option Bytes) : Except Failure Policy := do
  let policy ← wallet.checked
  if hmac.any fun code => code.length ≠ 32 then throw (.input .hmacLength)
  return policy

/-- Registers what the device may ask for about a wallet.  These are the serialization, the keys
with their list, and the template. -/
def learnWallet (policy : Policy) : Dialogue Unit := do
  discard (Responder.addPreimage (← MonadExcept.ofExcept policy.serialize))
  discard (Responder.addKeyList policy.keys)
  discard (Responder.addPreimage (Text.utf8 policy.template))

/-- Asks the app for its name and version.  A response that cannot be read is an unexpected
result. -/
def getVersion (client : Client) : Host AppInfo := do
  let command := Command.getVersion
  let (response, _) ← client.request command none
  match AppInfo.read response with
  | .ok info _ => return info
  | .error (.malformed cause) _ => throw (unexpected command response (.versionResponse cause))
  | .error failure _ => throw failure

/-- Asks for the fingerprint of the master key, which has to have four bytes. -/
def getMasterFingerprint (client : Client) : Host Bytes := do
  let command := Command.getMasterFingerprint
  let (response, _) ← client.request command none
  if response.length ≠ 4 then
    throw (unexpected command response (.fingerprintLength response.length))
  return response

/-- The extended key that a response writes in base 58.  The text has to be one key and nothing
else, with a checksum that is right. -/
def extendedKey? (response : Bytes) : Option ExtendedKey :=
  match Text.ofAscii response with
  | .ok text => ExtendedKey.ofText? text.toList
  | .error _ => none

/-- Asks for the extended public key at a path.  A private key in the response is refused,
although it could be read. -/
def getExtendedPubkey (client : Client) (path : String) (display : Bool) : Host ExtendedKey := do
  let command ← MonadExcept.ofExcept (Command.getExtendedPubkey path display)
  let (response, _) ← client.request command none
  let some key := extendedKey? response | throw (unexpected command response .extendedKey)
  if key.key.isPrivate then throw (unexpected command response .privateKey)
  return key

/-- The address that a response writes, if the library can read it.  It may be an address of any
chain; which one is expected is up to the verifier. -/
def address? (client : Client) (response : Bytes) : Option String :=
  match Text.ofAscii response with
  | .ok text => if client.primitives.isAddress text then some text else none
  | .error _ => none

/-- The largest address index.  Above it the steps of a path are hardened. -/
def maxAddressIndex : Int := 0x7FFFFFFF

/-- Asks for the address of a wallet at a branch and an index.  If addresses are to be checked,
the verifier sees the address before the caller does. -/
def getWalletAddress (client : Client) (wallet : Wallet) (hmac : Option Bytes) (change index : Int)
    (display : Bool) : Host String := do
  let policy ← MonadExcept.ofExcept (usablePolicy wallet hmac)
  if change ≠ 0 ∧ change ≠ 1 then throw (.input .changeBranch)
  if index < 0 ∨ maxAddressIndex < index then throw (.input (.addressIndex index))
  let ((), responder) ← prepare (learnWallet policy) {}
  let command ← MonadExcept.ofExcept
    (Command.getWalletAddress (.policy policy) hmac index (change = 1) display)
  let (response, _) ← client.request command (some responder)
  let some address := client.address? response | throw (unexpected command response .address)
  if client.verifyAddresses then
    MonadExcept.ofExcept
      (client.verifier.verify (.policy policy) (change = 1) index address)
  return address

/-- Gives the id of the wallet and its registration code.  The id in the response has to be that
of the wallet as it is serialized here. -/
def registerWallet (client : Client) (wallet : Wallet) : Host (Bytes × Bytes) := do
  let policy ← MonadExcept.ofExcept (usablePolicy wallet none)
  let ((), responder) ← prepare (learnWallet policy) {}
  let command ← MonadExcept.ofExcept (Command.registerWallet (.policy policy))
  let (response, _) ← client.request command (some responder)
  if response.length ≠ 64 then throw (unexpected command response (.responseLength response.length))
  let id := response.take 32
  let hmac := response.drop 32
  if id ≠ (← MonadExcept.ofExcept policy.id) then throw (unexpected command response .walletId)
  if client.verifyAddresses then
    discard (client.getWalletAddress wallet (some hmac) 0 0 false)
  return (id, hmac)

/-- The signatures in the fragments that the device handed over.  A fragment of at most one byte
spoils them all. -/
def readSignatures (isSignature : Bytes → Bool) (command : Command) (inputCount : Int)
    (fragments : List Bytes) : Except Failure (List (Nat × PartialSignature)) :=
  if fragments.any fun f => f.length ≤ 1 then
    .error (unexpected command fragments.flatten .fragment)
  else
    fragments.mapM fun f =>
      match readInputSignature isSignature inputCount f with
      | .ok signature _ => .ok signature
      | .error (.malformed cause) _ => .error (unexpected command f (.partialSignature cause))
      | .error failure _ => .error failure

/-- Gives the signatures in the order in which the device handed them over.  Each comes with the
index of its input.  The data of the last reply is not looked at. -/
def signPsbt (client : Client) (source : PsbtSource) (wallet : Wallet) (hmac : Option Bytes) :
    Host (List (Nat × PartialSignature)) := do
  let policy ← MonadExcept.ofExcept (usablePolicy wallet hmac)
  let psbt ← MonadExcept.ofExcept source.normalize
  let ((), responder) ← prepare (learnWallet policy) {}
  let (commitments, responder) ← prepare psbt.register responder
  Host.emit [.logged .debug (.flattened psbt.inputs.length psbt.outputs.length)]
  let command ← MonadExcept.ofExcept (Command.signPsbt commitments (.policy policy) hmac)
  let (_, after) ← client.request command (some responder)
  let fragments := (after.map Responder.yielded).getD []
  MonadExcept.ofExcept
    (readSignatures client.primitives.isSignature command commitments.inputCount fragments)

/-- Whether both halves of a compact signature are scalars of the group.  Zero is no such scalar,
and neither is the order of the group or anything above it. -/
def isCompactSignature (signature : Bytes) : Bool :=
  let r := Bytes.toNatBE (signature.take 32)
  let s := Bytes.toNatBE (signature.drop 32)
  0 < r && r < Curve.groupOrder && 0 < s && s < Curve.groupOrder

/-- Asks for the signature of a message by the key at a path.  The device reads the message in
chunks; the command has only their root and the length. -/
def signMessage (client : Client) (message : Bytes) (path : String) : Host MessageSignature := do
  let (root, responder) ← prepare (Responder.addList (chunks message)) {}
  let command ← MonadExcept.ofExcept (Command.signMessage message.length root path)
  let (response, _) ← client.request command (some responder)
  match response with
  | header :: signature =>
      if signature.length ≠ 64 then
        throw (unexpected command response (.responseLength response.length))
      if ¬ isCompactSignature signature then throw (unexpected command response .messageSignature)
      return { header := header.toNat, signature }
  | [] => throw (unexpected command response (.responseLength 0))

/-- Signs a message in either form.  Which form it was does not show in the signature. -/
def sign (client : Client) (source : MessageSource) (path : String) : Host MessageSignature :=
  client.signMessage source.content path

/-- Whether the app on the device speaks the protocol of the client.  A version that cannot be
read is refused as well, and both refusals carry its text. -/
def checkApp (info : AppInfo) : Except Failure Unit :=
  let refuse (cause : ResultCause) : Failure :=
    .result .unsupportedApp (some .getVersion) (Text.utf8 info.version) cause
  match AppVersion.parse? info.version with
  | none => .error (refuse (.appVersion info.version))
  | some version =>
      if version.isLegacy info.name then .error (refuse (.app info.name info.version)) else .ok ()

/-- Checks the app on the device and gives the client.  Nothing but the version is asked of the
device. -/
def connect (client : Client) : Host Client := do
  let info ← client.getVersion
  MonadExcept.ofExcept (checkApp info)
  return client

end Client

end SignerHost
