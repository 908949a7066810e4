import SignerHost.Curve.PublicKey
import SignerHost.Text.Base58

/-!
# Extended keys

An extended key is a key with a chain code, from which keys of further steps are derived.  It is
written in 78 bytes, and as text in base 58 with a checksum.

* The version bytes have to be such that the second to fourth characters of the text are `pub`
  for a public key and `prv` for a private one.
* A key of depth zero has no parent and no number.
* `child?` derives the key of one step; a hardened step needs a private key.
-/

namespace SignerHost

/-- What an extended key holds: a public key, or the private key that it belongs to. -/
inductive KeyMaterial
  | publicKey (key : PublicKey)
  | privateKey (key : PrivateKey)
  deriving DecidableEq

namespace KeyMaterial

def isPrivate : KeyMaterial → Bool
  | publicKey _ => false
  | privateKey _ => true

/-- The 33 bytes of a key: a compressed public key, or a zero and the scalar. -/
def toBytes : KeyMaterial → Bytes
  | publicKey key => key.toBytes
  | privateKey key => 0x00 :: Bytes.ofNatBE 32 key.scalar

def ofBytes? : Bytes → Option KeyMaterial
  | 0x00 :: rest => (PrivateKey.ofBytes? rest true).map privateKey
  | bs => if bs.length = 33 then (PublicKey.ofBytes? bs).map publicKey else none

def publicKey? : KeyMaterial → Option PublicKey
  | publicKey key => some key
  | privateKey key => key.publicKey?

end KeyMaterial

/-- A key with what is needed to derive further keys from it, and with its place in the tree of
keys. -/
structure ExtendedKey where
  version : Bytes
  depth : UInt8
  /-- The first bytes of the digest of the parent key. -/
  parent : Bytes
  number : Nat
  chainCode : Bytes
  key : KeyMaterial
  deriving DecidableEq

namespace ExtendedKey

/-- The bytes of an extended key, which are 78 if its parts have their lengths. -/
def toBytes (k : ExtendedKey) : Bytes :=
  k.version ++ k.depth :: (k.parent ++ Bytes.ofNatBE 4 k.number ++ k.chainCode ++ k.key.toBytes)

def text (k : ExtendedKey) : String := Base58.encodeCheck k.toBytes

/-- Whether the text shows which kind of key it is.  The label stands behind the first character
and follows from the version bytes. -/
def isLabelled (k : ExtendedKey) : Bool :=
  (k.text.toList.drop 1).take 3 = (if k.key.isPrivate then ['p', 'r', 'v'] else ['p', 'u', 'b'])

/-- Whether a key of depth zero has no parent and no number.  A key of any other depth may have
both. -/
def isRooted (k : ExtendedKey) : Bool :=
  k.depth ≠ 0 || (k.number = 0 && k.parent.all (· = 0))

/-- Reads exactly 78 bytes.  The key in them, its label and its depth have to agree. -/
def ofBytes? (bs : Bytes) : Option ExtendedKey :=
  let (version, rest) := bs.splitAt 4
  let (depth, rest) := rest.splitAt 1
  let (parent, rest) := rest.splitAt 4
  let (number, rest) := rest.splitAt 4
  let (chainCode, rest) := rest.splitAt 32
  match KeyMaterial.ofBytes? rest with
  | some key =>
      let k : ExtendedKey :=
        { version, depth := depth.headD 0, parent, number := Bytes.toNatBE number, chainCode, key }
      if bs.length = 78 ∧ k.isRooted ∧ k.isLabelled then some k else none
  | none => none

def ofText? (text : List Char) : Option ExtendedKey := (Base58.decodeCheck? text).bind ofBytes?

/-- The first steps with this number or above are hardened. -/
def hardenedFrom : Nat := 0x80000000

/-- The shift of the key and the chain code of a step.  There is none for a hardened step of a
public key, or if the shift is not below the order of the group. -/
def stepDigest? (k : ExtendedKey) (number : Nat) : Option (Nat × Bytes) := do
  let key ← k.key.publicKey?
  if hardenedFrom ≤ number ∧ ¬ k.key.isPrivate then none
  else
    let base := if hardenedFrom ≤ number then k.key.toBytes else key.toBytes
    let digest := hmacSha512 k.chainCode (base ++ Bytes.ofNatBE 4 number)
    let shift := Bytes.toNatBE (digest.take 32)
    if shift < Curve.groupOrder then some (shift, digest.drop 32) else none

/-- The key moved by a multiple of the generator.  There is no key where the sum is the neutral
element. -/
def shifted? (shift : Nat) : KeyMaterial → Option KeyMaterial
  | .publicKey key => do
      let point ← key.point.addMultiple? shift
      return .publicKey { key with point }
  | .privateKey key =>
      let scalar := (key.scalar + shift) % Curve.groupOrder
      if scalar = 0 then none else some (.privateKey { key with scalar })

/-- The key of one step, by the number of the step with its hardened bit.  A key of depth 255 has
no children. -/
def child? (k : ExtendedKey) (number : Nat) : Option ExtendedKey := do
  let own ← k.key.publicKey?
  let (shift, chainCode) ← k.stepDigest? number
  let key ← shifted? shift k.key
  let child : ExtendedKey :=
    { k with depth := k.depth + 1, parent := (hash160 own.toBytes).take 4, number, chainCode, key }
  if k.depth < 255 ∧ child.isLabelled then some child else none

end ExtendedKey

end SignerHost
