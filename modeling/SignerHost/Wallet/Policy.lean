import SignerHost.CompactSize
import SignerHost.Merkle.Tree
import SignerHost.Text.Basic

/-!
# Wallet policies

A policy is a descriptor template with placeholders `@0`, `@1`, … and the list of keys that they
stand for.  The device knows a policy by its id, the digest of its serialization.

* Version 1 serializes the template itself and version 2 its length and digest; both end with the
  number of keys and the Merkle root of the keys.
* `descriptor` puts the keys in place of their placeholders, the last key first, and then writes
  the branch and the wildcard in place of each `/**`.
-/

namespace SignerHost

/-- The version of a policy as a caller sets it, which may be a bare number. -/
inductive PolicyVersion
  | v1
  | v2
  /-- A bare number put in place of a version; it compares as that number but has no byte. -/
  | bare (number : Int)
  deriving DecidableEq

namespace PolicyVersion

def number : PolicyVersion → Int
  | v1 => 1
  | v2 => 2
  | bare n => n

def ofNumber : Int → PolicyVersion
  | 1 => v1
  | 2 => v2
  | n => bare n

/-- Whether the number is one of a version.  A bare number may be known as well, although it
cannot be serialized. -/
def isKnown (v : PolicyVersion) : Bool := v.number = 1 || v.number = 2

/-- The byte of a version in a serialization.  A bare number has none, even one that equals a
version. -/
def byte : PolicyVersion → Except Failure Bytes
  | v1 => .ok [1]
  | v2 => .ok [2]
  | bare _ => .error .unusableWallet

end PolicyVersion

/-- What every wallet has.  A header alone has no template, so a client cannot use it. -/
structure WalletHeader where
  name : String
  version : PolicyVersion
  deriving DecidableEq

namespace WalletHeader

/-- The largest length of a name.  It counts the bytes of the name in Latin-1. -/
def maxName : Nat := 64

def make (name : String) (version : PolicyVersion) : Except Failure WalletHeader := do
  if ¬ version.isKnown then throw (.input .walletVersion)
  let bs ← Text.latin1 name
  if maxName < bs.length then throw (.input .walletName)
  return { name, version }

/-- The version and the name behind its length. -/
def serialize (h : WalletHeader) : Except Failure Bytes := do
  let version ← h.version.byte
  let name ← Text.shortString h.name
  return version ++ name

end WalletHeader

/-- A wallet policy.  Nothing ties the placeholders of the template to the number of the keys. -/
structure Policy extends WalletHeader where
  template : String
  keys : List String
  deriving DecidableEq

namespace Policy

/-- The largest number of keys.  Their number stands in one byte then. -/
def maxKeys : Nat := 252

/-- Makes a policy.  The version and the name are checked first, and the template is not checked
at all. -/
def make (name : String) (version : PolicyVersion) (template : String) (keys : List String) :
    Except Failure Policy := do
  let header ← WalletHeader.make name version
  if maxKeys < keys.length then throw (.input .walletKeys)
  return { header with template, keys }

/-- The template as it stands in a serialization: itself, or its digest.  Its length stands in
front of it in either case. -/
def templateField (p : Policy) : Bytes :=
  let template := Text.utf8 p.template
  if p.version.number = 1 then template else sha256 template

/-- The bytes that the id is the digest of: the version and the name, the template field, the
number of the keys and their root. -/
def serialize (p : Policy) : Except Failure Bytes := do
  let header ← p.toWalletHeader.serialize
  let length ← CompactSize.write (Text.utf8 p.template).length
  let count ← CompactSize.write p.keys.length
  return header ++ length ++ p.templateField ++ count ++ merkleRoot (p.keys.map Text.utf8)

/-- The id by which a device knows a policy.  A policy that cannot be serialized has none. -/
def id (p : Policy) : Except Failure Bytes := do
  return sha256 (← p.serialize)

/-- Puts a key in place of every occurrence of its placeholder.  The occurrence may be the start
of a longer number, which is then misread. -/
def fillPlaceholder (text : List Char) (key : String × Nat) : List Char :=
  Text.replaceAll '@' (Nat.toDigits 10 key.2) key.1.toList text

/-- The template with every placeholder filled, the last key first.  A key that holds
placeholders of earlier keys has these filled too. -/
def filled (p : Policy) : List Char :=
  p.keys.zipIdx.reverse.foldl fillPlaceholder p.template.toList

/-- Writes the branch and a wildcard in place of each `/**`. -/
def fillBranch (change : Bool) (text : List Char) : List Char :=
  Text.replaceAll '/' ['*', '*'] ['/', if change then '1' else '0', '/', '*'] text

/-- The descriptor of the receive or the change branch.  It is a text; whether it is a descriptor
at all is not checked here. -/
def descriptor (p : Policy) (change : Bool) : String :=
  String.ofList (fillBranch change p.filled)

end Policy

/-- What a caller may hand over as a wallet.  The type of the argument does not keep a caller
from handing over less than a policy. -/
inductive Wallet
  | absent
  | named (header : WalletHeader)
  | policy (p : Policy)

namespace Wallet

def serialize : Wallet → Except Failure Bytes
  | absent => .error .unusableWallet
  | named header => header.serialize
  | policy p => p.serialize

def id (w : Wallet) : Except Failure Bytes := do
  return sha256 (← w.serialize)

/-- The policy of a wallet, if it is one of a known version.  Everything else is refused as no
policy. -/
def checked : Wallet → Except Failure Policy
  | policy p => if p.version.isKnown then .ok p else .error (.input .notAPolicy)
  | _ => .error (.input .notAPolicy)

end Wallet

end SignerHost
