import SignerHost.Hash.Ripemd160
import SignerHost.Network
import SignerHost.Text.Base58
import SignerHost.Text.Bech32

/-!
# Addresses

The scripts that have an address, how a network writes it, and which texts count as addresses of
any network.
-/

namespace SignerHost

/-- A script that has an address.  The scripts that a descriptor of keys can stand for are all of
one of these forms. -/
inductive Destination
  | keyHash (hash : Bytes)
  | scriptHash (hash : Bytes)
  | witness (version : Nat) (program : Bytes)
  deriving DecidableEq

namespace Destination

/-- Pays to the digest of a script. -/
def ofScript (script : Bytes) : Destination := scriptHash (hash160 script)

/-- Pays to the witness program of a script. -/
def ofWitnessScript (script : Bytes) : Destination := witness 0 (sha256 script)

/-- The script itself.  A witness version is pushed as the opcode of its number, and its program
as one byte string. -/
def script : Destination → Bytes
  | keyHash hash => [0x76, 0xA9, 0x14] ++ hash ++ [0x88, 0xAC]
  | scriptHash hash => [0xA9, 0x14] ++ hash ++ [0x87]
  | witness version program =>
      let op : UInt8 := if version = 0 then 0 else UInt8.ofNat (0x50 + version)
      [op, UInt8.ofNat program.length] ++ program

/-- The script behind its digest, for programs that older software has to pay to.  The script
itself is then revealed by whoever spends the output. -/
def nested (d : Destination) : Destination := ofScript d.script

/-- The text of an address.  A digest is written in base 58 behind a byte of the network, and a
witness program in base 32. -/
def address (network : Network) : Destination → String
  | keyHash hash => Base58.encodeCheck (network.keyHash :: hash)
  | scriptHash hash => Base58.encodeCheck (network.scriptHash :: hash)
  | witness version program => Bech32.encode network.segwit version program

end Destination

namespace Address

/-- Whether a text is an address of some network: any payload with a checksum in base 58, or a
standard witness program. -/
def isValid (text : List Char) : Bool :=
  (Base58.decodeCheck? text).isSome
    || match Bech32.decode? text with
      | some (version, program) => Bech32.isStandard version program
      | none => false

end Address

end SignerHost
