import SignerHost.Descriptor.Basic
import SignerHost.Text.Basic
import SignerHost.Wallet.Policy

/-!
# Checking addresses

An address that the device shows can be checked on the host.  The usual way is to derive it from
the descriptor of the wallet; a wallet whose descriptor cannot be read or derived fails the check.

How a descriptor is read and derived is up to a library, so the derivation is an argument wherever
it matters.  `Descriptor.derive` is the one in use for descriptors of keys; it has no addresses for
other descriptors, such as those of miniscript policies.
-/

namespace SignerHost

/-- How addresses are derived: from the text of a descriptor, at an index, as a network writes them.
A descriptor that cannot be read or derived has none. -/
abbrev AddressDerivation := String → Int → Network → Option String

/-- The addresses of descriptors of keys.  There is none for a text that is no such descriptor,
and none where a key cannot be derived. -/
def Descriptor.derive : AddressDerivation := fun text index network => do
  let descriptor ← Descriptor.read? text.toList
  let destination ← descriptor.destination? index
  return destination.address network

namespace Wallet

/-- The address of a wallet at a branch and an index.  A wallet that is no policy has no
descriptor. -/
def address? (derive : AddressDerivation) (chain : Chain) (change : Bool) (index : Int) :
    Wallet → Option String
  | policy p => derive (p.descriptor change) index chain.network
  | _ => none

end Wallet

/-- Why a verifier does not accept an address.  It carries what the failure of the operation then
shows: an instruction, if one is to blame, the data in question, and the cause. -/
structure AddressMismatch where
  instruction : Option Instruction
  data : Bytes
  cause : ResultCause

namespace AddressMismatch

/-- The failure in which an operation ends that meets a mismatch.  Its kind is the same for every
verifier. -/
def failure (m : AddressMismatch) : Failure :=
  .result .addressMismatch m.instruction m.data m.cause

end AddressMismatch

/-- What decides whether an address is accepted.  A client uses the first unless it is given
another. -/
inductive AddressVerifier
  /-- Derives the address on a chain. -/
  | descriptor (chain : Chain) (derive : AddressDerivation)
  /-- A verifier from outside: for each address it has a mismatch or none. -/
  | given (verdict : Wallet → Bool → Int → String → Option AddressMismatch)

namespace AddressVerifier

/-- The mismatch of a derived address. -/
def derivation (address : String) (cause : ResultCause) : AddressMismatch where
  instruction := some .getWalletAddress
  data := Text.utf8 address
  cause := cause

/-- Accepts no address.  The text of the mismatch names the branch and the index that were asked
for. -/
def rejecting : AddressVerifier := .given fun _ change index address =>
  some {
    instruction := none
    data := Text.utf8 address
    cause := .text ("rejected " ++ (if change then "True" else "False") ++ " " ++ toString index) }

/-- The mismatch of an address, if there is one.  With a derivation, an address that cannot be
derived is a mismatch as well, and not an address that passes unchecked. -/
def verdict (wallet : Wallet) (change : Bool) (index : Int) (address : String) :
    AddressVerifier → Option AddressMismatch
  | descriptor chain derive =>
      match wallet.address? derive chain change index with
      | some expected =>
          if expected = address then none else some (derivation address .derivedAddress)
      | none => some (derivation address .noDerivedAddress)
  | given verdict => verdict wallet change index address

/-- Accepts an address, or fails with the mismatch that the verifier has for it. -/
def verify (wallet : Wallet) (change : Bool) (index : Int) (address : String)
    (verifier : AddressVerifier) : Except Failure Unit :=
  match verifier.verdict wallet change index address with
  | none => .ok ()
  | some m => .error m.failure

end AddressVerifier

end SignerHost
