/-!
# Instruction codes

A command names its instruction either by a number or by a member of one of three families: the
instructions every app answers, those of the Bitcoin app, and those of the framework that carries
interrupted commands on.  Two instructions with one code are the same to the device and differ
only in how they are shown.
-/

namespace SignerHost

/-- The instructions of all families, and any other code.  A member and the number that is its
code are different values, which only show differently. -/
inductive Instruction
  /-- A bare code, in or out of the range of a byte. -/
  | number (code : Int)
  | getVersion
  | getExtendedPubkey
  | registerWallet
  | getWalletAddress
  | signPsbt
  | getMasterFingerprint
  | signMessage
  | continueInterrupted
  deriving DecidableEq

namespace Instruction

/-- The members that have a name of their own. -/
def named : List Instruction :=
  [getVersion, getExtendedPubkey, registerWallet, getWalletAddress, signPsbt,
    getMasterFingerprint, signMessage, continueInterrupted]

/-- The code that is sent.  Members of different families may share one. -/
def code : Instruction → Int
  | number c => c
  | getVersion => 0x01
  | getExtendedPubkey => 0x00
  | registerWallet => 0x02
  | getWalletAddress => 0x03
  | signPsbt => 0x04
  | getMasterFingerprint => 0x05
  | signMessage => 0x10
  | continueInterrupted => 0x01

/-- The name within the family; a bare code has none. -/
def name : Instruction → String
  | number _ => ""
  | getVersion => "GET_VERSION"
  | getExtendedPubkey => "GET_EXTENDED_PUBKEY"
  | registerWallet => "REGISTER_WALLET"
  | getWalletAddress => "GET_WALLET_ADDRESS"
  | signPsbt => "SIGN_PSBT"
  | getMasterFingerprint => "GET_MASTER_FINGERPRINT"
  | signMessage => "SIGN_MESSAGE"
  | continueInterrupted => "CONTINUE_INTERRUPTED"

def family : Instruction → String
  | getVersion => "DefaultInsType"
  | continueInterrupted => "FrameworkInsType"
  | _ => "BitcoinInsType"

/-- How messages show an instruction: the bare code, or family, name and code.  It stands in the
log and in the messages of failures. -/
def display : Instruction → String
  | number c => toString c
  | i => "<" ++ i.family ++ "." ++ i.name ++ ": " ++ toString i.code ++ ">"

/-- The member with a name, whatever its family. -/
def ofName? (text : String) : Option Instruction :=
  named.find? fun i => i.name == text

end Instruction

end SignerHost
