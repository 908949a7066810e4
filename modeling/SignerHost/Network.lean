import SignerHost.Bytes

/-!
# Networks

The chain that a client works on decides how addresses and keys are written.
-/

namespace SignerHost

/-- The chains that a client can be told to work on. -/
inductive Chain
  | main
  | test
  | regtest
  | signet
  deriving DecidableEq

/-- How a chain writes addresses and extended public keys.  The two version bytes are those of
base 58; the four bytes stand in front of an extended key. -/
structure Network where
  name : String
  /-- The human-readable part of segwit addresses. -/
  segwit : String
  keyHash : UInt8
  scriptHash : UInt8
  extendedKey : Bytes

namespace Chain

def ofNumber? : Int → Option Chain
  | 0 => some main
  | 1 => some test
  | 2 => some regtest
  | 3 => some signet
  | _ => none

def name : Chain → String
  | main => "main"
  | test => "test"
  | regtest => "regtest"
  | signet => "signet"

/-- How a chain writes addresses and keys.  All but the main one share their version bytes. -/
def network : Chain → Network
  | main => ⟨"Mainnet", "bc", 0x00, 0x05, [0x04, 0x88, 0xb2, 0x1e]⟩
  | test => ⟨"Testnet", "tb", 0x6f, 0xc4, [0x04, 0x35, 0x87, 0xcf]⟩
  | regtest => ⟨"Regtest", "bcrt", 0x6f, 0xc4, [0x04, 0x35, 0x87, 0xcf]⟩
  | signet => ⟨"Signet", "tb", 0x6f, 0xc4, [0x04, 0x35, 0x87, 0xcf]⟩

end Chain

end SignerHost
