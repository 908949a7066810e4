import SignerHost.Wallet.Policy

/-!
# Multisig wallets

A multisig wallet is a policy whose template lists one placeholder for each key behind the
threshold.  In version 2 the branch and the wildcard follow each placeholder; in version 1 they
are part of the keys.
-/

namespace SignerHost

/-- The types of addresses that a caller can name.  Not all of them have multisig templates. -/
inductive AddressType
  | legacy
  | wit
  | shWit
  | tap
  /-- A number that stands for no type. -/
  | other (number : Int)
  deriving DecidableEq

namespace AddressType

def ofNumber : Int → AddressType
  | 1 => legacy
  | 2 => wit
  | 3 => shWit
  | 4 => tap
  | n => other n

def name : AddressType → String
  | legacy => "legacy"
  | wit => "wit"
  | shWit => "sh_wit"
  | tap => "tap"
  | other n => toString n

/-- What stands before and behind the keys of a multisig template of this type.  Only three types
have such templates. -/
def wrapper? : AddressType → Option (String × String)
  | legacy => some ("sh(", "))")
  | wit => some ("wsh(", "))")
  | shWit => some ("sh(wsh(", ")))")
  | _ => none

end AddressType

/-- A policy of several keys, with the number of signatures that it asks for. -/
structure Multisig where
  policy : Policy
  threshold : Nat

namespace Multisig

/-- The largest number of keys.  It is less than what a policy allows. -/
def maxKeys : Nat := 16

/-- The placeholder of the key at a position.  In version 2 the branch and the wildcard behind it
belong to it. -/
def placeholder (version : PolicyVersion) (i : Nat) : String :=
  "@" ++ toString i ++ if version.number = 2 then "/**" else ""

/-- The template of `count` keys between the two parts of a wrapper.  The threshold stands in
front of the placeholders. -/
def template (wrapper : String × String) (sorted : Bool) (threshold count : Nat)
    (version : PolicyVersion) : String :=
  wrapper.1 ++ (if sorted then "sortedmulti(" else "multi(") ++ toString threshold ++ ","
    ++ String.intercalate "," ((List.range count).map (placeholder version)) ++ wrapper.2

/-- Makes a multisig policy.  The threshold and the number of keys are checked first, then the
type, and then what every policy is checked for. -/
def make (name : String) (type : AddressType) (threshold : Int) (keys : List String)
    (sorted : Bool) (version : PolicyVersion) : Except Failure Multisig := do
  if threshold < 1 ∨ keys.length < threshold ∨ maxKeys < keys.length then
    throw (.input .threshold)
  let some wrapper := type.wrapper? | throw (.input (.addressType type.name))
  let t := threshold.toNat
  let policy ← Policy.make name version (template wrapper sorted t keys.length version) keys
  return { policy, threshold := t }

end Multisig

end SignerHost
