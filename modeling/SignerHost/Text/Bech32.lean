import SignerHost.Bytes

/-!
# Segwit addresses in base 32

An address is a human-readable part, a `1`, characters of five bits each, and a checksum of six
characters.  Witness version 0 uses one checksum constant and every other version another one.
-/

namespace SignerHost

namespace Bech32

def alphabet : List Char := "qpzry9x8gf2tvdw0s3jn54khce6mua7l".toList

/-- The checksum constant of a witness version.  An address of one form therefore never has the
checksum of the other. -/
def constant (version : Nat) : Nat := if version = 0 then 1 else 0x2bc830a3

def generators : List Nat := [0x3b6a57b2, 0x26508e6d, 0x1ea119fa, 0x3d4233dd, 0x2a1462b3]

/-- One step of the checksum over a value of five bits.  The five bits that leave at the top
choose which generators are added. -/
def step (check value : Nat) : Nat :=
  let shifted := ((check % 0x2000000) * 32) ^^^ value
  generators.zipIdx.foldl
    (fun c g => if (check >>> (25 + g.2)) % 2 = 1 then c ^^^ g.1 else c) shifted

/-- The human-readable part as values of five bits.  A zero stands between the high bits of all
characters and the low ones. -/
def expand (human : List Char) : List Nat :=
  human.map (fun c => c.toNat / 32) ++ 0 :: human.map (fun c => c.toNat % 32)

def polymod (values : List Nat) : Nat := values.foldl step 1

/-- The six checksum values. -/
def checksum (human : List Char) (version : Nat) (values : List Nat) : List Nat :=
  let check := polymod (expand human ++ values ++ List.replicate 6 0) ^^^ constant version
  (List.range 6).map fun i => (check >>> (5 * (5 - i))) % 32

/-- The bits of a value, most significant first. -/
def bits (width n : Nat) : List Bool :=
  (List.range width).map fun i => (n >>> (width - 1 - i)) % 2 = 1

def ofBits (bs : List Bool) : Nat := bs.foldl (fun n b => 2 * n + if b then 1 else 0) 0

/-- The first `count` groups of `width` bits.  The last one may be shorter if the bits run out. -/
def groups (width : Nat) : Nat → List Bool → List Nat
  | 0, _ => []
  | count + 1, bs => ofBits (bs.take width) :: groups width count (bs.drop width)

/-- Bytes as values of five bits; zero bits fill up the last value. -/
def toFives (bs : Bytes) : List Nat :=
  let all := bs.flatMap fun b => bits 8 b.toNat
  let count := (all.length + 4) / 5
  groups 5 count (all ++ List.replicate (5 * count - all.length) false)

/-- Values of five bits as bytes.  Less than one value may be left over, and only zero bits. -/
def ofFives? (values : List Nat) : Option Bytes :=
  let all := values.flatMap (bits 5)
  let count := all.length / 8
  let rest := all.drop (8 * count)
  if rest.length < 5 ∧ rest.all (· = false) then
    some ((groups 8 count all).map UInt8.ofNat)
  else none

/-- The address of a witness program.  Nothing is checked: any version and any program have a
text. -/
def encode (human : String) (version : Nat) (program : Bytes) : String :=
  let values := version :: toFives program
  let checked := values ++ checksum human.toList version values
  human ++ "1" ++ String.ofList (checked.map fun v => alphabet.getD v 'q')

/-- The part before the last `1`, and the part behind it.  A text without a `1` has no part
before it. -/
def splitLast (cs : List Char) : List Char × List Char :=
  let data := (cs.reverse.takeWhile (· ≠ '1')).reverse
  (cs.take (cs.length - data.length - 1), data)

/-- Whether all letters are of one case.  Characters that are no letters do not count. -/
def isOneCase (cs : List Char) : Bool :=
  cs.map Char.toLower = cs || cs.map Char.toUpper = cs

/-- The witness version and program of an address of at most 90 characters.  The human-readable
part, which ends at the first `1` of the text, has to be the part before the last one in
lowercase. -/
def decode? (cs : List Char) : Option (Nat × Bytes) :=
  let (human, data) := splitLast (cs.map Char.toLower)
  match data.mapM fun c => alphabet.findIdx? (· = c) with
  | some (version :: rest) =>
      if cs.all (fun c => 33 ≤ c.toNat && c.toNat ≤ 126) ∧ isOneCase cs ∧ cs.contains '1'
          ∧ human ≠ [] ∧ 6 ≤ rest.length ∧ cs.length ≤ 90
          ∧ cs.takeWhile (· ≠ '1') = human
          ∧ polymod (expand human ++ version :: rest) = constant version then
        match ofFives? (rest.take (rest.length - 6)) with
        | some program => some (version, program)
        | none => none
      else none
  | _ => none

/-- Whether a version and a program make an address: version 0 with 20 or 32 bytes, or version 1
with 32. -/
def isStandard (version : Nat) (program : Bytes) : Bool :=
  (version = 0 && (program.length = 20 || program.length = 32))
    || (version = 1 && program.length = 32)

end Bech32

end SignerHost
