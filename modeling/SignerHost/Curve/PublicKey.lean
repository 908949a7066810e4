import SignerHost.Curve.Secp256k1
import SignerHost.Hash.Ripemd160

/-!
# Public and private keys

A public key is a point written in 33 bytes or, uncompressed, in 65.  A taproot output key is the
abscissa of the key shifted by a tweak that commits to it.
-/

namespace SignerHost

/-- A point, and whether it is written in the short form.  The form counts: keys of one point in
two forms are different. -/
structure PublicKey where
  point : Curve.Point
  compressed : Bool
  deriving DecidableEq

namespace PublicKey

/-- Reads 33 bytes that start with 02 or 03, or 65 bytes that start with 04; the point has to be
on the curve. -/
def ofBytes? : Bytes → Option PublicKey
  | [] => none
  | form :: rest =>
      if form = 0x02 ∨ form = 0x03 then
        if rest.length = 32 then
          (Curve.Point.lift? (Bytes.toNatBE rest) (form = 0x03)).map fun p => ⟨p, true⟩
        else none
      else if form = 0x04 then
        let p : Curve.Point := ⟨Bytes.toNatBE (rest.take 32), Bytes.toNatBE (rest.drop 32)⟩
        if rest.length = 64 ∧ p.isOnCurve then some ⟨p, false⟩ else none
      else none

/-- The key with an even ordinate and the abscissa in 32 bytes. -/
def ofXOnly? (bs : Bytes) : Option PublicKey := ofBytes? (0x02 :: bs)

/-- The abscissa in 32 bytes, most significant first. -/
def xOnly (k : PublicKey) : Bytes := Bytes.ofNatBE 32 k.point.x

/-- The bytes of a key.  The short form has the abscissa and the parity of the ordinate, the long
form both coordinates. -/
def toBytes (k : PublicKey) : Bytes :=
  if k.compressed then (if k.point.y % 2 = 0 then 0x02 else 0x03) :: k.xOnly
  else 0x04 :: (k.xOnly ++ Bytes.ofNatBE 32 k.point.y)

/-- The taproot output key, without a script tree.  The tweak is added to the point with an even
ordinate, or to its negation. -/
def taprootOutput? (k : PublicKey) (negated : Bool) : Option Bytes :=
  let tweak := Bytes.toNatBE (taggedSha256 "TapTweak".toUTF8.data.toList k.xOnly)
  if tweak = 0 ∨ Curve.groupOrder ≤ tweak then none
  else do
    let base ← Curve.Point.lift? k.point.x negated
    let output ← base.addMultiple? tweak
    return Bytes.ofNatBE 32 output.x

end PublicKey

/-- Private keys are the scalars from one up to the order of the group. -/
structure PrivateKey where
  scalar : Nat
  compressed : Bool
  deriving DecidableEq

namespace PrivateKey

def ofBytes? (bs : Bytes) (compressed : Bool) : Option PrivateKey :=
  let k := Bytes.toNatBE bs
  if bs.length = 32 ∧ 0 < k ∧ k < Curve.groupOrder then some ⟨k, compressed⟩ else none

def publicKey? (k : PrivateKey) : Option PublicKey :=
  (Curve.Point.multiple? k.scalar).map fun p => ⟨p, k.compressed⟩

end PrivateKey

end SignerHost
