import SignerHost.Wire

/-!
# Origins of keys

Where a key comes from is written as the fingerprint of the master key and the numbers of the
steps that lead to it.  A fingerprint may be cut at the end of the data; a step may not.  A caller
may put any integers for the steps, and `fits` says whether they can be written.
-/

namespace SignerHost

/-- Where a key comes from.  The steps are integers because a caller may put any into a
transaction that was read. -/
structure KeyOrigin where
  fingerprint : Bytes
  steps : List Int
  deriving DecidableEq

namespace KeyOrigin

/-- Steps of four bytes, least significant first.  A rest of one to three bytes is refused. -/
def steps? : Bytes → Option (List Int)
  | [] => some []
  | a :: b :: c :: d :: rest => (steps? rest).map ((Bytes.toNatLE [a, b, c, d] : Int) :: ·)
  | _ => none

def ofBytes (bs : Bytes) : Except Failure KeyOrigin :=
  match steps? (bs.drop 4) with
  | some steps => .ok { fingerprint := bs.take 4, steps }
  | none => Wire.refuse

def toBytes (o : KeyOrigin) : Bytes :=
  o.fingerprint ++ o.steps.flatMap fun step => Bytes.ofNatLE 4 step.toNat

/-- Whether each step has a form of four bytes. -/
def fits (o : KeyOrigin) : Bool := o.steps.all (Bytes.fits 4)

end KeyOrigin

/-- The origin of a key that stands in the leaves of a script tree.  The leaves are known by
their digests alone. -/
structure LeafOrigin where
  leaves : List Bytes
  origin : KeyOrigin
  deriving DecidableEq

namespace LeafOrigin

/-- The digest of a leaf.  One that is cut is refused, unlike most fields. -/
def readLeaf : Reader Bytes := do
  let leaf ← Reader.upTo 32
  if leaf.length = 32 then return leaf
  MonadExcept.ofExcept Wire.refuse

/-- Reads the leaves behind their count, and then the origin up to the end. -/
def read : Reader LeafOrigin := do
  let leaves ← Wire.many readLeaf (← Wire.compactSize)
  let origin ← MonadExcept.ofExcept (KeyOrigin.ofBytes (← Reader.remaining))
  return { leaves, origin }

def toBytes (o : LeafOrigin) : Bytes :=
  CompactSize.encode o.leaves.length ++ o.leaves.flatten ++ o.origin.toBytes

end LeafOrigin

end SignerHost
