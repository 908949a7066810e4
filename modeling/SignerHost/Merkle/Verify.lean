import SignerHost.Merkle.Tree

/-!
# Checking Merkle proofs

The checker knows the number of leaves and the position, walks the shape of the tree down to the
leaf, and hashes the siblings of the proof on the way back up.

* A proof of the wrong length, or with a sibling that is no digest, is answered with `false`.
* A leaf that is no digest is refused as soon as it has to be hashed.
-/

namespace SignerHost

/-- The directions from the root down to a leaf; `true` leads to the right child. -/
def merklePath (size index : Nat) : List Bool :=
  if 2 ≤ size then
    let split := PowerOfTwo.below size
    if index < split then false :: merklePath split index
    else true :: merklePath (size - split) (index - split)
  else []
termination_by size
decreasing_by
  · exact PowerOfTwo.below_lt ‹2 ≤ size›
  · have := PowerOfTwo.below_pos ‹2 ≤ size›
    omega

/-- The value at the root, given the value at the leaf and, from the leaf upwards, the direction
and the sibling at each level.  A sibling that is no digest ends the climb without a value. -/
def climb : List (Bool × Bytes) → Bytes → Except Failure (Option Bytes)
  | [], value => .ok (some value)
  | (right, sibling) :: rest, value =>
      if sibling.length = 32 then
        match if right then combine sibling value else combine value sibling with
        | .ok parent => climb rest parent
        | .error failure => .error failure
      else .ok none

/-- Whether a proof leads from a leaf hash at a position among `size` leaves to the root. -/
def verifyProof (root : Bytes) (size index : Int) (leaf : Bytes) (proof : List Bytes) :
    Except Failure Bool :=
  if index < 0 ∨ size ≤ index then .ok false
  else
    let path := merklePath size.toNat index.toNat
    if proof.length ≠ path.length then .ok false
    else
      match climb (path.reverse.zip proof) leaf with
      | .ok (some value) => .ok (value = root)
      | .ok none => .ok false
      | .error failure => .error failure

end SignerHost
