import SignerHost.ByteMap
import SignerHost.CompactSize
import SignerHost.Hash.Sha2
import SignerHost.Merkle.PowerOfTwo

/-!
# Merkle trees

A tree commits to a list of leaf hashes.  Of two or more leaves the left subtree holds the
largest power of two below their number, so the shape follows from the number alone.

* `elementHash` and `pairHash` hash in separate domains: a leaf starts with a zero byte, an inner
  node with a one.
* `build` gives the tree of a list, and `proof` the siblings on the way from a leaf to the root.
* `mapCommitment` commits to a map by its keys and its values.
-/

namespace SignerHost

/-- The root of the empty list. -/
def emptyRoot : Bytes := List.replicate 32 0

/-- The leaf hash of an element.  The zero byte in front keeps what is hashed apart from what is
hashed for an inner node. -/
def elementHash (element : Bytes) : Bytes := sha256 (0x00 :: element)

/-- The value of an inner node with children of 32 bytes.  The order of the children counts. -/
def pairHash (left right : Bytes) : Bytes := sha256 (0x01 :: (left ++ right))

/-- The value of an inner node; children of other lengths are refused. -/
def combine (left right : Bytes) : Except Failure Bytes :=
  if left.length = 32 ∧ right.length = 32 then .ok (pairHash left right)
  else .error (.malformed .digestLength)

/-- A tree over leaf hashes, with the value of each inner node in it. -/
inductive MerkleTree
  | empty
  | leaf (value : Bytes)
  | node (value : Bytes) (left right : MerkleTree)

namespace MerkleTree

/-- The value at the root, and 32 zero bytes for the tree without leaves. -/
def root : MerkleTree → Bytes
  | empty => emptyRoot
  | leaf value => value
  | node value _ _ => value

/-- The number of leaves, by which the positions of a right subtree are shifted. -/
def size : MerkleTree → Nat
  | empty => 0
  | leaf _ => 1
  | node _ left right => left.size + right.size

/-- The leaf hashes from left to right. -/
def leaves : MerkleTree → List Bytes
  | empty => []
  | leaf value => [value]
  | node _ left right => left.leaves ++ right.leaves

/-- An inner node over two trees.  Its value is taken from their roots, which have to be digests
for it to make sense. -/
def join (left right : MerkleTree) : MerkleTree :=
  node (pairHash left.root right.root) left right

/-- The tree over a list of leaf hashes.  It is split as the number of the hashes says, so lists
of one length have one shape. -/
def build (hashes : List Bytes) : MerkleTree :=
  match hashes with
  | [] => empty
  | [value] => leaf value
  | first :: second :: rest =>
      let split := PowerOfTwo.below (first :: second :: rest).length
      join (build ((first :: second :: rest).take split))
        (build ((first :: second :: rest).drop split))
termination_by hashes.length
decreasing_by
  all_goals
    have hlt := PowerOfTwo.below_lt (n := (first :: second :: rest).length) (by simp)
    have hpos := PowerOfTwo.below_pos (n := (first :: second :: rest).length) (by simp)
    simp only [List.length_take, List.length_drop]
    omega

/-- The siblings on the way from the leaf at a position up to the root.  The lowest sibling comes
first.  A position beyond the last leaf has a proof as well, which proves nothing. -/
def proof : MerkleTree → Nat → List Bytes
  | node _ left right, i =>
      if i < left.size then left.proof i ++ [right.root]
      else right.proof (i - left.size) ++ [left.root]
  | _, _ => []

end MerkleTree

/-- A list of leaf hashes with the tree over it.  Nothing in the type ties the two together; the
functions below only make lists with their own tree. -/
structure MerkleList where
  leaves : List Bytes
  tree : MerkleTree

namespace MerkleList

/-- The committed list of leaf hashes, whatever their lengths. -/
def ofLeaves (leaves : List Bytes) : MerkleList := { leaves, tree := .build leaves }

/-- The committed list of any leaf hashes.  As soon as there are two, each needs 32 bytes.  A
single one may be any byte string, because nothing is hashed then. -/
def ofLeaves? (leaves : List Bytes) : Except Failure MerkleList :=
  if 2 ≤ leaves.length ∧ leaves.any fun l => l.length ≠ 32 then
    .error (.malformed .digestLength)
  else .ok (ofLeaves leaves)

/-- The committed list of elements, each of which is hashed as a leaf. -/
def ofElements (elements : List Bytes) : MerkleList := ofLeaves (elements.map elementHash)

def root (m : MerkleList) : Bytes := m.tree.root

def size (m : MerkleList) : Nat := m.leaves.length

/-- The largest length of a proof; the empty list has none.  It is the number of levels between
the root and the deepest leaf. -/
def depth? (m : MerkleList) : Option Nat :=
  if m.leaves = [] then none else some (PowerOfTwo.ceilLog m.size)

/-- The leaf hash at a position.  A negative position is refused here. -/
def get (m : MerkleList) (i : Int) : Except Failure Bytes :=
  match m.leaves[i.toNat]? with
  | some leaf => if 0 ≤ i then .ok leaf else .error (.bounds .leaf)
  | none => .error (.bounds .leaf)

/-- The proof of the leaf at a position, which may be counted from the end. -/
def prove (m : MerkleList) (i : Int) : Except Failure (List Bytes) :=
  match position? m.size i with
  | some place => .ok (m.tree.proof place)
  | none => .error (.bounds (if isWord i then .list else .word))

/-- The sibling of the leaf at a position.  A leaf that is the root has none. -/
def sibling (m : MerkleList) (place : Nat) : Except Failure Bytes :=
  match m.tree.proof place with
  | [] => .error (.bounds .noSibling)
  | first :: _ => .ok first

/-- The first position that holds a leaf hash.  A leaf hash that is not in the list is refused. -/
def indexOf (m : MerkleList) (leaf : Bytes) : Except Failure Nat :=
  match m.leaves.findIdx? (· = leaf) with
  | some i => .ok i
  | none => .error (.malformed .unknownLeaf)

end MerkleList

/-- The root of the committed list of elements. -/
def merkleRoot (elements : List Bytes) : Bytes := (MerkleList.ofElements elements).root

/-- The proof of the element at a position, which may be counted from the end. -/
def merkleProof (elements : List Bytes) (i : Int) : Except Failure (List Bytes) :=
  (MerkleList.ofElements elements).prove i

/-! ## Maps -/

/-- A map is committed to by the number of its pairs, the Merkle root of its keys in increasing
order and the Merkle root of its values in the order of the keys. -/
def mapCommitment (m : ByteMap) : Except Failure Bytes := do
  let count ← CompactSize.write m.size
  return count ++ merkleRoot m.keys ++ merkleRoot m.values

end SignerHost
