import SignerHost.Proofs.Merkle.Tree

/-!
# What a root commits to

The digests that occur in a run stand for byte strings that were hashed, and the root of the empty
list is a fixed value.  As long as no two of them stand for different things, a root determines
the list it was computed from.

* `hashedElements` lists everything that is hashed to commit to a list of elements.
* `NoCollision` is a condition on the strings of one run.  As a condition on all byte strings it
  could not hold, because there are more byte strings than digests.
* `elements_eq_of_merkleRoot_eq` says that lists with the same root are the same.
-/

namespace SignerHost

open PowerOfTwo

/-- What a digest stands for. -/
inductive Hashed
  | bytes (bs : Bytes)
  /-- The empty list.  Its root is not computed but fixed. -/
  | emptyList
  deriving DecidableEq

namespace Hashed

/-- The digest of a string, and 32 zero bytes for the empty list. -/
def digest : Hashed → Bytes
  | bytes bs => sha256 bs
  | emptyList => emptyRoot

end Hashed

/-- No digest of a run stands for two different things.  It speaks of the strings of the run
alone, and not of the hash function. -/
def NoCollision (run : List Hashed) : Prop :=
  ∀ a ∈ run, ∀ b ∈ run, a.digest = b.digest → a = b

instance (run : List Hashed) : Decidable (NoCollision run) :=
  inferInstanceAs (Decidable (∀ a ∈ run, ∀ b ∈ run, a.digest = b.digest → a = b))

/-- What is hashed for the inner nodes of a tree.  The leaf hashes themselves are taken as they
are. -/
def MerkleTree.hashed : MerkleTree → List Hashed
  | empty => [.emptyList]
  | leaf _ => []
  | node _ left right =>
      .bytes (0x01 :: (left.root ++ right.root)) :: (left.hashed ++ right.hashed)

/-- The string that a list element is hashed as. -/
def leafString (element : Bytes) : Bytes := 0x00 :: element

/-- Everything that is hashed to commit to a list of elements.  These are the elements behind
their zero byte, and the inner nodes of the tree. -/
def hashedElements (elements : List Bytes) : List Hashed :=
  elements.map (fun e => .bytes (leafString e)) ++
    (MerkleTree.build (elements.map elementHash)).hashed

/-! ## Roots of lists of elements -/

theorem length_elementHash (element : Bytes) : (elementHash element).length = 32 :=
  length_sha256 _

theorem length_of_mem_map_elementHash {elements : List Bytes} :
    ∀ value ∈ elements.map elementHash, value.length = 32 := by
  intro value hvalue
  obtain ⟨element, -, rfl⟩ := List.mem_map.mp hvalue
  exact length_elementHash element

@[simp] theorem length_merkleRoot (elements : List Bytes) : (merkleRoot elements).length = 32 :=
  MerkleTree.length_root_build length_of_mem_map_elementHash

@[simp] theorem merkleRoot_nil : merkleRoot [] = emptyRoot := by
  simp [merkleRoot, MerkleList.ofElements, MerkleList.ofLeaves, MerkleList.root, MerkleTree.root]

@[simp] theorem merkleRoot_singleton (element : Bytes) :
    merkleRoot [element] = elementHash element := by
  simp [merkleRoot, MerkleList.ofElements, MerkleList.ofLeaves, MerkleList.root, MerkleTree.root]

section Split

variable {left right : List Bytes} (hleft : left ≠ []) (hright : right ≠ [])
  (hsplit : left.length = below (left.length + right.length))

include hleft hright hsplit

theorem build_elements_append :
    MerkleTree.build ((left ++ right).map elementHash) =
      MerkleTree.join (MerkleTree.build (left.map elementHash))
        (MerkleTree.build (right.map elementHash)) := by
  rw [List.map_append]
  apply MerkleTree.build_append
  · simpa using hleft
  · simpa using hright
  · simpa using hsplit

theorem merkleRoot_append :
    merkleRoot (left ++ right) = pairHash (merkleRoot left) (merkleRoot right) := by
  show (MerkleTree.build ((left ++ right).map elementHash)).root = _
  rw [build_elements_append hleft hright hsplit]
  rfl

theorem mem_hashedElements_append {a : Hashed} :
    a ∈ hashedElements (left ++ right) ↔
      a = .bytes (0x01 :: (merkleRoot left ++ merkleRoot right)) ∨
        a ∈ hashedElements left ∨ a ∈ hashedElements right := by
  have hroots : ∀ xs : List Bytes,
      (MerkleTree.build (xs.map elementHash)).root = merkleRoot xs := fun _ => rfl
  unfold hashedElements
  rw [build_elements_append hleft hright hsplit, MerkleTree.join, MerkleTree.hashed, hroots,
    hroots]
  simp only [List.map_append, List.mem_append, List.mem_cons]
  tauto

end Split

/-! ## The root determines the list -/

/-- What the root of a list is the digest of. -/
inductive RootOf : List Bytes → Hashed → Prop
  | empty : RootOf [] .emptyList
  | single (element : Bytes) : RootOf [element] (.bytes (leafString element))
  | append {left right : List Bytes} (hleft : left ≠ []) (hright : right ≠ [])
      (hsplit : left.length = below (left.length + right.length)) :
      RootOf (left ++ right) (.bytes (0x01 :: (merkleRoot left ++ merkleRoot right)))

namespace RootOf

theorem exists_of_list (elements : List Bytes) : ∃ a, RootOf elements a := by
  induction elements using splitInduction with
  | nil => exact ⟨_, empty⟩
  | single element => exact ⟨_, single element⟩
  | append left right hleft hright hsplit _ _ => exact ⟨_, append hleft hright hsplit⟩

theorem digest_eq {elements : List Bytes} {a : Hashed} (h : RootOf elements a) :
    a.digest = merkleRoot elements := by
  cases h with
  | empty => rw [merkleRoot_nil, Hashed.digest]
  | single element => rw [merkleRoot_singleton, Hashed.digest, elementHash, leafString]
  | append hleft hright hsplit => rw [merkleRoot_append hleft hright hsplit, Hashed.digest, pairHash]

theorem mem_hashedElements {elements : List Bytes} {a : Hashed} (h : RootOf elements a) :
    a ∈ hashedElements elements := by
  cases h with
  | empty => simp [hashedElements, MerkleTree.hashed]
  | single element => simp [hashedElements]
  | append hleft hright hsplit =>
      exact (mem_hashedElements_append hleft hright hsplit).mpr (.inl rfl)

end RootOf

/-- Lists of elements with the same root are the same, unless a digest of the run stands for two
things. -/
theorem elements_eq_of_merkleRoot_eq {run : List Hashed} (h : NoCollision run)
    {xs ys : List Bytes} (hxs : ∀ a ∈ hashedElements xs, a ∈ run)
    (hys : ∀ a ∈ hashedElements ys, a ∈ run) (hroot : merkleRoot xs = merkleRoot ys) :
    xs = ys := by
  -- The roots are digests of the same string, which tells how both lists were put together.
  have hsame : ∀ {xs ys : List Bytes} {a b : Hashed}, (∀ a ∈ hashedElements xs, a ∈ run) →
      (∀ a ∈ hashedElements ys, a ∈ run) → merkleRoot xs = merkleRoot ys →
      RootOf xs a → RootOf ys b → a = b := by
    intro xs ys a b hxs hys hroot ha hb
    apply h a (hxs a ha.mem_hashedElements) b (hys b hb.mem_hashedElements)
    rw [ha.digest_eq, hb.digest_eq, hroot]
  induction xs using splitInduction generalizing ys with
  | nil =>
      obtain ⟨b, hb⟩ := RootOf.exists_of_list ys
      have hab := hsame hxs hys hroot .empty hb
      cases hb with
      | empty => rfl
      | single element => cases hab
      | append hleft hright hsplit => cases hab
  | single x =>
      obtain ⟨b, hb⟩ := RootOf.exists_of_list ys
      have hab := hsame hxs hys hroot (.single x) hb
      cases hb with
      | empty => cases hab
      | single element =>
          cases hab
          rfl
      | append hleft hright hsplit => cases hab
  | append left right hleft hright hsplit ihLeft ihRight =>
      obtain ⟨b, hb⟩ := RootOf.exists_of_list ys
      have hab := hsame hxs hys hroot (.append hleft hright hsplit) hb
      have hinLeft : ∀ a ∈ hashedElements left, a ∈ run := fun a ha =>
        hxs a ((mem_hashedElements_append hleft hright hsplit).mpr (.inr (.inl ha)))
      have hinRight : ∀ a ∈ hashedElements right, a ∈ run := fun a ha =>
        hxs a ((mem_hashedElements_append hleft hright hsplit).mpr (.inr (.inr ha)))
      cases hb with
      | empty => cases hab
      | single element => cases hab
      | append hleft' hright' hsplit' =>
          rename_i left' right'
          have hcat : merkleRoot left ++ merkleRoot right =
              merkleRoot left' ++ merkleRoot right' := by
            injection hab with hbytes
            injection hbytes
          -- All roots have the same length, so both roots of the node are determined.
          obtain ⟨hrootLeft, hrootRight⟩ := List.append_inj hcat (by simp)
          rw [ihLeft hinLeft
              (fun a ha => hys a ((mem_hashedElements_append hleft' hright' hsplit').mpr
                (.inr (.inl ha)))) hrootLeft,
            ihRight hinRight
              (fun a ha => hys a ((mem_hashedElements_append hleft' hright' hsplit').mpr
                (.inr (.inr ha)))) hrootRight]

end SignerHost
