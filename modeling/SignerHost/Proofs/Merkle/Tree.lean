import SignerHost.Proofs.Merkle.Shape

/-!
# Trees over lists of leaf hashes

The tree over a list is determined by its split: `build_append` says that the tree over two parts
joins the trees over them.  Everything else is induction along the splits.

* A tree has the leaves it was built from, and its root is a digest as soon as they are.
* `proof_left` and `proof_right` say how a proof grows on the way up.
* A list can be committed to if it is `Hashable`: as soon as something is hashed, only digests are.
* `climb_proof` and `verifyProof_proof` say that the proof of a leaf leads from it to the root.
-/

namespace SignerHost

open PowerOfTwo

namespace MerkleTree

/-! ## Building -/

@[simp] theorem root_join (left right : MerkleTree) :
    (join left right).root = pairHash left.root right.root := rfl

@[simp] theorem build_nil : build [] = empty := by rw [build]

@[simp] theorem build_singleton (value : Bytes) : build [value] = leaf value := by rw [build]

theorem build_of_two_le {hashes : List Bytes} (h : 2 ≤ hashes.length) :
    build hashes = join (build (hashes.take (below hashes.length)))
      (build (hashes.drop (below hashes.length))) := by
  match hashes, h with
  | _ :: _ :: _, _ => rw [build]

/-- The tree over two parts that meet at the split point joins the trees over them.  This is the
definition of the tree, read from its parts to the whole. -/
theorem build_append {left right : List Bytes} (hleft : left ≠ []) (hright : right ≠ [])
    (hsplit : left.length = below (left.length + right.length)) :
    build (left ++ right) = join (build left) (build right) := by
  have := List.length_pos_iff.mpr hleft
  have := List.length_pos_iff.mpr hright
  have hlength : (left ++ right).length = left.length + right.length := List.length_append
  rw [build_of_two_le (by omega), hlength, ← hsplit, List.take_left, List.drop_left]

@[simp] theorem leaves_build (hashes : List Bytes) : (build hashes).leaves = hashes := by
  induction hashes using splitInduction with
  | nil => simp [leaves]
  | single value => simp [leaves]
  | append left right hleft hright hsplit ihLeft ihRight =>
      rw [build_append hleft hright hsplit, join, leaves, ihLeft, ihRight]

theorem length_leaves (t : MerkleTree) : t.leaves.length = t.size := by
  induction t with
  | empty => rfl
  | leaf value => rfl
  | node value left right ihLeft ihRight =>
      rw [leaves, size, List.length_append, ihLeft, ihRight]

@[simp] theorem size_build (hashes : List Bytes) : (build hashes).size = hashes.length := by
  rw [← length_leaves, leaves_build]

theorem length_pairHash (left right : Bytes) : (pairHash left right).length = 32 :=
  length_sha256 _

theorem length_root_build {hashes : List Bytes} (h : ∀ value ∈ hashes, value.length = 32) :
    (build hashes).root.length = 32 := by
  induction hashes using splitInduction with
  | nil => simp [root, emptyRoot]
  | single value => simpa [root] using h
  | append left right hleft hright hsplit ihLeft ihRight =>
      rw [build_append hleft hright hsplit]
      exact length_pairHash _ _

/-! ## Proofs -/

theorem proof_left {left right : List Bytes} (hleft : left ≠ []) (hright : right ≠ [])
    (hsplit : left.length = below (left.length + right.length)) {i : Nat}
    (hi : i < left.length) :
    (build (left ++ right)).proof i = (build left).proof i ++ [(build right).root] := by
  rw [build_append hleft hright hsplit, join, proof, size_build, if_pos hi]

theorem proof_right {left right : List Bytes} (hleft : left ≠ []) (hright : right ≠ [])
    (hsplit : left.length = below (left.length + right.length)) {i : Nat}
    (hi : left.length ≤ i) :
    (build (left ++ right)).proof i =
      (build right).proof (i - left.length) ++ [(build left).root] := by
  rw [build_append hleft hright hsplit, join, proof, size_build, if_neg (by omega)]

/-- What holds of the proofs in both parts of every split, and of the empty proof, holds of every
proof.  The induction is along the splits, on the side on which the leaf lies. -/
theorem proof_induction {motive : List Bytes → Nat → List Bool → List Bytes → Prop}
    (single : ∀ value, motive [value] 0 [] [])
    (left : ∀ l r i path siblings, i < l.length → motive l i path siblings →
      build (l ++ r) = join (build l) (build r) →
      motive (l ++ r) i (false :: path) (siblings ++ [(build r).root]))
    (right : ∀ l r i path siblings, i < r.length → motive r i path siblings →
      build (l ++ r) = join (build l) (build r) →
      motive (l ++ r) (l.length + i) (true :: path) (siblings ++ [(build l).root]))
    {hashes : List Bytes} {i : Nat} (hi : i < hashes.length) :
    motive hashes i (merklePath hashes.length i) ((build hashes).proof i) := by
  -- The cases follow the splits of the list, and the side of the place decides between the parts.
  induction hashes using splitInduction generalizing i with
  | nil => simp at hi
  | single value =>
      obtain rfl : i = 0 := by simpa using hi
      rw [merklePath_of_lt_two (by simp), build_singleton]
      exact single value
  | append l r hl hr hsplit ihLeft ihRight =>
      have hlpos := List.length_pos_iff.mpr hl
      have hrpos := List.length_pos_iff.mpr hr
      have htwo : 2 ≤ l.length + r.length := by omega
      have hbuild := build_append hl hr hsplit
      rw [List.length_append] at hi ⊢
      by_cases hside : i < l.length
      · rw [proof_left hl hr hsplit hside, merklePath_left htwo (hsplit ▸ hside), ← hsplit]
        exact left l r i _ _ hside (ihLeft hside) hbuild
      · -- On the right a position is counted from the split.
        have hi' : i - l.length < r.length := by omega
        have hsum : l.length + (i - l.length) = i := by omega
        rw [proof_right hl hr hsplit (by omega), merklePath_right htwo (by omega), ← hsplit,
          Nat.add_sub_cancel_left]
        have := right l r (i - l.length) _ _ hi' (ihRight hi') hbuild
        rwa [hsum] at this

/-- A proof has one sibling for each step of the way down. -/
theorem length_proof {hashes : List Bytes} {i : Nat} (hi : i < hashes.length) :
    ((build hashes).proof i).length = (merklePath hashes.length i).length := by
  refine proof_induction (motive := fun _ _ path siblings => siblings.length = path.length)
    ?_ ?_ ?_ hi
  · intro value
    rfl
  · intro l r i path siblings _ ih _
    simpa using ih
  · intro l r i path siblings _ ih _
    simpa using ih

/-- The siblings of a proof over digests are digests. -/
theorem length_of_mem_proof {hashes : List Bytes} {i : Nat} (hi : i < hashes.length)
    (h : ∀ value ∈ hashes, value.length = 32) :
    ∀ sibling ∈ (build hashes).proof i, sibling.length = 32 := by
  -- Every sibling is the root of a part, and roots have the length of a digest.
  refine proof_induction (motive := fun hashes _ _ siblings =>
    (∀ value ∈ hashes, value.length = 32) → ∀ sibling ∈ siblings, sibling.length = 32)
    ?_ ?_ ?_ hi h
  · intro value _ sibling hmem
    cases hmem
  · intro l r i path siblings _ ih _ hdigests sibling hmem
    rcases List.mem_append.mp hmem with hmem | hmem
    · exact ih (fun v hv => hdigests v (List.mem_append_left _ hv)) sibling hmem
    · rw [List.mem_singleton.mp hmem]
      exact length_root_build fun v hv => hdigests v (List.mem_append_right _ hv)
  · intro l r i path siblings _ ih _ hdigests sibling hmem
    rcases List.mem_append.mp hmem with hmem | hmem
    · exact ih (fun v hv => hdigests v (List.mem_append_right _ hv)) sibling hmem
    · rw [List.mem_singleton.mp hmem]
      exact length_root_build fun v hv => hdigests v (List.mem_append_left _ hv)

end MerkleTree

/-- A position that is there stands for a place in the list. -/
theorem lt_of_position? {size place : Nat} {i : Int} (h : position? size i = some place) :
    place < size := by
  unfold position? at h
  simp only [Option.ite_none_right_eq_some, Option.some.injEq] at h
  omega

namespace MerkleList

theorem prove_ofNat {list : MerkleList} {index : Nat} (h : index < list.size) :
    list.prove index = .ok (list.tree.proof index) := by
  have hplace : position? list.size index = some index := by
    unfold position?
    simp only [if_neg (show ¬ (index : Int) < 0 by omega),
      if_pos (show 0 ≤ (index : Int) ∧ (index : Int) < list.size by omega), Int.toNat_natCast]
  rw [prove, hplace]

theorem get_ofNat {list : MerkleList} {index : Nat} (h : index < list.leaves.length) :
    list.get index = .ok list.leaves[index] := by
  have hleaf : list.leaves[index]? = some list.leaves[index] := List.getElem?_eq_getElem h
  unfold get
  simp [hleaf]

end MerkleList

/-! ## The lists that can be committed to -/

/-- A list of which either nothing is hashed or only digests are.  It is what the functions that
make a tree ask of the values of the leaves. -/
def Hashable (hashes : List Bytes) : Prop :=
  2 ≤ hashes.length → ∀ value ∈ hashes, value.length = 32

namespace Hashable

variable {hashes : List Bytes}

theorem of_digests (h : ∀ value ∈ hashes, value.length = 32) : Hashable hashes := fun _ => h

theorem length_root_iff (h : Hashable hashes) (hne : hashes ≠ []) :
    (MerkleTree.build hashes).root.length = 32 ↔ ∀ value ∈ hashes, value.length = 32 := by
  refine ⟨fun hroot => ?_, MerkleTree.length_root_build⟩
  by_cases htwo : 2 ≤ hashes.length
  · exact h htwo
  · match hashes, hne with
    | [value], _ => simpa [MerkleTree.root] using hroot
    | _ :: _ :: _, _ => exact absurd (by simp) htwo

theorem append {front rest : List Bytes} (hfront : ∀ value ∈ front, value.length = 32)
    (hrest : ∀ value ∈ rest, value.length = 32) : Hashable (front ++ rest) :=
  .of_digests (List.forall_mem_append.mpr ⟨hfront, hrest⟩)

/-- Two parts of which neither is empty are hashed. -/
theorem of_append {front rest : List Bytes} (h : Hashable (front ++ rest)) (hfront : front ≠ [])
    (hrest : rest ≠ []) :
    (∀ value ∈ front, value.length = 32) ∧ ∀ value ∈ rest, value.length = 32 := by
  have hfrontPos := List.length_pos_iff.mpr hfront
  have hrestPos := List.length_pos_iff.mpr hrest
  have htwo : 2 ≤ (front ++ rest).length := by
    rw [List.length_append]
    omega
  exact List.forall_mem_append.mp (h htwo)

theorem not_iff : ¬ Hashable hashes ↔
    2 ≤ hashes.length ∧ (hashes.any fun value => value.length ≠ 32) = true := by
  simp [Hashable]

theorem ofLeaves?_eq (h : Hashable hashes) :
    MerkleList.ofLeaves? hashes = .ok (.ofLeaves hashes) :=
  if_neg fun hbad => not_iff.mpr hbad h

theorem ofLeaves?_eq_error (h : ¬ Hashable hashes) :
    MerkleList.ofLeaves? hashes = .error (.malformed .digestLength) :=
  if_pos (not_iff.mp h)

end Hashable

/-! ## Checking a proof of the tree itself -/

theorem combine_of_length {left right : Bytes} (hleft : left.length = 32)
    (hright : right.length = 32) : combine left right = .ok (pairHash left right) := by
  rw [combine, if_pos ⟨hleft, hright⟩]

theorem combine_of_not_digest {left right : Bytes} (h : ¬ (left.length = 32 ∧ right.length = 32)) :
    combine left right = .error (.malformed .digestLength) := if_neg h

/-- A climb goes on where its first part ended. -/
theorem climb_append {steps rest : List (Bool × Bytes)} {value parent : Bytes}
    (h : climb steps value = .ok (some parent)) :
    climb (steps ++ rest) value = climb rest parent := by
  -- A climb that succeeded passed every check of the first steps, so it can go on from there.
  induction steps generalizing value with
  | nil =>
      cases h
      rfl
  | cons step steps ih =>
      obtain ⟨right, sibling⟩ := step
      rw [List.cons_append]
      rw [climb] at h ⊢
      split at h
      · rename_i hlength
        rw [if_pos hlength]
        split at h
        · exact ih h
        · cases h
      · cases h

namespace MerkleTree

/-- The proof of a leaf leads from the leaf to the root.  The induction is on the way to the
leaf, one level for each sibling. -/
theorem climb_proof {hashes : List Bytes} {i : Nat} (hi : i < hashes.length)
    (h : ∀ value ∈ hashes, value.length = 32) :
    climb ((merklePath hashes.length i).reverse.zip ((build hashes).proof i)) hashes[i] =
      .ok (some (build hashes).root) := by
  -- The lengths belong to the motive: only lists of the same length are zipped part by part.
  have key := proof_induction (motive := fun hashes i path siblings =>
    siblings.length = path.length ∧
      ((∀ value ∈ hashes, value.length = 32) → ∀ value, hashes[i]? = some value →
        climb (path.reverse.zip siblings) value = .ok (some (build hashes).root)))
    ?_ ?_ ?_ hi
  · exact key.2 h _ (List.getElem?_eq_getElem hi)
  · intro value
    refine ⟨rfl, fun _ found hfound => ?_⟩
    cases hfound
    rw [build_singleton]
    rfl
  · intro l r i path siblings hside ih hbuild
    refine ⟨by simpa using ih.1, fun hdigests value hvalue => ?_⟩
    have hl : ∀ v ∈ l, v.length = 32 := fun v hv => hdigests v (List.mem_append_left _ hv)
    have hr : ∀ v ∈ r, v.length = 32 := fun v hv => hdigests v (List.mem_append_right _ hv)
    -- The climb through the left part ends at its root, and one step more leads to the whole.
    rw [List.getElem?_append_left hside] at hvalue
    rw [List.reverse_cons, List.zip_append (by simpa using ih.1.symm),
      climb_append (ih.2 hl value hvalue), hbuild, root_join]
    simp [climb, length_root_build hr, combine_of_length, length_root_build hl]
  · intro l r i path siblings hside ih hbuild
    refine ⟨by simpa using ih.1, fun hdigests value hvalue => ?_⟩
    have hl : ∀ v ∈ l, v.length = 32 := fun v hv => hdigests v (List.mem_append_left _ hv)
    have hr : ∀ v ∈ r, v.length = 32 := fun v hv => hdigests v (List.mem_append_right _ hv)
    rw [List.getElem?_append_right (by omega), Nat.add_sub_cancel_left] at hvalue
    rw [List.reverse_cons, List.zip_append (by simpa using ih.1.symm),
      climb_append (ih.2 hr value hvalue), hbuild, root_join]
    simp [climb, length_root_build hr, combine_of_length, length_root_build hl]

/-- The checker accepts the proof of every leaf. -/
theorem verifyProof_proof {hashes : List Bytes} {i : Nat} (hi : i < hashes.length)
    (h : ∀ value ∈ hashes, value.length = 32) :
    verifyProof (build hashes).root hashes.length i hashes[i] ((build hashes).proof i) =
      .ok true := by
  unfold verifyProof
  rw [if_neg (by omega)]
  simp only [Int.toNat_natCast, length_proof hi, ne_eq, not_true_eq_false, if_false,
    climb_proof hi h, decide_true]

end MerkleTree
end SignerHost
