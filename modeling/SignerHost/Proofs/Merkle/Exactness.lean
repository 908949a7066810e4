import SignerHost.Proofs.Merkle.Collision

/-!
# Proofs are exact

The checker accepts one leaf and one proof at each position of a tree, namely those of the tree
itself.  Whoever makes it accept another one has found a collision between an inner node of the
tree and a node that the checker hashed.

* `climbed` lists what is hashed on a climb.
* `climb_concat_eq_ok_some` takes off the last level of a climb, the one below the root.
* `proof_or_collision` follows the shape of the tree from the root down to the leaf.
* `verifyProof_exact` states both directions; only the second one mentions collisions.
-/

namespace SignerHost

open PowerOfTwo

/-! ## What a climb hashes -/

/-- The node above a value, given the side on which the value lies and its sibling. -/
def stepString (right : Bool) (sibling value : Bytes) : Bytes :=
  if right then nodeString sibling value else nodeString value sibling

/-- The node of two digests tells which of them lies on which side. -/
theorem eq_of_nodeString_eq_stepString {left right sibling value : Bytes} {side : Bool}
    (hleft : left.length = 32) (hsibling : sibling.length = 32) (hvalue : value.length = 32)
    (h : nodeString left right = stepString side sibling value) :
    sibling = (if side then left else right) ∧ value = if side then right else left := by
  cases side with
  | true =>
      obtain ⟨rfl, rfl⟩ := (nodeString_inj (by rw [hleft, hsibling])).mp h
      exact ⟨rfl, rfl⟩
  | false =>
      obtain ⟨rfl, rfl⟩ := (nodeString_inj (by rw [hleft, hvalue])).mp h
      exact ⟨rfl, rfl⟩

/-- What is hashed on a climb, from the leaf upwards.  They are the strings that a checker of the
proof hashes, in this order. -/
def climbed : List (Bool × Bytes) → Bytes → List Hashed
  | [], _ => []
  | (right, sibling) :: rest, value =>
      .bytes (stepString right sibling value) ::
        climbed rest (sha256 (stepString right sibling value))

/-- A climb that leads somewhere meets digests only. -/
theorem climb_cons_eq_ok_some {right : Bool} {sibling value top : Bytes}
    {rest : List (Bool × Bytes)} :
    climb ((right, sibling) :: rest) value = .ok (some top) ↔
      sibling.length = 32 ∧ value.length = 32 ∧
        climb rest (sha256 (stepString right sibling value)) = .ok (some top) := by
  rw [climb]
  by_cases hsibling : sibling.length = 32
  · by_cases hvalue : value.length = 32
    · cases right <;> simp [hsibling, hvalue, combine_of_length, stepString, pairHash, nodeString]
    · cases right <;> simp [hsibling, hvalue, combine]
  · simp [hsibling]

theorem climb_append_eq_ok_some {steps rest : List (Bool × Bytes)} {value top : Bytes} :
    climb (steps ++ rest) value = .ok (some top) ↔
      ∃ parent, climb steps value = .ok (some parent) ∧ climb rest parent = .ok (some top) := by
  induction steps generalizing value with
  | nil => simp [climb]
  | cons step steps ih =>
      obtain ⟨right, sibling⟩ := step
      rw [List.cons_append]
      simp only [climb_cons_eq_ok_some, ih]
      tauto

theorem climbed_append {steps rest : List (Bool × Bytes)} {value parent : Bytes}
    (h : climb steps value = .ok (some parent)) :
    climbed (steps ++ rest) value = climbed steps value ++ climbed rest parent := by
  induction steps generalizing value with
  | nil =>
      cases h
      rfl
  | cons step steps ih =>
      obtain ⟨right, sibling⟩ := step
      obtain ⟨-, -, h⟩ := climb_cons_eq_ok_some.mp h
      rw [List.cons_append, climbed, climbed, ih h, List.cons_append]

/-- The last level of a climb hashes the node of the root. -/
theorem climb_concat_eq_ok_some {steps : List (Bool × Bytes)} {right : Bool}
    {sibling value top : Bytes} :
    climb (steps ++ [(right, sibling)]) value = .ok (some top) ↔
      ∃ parent, climb steps value = .ok (some parent) ∧ sibling.length = 32 ∧
        parent.length = 32 ∧ sha256 (stepString right sibling parent) = top := by
  rw [climb_append_eq_ok_some]
  refine exists_congr fun parent => and_congr_right fun _ => ?_
  rw [climb_cons_eq_ok_some, climb]
  simp

/-! ## Inner nodes -/

/-- The string of an inner node: 65 bytes, a one and two digests. -/
def IsNodeString (string : Bytes) : Prop :=
  ∃ left right, left.length = 32 ∧ right.length = 32 ∧ string = nodeString left right

/-- A climb that leads somewhere hashes inner nodes only.  So a collision with a node of the tree
is one between two inner nodes. -/
theorem isNodeString_of_mem_climbed {steps : List (Bool × Bytes)} {value top string : Bytes}
    (h : climb steps value = .ok (some top)) (hmem : .bytes string ∈ climbed steps value) :
    IsNodeString string := by
  induction steps generalizing value with
  | nil => cases hmem
  | cons step steps ih =>
      obtain ⟨right, sibling⟩ := step
      obtain ⟨hsibling, hvalue, h⟩ := climb_cons_eq_ok_some.mp h
      rw [climbed, List.mem_cons] at hmem
      rcases hmem with hfirst | hmem
      · injection hfirst with hstring
        cases right with
        | true => exact ⟨sibling, value, hsibling, hvalue, hstring⟩
        | false => exact ⟨value, sibling, hvalue, hsibling, hstring⟩
      · exact ih h hmem

namespace MerkleTree

/-- A tree over digests hashes inner nodes only. -/
theorem isNodeString_of_mem_hashed {hashes : List Bytes} {string : Bytes}
    (h : ∀ value ∈ hashes, value.length = 32) (hmem : .bytes string ∈ (build hashes).hashed) :
    IsNodeString string := by
  induction hashes using splitInduction with
  | nil => simp [hashed] at hmem
  | single value => simp [hashed] at hmem
  | append left right hleft hright hsplit ihLeft ihRight =>
      have hl : ∀ value ∈ left, value.length = 32 := fun v hv => h v (List.mem_append_left _ hv)
      have hr : ∀ value ∈ right, value.length = 32 := fun v hv => h v (List.mem_append_right _ hv)
      rw [build_append hleft hright hsplit, join, hashed, List.mem_cons, List.mem_append] at hmem
      rcases hmem with hfirst | hmem | hmem
      · injection hfirst with hstring
        exact ⟨_, _, length_root_build hl, length_root_build hr, hstring⟩
      · exact ihLeft hl hmem
      · exact ihRight hr hmem

/-! ## Soundness -/

/-- A climb to the root of two joined trees ends with the right sibling, above a climb to the root
of the part on its side, or with a collision. -/
theorem last_step_or_collision {left right : MerkleTree} (hl : left.root.length = 32)
    {path : List Bool} {side : Bool} {leaf : Bytes} {proof : List Bytes}
    (hlength : proof.length = (side :: path).length)
    (hclimb : climb ((side :: path).reverse.zip proof) leaf = .ok (some (join left right).root)) :
    (∃ siblings, proof = siblings ++ [(if side then left else right).root] ∧
      siblings.length = path.length ∧
      climb (path.reverse.zip siblings) leaf =
        .ok (some (if side then right else left).root) ∧
      ∀ a ∈ climbed (path.reverse.zip siblings) leaf,
        a ∈ climbed ((side :: path).reverse.zip proof) leaf) ∨
    Collision (join left right).hashed (climbed ((side :: path).reverse.zip proof) leaf) := by
  rcases List.eq_nil_or_concat' proof with rfl | ⟨siblings, last, rfl⟩
  · simp at hlength
  have hsiblings : siblings.length = path.length := by simpa using hlength
  rw [List.reverse_cons, List.zip_append (by simpa using hsiblings.symm),
    List.zip_cons_cons, List.zip_nil_left] at hclimb ⊢
  -- The last step hashes two digests to the root, as the root itself was made of two digests.
  obtain ⟨parent, hbelow, hlast, hparent, hdigest⟩ := climb_concat_eq_ok_some.mp hclimb
  rw [climbed_append hbelow]
  have hroot : .bytes (nodeString left.root right.root) ∈ (join left right).hashed :=
    List.mem_cons_self
  have htop : .bytes (stepString side last parent) ∈
      climbed (path.reverse.zip siblings) leaf ++ climbed [(side, last)] parent :=
    List.mem_append_right _ List.mem_cons_self
  refine (eq_or_collision hroot htop hdigest.symm).imp_left fun hnode => ?_
  obtain ⟨rfl, rfl⟩ := eq_of_nodeString_eq_stepString hl hlast hparent hnode
  rw [apply_ite root, apply_ite root]
  exact ⟨siblings, rfl, hsiblings, hbelow, fun a ha => List.mem_append_left _ ha⟩

/-- What is known of the climbs in the part on one side carries over to the joined trees.  The
last step of the climb has to be the node of the root, or its string collides with that. -/
theorem extend_or_collision {left right part other : MerkleTree} {path : List Bool} {side : Bool}
    (hpart : part = if side then right else left) (hother : other = if side then left else right)
    (hl : left.root.length = 32) {leaf : Bytes} {siblings : List Bytes} {P : Prop}
    (hbelow : ∀ below : List Bytes, below.length = path.length →
      climb (path.reverse.zip below) leaf = .ok (some part.root) →
      (P ∧ below = siblings) ∨ Collision part.hashed (climbed (path.reverse.zip below) leaf))
    {proof : List Bytes} (hlength : proof.length = (side :: path).length)
    (hclimb : climb ((side :: path).reverse.zip proof) leaf = .ok (some (join left right).root)) :
    (P ∧ proof = siblings ++ [other.root]) ∨
      Collision (join left right).hashed (climbed ((side :: path).reverse.zip proof) leaf) := by
  subst hpart hother
  -- A collision below is one of the whole, since each part was hashed on the way to the root.
  have hhashed : ∀ a ∈ (if side then right else left).hashed, a ∈ (join left right).hashed := by
    intro a ha
    refine List.mem_cons_of_mem _ (List.mem_append.mpr ?_)
    cases side with
    | true => exact .inr ha
    | false => exact .inl ha
  rcases last_step_or_collision hl hlength hclimb with
    ⟨below, rfl, hbelowLength, hclimbBelow, hmem⟩ | hcollision
  · refine (hbelow below hbelowLength hclimbBelow).imp ?_ fun h => h.mono hhashed hmem
    rintro ⟨hleaf, rfl⟩
    exact ⟨hleaf, rfl⟩
  · exact .inr hcollision

/-- A leaf and a proof that lead to the root of a tree are those of the tree, or two inner nodes
collide. -/
theorem proof_or_collision {hashes : List Bytes} {i : Nat} (hi : i < hashes.length)
    (h : ∀ value ∈ hashes, value.length = 32) {leaf : Bytes} {proof : List Bytes}
    (hlength : proof.length = (merklePath hashes.length i).length)
    (hclimb : climb ((merklePath hashes.length i).reverse.zip proof) leaf =
      .ok (some (build hashes).root)) :
    (hashes[i]? = some leaf ∧ proof = (build hashes).proof i) ∨
      Collision (build hashes).hashed
        (climbed ((merklePath hashes.length i).reverse.zip proof) leaf) := by
  -- The path from the root down decides what is left of the proof, so the proof is any along it.
  have key := proof_induction (motive := fun hashes i path siblings =>
    (∀ value ∈ hashes, value.length = 32) → ∀ proof : List Bytes, proof.length = path.length →
      climb (path.reverse.zip proof) leaf = .ok (some (build hashes).root) →
      (hashes[i]? = some leaf ∧ proof = siblings) ∨
        Collision (build hashes).hashed (climbed (path.reverse.zip proof) leaf))
    ?_ ?_ ?_ hi
  · exact key h proof hlength hclimb
  · intro value _ proof hlength hclimb
    obtain rfl := List.length_eq_zero_iff.mp hlength
    left
    simpa [climb, root, eq_comm] using hclimb
  · intro l r i path siblings hside ih hbuild hdigests proof hlength hclimb
    have hl : ∀ v ∈ l, v.length = 32 := fun v hv => hdigests v (List.mem_append_left _ hv)
    rw [hbuild] at hclimb ⊢
    rw [List.getElem?_append_left hside]
    exact extend_or_collision rfl rfl (length_root_build hl) (ih hl) hlength hclimb
  · intro l r i path siblings hside ih hbuild hdigests proof hlength hclimb
    have hl : ∀ v ∈ l, v.length = 32 := fun v hv => hdigests v (List.mem_append_left _ hv)
    have hr : ∀ v ∈ r, v.length = 32 := fun v hv => hdigests v (List.mem_append_right _ hv)
    rw [hbuild] at hclimb ⊢
    rw [List.getElem?_append_right (Nat.le_add_right _ _), Nat.add_sub_cancel_left]
    exact extend_or_collision rfl rfl (length_root_build hl) (ih hr) hlength hclimb

end MerkleTree

/-! ## Both directions -/

/-- Whether the leaf and the proof are those of the tree at a position. -/
structure MerkleList.Proves (m : MerkleList) (index : Int) (leaf : Bytes) (proof : List Bytes) :
    Prop where
  nonneg : 0 ≤ index
  lt : index < m.size
  leaf : m.leaves[index.toNat]? = some leaf
  proof : m.prove index = .ok proof

namespace MerkleList

theorem proves_iff {hashes : List Bytes} {index : Int} {leaf : Bytes} {proof : List Bytes} :
    (ofLeaves hashes).Proves index leaf proof ↔
      ∃ i : Nat, index = i ∧ i < hashes.length ∧ hashes[i]? = some leaf ∧
        proof = (MerkleTree.build hashes).proof i := by
  have hprove : ∀ i : Nat, i < hashes.length →
      (ofLeaves hashes).prove i = .ok ((MerkleTree.build hashes).proof i) :=
    fun _ hi => prove_ofNat hi
  constructor
  · rintro ⟨hnonneg, hlt, hleaf, hproof⟩
    obtain ⟨i, rfl⟩ := Int.eq_ofNat_of_zero_le hnonneg
    have hi : i < hashes.length := Int.ofNat_lt.mp hlt
    rw [hprove i hi] at hproof
    cases hproof
    exact ⟨i, rfl, hi, hleaf, rfl⟩
  · rintro ⟨i, rfl, hi, hleaf, rfl⟩
    exact ⟨Int.natCast_nonneg i, Int.ofNat_lt.mpr hi, hleaf, hprove i hi⟩

theorem ofLeaves?_of_digests {hashes : List Bytes} (h : ∀ value ∈ hashes, value.length = 32) :
    ofLeaves? hashes = .ok (ofLeaves hashes) :=
  (Hashable.of_digests h).ofLeaves?_eq

end MerkleList

theorem verifyProof_eq_ok_true {root : Bytes} {size index : Int} {leaf : Bytes}
    {proof : List Bytes} :
    verifyProof root size index leaf proof = .ok true ↔
      0 ≤ index ∧ index < size ∧
        proof.length = (merklePath size.toNat index.toNat).length ∧
        climb ((merklePath size.toNat index.toNat).reverse.zip proof) leaf = .ok (some root) := by
  unfold verifyProof
  -- The place and the length are checked before anything is hashed.
  by_cases hbounds : index < 0 ∨ size ≤ index
  · rw [if_pos hbounds]
    simp only [Except.ok.injEq, Bool.false_eq_true, false_iff]
    omega
  · have hinside : 0 ≤ index ∧ index < size := by omega
    rw [if_neg hbounds]
    by_cases hlength : proof.length = (merklePath size.toNat index.toNat).length
    · simp only [hlength, ne_eq, not_true_eq_false, if_false, hinside, true_and]
      rcases climb ((merklePath size.toNat index.toNat).reverse.zip proof) leaf with
        failure | _ | value <;> simp
    · simp [hlength]

/-- The checker accepts the leaf and the proof of every position of a tree over digests.  It
accepts nothing else for that tree, unless an inner node of the tree and a different node that
was hashed by the checker have the same digest. -/
theorem verifyProof_exact {hashes : List Bytes} (h : ∀ value ∈ hashes, value.length = 32) :
    ∃ m, MerkleList.ofLeaves? hashes = .ok m ∧
      ∀ (index : Int) (leaf : Bytes) (proof : List Bytes),
        (m.Proves index leaf proof →
          verifyProof m.root hashes.length index leaf proof = .ok true) ∧
        (verifyProof m.root hashes.length index leaf proof = .ok true →
          m.Proves index leaf proof ∨
          ∃ a b, IsNodeString a ∧ IsNodeString b ∧ a ≠ b ∧ sha256 a = sha256 b ∧
            .bytes a ∈ m.tree.hashed ∧
            .bytes b ∈ climbed ((merklePath hashes.length index.toNat).reverse.zip proof) leaf) := by
  refine ⟨_, MerkleList.ofLeaves?_of_digests h, fun index leaf proof => ⟨?_, ?_⟩⟩
  · intro hproves
    obtain ⟨i, rfl, hi, hleaf, rfl⟩ := MerkleList.proves_iff.mp hproves
    obtain ⟨-, rfl⟩ := List.getElem?_eq_some_iff.mp hleaf
    exact MerkleTree.verifyProof_proof hi h
  · intro haccepted
    obtain ⟨hnonneg, hlt, hlength, hclimb⟩ := verifyProof_eq_ok_true.mp haccepted
    -- An index that was accepted is a place of the list, and the root leaves no other proof for it.
    obtain ⟨i, rfl⟩ := Int.eq_ofNat_of_zero_le hnonneg
    have hi : i < hashes.length := Int.ofNat_lt.mp hlt
    rcases MerkleTree.proof_or_collision hi h hlength hclimb with ⟨hleaf, rfl⟩ | hcollision
    · exact .inl (MerkleList.proves_iff.mpr ⟨i, rfl, hi, hleaf, rfl⟩)
    · obtain ⟨a, b, ha, hb, hab, hdigest⟩ := hcollision
      exact .inr ⟨a, b, MerkleTree.isNodeString_of_mem_hashed h ha,
        isNodeString_of_mem_climbed hclimb hb, hab, hdigest, ha, hb⟩

/-- Of three leaves the last one stands alone on the right, so its proof is one node. -/
theorem verifyProof_exact_of_three_leaves :
    let first : Bytes := List.replicate 32 1
    let second : Bytes := List.replicate 32 2
    let third : Bytes := List.replicate 32 3
    (∀ value ∈ [first, second, third], value.length = 32) ∧
      ∃ m, MerkleList.ofLeaves? [first, second, third] = .ok m ∧
        m.Proves 2 third [pairHash first second] ∧
        verifyProof m.root 3 2 third [pairHash first second] = .ok true := by
  intro first second third
  have h : ∀ value ∈ [first, second, third], value.length = 32 := by decide
  obtain ⟨m, hm, hexact⟩ := verifyProof_exact h
  have hpair : MerkleTree.build [first, second] = .join (.leaf first) (.leaf second) := by
    have hsplit : MerkleTree.build ([first] ++ [second]) = _ :=
      MerkleTree.build_append (by simp) (by simp) (by decide)
    simpa using hsplit
  have hproof : (MerkleTree.build [first, second, third]).proof 2 = [pairHash first second] := by
    have hright : (MerkleTree.build ([first, second] ++ [third])).proof 2 = _ :=
      MerkleTree.proof_right (by simp) (by simp) (by decide) (by decide)
    rw [hpair, MerkleTree.root_join] at hright
    simpa [MerkleTree.proof, MerkleTree.root] using hright
  have hproves : m.Proves 2 third [pairHash first second] := by
    obtain rfl : MerkleList.ofLeaves [first, second, third] = m :=
      Except.ok.inj ((MerkleList.ofLeaves?_of_digests h).symm.trans hm)
    exact MerkleList.proves_iff.mpr ⟨2, rfl, by decide, rfl, hproof.symm⟩
  exact ⟨h, m, hm, hproves, (hexact _ _ _).1 hproves⟩

end SignerHost
