import SignerHost.Proofs.Merkle.Exactness

/-!
# Accepted elements are members

Whoever holds only the root of a list does not know how long the list is.  A proof that is checked
under a wrong number of leaves follows a path that belongs to another tree: it may start at an inner
node, or go on below a leaf.  It still proves nothing but membership, because a leaf and a node are
never hashed as the same string.

* `checked` lists what a checker hashes, from the leaf upwards.
* `mem_or_collision_of_climb` follows any climb from the root down, through the real tree.
* `mem_or_exhibit_of_verifyProof` holds for every claimed size and position.
-/

namespace SignerHost

/-- What is hashed to check that an element is a member: the element, and then the nodes of the
climb. -/
def checked (steps : List (Bool × Bytes)) (element : Bytes) : List Hashed :=
  .bytes (leafString element) :: climbed steps (elementHash element)

theorem checked_concat {steps : List (Bool × Bytes)} {right : Bool}
    {sibling element parent : Bytes}
    (h : climb steps (elementHash element) = .ok (some parent)) :
    checked (steps ++ [(right, sibling)]) element =
      checked steps element ++ [.bytes (stepString right sibling parent)] := by
  rw [checked, climbed_append h]
  rfl

/-- The last string of a check that leads somewhere has the digest to which it leads. -/
theorem exists_checked_of_climb {steps : List (Bool × Bytes)} {element top : Bytes}
    (h : climb steps (elementHash element) = .ok (some top)) :
    ∃ string, .bytes string ∈ checked steps element ∧ sha256 string = top := by
  rcases List.eq_nil_or_concat' steps with rfl | ⟨steps, ⟨right, sibling⟩, rfl⟩
  · cases h
    exact ⟨leafString element, List.mem_cons_self, rfl⟩
  · obtain ⟨parent, hbelow, -, -, hdigest⟩ := climb_concat_eq_ok_some.mp h
    refine ⟨stepString right sibling parent, ?_, hdigest⟩
    rw [checked_concat hbelow]
    exact List.mem_append_right _ List.mem_cons_self

/-- A list that is committed to as a part of another one. -/
structure PartOf (part whole : List Bytes) : Prop where
  ne_nil : part ≠ []
  mem : ∀ e ∈ part, e ∈ whole
  hashed : ∀ a ∈ hashedElements part, a ∈ hashedElements whole

theorem partOf_append {left right : List Bytes} (hleft : left ≠ []) (hright : right ≠ [])
    (hsplit : left.length = PowerOfTwo.below (left.length + right.length)) :
    PartOf left (left ++ right) ∧ PartOf right (left ++ right) := by
  have hhashed := fun a => mem_hashedElements_append hleft hright hsplit (a := a)
  exact
    ⟨⟨hleft, fun _ => List.mem_append_left _, fun a ha => (hhashed a).mpr (.inr (.inl ha))⟩,
      ⟨hright, fun _ => List.mem_append_right _, fun a ha => (hhashed a).mpr (.inr (.inr ha))⟩⟩

/-- The last step to the root of a list comes from the root of a part of it, or its string collides
with one of the tree. -/
theorem part_or_collision_of_last_step {xs : List Bytes} (hxs : xs ≠ []) {right : Bool}
    {sibling parent : Bytes} (hsibling : sibling.length = 32) (hparent : parent.length = 32)
    (hdigest : sha256 (stepString right sibling parent) = merkleRoot xs) :
    (∃ part, PartOf part xs ∧ parent = merkleRoot part) ∨
      Collision (hashedElements xs) [.bytes (stepString right sibling parent)] := by
  obtain ⟨a, ha⟩ := RootOf.exists_string hxs
  refine (eq_or_collision ha.mem_hashedElements (List.mem_singleton_self _)
    (ha.digest_eq.trans hdigest.symm)).imp_left fun hstring => ?_
  cases ha with
  | single only =>
      -- A node is hashed here, and the only string of this tree is that of a leaf.
      cases right <;> cases hstring
  | @append l r hl hr hsplit =>
      obtain ⟨hpartLeft, hpartRight⟩ := partOf_append hl hr hsplit
      obtain ⟨-, hside⟩ := eq_of_nodeString_eq_stepString (length_merkleRoot l) hsibling hparent
        hstring
      cases right with
      | false => exact ⟨l, hpartLeft, hside⟩
      | true => exact ⟨r, hpartRight, hside⟩

/-- A climb from an element to the root of a list that is not empty starts at a member, whatever
its steps are, unless a string of the tree and one of the climb collide. -/
theorem mem_or_collision_of_climb {xs : List Bytes} (hxs : xs ≠ []) {element : Bytes}
    {steps : List (Bool × Bytes)}
    (h : climb steps (elementHash element) = .ok (some (merkleRoot xs))) :
    element ∈ xs ∨ Collision (hashedElements xs) (checked steps element) := by
  induction steps using List.reverseRecOn generalizing xs with
  | nil =>
      have hleaf : elementHash element = merkleRoot xs := Option.some.inj (Except.ok.inj h)
      obtain ⟨a, ha⟩ := RootOf.exists_string hxs
      refine (eq_or_collision ha.mem_hashedElements List.mem_cons_self
        (ha.digest_eq.trans hleaf.symm)).imp_left ?_
      rintro rfl
      -- The root is a leaf, so the list has one element.
      cases ha with
      | single _ => exact List.mem_singleton_self _
  | append_singleton steps step ih =>
      obtain ⟨right, sibling⟩ := step
      obtain ⟨parent, hbelow, hsibling, hparent, hdigest⟩ := climb_concat_eq_ok_some.mp h
      rw [checked_concat hbelow]
      rcases part_or_collision_of_last_step hxs hsibling hparent hdigest with
        ⟨part, hpart, rfl⟩ | hcollision
      · refine (ih hpart.ne_nil hbelow).imp (hpart.mem _) fun hcollision => ?_
        exact hcollision.mono hpart.hashed fun _ => List.mem_append_left _
      · exact .inr (hcollision.mono (fun _ => id) fun _ => List.mem_append_right _)

/-- An element that is accepted under the root of a list, with any number of leaves, any position
and any proof, is in the list, unless the strings of the tree and those of the check contain a
collision, or one of the check has a digest of 32 zero bytes, which is the root of the empty
list. -/
theorem mem_or_exhibit_of_verifyProof {xs : List Bytes} {element : Bytes} {size index : Int}
    {proof : List Bytes}
    (h : verifyProof (merkleRoot xs) size index (elementHash element) proof = .ok true) :
    let run := checked ((merklePath size.toNat index.toNat).reverse.zip proof) element
    element ∈ xs ∨ Collision (hashedElements xs) run ∨ ZeroDigest run := by
  obtain ⟨-, -, -, hclimb⟩ := verifyProof_eq_ok_true.mp h
  rcases eq_or_ne xs [] with rfl | hxs
  · obtain ⟨string, hstring, hdigest⟩ := exists_checked_of_climb hclimb
    exact .inr (.inr ⟨string, hstring, hdigest.trans merkleRoot_nil⟩)
  · exact (mem_or_collision_of_climb hxs hclimb).imp_right .inl

/-- The last of three elements is accepted as the second of two: there the first two elements stand
behind one sibling. -/
theorem mem_or_exhibit_of_shortened_list :
    let xs : List Bytes := [[1], [], [2, 3]]
    let proof := [pairHash (elementHash [1]) (elementHash [])]
    verifyProof (merkleRoot xs) 2 1 (elementHash [2, 3]) proof = .ok true ∧
      let run := checked ((merklePath 2 1).reverse.zip proof) [2, 3]
      ([2, 3] ∈ xs ∨ Collision (hashedElements xs) run ∨ ZeroDigest run) := by
  intro xs proof
  have h : verifyProof (merkleRoot xs) 2 1 (elementHash [2, 3]) proof = .ok true := by
    decide +kernel
  exact ⟨h, mem_or_exhibit_of_verifyProof h⟩

end SignerHost
