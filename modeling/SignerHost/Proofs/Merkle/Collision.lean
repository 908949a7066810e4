import SignerHost.Proofs.Merkle.Binding

/-!
# Two lists with one root

No assumption is needed to tell two lists apart by their roots: either the lists are the same, or
the strings hashed for them contain a collision.  Only the root of the empty list is not the digest
of a string, so there the exception is a string with that digest.

* `Collision` names two strings, one from each of two runs.  That some two strings collide would
  say nothing, because there are more strings than digests.
* `elements_eq_or_collision_of_ne_nil` follows both trees down from the root.  Nothing is known
  about their shapes, but a leaf and a node are never hashed as the same string, so each level
  either agrees or is where the collision lies.
* `elements_eq_or_exhibit_of_merkleRoot_eq` covers the empty list, too.
-/

namespace SignerHost

open PowerOfTwo

/-- Two different strings with the same digest, one hashed in each of two runs.  The two strings
are among those that are given, so a collision can be shown. -/
def Collision (first second : List Hashed) : Prop :=
  ∃ a b, .bytes a ∈ first ∧ .bytes b ∈ second ∧ a ≠ b ∧ sha256 a = sha256 b

namespace Collision

theorem mono {first second first' second' : List Hashed} (h : Collision first second)
    (hfirst : ∀ a ∈ first, a ∈ first') (hsecond : ∀ a ∈ second, a ∈ second') :
    Collision first' second' := by
  obtain ⟨a, b, ha, hb, hne, hdigest⟩ := h
  exact ⟨a, b, hfirst _ ha, hsecond _ hb, hne, hdigest⟩

end Collision

/-- Strings with the same digest are the same, or they collide. -/
theorem eq_or_collision {first second : List Hashed} {a b : Bytes} (ha : .bytes a ∈ first)
    (hb : .bytes b ∈ second) (hdigest : sha256 a = sha256 b) :
    a = b ∨ Collision first second := by
  by_cases hab : a = b
  · exact .inl hab
  · exact .inr ⟨a, b, ha, hb, hab, hdigest⟩

/-! ## Inner nodes -/

/-- The string that an inner node is hashed as. -/
def nodeString (left right : Bytes) : Bytes := 0x01 :: (left ++ right)

theorem nodeString_inj {l r l' r' : Bytes} (hlength : l.length = l'.length) :
    nodeString l r = nodeString l' r' ↔ l = l' ∧ r = r' := by
  constructor
  · intro h
    injection h with _ hcat
    exact List.append_inj hcat hlength
  · rintro ⟨rfl, rfl⟩
    rfl

/-! ## Lists of elements -/

namespace RootOf

/-- The root of a list that is not empty is the digest of a string.  For one element it is the
string of the leaf, and for more it is that of the topmost node. -/
theorem exists_string {elements : List Bytes} (h : elements ≠ []) :
    ∃ a, RootOf elements (.bytes a) := by
  obtain ⟨a, ha⟩ := exists_of_list elements
  cases ha with
  | empty => exact absurd rfl h
  | single element => exact ⟨_, single element⟩
  | append hleft hright hsplit => exact ⟨_, append hleft hright hsplit⟩

variable {xs ys : List Bytes} {a b : Bytes}

theorem eq_or_collision (ha : RootOf xs (.bytes a)) (hb : RootOf ys (.bytes b))
    (hroot : merkleRoot xs = merkleRoot ys) :
    a = b ∨ Collision (hashedElements xs) (hashedElements ys) := by
  apply SignerHost.eq_or_collision ha.mem_hashedElements hb.mem_hashedElements
  show (Hashed.bytes a).digest = (Hashed.bytes b).digest
  rw [ha.digest_eq, hb.digest_eq, hroot]

end RootOf

/-- Lists with the same root are the same, unless two of the strings that were hashed for them
collide.  Neither list may be empty, because the root of the empty list is not a digest. -/
theorem elements_eq_or_collision_of_ne_nil {xs ys : List Bytes} (hxs : xs ≠ []) (hys : ys ≠ [])
    (hroot : merkleRoot xs = merkleRoot ys) :
    xs = ys ∨ Collision (hashedElements xs) (hashedElements ys) := by
  induction xs using splitInduction generalizing ys with
  | nil => exact absurd rfl hxs
  | single x =>
      obtain ⟨b, hb⟩ := RootOf.exists_string hys
      rcases (RootOf.single x).eq_or_collision hb hroot with hstring | hcollision
      · cases hb with
        | single y =>
            injection hstring with _ hxy
            exact .inl (by rw [hxy])
        -- The first byte tells a leaf from a node.
        | append hleft' hright' hsplit' => cases hstring
      · exact .inr hcollision
  | append left right hleft hright hsplit ihLeft ihRight =>
      obtain ⟨b, hb⟩ := RootOf.exists_string hys
      rcases (RootOf.append hleft hright hsplit).eq_or_collision hb hroot with
        hstring | hcollision
      · cases hb with
        | single y => cases hstring
        | append hleft' hright' hsplit' =>
            -- Both roots of a node have the same length, so the string determines them.
            obtain ⟨hrootLeft, hrootRight⟩ := (nodeString_inj (by simp)).mp hstring
            have hmem := fun a => mem_hashedElements_append hleft hright hsplit (a := a)
            have hmem' := fun a => mem_hashedElements_append hleft' hright' hsplit' (a := a)
            rcases ihLeft hleft hleft' hrootLeft with rfl | hcollision
            · rcases ihRight hright hright' hrootRight with rfl | hcollision
              · exact .inl rfl
              · exact .inr (hcollision.mono (fun a ha => (hmem a).mpr (.inr (.inr ha)))
                  fun a ha => (hmem' a).mpr (.inr (.inr ha)))
            · exact .inr (hcollision.mono (fun a ha => (hmem a).mpr (.inr (.inl ha)))
                fun a ha => (hmem' a).mpr (.inr (.inl ha)))
      · exact .inr hcollision

/-- The same for lists of one length, which are empty together. -/
theorem elements_eq_or_collision {xs ys : List Bytes} (hlength : xs.length = ys.length)
    (hroot : merkleRoot xs = merkleRoot ys) :
    xs = ys ∨ Collision (hashedElements xs) (hashedElements ys) := by
  rcases eq_or_ne xs [] with rfl | hxs
  · exact .inl (List.length_eq_zero_iff.mp hlength.symm).symm
  · have hys : ys ≠ [] := List.ne_nil_of_length_pos
      (hlength ▸ List.length_pos_iff.mpr hxs)
    exact elements_eq_or_collision_of_ne_nil hxs hys hroot

/-- A string of a run whose digest is 32 zero bytes, which is the root of the empty list.  Such a
string could pass for an empty list. -/
def ZeroDigest (run : List Hashed) : Prop :=
  ∃ a, .bytes a ∈ run ∧ sha256 a = List.replicate 32 0

theorem zeroDigest_of_merkleRoot_eq_nil {elements : List Bytes} (h : elements ≠ [])
    (hroot : merkleRoot elements = merkleRoot []) : ZeroDigest (hashedElements elements) := by
  obtain ⟨a, ha⟩ := RootOf.exists_string h
  refine ⟨a, ha.mem_hashedElements, ?_⟩
  calc sha256 a = merkleRoot elements := ha.digest_eq
    _ = emptyRoot := hroot.trans merkleRoot_nil

/-- Lists with the same root are the same, whatever their lengths, unless the leaf and node strings
of the two trees contain a collision or a string whose digest is 32 zero bytes. -/
theorem elements_eq_or_exhibit_of_merkleRoot_eq {xs ys : List Bytes}
    (hroot : merkleRoot xs = merkleRoot ys) :
    xs = ys ∨ Collision (hashedElements xs) (hashedElements ys) ∨
      ZeroDigest (hashedElements xs ++ hashedElements ys) := by
  rcases eq_or_ne xs [] with rfl | hxs <;> rcases eq_or_ne ys [] with rfl | hys
  · exact .inl rfl
  · obtain ⟨a, ha, hzero⟩ := zeroDigest_of_merkleRoot_eq_nil hys hroot.symm
    exact .inr (.inr ⟨a, List.mem_append_right _ ha, hzero⟩)
  · obtain ⟨a, ha, hzero⟩ := zeroDigest_of_merkleRoot_eq_nil hxs hroot
    exact .inr (.inr ⟨a, List.mem_append_left _ ha, hzero⟩)
  · exact (elements_eq_or_collision_of_ne_nil hxs hys hroot).imp_right .inl

/-- Three elements, listed and put together from the end. -/
theorem elements_eq_or_exhibit_of_three :
    let xs : List Bytes := [[1], [], [2, 3]]
    let ys : List Bytes := [[2, 3], [], [1]].reverse
    xs = ys ∨ Collision (hashedElements xs) (hashedElements ys) ∨
      ZeroDigest (hashedElements xs ++ hashedElements ys) :=
  elements_eq_or_exhibit_of_merkleRoot_eq rfl

end SignerHost
