import SignerHost.Merkle.Nodes
import SignerHost.Proofs.Merkle.Tree

/-!
# Trees of linked nodes

A tree of linked nodes is told by the places of its nodes.  The way up from a leaf follows the
parents, so it depends on links that nothing on the way down looks at.

* `Memory.Holds` says that the nodes at some places are a tree.  It is about the nodes at these
  places only, and a tree goes below another node when its root gets another parent.
* `Holds.siblings_of_mem` and `Holds.children_of_mem` say that the links of the children and those
  of the parents agree, as long as no place is used for two nodes.
* `Holds.loops_proof` says that the way up from a leaf ends, and gives its proof in the tree.
-/

namespace SignerHost

open PowerOfTwo

/-- The places of the nodes of a tree. -/
inductive NodeTree
  | leaf (id : NodeId)
  | join (id : NodeId) (left right : NodeTree)

namespace NodeTree

def root : NodeTree → NodeId
  | leaf id => id
  | join id _ _ => id

/-- All places, each before those below it. -/
def ids : NodeTree → List NodeId
  | leaf id => [id]
  | join id left right => id :: (left.ids ++ right.ids)

/-- The places of the leaves from left to right. -/
def leaves : NodeTree → List NodeId
  | leaf id => [id]
  | join _ left right => left.leaves ++ right.leaves

theorem root_mem (t : NodeTree) : t.root ∈ t.ids := by
  cases t <;> simp [root, ids]

section Join

variable {id place : NodeId} {l r : NodeTree}

theorem mem_join : place ∈ (join id l r).ids ↔ place = id ∨ place ∈ l.ids ∨ place ∈ r.ids := by
  rw [ids, List.mem_cons, List.mem_append]

theorem mem_join_left (h : place ∈ l.ids) : place ∈ (join id l r).ids :=
  mem_join.mpr (.inr (.inl h))

theorem mem_join_right (h : place ∈ r.ids) : place ∈ (join id l r).ids :=
  mem_join.mpr (.inr (.inr h))

end Join

end NodeTree

namespace Memory

variable {m m' : Memory} {parent : Option NodeId} {places : NodeTree} {tree : MerkleTree}

/-- The nodes at the places are the tree, below a node or as a tree of its own. -/
inductive Holds (m : Memory) : Option NodeId → NodeTree → MerkleTree → Prop
  | leaf {parent : Option NodeId} {id : NodeId} {value : Bytes}
      (hnode : m.node id = { left := none, right := none, parent, value }) :
      Holds m parent (.leaf id) (.leaf value)
  | join {parent : Option NodeId} {id : NodeId} {l r : NodeTree} {left right : MerkleTree}
      {value : Bytes}
      (hnode : m.node id = { left := some l.root, right := some r.root, parent, value })
      (hleft : Holds m (some id) l left) (hright : Holds m (some id) r right) :
      Holds m parent (.join id l r) (.node value left right)

namespace Holds

theorem parent_root (h : m.Holds parent places tree) : (m.node places.root).parent = parent := by
  cases h with
  | leaf hnode => rw [NodeTree.root, hnode]
  | join hnode _ _ => rw [NodeTree.root, hnode]

theorem value_root (h : m.Holds parent places tree) :
    (m.node places.root).value = tree.root := by
  cases h with
  | leaf hnode => rw [NodeTree.root, hnode, MerkleTree.root]
  | join hnode _ _ => rw [NodeTree.root, hnode, MerkleTree.root]

theorem length_leaves (h : m.Holds parent places tree) : places.leaves.length = tree.size := by
  induction h with
  | leaf hnode => rfl
  | join hnode _ _ ihLeft ihRight =>
      rw [NodeTree.leaves, MerkleTree.size, List.length_append, ihLeft, ihRight]

/-- The values at the places of the leaves. -/
theorem values_leaves (h : m.Holds parent places tree) :
    places.leaves.map (fun id => (m.node id).value) = tree.leaves := by
  induction h with
  | leaf hnode => simp [NodeTree.leaves, MerkleTree.leaves, hnode]
  | join hnode _ _ ihLeft ihRight =>
      rw [NodeTree.leaves, MerkleTree.leaves, List.map_append, ihLeft, ihRight]

/-- Only the nodes at the places matter. -/
theorem congr (h : m.Holds parent places tree) (hsame : ∀ id ∈ places.ids, m'.node id = m.node id) :
    m'.Holds parent places tree := by
  induction h with
  | leaf hnode => exact .leaf ((hsame _ (by simp [NodeTree.ids])).trans hnode)
  | join hnode _ _ ihLeft ihRight =>
      refine .join ((hsame _ (by simp [NodeTree.ids])).trans hnode) (ihLeft ?_) (ihRight ?_)
      · exact fun id hid => hsame id (by simp [NodeTree.ids, hid])
      · exact fun id hid => hsame id (by simp [NodeTree.ids, hid])

/-- A tree goes below another node if only its root gets another parent. -/
theorem reparent {other : Option NodeId} (h : m.Holds parent places tree)
    (hnodup : places.ids.Nodup)
    (hroot : m'.node places.root = { m.node places.root with parent := other })
    (hbelow : ∀ id ∈ places.ids, id ≠ places.root → m'.node id = m.node id) :
    m'.Holds other places tree := by
  cases h with
  | leaf hnode =>
      rw [NodeTree.root, hnode] at hroot
      exact .leaf hroot
  | @join _ id l r _ _ _ hnode hleft hright =>
      rw [NodeTree.root, hnode] at hroot
      rw [NodeTree.ids, List.nodup_cons] at hnodup
      -- The root is not among the places below it.
      have hsame : ∀ other ∈ l.ids ++ r.ids, m'.node other = m.node other := by
        intro other hother
        refine hbelow other (List.mem_cons_of_mem _ hother) ?_
        rintro rfl
        exact hnodup.1 hother
      exact .join hroot (hleft.congr fun other hother => hsame other (List.mem_append_left _ hother))
        (hright.congr fun other hother => hsame other (List.mem_append_right _ hother))

end Holds

/-! ## The links of the children and of the parents -/

/-- Two nodes are the children of a third one, and it is the parent of both.  So each of them is
found from the other. -/
structure Siblings (m : Memory) (above l r : NodeId) : Prop where
  ne : l ≠ r
  left : (m.node above).left = some l
  right : (m.node above).right = some r
  parent_left : (m.node l).parent = some above
  parent_right : (m.node r).parent = some above

namespace Siblings

variable {above l r : NodeId}

theorem sibling_left (h : m.Siblings above l r) : m.sibling l = .ok (some r) := by
  rw [sibling, h.parent_left]
  simp only [h.left, if_true, h.right]

theorem sibling_right (h : m.Siblings above l r) : m.sibling r = .ok (some l) := by
  rw [sibling, h.parent_right]
  simp only [h.left, Option.some.injEq, h.ne, if_false, h.right, if_true]

theorem rise_left (h : m.Siblings above l r) :
    m.rise l = .ok (some ((m.node r).value, above)) := by
  rw [rise, h.parent_left]
  simp only [h.sibling_left]

theorem rise_right (h : m.Siblings above l r) :
    m.rise r = .ok (some ((m.node l).value, above)) := by
  rw [rise, h.parent_right]
  simp only [h.sibling_right]

end Siblings

theorem rise_of_no_parent {id : NodeId} (h : (m.node id).parent = none) : m.rise id = .ok none := by
  rw [rise, h]

namespace Holds

/-- The roots of the two parts of a tree are siblings. -/
theorem siblings_root {id : NodeId} {l r : NodeTree} (h : m.Holds parent (.join id l r) tree)
    (hnodup : (NodeTree.join id l r).ids.Nodup) : m.Siblings id l.root r.root := by
  obtain _ | ⟨hnode, hleft, hright⟩ := h
  have hdisjoint := List.disjoint_of_nodup_append (List.nodup_cons.mp hnodup).2
  exact {
    ne := fun heq => hdisjoint l.root_mem (heq ▸ r.root_mem)
    left := by rw [hnode]
    right := by rw [hnode]
    parent_left := hleft.parent_root
    parent_right := hright.parent_root }

/-- Every node of a tree but its root is one of the two children of its parent. -/
theorem siblings_of_mem (h : m.Holds parent places tree) (hnodup : places.ids.Nodup) {id : NodeId}
    (hid : id ∈ places.ids) (hroot : id ≠ places.root) :
    ∃ above ∈ places.ids, ∃ other ∈ places.ids,
      m.Siblings above id other ∨ m.Siblings above other id := by
  -- The root of a part has its sibling in the node above, and any other node within its part.
  induction h with
  | leaf hnode => exact absurd (List.mem_singleton.mp hid) hroot
  | @join _ top l r _ _ _ hnode hleft hright ihLeft ihRight =>
      have hsiblings := (Holds.join hnode hleft hright).siblings_root hnodup
      have hparts := (List.nodup_cons.mp hnodup).2
      have htop := (NodeTree.join top l r).root_mem
      rcases NodeTree.mem_join.mp hid with heq | hid | hid
      · exact absurd heq hroot
      · by_cases heq : id = l.root
        · subst heq
          exact ⟨top, htop, r.root, NodeTree.mem_join_right r.root_mem, .inl hsiblings⟩
        · obtain ⟨above, habove, other, hother, hpair⟩ := ihLeft hparts.of_append_left hid heq
          exact ⟨above, NodeTree.mem_join_left habove, other, NodeTree.mem_join_left hother, hpair⟩
      · by_cases heq : id = r.root
        · subst heq
          exact ⟨top, htop, l.root, NodeTree.mem_join_left l.root_mem, .inr hsiblings⟩
        · obtain ⟨above, habove, other, hother, hpair⟩ := ihRight hparts.of_append_right hid heq
          exact ⟨above, NodeTree.mem_join_right habove, other, NodeTree.mem_join_right hother, hpair⟩

/-- Every node of a tree is a leaf or the parent of two children. -/
theorem children_of_mem (h : m.Holds parent places tree) (hnodup : places.ids.Nodup) {id : NodeId}
    (hid : id ∈ places.ids) :
    (id ∈ places.leaves ∧ (m.node id).left = none ∧ (m.node id).right = none) ∨
      ∃ l ∈ places.ids, ∃ r ∈ places.ids, m.Siblings id l r := by
  -- A leaf has no children, and the children of any other node are the roots of its parts.
  induction h with
  | leaf hnode =>
      obtain rfl := List.mem_singleton.mp hid
      rw [hnode]
      exact .inl ⟨List.mem_singleton_self _, rfl, rfl⟩
  | @join _ top l r _ _ _ hnode hleft hright ihLeft ihRight =>
      have hparts := (List.nodup_cons.mp hnodup).2
      rw [NodeTree.leaves, List.mem_append]
      rcases NodeTree.mem_join.mp hid with rfl | hid | hid
      · exact .inr ⟨_, NodeTree.mem_join_left l.root_mem, _, NodeTree.mem_join_right r.root_mem,
          (Holds.join hnode hleft hright).siblings_root hnodup⟩
      · rcases ihLeft hparts.of_append_left hid with ⟨hleaf, hnone⟩ | ⟨x, hx, y, hy, hpair⟩
        · exact .inl ⟨.inl hleaf, hnone⟩
        · exact .inr ⟨x, NodeTree.mem_join_left hx, y, NodeTree.mem_join_left hy, hpair⟩
      · rcases ihRight hparts.of_append_right hid with ⟨hleaf, hnone⟩ | ⟨x, hx, y, hy, hpair⟩
        · exact .inl ⟨.inr hleaf, hnone⟩
        · exact .inr ⟨x, NodeTree.mem_join_right hx, y, NodeTree.mem_join_right hy, hpair⟩

/-- Only the root of a tree is without a sibling, and no node is told that it is no child of its
parent. -/
theorem sibling_eq_error (h : m.Holds none places tree) (hnodup : places.ids.Nodup) {id : NodeId}
    (hid : id ∈ places.ids) {failure : Failure} :
    m.sibling id = .error failure ↔ id = places.root ∧ failure = .bounds .noSibling := by
  by_cases hroot : id = places.root
  · subst hroot
    rw [sibling, h.parent_root]
    simp [eq_comm]
  · obtain ⟨above, -, other, -, hpair⟩ := h.siblings_of_mem hnodup hid hroot
    have hsibling : m.sibling id = .ok (some other) :=
      hpair.elim Siblings.sibling_left Siblings.sibling_right
    simp [hsibling, hroot]

/-- The way up from a leaf leads to the root, past the siblings that belong to its proof, and
goes on from there. -/
theorem loops_leaf (h : m.Holds parent places tree) (hnodup : places.ids.Nodup) {i : Nat}
    {id : NodeId} (hid : places.leaves[i]? = some id) {rest : Except Failure (List Bytes)}
    (hrest : Step.Loops m.rise places.root rest) :
    Step.Loops m.rise id (rest.map (tree.proof i ++ ·)) := by
  -- The sibling of the root of a part comes behind the proof in this part.
  have hmap (front : List Bytes) (last : Bytes) (rest : Except Failure (List Bytes)) :
      rest.map ((front ++ [last]) ++ ·) = (rest.map (last :: ·)).map (front ++ ·) := by
    cases rest <;> simp [Except.map]
  induction h generalizing i rest with
  | @leaf _ leaf _ hnode =>
      obtain rfl : leaf = id := by
        rw [NodeTree.leaves, List.getElem?_singleton] at hid
        split at hid
        · exact Option.some.inj hid
        · cases hid
      have hnil : rest.map ([] ++ ·) = rest := by cases rest <;> rfl
      rw [MerkleTree.proof, hnil]
      · exact hrest
      · rintro _ _ _ ⟨⟩
  | @join _ top l r _ _ _ hnode hleft hright ihLeft ihRight =>
      have hsiblings := (Holds.join hnode hleft hright).siblings_root hnodup
      have hparts := (List.nodup_cons.mp hnodup).2
      rw [NodeTree.leaves] at hid
      rw [MerkleTree.proof, ← hleft.length_leaves, ← hleft.value_root, ← hright.value_root]
      by_cases hside : i < l.leaves.length
      · rw [List.getElem?_append_left hside] at hid
        rw [if_pos hside, hmap]
        exact ihLeft hparts.of_append_left hid (.turned hsiblings.rise_left hrest)
      · rw [List.getElem?_append_right (by omega)] at hid
        rw [if_neg hside, hmap]
        exact ihRight hparts.of_append_right hid (.turned hsiblings.rise_right hrest)

/-- In a tree of its own it ends at the root. -/
theorem loops_proof (h : m.Holds none places tree) (hnodup : places.ids.Nodup) {i : Nat} {id : NodeId}
    (hid : places.leaves[i]? = some id) : Step.Loops m.rise id (.ok (tree.proof i)) := by
  have hend : Step.Loops m.rise places.root (.ok []) := .ended (rise_of_no_parent h.parent_root)
  simpa [Except.map] using h.loops_leaf hnodup hid hend

end Holds
/-- The links of the nodes at some places agree: each node is a leaf or the parent of its
children, and each but the root is one of the children of its parent. -/
structure LinksAgree (m : Memory) (places : NodeTree) : Prop where
  root : (m.node places.root).parent = none
  down : ∀ id ∈ places.ids,
    (id ∈ places.leaves ∧ (m.node id).left = none ∧ (m.node id).right = none) ∨
      ∃ l ∈ places.ids, ∃ r ∈ places.ids, m.Siblings id l r
  up : ∀ id ∈ places.ids, id ≠ places.root →
    ∃ above ∈ places.ids, ∃ other ∈ places.ids,
      m.Siblings above id other ∨ m.Siblings above other id

theorem Holds.linksAgree (h : m.Holds none places tree) (hnodup : places.ids.Nodup) :
    m.LinksAgree places where
  root := h.parent_root
  down _ := h.children_of_mem hnodup
  up _ := h.siblings_of_mem hnodup

end Memory
end SignerHost
