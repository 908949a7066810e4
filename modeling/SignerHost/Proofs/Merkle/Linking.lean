import SignerHost.Proofs.Merkle.Links
import SignerHost.Proofs.Step

/-!
# Linking the nodes of a list

Making the tree over a part of the leaves is followed along the splits.  What it leads to is told
by `Links`: the tree over their values, at their places and at new ones, and all other nodes are as
before.

* `Links.join` is the step, from the trees over two parts to the one over both.  Its core is
  `Apart.holds_joined`: two trees at different places become one when their roots are joined.
* `run_makeTree` and `run_makeTree_of_not_hashable` are the runs: there is a tree, unless something
  is hashed that is no digest.
-/

namespace SignerHost

open PowerOfTwo Step

namespace Memory

variable {m m' : Memory}

/-! ## Writing nodes -/

/-- The memory after two nodes have been joined. -/
def joined (m : Memory) (left right : NodeId) (value : Bytes) : Memory :=
  let node := { left := some left, right := some right, parent := none, value }
  ({ m.write m.next node with next := m.next + 1 }.adopt left m.next).adopt right m.next

section Joined

variable {left right : NodeId} {value : Bytes}

theorem joined_next : (m.joined left right value).next = m.next + 1 := rfl

theorem joined_root (hleft : left ≠ m.next) (hright : right ≠ m.next) :
    (m.joined left right value).node m.next =
      { left := some left, right := some right, parent := none, value } := by
  simp [joined, adopt, write, hleft.symm, hright.symm]

theorem joined_left (hleft : left ≠ m.next) (hne : left ≠ right) :
    (m.joined left right value).node left = { m.node left with parent := some m.next } := by
  simp [joined, adopt, write, hleft, hne]

theorem joined_right (hright : right ≠ m.next) (hne : left ≠ right) :
    (m.joined left right value).node right = { m.node right with parent := some m.next } := by
  simp [joined, adopt, write, hright, hne.symm]

theorem joined_other {id : NodeId} (hroot : id ≠ m.next) (hleft : id ≠ left) (hright : id ≠ right) :
    (m.joined left right value).node id = m.node id := by
  simp [joined, adopt, write, hroot, hleft, hright]

theorem joined_of_not_mem {l r : NodeTree} {id : NodeId}
    (hid : id ∉ (NodeTree.join m.next l r).ids) :
    (m.joined l.root r.root value).node id = m.node id := by
  simp only [NodeTree.ids, List.mem_cons, List.mem_append, not_or] at hid
  exact joined_other hid.1 (fun heq => hid.2.1 (heq ▸ l.root_mem))
    fun heq => hid.2.2 (heq ▸ r.root_mem)

end Joined

/-- Two trees on different places, all of which are in use.  Nothing that is written for one of
them is seen from the other. -/
structure Apart (m : Memory) (l r : NodeTree) : Prop where
  left : l.ids.Nodup
  right : r.ids.Nodup
  disjoint : ∀ id ∈ l.ids, id ∉ r.ids
  lt_left : ∀ id ∈ l.ids, id < m.next
  lt_right : ∀ id ∈ r.ids, id < m.next

namespace Apart

variable {l r : NodeTree} {left right : MerkleTree} {value : Bytes}

theorem nodup_join (h : m.Apart l r) : (NodeTree.join m.next l r).ids.Nodup := by
  rw [NodeTree.ids, List.nodup_cons, List.mem_append]
  refine ⟨?_, h.left.append h.right h.disjoint⟩
  rintro (hid | hid)
  · exact (h.lt_left _ hid).ne rfl
  · exact (h.lt_right _ hid).ne rfl

/-- Joining their roots makes them one tree. -/
theorem holds_joined (h : m.Apart l r) (hleft : m.Holds none l left) (hright : m.Holds none r right) :
    (m.joined l.root r.root value).Holds none (.join m.next l r) (.node value left right) := by
  have hlroot : l.root ≠ m.next := (h.lt_left _ l.root_mem).ne
  have hrroot : r.root ≠ m.next := (h.lt_right _ r.root_mem).ne
  have hne : l.root ≠ r.root := fun heq => h.disjoint _ l.root_mem (heq ▸ r.root_mem)
  refine .join (joined_root hlroot hrroot) (hleft.reparent h.left (joined_left hlroot hne) ?_)
    (hright.reparent h.right (joined_right hrroot hne) ?_)
  · intro id hid hroot
    exact joined_other (h.lt_left id hid).ne hroot
      fun heq => h.disjoint id hid (heq ▸ r.root_mem)
  · intro id hid hroot
    exact joined_other (h.lt_right id hid).ne
      (fun heq => h.disjoint _ l.root_mem (heq ▸ hid)) hroot

end Apart

end Memory

namespace Linking

variable {m m' : Memory} {left right : NodeId}

theorem run_allocate (node : Node) (m : Memory) :
    (allocate node).run m = .ok m.next { m.write m.next node with next := m.next + 1 } := rfl

theorem run_join (hleft : (m.node left).value.length = 32)
    (hright : (m.node right).value.length = 32) :
    (join left right).run m = .ok m.next
      (m.joined left right (pairHash (m.node left).value (m.node right).value)) := by
  unfold join
  rw [EStateM.run_bind, EStateM.run_get]
  simp only [combine_of_length hleft hright]
  rfl

theorem run_join_of_not_digest
    (h : ¬ ((m.node left).value.length = 32 ∧ (m.node right).value.length = 32)) :
    (join left right).run m = .error (.malformed .digestLength) m := by
  unfold join
  rw [EStateM.run_bind, EStateM.run_get]
  simp only [combine_of_not_digest h]
  rfl

/-! ## Linking the nodes of a list -/

/-- Leaves that are yet to be linked, each with its value.  None of them has a parent yet. -/
structure Ready (cells : List (NodeId × Bytes)) (m : Memory) : Prop where
  nodup : (cells.map Prod.fst).Nodup
  lt : ∀ id ∈ cells.map Prod.fst, id < m.next
  node : ∀ cell ∈ cells, m.node cell.1 = .ofLeaf cell.2

/-- What linking leaves leads to: the tree over their values, on these leaves and on new nodes, and
nothing else is written. -/
structure Links (cells : List (NodeId × Bytes)) (m m' : Memory) (places : NodeTree) : Prop where
  holds : m'.Holds none places (.build (cells.map Prod.snd))
  leaves : places.leaves = cells.map Prod.fst
  nodup : places.ids.Nodup
  place : ∀ id ∈ places.ids, id ∈ cells.map Prod.fst ∨ m.next ≤ id ∧ id < m'.next
  other : ∀ id ∉ places.ids, m'.node id = m.node id
  next : m.next ≤ m'.next

namespace Ready

variable {cells front rest : List (NodeId × Bytes)}

theorem nodup_append (h : Ready (front ++ rest) m) :
    (front.map Prod.fst ++ rest.map Prod.fst).Nodup :=
  List.map_append ▸ h.nodup

theorem of_front (h : Ready (front ++ rest) m) : Ready front m where
  nodup := h.nodup_append.of_append_left
  lt id hid := h.lt id (by simp only [List.map_append, List.mem_append, hid, true_or])
  node cell hcell := h.node cell (List.mem_append_left _ hcell)

/-- The leaves of the first part are no leaves of the second one. -/
theorem not_mem_rest (h : Ready (front ++ rest) m) {id : NodeId}
    (hid : id ∈ front.map Prod.fst) : id ∉ rest.map Prod.fst := fun hrest =>
  List.disjoint_of_nodup_append h.nodup_append hid hrest

theorem lt_of_mem_rest (h : Ready (front ++ rest) m) {id : NodeId}
    (hid : id ∈ rest.map Prod.fst) : id < m.next :=
  h.lt id (by simp only [List.map_append, List.mem_append, hid, or_true])

/-- Linking the first part leaves the second one as it is. -/
theorem of_rest {places : NodeTree} (h : Ready (front ++ rest) m) (hfront : Links front m m' places) :
    Ready rest m' where
  nodup := h.nodup_append.of_append_right
  lt id hid := (h.lt_of_mem_rest hid).trans_le hfront.next
  node cell hcell := by
    have hid : cell.1 ∈ rest.map Prod.fst := List.mem_map_of_mem hcell
    rw [hfront.other cell.1 ?_, h.node cell (List.mem_append_right _ hcell)]
    intro hplace
    rcases hfront.place _ hplace with hmem | ⟨hle, -⟩
    · exact h.not_mem_rest hmem hid
    · exact absurd (h.lt_of_mem_rest hid) hle.not_gt

end Ready

namespace Links

variable {front rest : List (NodeId × Bytes)} {m₁ m₂ : Memory} {l r : NodeTree}

theorem single {cell : NodeId × Bytes} (h : Ready [cell] m) : Links [cell] m m (.leaf cell.1) where
  holds := by
    rw [List.map_singleton, MerkleTree.build_singleton]
    exact .leaf (h.node cell (List.mem_singleton_self _))
  leaves := rfl
  nodup := List.nodup_singleton _
  place id hid := .inl hid
  other _ _ := rfl
  next := le_refl _

/-- Linking the second part leaves the tree over the first one as it is, and uses other places. -/
theorem apart (h : Ready (front ++ rest) m) (hfront : Links front m m₁ l)
    (hrest : Links rest m₁ m₂ r) : m₂.Apart l r where
  left := hfront.nodup
  right := hrest.nodup
  disjoint id hleft hright := by
    rcases hfront.place id hleft with hleaf | ⟨hle, hlt⟩ <;>
      rcases hrest.place id hright with hleaf' | ⟨hle', -⟩
    · exact h.not_mem_rest hleaf hleaf'
    · exact absurd ((h.of_front.lt id hleaf).trans_le hfront.next) hle'.not_gt
    · exact absurd (h.lt_of_mem_rest hleaf') hle.not_gt
    · exact absurd hlt hle'.not_gt
  lt_left id hid := by
    rcases hfront.place id hid with hleaf | ⟨-, hlt⟩
    · exact (h.of_front.lt id hleaf).trans_le (hfront.next.trans hrest.next)
    · exact hlt.trans_le hrest.next
  lt_right id hid := by
    rcases hrest.place id hid with hleaf | ⟨-, hlt⟩
    · exact (h.lt_of_mem_rest hleaf).trans_le (hfront.next.trans hrest.next)
    · exact hlt

theorem holds_front (h : Ready (front ++ rest) m) (hfront : Links front m m₁ l)
    (hrest : Links rest m₁ m₂ r) : m₂.Holds none l (.build (front.map Prod.snd)) :=
  hfront.holds.congr fun id hid => hrest.other id ((apart h hfront hrest).disjoint id hid)

/-- Joining the trees over two parts, which meet at the split point, gives the tree over both.
The parts were linked one after the other, and what was written for one does not touch the other. -/
theorem join (h : Ready (front ++ rest) m) (hfront : Links front m m₁ l)
    (hrest : Links rest m₁ m₂ r) (hfrontNil : front ≠ []) (hrestNil : rest ≠ [])
    (hsplit : front.length = below (front.length + rest.length)) :
    Links (front ++ rest) m
      (m₂.joined l.root r.root (pairHash (m₂.node l.root).value (m₂.node r.root).value))
      (.join m₂.next l r) where
  holds := by
    -- The list is split where the tree of its values is split, so the two trees agree.
    have hbuild : MerkleTree.build ((front ++ rest).map Prod.snd) =
        .join (.build (front.map Prod.snd)) (.build (rest.map Prod.snd)) := by
      rw [List.map_append]
      exact MerkleTree.build_append (by simpa using hfrontNil) (by simpa using hrestNil)
        (by simpa using hsplit)
    have hleft := holds_front h hfront hrest
    rw [hbuild, MerkleTree.join, ← hleft.value_root, ← hrest.holds.value_root]
    exact (apart h hfront hrest).holds_joined hleft hrest.holds
  leaves := by rw [NodeTree.leaves, hfront.leaves, hrest.leaves, List.map_append]
  nodup := (apart h hfront hrest).nodup_join
  place := by
    intro id hid
    simp only [NodeTree.ids, List.mem_cons, List.mem_append] at hid
    rw [List.map_append, List.mem_append, Memory.joined_next]
    -- The new node has the next place, and the others are where they were in the parts.
    rcases hid with rfl | hid | hid
    · exact .inr ⟨hfront.next.trans hrest.next, Nat.lt_succ_self _⟩
    · rcases hfront.place id hid with hleaf | ⟨hle, hlt⟩
      · exact .inl (.inl hleaf)
      · exact .inr ⟨hle, (hlt.trans_le hrest.next).trans (Nat.lt_succ_self _)⟩
    · rcases hrest.place id hid with hleaf | ⟨hle, hlt⟩
      · exact .inl (.inr hleaf)
      · exact .inr ⟨hfront.next.trans hle, hlt.trans (Nat.lt_succ_self _)⟩
  other id hid := by
    rw [Memory.joined_of_not_mem hid]
    simp only [NodeTree.ids, List.mem_cons, List.mem_append, not_or] at hid
    rw [hrest.other id hid.2.2, hfront.other id hid.2.1]
  next := (hfront.next.trans hrest.next).trans (Nat.le_succ _)

end Links

/-! ## Making a tree -/

section MakeTree

variable {cells front rest : List (NodeId × Bytes)} {before after : List NodeId}

theorem makeTree_one (leaf : NodeId) :
    (makeTree (before ++ leaf :: after) before.length 1).run m = .ok leaf m := by
  rw [makeTree, if_pos rfl]
  simp

/-- Of a part that is split, the parts are linked one after the other. -/
theorem makeTree_append (hfront : front ≠ []) (hrest : rest ≠ [])
    (hsplit : front.length = below (front.length + rest.length)) :
    makeTree (before ++ (front ++ rest).map Prod.fst ++ after) before.length
        (front ++ rest).length = (do
      let left ← makeTree (before ++ front.map Prod.fst ++ (rest.map Prod.fst ++ after))
        before.length front.length
      let right ← makeTree (before ++ front.map Prod.fst ++ rest.map Prod.fst ++ after)
        (before ++ front.map Prod.fst).length rest.length
      join left right) := by
  have hfrontPos := List.length_pos_iff.mpr hfront
  have hrestPos := List.length_pos_iff.mpr hrest
  conv_lhs => rw [makeTree, if_neg (by simp only [List.length_append]; omega),
    if_pos (by simp only [List.length_append]; omega)]
  simp only [List.length_append, ← hsplit, Nat.add_sub_cancel_left, List.map_append,
    List.length_map, List.append_assoc]

/-- The nodes of a part of the leaves become the tree over their values, unless something is hashed
that is no digest. -/
theorem run_makeTree (before after : List NodeId) (hne : cells ≠ []) (h : Ready cells m)
    (hhashable : Hashable (cells.map Prod.snd)) :
    ∃ places m', (makeTree (before ++ cells.map Prod.fst ++ after) before.length cells.length).run m =
      .ok places.root m' ∧ Links cells m m' places := by
  induction cells using splitInduction generalizing m before after with
  | nil => exact absurd rfl hne
  | single cell =>
      refine ⟨.leaf cell.1, m, ?_, .single h⟩
      simpa [NodeTree.root] using makeTree_one cell.1
  | append front rest hfront hrest hsplit ihFront ihRest =>
      rw [List.map_append] at hhashable
      obtain ⟨hallFront, hallRest⟩ :=
        hhashable.of_append (by simpa using hfront) (by simpa using hrest)
      obtain ⟨l, m₁, hrunFront, hlinksFront⟩ :=
        ihFront before _ hfront h.of_front (.of_digests hallFront)
      obtain ⟨r, m₂, hrunRest, hlinksRest⟩ :=
        ihRest _ after hrest (h.of_rest hlinksFront) (.of_digests hallRest)
      -- What is hashed are the roots of trees over digests.
      have hleft : (m₂.node l.root).value.length = 32 := by
        rw [(Links.holds_front h hlinksFront hlinksRest).value_root]
        exact MerkleTree.length_root_build hallFront
      have hright : (m₂.node r.root).value.length = 32 := by
        rw [hlinksRest.holds.value_root]
        exact MerkleTree.length_root_build hallRest
      refine ⟨_, _, ?_, Links.join h hlinksFront hlinksRest hfront hrest hsplit⟩
      rw [makeTree_append hfront hrest hsplit, run_bind_of_ok hrunFront, run_bind_of_ok hrunRest]
      exact run_join hleft hright

/-- Otherwise it is refused when it is hashed. -/
theorem run_makeTree_of_not_hashable (before after : List NodeId) (h : Ready cells m)
    (hbad : ¬ Hashable (cells.map Prod.snd)) :
    ∃ m', (makeTree (before ++ cells.map Prod.fst ++ after) before.length cells.length).run m =
      .error (.malformed .digestLength) m' := by
  induction cells using splitInduction generalizing m before after with
  | nil => exact absurd (fun htwo => absurd htwo (by simp)) hbad
  | single cell => exact absurd (fun htwo => absurd htwo (by simp)) hbad
  | append front rest hfront hrest hsplit ihFront ihRest =>
      rw [makeTree_append hfront hrest hsplit]
      by_cases hhashFront : Hashable (front.map Prod.snd)
      · obtain ⟨l, m₁, hrunFront, hlinksFront⟩ :=
          run_makeTree before (rest.map Prod.fst ++ after) hfront h.of_front hhashFront
        rw [run_bind_of_ok hrunFront]
        have hready := h.of_rest hlinksFront
        by_cases hhashRest : Hashable (rest.map Prod.snd)
        · obtain ⟨r, m₂, hrunRest, hlinksRest⟩ :=
            run_makeTree (before ++ front.map Prod.fst) after hrest hready hhashRest
          rw [run_bind_of_ok hrunRest]
          refine ⟨m₂, run_join_of_not_digest fun hroots => hbad ?_⟩
          -- Both parts can be linked, so a root that is no digest is a leaf by itself.
          rw [(Links.holds_front h hlinksFront hlinksRest).value_root,
            hlinksRest.holds.value_root] at hroots
          rw [List.map_append]
          exact .append ((hhashFront.length_root_iff (by simpa using hfront)).mp hroots.1)
            ((hhashRest.length_root_iff (by simpa using hrest)).mp hroots.2)
        · obtain ⟨m₂, hrunRest⟩ := ihRest (before ++ front.map Prod.fst) after hready hhashRest
          exact ⟨m₂, run_bind_of_error hrunRest⟩
      · obtain ⟨m₁, hrunFront⟩ := ihFront before (rest.map Prod.fst ++ after) h.of_front hhashFront
        exact ⟨m₁, run_bind_of_error hrunFront⟩

end MakeTree

end Linking
end SignerHost
