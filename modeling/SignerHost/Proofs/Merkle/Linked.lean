import SignerHost.Proofs.Merkle.Linking

/-!
# The committed list in linked nodes

The leaves are allocated one after the other and then linked, which gives the tree that the list is
committed to, as nodes.

* `exists_ofLeaves` and `ofLeaves_of_not_hashable` say which lists are linked, and what their nodes
  are.
* `ofLeaves_agrees` says that for every list the nodes give what the tree gives.
* `linked_of_digests` says that the links of the nodes over digests agree, that the way up from
  every leaf ends, and how long it is.
-/

namespace SignerHost

open PowerOfTwo Step

/-! ## Allocating the leaves -/

namespace Linking

/-- Leaves that are allocated one after the other lie at the next places, and what was in memory is
still there. -/
theorem run_allocate_leaves (hashes : List Bytes) (m : Memory) :
    ∃ m', (hashes.mapM fun value => allocate (.ofLeaf value)).run m =
        .ok (List.range' m.next hashes.length) m' ∧
      m'.next = m.next + hashes.length ∧ (∀ id < m.next, m'.node id = m.node id) ∧
      ∀ cell ∈ (List.range' m.next hashes.length).zip hashes, m'.node cell.1 = .ofLeaf cell.2 := by
  -- Each leaf takes the next place, and those behind it leave it alone.
  induction hashes generalizing m with
  | nil => exact ⟨m, rfl, rfl, fun _ _ => rfl, fun _ hcell => by simp at hcell⟩
  | cons value hashes ih =>
      obtain ⟨m', hrun, hnext, hold, hnode⟩ :=
        ih { m.write m.next (.ofLeaf value) with next := m.next + 1 }
      rw [List.mapM_cons, run_bind_of_ok (run_allocate _ m), run_bind_of_ok hrun]
      refine ⟨m', rfl, ?_, fun id hid => ?_, fun cell hcell => ?_⟩
      · rw [hnext, List.length_cons, Nat.add_assoc, Nat.add_comm 1]
      · rw [hold id (hid.trans (Nat.lt_succ_self _))]
        exact if_neg hid.ne
      · rw [List.length_cons, List.range'_succ, List.zip_cons_cons, List.mem_cons] at hcell
        rcases hcell with rfl | hcell
        · rw [hold _ (Nat.lt_succ_self _)]
          exact if_pos rfl
        · exact hnode cell hcell

end Linking

/-! ## The whole list -/

namespace Linked

variable {hashes : List Bytes} {t : Linked} {places : NodeTree}

/-- The nodes of a list are the tree over it, at the places of its leaves and at others.  The
root and the depth are those of the tree, too. -/
structure Represents (t : Linked) (hashes : List Bytes) (places : NodeTree) : Prop where
  root : t.root? = some places.root
  depth : t.depth? = some (ceilLog hashes.length)
  holds : t.memory.Holds none places (.build hashes)
  leaves : places.leaves = t.leaves
  nodup : places.ids.Nodup

/-- What comes of proving the leaf at a position: that of the way up from it, if it is there. -/
def Proves (t : Linked) (i : Int) (outcome : Except Failure (List Bytes)) : Prop :=
  match t.leaf i with
  | .ok id => Loops t.memory.rise id outcome
  | .error failure => outcome = .error failure

/-- A list is linked by making the tree over its leaves, which have been allocated before. -/
theorem run_link (hne : hashes ≠ []) :
    ∃ cells m, cells ≠ [] ∧ cells.map Prod.snd = hashes ∧ Linking.Ready cells m ∧
      (link hashes).run .empty =
        ((fun root => (cells.map Prod.fst, some root)) <$>
          Linking.makeTree ([] ++ cells.map Prod.fst ++ []) ([] : List NodeId).length
            cells.length).run m := by
  obtain ⟨m, hrun, hnext, -, hnode⟩ := Linking.run_allocate_leaves hashes .empty
  -- The leaves stand at the first places, one behind the other, so no place is used twice.
  have hids : ((List.range' 0 hashes.length).zip hashes).map Prod.fst =
      List.range' 0 hashes.length := List.map_fst_zip (by simp)
  have hleaves : List.range' 0 hashes.length ≠ [] := by
    simpa [List.range'_eq_nil_iff] using hne
  refine ⟨(List.range' 0 hashes.length).zip hashes, m, ?_, List.map_snd_zip (by simp),
    ⟨?_, fun id hid => ?_, hnode⟩, ?_⟩
  · intro hnil
    rw [hnil] at hids
    exact hleaves hids.symm
  · rw [hids]
    exact List.nodup_range'
  · rw [hids, List.mem_range'_1] at hid
    rw [hnext]
    exact hid.2
  · rw [link, run_bind_of_ok hrun, hids]
    simp only [Memory.empty, if_neg hleaves, List.length_range', List.length_zip, Nat.min_self,
      List.nil_append, List.append_nil, List.length_nil]
    rfl

theorem ofLeaves_nil :
    ofLeaves [] = .ok { memory := .empty, leaves := [], root? := none, depth? := none } := rfl

/-- A list that can be hashed is linked. -/
theorem exists_ofLeaves (hne : hashes ≠ []) (h : Hashable hashes) :
    ∃ t places, ofLeaves hashes = .ok t ∧ t.Represents hashes places := by
  obtain ⟨cells, m, hcells, rfl, hready, hlink⟩ := run_link hne
  obtain ⟨places, m', hmake, hlinks⟩ := Linking.run_makeTree [] [] hcells hready h
  rw [run_map, hmake] at hlink
  refine ⟨_, places, by rw [ofLeaves, hlink], rfl, ?_, hlinks.holds, hlinks.leaves, hlinks.nodup⟩
  simp

/-- Any other list is refused. -/
theorem ofLeaves_of_not_hashable (h : ¬ Hashable hashes) :
    ofLeaves hashes = .error (.malformed .digestLength) := by
  have hne : hashes ≠ [] := by
    rintro rfl
    exact h fun htwo => absurd htwo (by simp)
  obtain ⟨cells, m, -, rfl, hready, hlink⟩ := run_link hne
  obtain ⟨m', hmake⟩ := Linking.run_makeTree_of_not_hashable [] [] hready h
  rw [run_map, hmake] at hlink
  rw [ofLeaves, hlink]

namespace Represents

theorem length_leaves (h : t.Represents hashes places) : t.leaves.length = hashes.length := by
  rw [← h.leaves, h.holds.length_leaves, MerkleTree.size_build]

/-- The nodes at the places of the leaves hold the leaf hashes. -/
theorem values_leaves (h : t.Represents hashes places) :
    t.leaves.map (fun id => (t.memory.node id).value) = hashes := by
  rw [← h.leaves, h.holds.values_leaves, MerkleTree.leaves_build]

theorem root_eq (h : t.Represents hashes places) :
    t.root = (MerkleTree.build hashes).root := by
  rw [Linked.root, h.root]
  exact h.holds.value_root

/-- Following the parents gives the proof of every leaf, and no other position has one.  The
positions that are there may be counted from either end. -/
theorem proves_iff (h : t.Represents hashes places) (i : Int) (outcome : Except Failure (List Bytes)) :
    t.Proves i outcome ↔ outcome = (MerkleList.ofLeaves hashes).prove i := by
  have hsize : (MerkleList.ofLeaves hashes).size = hashes.length := rfl
  rw [Proves, leaf, MerkleList.prove, h.length_leaves, hsize]
  cases hplace : position? hashes.length i with
  | none => rfl
  | some place =>
      obtain ⟨id, hid⟩ : ∃ id, places.leaves[place]? = some id := by
        rw [← Option.isSome_iff_exists, isSome_getElem?, h.leaves, h.length_leaves]
        exact lt_of_position? hplace
      simp only [Option.bind_some, ← h.leaves, hid]
      exact (h.holds.loops_proof h.nodup hid).iff_eq

end Represents

/-- The nodes and the tree over the same leaf hashes are built for the same lists, have the same
leaves, the same root and the same depth, and give the same proofs. -/
theorem ofLeaves_agrees (hashes : List Bytes) :
    (∀ failure, ofLeaves hashes = .error failure ↔ MerkleList.ofLeaves? hashes = .error failure) ∧
      ∀ list, MerkleList.ofLeaves? hashes = .ok list →
        ∃ t, ofLeaves hashes = .ok t ∧
          t.leaves.map (fun id => (t.memory.node id).value) = list.leaves ∧
          t.root = list.root ∧ t.depth? = list.depth? ∧
          ∀ i outcome, t.Proves i outcome ↔ outcome = list.prove i := by
  -- Only the lengths of the leaves decide whether there is a tree, and both ways fail alike.
  by_cases h : Hashable hashes
  · rw [h.ofLeaves?_eq]
    by_cases hne : hashes = []
    · subst hne
      refine ⟨by simp [ofLeaves_nil], fun list hlist => ⟨_, ofLeaves_nil, ?_⟩⟩
      cases hlist
      have hroot : (MerkleList.ofLeaves []).root = emptyRoot := by
        rw [MerkleList.root, MerkleList.ofLeaves, MerkleTree.build_nil, MerkleTree.root]
      refine ⟨rfl, hroot.symm, rfl, fun i outcome => ?_⟩
      have hplace : position? 0 i = none := by
        rw [Option.eq_none_iff_forall_ne_some]
        exact fun place hplace => absurd (lt_of_position? hplace) (Nat.not_lt_zero _)
      have hsize : (MerkleList.ofLeaves []).size = 0 := rfl
      rw [Proves, leaf, MerkleList.prove, hsize, List.length_nil, hplace]
      rfl
    · obtain ⟨t, places, ht, hrepresents⟩ := exists_ofLeaves hne h
      refine ⟨by simp [ht], fun list hlist => ⟨t, ht, ?_⟩⟩
      cases hlist
      refine ⟨hrepresents.values_leaves, hrepresents.root_eq, ?_, hrepresents.proves_iff⟩
      rw [hrepresents.depth]
      exact (if_neg hne).symm
  · rw [ofLeaves_of_not_hashable h, Hashable.ofLeaves?_eq_error h]
    exact ⟨fun _ => by simp, fun _ hlist => by cases hlist⟩

/-- Digests are linked to a tree in which every leaf is met once, in order, and the links agree.  So
the way up from every leaf ends; its length is at most the depth, and is the depth on the left. -/
theorem linked_of_digests (hne : hashes ≠ []) (hdigests : ∀ value ∈ hashes, value.length = 32) :
    ∃ t places, ofLeaves hashes = .ok t ∧ t.Represents hashes places ∧
      t.memory.LinksAgree places ∧
      (∀ id ∈ places.ids, ∀ failure,
        t.memory.sibling id = .error failure ↔ id = places.root ∧ failure = .bounds .noSibling) ∧
      ∀ i < hashes.length, ∃ proof, (∀ outcome, t.Proves i outcome ↔ outcome = .ok proof) ∧
        proof = (MerkleTree.build hashes).proof i ∧
        proof.length ≤ ceilLog hashes.length ∧
        (2 ≤ hashes.length → i < below hashes.length → proof.length = ceilLog hashes.length) ∧
        ∀ sibling ∈ proof, sibling.length = 32 := by
  obtain ⟨t, places, ht, hrepresents⟩ := exists_ofLeaves hne (.of_digests hdigests)
  have hholds := hrepresents.holds
  have hnodup := hrepresents.nodup
  refine ⟨t, places, ht, hrepresents, hholds.linksAgree hnodup,
    fun id hid failure => hholds.sibling_eq_error hnodup hid, fun i hi => ?_⟩
  have hlength := MerkleTree.length_proof hi
  refine ⟨_, fun outcome => ?_, rfl, ?_, fun htwo hleft => ?_, MerkleTree.length_of_mem_proof hi hdigests⟩
  · rw [hrepresents.proves_iff, MerkleList.prove_ofNat hi]
    rfl
  · rw [hlength]
    exact length_merklePath_le_ceilLog _ _
  · rw [hlength]
    exact length_merklePath_of_lt_below htwo hleft

/-- Of three digests the first has a proof of the full length, and the third a shorter one. -/
theorem linked_of_digests_of_three :
    let hashes := [emptyRoot, emptyRoot, emptyRoot]
    ∃ t places, ofLeaves hashes = .ok t ∧ t.memory.LinksAgree places ∧ t.depth? = some 2 ∧
      (∃ first, t.Proves 0 (.ok first) ∧ first.length = 2) ∧
      ∃ third, t.Proves 2 (.ok third) ∧ third.length = 1 := by
  intro hashes
  have hdigests : ∀ value ∈ hashes, value.length = 32 := by
    intro value hvalue
    simp only [hashes, List.mem_cons, List.not_mem_nil, or_false, or_self] at hvalue
    rw [hvalue]
    rfl
  obtain ⟨t, places, ht, hrepresents, hlinks, -, hproofs⟩ :=
    linked_of_digests (List.cons_ne_nil _ _) hdigests
  have hdepth : ceilLog hashes.length = 2 := ceilLog_eq (k := 1) (by decide) (by decide)
  obtain ⟨first, hfirst, -, -, hfull, -⟩ := hproofs 0 (by decide)
  obtain ⟨third, hthird, hproof, -⟩ := hproofs 2 (by decide)
  refine ⟨t, places, ht, hlinks, hdepth ▸ hrepresents.depth, ⟨first, (hfirst _).mpr rfl, ?_⟩,
    third, (hthird _).mpr rfl, ?_⟩
  · rw [hfull (by decide) (by decide), hdepth]
  · have hpath : merklePath 3 2 = [true] := by
      rw [merklePath_right (by decide) (by decide), merklePath_of_lt_two (by decide)]
    rw [hproof, MerkleTree.length_proof (by decide)]
    exact congrArg List.length hpath

end Linked

end SignerHost
