import SignerHost.Proofs.Responder.Grants

/-!
# What the header of an answer says

The first bytes of an answer are lengths and counts, most of them in a single byte.  A device can
only put together what it asked for if each of them is true.

* `Announces` lists the answers with true headers, byte by byte, for each kind of query.
* `Orderly.announces` says that no other answers are given; a length that has no form, or a count
  that is no byte, is refused instead.
* `Announces.read_preimage` and `Orderly.read_elements` pass from the bytes of an answer to what a
  device reads from them.
-/

namespace SignerHost

open Step

namespace Device

/-- What is read from an answer that ends with it. -/
def read? {α : Type} (reader : Reader α) (answer : Bytes) : Option α :=
  match reader answer with
  | .ok a [] => some a
  | _ => none

theorem read?_of_run {α : Type} {reader : Reader α} {answer : Bytes} {a : α}
    (h : reader.run answer = .ok a []) : read? reader answer = some a := by
  unfold read?
  rw [show reader answer = .ok a [] from h]

end Device

namespace Responder

/-- An answer whose header is true of what is known and of what follows.  It is what a device may
rely on before it asks for more. -/
inductive Announces (r : Responder) : Query → Bytes → Prop
  | yield (fragment : Bytes) : Announces r (.yield fragment) []
  /-- The length of the byte string, that of the first part, and this. -/
  | preimage {digest preimage total part : Bytes} {count : UInt8}
      (hknown : r.preimages.lookup digest = some preimage)
      (htotal : CompactSize.Form preimage.length total) (hcount : count.toNat = part.length)
      (hpart : part = preimage.take (preimageRoom preimage.length)) :
      Announces r (.preimage digest) (total ++ count :: part)
  /-- The leaf, the length of its proof, the number of digests that follow, and these. -/
  | leafProof {root : Bytes} {list : MerkleList} {index : Nat} {total count : UInt8}
      {part : List Bytes} (hknown : r.lists.lookup root = some list)
      (hindex : index < list.leaves.length)
      (htotal : total.toNat = (list.tree.proof index).length) (hcount : count.toNat = part.length)
      (hpart : part = (list.tree.proof index).take 6) (hleaf : list.leaves[index].length = 32)
      (hdigests : ∀ e ∈ part, e.length = 32) :
      Announces r (.leafProof root list.size index)
        (list.leaves[index] ++ total :: count :: part.flatten)
  /-- The first position of a leaf in the list. -/
  | leafIndex {root leaf position : Bytes} {list : MerkleList} {index : Nat}
      (hknown : r.lists.lookup root = some list)
      (hfound : list.leaves.findIdx? (· = leaf) = some index)
      (hposition : CompactSize.Form index position) :
      Announces r (.leafIndex root leaf) (1 :: position)
  | noLeaf {root leaf position : Bytes} {list : MerkleList}
      (hknown : r.lists.lookup root = some list) (habsent : leaf ∉ list.leaves)
      (hposition : CompactSize.Form 0 position) :
      Announces r (.leafIndex root leaf) (0 :: position)
  /-- The number of elements, the length of each of them, and these. -/
  | moreElements {count width : UInt8} {part : List Bytes} (hcount : count.toNat = part.length)
      (hwidth : ∀ e ∈ part, e.length = width.toNat) (hpart : part <+: r.queue) :
      Announces r .moreElements (count :: width :: part.flatten)

/-! ## Headers are true -/

section

variable {r after : Responder} {a : Bytes}

theorem announces_preimage {digest : Bytes} (hrun : (answerPreimage digest).run r = .ok a after) :
    r.Announces (.preimage digest) a := by
  rw [run_answerPreimage] at hrun
  cases hknown : r.preimages.lookup digest with
  | none =>
      rw [hknown] at hrun
      cases hrun
  | some preimage =>
      simp only [hknown] at hrun
      split_ifs at hrun with hlength
      cases hrun
      refine .preimage hknown (CompactSize.form_encode hlength) ?_ rfl
      rw [length_take_preimageRoom]
      exact UInt8.toNat_ofNat_of_lt' (preimageRoom_lt preimage.length)

theorem announces_leafIndex {root leaf : Bytes}
    (hrun : (answerLeafIndex root leaf).run r = .ok a after) :
    r.Announces (.leafIndex root leaf) a := by
  rw [run_answerLeafIndex] at hrun
  cases hknown : r.lists.lookup root with
  | none =>
      rw [hknown] at hrun
      cases hrun
  | some list =>
      cases hfound : list.leaves.findIdx? (· = leaf) with
      | none =>
          simp only [hknown, hfound] at hrun
          cases hrun
          refine .noLeaf hknown ?_ (CompactSize.form_encode (by decide))
          intro hmem
          have hall := List.findIdx?_eq_none_iff.mp hfound leaf hmem
          simp at hall
      | some index =>
          simp only [hknown, hfound] at hrun
          split_ifs at hrun with hindex
          cases hrun
          exact .leafIndex hknown hfound (CompactSize.form_encode hindex)

/-- A proof starts with six digests, if it has that many. -/
theorem take_proofRoom (proof : List Bytes) :
    proof.take (proofRoom proof.length) = proof.take 6 := by
  have hroom : proofRoom proof.length = min 6 proof.length := rfl
  rw [hroom, ← List.take_eq_take_min]

namespace Orderly

variable (h : r.Orderly)

include h

/-- Elements of one length that are queued have one byte or 32. -/
theorem width_bounds {width : Nat} (hne : r.queue ≠ []) (heven : ∀ e ∈ r.queue, e.length = width) :
    0 < width ∧ width ≤ 32 := by
  obtain ⟨first, rest, hqueue⟩ := List.exists_cons_of_ne_nil hne
  have hfirst : first ∈ r.queue := by simp [hqueue]
  have hwidth := h.queued first hfirst
  rw [heven first hfirst] at hwidth
  omega

theorem announces_leafProof {root : Bytes} {size index : Nat}
    (hrun : (answerLeafProof root size index).run r = .ok a after) :
    r.Announces (.leafProof root size index) a := by
  rw [run_answerLeafProof] at hrun
  cases hknown : r.lists.lookup root with
  | none =>
      rw [hknown] at hrun
      cases hrun
  | some list =>
      simp only [hknown] at hrun
      split_ifs at hrun with hplace hidle hlength
      cases hrun
      obtain ⟨hindex, rfl⟩ := hplace
      obtain ⟨xs, rfl⟩ := h.built root list hknown
      have hdigests := MerkleTree.length_of_mem_proof hindex length_of_mem_map_elementHash
      refine .leafProof hknown hindex (UInt8.toNat_ofNat_of_lt' hlength) ?_ (take_proofRoom _)
        (length_of_mem_map_elementHash _ (List.getElem_mem hindex))
        fun e he => hdigests e (List.mem_of_mem_take he)
      rw [length_take_proofRoom]
      exact UInt8.toNat_ofNat_of_lt' (proofRoom_lt _)

theorem announces_moreElements (hrun : answerMoreElements.run r = .ok a after) :
    r.Announces .moreElements a := by
  cases h.grants_moreElements hrun with
  | @moreElements width hne heven =>
      have hwidth := h.width_bounds hne heven
      have hroom := elementsRoom_lt width r.queue.length
      refine .moreElements ?_ (fun e he => ?_) (List.take_prefix _ _)
      · apply UInt8.toNat_ofNat_of_lt'
        exact (List.length_take_le _ _).trans_lt hroom
      · rw [heven e (List.mem_of_mem_take he)]
        exact (UInt8.toNat_ofNat_of_lt' (show width < 256 by omega)).symm

/-- Every query that is answered gets an answer with a true header. -/
theorem announces {q : Query} (hrun : (answer q).run r = .ok a after) : r.Announces q a := by
  cases q with
  | yield fragment =>
      cases hrun
      exact .yield fragment
  | preimage digest => exact announces_preimage hrun
  | leafProof root size index => exact h.announces_leafProof hrun
  | leafIndex root leaf => exact announces_leafIndex hrun
  | moreElements => exact h.announces_moreElements hrun

theorem announces_execute {request : Bytes} {q : Query} (hwritten : Query.Written q request)
    (hrun : (Responder.execute request).run r = .ok a after) : r.Announces q a := by
  obtain ⟨q', hparse, hanswer⟩ := run_execute_eq_ok.mp hrun
  obtain rfl : q = q' := Except.ok.inj ((Query.parse_eq_ok.mpr hwritten).symm.trans hparse)
  exact h.announces hanswer

end Orderly

/-! ## What a device reads -/

/-- From the answer that starts a byte string a device reads its first bytes. -/
theorem Announces.read_preimage {digest : Bytes} (h : r.Announces (.preimage digest) a) :
    ∃ preimage, r.preimages.lookup digest = some preimage ∧
      Device.read? Device.readPreimageAnswer a =
        some (preimage.length, preimage.take (preimageRoom preimage.length)) := by
  cases h with
  | @preimage digest preimage total part count hknown htotal hcount hpart =>
      subst hpart
      have hlength := hcount ▸ count.toNat_lt
      have hread : (Field.bytes count.toNat).run (preimage.take (preimageRoom preimage.length)) =
          .ok (preimage.take (preimageRoom preimage.length)) [] :=
        Field.run_bytes_to_end (by omega) hcount.symm
      refine ⟨preimage, hknown, Device.read?_of_run ?_⟩
      rw [Device.readPreimageAnswer,
        run_bind_of_ok (Field.run_compactSize_eq_ok.mpr ⟨total, htotal, rfl⟩),
        run_bind_of_ok (Field.run_uint_cons _ _), run_bind_of_ok hread, EStateM.run_pure]

/-- From an answer with more elements a device reads elements from the front of the queue. -/
theorem Orderly.read_elements (h : r.Orderly) (hgrants : r.Grants .moreElements a after) :
    ∃ width part, Device.read? Device.readElementsAnswer a = some (width, part) ∧
      part ++ after.queue = r.queue := by
  cases hgrants with
  | @moreElements width hne heven =>
      refine ⟨width, _, Device.read?_of_run (Device.run_readElementsAnswer
        (fun e he => heven e (List.mem_of_mem_take he)) ?_ ?_), List.take_append_drop _ _⟩
      · have hwidth := h.width_bounds hne heven
        omega
      · exact (List.length_take_le _ _).trans_lt (elementsRoom_lt _ _)

end

end Responder
end SignerHost
