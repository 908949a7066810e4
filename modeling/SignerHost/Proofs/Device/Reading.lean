import SignerHost.Proofs.Device.Program
import SignerHost.Proofs.Merkle.Binding

/-!
# Reading works against a responder that knows

A responder that knows a byte string or a list answers a device, from an empty queue, so that the
device puts together exactly what is known, and the queue is empty again afterwards.

* Each form of an answer is read back to its last byte.
* `run_gather` empties an even queue, whatever its length is; the induction is on the length.
* `run_readPreimage` and `run_readLeaf` are the two readings of a device.
-/

namespace SignerHost
namespace Device

open Step Responder

/-! ## Answers are read back -/

theorem run_parse_of_run {α : Type} {reader : Reader α} {answer : Bytes} {a : α}
    (h : reader.run answer = .ok a []) (r : Responder) :
    (parse reader answer).run r = .ok a r := by
  unfold parse
  rw [show reader answer = .ok a [] from h]
  rfl

theorem run_many_bytes {width : Nat} {elements : List Bytes} (rest : Bytes)
    (heven : ∀ e ∈ elements, e.length = width) (hwidth : width < 256) :
    (Wire.many (Field.bytes width) elements.length).run (elements.flatten ++ rest) =
      .ok elements rest := by
  induction elements with
  | nil => rfl
  | cons first others ih =>
      have hfirst : (Field.bytes width).run (first ++ (others.flatten ++ rest)) =
          .ok first (others.flatten ++ rest) :=
        Field.run_bytes_append _ (by omega) (heven first List.mem_cons_self)
      have hothers := ih fun e he => heven e (List.mem_cons_of_mem _ he)
      rw [List.flatten_cons, List.append_assoc, List.length_cons, Wire.many,
        run_bind_of_ok hfirst, run_bind_of_ok hothers, EStateM.run_pure]

theorem run_many_bytes_to_end {width : Nat} {elements : List Bytes}
    (heven : ∀ e ∈ elements, e.length = width) (hwidth : width < 256) :
    (Wire.many (Field.bytes width) elements.length).run elements.flatten = .ok elements [] := by
  have h := run_many_bytes [] heven hwidth
  rwa [List.append_nil] at h

theorem run_readPreimageAnswer {preimage : Bytes} (h : preimage.length < 2 ^ 64) :
    readPreimageAnswer.run (preimageAnswer preimage) =
      .ok (preimage.length, preimage.take (preimageRoom preimage.length)) [] := by
  have hcount := UInt8.toNat_ofNat_of_lt' (preimageRoom_lt preimage.length)
  have hroom := preimageRoom_lt preimage.length
  have hpart : (Field.bytes (preimageRoom preimage.length)).run
      (preimage.take (preimageRoom preimage.length)) =
        .ok (preimage.take (preimageRoom preimage.length)) [] :=
    Field.run_bytes_to_end (by omega) (length_take_preimageRoom preimage)
  rw [readPreimageAnswer, preimageAnswer, run_bind_of_ok (Field.run_compactSize_encode _ h),
    run_bind_of_ok (Field.run_uint_cons _ _), hcount, run_bind_of_ok hpart, EStateM.run_pure]

theorem run_readLeafAnswer {leaf : Bytes} {proof : List Bytes} (hleaf : leaf.length = 32)
    (hproof : ∀ sibling ∈ proof, sibling.length = 32) (hlength : proof.length < 256) :
    readLeafAnswer.run (leafProofAnswer leaf proof) =
      .ok (leaf, proof.length, proof.take (proofRoom proof.length)) [] := by
  have hroom := UInt8.toNat_ofNat_of_lt' (proofRoom_lt proof.length)
  have hfirst : ∀ rest, (Field.bytes 32).run (leaf ++ rest) = .ok leaf rest :=
    fun rest => Field.run_bytes_append rest (by decide) hleaf
  have heven : ∀ e ∈ proof.take (proofRoom proof.length), e.length = 32 :=
    fun e he => hproof e (List.mem_of_mem_take he)
  have hpart : (Wire.many (Field.bytes 32) (proof.take (proofRoom proof.length)).length).run
      (proof.take (proofRoom proof.length)).flatten =
        .ok (proof.take (proofRoom proof.length)) [] := run_many_bytes_to_end heven (by decide)
  rw [length_take_proofRoom] at hpart
  rw [readLeafAnswer, leafProofAnswer, run_bind_of_ok (hfirst _),
    run_bind_of_ok (Field.run_uint_cons _ _), run_bind_of_ok (Field.run_uint_cons _ _), hroom,
    UInt8.toNat_ofNat_of_lt' hlength, run_bind_of_ok hpart, EStateM.run_pure]

theorem run_readElementsAnswer {width : Nat} {elements : List Bytes}
    (heven : ∀ e ∈ elements, e.length = width) (hwidth : width < 256)
    (hlength : elements.length < 256) :
    readElementsAnswer.run (elementsAnswer width elements) = .ok (width, elements) [] := by
  rw [readElementsAnswer, elementsAnswer, run_bind_of_ok (Field.run_uint_cons _ _),
    run_bind_of_ok (Field.run_uint_cons _ _), UInt8.toNat_ofNat_of_lt' hlength,
    UInt8.toNat_ofNat_of_lt' hwidth, run_bind_of_ok (run_many_bytes_to_end heven hwidth),
    EStateM.run_pure]

theorem run_readIndexAnswer {found : Option Nat} (h : ∀ i ∈ found, i < 2 ^ 64) :
    readIndexAnswer.run (leafIndexAnswer found) = .ok found [] := by
  cases found with
  | none =>
      have hzero := Field.run_compactSize_to_end (n := 0) (by decide)
      rw [readIndexAnswer, leafIndexAnswer, run_bind_of_ok (Field.run_uint_cons _ _),
        run_bind_of_ok hzero]
      rfl
  | some index =>
      rw [readIndexAnswer, leafIndexAnswer, run_bind_of_ok (Field.run_uint_cons _ _),
        run_bind_of_ok (Field.run_compactSize_to_end (h index rfl))]
      rfl

/-! ## Asking -/

theorem run_ask_of_ok {q : Query} {r after : Responder} {bs : Bytes} (hform : q.HasForm)
    (h : (answer q).run r = .ok bs after) : (ask q).run r = .ok bs after := by
  have hexecute : (execute q.toBytes).run r = .ok bs after := by
    rw [run_execute_toBytes hform, h]
  show ask q r = _
  unfold ask
  rw [if_pos hform, show execute q.toBytes r = .ok bs after from hexecute]

/-! ## Pending elements -/

/-- A device that gathers as many elements as are queued gets all of them in order.  The
induction is on the number of the elements, of which every answer takes some. -/
theorem run_gather {width : Nat} (hpos : 0 < width) (hwidth : width ≤ 253) (r : Responder)
    (heven : ∀ e ∈ r.queue, e.length = width) :
    (gather width r.queue.length).run r = .ok r.queue { r with queue := [] } := by
  induction hn : r.queue.length using Nat.strong_induction_on generalizing r with
  | _ n ih =>
      subst hn
      rw [gather]
      by_cases hempty : r.queue = []
      · rw [if_pos (by rw [hempty]; rfl)]
        rw [EStateM.run_pure, hempty, ← hempty]
      · have hlength : 0 < r.queue.length := List.length_pos_iff.mpr hempty
        have hroom := elementsRoom_pos hpos hwidth hlength
        have hroomLt := elementsRoom_lt width r.queue.length
        have hroomLe : elementsRoom width r.queue.length ≤ r.queue.length :=
          Nat.min_le_right _ _
        generalize hk : elementsRoom width r.queue.length = k at hroom hroomLt hroomLe
        have htake : (r.queue.take k).length = k := by
          rw [List.length_take]
          omega
        -- One answer takes `k` elements off the front; the rest is gathered by induction.
        have hask : (ask .moreElements).run r =
            .ok (elementsAnswer width (r.queue.take k)) { r with queue := r.queue.drop k } := by
          have hanswer := run_answerMoreElements hempty heven hpos hwidth
          rw [hk] at hanswer
          exact run_ask_of_ok trivial hanswer
        have hparse := run_parse_of_run (run_readElementsAnswer
          (fun e he => heven e (List.mem_of_mem_take he)) (by omega)
          (by rw [htake]; exact hroomLt)) { r with queue := r.queue.drop k }
        have hgood : width = width ∧ r.queue.take k ≠ [] ∧
            (r.queue.take k).length ≤ r.queue.length := by
          refine ⟨rfl, ?_, by omega⟩
          apply List.ne_nil_of_length_pos
          omega
        have hrest : (gather width (r.queue.length - (r.queue.take k).length)).run
            { r with queue := r.queue.drop k } = .ok (r.queue.drop k) { r with queue := [] } := by
          rw [htake]
          exact ih _ (by omega) { r with queue := r.queue.drop k }
            (fun e he => heven e (List.mem_of_mem_drop he)) (by simp)
        rw [if_neg (by omega), run_bind_of_ok hask, run_bind_of_ok hparse]
        refine (run_dite_pos hgood _ _ _).trans ((run_bind_of_ok hrest).trans ?_)
        rw [EStateM.run_pure, List.take_append_drop]

/-! ## The two readings -/

/-- The queue that an answer left over is gathered to its end, and is empty as before. -/
theorem run_gather_rest {width : Nat} (hpos : 0 < width) (hwidth : width ≤ 253) {r : Responder}
    (hidle : r.queue = []) {rest : List Bytes} (heven : ∀ e ∈ rest, e.length = width) :
    (gather width rest.length).run { r with queue := rest } = .ok rest r := by
  have h := run_gather hpos hwidth { r with queue := rest } heven
  rw [h]
  show EStateM.Result.ok rest { r with queue := [] } = .ok rest r
  rw [← hidle]

/-- A known byte string is read whole from an empty queue.  What the first answer leaves over is
gathered byte by byte. -/
theorem run_readPreimage {r : Responder} {digest preimage : Bytes} (hidle : r.queue = [])
    (hdigest : digest.length = 32) (hknown : r.preimages.lookup digest = some preimage)
    (hlength : preimage.length < 2 ^ 64) : (readPreimage digest).run r = .ok preimage r := by
  have hask : (ask (.preimage digest)).run r =
      .ok (preimageAnswer preimage) { r with queue := preimageRest preimage } := by
    apply run_ask_of_ok (show (Query.preimage digest).HasForm from hdigest)
    have h := run_answerPreimage_of_lookup hknown hlength
    rw [hidle, List.nil_append] at h
    exact h
  have hroom := preimageRoom_le preimage.length
  have htake := length_take_preimageRoom preimage
  have hgather : (gather 1 (preimage.length -
      (preimage.take (preimageRoom preimage.length)).length)).run
        { r with queue := preimageRest preimage } = .ok (preimageRest preimage) r := by
    have hrest : (preimageRest preimage).length =
        preimage.length - (preimage.take (preimageRoom preimage.length)).length := by
      rw [htake, preimageRest, List.length_map, List.length_drop]
    rw [← hrest]
    apply run_gather_rest (by decide) (by decide) hidle
    intro e he
    obtain ⟨b, -, rfl⟩ := List.mem_map.mp he
    rfl
  -- What was queued byte by byte is what the first part left over.
  have hflatten : (preimageRest preimage).flatten =
      preimage.drop (preimageRoom preimage.length) := by
    rw [preimageRest, ← List.flatMap_def, List.flatMap_singleton']
  rw [readPreimage, run_bind_of_ok hask,
    run_bind_of_ok (run_parse_of_run (run_readPreimageAnswer hlength) _)]
  simp only [if_neg (show ¬ preimage.length <
    (preimage.take (preimageRoom preimage.length)).length by omega)]
  rw [run_bind_of_ok hgather, EStateM.run_pure, hflatten, List.take_append_drop]

/-- A tree of fewer than `2 ^ 64` leaves has proofs whose length is a byte. -/
theorem length_proof_lt {leaves : List Bytes} {index : Nat} (hindex : index < leaves.length)
    (hlength : leaves.length < 2 ^ 64) :
    ((MerkleTree.build leaves).proof index).length < 256 := by
  rw [MerkleTree.length_proof hindex]
  exact (length_merklePath_le hlength.le).trans_lt (by decide)

/-- A leaf of a known list is read with its whole proof from an empty queue.  What the first
answer leaves over is gathered digest by digest. -/
theorem run_readLeaf {r : Responder} {root : Bytes} {leaves : List Bytes} {index : Nat}
    (hidle : r.queue = []) (hroot : root.length = 32)
    (hknown : r.lists.lookup root = some (.ofLeaves leaves))
    (hleaves : ∀ leaf ∈ leaves, leaf.length = 32) (hlength : leaves.length < 2 ^ 64)
    (hindex : index < leaves.length) :
    (readLeaf root leaves.length index).run r =
      .ok (leaves[index], (MerkleTree.build leaves).proof index) r := by
  have hproofLength := length_proof_lt hindex hlength
  have hdigests := MerkleTree.length_of_mem_proof hindex hleaves
  have hform : (Query.leafProof root leaves.length index).HasForm :=
    ⟨hroot, hlength, hindex.trans hlength⟩
  have hanswer : (answerLeafProof root leaves.length index).run r =
      .ok (leafProofAnswer leaves[index] ((MerkleTree.build leaves).proof index))
        { r with queue := proofRest ((MerkleTree.build leaves).proof index) } :=
    run_answerLeafProof_of_lookup hknown hindex hidle hproofLength
  -- From here on only the lengths count, not how the proof was computed.
  generalize (MerkleTree.build leaves).proof index = proof at *
  have hroom := proofRoom_le proof.length
  have htake := length_take_proofRoom proof
  have hgather : (gather 32 (proof.length - (proof.take (proofRoom proof.length)).length)).run
      { r with queue := proofRest proof } = .ok (proofRest proof) r := by
    rw [htake, ← List.length_drop]
    exact run_gather_rest (by decide) (by decide) hidle
      fun e he => hdigests e (List.mem_of_mem_drop he)
  rw [readLeaf, run_bind_of_ok (run_ask_of_ok hform hanswer),
    run_bind_of_ok (run_parse_of_run (run_readLeafAnswer (hleaves _ (List.getElem_mem hindex))
      hdigests hproofLength) _)]
  simp only [if_neg (show ¬ proof.length < (proof.take (proofRoom proof.length)).length by omega)]
  rw [run_bind_of_ok hgather, EStateM.run_pure, proofRest, List.take_append_drop]

/-- The proof of an element of a list of elements. -/
def elementProof (xs : List Bytes) (i : Nat) : List Bytes :=
  (MerkleTree.build (xs.map elementHash)).proof i

/-- A known list of elements is read leaf by leaf, each with a proof that the root accepts. -/
theorem run_readLeaf_elements {r : Responder} (hidle : r.queue = []) {xs : List Bytes}
    (hknown : r.lists.lookup (merkleRoot xs) = some (.ofElements xs))
    (hsize : xs.length < 2 ^ 64) {i : Nat} (hi : i < xs.length) :
    (readLeaf (merkleRoot xs) xs.length i).run r = .ok (elementHash xs[i], elementProof xs i) r ∧
      verifyProof (merkleRoot xs) xs.length i (elementHash xs[i]) (elementProof xs i) =
        .ok true := by
  have hleaves : ∀ value ∈ xs.map elementHash, value.length = 32 :=
    length_of_mem_map_elementHash
  have hlength : (xs.map elementHash).length = xs.length := List.length_map _
  have hi' : i < (xs.map elementHash).length := by rwa [hlength]
  have hleaf : (xs.map elementHash)[i] = elementHash xs[i] := List.getElem_map _
  have hread := run_readLeaf hidle (length_merkleRoot xs) hknown hleaves (by rwa [hlength]) hi'
  have hverify := MerkleTree.verifyProof_proof hi' hleaves
  rw [hlength, hleaf] at hread hverify
  exact ⟨hread, hverify⟩

end Device
end SignerHost
