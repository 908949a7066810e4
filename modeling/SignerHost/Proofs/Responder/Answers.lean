import SignerHost.Responder
import SignerHost.Proofs.Merkle.Tree
import SignerHost.Proofs.Query

/-!
# What the responder answers

Each kind of query has one answer, which depends on what is known and on the queue.  An answer is
a header and a first part; what does not fit goes to the end of the queue.

* `run_answerPreimage`, `run_answerLeafProof` and `run_answerLeafIndex` say what becomes of a
  query in every state, refusals included.
* `run_answerMoreElements` hands out the elements at the front of an even queue; an empty queue and
  an uneven one are refused.
* `run_execute_toBytes` and `run_execute_eq_ok` pass from the bytes of a query to the query.
-/

namespace SignerHost
namespace Responder

open Step

theorem oneByte_of_lt {n : Nat} (h : n < 256) : oneByte n = .ok [UInt8.ofNat n] := by
  rw [oneByte, if_pos h]

theorem oneByte_of_le {n : Nat} (h : 256 ≤ n) : oneByte n = .error .overflow := by
  rw [oneByte, if_neg (by omega)]

/-! ## Preimages -/

/-- The number of bytes of a byte string that fit beside its length. -/
def preimageRoom (total : Nat) : Nat :=
  min (maxAnswer - (CompactSize.encode total).length - 1) total

theorem preimageRoom_le (total : Nat) : preimageRoom total ≤ total := Nat.min_le_right _ _

theorem preimageRoom_lt (total : Nat) : preimageRoom total < 256 := by
  unfold preimageRoom maxAnswer
  omega

theorem length_take_preimageRoom (preimage : Bytes) :
    (preimage.take (preimageRoom preimage.length)).length = preimageRoom preimage.length := by
  rw [List.length_take]
  exact Nat.min_eq_left (preimageRoom_le _)

/-- The answer that starts a byte string: the length, the length of the first part, and this. -/
def preimageAnswer (preimage : Bytes) : Bytes :=
  CompactSize.encode preimage.length ++ UInt8.ofNat (preimageRoom preimage.length) ::
    preimage.take (preimageRoom preimage.length)

/-- What is left of a byte string after its first part, byte by byte. -/
def preimageRest (preimage : Bytes) : List Bytes :=
  (preimage.drop (preimageRoom preimage.length)).map fun b => [b]

theorem run_answerPreimage_of_lookup {r : Responder} {digest preimage : Bytes}
    (hknown : r.preimages.lookup digest = some preimage) (hlength : preimage.length < 2 ^ 64) :
    (answerPreimage digest).run r =
      .ok (preimageAnswer preimage) { r with queue := r.queue ++ preimageRest preimage } := by
  have hroom := oneByte_of_lt (preimageRoom_lt preimage.length)
  unfold preimageRoom at hroom
  simp only [answerPreimage, EStateM.run_bind, EStateM.run_get, hknown,
    CompactSize.write_ofNat hlength, run_ofExcept_ok, hroom, EStateM.run_modify,
    EStateM.run_pure]
  simp [preimageAnswer, preimageRest, preimageRoom]

/-- A query for a byte string is answered exactly if the byte string is known and its length has a
form. -/
theorem run_answerPreimage (digest : Bytes) (r : Responder) :
    (answerPreimage digest).run r =
      match r.preimages.lookup digest with
      | none => .error (.protocol (.unknownPreimage digest)) r
      | some preimage =>
          if preimage.length < 2 ^ 64 then
            .ok (preimageAnswer preimage) { r with queue := r.queue ++ preimageRest preimage }
          else .error (.malformed (.compactSizeBound preimage.length)) r := by
  cases hknown : r.preimages.lookup digest with
  | none => simp [answerPreimage, hknown]
  | some preimage =>
      by_cases hlength : preimage.length < 2 ^ 64
      · simp only [if_pos hlength]
        exact run_answerPreimage_of_lookup hknown hlength
      · have hwrite := CompactSize.write_ofNat_of_not_lt hlength
        simp only [answerPreimage, EStateM.run_bind, EStateM.run_get, hknown, hwrite,
          run_ofExcept_error, if_neg hlength]

/-! ## Proofs of leaves -/

/-- The number of digests of a proof that fit beside the leaf. -/
def proofRoom (total : Nat) : Nat := min ((maxAnswer - 32 - 1 - 1) / 32) total

theorem proofRoom_le (total : Nat) : proofRoom total ≤ total := Nat.min_le_right _ _

theorem proofRoom_lt (total : Nat) : proofRoom total < 256 := by
  unfold proofRoom maxAnswer
  omega

theorem length_take_proofRoom (proof : List Bytes) :
    (proof.take (proofRoom proof.length)).length = proofRoom proof.length := by
  rw [List.length_take]
  exact Nat.min_eq_left (proofRoom_le _)

/-- The answer that starts a proof: the leaf, the length of the proof, the number of digests that
follow, and these. -/
def leafProofAnswer (leaf : Bytes) (proof : List Bytes) : Bytes :=
  leaf ++ UInt8.ofNat proof.length :: UInt8.ofNat (proofRoom proof.length) ::
    (proof.take (proofRoom proof.length)).flatten

/-- What is left of a proof after its first part. -/
def proofRest (proof : List Bytes) : List Bytes := proof.drop (proofRoom proof.length)

/-- A query for a proof is answered exactly if the list is known with its size, the position lies
in it, no elements are pending, and the length of the proof is a byte. -/
theorem run_answerLeafProof (root : Bytes) (size index : Nat) (r : Responder) :
    (answerLeafProof root size index).run r =
      match r.lists.lookup root with
      | none => .error (.protocol (.unknownRoot root)) r
      | some list =>
          if h : index < list.leaves.length ∧ list.size = size then
            if r.queue = [] then
              if (list.tree.proof index).length < 256 then
                .ok (leafProofAnswer list.leaves[index] (list.tree.proof index))
                  { r with queue := proofRest (list.tree.proof index) }
              else .error .overflow r
            else .error (.protocol .elementsPending) r
          else .error (.protocol .indexOrSize) r := by
  cases hknown : r.lists.lookup root with
  | none => simp [answerLeafProof, hknown]
  | some list =>
      by_cases h : index < list.leaves.length ∧ list.size = size
      · obtain ⟨hindex, rfl⟩ := h
        have hsize : ¬ list.size ≤ index := Nat.not_le_of_lt hindex
        simp only [hindex, and_true, dite_true, answerLeafProof, EStateM.run_bind,
          EStateM.run_get, hknown, run_ite, hsize, ne_eq, not_true_eq_false, or_self, if_false]
        -- The place is right; what may still be wrong is the queue and the length of the proof.
        by_cases hqueue : r.queue = []
        · simp only [hqueue, not_true_eq_false, if_false, if_true,
            MerkleList.prove_ofNat hindex, MerkleList.get_ofNat hindex, run_ofExcept_ok]
          by_cases hproof : (list.tree.proof index).length < 256
          · have hroom := oneByte_of_lt (proofRoom_lt (list.tree.proof index).length)
            unfold proofRoom at hroom
            simp only [oneByte_of_lt hproof, hroom, if_pos hproof, run_ofExcept_ok,
              EStateM.run_modify, EStateM.run_pure]
            simp [leafProofAnswer, proofRest, proofRoom, hqueue]
          · simp only [oneByte_of_le (Nat.le_of_not_lt hproof), if_neg hproof,
              run_ofExcept_error]
        · simp only [hqueue, not_false_eq_true, if_true, if_false, run_throw]
      · have hsize : size ≤ index ∨ list.size ≠ size := by
          unfold MerkleList.size at h ⊢
          omega
        simp only [answerLeafProof, EStateM.run_bind, EStateM.run_get, hknown, if_pos hsize,
          run_throw, dif_neg h]

theorem run_answerLeafProof_of_lookup {r : Responder} {root : Bytes} {list : MerkleList}
    {index : Nat} (hknown : r.lists.lookup root = some list)
    (hindex : index < list.leaves.length) (hidle : r.queue = [])
    (hlength : (list.tree.proof index).length < 256) :
    (answerLeafProof root list.size index).run r =
      .ok (leafProofAnswer list.leaves[index] (list.tree.proof index))
        { r with queue := proofRest (list.tree.proof index) } := by
  rw [run_answerLeafProof, hknown]
  simp only [hindex, and_self, dite_true, if_pos hidle, if_pos hlength]

/-! ## Positions of leaves -/

/-- The answer to a query for the position of a leaf: whether there is one, and the first one. -/
def leafIndexAnswer : Option Nat → Bytes
  | some index => 1 :: CompactSize.encode index
  | none => 0 :: CompactSize.encode 0

/-- A query for a position is answered exactly if the list is known, and the position, if there is
one, has a form. -/
theorem run_answerLeafIndex (root leaf : Bytes) (r : Responder) :
    (answerLeafIndex root leaf).run r =
      match r.lists.lookup root with
      | none => .error (.protocol (.unknownRoot root)) r
      | some list =>
          match list.leaves.findIdx? (· = leaf) with
          -- An unknown leaf is no failure: it is answered with a zero.
          | none => .ok (leafIndexAnswer none) r
          | some index =>
              if index < 2 ^ 64 then .ok (leafIndexAnswer (some index)) r
              else .error (.malformed (.compactSizeBound index)) r := by
  cases hknown : r.lists.lookup root with
  | none => simp [answerLeafIndex, hknown]
  | some list =>
      cases hfound : list.leaves.findIdx? (· = leaf) with
      | none =>
          have hindex : list.indexOf leaf = .error (.malformed .unknownLeaf) := by
            rw [MerkleList.indexOf, hfound]
          have hzero : CompactSize.write 0 = .ok (CompactSize.encode 0) := rfl
          simp only [answerLeafIndex, EStateM.run_bind, EStateM.run_get, hknown, hindex, hzero,
            hfound, run_ofExcept_ok, EStateM.run_pure, leafIndexAnswer]
      | some index =>
          have hindex : list.indexOf leaf = .ok index := by
            rw [MerkleList.indexOf, hfound]
          by_cases hlt : index < 2 ^ 64
          · simp only [hfound, if_pos hlt]
            simp only [answerLeafIndex, EStateM.run_bind, EStateM.run_get, hknown, hindex,
              CompactSize.write_ofNat hlt, run_ofExcept_ok, EStateM.run_pure, leafIndexAnswer]
          · simp only [hfound, if_neg hlt]
            simp only [answerLeafIndex, EStateM.run_bind, EStateM.run_get, hknown, hindex,
              CompactSize.write_ofNat_of_not_lt hlt, run_ofExcept_error]

theorem run_answerLeafIndex_of_lookup {r : Responder} {root : Bytes} {list : MerkleList}
    (leaf : Bytes) (hknown : r.lists.lookup root = some list) (hsize : list.size ≤ 2 ^ 64) :
    (answerLeafIndex root leaf).run r =
      .ok (leafIndexAnswer (list.leaves.findIdx? (· = leaf))) r := by
  rw [run_answerLeafIndex, hknown]
  cases hfound : list.leaves.findIdx? (· = leaf) with
  | none => simp only [hfound]
  | some index =>
      have hlt : index < list.size := (List.findIdx?_eq_some_iff_findIdx_eq.mp hfound).1
      simp only [hfound, if_pos (hlt.trans_le hsize)]

/-! ## Pending elements -/

theorem run_answerMoreElements_of_nil {r : Responder} (h : r.queue = []) :
    answerMoreElements.run r = .error (.protocol .noElements) r := by
  simp only [answerMoreElements, EStateM.run_bind, EStateM.run_get, h, run_throw]

/-- The first element sets the length; one element of another length is enough for a refusal. -/
theorem run_answerMoreElements_of_uneven {r : Responder} {first e : Bytes} {rest : List Bytes}
    (hqueue : r.queue = first :: rest) (he : e ∈ r.queue) (hlength : e.length ≠ first.length) :
    answerMoreElements.run r = .error (.protocol .unevenElements) r := by
  have hany : (r.queue.any fun e => decide (e.length ≠ first.length)) = true :=
    List.any_eq_true.mpr ⟨e, he, by simpa using hlength⟩
  rw [hqueue] at hany
  simp only [answerMoreElements, EStateM.run_bind, EStateM.run_get, hqueue, hany, if_true,
    run_throw]

/-- The number of queued elements of one length that fit into an answer. -/
def elementsRoom (width total : Nat) : Nat := min ((maxAnswer - 2) / width) total

theorem elementsRoom_pos {width total : Nat} (hpos : 0 < width) (hwidth : width ≤ 253)
    (htotal : 0 < total) : 0 < elementsRoom width total := by
  have : 0 < (maxAnswer - 2) / width := Nat.div_pos hwidth hpos
  unfold elementsRoom
  omega

theorem elementsRoom_lt (width total : Nat) : elementsRoom width total < 256 := by
  have : (maxAnswer - 2) / width ≤ maxAnswer - 2 := Nat.div_le_self _ _
  unfold elementsRoom
  unfold maxAnswer at *
  omega

/-- The answer that goes on with what is queued: the number of elements, their length, and the
elements. -/
def elementsAnswer (width : Nat) (elements : List Bytes) : Bytes :=
  UInt8.ofNat elements.length :: UInt8.ofNat width :: elements.flatten

/-- An even queue is handed out from the front, as much of it as fits. -/
theorem run_answerMoreElements {r : Responder} {width : Nat} (hne : r.queue ≠ [])
    (heven : ∀ e ∈ r.queue, e.length = width) (hpos : 0 < width) (hwidth : width ≤ 253) :
    answerMoreElements.run r =
      .ok (elementsAnswer width (r.queue.take (elementsRoom width r.queue.length)))
        { r with queue := r.queue.drop (elementsRoom width r.queue.length) } := by
  obtain ⟨first, rest, hqueue⟩ := List.exists_cons_of_ne_nil hne
  have hfirst : first.length = width := heven first (by simp [hqueue])
  -- The first element sets the length, and no other one differs from it.
  have hany : (r.queue.any fun e => decide (e.length ≠ width)) = false := by
    rw [List.any_eq_false]
    intro e he
    simp [heven e he]
  have hroom := oneByte_of_lt (elementsRoom_lt width r.queue.length)
  have hlength : (r.queue.take (elementsRoom width r.queue.length)).length =
      elementsRoom width r.queue.length := by
    rw [List.length_take]
    exact Nat.min_eq_left (Nat.min_le_right _ _)
  unfold elementsAnswer
  rw [hlength]
  unfold elementsRoom at hroom ⊢
  rw [hqueue] at hany hroom ⊢
  simp only [answerMoreElements, EStateM.run_bind, EStateM.run_get, hqueue, hfirst, hany,
    if_false, Bool.false_eq_true, if_neg (Nat.pos_iff_ne_zero.mp hpos), hroom,
    oneByte_of_lt (show width < 256 by omega), run_ofExcept_ok, EStateM.run_modify,
    EStateM.run_pure]
  rfl

/-! ## From bytes to queries -/

/-- The bytes of a query that has a form are answered as the query. -/
theorem run_execute_toBytes {q : Query} (h : q.HasForm) (r : Responder) :
    (execute q.toBytes).run r =
      match (answer q).run r with
      | .ok bs after => .ok bs after
      | .error failure after => .error (Query.blame (q.toBytes.headD 0) failure) after := by
  rw [execute, Query.parse_toBytes h, run_bind_of_ok (run_ofExcept_ok q r)]
  show blamed (q.toBytes.headD 0) (answer q) r = _
  unfold blamed
  rfl

/-- Bytes are answered exactly if a query is read from them and this one is answered. -/
theorem run_execute_eq_ok {request a : Bytes} {r r' : Responder} :
    (execute request).run r = .ok a r' ↔
      ∃ q, Query.parse request = .ok q ∧ (answer q).run r = .ok a r' := by
  -- Blame changes the failures only, never an answer.
  have hblamed (q : Query) (s : Responder) :
      (blamed (request.headD 0) (answer q)).run s = .ok a r' ↔ (answer q).run s = .ok a r' := by
    show (match (answer q).run s with
      | .ok bs after => .ok bs after
      | .error failure after => .error (Query.blame (request.headD 0) failure) after) =
        EStateM.Result.ok a r' ↔ _
    cases (answer q).run s with
    | ok bs after => rfl
    | error failure after => simp
  rw [execute, run_bind_eq_ok]
  constructor
  · rintro ⟨q, s, hread, hanswer⟩
    obtain ⟨hparse, rfl⟩ := run_ofExcept_eq_ok.mp hread
    exact ⟨q, hparse, (hblamed q s).mp hanswer⟩
  · rintro ⟨q, hparse, hanswer⟩
    exact ⟨q, r, run_ofExcept_eq_ok.mpr ⟨hparse, rfl⟩, (hblamed q r).mpr hanswer⟩

end Responder
end SignerHost
