import SignerHost.Proofs.Device.Reading
import SignerHost.Proofs.Responder.Knowledge

/-!
# No query breaks a responder

A device may send any bytes at all.  A responder that only ever learned lists of elements answers
them with at most 255 bytes, or refuses them with a protocol failure, and stays as it was then.

* `Orderly` is the invariant: known lists were built from elements, and what is queued are single
  bytes or digests.
* Registering keeps it, and so does every answer (`Orderly.answers`).
* `Orderly.execute` is the step for the bytes of a query; what it does not need is any assumption
  on digests, on the queries before, or on the order of the queries.
-/

namespace SignerHost
namespace Responder

open Step

/-- Known lists were built from elements, and what is queued are single bytes or digests.  Every
action preserves this, so every responder that is reached has it. -/
structure Orderly (r : Responder) : Prop where
  built : ∀ root list, r.lists.lookup root = some list → ∃ xs, list = .ofElements xs
  queued : ∀ e ∈ r.queue, e.length = 1 ∨ e.length = 32

/-! ## Registering -/

namespace Orderly

theorem new : Orderly {} where
  built := by
    intro root list h
    cases h
  queued := by
    intro e he
    cases he

variable {r : Responder} (h : r.Orderly)

include h

theorem withPreimage (preimage : Bytes) : (r.withPreimage preimage).Orderly where
  built := h.built
  queued := h.queued

theorem withList (elements : List Bytes) : (r.withList elements).Orderly where
  built := by
    intro root list hlookup
    rw [lists_withList] at hlookup
    rcases Known.of_lookup_learn hlookup with rfl | hlookup
    · exact ⟨elements, rfl⟩
    · exact h.built root list hlookup
  queued := by
    rw [queue_withList]
    exact h.queued

theorem withLists (lists : List (List Bytes)) : (r.withLists lists).Orderly := by
  induction lists generalizing r with
  | nil => exact h
  | cons xs rest ih => exact ih (h.withList xs)

end Orderly

/-! ## The lengths of answers -/

theorem length_flatten_of_even {width : Nat} {elements : List Bytes}
    (h : ∀ e ∈ elements, e.length = width) :
    elements.flatten.length = elements.length * width := by
  induction elements with
  | nil => simp
  | cons first rest ih =>
      obtain ⟨hfirst, hrest⟩ := List.forall_mem_cons.mp h
      rw [List.flatten_cons, List.length_append, hfirst, ih hrest, List.length_cons]
      ring

theorem length_preimageAnswer_le (preimage : Bytes) :
    (preimageAnswer preimage).length ≤ maxAnswer := by
  have hencode := CompactSize.length_encode_le preimage.length
  have hroom : preimageRoom preimage.length ≤
      maxAnswer - (CompactSize.encode preimage.length).length - 1 := Nat.min_le_left _ _
  rw [preimageAnswer, List.length_append, List.length_cons, length_take_preimageRoom]
  unfold maxAnswer at *
  omega

theorem length_leafProofAnswer_le {leaf : Bytes} {proof : List Bytes} (hleaf : leaf.length = 32)
    (hproof : ∀ e ∈ proof, e.length = 32) : (leafProofAnswer leaf proof).length ≤ maxAnswer := by
  have hroom : proofRoom proof.length ≤ (maxAnswer - 32 - 1 - 1) / 32 := Nat.min_le_left _ _
  have hpart := length_flatten_of_even fun e he =>
    hproof e (List.mem_of_mem_take (i := proofRoom proof.length) he)
  rw [length_take_proofRoom] at hpart
  rw [leafProofAnswer, List.length_append, List.length_cons, List.length_cons, hpart, hleaf]
  unfold maxAnswer at *
  omega

theorem length_leafIndexAnswer_le (found : Option Nat) :
    (leafIndexAnswer found).length ≤ maxAnswer := by
  cases found with
  | none => decide
  | some index =>
      have hlength := CompactSize.length_encode_le index
      rw [leafIndexAnswer, List.length_cons]
      unfold maxAnswer
      omega

theorem length_elementsAnswer_le {width : Nat} {elements : List Bytes}
    (heven : ∀ e ∈ elements, e.length = width)
    (hfits : elements.length ≤ (maxAnswer - 2) / width) :
    (elementsAnswer width elements).length ≤ maxAnswer := by
  have hroom := Nat.mul_le_of_le_div _ _ _ hfits
  rw [elementsAnswer, List.length_cons, List.length_cons, length_flatten_of_even heven]
  unfold maxAnswer at *
  omega

/-! ## Answering -/

/-- How a query of a device may end. -/
def Answers (r : Responder) (step : Dialogue Bytes) (P : Failure → Prop) : Prop :=
  match step.run r with
  | .ok answer after => answer.length ≤ maxAnswer ∧ after.Orderly
  | .error failure after => P failure ∧ after = r

namespace Orderly

variable {r : Responder} (h : r.Orderly)

include h

theorem answers_yield (fragment : Bytes) :
    r.Answers (answerYield fragment) Failure.IsBlamable :=
  ⟨Nat.zero_le _, h.built, h.queued⟩

theorem answers_preimage (digest : Bytes) :
    r.Answers (answerPreimage digest) Failure.IsBlamable := by
  unfold Answers
  rw [run_answerPreimage]
  cases r.preimages.lookup digest with
  | none => exact ⟨.inr ⟨_, rfl⟩, rfl⟩
  | some preimage =>
      by_cases hlength : preimage.length < 2 ^ 64
      · simp only [if_pos hlength]
        refine ⟨length_preimageAnswer_le preimage, h.built, fun e he => ?_⟩
        rcases List.mem_append.mp he with he | he
        · exact h.queued e he
        · obtain ⟨b, -, rfl⟩ := List.mem_map.mp he
          exact .inl rfl
      · simp only [if_neg hlength]
        exact ⟨.inl ⟨_, rfl⟩, trivial⟩

theorem answers_leafProof (root : Bytes) {size : Nat} (index : Nat) (hsize : size < 2 ^ 64) :
    r.Answers (answerLeafProof root size index) Failure.IsBlamable := by
  unfold Answers
  rw [run_answerLeafProof]
  cases hknown : r.lists.lookup root with
  | none => exact ⟨.inr ⟨_, rfl⟩, rfl⟩
  | some list =>
      obtain ⟨xs, rfl⟩ := h.built root list hknown
      by_cases hplace : index < (MerkleList.ofElements xs).leaves.length ∧
          (MerkleList.ofElements xs).size = size
      · obtain ⟨hindex, rfl⟩ := hplace
        simp only [hindex, and_self, dite_true]
        by_cases hqueue : r.queue = []
        · -- A list whose size a query can state has proofs whose length is a byte.
          have hproof : ((MerkleList.ofElements xs).tree.proof index).length < 256 :=
            Device.length_proof_lt hindex hsize
          have hdigests : ∀ e ∈ (MerkleList.ofElements xs).tree.proof index, e.length = 32 :=
            MerkleTree.length_of_mem_proof hindex length_of_mem_map_elementHash
          have hleaf : (MerkleList.ofElements xs).leaves[index].length = 32 :=
            length_of_mem_map_elementHash _ (List.getElem_mem hindex)
          simp only [if_pos hqueue, if_pos hproof]
          refine ⟨length_leafProofAnswer_le hleaf hdigests, h.built, fun e he => ?_⟩
          exact .inr (hdigests e (List.mem_of_mem_drop he))
        · simp only [if_neg hqueue]
          exact ⟨.inr ⟨_, rfl⟩, trivial⟩
      · simp only [dif_neg hplace]
        exact ⟨.inr ⟨_, rfl⟩, trivial⟩

theorem answers_leafIndex (root leaf : Bytes) :
    r.Answers (answerLeafIndex root leaf) Failure.IsBlamable := by
  unfold Answers
  rw [run_answerLeafIndex]
  cases r.lists.lookup root with
  | none => exact ⟨.inr ⟨_, rfl⟩, rfl⟩
  | some list =>
      cases hfound : list.leaves.findIdx? (· = leaf) with
      | none =>
          simp only [hfound]
          exact ⟨length_leafIndexAnswer_le none, h⟩
      | some index =>
          simp only [hfound]
          -- In a list of more than `2 ^ 64` elements the position may have no form.
          by_cases hlt : index < 2 ^ 64
          · simp only [if_pos hlt]
            exact ⟨length_leafIndexAnswer_le (some index), h⟩
          · simp only [if_neg hlt]
            exact ⟨.inl ⟨_, rfl⟩, trivial⟩

theorem answers_moreElements : r.Answers answerMoreElements Failure.IsBlamable := by
  unfold Answers
  by_cases hne : r.queue = []
  · rw [run_answerMoreElements_of_nil hne]
    exact ⟨.inr ⟨_, rfl⟩, rfl⟩
  obtain ⟨first, rest, hqueue⟩ := List.exists_cons_of_ne_nil hne
  by_cases heven : ∀ e ∈ r.queue, e.length = first.length
  · have hwidth := h.queued first (by simp [hqueue])
    rw [run_answerMoreElements hne heven (by omega) (by omega)]
    refine ⟨length_elementsAnswer_le (fun e he => heven e (List.mem_of_mem_take he)) ?_,
      h.built, fun e he => h.queued e (List.mem_of_mem_drop he)⟩
    exact (List.length_take_le _ _).trans (Nat.min_le_left _ _)
  · push Not at heven
    obtain ⟨e, he, hlength⟩ := heven
    rw [run_answerMoreElements_of_uneven hqueue he hlength]
    exact ⟨.inr ⟨_, rfl⟩, rfl⟩

/-- Every query that has a form is answered, or its failure can be blamed on the device. -/
theorem answers {q : Query} (hform : q.HasForm) : r.Answers (answer q) Failure.IsBlamable := by
  cases q with
  | yield fragment => exact h.answers_yield fragment
  | preimage digest => exact h.answers_preimage digest
  | leafProof root size index => exact h.answers_leafProof root index hform.2.1
  | leafIndex root leaf => exact h.answers_leafIndex root leaf
  | moreElements => exact h.answers_moreElements

/-- Any bytes are answered with at most 255 bytes, or refused with a protocol failure.  Nothing
but an orderly responder is needed for that. -/
theorem execute (request : Bytes) :
    r.Answers (Responder.execute request) fun failure => ∃ cause, failure = .protocol cause := by
  have hparse := Query.readSoundly_parse request
  unfold Answers
  rw [Responder.execute]
  cases hread : Query.parse request with
  | error failure =>
      rw [hread] at hparse
      exact ⟨hparse, rfl⟩
  | ok q =>
      rw [hread] at hparse
      have hanswer := h.answers hparse
      unfold Answers at hanswer
      rw [run_bind_of_ok (run_ofExcept_ok q r)]
      -- Whatever is blamed, the request left the responder as it was.
      show match blamed (request.headD 0) (answer q) r with
        | .ok answer after => answer.length ≤ maxAnswer ∧ after.Orderly
        | .error failure after => (∃ cause, failure = .protocol cause) ∧ after = r
      unfold blamed
      cases hrun : answer q r with
      | ok bs after =>
          rw [show (answer q).run r = .ok bs after from hrun] at hanswer
          exact hanswer
      | error failure after =>
          rw [show (answer q).run r = .error failure after from hrun] at hanswer
          exact ⟨Query.exists_protocol_of_blame hanswer.1 _, hanswer.2⟩

end Orderly
end Responder
end SignerHost
