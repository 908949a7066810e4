import SignerHost.Proofs.Responder.Reachable

/-!
# What the pending elements belong to

Two kinds of requests start something that may not fit into one answer: a byte string, or a proof.
What is left over is queued, and a third kind of request goes on with it.  A request for a proof is
refused while elements are pending.  A request for a byte string is not: it is answered, and its
bytes go behind what is pending already.

* `History` follows a run and what the latest request of the two kinds left over.
* `Continues` says that all pending elements belong to that request, and what this means for a
  request for more elements.
* `continues_iff` says for every run that this holds all along exactly if no request for a byte
  string `Interrupts` it, that is, no such request is answered while elements are pending.
* `not_continues_of_interrupted_proof` is a run with such a request, after which what is pending
  cannot be handed out at all.
-/

namespace SignerHost
namespace Responder

open Step

/-! ## Following a run -/

/-- What is left over by the answer to a request that starts a byte string or a proof.  A request
of any other kind starts nothing. -/
def leftOver? (r : Responder) : Query → Option (List Bytes)
  | .preimage digest => (r.preimages.lookup digest).map preimageRest
  | .leafProof root _ index =>
      (r.lists.lookup root).map fun list => proofRest (list.tree.proof index)
  | .yield _ | .leafIndex _ _ | .moreElements => none

/-- A responder, and what the latest answer that started a byte string or a proof left over. -/
structure History where
  responder : Responder := {}
  latest : List Bytes := []

namespace History

/-- What is left over by the latest of these answers, after one more action. -/
def latestAfter (h : History) : Action → List Bytes
  | .execute request =>
      match (Responder.execute request).run h.responder with
      | .ok _ _ => ((Query.parse request).toOption.bind h.responder.leftOver?).getD h.latest
      | .error _ _ => h.latest
  | .register _ | .takeYielded => h.latest

def next (h : History) (action : Action) : History where
  responder := action.next h.responder
  latest := h.latestAfter action

end History

/-- The history of a run. -/
def history (actions : List Action) : History := actions.foldl History.next {}

theorem history_append_singleton (actions : List Action) (action : Action) :
    history (actions ++ [action]) = (history actions).next action := by
  rw [history, List.foldl_append]
  rfl

theorem responder_history (actions : List Action) :
    (history actions).responder = reached actions := by
  induction actions using List.reverseRecOn with
  | nil => rfl
  | append_singleton actions action ih =>
      rw [history_append_singleton, reached_append_singleton, ← ih]
      rfl

theorem orderly_history (actions : List Action) : (history actions).responder.Orderly := by
  rw [responder_history]
  exact orderly_reached actions

theorem queue_effect (registration : Registration) (r : Responder) :
    (registration.effect r).queue = r.queue := by
  apply registration.effect_keeps (P := fun s => s.queue = r.queue)
  · intro bs _ s hs
    rwa [queue_withPreimage]
  · intro xs _ s hs
    rwa [queue_withList]
  · intro s keyLists hs
    exact hs
  · rfl

namespace History

variable {h : History}

theorem next_register (registration : Registration) :
    h.next (.register registration) = ⟨registration.effect h.responder, h.latest⟩ := by
  rw [next, Action.next, registration.after_perform]
  rfl

theorem next_of_answered {request a : Bytes} {q : Query} {after : Responder}
    (hwritten : Query.Written q request)
    (hrun : (Responder.execute request).run h.responder = .ok a after) :
    h.next (.execute request) = ⟨after, (h.responder.leftOver? q).getD h.latest⟩ := by
  have hafter : (Action.execute request).next h.responder = after := after_of_ok hrun
  have hlatest : h.latestAfter (.execute request) = (h.responder.leftOver? q).getD h.latest := by
    rw [latestAfter, hrun, Query.parse_eq_ok.mpr hwritten]
    rfl
  rw [next, hafter, hlatest]

theorem next_of_refused {request : Bytes} {failure : Failure}
    (hrun : (Responder.execute request).run h.responder = .error failure h.responder) :
    h.next (.execute request) = h := by
  have hafter : (Action.execute request).next h.responder = h.responder := after_of_error hrun
  have hlatest : h.latestAfter (.execute request) = h.latest := by
    rw [latestAfter, hrun]
  rw [next, hafter, hlatest]

end History

/-! ## One request at a time -/

/-- The elements have one length, and at least one of them fits into an answer.  Only then can
they be handed out at all. -/
def Even (elements : List Bytes) : Prop :=
  ∃ width, 0 < width ∧ width ≤ 253 ∧ ∀ e ∈ elements, e.length = width

theorem even_preimageRest (preimage : Bytes) : Even (preimageRest preimage) := by
  refine ⟨1, by decide, by decide, fun e he => ?_⟩
  obtain ⟨b, -, rfl⟩ := List.mem_map.mp he
  rfl

theorem Orderly.even_proofRest {r : Responder} (h : r.Orderly) {root : Bytes} {list : MerkleList}
    {index : Nat} (hknown : r.lists.lookup root = some list) (hindex : index < list.leaves.length) :
    Even (proofRest (list.tree.proof index)) := by
  obtain ⟨xs, rfl⟩ := h.built root list hknown
  refine ⟨32, by decide, by decide, fun e he => ?_⟩
  exact MerkleTree.length_of_mem_proof hindex length_of_mem_map_elementHash e
    (List.mem_of_mem_drop he)

/-- The request asks for a byte string and is answered while elements are pending. -/
structure Interrupts (request : Bytes) (r : Responder) : Prop where
  preimage : ∃ digest, Query.Written (.preimage digest) request
  answered : ∃ a after, (execute request).run r = .ok a after
  pending : r.queue ≠ []

namespace History

variable {h : History} (horderly : h.responder.Orderly)

include horderly

theorem even_latest_next (heven : Even h.latest) (action : Action) :
    Even (h.next action).latest := by
  cases action with
  | register registration => exact heven
  | takeYielded => exact heven
  | execute request =>
      rcases horderly.execute_cases request with
        ⟨q, a, after, hwritten, hgrants, -, hrun⟩ | ⟨cause, hrun⟩
      · rw [next_of_answered hwritten hrun]
        cases hgrants with
        -- Only a preimage and a proof queue anything; other answers keep what was latest.
        | @preimage digest preimage hknown =>
            simp only [leftOver?, hknown, Option.map_some, Option.getD_some]
            exact even_preimageRest preimage
        | @leafProof root list index hknown hindex hidle =>
            simp only [leftOver?, hknown, Option.map_some, Option.getD_some]
            exact horderly.even_proofRest hknown hindex
        | yield => exact heven
        | leafIndex => exact heven
        | moreElements => exact heven
      · rwa [next_of_refused hrun]

/-- What is pending stays the end of what the latest request left over, unless a request interrupts
it. -/
theorem suffix_next (hqueue : h.responder.queue <:+ h.latest) {action : Action}
    (haction : ∀ request, action = .execute request → ¬ Interrupts request h.responder) :
    (h.next action).responder.queue <:+ (h.next action).latest := by
  cases action with
  | register registration =>
      show (after registration.perform h.responder).queue <:+ h.latest
      rw [registration.after_perform, queue_effect]
      exact hqueue
  | takeYielded => exact hqueue
  | execute request =>
      rcases horderly.execute_cases request with
        ⟨q, a, after, hwritten, hgrants, -, hrun⟩ | ⟨cause, hrun⟩
      · rw [next_of_answered hwritten hrun]
        cases hgrants with
        | @preimage digest preimage hknown =>
            -- A preimage answered with elements still in the queue would be an interruption.
            have hidle : h.responder.queue = [] := by
              by_contra hne
              exact haction request rfl ⟨⟨digest, hwritten⟩, ⟨_, _, hrun⟩, hne⟩
            simp [leftOver?, hknown, hidle]
        | leafProof hknown hindex hidle => simp [leftOver?, hknown]
        | yield => exact hqueue
        | leafIndex => exact hqueue
        | moreElements => exact (List.drop_suffix _ _).trans hqueue
      · rwa [next_of_refused hrun]

end History

/-- What is pending after an interruption is more than what the latest request left over. -/
theorem History.not_suffix_of_interrupts {h : History} {request : Bytes}
    (hrequest : Interrupts request h.responder) :
    ¬ (h.next (.execute request)).responder.queue <:+ (h.next (.execute request)).latest := by
  obtain ⟨⟨digest, hwritten⟩, ⟨a, after, hrun⟩, hne⟩ := hrequest
  obtain ⟨q, hparse, hanswer⟩ := run_execute_eq_ok.mp hrun
  obtain rfl : Query.preimage digest = q :=
    Except.ok.inj ((Query.parse_eq_ok.mpr hwritten).symm.trans hparse)
  rw [next_of_answered hwritten hrun]
  cases grants_preimage hanswer with
  | preimage hknown =>
      simp only [leftOver?, hknown, Option.map_some, Option.getD_some]
      intro hsuffix
      have hlength := hsuffix.length_le
      rw [List.length_append] at hlength
      exact hne (List.eq_nil_of_length_eq_zero (by omega))

/-- What is pending belongs to the latest request that started a byte string or a proof.  It is
what a device counts on when it asks for more. -/
structure Continues (h : History) : Prop where
  /-- The queue is the end of what that request left over. -/
  queue : h.responder.queue <:+ h.latest
  /-- A request for more elements is answered with the next ones, or nothing is left. -/
  more : match (execute [0xA0]).run h.responder with
    | .ok answer after =>
        ∃ width handed, answer = elementsAnswer width handed ∧
          (∀ e ∈ handed, e.length = width) ∧ handed ≠ [] ∧
            handed ++ after.queue = h.responder.queue
    | .error failure _ => failure = .protocol .noElements ∧ h.responder.queue = []

theorem run_execute_moreElements (r : Responder) :
    (execute [0xA0]).run r =
      match answerMoreElements.run r with
      | .ok bs after => .ok bs after
      | .error failure after => .error (Query.blame 0xA0 failure) after :=
  run_execute_toBytes (q := .moreElements) trivial r

/-- From an even queue the next elements are handed out, as many as fit. -/
theorem continues_of_suffix {h : History} (heven : Even h.latest)
    (hqueue : h.responder.queue <:+ h.latest) : Continues h where
  queue := hqueue
  more := by
    rw [run_execute_moreElements]
    by_cases hne : h.responder.queue = []
    · rw [run_answerMoreElements_of_nil hne]
      exact ⟨rfl, hne⟩
    · obtain ⟨width, hpos, hwidth, hlatest⟩ := heven
      have hlength : ∀ e ∈ h.responder.queue, e.length = width := fun e he =>
        hlatest e (hqueue.mem he)
      have hroom := elementsRoom_pos hpos hwidth (List.length_pos_iff.mpr hne)
      rw [run_answerMoreElements hne hlength hpos hwidth]
      refine ⟨width, _, rfl, fun e he => hlength e (List.mem_of_mem_take he), ?_,
        List.take_append_drop _ _⟩
      rw [← List.length_pos_iff, List.length_take]
      exact lt_min hroom (List.length_pos_iff.mpr hne)

/-! ## A whole run -/

theorem even_latest (actions : List Action) : Even (history actions).latest := by
  induction actions using List.reverseRecOn with
  | nil => exact ⟨1, by decide, by decide, fun e he => by cases he⟩
  | append_singleton actions action ih =>
      rw [history_append_singleton]
      exact History.even_latest_next (orderly_history actions) ih action

/-- In a run all pending elements belong to the latest request that started something, at every
moment, exactly if no request for a byte string is answered while elements are pending. -/
theorem continues_iff (actions : List Action) :
    (∀ before, before <+: actions → Continues (history before)) ↔
      ∀ before request, before ++ [.execute request] <+: actions →
        ¬ Interrupts request (history before).responder := by
  constructor
  · intro hcontinues before request hprefix hinterrupts
    have hqueue := (hcontinues _ hprefix).queue
    rw [history_append_singleton] at hqueue
    exact History.not_suffix_of_interrupts hinterrupts hqueue
  · intro hrequests before hprefix
    refine continues_of_suffix (even_latest before) ?_
    -- The induction is on the end of the run, where the next action comes.
    induction before using List.reverseRecOn with
    | nil => exact List.suffix_refl []
    | append_singleton before action ih =>
        have hshorter : before <+: actions := (List.prefix_append _ _).trans hprefix
        rw [history_append_singleton]
        apply History.suffix_next (orderly_history before) (ih hshorter)
        rintro request rfl
        exact hrequests before request hprefix

/-! ## An interrupted proof -/

namespace History

variable {h : History}

theorem next_leafProof {root : Bytes} {list : MerkleList} {index : Nat}
    (hform : (Query.leafProof root list.size index).HasForm)
    (hknown : h.responder.lists.lookup root = some list) (hindex : index < list.leaves.length)
    (hidle : h.responder.queue = []) (hlength : (list.tree.proof index).length < 256) :
    h.next (.execute (Query.leafProof root list.size index).toBytes) =
      ⟨{ h.responder with queue := proofRest (list.tree.proof index) },
        proofRest (list.tree.proof index)⟩ := by
  have hanswer := run_answerLeafProof_of_lookup hknown hindex hidle hlength
  have hrun := run_execute_eq_ok.mpr ⟨_, Query.parse_toBytes hform, hanswer⟩
  rw [next_of_answered (Query.written_toBytes hform) hrun, leftOver?, hknown]
  rfl

theorem next_preimage {digest preimage : Bytes} (hdigest : digest.length = 32)
    (hknown : h.responder.preimages.lookup digest = some preimage)
    (hlength : preimage.length < 2 ^ 64) :
    h.next (.execute (Query.preimage digest).toBytes) =
      ⟨{ h.responder with queue := h.responder.queue ++ preimageRest preimage },
        preimageRest preimage⟩ := by
  have hform : (Query.preimage digest).HasForm := hdigest
  have hanswer := run_answerPreimage_of_lookup hknown hlength
  have hrun := run_execute_eq_ok.mpr ⟨_, Query.parse_toBytes hform, hanswer⟩
  rw [next_of_answered (Query.written_toBytes hform) hrun, leftOver?, hknown]
  rfl

end History

/-- Digests and single bytes are no elements of one length. -/
theorem run_answerMoreElements_of_mixed {r : Responder} {digests : List Bytes} {preimage : Bytes}
    (hqueue : r.queue = digests ++ preimageRest preimage) (hne : digests ≠ [])
    (hdigests : ∀ e ∈ digests, e.length = 32) (hrest : preimageRest preimage ≠ []) :
    answerMoreElements.run r = .error (.protocol .unevenElements) r := by
  obtain ⟨first, others, rfl⟩ := List.exists_cons_of_ne_nil hne
  obtain ⟨single, rest, hsingle⟩ := List.exists_cons_of_ne_nil hrest
  have hfirst : first.length = 32 := hdigests first List.mem_cons_self
  have hlength : single.length = 1 := by
    have hmem : single ∈ preimageRest preimage := by simp [hsingle]
    obtain ⟨b, -, rfl⟩ := List.mem_map.mp hmem
    rfl
  rw [List.cons_append] at hqueue
  apply run_answerMoreElements_of_uneven hqueue (e := single)
  · simp [hqueue, hsingle]
  · omega

theorem preimageRest_ne_nil {preimage : Bytes} (h : 255 ≤ preimage.length) :
    preimageRest preimage ≠ [] := by
  have hroom : preimageRoom preimage.length ≤ 254 := by
    unfold preimageRoom maxAnswer
    omega
  rw [← List.length_pos_iff, preimageRest, List.length_map, List.length_drop]
  omega

theorem proofRest_ne_nil {proof : List Bytes} (h : 7 ≤ proof.length) : proofRest proof ≠ [] := by
  have hroom : proofRoom proof.length ≤ 6 := Nat.min_le_left _ _
  rw [← List.length_pos_iff, proofRest, List.length_drop]
  omega

/-- A list and a byte string are registered; then a proof is asked for, and the byte string
before the proof is complete. -/
def interruptedRun (elements : List Bytes) (index : Nat) (preimage : Bytes) : List Action :=
  [.register (.list elements), .register (.preimage preimage),
    .execute (Query.leafProof (merkleRoot elements) elements.length index).toBytes,
    .execute (Query.preimage (sha256 preimage)).toBytes]

section Interrupted

variable {elements : List Bytes} {index : Nat} {preimage : Bytes}

/-- The byte string goes behind the digests that are pending. -/
theorem history_interruptedRun (preimage : Bytes) (hindex : index < elements.length)
    (hsize : elements.length < 2 ^ 64) (hlength : preimage.length < 2 ^ 64) :
    let h := history (interruptedRun elements index preimage)
    h.responder.queue =
        proofRest ((MerkleList.ofElements elements).tree.proof index) ++ preimageRest preimage ∧
      h.latest = preimageRest preimage := by
  intro h
  let registered := (({} : Responder).withList elements).withPreimage preimage
  let list := MerkleList.ofElements elements
  have hleaves : list.size = elements.length := List.length_map _
  have hplace : index < list.leaves.length := hindex.trans_eq hleaves.symm
  have hregister : (({} : History).next (.register (.list elements))).next
      (.register (.preimage preimage)) = ⟨registered, []⟩ := by
    rw [History.next_register, History.next_register]
    rfl
  -- The proof is asked for while nothing is pending.
  have hform : (Query.leafProof (merkleRoot elements) list.size index).HasForm := by
    rw [hleaves]
    exact ⟨length_merkleRoot elements, hsize, hindex.trans hsize⟩
  have hproof := History.next_leafProof (h := ⟨registered, []⟩) hform
    (Known.lookup_learn_self _ _ _) hplace (queue_withList {} elements)
    (Device.length_proof_lt hplace (hleaves.trans_lt hsize))
  -- The byte string is asked for while the rest of the proof is pending.
  have hpreimage := History.next_preimage
    (h := ⟨{ registered with queue := proofRest (list.tree.proof index) },
      proofRest (list.tree.proof index)⟩) (length_sha256 preimage)
    (Known.lookup_learn_self _ _ _) hlength
  have hhistory : h = _ := calc
    h = (((({} : History).next (.register (.list elements))).next
          (.register (.preimage preimage))).next
          (.execute (Query.leafProof (merkleRoot elements) list.size index).toBytes)).next
          (.execute (Query.preimage (sha256 preimage)).toBytes) := by
        rw [hleaves]
        rfl
    _ = _ := by rw [hregister, hproof, hpreimage]
  rw [hhistory]
  exact ⟨rfl, rfl⟩

/-- What is pending then neither belongs to the latest request, nor can it be handed out. -/
theorem not_suffix_of_interrupted_proof (hindex : index < elements.length)
    (hsize : elements.length < 2 ^ 64)
    (hproof : 7 ≤ ((MerkleList.ofElements elements).tree.proof index).length)
    (hlong : 255 ≤ preimage.length) (hlength : preimage.length < 2 ^ 64) :
    let h := history (interruptedRun elements index preimage)
    ¬ h.responder.queue <:+ h.latest ∧
      (execute [0xA0]).run h.responder = .error (.protocol .unevenElements) h.responder := by
  intro h
  obtain ⟨hqueue, hlatest⟩ := history_interruptedRun preimage hindex hsize hlength
  have hpending := proofRest_ne_nil hproof
  have hplace : index < (elements.map elementHash).length := by rwa [List.length_map]
  have hdigests := MerkleTree.length_of_mem_proof hplace length_of_mem_map_elementHash
  constructor
  · -- A suffix is not longer than the latest elements, but the queue holds the proof as well.
    intro hsuffix
    have hlengths := hsuffix.length_le
    rw [hqueue, hlatest, List.length_append] at hlengths
    exact hpending (List.eq_nil_of_length_eq_zero (by omega))
  · have hmixed := run_answerMoreElements_of_mixed hqueue hpending
      (fun e he => hdigests e (List.mem_of_mem_drop he)) (preimageRest_ne_nil hlong)
    rw [run_execute_moreElements, hmixed]
    rfl

end Interrupted

/-- A proof of the first of 65 empty elements is interrupted by 300 zero bytes. -/
theorem not_continues_of_interrupted_proof :
    let actions := interruptedRun (List.replicate 65 []) 0 (List.replicate 300 0)
    ¬ Continues (history actions) ∧
      (execute [0xA0]).run (reached actions) =
        .error (.protocol .unevenElements) (reached actions) := by
  intro actions
  have hproof : 7 ≤ ((MerkleList.ofElements (List.replicate 65 [])).tree.proof 0).length := by
    have hpath : (merklePath 65 0).length = 7 := by cbv
    have hplace : 0 < ((List.replicate 65 []).map elementHash).length := by decide
    have hlength := MerkleTree.length_proof hplace
    rw [List.length_map, List.length_replicate, hpath] at hlength
    exact hlength.ge
  have hlong : (List.replicate 300 (0 : UInt8)).length = 300 := List.length_replicate
  have hzero : 0 < (List.replicate 65 ([] : Bytes)).length := by decide
  obtain ⟨hqueue, huneven⟩ := not_suffix_of_interrupted_proof hzero (by decide) hproof
    (show 255 ≤ (List.replicate 300 (0 : UInt8)).length by omega) (by omega)
  rw [← responder_history]
  exact ⟨fun hcontinues => hqueue hcontinues.queue, huneven⟩

end Responder
end SignerHost
