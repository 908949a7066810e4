import SignerHost.Proofs.Responder.Orderly

/-!
# Which queries are answered

An answer depends on what is known and on the queue, and on nothing that happened before.  This
module says for every state which bytes are answered, with what, and what they leave behind.

* `Grants` is the relation between a responder, a query, its answer and the responder after it.
* `Orderly.grants` says that a query is only answered as `Grants` says; `Fitting.run_answer_eq_ok`
  says that it then is answered indeed, as long as what is known is not too long to be announced.
* `Answerable` lists the bytes that are answered; `Fitting.execute_cases` says that all others are
  refused.
-/

namespace SignerHost
namespace Responder

open Step

/-- A query, its answer and the responder after it.  There is one case for each kind of query. -/
inductive Grants (r : Responder) : Query → Bytes → Responder → Prop
  | yield (fragment : Bytes) :
      Grants r (.yield fragment) [] { r with yielded := r.yielded ++ [fragment] }
  | preimage {digest preimage : Bytes} (hknown : r.preimages.lookup digest = some preimage) :
      Grants r (.preimage digest) (preimageAnswer preimage)
        { r with queue := r.queue ++ preimageRest preimage }
  | leafProof {root : Bytes} {list : MerkleList} {index : Nat}
      (hknown : r.lists.lookup root = some list) (hindex : index < list.leaves.length)
      (hidle : r.queue = []) :
      Grants r (.leafProof root list.size index)
        (leafProofAnswer list.leaves[index] (list.tree.proof index))
        { r with queue := proofRest (list.tree.proof index) }
  | leafIndex {root : Bytes} {list : MerkleList} (leaf : Bytes)
      (hknown : r.lists.lookup root = some list) :
      Grants r (.leafIndex root leaf) (leafIndexAnswer (list.leaves.findIdx? (· = leaf))) r
  | moreElements {width : Nat} (hne : r.queue ≠ []) (heven : ∀ e ∈ r.queue, e.length = width) :
      Grants r .moreElements
        (elementsAnswer width (r.queue.take (elementsRoom width r.queue.length)))
        { r with queue := r.queue.drop (elementsRoom width r.queue.length) }

/-! ## What is answered is granted -/

section Granted

variable {r after : Responder} {a : Bytes}

theorem grants_preimage {digest : Bytes} (hrun : (answerPreimage digest).run r = .ok a after) :
    r.Grants (.preimage digest) a after := by
  rw [run_answerPreimage] at hrun
  cases hknown : r.preimages.lookup digest with
  | none =>
      rw [hknown] at hrun
      cases hrun
  | some preimage =>
      simp only [hknown] at hrun
      split_ifs at hrun
      cases hrun
      exact .preimage hknown

theorem grants_leafProof {root : Bytes} {size index : Nat}
    (hrun : (answerLeafProof root size index).run r = .ok a after) :
    r.Grants (.leafProof root size index) a after := by
  rw [run_answerLeafProof] at hrun
  cases hknown : r.lists.lookup root with
  | none =>
      rw [hknown] at hrun
      cases hrun
  | some list =>
      simp only [hknown] at hrun
      split_ifs at hrun with hplace hidle hlength
      cases hrun
      obtain ⟨hindex, rfl⟩ := hplace
      exact .leafProof hknown hindex hidle

theorem grants_leafIndex {root leaf : Bytes}
    (hrun : (answerLeafIndex root leaf).run r = .ok a after) :
    r.Grants (.leafIndex root leaf) a after := by
  rw [run_answerLeafIndex] at hrun
  cases hknown : r.lists.lookup root with
  | none =>
      rw [hknown] at hrun
      cases hrun
  | some list =>
      have hgrants := Grants.leafIndex leaf hknown
      cases hfound : list.leaves.findIdx? (· = leaf) with
      | none =>
          simp only [hknown, hfound] at hrun
          rw [hfound] at hgrants
          cases hrun
          exact hgrants
      | some index =>
          simp only [hknown, hfound] at hrun
          rw [hfound] at hgrants
          split_ifs at hrun
          cases hrun
          exact hgrants

namespace Orderly

variable (h : r.Orderly)

include h

theorem grants_moreElements (hrun : answerMoreElements.run r = .ok a after) :
    r.Grants .moreElements a after := by
  by_cases hne : r.queue = []
  · rw [run_answerMoreElements_of_nil hne] at hrun
    cases hrun
  obtain ⟨first, rest, hqueue⟩ := List.exists_cons_of_ne_nil hne
  by_cases heven : ∀ e ∈ r.queue, e.length = first.length
  · have hwidth := h.queued first (by simp [hqueue])
    rw [run_answerMoreElements hne heven (by omega) (by omega)] at hrun
    cases hrun
    exact .moreElements hne heven
  · push Not at heven
    obtain ⟨e, he, hlength⟩ := heven
    rw [run_answerMoreElements_of_uneven hqueue he hlength] at hrun
    cases hrun

/-- A query is answered in no other way than it is granted.  The case split is on the kind of the
query; in each case the answer is computed. -/
theorem grants {q : Query} (hrun : (answer q).run r = .ok a after) : r.Grants q a after := by
  cases q with
  | yield fragment =>
      cases hrun
      exact .yield fragment
  | preimage digest => exact grants_preimage hrun
  | leafProof root size index => exact grants_leafProof hrun
  | leafIndex root leaf => exact grants_leafIndex hrun
  | moreElements => exact h.grants_moreElements hrun

/-- Bytes are answered as the query that they hold is granted, or they are refused, and then nothing
has happened. -/
theorem execute_cases (request : Bytes) :
    (∃ q a after, Query.Written q request ∧ r.Grants q a after ∧ after.Orderly ∧
        (Responder.execute request).run r = .ok a after) ∨
      ∃ cause, (Responder.execute request).run r = .error (.protocol cause) r := by
  have hanswers := h.execute request
  unfold Answers at hanswers
  cases hrun : (Responder.execute request).run r with
  | ok a after =>
      rw [hrun] at hanswers
      obtain ⟨q, hparse, hanswer⟩ := run_execute_eq_ok.mp hrun
      exact .inl ⟨q, a, after, Query.parse_eq_ok.mp hparse, h.grants hanswer, hanswers.2, rfl⟩
  | error failure after =>
      rw [hrun] at hanswers
      obtain ⟨⟨cause, rfl⟩, rfl⟩ := hanswers
      exact .inr ⟨cause, rfl⟩

end Orderly

/-- No query changes what is known. -/
theorem Grants.known {q : Query} (h : r.Grants q a after) :
    after.preimages = r.preimages ∧ after.lists = r.lists := by
  cases h with
  | yield => exact ⟨rfl, rfl⟩
  | preimage => exact ⟨rfl, rfl⟩
  | leafProof => exact ⟨rfl, rfl⟩
  | leafIndex => exact ⟨rfl, rfl⟩
  | moreElements => exact ⟨rfl, rfl⟩

end Granted

/-! ## What is granted is answered -/

/-- What is known is short enough: the length of a byte string has a form, and so has every position
in a list. -/
structure Fitting (r : Responder) : Prop extends Orderly r where
  preimages : ∀ digest preimage, r.preimages.lookup digest = some preimage →
    preimage.length < 2 ^ 64
  lists : ∀ root list, r.lists.lookup root = some list → list.size ≤ 2 ^ 64

namespace Fitting

variable {r : Responder} (h : r.Fitting)

include h

/-- A query that has a form is answered exactly as it is granted. -/
theorem run_answer_eq_ok {q : Query} (hform : q.HasForm) {a : Bytes} {after : Responder} :
    (answer q).run r = .ok a after ↔ r.Grants q a after := by
  constructor
  · exact h.toOrderly.grants
  · intro hgrants
    cases hgrants with
    | yield fragment => rfl
    | preimage hknown => exact run_answerPreimage_of_lookup hknown (h.preimages _ _ hknown)
    | @leafProof root list index hknown hindex hidle =>
        obtain ⟨xs, rfl⟩ := h.built root list hknown
        exact run_answerLeafProof_of_lookup hknown hindex hidle
          (Device.length_proof_lt hindex hform.2.1)
    | @leafIndex root list leaf hknown =>
        exact run_answerLeafIndex_of_lookup leaf hknown (h.lists root list hknown)
    -- The queued elements have one width that fits a byte, since they were queued by an answer.
    | @moreElements width hne heven =>
        obtain ⟨first, rest, hqueue⟩ := List.exists_cons_of_ne_nil hne
        have hfirst : first ∈ r.queue := by simp [hqueue]
        have hwidth := h.queued first hfirst
        rw [heven first hfirst] at hwidth
        exact run_answerMoreElements hne heven (by omega) (by omega)

end Fitting

/-! ## The bytes that are answered -/

/-- The bytes that a responder answers.  It says so in terms of the bytes and of what is known,
and not of what is answered. -/
inductive Answerable (r : Responder) : Bytes → Prop
  /-- A fragment, whatever it is. -/
  | yield (fragment : Bytes) : Answerable r (0x10 :: fragment)
  /-- The digest of a known byte string. -/
  | preimage {digest : Bytes} (hlength : digest.length = 32)
      (hknown : (r.preimages.lookup digest).isSome) : Answerable r (0x40 :: 0x00 :: digest)
  /-- A known root with the number of its leaves and a position, while nothing is queued. -/
  | leafProof {root sizeForm indexForm : Bytes} {list : MerkleList} {index : Nat}
      (hlength : root.length = 32) (hknown : r.lists.lookup root = some list)
      (hsize : CompactSize.Form list.leaves.length sizeForm)
      (hindex : CompactSize.Form index indexForm)
      (hlt : index < list.leaves.length) (hidle : r.queue = []) :
      Answerable r (0x41 :: (root ++ (sizeForm ++ indexForm)))
  /-- A known root and a digest, whether it is one of the leaves or not. -/
  | leafIndex {root leaf : Bytes} (hroot : root.length = 32)
      (hknown : (r.lists.lookup root).isSome) (hleaf : leaf.length = 32) :
      Answerable r (0x42 :: (root ++ leaf))
  /-- Nothing but the code, while elements of one length are queued. -/
  | moreElements {width : Nat} (hne : r.queue ≠ []) (heven : ∀ e ∈ r.queue, e.length = width) :
      Answerable r [0xA0]

/-- The bytes that are answered are those of the queries that are granted.  The former are
described by their bytes, the latter by the query that they hold. -/
theorem answerable_iff {r : Responder} {request : Bytes} :
    r.Answerable request ↔ ∃ q a after, Query.Written q request ∧ r.Grants q a after := by
  constructor
  · intro h
    cases h with
    | yield fragment => exact ⟨_, _, _, .yield fragment, .yield fragment⟩
    | preimage hlength hknown =>
        obtain ⟨preimage, hknown⟩ := Option.isSome_iff_exists.mp hknown
        exact ⟨_, _, _, .preimage hlength, .preimage hknown⟩
    | leafProof hlength hknown hsize hindex hlt hidle =>
        exact ⟨_, _, _, .leafProof hlength hsize hindex, .leafProof hknown hlt hidle⟩
    | leafIndex hroot hknown hleaf =>
        obtain ⟨list, hknown⟩ := Option.isSome_iff_exists.mp hknown
        exact ⟨_, _, _, .leafIndex hroot hleaf, .leafIndex _ hknown⟩
    | moreElements hne heven => exact ⟨_, _, _, .moreElements, .moreElements hne heven⟩
  · rintro ⟨q, a, after, hwritten, hgrants⟩
    cases hgrants with
    | yield fragment =>
        cases hwritten
        exact .yield fragment
    | preimage hknown =>
        cases hwritten with
        | preimage hlength =>
            exact .preimage hlength (Option.isSome_iff_exists.mpr ⟨_, hknown⟩)
    | leafProof hknown hindex hidle =>
        cases hwritten with
        | leafProof hroot hsize hform => exact .leafProof hroot hknown hsize hform hindex hidle
    | leafIndex leaf hknown =>
        cases hwritten with
        | leafIndex hroot hleaf =>
            exact .leafIndex hroot (Option.isSome_iff_exists.mpr ⟨_, hknown⟩) hleaf
    | moreElements hne heven =>
        cases hwritten
        exact .moreElements hne heven

namespace Fitting

variable {r : Responder} (h : r.Fitting) {request : Bytes}

include h

/-- Bytes are answered exactly as the query that they hold is granted. -/
theorem run_execute_eq_ok {a : Bytes} {after : Responder} :
    (execute request).run r = .ok a after ↔ ∃ q, Query.Written q request ∧ r.Grants q a after := by
  rw [Responder.run_execute_eq_ok]
  constructor
  · rintro ⟨q, hparse, hanswer⟩
    have hwritten := Query.parse_eq_ok.mp hparse
    exact ⟨q, hwritten, (h.run_answer_eq_ok hwritten.hasForm).mp hanswer⟩
  · rintro ⟨q, hwritten, hgrants⟩
    exact ⟨q, Query.parse_eq_ok.mpr hwritten, (h.run_answer_eq_ok hwritten.hasForm).mpr hgrants⟩

/-- Bytes are answered or refused, and when they are refused nothing has happened. -/
theorem execute_cases (request : Bytes) :
    (r.Answerable request ∧ ∃ a after, (execute request).run r = .ok a after) ∨
      (¬ r.Answerable request ∧ ∃ cause, (execute request).run r = .error (.protocol cause) r) := by
  rcases h.toOrderly.execute_cases request with
    ⟨q, a, after, hwritten, hgrants, -, hrun⟩ | ⟨cause, hrun⟩
  · exact .inl ⟨answerable_iff.mpr ⟨q, a, after, hwritten, hgrants⟩, a, after, hrun⟩
  · refine .inr ⟨fun hanswerable => ?_, cause, hrun⟩
    obtain ⟨q, a, s, hwritten, hgrants⟩ := answerable_iff.mp hanswerable
    rw [h.run_execute_eq_ok.mpr ⟨q, hwritten, hgrants⟩] at hrun
    cases hrun

end Fitting
end Responder
end SignerHost
