import SignerHost.Proofs.Responder.Headers
import SignerHost.Proofs.Responder.Pending

/-!
# Answers fit, and a device that asks for more gets there

A device that asks for more elements again and again is either refused at once, or has emptied the
queue after finitely many answers.  Each of these hands out as much as an answer may hold.

* `HandsOut` is the answer to a request for more elements; `Orderly.ask_more_cases` says that the
  request is answered so, unless nothing is queued or the queue is uneven.
* `Orderly.drains` is the run of such requests, by induction on the length of the queue.
* `serves_reached` puts this together with the lengths and the headers of all answers, for every
  responder that a run can lead to.
-/

namespace SignerHost
namespace Responder

open Step

/-- The elements do not all have the same length. -/
def Uneven (elements : List Bytes) : Prop :=
  ∃ e ∈ elements, ∃ other ∈ elements, e.length ≠ other.length

/-- The answer holds elements from the front of the queue, at least one and as many as fit.  So
the queue gets shorter with each such answer. -/
structure HandsOut (r : Responder) (answer : Bytes) (after : Responder) (part : List Bytes) :
    Prop where
  read : ∃ width, Device.read? Device.readElementsAnswer answer = some (width, part)
  queue : part ++ after.queue = r.queue
  ne_nil : part ≠ []
  fits : part.flatten.length ≤ 253
  /-- With the next element there would be more than fits. -/
  full : ∀ next ∈ after.queue.head?, 253 < part.flatten.length + next.length

/-- An answer is filled as far as its elements allow. -/
theorem full_of_elementsRoom {width : Nat} (hpos : 0 < width) {queue : List Bytes}
    (heven : ∀ e ∈ queue, e.length = width) {next : Bytes}
    (hnext : next ∈ (queue.drop (elementsRoom width queue.length)).head?) :
    253 < (queue.take (elementsRoom width queue.length)).flatten.length + next.length := by
  have hmem : next ∈ queue := List.mem_of_mem_drop (List.mem_of_mem_head? hnext)
  -- Something is left over, so that the number of elements is the largest one that fits.
  have hleft : elementsRoom width queue.length < queue.length := by
    by_contra hle
    rw [List.drop_eq_nil_of_le (Nat.le_of_not_lt hle)] at hnext
    cases hnext
  have hroom : elementsRoom width queue.length = 253 / width :=
    Nat.min_eq_left (Nat.le_of_not_lt fun hlt =>
      absurd (Nat.min_eq_right hlt.le) hleft.ne)
  have hflatten := length_flatten_of_even fun e he =>
    heven e (List.mem_of_mem_take (i := elementsRoom width queue.length) he)
  rw [hflatten, List.length_take, Nat.min_eq_left hleft.le, heven next hmem, hroom,
    ← Nat.succ_mul, Nat.mul_comm]
  exact Nat.lt_mul_div_succ 253 hpos

namespace Orderly

variable {r : Responder} (h : r.Orderly)

include h

theorem handsOut {width : Nat} (hne : r.queue ≠ []) (heven : ∀ e ∈ r.queue, e.length = width) :
    ∃ a after part, (Responder.execute [0xA0]).run r = .ok a after ∧ after.Orderly ∧
      r.HandsOut a after part := by
  obtain ⟨hpos, hwidth⟩ := h.width_bounds hne heven
  have hlength : 0 < r.queue.length := List.length_pos_iff.mpr hne
  -- The part handed out and the responder that keeps the rest of the queue.
  let part := r.queue.take (elementsRoom width r.queue.length)
  let after : Responder := { r with queue := r.queue.drop (elementsRoom width r.queue.length) }
  have hrun : (Responder.execute [0xA0]).run r = .ok (elementsAnswer width part) after := by
    rw [run_execute_moreElements, run_answerMoreElements hne heven hpos (by omega)]
  have hpart : ∀ e ∈ part, e.length = width := fun e he => heven e (List.mem_of_mem_take he)
  have hcount : part.length ≤ elementsRoom width r.queue.length := List.length_take_le _ _
  have hfits : part.length ≤ 253 / width := hcount.trans (Nat.min_le_left _ _)
  refine ⟨_, after, part, hrun, ⟨h.built, fun e he => h.queued e (List.mem_of_mem_drop he)⟩, {
    read := ⟨width, Device.read?_of_run (Device.run_readElementsAnswer hpart (by omega)
      (hcount.trans_lt (elementsRoom_lt _ _)))⟩
    queue := List.take_append_drop _ _
    ne_nil := ?_
    fits := ?_
    full := fun next hnext => full_of_elementsRoom hpos heven hnext }⟩
  · rw [← List.length_pos_iff, List.length_take]
    exact lt_min (elementsRoom_pos hpos (by omega) hlength) hlength
  · rw [length_flatten_of_even hpart]
    exact Nat.mul_le_of_le_div _ _ _ hfits

/-- A request for more elements is refused without an effect, because nothing is queued or because
the queue is uneven, or it is answered. -/
theorem ask_more_cases :
    ((r.queue = [] ∨ Uneven r.queue) ∧
        ∃ cause, (Responder.execute [0xA0]).run r = .error (.protocol cause) r) ∨
      ∃ a after part, (Responder.execute [0xA0]).run r = .ok a after ∧ after.Orderly ∧
        r.HandsOut a after part := by
  rw [run_execute_moreElements]
  by_cases hne : r.queue = []
  · rw [run_answerMoreElements_of_nil hne]
    exact .inl ⟨.inl hne, _, rfl⟩
  obtain ⟨first, rest, hqueue⟩ := List.exists_cons_of_ne_nil hne
  by_cases heven : ∀ e ∈ r.queue, e.length = first.length
  · rw [← run_execute_moreElements]
    exact .inr (h.handsOut hne heven)
  · push Not at heven
    obtain ⟨e, he, hlength⟩ := heven
    rw [run_answerMoreElements_of_uneven hqueue he hlength]
    exact .inl ⟨.inr ⟨e, he, first, by simp [hqueue], hlength⟩, _, rfl⟩

end Orderly

/-! ## Asking again and again -/

/-- The responder after a number of requests for more elements, and nothing else. -/
def asked (n : Nat) (r : Responder) : Responder := (Action.execute [0xA0]).next^[n] r

/-- A number of requests for more elements is answered, and then the queue is empty, or it is uneven
and the next request is refused. -/
def Drains (r : Responder) (n : Nat) : Prop :=
  (∀ k < n, ∃ a after, (execute [0xA0]).run (asked k r) = .ok a after) ∧
    ((asked n r).queue = [] ∨ Uneven (asked n r).queue ∧
      ∃ cause, (execute [0xA0]).run (asked n r) = .error (.protocol cause) (asked n r))

theorem drains_zero {r : Responder} (hqueue : r.queue = [] ∨ Uneven r.queue)
    (hrun : ∃ cause, (execute [0xA0]).run r = .error (.protocol cause) r) : r.Drains 0 :=
  ⟨fun k hk => absurd hk (Nat.not_lt_zero k), hqueue.imp_right fun huneven => ⟨huneven, hrun⟩⟩

theorem drains_succ {r after : Responder} {a : Bytes} {n : Nat}
    (hrun : (execute [0xA0]).run r = .ok a after) (h : after.Drains n) : r.Drains (n + 1) := by
  have hasked (k : Nat) : asked (k + 1) r = asked k after := by
    have hnext : (Action.execute [0xA0]).next r = after := after_of_ok hrun
    rw [asked, Function.iterate_succ_apply, hnext, asked]
  refine ⟨fun k hk => ?_, (hasked n).symm ▸ h.2⟩
  cases k with
  | zero => exact ⟨a, after, hrun⟩
  | succ k =>
      rw [hasked]
      exact h.1 k (Nat.lt_of_succ_lt_succ hk)

/-- Every answer takes at least one element off the queue.  The induction is on the length of the
queue. -/
theorem Orderly.drains {r : Responder} (h : r.Orderly) : ∃ n ≤ r.queue.length, r.Drains n := by
  induction hlength : r.queue.length using Nat.strong_induction_on generalizing r with
  | _ length ih =>
      rcases h.ask_more_cases with ⟨hqueue, hrun⟩ | ⟨a, after, part, hrun, hafter, hpart⟩
      · exact ⟨0, Nat.zero_le _, drains_zero hqueue hrun⟩
      · have hshorter : after.queue.length < length := by
          have hpos := List.length_pos_iff.mpr hpart.ne_nil
          rw [← hlength, ← hpart.queue, List.length_append]
          omega
        obtain ⟨n, hn, hdrains⟩ := ih _ hshorter hafter rfl
        exact ⟨n + 1, Nat.lt_of_le_of_lt hn hshorter, drains_succ hrun hdrains⟩

/-! ## After every run -/

/-- What a device gets from a responder, whatever it sends.  Its fields are the promises of the
protocol to a device. -/
structure Serves (r : Responder) : Prop where
  fits : ∀ request a after, (execute request).run r = .ok a after → a.length ≤ 255
  headers : ∀ request a after, (execute request).run r = .ok a after →
    ∃ q, Query.Written q request ∧ r.Announces q a
  more : ∀ a after, (execute [0xA0]).run r = .ok a after → ∃ part, r.HandsOut a after part
  refused : ∀ failure after, (execute [0xA0]).run r = .error failure after →
    (∃ cause, failure = .protocol cause) ∧ after = r ∧ (r.queue = [] ∨ Uneven r.queue)
  drains : ∃ n ≤ r.queue.length, r.Drains n

/-- After every run of registrations and requests a device is served with answers that fit and have
true headers; if it asks for nothing but more elements, it empties the queue or finds it uneven. -/
theorem serves_reached (actions : List Action) : (reached actions).Serves := by
  have h := orderly_reached actions
  refine ⟨fun request a after hrun => ?fits, fun request a after hrun => ?headers,
    fun a after hrun => ?more, fun failure after hrun => ?refused, h.drains⟩
  case fits =>
    have hanswers := h.execute request
    unfold Answers at hanswers
    rw [hrun] at hanswers
    exact hanswers.1
  case headers =>
    obtain ⟨q, hparse, hanswer⟩ := run_execute_eq_ok.mp hrun
    exact ⟨q, Query.parse_eq_ok.mp hparse, h.announces hanswer⟩
  case more =>
    rcases h.ask_more_cases with ⟨-, cause, hrefused⟩ | ⟨b, s, part, hanswered, -, hpart⟩
    · rw [hrefused] at hrun
      cases hrun
    · rw [hanswered] at hrun
      cases hrun
      exact ⟨part, hpart⟩
  case refused =>
    rcases h.ask_more_cases with ⟨hqueue, cause, hrefused⟩ | ⟨b, s, part, hanswered, -⟩
    · rw [hrefused] at hrun
      cases hrun
      exact ⟨⟨cause, rfl⟩, rfl, hqueue⟩
    · rw [hanswered] at hrun
      cases hrun

end Responder
end SignerHost
