import SignerHost.Proofs.Responder.Headers
import SignerHost.Proofs.Responder.Pending

/-!
# No element is lost or handed out twice

Two kinds of answers may leave something over, and answers to requests for more elements hand it
out.  Over a whole run the account is exact, with refused requests at any place in it.

* `Answered` is a request of a run that was answered; `answered` lists them in their order.
* `Answered.handed` is what a device reads from an answer with more elements, and `Answered.owed`
  what the first answer to a request leaves to be asked for.
* `handed_append_queue_next` is the account of one action, whatever is queued.
* `handed_append_queue` is the account of a run: what was handed out and what is queued is what was
  owed, in this order.
-/

namespace SignerHost
namespace Responder

/-! ## The answered requests of a run -/

/-- A request that was answered.  It holds the responder that the request found, since what is
owed depends on that. -/
structure Answered where
  /-- The responder that the request found. -/
  before : Responder
  query : Query
  answer : Bytes

namespace Answered

/-- The elements that the answer hands out, if it was more elements that were asked for.  A
request for anything else hands out nothing of the queue. -/
def handed (x : Answered) : List Bytes :=
  match x.query with
  | .moreElements => ((Device.read? Device.readElementsAnswer x.answer).map Prod.snd).getD []
  | .yield _ | .preimage _ | .leafProof _ _ _ | .leafIndex _ _ => []

/-- What the answer leaves to be asked for: the bytes behind the first part of a byte string, each
as an element, or the digests behind the first six of a proof. -/
def owed (x : Answered) : List Bytes :=
  match x.query with
  | .preimage digest =>
      match x.before.preimages.lookup digest, Device.read? Device.readPreimageAnswer x.answer with
      | some preimage, some (_, part) => (preimage.drop part.length).map fun b => [b]
      | _, _ => []
  | .leafProof root _ index =>
      match x.before.lists.lookup root with
      | some list => (list.tree.proof index).drop 6
      | none => []
  | .yield _ | .leafIndex _ _ | .moreElements => []

end Answered

/-- The action as an answered request, if it is one. -/
def answered? (r : Responder) : Action → Option Answered
  | .execute request =>
      match Query.parse request, (execute request).run r with
      | .ok query, .ok answer _ => some ⟨r, query, answer⟩
      | _, _ => none
  | .register _ | .takeYielded => none

/-- The answered requests of a run that finds a responder, in their order.  Requests that were
refused and everything that is no request are left out. -/
def answeredFrom (r : Responder) : List Action → List Answered
  | [] => []
  | action :: rest => (answered? r action).toList ++ answeredFrom (action.next r) rest

/-- The answered requests of a run that starts with a new responder. -/
def answered (actions : List Action) : List Answered := answeredFrom {} actions

section

variable {r : Responder}

theorem answered?_of_ok {request a : Bytes} {q : Query} {after : Responder}
    (hwritten : Query.Written q request) (hrun : (execute request).run r = .ok a after) :
    answered? r (.execute request) = some ⟨r, q, a⟩ := by
  rw [answered?, hrun, Query.parse_eq_ok.mpr hwritten]

theorem answered?_of_error {request : Bytes} {failure : Failure} {after : Responder}
    (hrun : (execute request).run r = .error failure after) :
    answered? r (.execute request) = none := by
  rw [answered?, hrun]
  cases Query.parse request <;> rfl

end

/-! ## One action -/

namespace Orderly

variable {r : Responder} (h : r.Orderly)

include h

/-- The account of an answered request. -/
theorem handed_append_queue_of_grants {q : Query} {a : Bytes} {after : Responder}
    (hgrants : r.Grants q a after) (hheader : r.Announces q a) :
    (Answered.mk r q a).handed ++ after.queue = r.queue ++ (Answered.mk r q a).owed := by
  cases hgrants with
  | yield fragment => simp [Answered.handed, Answered.owed]
  | leafIndex leaf hknown => simp [Answered.handed, Answered.owed]
  | @preimage digest preimage hknown =>
      obtain ⟨preimage', hknown', hread⟩ := hheader.read_preimage
      obtain rfl : preimage = preimage' := Option.some.inj (hknown.symm.trans hknown')
      simp only [Answered.handed, Answered.owed, hknown, hread, List.nil_append,
        length_take_preimageRoom]
      rfl
  | @leafProof root list index hknown hindex hidle =>
      -- A proof is answered only if nothing is queued, so that all of the new queue is owed by it.
      have hroom : proofRest (list.tree.proof index) = (list.tree.proof index).drop 6 := by
        have hmin : proofRoom (list.tree.proof index).length =
            min 6 (list.tree.proof index).length := rfl
        rw [proofRest, hmin, ← List.drop_eq_drop_min]
      simp only [Answered.handed, Answered.owed, hknown, hidle, List.nil_append, hroom]
  | moreElements hne heven =>
      obtain ⟨width, part, hread, hqueue⟩ := h.read_elements (.moreElements hne heven)
      simp only [Answered.handed, Answered.owed, hread, Option.map_some, Option.getD_some,
        List.append_nil]
      exact hqueue

/-- The account of an action: a registration, a refused request and taking the fragments neither
hand out nor owe anything. -/
theorem handed_append_queue_next (action : Action) :
    (answered? r action).toList.flatMap Answered.handed ++ (action.next r).queue =
      r.queue ++ (answered? r action).toList.flatMap Answered.owed := by
  cases action with
  | register registration =>
      have hqueue : ((Action.register registration).next r).queue = r.queue := by
        show (Step.after registration.perform r).queue = r.queue
        rw [registration.after_perform, queue_effect]
      simp [answered?, hqueue]
  | takeYielded => exact (List.append_nil r.queue).symm
  | execute request =>
      rcases h.execute_cases request with ⟨q, a, after, hwritten, hgrants, -, hrun⟩ | ⟨cause, hrun⟩
      · have hnext : (Action.execute request).next r = after := Step.after_of_ok hrun
        rw [answered?_of_ok hwritten hrun, hnext]
        simpa using h.handed_append_queue_of_grants hgrants (h.announces_execute hwritten hrun)
      · have hnext : (Action.execute request).next r = r := Step.after_of_error hrun
        simp [answered?_of_error hrun, hnext]

theorem announces_of_mem_answered? {action : Action} {x : Answered} (hx : x ∈ answered? r action) :
    x.before.Announces x.query x.answer := by
  cases action with
  | register registration => cases hx
  | takeYielded => cases hx
  | execute request =>
      rcases h.execute_cases request with ⟨q, a, after, hwritten, -, -, hrun⟩ | ⟨cause, hrun⟩
      · rw [answered?_of_ok hwritten hrun] at hx
        cases hx
        exact h.announces_execute hwritten hrun
      · rw [answered?_of_error hrun] at hx
        cases hx

/-! ## A run -/

/-- What is queued at first is handed out first. -/
theorem handed_append_queue_from (actions : List Action) :
    (answeredFrom r actions).flatMap Answered.handed ++
        (actions.foldl (fun r action => action.next r) r).queue =
      r.queue ++ (answeredFrom r actions).flatMap Answered.owed := by
  induction actions generalizing r with
  | nil => exact (List.append_nil r.queue).symm
  | cons action rest ih =>
      have hstep := h.handed_append_queue_next action
      have hrest := ih (h.next action)
      rw [List.foldl_cons, answeredFrom, List.flatMap_append, List.flatMap_append,
        List.append_assoc, hrest, ← List.append_assoc, hstep, List.append_assoc]

theorem announces_of_mem_answeredFrom {actions : List Action} {x : Answered}
    (hx : x ∈ answeredFrom r actions) : x.before.Announces x.query x.answer := by
  induction actions generalizing r with
  | nil => cases hx
  | cons action rest ih =>
      rcases List.mem_append.mp hx with hx | hx
      · exact h.announces_of_mem_answered? (Option.mem_toList.mp hx)
      · exact ih (h.next action) hx

end Orderly

/-- After every run what was handed out so far and what is queued is what was owed so far, element
by element, and the header of every answer is true. -/
theorem handed_append_queue (actions : List Action) :
    (answered actions).flatMap Answered.handed ++ (reached actions).queue =
        (answered actions).flatMap Answered.owed ∧
      ∀ x ∈ answered actions, x.before.Announces x.query x.answer :=
  ⟨Orderly.new.handed_append_queue_from actions,
    fun _ hx => Orderly.new.announces_of_mem_answeredFrom hx⟩

end Responder
end SignerHost
