import SignerHost.Proofs.Device.Retrieval
import SignerHost.Proofs.Responder.Grants

/-!
# Responders that a run can lead to

A run is any list of registrations, requests with any bytes, and takings of the fragments.  It
starts with a new responder, and a request may be refused in it.

* `Action` is what may happen, and `reached` is the responder after a list of actions.
* `orderly_reached` and `fitting_reached` are the invariants of a run, each by one lemma for a step.
* `answered_or_refused` says for every run and for all bytes whether these are answered; if not, the
  responder is as before.
-/

namespace SignerHost

open Step

/-- The byte strings and the elements are shorter than `2 ^ 64 - 1` bytes.  A list that fits into a
memory has at most `2 ^ 64` elements, so that every position in it has a form. -/
def Registration.Small (registration : Registration) : Prop :=
  (∀ bs ∈ registration.preimages, bs.length < 2 ^ 64 - 1) ∧
    ∀ xs ∈ registration.lists, xs.length ≤ 2 ^ 64 ∧ ∀ x ∈ xs, x.length < 2 ^ 64 - 1

instance (registration : Registration) : Decidable registration.Small :=
  inferInstanceAs (Decidable (_ ∧ _))

namespace Responder

/-- What may happen to a responder.  It is a registration, a request of the device, or the taking
of the fragments. -/
inductive Action
  | register (registration : Registration)
  | execute (request : Bytes)
  | takeYielded

/-- The responder after an action, whether that ended in a value or not. -/
def Action.next : Action → Responder → Responder
  | register registration, r => after registration.perform r
  | execute request, r => after (Responder.execute request) r
  | takeYielded, r => after Responder.takeYielded r

/-- What is registered in an action is small. -/
def Action.Small : Action → Prop
  | register registration => registration.Small
  | execute _ | takeYielded => True

instance : (action : Action) → Decidable action.Small
  | .register registration => inferInstanceAs (Decidable registration.Small)
  | .execute _ | .takeYielded => inferInstanceAs (Decidable True)

/-- A new responder after a list of actions.  What one action does is left to the next, also
after a failure. -/
def reached (actions : List Action) : Responder :=
  actions.foldl (fun r action => action.next r) {}

theorem reached_append_singleton (actions : List Action) (action : Action) :
    reached (actions ++ [action]) = action.next (reached actions) := by
  rw [reached, List.foldl_append]
  rfl

/-- What holds of a new responder and is kept by every action of a run holds after the run.  The
induction is on the actions of the run. -/
theorem reached_keeps {P : Responder → Prop} {actions : List Action} (hnew : P {})
    (hnext : ∀ action ∈ actions, ∀ r, P r → P (action.next r)) : P (reached actions) := by
  induction actions using List.reverseRecOn with
  | nil => exact hnew
  | append_singleton actions action ih =>
      rw [reached_append_singleton]
      apply hnext action (by simp)
      exact ih fun other hother => hnext other (List.mem_append_left _ hother)

/-! ## Order -/

namespace Orderly

variable {r : Responder} (h : r.Orderly)

include h

theorem next (action : Action) : (action.next r).Orderly := by
  cases action with
  | register registration =>
      show (after registration.perform r).Orderly
      rw [registration.after_perform]
      apply registration.effect_keeps _ _ _ h
      · intro bs _ r hr
        exact hr.withPreimage bs
      · intro xs _ r hr
        exact hr.withList xs
      · intro r keyLists hr
        exact ⟨hr.built, hr.queued⟩
  | execute request =>
      show (after (Responder.execute request) r).Orderly
      rcases h.execute_cases request with ⟨q, a, s, -, -, hs, hrun⟩ | ⟨cause, hrun⟩
      · rwa [after_of_ok hrun]
      · rwa [after_of_error hrun]
  | takeYielded => exact ⟨h.built, h.queued⟩

end Orderly

/-- After every run all lists are built from elements, and single bytes or digests are queued.
Nothing is asked of the sizes of what is registered. -/
theorem orderly_reached (actions : List Action) : (reached actions).Orderly :=
  reached_keeps .new fun action _ _ h => h.next action

/-! ## Lengths -/

namespace Fitting

theorem new : Fitting {} where
  toOrderly := .new
  preimages := by
    intro digest preimage h
    cases h
  lists := by
    intro root list h
    cases h

variable {r : Responder} (h : r.Fitting)

include h

theorem withPreimage {bs : Bytes} (hbs : bs.length < 2 ^ 64) : (r.withPreimage bs).Fitting where
  toOrderly := h.toOrderly.withPreimage bs
  preimages := by
    intro digest preimage hlookup
    rcases Known.of_lookup_learn hlookup with rfl | hlookup
    · exact hbs
    · exact h.preimages digest preimage hlookup
  lists := h.lists

/-- An element is one byte longer as the byte string that its leaf stands for. -/
theorem withElements {elements : List Bytes} (helements : ∀ e ∈ elements, e.length < 2 ^ 64 - 1) :
    (r.withElements elements).Fitting := by
  induction elements generalizing r with
  | nil => exact h
  | cons e rest ih =>
      obtain ⟨he, hrest⟩ := List.forall_mem_cons.mp helements
      have hleaf : (leafString e).length < 2 ^ 64 := by
        rw [leafString, List.length_cons]
        omega
      exact ih (h.withPreimage hleaf) hrest

theorem withList {elements : List Bytes} (hsize : elements.length ≤ 2 ^ 64)
    (helements : ∀ e ∈ elements, e.length < 2 ^ 64 - 1) : (r.withList elements).Fitting where
  toOrderly := h.toOrderly.withList elements
  preimages := (h.withElements helements).preimages
  lists := by
    intro root list hlookup
    rw [lists_withList] at hlookup
    rcases Known.of_lookup_learn hlookup with rfl | hlookup
    · show (elements.map elementHash).length ≤ 2 ^ 64
      rwa [List.length_map]
    · exact h.lists root list hlookup

theorem next {action : Action} (hsmall : action.Small) : (action.next r).Fitting := by
  cases action with
  | register registration =>
      obtain ⟨hpreimages, hlists⟩ := hsmall
      show (after registration.perform r).Fitting
      rw [registration.after_perform]
      apply registration.effect_keeps _ _ _ h
      · intro bs hbs r hr
        have hlength := hpreimages bs hbs
        exact hr.withPreimage (by omega)
      · intro xs hxs r hr
        exact hr.withList (hlists xs hxs).1 (hlists xs hxs).2
      · intro r keyLists hr
        exact ⟨⟨hr.built, hr.queued⟩, hr.preimages, hr.lists⟩
  | execute request =>
      show (after (Responder.execute request) r).Fitting
      rcases h.toOrderly.execute_cases request with
        ⟨q, a, s, -, hgrants, hs, hrun⟩ | ⟨cause, hrun⟩
      · obtain ⟨hpreimages, hlists⟩ := hgrants.known
        rw [after_of_ok hrun]
        exact ⟨hs, hpreimages ▸ h.preimages, hlists ▸ h.lists⟩
      · rwa [after_of_error hrun]
  | takeYielded => exact ⟨⟨h.built, h.queued⟩, h.preimages, h.lists⟩

end Fitting

/-- After every run of small registrations what is known is short enough to be announced. -/
theorem fitting_reached {actions : List Action} (hsmall : ∀ action ∈ actions, action.Small) :
    (reached actions).Fitting :=
  reached_keeps .new fun action haction _ h => h.next (hsmall action haction)

/-- After every run all bytes are either answered or refused with a protocol failure, which leaves
everything as it is; `Answerable` says which bytes are answered. -/
theorem answered_or_refused {actions : List Action} (hsmall : ∀ action ∈ actions, action.Small)
    (request : Bytes) :
    ((reached actions).Answerable request ∧
        ∃ a after, (execute request).run (reached actions) = .ok a after) ∨
      (¬ (reached actions).Answerable request ∧
        ∃ cause, (execute request).run (reached actions) =
          .error (.protocol cause) (reached actions)) :=
  (fitting_reached hsmall).execute_cases request

/-- The run behind `answered_or_refused_of_list`. -/
def listRun : List Action :=
  [.register (.list [[1], [2], [3]]), .execute [0x10, 0xAB], .execute [0xA0], .takeYielded,
    .register (.preimage [0x00, 0x01, 0x02])]

/-- A proof of the last leaf of three is asked for, with the number of leaves in a long form. -/
theorem answered_or_refused_of_list :
    (∀ action ∈ listRun, action.Small) ∧
      let request := 0x41 :: (merkleRoot [[1], [2], [3]] ++ ([0xFD, 0x03, 0x00] ++ [0x02]))
      (((reached listRun).Answerable request ∧
          ∃ a after, (execute request).run (reached listRun) = .ok a after) ∨
        (¬ (reached listRun).Answerable request ∧
          ∃ cause, (execute request).run (reached listRun) =
            .error (.protocol cause) (reached listRun))) := by
  have hsmall : ∀ action ∈ listRun, action.Small := by decide
  exact ⟨hsmall, answered_or_refused hsmall _⟩

end Responder
end SignerHost
