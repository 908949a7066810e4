import SignerHost.Proofs.Responder.Reachable

/-!
# What is found was registered

Every entry of a responder stands under the digest of its own contents.  An entry can only be
replaced by one with the same digest, so as long as no digest stands for two different things,
learning more lists takes nothing away.

* `Recorded` is the invariant of a run: all that is found was hashed in it.
* `Remembers` compares two responders by what is found in them, under every key.
* `Recorded.remembers_withLists` holds whatever the lists are.
-/

namespace SignerHost
namespace Responder

/-- Lists change nothing but what is found. -/
theorem withElements_eq (r : Responder) (elements : List Bytes) :
    r.withElements elements = { r with preimages := (r.withElements elements).preimages } := by
  induction elements generalizing r with
  | nil => rfl
  | cons e rest ih => exact ih (r.withPreimage (leafString e))

theorem withLists_eq (r : Responder) (lists : List (List Bytes)) :
    r.withLists lists =
      { r with
        preimages := (r.withLists lists).preimages
        lists := (r.withLists lists).lists } := by
  induction lists generalizing r with
  | nil => rfl
  | cons xs rest ih =>
      rw [withLists, List.foldl_cons, ← withLists, ih, withList, withElements_eq]

/-- Everything that is found stands under its own digest, and was hashed in the run.  So whatever
a responder answers can be traced back to the run. -/
structure Recorded (run : List Hashed) (r : Responder) : Prop where
  preimages : ∀ digest bs, r.preimages.lookup digest = some bs →
    digest = sha256 bs ∧ .bytes bs ∈ run
  lists : ∀ root list, r.lists.lookup root = some list →
    ∃ xs, root = merkleRoot xs ∧ list = .ofElements xs ∧ ∀ a ∈ hashedElements xs, a ∈ run

/-- Everything that is found in the first responder is found in the second, and is the same.  The
second responder may know more. -/
structure Remembers (before after : Responder) : Prop where
  preimages : ∀ digest bs, before.preimages.lookup digest = some bs →
    after.preimages.lookup digest = some bs
  lists : ∀ root list, before.lists.lookup root = some list → after.lists.lookup root = some list

namespace Remembers

theorem refl (r : Responder) : r.Remembers r where
  preimages := fun _ _ h => h
  lists := fun _ _ h => h

theorem trans {r s t : Responder} (hrs : r.Remembers s) (hst : s.Remembers t) :
    r.Remembers t where
  preimages := fun _ _ h => hst.preimages _ _ (hrs.preimages _ _ h)
  lists := fun _ _ h => hst.lists _ _ (hrs.lists _ _ h)

end Remembers

namespace Recorded

variable {run : List Hashed}

theorem new : Recorded run {} where
  preimages := by
    intro digest bs h
    cases h
  lists := by
    intro root list h
    cases h

variable {r : Responder} (h : r.Recorded run)

include h

theorem mono {run' : List Hashed} (hsub : ∀ a ∈ run, a ∈ run') : r.Recorded run' where
  preimages := fun digest bs hlookup =>
    (h.preimages digest bs hlookup).imp_right (hsub _)
  lists := fun root list hlookup => by
    obtain ⟨xs, hroot, hlist, hxs⟩ := h.lists root list hlookup
    exact ⟨xs, hroot, hlist, fun a ha => hsub a (hxs a ha)⟩

theorem withPreimage {bs : Bytes} (hbs : .bytes bs ∈ run) : (r.withPreimage bs).Recorded run where
  preimages := by
    intro digest found hlookup
    rcases Known.eq_or_of_lookup_learn hlookup with ⟨rfl, rfl⟩ | hlookup
    · exact ⟨rfl, hbs⟩
    · exact h.preimages digest found hlookup
  lists := h.lists

theorem withElements {elements : List Bytes}
    (helements : ∀ e ∈ elements, .bytes (leafString e) ∈ run) :
    (r.withElements elements).Recorded run := by
  induction elements generalizing r with
  | nil => exact h
  | cons e rest ih =>
      obtain ⟨he, hrest⟩ := List.forall_mem_cons.mp helements
      exact ih (h.withPreimage he) hrest

theorem withList {elements : List Bytes} (hhashed : ∀ a ∈ hashedElements elements, a ∈ run) :
    (r.withList elements).Recorded run where
  preimages := (h.withElements fun _ he => hhashed _ (bytes_leafString_mem he)).preimages
  lists := by
    intro root list hlookup
    rw [lists_withList] at hlookup
    rcases Known.eq_or_of_lookup_learn hlookup with ⟨rfl, rfl⟩ | hlookup
    · exact ⟨elements, rfl, rfl, hhashed⟩
    · exact h.lists root list hlookup

/-! ## Nothing is forgotten -/

variable (hrun : NoCollision run)

include hrun

theorem remembers_withList {elements : List Bytes}
    (hhashed : ∀ a ∈ hashedElements elements, a ∈ run) : r.Remembers (r.withList elements) where
  preimages := by
    intro digest bs hlookup
    obtain ⟨rfl, hbs⟩ := h.preimages digest bs hlookup
    exact KnowsPreimage.withList hrun hhashed hlookup hbs
  lists := by
    intro root list hlookup
    obtain ⟨xs, rfl, rfl, hxs⟩ := h.lists root list hlookup
    exact lookup_lists_withList hrun hhashed hlookup hxs

theorem remembers_withLists {lists : List (List Bytes)}
    (hhashed : ∀ xs ∈ lists, ∀ a ∈ hashedElements xs, a ∈ run) :
    r.Remembers (r.withLists lists) := by
  induction lists generalizing r with
  | nil => exact .refl r
  | cons xs rest ih =>
      obtain ⟨hxs, hrest⟩ := List.forall_mem_cons.mp hhashed
      exact (h.remembers_withList hrun hxs).trans (ih (h.withList hxs) hrest)

end Recorded

/-! ## Runs -/

/-- Everything that is hashed in an action. -/
def Action.hashed : Action → List Hashed
  | register registration => registration.hashed
  | execute _ | takeYielded => []

theorem Recorded.next {run : List Hashed} {r : Responder} (h : r.Recorded run)
    (horderly : r.Orderly) {action : Action} (hhashed : ∀ a ∈ action.hashed, a ∈ run) :
    (action.next r).Recorded run := by
  cases action with
  | register registration =>
      show (Step.after registration.perform r).Recorded run
      rw [registration.after_perform]
      apply registration.effect_keeps _ _ _ h
      · intro bs hbs r hr
        exact hr.withPreimage (hhashed _ (List.mem_append_left _ (List.mem_map_of_mem hbs)))
      · intro xs hxs r hr
        exact hr.withList fun a ha =>
          hhashed a (List.mem_append_right _ (List.mem_flatMap.mpr ⟨xs, hxs, ha⟩))
      · intro r keyLists hr
        exact ⟨hr.preimages, hr.lists⟩
  | execute request =>
      show (Step.after (Responder.execute request) r).Recorded run
      rcases horderly.execute_cases request with ⟨q, a, s, -, hgrants, -, hs⟩ | ⟨cause, hs⟩
      · obtain ⟨hpreimages, hlists⟩ := hgrants.known
        rw [Step.after_of_ok hs]
        exact ⟨hpreimages ▸ h.preimages, hlists ▸ h.lists⟩
      · rwa [Step.after_of_error hs]
  | takeYielded => exact ⟨h.preimages, h.lists⟩

/-- After every run all that is found was hashed in it.  Requests register nothing, so they add
nothing to what is found. -/
theorem recorded_reached (actions : List Action) :
    (reached actions).Recorded (actions.flatMap Action.hashed) := by
  -- Only an orderly responder is known to keep its entries when it executes a request.
  have hkept : (reached actions).Orderly ∧
      (reached actions).Recorded (actions.flatMap Action.hashed) := by
    apply reached_keeps (P := fun r => r.Orderly ∧ r.Recorded (actions.flatMap Action.hashed))
    · exact ⟨.new, .new⟩
    · intro action haction r hr
      refine ⟨hr.1.next action, hr.2.next hr.1 fun a ha => ?_⟩
      exact List.mem_flatMap.mpr ⟨action, haction, ha⟩
  exact hkept.2

end Responder
end SignerHost
