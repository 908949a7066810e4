import SignerHost.Proofs.Psbt.Registered
import SignerHost.Proofs.Responder.Recorded

/-!
# A registered map can be looked up at any later time

A map is registered in the middle of a run.  Whatever was registered and asked before, and whatever
is registered and asked afterwards, a device that holds the commitment finds the value of every key,
or learns that there is none, as soon as the queue is empty.

* `KnowsList.next` is the step: no action of an orderly responder makes it forget a list, as long as
  no digest stands for two different things.
* `knowsMap_run` carries it through the actions behind the registration.
* `lookup_of_registered` is the lookup.  Nothing is asked of the actions in front of the
  registration, because registering a list replaces what stood under its digests.
-/

namespace SignerHost
namespace Responder

open Step

/-- The responder after some actions, from any responder. -/
def continued (r : Responder) (actions : List Action) : Responder :=
  actions.foldl (fun r action => action.next r) r

theorem reached_append (actions later : List Action) :
    reached (actions ++ later) = (reached actions).continued later :=
  List.foldl_append

section Step

variable {run : List Hashed} (hrun : NoCollision run) {r : Responder} (horderly : r.Orderly)

include hrun horderly

/-- What is registered later has other digests or is the same, and requests register nothing. -/
theorem KnowsList.next {xs : List Bytes} (h : r.KnowsList xs)
    (hxs : ∀ a ∈ hashedElements xs, a ∈ run) {action : Action}
    (hhashed : ∀ a ∈ action.hashed, a ∈ run) : (action.next r).KnowsList xs := by
  cases action with
  | register registration =>
      show (after registration.perform r).KnowsList xs
      rw [registration.after_perform]
      apply registration.effect_keeps (P := fun r => r.KnowsList xs) _ _ _ h
      · intro bs hbs r hr
        exact hr.withPreimage hrun hxs
          (hhashed _ (List.mem_append_left _ (List.mem_map_of_mem hbs)))
      · intro ys hys r hr
        refine hr.withList hrun (fun a ha => hhashed a ?_) hxs
        exact List.mem_append_right _ (List.mem_flatMap.mpr ⟨ys, hys, ha⟩)
      · intro r keyLists hr
        exact ⟨hr.list, hr.elements⟩
  | execute request =>
      show (after (Responder.execute request) r).KnowsList xs
      rcases horderly.execute_cases request with ⟨q, a, s, -, hgrants, -, hs⟩ | ⟨cause, hs⟩
      · -- An answer takes from the queue and adds to it; what is known stays.
        obtain ⟨hpreimages, hlists⟩ := hgrants.known
        rw [after_of_ok hs]
        refine ⟨hlists ▸ h.list, fun e he => ?_⟩
        rw [KnowsPreimage, hpreimages]
        exact h.elements e he
      · rwa [after_of_error hs]
  | takeYielded => exact ⟨h.list, h.elements⟩

theorem KnowsList.continued {xs : List Bytes} (h : r.KnowsList xs)
    (hxs : ∀ a ∈ hashedElements xs, a ∈ run) {actions : List Action}
    (hhashed : ∀ a ∈ actions.flatMap Action.hashed, a ∈ run) :
    (r.continued actions).KnowsList xs := by
  induction actions generalizing r with
  | nil => exact h
  | cons action rest ih =>
      rw [List.flatMap_cons, List.forall_mem_append] at hhashed
      exact ih (horderly.next action) (h.next hrun horderly hxs hhashed.1) hhashed.2

end Step

/-- After a run in which a map was registered, its keys and its values are known. -/
theorem knowsMap_run {run : List Hashed} (hrun : NoCollision run) (before later : List Action)
    {m : ByteMap} (hsize : m.size < 2 ^ 64)
    (hshort : ∀ value ∈ m.values, value.length < 2 ^ 64 - 1)
    (hhashed : ∀ a ∈ (.register (.map m) :: later).flatMap Action.hashed, a ∈ run) :
    Device.KnowsMap (reached (before ++ .register (.map m) :: later)) m := by
  rw [List.flatMap_cons, List.forall_mem_append] at hhashed
  have hlists : ∀ xs ∈ m.lists, ∀ a ∈ hashedElements xs, a ∈ run := fun xs hxs a ha =>
    hhashed.1 a (List.mem_flatMap.mpr ⟨xs, hxs, ha⟩)
  -- Both lists are known right after the registration.
  have hnext : (Action.register (.map m)).next (reached before) =
      (reached before).withLists m.lists := Registration.after_perform (.map m) _
  have hknown : ∀ xs ∈ m.lists,
      (reached (before ++ .register (.map m) :: later)).KnowsList xs := by
    intro xs hxs
    rw [reached_append, continued, List.foldl_cons, hnext]
    refine (knowsList_withLists hrun hlists hxs).continued hrun ?_ (hlists xs hxs) hhashed.2
    rw [← hnext]
    exact (orderly_reached before).next _
  exact
    { keys := hknown m.keys (by simp [ByteMap.lists])
      values := hknown m.values (by simp [ByteMap.lists])
      size := hsize
      short := hshort }

/-- A map that is registered in a run gets a commitment, and from then on a device that finds the
queue empty reads the value of any key from that commitment, or learns that the map does not have
the key.  A value of `2 ^ 64 - 1` bytes could not be announced, because its preimage has one byte
more. -/
theorem lookup_of_registered (before later : List Action) {m : ByteMap} (hsize : m.size < 2 ^ 64)
    (hshort : ∀ value ∈ m.values, value.length < 2 ^ 64 - 1) (key : Bytes)
    (hrun : NoCollision
      (.bytes (leafString key) :: (.register (.map m) :: later).flatMap Action.hashed))
    (hidle : (reached (before ++ .register (.map m) :: later)).queue = []) :
    ∃ commitment, result (addMap m) (reached before) = .ok commitment ∧
      (Device.lookup commitment key).run (reached (before ++ .register (.map m) :: later)) =
        .ok (m.find? key) (reached (before ++ .register (.map m) :: later)) := by
  refine ⟨m.commitment, result_of_ok (run_addMap_eq_ok.mpr ⟨hsize, rfl, rfl⟩), ?_⟩
  have hhashed : ∀ a ∈ (.register (.map m) :: later).flatMap Action.hashed, a ∈
      Hashed.bytes (leafString key) :: (.register (.map m) :: later).flatMap Action.hashed :=
    fun a ha => List.mem_cons_of_mem _ ha
  apply Device.run_lookup hidle hrun List.mem_cons_self
    (knowsMap_run hrun before later hsize hshort hhashed)
  intro a ha
  refine hhashed a (List.mem_append_left _ (List.mem_append_right _ ?_))
  exact List.mem_flatMap.mpr ⟨m.keys, List.mem_cons_self, ha⟩

/-- The value of one of two keys that have the same value.  The list of the values was registered
before, the list of the keys is registered later, and so is the empty map. -/
theorem lookup_of_registered_of_equal_values :
    let before : List Action := [.register (.list [[1], [1]]), .execute [0xA0]]
    let m : ByteMap := .ofPairs [([7], [1]), ([5], [1])]
    let later : List Action :=
      [.register (.list [[5], [7]]), .register (.map .empty), .execute [0x10, 0xAB]]
    NoCollision (.bytes (leafString [7]) :: (.register (.map m) :: later).flatMap Action.hashed) ∧
      (reached (before ++ .register (.map m) :: later)).queue = [] ∧
      ∃ commitment, result (addMap m) (reached before) = .ok commitment ∧
        (Device.lookup commitment [7]).run (reached (before ++ .register (.map m) :: later)) =
          .ok (some [1]) (reached (before ++ .register (.map m) :: later)) := by
  intro before m later
  have hrun : NoCollision (.bytes (leafString [7]) ::
      (.register (.map m) :: later).flatMap Action.hashed) := by decide +kernel
  have hidle : (reached (before ++ .register (.map m) :: later)).queue = [] := by decide +kernel
  exact ⟨hrun, hidle, lookup_of_registered before later (by decide) (by decide) [7] hrun hidle⟩

end Responder
end SignerHost
