import SignerHost.Proofs.Psbt.Registered
import SignerHost.Proofs.Responder.Recorded

/-!
# Registering a transaction is all or nothing

All maps of a transaction are computed before the first of them is registered, and registering maps
that have a count does not fail.  So a transaction that is refused leaves no trace, be it for its
last output, by an integer that does not fit where it is written, or by a key that is read twice
when the fields of an input are read back.

* `Flattened.run_computed_eq_error` finds the failure in the computation of the maps, whatever that
  is, and `Psbt.run_register_eq_error` in the flattening.
* `Psbt.unchanged_or_remembered_of_register` covers both ends, for any transaction, also one that no
  parser gives.
-/

namespace SignerHost

/-- Maps that have a count are registered without a failure, so it is their computation that fails,
and the responder is as before. -/
theorem Flattened.run_computed_eq_error {computed : Except Failure Flattened}
    (hsizes : ∀ f, computed = .ok f → ∀ m ∈ f.maps, m.size < 2 ^ 64) {r r' : Responder}
    {failure : Failure} :
    (MonadExcept.ofExcept computed >>= register : Dialogue PsbtCommitments).run r =
      .error failure r' ↔ computed = .error failure ∧ r' = r := by
  cases computed with
  | ok f =>
      have hregister := run_register_eq_ok.mpr ⟨hsizes f rfl, rfl, (rfl : r.withLists f.lists = _)⟩
      rw [Step.run_bind_of_ok (Step.run_ofExcept_ok f r), hregister]
      simp
  | error cause =>
      rw [Step.run_bind_of_error (Step.run_ofExcept_error cause r)]
      simp [eq_comm]

namespace Psbt

open Responder

theorem run_register_eq_error {p : Psbt} (hsizes : ∀ m ∈ p.maps, m.size < 2 ^ 64)
    {r r' : Responder} {failure : Failure} :
    p.register.run r = .error failure r' ↔ p.flatten = .error failure ∧ r' = r := by
  apply Flattened.run_computed_eq_error
  intro f hflatten
  rwa [maps, hflatten] at hsizes

/-- What was found in any responder of a run is found after a transaction was registered.  The
strings of the run do not collide, so nothing that was found is replaced by something else. -/
theorem remembers_of_register {run : List Hashed} (hrun : NoCollision run) {p : Psbt}
    {r r' : Responder} {c : PsbtCommitments} (hrecorded : r.Recorded run)
    (hhashed : ∀ a ∈ p.hashed, a ∈ run) (h : p.register.run r = .ok c r') : r.Remembers r' := by
  obtain ⟨f, hflatten, -, -, rfl⟩ := run_register_eq_ok.mp h
  simp only [hashed, hflatten] at hhashed
  apply hrecorded.remembers_withLists hrun
  intro xs hxs a ha
  exact hhashed a (List.mem_flatMap.mpr ⟨xs, hxs, ha⟩)

/-- A transaction that is refused, for whatever reason, leaves any responder as it was.  One that
is registered takes nothing away from what a run of registrations, requests and takings of the
fragments has led to: all that was found is still found, and keys, queue and fragments stay as
they are. -/
theorem unchanged_or_remembered_of_register {p : Psbt}
    (hsizes : ∀ m ∈ p.maps, m.size < 2 ^ 64) :
    (∀ r failure r', p.register.run r = .error failure r' → r' = r) ∧
      ∀ actions c r', p.register.run (reached actions) = .ok c r' →
        NoCollision (actions.flatMap Action.hashed ++ p.hashed) →
        (reached actions).Remembers r' ∧ r'.keyLists = (reached actions).keyLists ∧
          r'.queue = (reached actions).queue ∧ r'.yielded = (reached actions).yielded := by
  constructor
  · intro r failure r' h
    exact ((run_register_eq_error hsizes).mp h).2
  · intro actions c r' h hrun
    -- The run before and the transaction count as one run, in which no digest stands for two things.
    have hrecorded := (recorded_reached actions).mono fun a ha => List.mem_append_left p.hashed ha
    refine ⟨remembers_of_register hrun hrecorded (fun a ha => List.mem_append_right _ ha) h, ?_⟩
    obtain ⟨f, -, -, -, rfl⟩ := run_register_eq_ok.mp h
    rw [withLists_eq]
    exact ⟨rfl, rfl, rfl⟩

/-- An input of which only the outpoint is known. -/
def spending : InputScope where
  txid := some (List.replicate 32 7)
  vout := some 1

/-- A transaction with two outputs, with a given input and a given amount of the second output. -/
def twoOutputs (input : InputScope) (amount : Int) : Psbt where
  version := some 2
  txVersion := some 2
  lockTime := none
  inputs := [input]
  outputs := [.ofTxOutput { value := 1000, script := [0x51] },
    { value := some amount, script := some [0x52] }]
  xpubs := []
  unknown := []

/-- Transactions that were changed after they were read, and now have an amount of nine bytes, a
hash type of five bytes in the fields of the input, or a key twice among them. -/
def changedBadly : List Psbt :=
  [twoOutputs spending (2 ^ 64),
    twoOutputs { spending with signatureHash := some (2 ^ 32) } 5,
    twoOutputs { spending with redeemScript := some [], unknown := [([0x04], [1])] } 5]

/-- A list was registered and a fragment handed over before.  None of the bad changes changes
anything there, and all is still there after a transaction with an empty key, which ends the
fields of its input, was registered. -/
theorem unchanged_or_remembered_of_two_outputs :
    let actions : List Action := [.register (.list [[1], [2, 3]]), .execute [0x10, 0xAB]]
    let p := twoOutputs { spending with unknown := [([], [1]), ([0x55], [2])] } 5
    (∀ q ∈ changedBadly, ∃ failure r',
        q.register.run (reached actions) = .error failure r' ∧ r' = reached actions) ∧
      ∃ c r', p.register.run (reached actions) = .ok c r' ∧
        (reached actions).Remembers r' ∧ r'.yielded = (reached actions).yielded := by
  intro actions p
  constructor
  · -- Where nothing is flattened there are no maps, so the sizes are no obstacle.
    have hsizes : ∀ q ∈ changedBadly, ∀ m ∈ q.maps, m.size < 2 ^ 64 := by decide +kernel
    have hfails : ∀ q ∈ changedBadly, q.flatten.isOk = false := by decide +kernel
    intro q hq
    obtain ⟨failure, hflatten⟩ := Step.exists_of_not_isOk (hfails q hq)
    have hregister := (run_register_eq_error (hsizes q hq)).mpr
      ⟨hflatten, (rfl : reached actions = reached actions)⟩
    obtain ⟨hunchanged, -⟩ := unchanged_or_remembered_of_register (hsizes q hq)
    exact ⟨failure, _, hregister, hunchanged _ _ _ hregister⟩
  · have hsizes : ∀ m ∈ p.maps, m.size < 2 ^ 64 := by decide +kernel
    have hrun : NoCollision (actions.flatMap Action.hashed ++ p.hashed) := by decide +kernel
    obtain ⟨f, hflatten⟩ : ∃ f, p.flatten = .ok f := Step.exists_of_isOk (by decide +kernel)
    obtain ⟨-, hremembered⟩ := unchanged_or_remembered_of_register hsizes
    rw [maps, hflatten] at hsizes
    obtain ⟨c, r', hregister⟩ : ∃ c r', p.register.run (reached actions) = .ok c r' :=
      ⟨_, _, run_register_eq_ok.mpr ⟨f, hflatten, hsizes, rfl, rfl⟩⟩
    obtain ⟨hremembers, -, -, hyielded⟩ := hremembered actions c r' hregister hrun
    exact ⟨c, r', hregister, hremembers, hyielded⟩

end Psbt
end SignerHost
