import SignerHost.Proofs.Client.Operation

/-!
# A device cannot break the client

Whether an operation sends anything is a matter of its arguments.  If it does, the rest of it is in
the hands of the device, and whatever the device and the channel do, a failure is one of the
client's own family.

* The replies are any list of status words, data and faults of the channel, followed by anything at
  all, so the result holds for every device that ends the operation.
* For a device that never does, it holds for every part of the operation: no step of it fails.
-/

namespace SignerHost
namespace Operation

open Step

/-- An operation that sent something was not refused. -/
theorem exists_opening_of_sent {op : Operation} {client : Client} {link : Link}
    (hsent : sentCommands (after (op.perform client) link).events ≠ sentCommands link.events) :
    ∃ command, op.opening = .ok command := by
  obtain ⟨events, hevents, hend⟩ := (op.opens_perform client).run link
  cases hopening : op.opening with
  | ok command => exact ⟨command, rfl⟩
  | error failure =>
      rw [hopening] at hend
      refine absurd ?_ hsent
      rw [hevents, sentCommands_append, hend.1, List.append_nil]

/-- If the arguments of an operation are such that its first command is sent, every failure is one
of the client's own family: for every client, with any limit of interruptions and either way of
checking addresses, and on every link. -/
theorem isClientError_of_sent {op : Operation} {client₀ : Client} {link₀ : Link}
    (hsent : sentCommands (after (op.perform client₀) link₀).events ≠ sentCommands link₀.events)
    (client : Client) (link : Link) {failure : Failure}
    (hfailure : result (op.perform client) link = .error failure) :
    failure.isClientError = true := by
  obtain ⟨command, hopening⟩ := exists_opening_of_sent hsent
  obtain ⟨events, -, hend⟩ := (op.opens_perform client).run link
  rw [hopening] at hend
  obtain ⟨rest, -, -, hfamily⟩ := hend
  exact hfamily failure hfailure

/-- A version that is not written in ASCII makes the response an invalid one. -/
theorem isClientError_of_unreadable_version :
    let idle : Link := { replies := [], afterwards := fun _ => .ok [], hasSessions := false }
    let link : Link := { idle with replies := [.answer Status.success [1, 1, 0xFF]] }
    let failure : Failure :=
      .result .unexpected (some .getVersion) [1, 1, 0xFF] (.versionResponse .notAscii)
    sentCommands (after (getVersion.perform {}) idle).events ≠ sentCommands idle.events ∧
      result (getVersion.perform {}) link = .error failure ∧ failure.isClientError = true := by
  intro idle link failure
  have hsent : sentCommands (after (getVersion.perform {}) idle).events ≠
      sentCommands idle.events := by decide
  have hfailure : result (getVersion.perform {}) link = .error failure := by rfl
  exact ⟨hsent, hfailure, isClientError_of_sent hsent {} link hfailure⟩

end Operation
end SignerHost
