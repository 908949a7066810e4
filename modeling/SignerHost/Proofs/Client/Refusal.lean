import SignerHost.Proofs.Client.Sessions

/-!
# Arguments are refused before anything is sent

A caller who is told that the arguments are wrong may correct them and try again, so the device must
not have been asked for anything.  Only the channel could break this, by a fault that says the same.

* `ChannelFault.isForeign` tells such faults from all others.
* `OneRequest.first_eq_error` says that an operation of one request blames the arguments only where
  it is refused; a registration that is verified makes a second request, whose arguments are good
  (`Client.run_registerWallet_cases`).
* `Operation.refused_of_isInput` puts this together with the sessions of an operation.
-/

namespace SignerHost

open Step

/-- Whether a failure blames the arguments of the caller.  A wrong path, a wrong wallet and a
transaction that is refused all count. -/
def Failure.isInput : Failure → Bool
  | input _ | psbt _ => true
  | _ => false

/-- Whether a fault is none of the client's own family. -/
def ChannelFault.isForeign (f : ChannelFault) : Bool :=
  match f.kind with
  | .transport | .protocol | .input | .family _ => false
  | .system | .connectionReset | .timeout | .value | .runtime => true

/-- The channel of a link raises no fault of the client's own family.  Such a fault could not be
told from a refusal by the client itself. -/
def Link.Foreign (link : Link) : Prop := ∀ f, link.Faults f → f.isForeign = true

theorem Failure.isInput_eq_false_of_isResult {failure : Failure} (h : failure.isResult = true) :
    failure.isInput = false := by
  cases failure <;> first | rfl | cases h

/-- A foreign fault is a failure of the channel. -/
theorem ChannelFault.isInput_failure {f : ChannelFault} (h : f.isForeign = true)
    (instruction : Instruction) : (f.failure instruction).isInput = false := by
  obtain ⟨kind, text⟩ := f
  cases kind <;> first | rfl | cases h

namespace Link.Foreign

variable {link after : Link} (h : link.Foreign)

include h

/-- Faults that are still to come were to come before. -/
theorem exchanged {sent : List Command} (hsent : link.Exchanged after sent) : after.Foreign := by
  intro f hf
  apply h f
  rcases hf with hreply | ⟨command, hlast⟩
  · rw [hsent.replies] at hreply
    exact .inl (List.mem_of_mem_drop hreply)
  · rw [hsent.afterwards] at hlast
    exact .inr ⟨command, hlast⟩

/-- A request does not blame the arguments. -/
theorem isInput_request {client : Client} {command : Command} {responder : Option Responder}
    (horderly : ∀ r ∈ responder, r.Orderly) {failure : Failure}
    (hfailure : result (client.request command responder) link = .error failure) :
    failure.isInput = false := by
  rcases Client.request_failure horderly hfailure with
    ⟨status, rfl⟩ | ⟨cause, rfl⟩ | ⟨f, instruction, hf, rfl⟩
  · rfl
  · rfl
  · exact ChannelFault.isInput_failure (h f hf) instruction

end Link.Foreign

/-- An operation of one request blames the arguments only if it is refused for that reason. -/
theorem OneRequest.first_eq_error {client : Client} {α : Type} {Q : α → Prop} {x : Host α}
    {first : Except Failure Command} (h : OneRequest client Q x first) {link : Link}
    (hforeign : link.Foreign) {failure : Failure} (hfailure : result x link = .error failure)
    (hinput : failure.isInput = true) : first = .error failure := by
  induction h generalizing link with
  | refused reason => exact congrArg _ (Except.error.inj hfailure)
  | @logged events f first hlogged _ ih =>
      -- The channel of a link does not depend on what was logged.
      have hsame : ({ link with events := link.events ++ events } : Link).Foreign := hforeign
      exact ih hsame hfailure
  | @request command responder f horderly hf =>
      have hspared : failure.isInput = false := by
        rcases result_bind_eq_error.mp hfailure with hrequest | ⟨reply, next, -, hread⟩
        · exact hforeign.isInput_request horderly hrequest
        · obtain ⟨e, he, -, herror⟩ := hf reply
          rw [he, result_ofExcept] at hread
          exact Failure.isInput_eq_false_of_isResult (herror failure hread)
      rw [hspared] at hinput
      cases hinput

/-- A registration that is verified makes two requests.  The second one is not refused, because its
arguments are those of the first one with a registration code of the right length. -/
theorem Client.opening_eq_error_of_registerWallet {client : Client}
    (hverify : client.verifyAddresses = true) {wallet : Wallet} {link : Link}
    (hforeign : link.Foreign) {failure : Failure}
    (hfailure : result (client.registerWallet wallet) link = .error failure)
    (hinput : failure.isInput = true) :
    (Operation.registerWallet wallet).opening = .error failure := by
  have hregister := client.withoutVerification.oneRequest_registerWallet wallet rfl
  rcases client.run_registerWallet_cases wallet hverify link with
    ⟨_, next, hrun, hfailed⟩ | ⟨id, hmac, next, hrun, -, ⟨question, hquestion⟩, hsecond⟩
  · rw [result_of_error hfailed, ← result_of_error hrun] at hfailure
    exact hregister.first_eq_error hforeign hfailure hinput
  · -- It is the question for the address that fails, and this one blames no arguments.
    have haddress : result (client.getWalletAddress wallet (some hmac) 0 0 false) next =
        .error failure := by
      rw [result, hsecond] at hfailure
      exact result_map_eq_error.mp hfailure
    obtain ⟨sent, hsent, -⟩ := hregister.exchanges.run link
    rw [after_of_ok hrun] at hsent
    have hrefused := (client.oneRequest_getWalletAddress wallet (some hmac) 0 0 false).first_eq_error
      (hforeign.exchanged hsent) haddress hinput
    rw [hquestion] at hrefused
    cases hrefused

namespace Operation

/-- If an operation blames its arguments, these are what it was refused for. -/
theorem opening_eq_error {client : Client} {op : Operation} {link : Link} (hforeign : link.Foreign)
    {failure : Failure} (hfailure : result (op.perform client) link = .error failure)
    (hinput : failure.isInput = true) : op.opening = .error failure := by
  rcases op.oneRequest_or_verified client with ⟨Q, hone⟩ | ⟨wallet, rfl, hverify⟩
  · exact hone.first_eq_error hforeign hfailure hinput
  · exact Client.opening_eq_error_of_registerWallet hverify hforeign hfailure hinput

/-- Whatever the device does on a channel that raises no fault of the client's own family: if an
operation blames its arguments, it was refused for them, and nothing was sent and no session was
begun. -/
theorem refused_of_isInput {client : Client} {op : Operation} {link : Link}
    (hforeign : link.Foreign) {failure : Failure}
    (hfailure : result (op.perform client) link = .error failure)
    (hinput : failure.isInput = true) :
    op.opening = .error failure ∧
      trace (after (op.perform client) link).events = trace link.events := by
  have hopening := opening_eq_error hforeign hfailure hinput
  refine ⟨hopening, ?_⟩
  obtain ⟨sessions, hlength, htrace⟩ := (op.adds_perform client link).trace
  rw [Operation.sessions, hopening] at hlength
  obtain rfl := List.eq_nil_of_length_eq_zero hlength
  rw [htrace, List.flatMap_nil, List.append_nil]

/-- There are two branches of addresses only, and the device is not asked for a third one. -/
theorem refused_of_isInput_of_branch :
    let client : Client := { verifyAddresses := true }
    let link := Client.generatorLink (List.replicate 32 7)
    let op := getWalletAddress Client.generatorWallet none 2 0 false
    let failure : Failure := .input .changeBranch
    link.Foreign ∧ result (op.perform client) link = .error failure ∧ failure.isInput = true ∧
      op.opening = .error failure ∧
        trace (after (op.perform client) link).events = trace link.events := by
  intro client link op failure
  -- The link has no faults before its end, and its last one is a timeout.
  have hforeign : link.Foreign := by
    rintro f (hreply | ⟨command, hlast⟩)
    · simp [link, Client.generatorLink] at hreply
    · cases hlast
      rfl
  have hfailure : result (client.getWalletAddress Client.generatorWallet none 2 0 false) link =
      .error failure := by
    decide +kernel
  exact ⟨hforeign, hfailure, rfl, refused_of_isInput hforeign hfailure rfl⟩

end Operation
end SignerHost
