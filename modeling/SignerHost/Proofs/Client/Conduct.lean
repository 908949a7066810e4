import SignerHost.Proofs.Client.Request
import SignerHost.Proofs.Command
import SignerHost.Proofs.Responder.Orderly

/-!
# How the host conducts itself

An operation of the host is put together from requests and from checks.  The judgement `Conducts`
says which commands it sends, and how it ends, from any link; it has one rule for each way to put
steps together.

* `Opens` is the conduct of an operation that may be refused before anything is sent.  If it is not,
  it starts with a given command, carries it on with commands that fit, and fails only with a
  failure of the client's own family.
* `Follows` is the conduct of what comes after the first request.
* `Opens.request` is the conduct of one request; it rests on the induction over the replies in
  `conduct_run`.
* `Opens.bind` says that an operation of this kind may go on with its value.
-/

namespace SignerHost

open Step

/-! ## One request -/

theorem ChannelFault.isClientError_failure (f : ChannelFault) (instruction : Instruction) :
    (f.failure instruction).isClientError = true := by
  obtain ⟨kind, text⟩ := f
  cases kind with
  | family failure => exact failure.2
  | _ => rfl

/-- A fault that the channel of a link may raise.  It is one of the replies to come, or what a
command finds when there are none left. -/
def Link.Faults (link : Link) (f : ChannelFault) : Prop :=
  .fault f ∈ link.replies ∨ ∃ command, link.afterwards command = .error f

/-- A request may end with any data or any status, but fails only with one of the given faults, or
because the device cannot be answered. -/
def Outcome.Tame (faults : ChannelFault → Prop) (o : Outcome) : Prop :=
  ∀ failure, o.ending = .failed failure → (∃ cause, failure = .protocol cause) ∨
    ∃ f instruction, faults f ∧ failure = f.failure instruction

namespace Outcome.Tame

variable {faults : ChannelFault → Prop} {o : Outcome}

theorem mono {more : ChannelFault → Prop} (h : o.Tame faults) (hmore : ∀ f, faults f → more f) :
    o.Tame more := by
  intro failure hfailed
  rcases h failure hfailed with hprotocol | ⟨f, instruction, hf, hfailure⟩
  · exact .inl hprotocol
  · exact .inr ⟨f, instruction, hmore f hf, hfailure⟩

/-- The failure of a request is a refusal of the device, or comes from the host or the channel. -/
theorem of_result (h : o.Tame faults) {command : Command} {failure : Failure}
    (hresult : o.result command = .error failure) :
    (∃ status, failure = .ofStatus status (some command.instruction) "") ∨
      (∃ cause, failure = .protocol cause) ∨
        ∃ f instruction, faults f ∧ failure = f.failure instruction := by
  unfold Outcome.result at hresult
  split at hresult
  · cases hresult
  · cases hresult
    exact .inl ⟨_, rfl⟩
  · cases hresult
    exact .inr (h _ ‹_›)

end Outcome.Tame

namespace Pending

/-- The responder of a request, if there is one, is orderly. -/
def Orderly (p : Pending) : Prop := ∀ r ∈ p.responder, r.Orderly

theorem tame_conclude (p : Pending) (last : Except ChannelFault Bytes) :
    (p.conclude last).Tame fun f => last = .error f := by
  intro failure h
  cases last with
  | ok data => cases h
  | error f =>
      cases h
      exact .inr ⟨f, _, rfl, rfl⟩

end Pending

namespace RequestOptions

variable (o : RequestOptions)

/-- One reply takes an orderly request to another command that fits, or to its end.  This is the
step from which the conduct of a whole request follows by induction. -/
theorem conduct_advance {p : Pending} (hp : p.Orderly) (reply : Reply) :
    match o.advance p reply with
    | .pending next => next.command.Fits ∧ next.Orderly
    | .ended outcome => outcome.Tame fun f => reply = .fault f := by
  cases reply with
  | fault f => exact (p.tame_conclude (.error f)).mono fun f hf => by cases hf; rfl
  | answer status data =>
      rw [advance]
      -- A request goes on only if it is interrupted, has a responder and keeps within its limit.
      split_ifs with hsuccess hinterrupted
      · exact (p.tame_conclude (.ok data)).mono fun f hf => by cases hf
      · obtain ⟨command, responder, interruptions⟩ := p
        cases responder with
        | none =>
            intro failure h
            cases h
        | some responder =>
            -- An orderly responder answers with what fits, and stays orderly; or it refuses the
            -- query.
            have hanswers := (hp responder rfl).execute data
            unfold Responder.Answers at hanswers
            simp only [answer]
            split_ifs with hlimit
            · intro failure h
              cases h
              exact .inl ⟨_, rfl⟩
            · cases hrun : Responder.execute data responder with
              | ok a after =>
                  rw [show (Responder.execute data).run responder = _ from hrun] at hanswers
                  refine ⟨Command.fits_continueInterrupted hanswers.1, ?_⟩
                  intro r hr
                  cases hr
                  exact hanswers.2
              | error failure after =>
                  rw [show (Responder.execute data).run responder = _ from hrun] at hanswers
                  obtain ⟨⟨cause, rfl⟩, -⟩ := hanswers
                  intro failure h
                  cases h
                  exact .inl ⟨cause, rfl⟩
      · intro failure h
        cases h

/-- A run of an orderly request sends its command and then commands that fit, whatever the replies
are.  The induction is on the replies. -/
theorem conduct_run (afterwards : Command → Except ChannelFault Bytes) (replies : List Reply)
    {p : Pending} (hp : p.Orderly) :
    (∃ rest, sentCommands (o.run afterwards replies p).events = p.command :: rest ∧
      ∀ c ∈ rest, c.Fits) ∧
      (o.run afterwards replies p).outcome.Tame fun f =>
        .fault f ∈ replies ∨ ∃ command, afterwards command = .error f := by
  -- The request changes from turn to turn, so the induction is over all orderly ones.
  induction replies generalizing p with
  | nil =>
      exact ⟨⟨[], sentCommands_run_nil, List.forall_mem_nil _⟩,
        (p.tame_conclude _).mono fun f hf => .inr ⟨p.command, hf⟩⟩
  | cons reply replies ih =>
      have hadvance := o.conduct_advance hp reply
      cases hnext : o.advance p reply with
      | pending next =>
          rw [hnext] at hadvance
          obtain ⟨⟨rest, hsent, hfits⟩, htame⟩ := ih hadvance.2
          rw [sentCommands_run_of_advance hnext, hsent, run_cons_of_advance hnext]
          refine ⟨⟨next.command :: rest, rfl, ?_⟩, htame.mono fun f hf => ?_⟩
          · exact List.forall_mem_cons.mpr ⟨hadvance.1, hfits⟩
          · exact hf.imp_left (List.mem_cons_of_mem reply)
      | ended outcome =>
          rw [hnext] at hadvance
          rw [sentCommands_run_of_ended hnext, run_cons_of_ended hnext]
          refine ⟨⟨[], rfl, List.forall_mem_nil _⟩, hadvance.mono fun f hf => ?_⟩
          exact .inl (hf ▸ List.mem_cons_self)

end RequestOptions

/-- A request with an orderly responder fails because the device refuses, because it cannot be
answered, or with a fault of the channel. -/
theorem Client.request_failure {client : Client} {command : Command} {responder : Option Responder}
    (h : ∀ r ∈ responder, r.Orderly) {link : Link} {failure : Failure}
    (hfailure : result (client.request command responder) link = .error failure) :
    (∃ status, failure = .ofStatus status (some command.instruction) "") ∨
      (∃ cause, failure = .protocol cause) ∨
        ∃ f instruction, link.Faults f ∧ failure = f.failure instruction := by
  have hp : (pendingAfter command [] responder).Orderly := h
  have htame := ((client.options command).conduct_run link.afterwards link.replies hp).2
  rw [(request_eq_run client command responder link).1] at hfailure
  exact htame.of_result hfailure

/-! ## The judgement -/

/-- From any link, the commands that a step of the host sends and its end are related.  The
relation holds whatever the replies are, so it is a property of the step and not of a link. -/
structure Conducts {α : Type} (x : Host α) (Q : List Command → Except Failure α → Prop) : Prop where
  run : ∀ link, ∃ events, (after x link).events = link.events ++ events ∧
    Q (sentCommands events) (result x link)

namespace Conducts

variable {α β : Type} {Q : List Command → Except Failure α → Prop}
  {R : List Command → Except Failure β → Prop}

theorem mono {Q' : List Command → Except Failure α → Prop} {x : Host α} (h : Conducts x Q)
    (hQ : ∀ sent r, Q sent r → Q' sent r) : Conducts x Q' where
  run := by
    intro link
    obtain ⟨events, hevents, hend⟩ := h.run link
    exact ⟨events, hevents, hQ _ _ hend⟩

theorem ofExcept {e : Except Failure α} (h : Q [] e) : Conducts (MonadExcept.ofExcept e) Q where
  run := by
    intro link
    refine ⟨[], by simp, ?_⟩
    cases e with
    | ok a => exact h
    | error f => exact h

theorem emit {Q : List Command → Except Failure Unit → Prop} {events : List Event}
    (h : Q (sentCommands events) (.ok ())) : Conducts (Host.emit events) Q where
  run := fun _ => ⟨events, rfl, h⟩

/-- What holds of every value holds of the value. -/
theorem and_value {x : Host α} (h : Conducts x Q) {P : α → Prop} {E : Failure → Prop}
    (hvalue : Ensures x P E) : Conducts x fun sent r => Q sent r ∧ ∀ a, r = .ok a → P a where
  run := by
    intro link
    obtain ⟨events, hevents, hend⟩ := h.run link
    refine ⟨events, hevents, hend, fun a ha => ?_⟩
    cases hrun : x.run link with
    | ok a' next =>
        rw [result_of_ok hrun] at ha
        cases ha
        exact hvalue.ok hrun
    | error failure next =>
        rw [result_of_error hrun] at ha
        cases ha

/-- A chain sends what its first part sends, and goes on unless that failed. -/
theorem bind {x : Host α} {f : α → Host β} (hx : Conducts x Q)
    (hok : ∀ sent a, Q sent (.ok a) → Conducts (f a) fun more r => R (sent ++ more) r)
    (herror : ∀ sent failure, Q sent (.error failure) → R sent (.error failure)) :
    Conducts (x >>= f) R where
  run := by
    intro link
    obtain ⟨events, hevents, hend⟩ := hx.run link
    -- Only if the first part returns does the second one add its commands.
    cases hrun : x.run link with
    | ok a next =>
        rw [result_of_ok hrun] at hend
        rw [after_of_ok hrun] at hevents
        obtain ⟨more, hmore, hlast⟩ := (hok _ a hend).run next
        refine ⟨events ++ more, ?_, ?_⟩
        · rw [after, run_bind_of_ok hrun, ← List.append_assoc, ← hevents]
          exact hmore
        · rw [sentCommands_append, result, run_bind_of_ok hrun]
          exact hlast
    | error failure next =>
        rw [result_of_error hrun] at hend
        rw [after_of_error hrun] at hevents
        refine ⟨events, ?_, ?_⟩
        · rw [after_of_error (run_bind_of_error hrun)]
          exact hevents
        · rw [result_of_error (run_bind_of_error hrun)]
          exact herror _ _ hend

end Conducts

/-! ## What follows the first request -/

/-- Only commands that fit are sent, and a failure is one of the client's own family. -/
abbrev Follows {α : Type} (x : Host α) : Prop :=
  Conducts x fun sent r => (∀ c ∈ sent, c.Fits) ∧
    ∀ failure, r = .error failure → failure.isClientError = true

namespace Follows

variable {α β : Type}

theorem ofExcept {e : Except Failure α}
    (h : ∀ failure, e = .error failure → failure.isClientError = true) :
    Follows (MonadExcept.ofExcept e) :=
  Conducts.ofExcept ⟨fun _ hc => (List.not_mem_nil hc).elim, h⟩

theorem pure (a : α) : Follows (Pure.pure a) :=
  ofExcept (e := .ok a) fun _ h => by cases h

theorem bind {x : Host α} {f : α → Host β} (hx : Follows x) (hf : ∀ a, Follows (f a)) :
    Follows (x >>= f) := by
  refine Conducts.bind hx (fun sent a hend => ?_) fun sent failure hend => ?_
  · refine (hf a).mono fun more r hmore => ⟨?_, hmore.2⟩
    intro c hc
    exact (List.mem_append.mp hc).elim (hend.1 c) (hmore.1 c)
  · refine ⟨hend.1, fun failure' heq => ?_⟩
    cases heq
    exact hend.2 failure rfl

theorem discard {x : Host α} (hx : Follows x) : Follows (Functor.discard x) :=
  bind (f := fun _ => Pure.pure ()) hx fun _ => pure ()

end Follows

/-! ## From the arguments to the first request -/

/-- What an operation sends, given its first command or the reason to refuse the arguments.  It
leaves open what is sent after the first command. -/
def Opening {α : Type} (first : Except Failure Command) (sent : List Command)
    (r : Except Failure α) : Prop :=
  match first with
  | .error failure => sent = [] ∧ r = .error failure
  | .ok command => ∃ rest, sent = command :: rest ∧ (∀ c ∈ rest, c.Fits) ∧
      ∀ failure, r = .error failure → failure.isClientError = true

/-- The operation is refused for the given reason before anything is sent, or it starts with the
given command and goes on with commands that fit, and fails only within the client's own family. -/
abbrev Opens {α : Type} (x : Host α) (first : Except Failure Command) : Prop :=
  Conducts x (Opening first)

namespace Opens

variable {α β : Type}

/-- Nothing but a log entry comes first. -/
theorem emit {events : List Event} (hsilent : sentCommands events = []) {f : Unit → Host α}
    {first : Except Failure Command} (h : Opens (f ()) first) :
    Opens (Host.emit events >>= f) first := by
  refine Conducts.bind (Conducts.emit (Q := fun sent r => sent = [] ∧ r = .ok ()) ⟨hsilent, rfl⟩)
    ?_ ?_
  · rintro sent a ⟨rfl, -⟩
    exact h
  · rintro sent failure ⟨-, h⟩
    cases h

theorem request (client : Client) (command : Command) {responder : Option Responder}
    (h : ∀ r ∈ responder, r.Orderly) : Opens (client.request command responder) (.ok command) where
  run := by
    intro link
    have hp : (pendingAfter command [] responder).Orderly := h
    obtain ⟨⟨rest, hrest, hfits⟩, -⟩ :=
      (client.options command).conduct_run link.afterwards link.replies hp
    obtain ⟨-, events, hafter, hsent⟩ := request_eq_run client command responder link
    refine ⟨events, ?_, rest, hsent.trans hrest, hfits, fun failure hfailure => ?_⟩
    · rw [hafter]
    · rcases Client.request_failure h hfailure with ⟨status, rfl⟩ | ⟨cause, rfl⟩ | ⟨f, i, -, rfl⟩
      · rfl
      · rfl
      · exact f.isClientError_failure i

/-- An operation goes on with its value, which may have a property. -/
theorem bind {x : Host β} {f : β → Host α} {first : Except Failure Command} {P : β → Prop}
    {E : Failure → Prop} (hx : Opens x first) (hvalue : Ensures x P E)
    (hf : ∀ b command, first = .ok command → P b → Follows (f b)) : Opens (x >>= f) first := by
  refine Conducts.bind (hx.and_value hvalue) ?_ ?_
  · -- The first part sends the first command, so all that the second one sends comes behind it.
    rintro sent b ⟨hend, hb⟩
    cases first with
    | error failure => cases hend.2
    | ok command =>
        obtain ⟨rest, rfl, hfits, -⟩ := hend
        refine (hf b command rfl (hb b rfl)).mono fun more r hmore =>
          ⟨rest ++ more, rfl, ?_, hmore.2⟩
        exact List.forall_mem_append.mpr ⟨hfits, hmore.1⟩
  · rintro sent failure ⟨hend, -⟩
    cases first with
    | error reason =>
        obtain ⟨rfl, heq⟩ := hend
        cases heq
        exact ⟨rfl, rfl⟩
    | ok command =>
        obtain ⟨rest, rfl, hfits, htame⟩ := hend
        refine ⟨rest, rfl, hfits, fun failure' heq => ?_⟩
        cases heq
        exact htame failure rfl

/-- What comes after the first request. -/
theorem follow {x : Host β} {f : β → Host α} {first : Except Failure Command} (hx : Opens x first)
    (hf : ∀ b, Follows (f b)) : Opens (x >>= f) first :=
  hx.bind (.anything x) fun b _ _ _ => hf b

/-- An operation that is not refused may itself follow a request, if its first command fits. -/
theorem follows {x : Host α} {command : Command} (h : Opens x (.ok command))
    (hfits : command.Fits) : Follows x :=
  h.mono fun sent r hend => by
    obtain ⟨rest, rfl, hrest, htame⟩ := hend
    exact ⟨List.forall_mem_cons.mpr ⟨hfits, hrest⟩, htame⟩

end Opens

end SignerHost
