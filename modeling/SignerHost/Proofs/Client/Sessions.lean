import SignerHost.Proofs.Client.Turns
import SignerHost.Proofs.Client.VerifiedAddress

/-!
# Sessions

A link that has sessions is reserved for one request at a time.  Whatever the device and the channel
do, a request begins one session, exchanges its commands in it, and ends it.

* `Session` is the commands of one request: one that starts it, and those that carry answers back.
* `Link.Adds` says that from one link to another a number of whole sessions was added.
* `Operation.sessions` is that number for an operation, and `Operation.adds_perform` says so.
* `sessions_of_turns` is the discipline for operations that take turns: the trace of sessions and
  exchanges is one whole session after another, after each of them.
-/

namespace SignerHost

open Step

/-! ## Traces -/

/-- The sessions and the exchanges among the events.  What is logged is left out. -/
def trace (events : List Event) : List Event := events.filter fun e => !e.isLogged

theorem trace_append (events further : List Event) :
    trace (events ++ further) = trace events ++ trace further := List.filter_append _ _

theorem trace_eq_nil {events : List Event} (h : ∀ e ∈ events, e.isLogged = true) :
    trace events = [] := by
  refine List.filter_eq_nil_iff.mpr fun e he => ?_
  simp [h e he]

theorem trace_inSession (hasSessions : Bool) (events : List Event) :
    trace (Client.inSession hasSessions events) = Client.inSession hasSessions (trace events) := by
  cases hasSessions with
  | false => rfl
  | true =>
      show trace ([.sessionBegin] ++ events ++ [.sessionEnd]) = _
      rw [trace_append, trace_append]
      rfl

/-- One command that starts a request, and the answers that carry it on.  Its exchanges and its
events follow from these. -/
structure Session where
  command : Command
  answers : List Bytes
  /-- Only an answer is carried back with a command of the framework. -/
  starts : command.cla ≠ Command.claFramework

namespace Session

/-- The exchanges of a request. -/
def exchanges (s : Session) : List Event := (commandsOf s.command s.answers).map .sent

/-- A session is begun, holds the exchanges of one request, and is ended. -/
def events (s : Session) : List Event := .sessionBegin :: s.exchanges ++ [.sessionEnd]

end Session

/-! ## One request -/

namespace RequestOptions

variable (o : RequestOptions)

theorem trace_receiving (p : Pending) (reply : Reply) : trace (o.receiving p reply) = [] := by
  cases reply with
  | fault f => rfl
  | answer status data =>
      refine trace_eq_nil fun e he => ?_
      rw [receiving, List.mem_cons] at he
      rcases he with rfl | he
      · rfl
      · split at he
        · cases data with
          | nil => cases he
          | cons code body =>
              obtain ⟨name, -, rfl⟩ := List.mem_map.mp he
              rfl
        · cases he

theorem trace_receivingLast (last : Except ChannelFault Bytes) :
    trace (o.receivingLast last) = [] := by
  cases last <;> rfl

theorem trace_concluding (outcome : Outcome) : trace (o.concluding outcome) = [] := by
  rw [concluding]
  split <;> rfl

theorem trace_run_of_ended {afterwards : Command → Except ChannelFault Bytes} {reply : Reply}
    {p : Pending} {outcome : Outcome} (h : o.advance p reply = .ended outcome)
    (replies : List Reply) :
    trace (o.run afterwards (reply :: replies) p).events = [.sent p.command] := by
  rw [run_cons_of_ended h, trace_append, trace_receiving]
  rfl

/-- A run exchanges its command and then answers, and nothing else is in its trace.  The induction
is on the replies. -/
theorem trace_run (afterwards : Command → Except ChannelFault Bytes) (replies : List Reply)
    (p : Pending) :
    ∃ answers, trace (o.run afterwards replies p).events =
      (commandsOf p.command answers).map .sent := by
  induction replies generalizing p with
  | nil =>
      refine ⟨[], ?_⟩
      rw [run, trace_append, trace_receivingLast]
      rfl
  | cons reply replies ih =>
      -- Only an answered interruption leads to another command, and that one carries the answer.
      rcases o.advance_cases p reply with ⟨data, -, hended⟩ | ⟨_, r, _, a, -, -, -, hnext⟩ |
        ⟨outcome, -, hended, -⟩
      · exact ⟨[], o.trace_run_of_ended hended replies⟩
      · obtain ⟨answers, hanswers⟩ := ih (p.continued a r)
        refine ⟨a :: answers, ?_⟩
        rw [run_cons_of_advance hnext]
        show trace ((o.sending p ++ o.receiving p reply) ++ _) = _
        rw [trace_append, trace_append, trace_receiving, hanswers]
        rfl
      · exact ⟨[], o.trace_run_of_ended hended replies⟩

end RequestOptions

/-! ## Whole sessions -/

/-- From one link to another a number of whole requests was added, each in a session if the link
has sessions. -/
structure Link.Adds (link after : Link) (n : Nat) : Prop where
  trace : ∃ sessions : List Session, sessions.length = n ∧
    trace after.events =
      trace link.events ++ sessions.flatMap fun s => Client.inSession link.hasSessions s.exchanges
  hasSessions : after.hasSessions = link.hasSessions

namespace Link.Adds

variable {link middle after : Link} {n m : Nat}

theorem refl (link : Link) : link.Adds link 0 := ⟨⟨[], rfl, (List.append_nil _).symm⟩, rfl⟩

/-- Logging adds no session. -/
theorem logged {events : List Event} (h : ∀ e ∈ events, e.isLogged = true) :
    link.Adds { link with events := link.events ++ events } 0 where
  trace := by
    refine ⟨[], rfl, ?_⟩
    show SignerHost.trace (link.events ++ events) = _
    rw [trace_append, trace_eq_nil h]
    rfl
  hasSessions := rfl

theorem trans (h : link.Adds middle n) (hmore : middle.Adds after m) : link.Adds after (n + m) where
  trace := by
    obtain ⟨sessions, hlength, htrace⟩ := h.trace
    obtain ⟨more, hmoreLength, hmoreTrace⟩ := hmore.trace
    refine ⟨sessions ++ more, by rw [List.length_append, hlength, hmoreLength], ?_⟩
    rw [hmoreTrace, htrace, h.hasSessions, List.flatMap_append, List.append_assoc]
  hasSessions := hmore.hasSessions.trans h.hasSessions

end Link.Adds

theorem Client.adds_request (client : Client) {command : Command}
    (hcommand : command.cla ≠ Command.claFramework) (responder : Option Responder) (link : Link) :
    link.Adds (after (client.request command responder) link) 1 := by
  -- The run of the request stands in one session, and what is logged behind it leaves no trace.
  let run := (client.options command).run link.afterwards link.replies
    (pendingAfter command [] responder)
  obtain ⟨answers, hanswers⟩ := (client.options command).trace_run link.afterwards link.replies
    (pendingAfter command [] responder)
  have hafter : after (client.request command responder) link =
      { link with
        replies := run.rest
        events := link.events ++ (inSession link.hasSessions run.events ++
          (client.options command).concluding run.outcome) } := by
    rw [after, run_request_eq link rfl]
    exact after_ofExcept _ _
  rw [hafter]
  refine ⟨⟨[⟨command, answers, hcommand⟩], rfl, ?_⟩, rfl⟩
  show SignerHost.trace (link.events ++ (inSession link.hasSessions run.events ++ _)) = _
  rw [trace_append, trace_append, RequestOptions.trace_concluding, trace_inSession, hanswers,
    List.append_nil, List.flatMap_singleton]
  rfl

/-- The number of requests of an operation that makes one request, given how it opens.  An
operation that is refused makes none. -/
def requestCount : Except Failure Command → Nat
  | .ok _ => 1
  | .error _ => 0

/-- An operation of one request adds one session, unless it is refused.  The responder and what
is read from the data do not matter to this. -/
theorem OneRequest.adds {client : Client} {α : Type} {Q : α → Prop} {x : Host α}
    {first : Except Failure Command} (h : OneRequest client Q x first)
    (hfirst : ∀ command, first = .ok command → command.cla ≠ Command.claFramework) (link : Link) :
    link.Adds (after x link) (requestCount first) := by
  induction h generalizing link with
  | refused failure => exact .refl link
  | @logged events f first hlogged _ ih =>
      have hrest := (Link.Adds.logged hlogged).trans
        (ih hfirst { link with events := link.events ++ events })
      rwa [Nat.zero_add] at hrest
  | @request command responder f horderly hf =>
      -- What is read from the reply leaves the link as it is.
      rw [after_bind_eq_left]
      · exact client.adds_request (hfirst command rfl) responder link
      · intro reply next
        obtain ⟨e, he, -⟩ := hf reply
        rw [he, after_ofExcept]

/-! ## Every operation -/

namespace Operation

/-- The first command of an operation is one of the app, or one that every app answers. -/
theorem cla_of_opening {op : Operation} {command : Command} (h : op.opening = .ok command) :
    command.cla = Command.claDefault ∨ command.cla = Command.claBitcoin := by
  -- The builders are taken apart up to the command, whose class does not depend on the arguments.
  cases op with
  | connect =>
      cases h
      exact .inl rfl
  | getVersion =>
      cases h
      exact .inl rfl
  | getMasterFingerprint =>
      cases h
      exact .inr rfl
  | getExtendedPubkey path display =>
      obtain ⟨steps, -, h⟩ := bind_eq_ok.mp h
      cases h
      exact .inr rfl
  | registerWallet wallet =>
      obtain ⟨policy, -, h⟩ := bind_eq_ok.mp h
      obtain ⟨_, -, h⟩ := bind_eq_ok.mp h
      obtain ⟨serialized, -, -, rfl⟩ := Command.registerWallet_eq_ok.mp h
      exact .inr rfl
  | getWalletAddress wallet hmac change index display =>
      obtain ⟨policy, -, h⟩ := bind_eq_ok.mp h
      obtain ⟨-, h⟩ := guard_eq_ok.mp h
      obtain ⟨-, h⟩ := guard_eq_ok.mp h
      obtain ⟨_, -, h⟩ := bind_eq_ok.mp h
      obtain ⟨id, -, h⟩ := bind_eq_ok.mp h
      obtain ⟨position, -, h⟩ := bind_eq_ok.mp h
      cases h
      exact .inr rfl
  | signPsbt source wallet hmac =>
      obtain ⟨policy, -, h⟩ := bind_eq_ok.mp h
      obtain ⟨psbt, -, h⟩ := bind_eq_ok.mp h
      obtain ⟨⟨_, responder⟩, -, h⟩ := bind_eq_ok.mp h
      obtain ⟨⟨commitments, _⟩, -, h⟩ := bind_eq_ok.mp h
      obtain ⟨inputs, -, h⟩ := bind_eq_ok.mp h
      obtain ⟨outputs, -, h⟩ := bind_eq_ok.mp h
      obtain ⟨id, -, h⟩ := bind_eq_ok.mp h
      cases h
      exact .inr rfl
  | signMessage message path =>
      obtain ⟨⟨root, _⟩, -, h⟩ := bind_eq_ok.mp h
      obtain ⟨steps, -, h⟩ := bind_eq_ok.mp h
      obtain ⟨size, -, h⟩ := bind_eq_ok.mp h
      cases h
      exact .inr rfl

/-- An operation does not open with an answer. -/
theorem starts_of_opening {op : Operation} {command : Command} (h : op.opening = .ok command) :
    command.cla ≠ Command.claFramework := by
  rcases cla_of_opening h with hcla | hcla
  · rw [hcla]
    decide
  · rw [hcla]
    decide

/-- Whether an operation is a registration that succeeds and goes on to verify an address.
Whether it does depends on the response of the device, and so on the link. -/
def goesOn (client : Client) (link : Link) : Operation → Bool
  | registerWallet wallet =>
      client.verifyAddresses &&
        (result (client.withoutVerification.registerWallet wallet) link).isOk
  | _ => false

/-- The number of sessions of an operation: none if its arguments are refused, and otherwise one,
or two if it goes on to verify an address. -/
def sessions (client : Client) (link : Link) (op : Operation) : Nat :=
  match op.opening with
  | .error _ => 0
  | .ok _ => if op.goesOn client link then 2 else 1

theorem sessions_of_not_goesOn {client : Client} {link : Link} {op : Operation}
    (h : op.goesOn client link = false) : op.sessions client link = requestCount op.opening := by
  unfold sessions
  cases op.opening with
  | error failure => rfl
  | ok command => simp [h, requestCount]

theorem goesOn_eq_false {client : Client} {op : Operation}
    (h : ¬ ∃ wallet, op = .registerWallet wallet ∧ client.verifyAddresses = true) (link : Link) :
    op.goesOn client link = false := by
  cases op with
  | registerWallet wallet =>
      have hverify : client.verifyAddresses = false :=
        Bool.eq_false_of_not_eq_true fun htrue => h ⟨wallet, rfl, htrue⟩
      rw [goesOn, hverify, Bool.false_and]
  | _ => rfl

/-- A registration that is verified adds one session, or a second one if it succeeds. -/
theorem adds_registerWallet {client : Client} (hverify : client.verifyAddresses = true)
    (wallet : Wallet) (link : Link) :
    link.Adds (after (client.registerWallet wallet) link)
      ((registerWallet wallet).sessions client link) := by
  have hadds := (client.withoutVerification.oneRequest_registerWallet wallet rfl).adds
    (fun _ => starts_of_opening) link
  rcases client.run_registerWallet_cases wallet hverify link with
    ⟨failure, next, hrun, hfailed⟩ |
      ⟨id, hmac, next, hrun, ⟨command, hcommand⟩, ⟨question, hquestion⟩, hsecond⟩
  · -- The registration fails, so the first address is not asked for.
    have hgoes : (registerWallet wallet).goesOn client link = false := by
      rw [goesOn, result_of_error hrun, hverify]
      rfl
    rw [sessions_of_not_goesOn hgoes, after_of_error hfailed]
    rwa [after_of_error hrun] at hadds
  · -- The question for the first address has a session of its own.
    have hsessions : (registerWallet wallet).sessions client link = 1 + 1 := by
      rw [sessions, hcommand, goesOn, result_of_ok hrun, hverify]
      rfl
    have hafter : after (client.registerWallet wallet) link =
        after (client.getWalletAddress wallet (some hmac) 0 0 false) next := by
      rw [after, hsecond]
      exact after_map _ _ _
    have haddress := (client.oneRequest_getWalletAddress wallet (some hmac) 0 0 false).adds
      (fun _ => starts_of_opening) next
    rw [hquestion] at haddress
    rw [after_of_ok hrun, hcommand] at hadds
    rw [hsessions, hafter]
    exact hadds.trans haddress

/-- Whatever the device does, an operation adds whole sessions, and as many as its arguments and the
success of a registration decide. -/
theorem adds_perform (client : Client) (op : Operation) (link : Link) :
    link.Adds (after (op.perform client) link) (op.sessions client link) := by
  by_cases hverified : ∃ wallet, op = .registerWallet wallet ∧ client.verifyAddresses = true
  · obtain ⟨wallet, rfl, hverify⟩ := hverified
    exact adds_registerWallet hverify wallet link
  · obtain ⟨Q, hone⟩ := (op.oneRequest_or_verified client).resolve_right hverified
    rw [sessions_of_not_goesOn (goesOn_eq_false hverified link)]
    exact hone.adds (fun _ => starts_of_opening) link

end Operation

/-! ## Operations that take turns -/

/-- Each of the operations adds whole sessions, whether it fails or not.  The induction is on the
operations; each of them starts on the link that the one before leaves. -/
theorem Link.adds_inTurn (turns : List (Client × Operation)) (link : Link) :
    ∃ n, link.Adds
      (Host.inTurn (turns.map fun turn => discard (turn.2.perform turn.1)) link).2 n := by
  induction turns generalizing link with
  | nil => exact ⟨0, .refl link⟩
  | cons turn rest ih =>
      obtain ⟨client, op⟩ := turn
      obtain ⟨n, hrest⟩ := ih (after (op.perform client) link)
      rw [List.map_cons, Host.inTurn_cons, after_discard]
      exact ⟨_, (op.adds_perform client link).trans hrest⟩

/-- On a link with sessions, operations take turns.  After each of them the trace is one whole
session after another: a session is begun, one command starts a request, answers carry it on, and
the session is ended.  The next operation, too, adds whole sessions only, however it ends: none if
it is refused, two if it goes on to verify an address, and one otherwise. -/
theorem sessions_of_turns (turns : List (Client × Operation)) (client : Client) (op : Operation)
    {link : Link} (hlink : link.hasSessions = true) :
    let start := (Host.inTurn (turns.map fun turn => discard (turn.2.perform turn.1)) link).2
    (∃ sessions : List Session,
        trace start.events = trace link.events ++ sessions.flatMap Session.events) ∧
      ∃ sessions : List Session, sessions.length = op.sessions client start ∧
        trace (after (op.perform client) start).events =
          trace start.events ++ sessions.flatMap Session.events := by
  intro start
  -- All turns before the operation leave whole sessions, so it starts between two of them.
  obtain ⟨n, hturns⟩ := Link.adds_inTurn turns link
  have hstart : start.hasSessions = true := hturns.hasSessions.trans hlink
  constructor
  · obtain ⟨sessions, -, htrace⟩ := hturns.trace
    rw [hlink] at htrace
    exact ⟨sessions, htrace⟩
  · obtain ⟨sessions, hlength, htrace⟩ := (op.adds_perform client start).trace
    rw [hstart] at htrace
    exact ⟨sessions, hlength, htrace⟩

/-- A client is asked for an address of a branch that does not exist, and then registers a wallet
and verifies its first address.  The registration takes two sessions. -/
theorem sessions_of_turns_of_registration :
    let client : Client := { verifyAddresses := true }
    let link := Client.generatorLink (List.replicate 32 7)
    let turns := [(client, Operation.getWalletAddress Client.generatorWallet none 2 0 false)]
    let start := (Host.inTurn (turns.map fun turn => discard (turn.2.perform turn.1)) link).2
    let register := Operation.registerWallet Client.generatorWallet
    link.hasSessions = true ∧
      ∃ sessions : List Session, sessions.length = 2 ∧
        trace (after (register.perform client) start).events =
          trace start.events ++ sessions.flatMap Session.events := by
  intro client link turns start register
  have hlink : link.hasSessions = true := rfl
  have hcount : register.sessions client start = 2 := by decide +kernel
  obtain ⟨-, sessions, hlength, htrace⟩ := sessions_of_turns turns client register hlink
  exact ⟨hlink, sessions, hlength.trans hcount, htrace⟩

end SignerHost
