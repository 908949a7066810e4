import SignerHost.Channel
import SignerHost.Responder

/-!
# Requests

A request is one command and the commands that carry it on.  While the device interrupts it, the
responder answers what the device asks for, and the answer goes back in the next command.

* `advance` takes a request one reply further.
* `run` takes it to its end.  The list of replies bounds the run, because a link without replies
  never interrupts.
* A limit of interruptions is checked before the responder is asked.
-/

namespace SignerHost

/-- What stays the same during a request.  The instruction is that of the command that the
request began with. -/
structure RequestOptions where
  instruction : Instruction
  /-- The level at which commands and replies are logged. -/
  level : LogLevel
  maxInterruptions : Option Int

/-- A request that waits for the reply to a command.  A request without a responder treats an
interruption as a refusal. -/
structure Pending where
  command : Command
  responder : Option Responder
  /-- The interruptions so far. -/
  interruptions : Nat

/-- How a request ends: with data, with a status word of the device, or with a failure on the
host. -/
inductive Ending
  | done (data : Bytes)
  | refused (status : Int)
  | failed (failure : Failure)

/-- A request that came to its end.  The responder is as the last answer left it, also after a
failure. -/
structure Outcome where
  ending : Ending
  responder : Option Responder
  interruptions : Nat

/-- Where a request stands after a reply: it waits for the next one, or it is over. -/
inductive Progress
  | pending (p : Pending)
  | ended (o : Outcome)

/-- Looks up the name under which a query is logged.  A code that is not known has no name, and
nothing is logged for it. -/
def Query.logged : Bytes → List Event
  | [] => []
  | code :: body =>
      (Query.codeName? code).toList.map fun name => .logged .debug (.query name body)

namespace Pending

/-- The outcome of a request that ends here, with the responder as it is. -/
def outcome (p : Pending) (ending : Ending) : Outcome :=
  { ending, responder := p.responder, interruptions := p.interruptions }

/-- The end of a request whose last command succeeded or failed on the channel.  Its data or its
fault becomes the ending; the responder stays as it is. -/
def conclude (p : Pending) : Except ChannelFault Bytes → Outcome
  | .ok data => p.outcome (.done data)
  | .error fault => p.outcome (.failed (fault.failure p.command.instruction))

end Pending

namespace RequestOptions

/-- Whether a number of interruptions is above the limit.  Without a limit none is. -/
def exceeds (o : RequestOptions) (interruptions : Nat) : Bool :=
  o.maxInterruptions.any fun limit => limit < (interruptions : Int)

/-- Answers a query, or ends the request if that fails.  The limit counts this interruption, and
is checked before the query is read. -/
def answer (o : RequestOptions) (p : Pending) (responder : Responder) (query : Bytes) : Progress :=
  let interruptions := p.interruptions + 1
  if o.exceeds interruptions then
    let cause := .tooManyInterruptions o.instruction (o.maxInterruptions.getD 0)
    .ended ({ p with interruptions }.outcome (.failed (.protocol cause)))
  else
    match Responder.execute query responder with
    | .ok data after =>
        .pending { command := .continueInterrupted data, responder := some after, interruptions }
    | .error failure after =>
        .ended { ending := .failed failure, responder := some after, interruptions }

/-- Takes a request one reply further.  Success ends it, an interruption is answered, and any
other status is a refusal. -/
def advance (o : RequestOptions) (p : Pending) : Reply → Progress
  | .fault f => .ended (p.conclude (.error f))
  | .answer status data =>
      if status = Status.success then .ended (p.conclude (.ok data))
      else if status = Status.interrupted then
        match p.responder with
        | some responder => o.answer p responder data
        | none => .ended (p.outcome (.refused status))
      else .ended (p.outcome (.refused status))

/-! ## Events of a request -/

/-- A command is logged and then sent. -/
def sending (o : RequestOptions) (p : Pending) : List Event :=
  [.logged o.level (.sending p.command), .sent p.command]

/-- An answer is logged, and so is the query in it unless the limit is reached.  A fault is
logged neither here nor later. -/
def receiving (o : RequestOptions) (p : Pending) : Reply → List Event
  | .fault _ => []
  | .answer status data =>
      .logged o.level (.received status data)
        :: if status = Status.interrupted ∧ p.responder.isSome
              ∧ o.exceeds (p.interruptions + 1) = false then
            Query.logged data
          else []

/-- The success of a link without replies is logged like any answer. -/
def receivingLast (o : RequestOptions) : Except ChannelFault Bytes → List Event
  | .ok data => [.logged o.level (.received Status.success data)]
  | .error _ => []

/-- What is logged once the session is over; a request that failed on the host logs nothing. -/
def concluding (o : RequestOptions) (outcome : Outcome) : List Event :=
  match outcome.ending with
  | .done _ => [.logged .debug (.concluded o.instruction true outcome.interruptions)]
  | .refused _ => [.logged .debug (.concluded o.instruction false outcome.interruptions)]
  | .failed _ => []

end RequestOptions

/-- A run of a request to its end.  The events are those up to its end, without what is logged
once the session is over. -/
structure Run where
  outcome : Outcome
  events : List Event
  /-- The replies that were not used. -/
  rest : List Reply

namespace RequestOptions

/-- Takes a request to its end.  Each turn sends one command and uses up one reply; where no
reply is left, the last command ends in what the link has for it. -/
def run (o : RequestOptions) (afterwards : Command → Except ChannelFault Bytes) :
    List Reply → Pending → Run
  | [], p =>
      let last := afterwards p.command
      { outcome := p.conclude last, events := o.sending p ++ o.receivingLast last, rest := [] }
  | reply :: rest, p =>
      let events := o.sending p ++ o.receiving p reply
      match o.advance p reply with
      | .pending next =>
          let further := o.run afterwards rest next
          { further with events := events ++ further.events }
      | .ended outcome => { outcome, events, rest }

end RequestOptions

end SignerHost
