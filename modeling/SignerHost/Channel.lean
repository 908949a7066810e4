import SignerHost.Command

/-!
# The channel to the device

A device is known by what it sends back, one reply for each command.  The replies of a run are a
list; once it is used up, the channel fails or answers every command with success.

* A reply is a status word with data, or a fault of the channel.
* The events of a run are the commands sent, the sessions, and what is logged, in one order.
* An operation of the host runs on a link and leaves it in either case, so a later operation goes
  on where the earlier one stopped.
-/

namespace SignerHost

/-! ## Replies -/

/-- The kinds of faults that a channel can raise: those of the system around it, and failures of
the client's own family. -/
inductive FaultKind
  | system
  | connectionReset
  | timeout
  | value
  | runtime
  /-- Faults that already belong to the client's own family. -/
  | transport
  | protocol
  | input
  /-- Any failure of that family, whatever the text of the fault is. -/
  | family (failure : ClientError)
  deriving DecidableEq

/-- A fault of the channel, with the text that comes with it.  A fault that is a failure already
does not need the text. -/
structure ChannelFault where
  kind : FaultKind
  text : String
  deriving DecidableEq

namespace ChannelFault

/-- How a fault ends the request that met it: one of the client's own family as it is, and any
other one as a failure of the channel. -/
def failure (instruction : Instruction) (f : ChannelFault) : Failure :=
  match f.kind with
  | .transport => .transport (.raised f.text)
  | .protocol => .protocol (.raised f.text)
  | .input => .input (.raised f.text)
  | .family failure => failure
  | _ => .transport (.exchange instruction f.text)

end ChannelFault

/-- What comes back for a command.  A fault means that there is no answer, and its kind decides
which failure the request ends in. -/
inductive Reply
  | answer (status : Int) (data : Bytes)
  | fault (f : ChannelFault)
  deriving DecidableEq

namespace Status

/-- The status word of success.  It is also the status of the answers that a link without replies
gives. -/
def success : Int := 0x9000

/-- The status word of an interrupted command.  The data of such an answer is a query for the
host. -/
def interrupted : Int := 0xE000

end Status

/-! ## Events -/

inductive LogLevel
  | debug
  | info
  deriving DecidableEq

/-- What is logged, before it is put into words.  Only `text` has the wording. -/
inductive LogMessage
  | sending (command : Command)
  | received (status : Int) (data : Bytes)
  | query (name : String) (body : Bytes)
  | concluded (instruction : Instruction) (success : Bool) (interruptions : Nat)
  | flattened (inputs outputs : Nat)
  deriving DecidableEq

namespace LogMessage

def text : LogMessage → String
  | sending c => "=> " ++ c.headerText ++ " " ++ Bytes.toHex c.data
  | received status data => "<= " ++ Bytes.toHex data ++ " " ++ Bytes.hexOfInt 4 status
  | query name body => "client command " ++ name ++ ": " ++ Bytes.toHex body
  | concluded instruction success interruptions =>
      "command " ++ instruction.display ++ ": " ++ (if success then "done" else "failed")
        ++ " after " ++ toString interruptions ++ " interruptions"
  | flattened inputs outputs =>
      "flattened PSBT with " ++ toString inputs ++ " inputs and " ++ toString outputs ++ " outputs"

end LogMessage

/-- What happens on a link, in one order: sessions, commands, and what is logged.  Replies are no
events, since the link has them in a list. -/
inductive Event
  | sessionBegin
  | sessionEnd
  | sent (command : Command)
  | logged (level : LogLevel) (message : LogMessage)
  deriving DecidableEq

/-! ## Links -/

/-- The state of a channel during a run.  The replies are given beforehand, so that one run can
be compared with another. -/
structure Link where
  /-- The replies to come. -/
  replies : List Reply
  /-- What becomes of a command when no reply is left. -/
  afterwards : Command → Except ChannelFault Bytes
  /-- Whether operations are put into sessions. -/
  hasSessions : Bool
  /-- What happened so far. -/
  events : List Event := []

/-- An operation of the host: it ends in a value or a failure, and leaves the link either way.
Nothing that was sent or logged before a failure is taken back. -/
abbrev Host := EStateM Failure Link

namespace Host

/-- Adds events at the end of those that happened so far. -/
def emit (events : List Event) : Host Unit :=
  modify fun link => { link with events := link.events ++ events }

/-- Sends one command outside of any request.  The command is an event whatever comes back for
it. -/
def exchange (command : Command) (link : Link) : Except ChannelFault (Int × Bytes) × Link :=
  let events := link.events ++ [.sent command]
  match link.replies with
  | .answer status data :: rest => (.ok (status, data), { link with replies := rest, events })
  | .fault f :: rest => (.error f, { link with replies := rest, events })
  | [] => ((link.afterwards command).map fun data => (Status.success, data), { link with events })

/-- Runs operations one after another.  A failure does not stop the next one.  Each one starts on
the link that the one before it left. -/
def inTurn {α : Type} : List (Host α) → Link → List (Except Failure α) × Link
  | [], link => ([], link)
  | operation :: rest, link =>
      let (result, link) := match operation link with
        | .ok a link => (.ok a, link)
        | .error failure link => (.error failure, link)
      let (results, link) := inTurn rest link
      (result :: results, link)

end Host

end SignerHost
