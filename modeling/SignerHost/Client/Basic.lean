import SignerHost.AddressVerifier
import SignerHost.Client.Request
import SignerHost.Signature

/-!
# The client

A client is a chain and a few settings.  `Client.request` runs one request on a link, inside a
session if the link has sessions, and turns its end into a value or a failure.

`Primitives` are the functions of a library on which the results of a client depend.  A client has
them as a field, so what holds of every client holds whatever the library does.
-/

namespace SignerHost

/-- What a client takes from a library: which bytes are an ECDSA signature, which texts are an
address of any chain, and how addresses are derived from a descriptor. -/
structure Primitives where
  isSignature : Bytes → Bool
  isAddress : String → Bool
  derive : AddressDerivation

/-- Signatures in strict DER, addresses in base 58 and in bech32, and descriptors of keys.  It is
the choice of a client that is given no other functions. -/
def Primitives.standard : Primitives where
  isSignature := Der.isSignature
  isAddress text := Address.isValid text.toList
  derive := Descriptor.derive

/-- A client without its channel: the chain, the settings of a caller, and the library it uses.
Addresses are checked with the descriptor of the wallet unless there is another verifier. -/
structure Client where
  chain : Chain := .main
  primitives : Primitives := .standard
  /-- Whether commands and replies are logged at the higher level. -/
  debug : Bool := false
  /-- Whether addresses of the device are checked. -/
  verifyAddresses : Bool := false
  verifier : AddressVerifier := .descriptor chain primitives.derive
  maxInterruptions : Option Int := none

namespace Client

/-- The options of a request for a command.  Its replies are logged at the level that the
settings ask for. -/
def options (client : Client) (command : Command) : RequestOptions where
  instruction := command.instruction
  level := if client.debug then .info else .debug
  maxInterruptions := client.maxInterruptions

/-- Puts the events of a request into a session.  Every request has a session of its own, also
when it fails. -/
def inSession (hasSessions : Bool) (events : List Event) : List Event :=
  if hasSessions then .sessionBegin :: events ++ [.sessionEnd] else events

/-- Sends a command and answers the device until it is done.  Gives the data of the last reply,
and the responder as the device left it. -/
def request (client : Client) (command : Command) (responder : Option Responder) :
    Host (Bytes × Option Responder) := fun link =>
  let o := client.options command
  let run := o.run link.afterwards link.replies { command, responder, interruptions := 0 }
  let events := inSession link.hasSessions run.events ++ o.concluding run.outcome
  let after := { link with replies := run.rest, events := link.events ++ events }
  match run.outcome.ending with
  | .done data => .ok (data, run.outcome.responder) after
  | .refused status => .error (.ofStatus status (some command.instruction) "") after
  | .failed failure => .error failure after

/-- Lets a responder learn before a request.  A failure ends the operation before anything is
sent. -/
def prepare {α : Type} (step : Dialogue α) (responder : Responder) : Host (α × Responder) :=
  match step responder with
  | .ok a after => pure (a, after)
  | .error failure _ => throw failure

/-- Answers a query outside of a request.  The query is logged first.  Neither a session nor a
command belongs to it. -/
def consult (query : Bytes) (responder : Responder) : Host (Bytes × Responder) := do
  Host.emit (Query.logged query)
  prepare (Responder.execute query) responder

/-- An invalid result of a command.  It carries the command's instruction and the data that the
device sent. -/
def unexpected (command : Command) (data : Bytes) (cause : ResultCause) : Failure :=
  .result .unexpected (some command.instruction) data cause

end Client

end SignerHost
