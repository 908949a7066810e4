import SignerHost.Client.Request

/-!
# Requests that share a channel

Several requests run at the same time on one channel.  A request holds the session from its first
command to its end, and one exchange at a time is under way on the channel.

* Requests are numbered by their places.
* A move is one step of one request.  A move that is not possible now has no result, so every
  schedule is a list of moves.
* Two locks keep the requests apart.  One is held for a session, the other for an exchange.
* A request may be given up wherever it waits, also for the reply to its command.  It then gives
  back whatever it holds.  An exchange that is under way cannot be stopped, so it goes on without
  its request, and what comes back is dropped.
* Fairness is not part of the description: any request that waits may get the session next.
-/

namespace SignerHost

/-- How far a request on a shared channel is.  A stage carries what the request needs to go on,
and nothing of the channel. -/
inductive Stage
  /-- It waits for the session. -/
  | waiting (p : Pending)
  /-- It holds the session, and its command is not sent yet. -/
  | ready (p : Pending)
  /-- It holds the session, and its command is under way. -/
  | underWay (p : Pending)
  /-- It holds the session and the reply to its command, which it has not looked at yet. -/
  | replied (p : Pending) (reply : Reply)
  /-- It came to its end and still holds the session. -/
  | leaving (o : Outcome)
  | finished (o : Outcome)
  /-- It was given up before its end, and holds nothing. -/
  | abandoned

namespace Stage

/-- Whether a request at this stage holds the session.  Between entering and leaving it does,
unless it is given up. -/
def holdsSession : Stage → Bool
  | waiting _ => false
  | ready _ => true
  | underWay _ => true
  | replied _ _ => true
  | leaving _ => true
  | finished _ => false
  | abandoned => false

/-- The stage after a reply was looked at.  A request that ended still has to give the session
back. -/
def ofProgress : Progress → Stage
  | .pending p => ready p
  | .ended o => leaving o

end Stage

/-- A request on a shared channel: what stays the same for it, and how far it is. -/
structure SharedRequest where
  options : RequestOptions
  stage : Stage

/-- What passes over the channel, with the number of the request that it belongs to.  The number
tells the passages of one request from those of another. -/
inductive Passage
  | sent (request : Nat) (command : Command)
  | received (request : Nat) (reply : Reply)
  /-- A reply to the last command of a request that was given up.  Nobody looks at it. -/
  | dropped (request : Nat) (reply : Reply)
  deriving DecidableEq

/-- The requests on a channel, the two locks, and what passed over the channel so far.  A command
has passed as soon as it is sent. -/
structure SharedChannel where
  requests : List SharedRequest
  /-- The request that has locked the session. -/
  session : Option Nat := none
  /-- The request that has locked the channel for an exchange. -/
  exchange : Option Nat := none
  /-- The requests that were given up and whose exchange is still under way. -/
  orphans : List Nat := []
  /-- What passed so far. -/
  passages : List Passage := []

/-- One step of one request, or of an exchange that goes on without its request.  Which moves are
possible depends on the stage of the request and on the two locks. -/
inductive Move
  /-- A request gets the session. -/
  | enter (request : Nat)
  /-- A request sends its command. -/
  | send (request : Nat)
  /-- The exchange of a request comes to its end. -/
  | reply (request : Nat) (r : Reply)
  /-- A request answers the query of the device, or comes to its end. -/
  | answer (request : Nat)
  /-- A request that came to its end gives the session back. -/
  | leave (request : Nat)
  /-- A request is given up. -/
  | abandon (request : Nat)
  /-- An exchange whose request was given up comes to its end. -/
  | drop (request : Nat) (r : Reply)

namespace SharedChannel

/-- A channel on which the requests have not begun.  Nobody holds a lock, and nothing has passed. -/
def start (requests : List (RequestOptions × Pending)) : SharedChannel where
  requests := requests.map fun (options, p) => { options, stage := .waiting p }

/-- Takes a request to a new stage.  The locks and the passages stay as they are. -/
def put (c : SharedChannel) (i : Nat) (r : SharedRequest) (stage : Stage) : SharedChannel :=
  { c with requests := c.requests.set i { r with stage } }

/-- One move, if it is possible now.  Only the stages, the two locks and the orphans decide that. -/
def step (c : SharedChannel) : Move → Option SharedChannel
  | .enter i => do
      let r ← c.requests[i]?
      match r.stage, c.session with
      | .waiting p, none => some { c.put i r (.ready p) with session := some i }
      | _, _ => none
  | .send i => do
      let r ← c.requests[i]?
      match r.stage, c.exchange with
      | .ready p, none =>
          some { c.put i r (.underWay p) with
            exchange := some i, passages := c.passages ++ [.sent i p.command] }
      | _, _ => none
  | .reply i reply => do
      let r ← c.requests[i]?
      match r.stage with
      | .underWay p =>
          some { c.put i r (.replied p reply) with
            exchange := none, passages := c.passages ++ [.received i reply] }
      | _ => none
  | .answer i => do
      let r ← c.requests[i]?
      match r.stage with
      | .replied p reply => some (c.put i r (.ofProgress (r.options.advance p reply)))
      | _ => none
  | .leave i => do
      let r ← c.requests[i]?
      match r.stage with
      | .leaving o => some { c.put i r (.finished o) with session := none }
      | _ => none
  | .abandon i => do
      let r ← c.requests[i]?
      match r.stage with
      | .waiting _ => some (c.put i r .abandoned)
      | .ready _ | .replied _ _ => some { c.put i r .abandoned with session := none }
      | .underWay _ =>
          -- Both locks are given back, although the device still has the command.
          some { c.put i r .abandoned with
            session := none, exchange := none, orphans := i :: c.orphans }
      | _ => none
  | .drop i reply =>
      if i ∈ c.orphans then
        some { c with
          orphans := c.orphans.erase i, passages := c.passages ++ [.dropped i reply] }
      else none

/-- Makes moves one after another.  There is no result as soon as one of them is not possible. -/
def run (c : SharedChannel) (moves : List Move) : Option SharedChannel :=
  moves.foldlM step c

/-- The commands that reached the device, in order, with the numbers of their requests.  Replies
are left out, also those that nobody looked at. -/
def commands (c : SharedChannel) : List (Nat × Command) :=
  c.passages.filterMap fun
    | .sent i command => some (i, command)
    | .received _ _ | .dropped _ _ => none

/-- The requests whose exchange is under way: the one that has locked the channel, and those that
were given up. -/
def outstanding (c : SharedChannel) : List Nat := c.exchange.toList ++ c.orphans

end SharedChannel

end SignerHost
