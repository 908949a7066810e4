import SignerHost.Proofs.Client.Request

/-!
# What an operation exchanges

Every command that an operation sends takes one reply off the link.  So what an operation exchanges
is known from what it sent, and what is left on the link is for the operations after it.

* `Link.transcript` pairs commands that are sent one after another with what comes back for them.
* The judgement `Transcribes` relates what a step of the host exchanges to how it ends.
* `RequestOptions.exchanges` is what one run of a request exchanges, reply by reply.
-/

namespace SignerHost

open Step

/-! ## Links before and after -/

/-- What comes back for a command when no reply is left. -/
def Reply.last : Except ChannelFault Bytes → Reply
  | .ok data => .answer Status.success data
  | .error f => .fault f

namespace Link

/-- What comes back for commands that are sent one after another.  Replies are used up in order;
behind the last one each command finds what the link has for it. -/
def receivedFrom (afterwards : Command → Except ChannelFault Bytes) :
    List Reply → List Command → List Reply
  | _, [] => []
  | [], command :: commands => .last (afterwards command) :: receivedFrom afterwards [] commands
  | reply :: rest, _ :: commands => reply :: receivedFrom afterwards rest commands

/-- What comes back on a link for commands that are sent one after another. -/
def received (link : Link) (commands : List Command) : List Reply :=
  receivedFrom link.afterwards link.replies commands

theorem length_receivedFrom (afterwards : Command → Except ChannelFault Bytes)
    (replies : List Reply) (commands : List Command) :
    (receivedFrom afterwards replies commands).length = commands.length := by
  induction commands generalizing replies with
  | nil => cases replies <;> rfl
  | cons command commands ih =>
      cases replies with
      | nil => exact congrArg (· + 1) (ih [])
      | cons reply rest => exact congrArg (· + 1) (ih rest)

theorem receivedFrom_append (afterwards : Command → Except ChannelFault Bytes)
    (replies : List Reply) (commands more : List Command) :
    receivedFrom afterwards replies (commands ++ more) =
      receivedFrom afterwards replies commands ++
        receivedFrom afterwards (replies.drop commands.length) more := by
  induction commands generalizing replies with
  | nil => cases replies <;> rfl
  | cons command commands ih =>
      cases replies with
      | nil =>
          have h := ih []
          rw [List.drop_nil] at h
          exact congrArg (.last (afterwards command) :: ·) h
      | cons reply rest => exact congrArg (reply :: ·) (ih rest)

@[simp] theorem length_received (link : Link) (commands : List Command) :
    (link.received commands).length = commands.length :=
  length_receivedFrom _ _ _

/-- Commands that are sent one after another, each with what comes back for it.  It is made from
the commands and the replies alone, so it can be read off any link. -/
def transcript (link : Link) (commands : List Command) : List (Command × Reply) :=
  commands.zip (link.received commands)

@[simp] theorem length_transcript (link : Link) (commands : List Command) :
    (link.transcript commands).length = commands.length := by
  rw [transcript, List.length_zip, length_received, Nat.min_self]

@[simp] theorem transcript_nil (link : Link) : link.transcript [] = [] := rfl

@[simp] theorem map_snd_transcript (link : Link) (commands : List Command) :
    (link.transcript commands).map Prod.snd = link.received commands :=
  List.map_snd_zip (link.length_received commands).le

/-- From one link to another commands were sent, and each of them took a reply.  The replies that
are left over are the same list without its first ones. -/
structure Exchanged (link after : Link) (sent : List Command) : Prop where
  replies : after.replies = link.replies.drop sent.length
  afterwards : after.afterwards = link.afterwards
  sent : sentCommands after.events = sentCommands link.events ++ sent

namespace Exchanged

variable {link middle after : Link} {sent more : List Command}

theorem refl (link : Link) : link.Exchanged link [] := ⟨rfl, rfl, (List.append_nil _).symm⟩

theorem trans (h : link.Exchanged middle sent) (hmore : middle.Exchanged after more) :
    link.Exchanged after (sent ++ more) where
  replies := by rw [hmore.replies, h.replies, List.drop_drop, List.length_append]
  afterwards := hmore.afterwards.trans h.afterwards
  sent := by rw [hmore.sent, h.sent, List.append_assoc]

/-- Later commands receive what the earlier ones left. -/
theorem received_append (h : link.Exchanged middle sent) (more : List Command) :
    link.received (sent ++ more) = link.received sent ++ middle.received more := by
  rw [received, receivedFrom_append, received, received, h.replies, h.afterwards]

theorem transcript_append (h : link.Exchanged middle sent) (more : List Command) :
    link.transcript (sent ++ more) = link.transcript sent ++ middle.transcript more := by
  rw [transcript, h.received_append]
  exact List.zip_append (link.length_received sent).symm

end Exchanged
end Link

/-! ## The judgement -/

/-- From any link, a step of the host takes one reply for each command that it sends, and what it
exchanges and its end are related. -/
structure Transcribes {α : Type} (x : Host α)
    (Q : List (Command × Reply) → Except Failure α → Prop) : Prop where
  run : ∀ link : Link, ∃ sent, link.Exchanged (after x link) sent ∧
    Q (link.transcript sent) (result x link)

namespace Transcribes

variable {α β : Type} {Q : List (Command × Reply) → Except Failure α → Prop}
  {R : List (Command × Reply) → Except Failure β → Prop}

theorem mono {Q' : List (Command × Reply) → Except Failure α → Prop} {x : Host α}
    (h : Transcribes x Q) (hQ : ∀ exchanges r, Q exchanges r → Q' exchanges r) :
    Transcribes x Q' where
  run := by
    intro link
    obtain ⟨sent, hsent, hend⟩ := h.run link
    exact ⟨sent, hsent, hQ _ _ hend⟩

theorem ofExcept {e : Except Failure α} (h : Q [] e) :
    Transcribes (MonadExcept.ofExcept e) Q where
  run := by
    intro link
    refine ⟨[], by simpa using Link.Exchanged.refl link, ?_⟩
    cases e with
    | ok a => exact h
    | error f => exact h

/-- What is only logged is no command. -/
theorem emit {Q : List (Command × Reply) → Except Failure Unit → Prop} {events : List Event}
    (hsilent : sentCommands events = []) (h : Q [] (.ok ())) :
    Transcribes (Host.emit events) Q where
  run := by
    intro link
    refine ⟨[], ⟨rfl, rfl, ?_⟩, h⟩
    show sentCommands (link.events ++ events) = _
    rw [sentCommands_append, hsilent]

/-- A chain exchanges what its first part exchanges, and goes on unless that failed. -/
theorem bind {x : Host α} {f : α → Host β} (hx : Transcribes x Q)
    (hok : ∀ exchanges a, Q exchanges (.ok a) →
      Transcribes (f a) fun more r => R (exchanges ++ more) r)
    (herror : ∀ exchanges failure, Q exchanges (.error failure) → R exchanges (.error failure)) :
    Transcribes (x >>= f) R where
  run := by
    intro link
    obtain ⟨sent, hsent, hend⟩ := hx.run link
    cases hrun : x.run link with
    | ok a next =>
        rw [result_of_ok hrun] at hend
        rw [after_of_ok hrun] at hsent
        obtain ⟨more, hmore, hlast⟩ := (hok _ a hend).run next
        -- The second part takes its replies from where the first one left the link.
        rw [← hsent.transcript_append] at hlast
        refine ⟨sent ++ more, ?_, ?_⟩
        · rw [after, run_bind_of_ok hrun]
          exact hsent.trans hmore
        · rw [result, run_bind_of_ok hrun]
          exact hlast
    | error failure next =>
        rw [result_of_error hrun] at hend
        rw [after_of_error hrun] at hsent
        refine ⟨sent, ?_, ?_⟩
        · rwa [after_of_error (run_bind_of_error hrun)]
        · rw [result_of_error (run_bind_of_error hrun)]
          exact herror _ _ hend

/-- An argument is checked before anything is sent. -/
theorem check {e : Except Failure β} {f : β → Host α}
    (hok : ∀ b, e = .ok b → Transcribes (f b) Q)
    (herror : ∀ failure, e = .error failure → Q [] (.error failure)) :
    Transcribes (MonadExcept.ofExcept e >>= f) Q := by
  cases e with
  | ok b => exact hok b rfl
  | error failure => exact ofExcept (e := .error failure) (herror failure rfl)

/-- A check that refuses under a condition, before what follows. -/
theorem guard {c : Prop} [Decidable c] {failure : Failure} {f : Unit → Host α}
    (herror : c → Q [] (.error failure)) (hf : ¬ c → Transcribes (f ()) Q) :
    Transcribes (if c then MonadExcept.throw failure >>= f else f ()) Q := by
  split
  · exact ofExcept (e := .error failure) (herror ‹_›)
  · exact hf ‹_›

end Transcribes

/-! ## One reply -/

/-- A request that carries an answer back. -/
def Pending.continued (p : Pending) (answer : Bytes) (responder : Responder) : Pending where
  command := .continueInterrupted answer
  responder := some responder
  interruptions := p.interruptions + 1

namespace RequestOptions

variable (o : RequestOptions)

/-- A query that the responder answers goes on with the answer, and any other one fails. -/
theorem answer_cases (p : Pending) (r : Responder) (query : Bytes) :
    (∃ a r', (Responder.execute query).run r = .ok a r' ∧
      o.answer p r query = .pending (p.continued a r')) ∨
    ∃ failure responder interruptions,
      o.answer p r query = .ended { ending := .failed failure, responder, interruptions } := by
  simp only [answer]
  split_ifs with hlimit
  · exact .inr ⟨_, _, _, rfl⟩
  · cases hrun : Responder.execute query r with
    | ok a r' => exact .inl ⟨a, r', hrun, rfl⟩
    | error failure r' => exact .inr ⟨_, _, _, rfl⟩

/-- A reply makes a request done if it is a success, takes it on if it is an interruption that is
answered, and otherwise ends it without data. -/
theorem advance_cases (p : Pending) (reply : Reply) :
    (∃ data, reply = .answer Status.success data ∧
      o.advance p reply = .ended (p.outcome (.done data))) ∨
    (∃ r r' query a, p.responder = some r ∧ reply = .answer Status.interrupted query ∧
      (Responder.execute query).run r = .ok a r' ∧
      o.advance p reply = .pending (p.continued a r')) ∨
    ∃ outcome, (∀ data, reply ≠ .answer Status.success data) ∧
      o.advance p reply = .ended outcome ∧ ∀ data, outcome.ending ≠ .done data := by
  cases reply with
  | fault f =>
      have hreply : ∀ data, Reply.fault f ≠ .answer Status.success data := fun _ h => by cases h
      exact .inr (.inr ⟨_, hreply, rfl, fun _ h => by cases h⟩)
  -- The status decides first, and of an interruption the responder and the limit.
  | answer status data =>
      rw [advance]
      split_ifs with hsuccess hinterrupted
      · exact .inl ⟨data, by rw [hsuccess], rfl⟩
      all_goals
        have hreply : ∀ data', Reply.answer status data ≠ .answer Status.success data' :=
          fun _ h => hsuccess (Reply.answer.inj h).1
      · cases hresponder : p.responder with
        | none => exact .inr (.inr ⟨_, hreply, rfl, fun _ h => by cases h⟩)
        | some r =>
            rcases o.answer_cases p r data with ⟨a, r', hrun, hanswer⟩ | ⟨failure, _, _, hanswer⟩
            · exact .inr (.inl ⟨r, r', data, a, rfl, by rw [hinterrupted], hrun, hanswer⟩)
            · exact .inr (.inr ⟨_, hreply, hanswer, fun _ h => by cases h⟩)
      · exact .inr (.inr ⟨_, hreply, rfl, fun _ h => by cases h⟩)

/-- A run takes one reply for each command that it sends.  So the replies that are left tell how
many commands were sent. -/
theorem rest_run (afterwards : Command → Except ChannelFault Bytes) (replies : List Reply)
    (p : Pending) :
    (o.run afterwards replies p).rest =
      replies.drop (sentCommands (o.run afterwards replies p).events).length := by
  induction replies generalizing p with
  | nil =>
      rw [sentCommands_run_nil]
      rfl
  | cons reply replies ih =>
      cases hnext : o.advance p reply with
      | pending next =>
          rw [sentCommands_run_of_advance hnext, run_cons_of_advance hnext]
          exact ih next
      | ended outcome =>
          rw [sentCommands_run_of_ended hnext, run_cons_of_ended hnext]
          rfl

/-- The commands of a run, each with what came back for it.  Only what was sent counts, whether
it was logged or not. -/
def exchanges (afterwards : Command → Except ChannelFault Bytes) (replies : List Reply)
    (p : Pending) : List (Command × Reply) :=
  let sent := sentCommands (o.run afterwards replies p).events
  sent.zip (Link.receivedFrom afterwards replies sent)

variable {o} {afterwards : Command → Except ChannelFault Bytes} {p : Pending} {reply : Reply}

theorem exchanges_nil :
    o.exchanges afterwards [] p = [(p.command, .last (afterwards p.command))] := by
  rw [exchanges, sentCommands_run_nil]
  rfl

theorem exchanges_of_advance {next : Pending} (h : o.advance p reply = .pending next)
    (rest : List Reply) :
    o.exchanges afterwards (reply :: rest) p =
      (p.command, reply) :: o.exchanges afterwards rest next := by
  rw [exchanges, sentCommands_run_of_advance h]
  rfl

theorem exchanges_of_ended {outcome : Outcome} (h : o.advance p reply = .ended outcome)
    (rest : List Reply) : o.exchanges afterwards (reply :: rest) p = [(p.command, reply)] := by
  rw [exchanges, sentCommands_run_of_ended h]
  exact congrArg (List.cons _) List.zip_nil_left

end RequestOptions

namespace Transcribes

/-- A request exchanges what its run exchanges, and ends as its run does. -/
theorem request_of_run {client : Client} {command : Command} {responder : Option Responder}
    {Q : List (Command × Reply) → Except Failure (Bytes × Option Responder) → Prop}
    (h : ∀ link : Link,
      let run := (client.options command).run link.afterwards link.replies
        (pendingAfter command [] responder)
      Q (link.transcript (sentCommands run.events)) (run.outcome.result command)) :
    Transcribes (client.request command responder) Q where
  run := by
    intro link
    obtain ⟨hresult, events, hafter, hsent⟩ := request_eq_run client command responder link
    have hend := h link
    rw [hresult, hafter]
    refine ⟨_, ?_, hend⟩
    refine ⟨(client.options command).rest_run _ _ _, rfl, ?_⟩
    show sentCommands (link.events ++ events) = _
    rw [sentCommands_append, hsent]

end Transcribes

end SignerHost
