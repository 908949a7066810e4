import SignerHost.Client.Basic
import SignerHost.Proofs.Step

/-!
# The course of a request

A device is any function of the commands sent so far.  A request sends its command, answers one
interruption after another, and ends at the first reply that it does not answer.

* `Answered` says which interruptions were answered, each by the responder as the answers before
  left it.  `Ends` says how a reply ends a request, and with what result.
* `Refusal.IsFor` says which kind of refusal goes with a status word: the one that has the word for
  its own, or the unknown one for all other words.
* `run_answered` takes a run through all answered interruptions; the induction is on their number.
* `request_course` has both: for every device the request either ends after some answers, or the
  device interrupts it forever.
-/

namespace SignerHost

open Step

/-! ## Commands and replies -/

/-- The commands of a request, given the answers that it carries back.  Each answer goes into a
command of its own, behind the first one. -/
def commandsOf (command : Command) (answers : List Bytes) : List Command :=
  command :: answers.map .continueInterrupted

/-- The command that waits for its reply.  It is the first command until there is an answer. -/
def lastCommand (command : Command) (answers : List Bytes) : Command :=
  (answers.map Command.continueInterrupted).getLastD command

/-- The replies of a device to commands that are sent one after the other.  The device sees all
commands so far, so a reply may depend on each of them. -/
def repliesTo (device : List Command → Reply) (commands : List Command) : List Reply :=
  (List.range commands.length).map fun i => device (commands.take (i + 1))

/-- The commands among the events.  They are in the order in which they were sent. -/
def sentCommands (events : List Event) : List Command :=
  events.filterMap fun
    | .sent command => some command
    | _ => none

theorem commandsOf_append (command : Command) (answers : List Bytes) (a : Bytes) :
    commandsOf command (answers ++ [a]) =
      commandsOf command answers ++ [.continueInterrupted a] := by
  simp [commandsOf]

theorem header_of_mem_tail {command c : Command} {answers : List Bytes}
    (h : c ∈ (commandsOf command answers).tail) :
    c.cla = 0xF8 ∧ c.instruction.code = 0x01 ∧ c.p1 = 0 ∧ c.p2 = 1 := by
  obtain ⟨a, -, rfl⟩ := List.mem_map.mp h
  exact ⟨rfl, rfl, rfl, rfl⟩

@[simp] theorem lastCommand_nil (command : Command) : lastCommand command [] = command := rfl

@[simp] theorem lastCommand_append (command : Command) (answers : List Bytes) (a : Bytes) :
    lastCommand command (answers ++ [a]) = .continueInterrupted a := by
  simp [lastCommand]

/-- The commands before the last one, and the last one. -/
theorem commandsOf_eq (command : Command) (answers : List Bytes) :
    commandsOf command answers =
      (commandsOf command answers).dropLast ++ [lastCommand command answers] := by
  induction answers using List.reverseRecOn with
  | nil => rfl
  | append_singleton answers a _ =>
      rw [commandsOf_append, List.dropLast_concat, lastCommand_append]

theorem repliesTo_append (device : List Command → Reply) (commands : List Command)
    (c : Command) :
    repliesTo device (commands ++ [c]) =
      repliesTo device commands ++ [device (commands ++ [c])] := by
  have hlength : (commands ++ [c]).length = commands.length + 1 := by simp
  rw [repliesTo, hlength, List.range_succ, List.map_append, List.map_singleton, ← hlength,
    List.take_length]
  congr 1
  apply List.map_congr_left
  intro i hi
  have hi : i < commands.length := List.mem_range.mp hi
  rw [List.take_append_of_le_length (by omega)]

/-- The replies so far are those to the commands before, and the one to the last command. -/
theorem repliesTo_commandsOf (device : List Command → Reply) (command : Command)
    (answers : List Bytes) :
    repliesTo device (commandsOf command answers) =
      repliesTo device (commandsOf command answers).dropLast ++
        [device (commandsOf command answers)] := by
  have hsplit := commandsOf_eq command answers
  calc repliesTo device (commandsOf command answers)
      = repliesTo device ((commandsOf command answers).dropLast ++ [lastCommand command answers]) :=
        congrArg (repliesTo device) hsplit
    _ = repliesTo device (commandsOf command answers).dropLast ++
          [device ((commandsOf command answers).dropLast ++ [lastCommand command answers])] :=
        repliesTo_append device _ _
    _ = _ := by rw [← hsplit]

theorem sentCommands_append (events further : List Event) :
    sentCommands (events ++ further) = sentCommands events ++ sentCommands further :=
  List.filterMap_append

/-! ## What an exchange leaves in the events -/

theorem sentCommands_logged (query : Bytes) : sentCommands (Query.logged query) = [] := by
  cases query with
  | nil => rfl
  | cons code body =>
      rw [Query.logged]
      cases Query.codeName? code <;> rfl

namespace RequestOptions

@[simp] theorem sentCommands_sending (o : RequestOptions) (p : Pending) :
    sentCommands (o.sending p) = [p.command] := rfl

@[simp] theorem sentCommands_receiving (o : RequestOptions) (p : Pending) (reply : Reply) :
    sentCommands (o.receiving p reply) = [] := by
  cases reply with
  | fault f => rfl
  | answer status data =>
      rw [receiving]
      split
      · exact sentCommands_logged data
      · rfl

@[simp] theorem sentCommands_receivingLast (o : RequestOptions)
    (last : Except ChannelFault Bytes) : sentCommands (o.receivingLast last) = [] := by
  cases last <;> rfl

/-- One exchange sends one command, whatever comes back. -/
theorem sentCommands_exchange (o : RequestOptions) (p : Pending) (reply : Reply) :
    sentCommands (o.sending p ++ o.receiving p reply) = [p.command] := by
  rw [sentCommands_append, sentCommands_sending, sentCommands_receiving, List.append_nil]

@[simp] theorem sentCommands_concluding (o : RequestOptions) (outcome : Outcome) :
    sentCommands (o.concluding outcome) = [] := by
  rw [concluding]
  split <;> rfl

end RequestOptions

@[simp] theorem sentCommands_inSession (hasSessions : Bool) (events : List Event) :
    sentCommands (Client.inSession hasSessions events) = sentCommands events := by
  cases hasSessions with
  | false => rfl
  | true =>
      show sentCommands (events ++ [.sessionEnd]) = _
      rw [sentCommands_append]
      exact List.append_nil _

/-! ## Kinds of refusal -/

namespace Refusal

/-- The status word that a kind of refusal has for its own.  Only the unknown kind has none, because
it stands for all the words that no other kind has. -/
def status? : Refusal → Option Int
  | unknown => none
  | deny => some 0x6985
  | incorrectData => some 0x6A80
  | notSupported => some 0x6A82
  | wrongP1P2 => some 0x6A86
  | wrongDataLength => some 0x6A87
  | insNotSupported => some 0x6D00
  | claNotSupported => some 0x6E00
  | wrongResponseLength => some 0xB000
  | badState => some 0xB007
  | signatureFail => some 0xB008
  | interruptedExecution => some 0xE000

/-- A kind of refusal is the one for a status word: it has the word for its own, or it is the
unknown kind and no kind has that word. -/
def IsFor (kind : Refusal) (status : Int) : Prop :=
  kind.status? = some status ∨ kind = unknown ∧ ∀ other : Refusal, other.status? ≠ some status

theorem lookup_registered {kind : Refusal} {status : Int} (h : kind.status? = some status) :
    registered.lookup status = some kind := by
  cases kind
  case unknown => cases h
  all_goals
    cases h
    rfl

theorem lookup_registered_of_none {status : Int} (h : ∀ kind : Refusal, kind.status? ≠ some status) :
    registered.lookup status = none := by
  have hown : ∀ entry ∈ registered, entry.2.status? = some entry.1 := by decide
  refine List.lookup_eq_none_iff.mpr fun entry hentry => ?_
  have hne : status ≠ entry.1 := fun hstatus => h entry.2 (by rw [hown entry hentry, hstatus])
  exact bne_iff_ne.mpr hne

/-- Every status word has exactly one kind of refusal, and it is the one that is found.  So the
table of the registered words and the kind that stands for all others cover every word once. -/
theorem isFor_iff {kind : Refusal} {status : Int} : kind.IsFor status ↔ kind = ofStatus status := by
  -- A status that is registered has one kind, and any other status has the unknown one.
  by_cases h : ∃ own : Refusal, own.status? = some status
  · obtain ⟨own, hown⟩ := h
    have hfound : ofStatus status = own := by rw [ofStatus, lookup_registered hown, Option.getD_some]
    rw [hfound]
    constructor
    · rintro (hkind | ⟨-, hnone⟩)
      · exact Option.some.inj ((lookup_registered hkind).symm.trans (lookup_registered hown))
      · exact absurd hown (hnone own)
    · rintro rfl
      exact .inl hown
  · have hnone : ∀ other : Refusal, other.status? ≠ some status := fun other hother =>
      h ⟨other, hother⟩
    have hfound : ofStatus status = unknown := by
      rw [ofStatus, lookup_registered_of_none hnone, Option.getD_none]
    rw [hfound]
    constructor
    · rintro (hkind | ⟨hkind, -⟩)
      · exact absurd hkind (hnone kind)
      · exact hkind
    · rintro rfl
      exact .inr ⟨rfl, hnone⟩

end Refusal

/-! ## Answers and endings -/

/-- The interruptions that are answered: each answer is that of the responder, as the answers
before left it, to the query of the device, and the limit is not passed. -/
inductive Answered (client : Client) (command : Command) (device : List Command → Reply)
    (responder : Option Responder) : List Bytes → Option Responder → Prop
  | start : Answered client command device responder [] responder
  | next {answers : List Bytes} {before after : Responder} {query a : Bytes}
      (h : Answered client command device responder answers (some before))
      (hquery : device (commandsOf command answers) = .answer Status.interrupted query)
      (hlimit : ∀ limit ∈ client.maxInterruptions, (answers.length : Int) + 1 ≤ limit)
      (hanswer : (Responder.execute query).run before = .ok a after) :
      Answered client command device responder (answers ++ [a]) (some after)

/-- A reply that ends a request after some answers, what the request gives, and the responder that
is left. -/
inductive Ends (client : Client) (command : Command) (answers : List Bytes) :
    Option Responder → Reply → Except Failure (Bytes × Option Responder) → Option Responder → Prop
  | done {before : Option Responder} {data : Bytes} :
      Ends client command answers before (.answer Status.success data) (.ok (data, before)) before
  /-- The failure is of the kind for the status word, with the instruction of the first command.  An
  interruption that nobody can answer is a refusal, too. -/
  | refused {before : Option Responder} {status : Int} {data : Bytes} {kind : Refusal}
      (hstatus : status ≠ Status.success) (hother : status ≠ Status.interrupted ∨ before = none)
      (hkind : kind.IsFor status) :
      Ends client command answers before (.answer status data)
        (.error (.device kind status (some command.instruction) "")) before
  | broken {before : Option Responder} {f : ChannelFault} :
      Ends client command answers before (.fault f)
        (.error (f.failure (lastCommand command answers).instruction)) before
  /-- The query of an interruption above the limit is not executed. -/
  | tooMany {before : Responder} {query : Bytes} {limit : Int}
      (hlimit : client.maxInterruptions = some limit) (habove : limit < (answers.length : Int) + 1) :
      Ends client command answers (some before) (.answer Status.interrupted query)
        (.error (.protocol (.tooManyInterruptions command.instruction limit))) (some before)
  | unanswered {before after : Responder} {query : Bytes} {failure : Failure}
      (hlimit : ∀ limit ∈ client.maxInterruptions, (answers.length : Int) + 1 ≤ limit)
      (hanswer : (Responder.execute query).run before = .error failure after) :
      Ends client command answers (some before) (.answer Status.interrupted query)
        (.error failure) (some after)

/-- The request that waits after some answers.  Its responder is the one that the last answer
left. -/
def pendingAfter (command : Command) (answers : List Bytes) (responder : Option Responder) :
    Pending where
  command := lastCommand command answers
  responder := responder
  interruptions := answers.length

/-- What a request gives at its end. -/
def Outcome.result (command : Command) (outcome : Outcome) :
    Except Failure (Bytes × Option Responder) :=
  match outcome.ending with
  | .done data => .ok (data, outcome.responder)
  | .refused status => .error (.ofStatus status (some command.instruction) "")
  | .failed failure => .error failure

/-! ## One reply -/

section Reply

variable {client : Client} {command : Command} {answers : List Bytes}

theorem exceeds_eq_false {n : Nat} :
    (client.options command).exceeds n = false ↔
      ∀ limit ∈ client.maxInterruptions, (n : Int) ≤ limit := by
  show (client.maxInterruptions.any fun limit => decide (limit < (n : Int))) = false ↔ _
  cases client.maxInterruptions with
  | none => simp
  | some limit => simp

theorem exceeds_eq_true {limit : Int} {n : Nat} (hlimit : client.maxInterruptions = some limit)
    (habove : limit < n) : (client.options command).exceeds n = true := by
  show (client.maxInterruptions.any fun limit => decide (limit < (n : Int))) = true
  simp [hlimit, habove]

/-- An interruption that is answered takes the request to the next command. -/
theorem advance_of_answer (command : Command) {before after : Responder} {query a : Bytes}
    (hlimit : ∀ limit ∈ client.maxInterruptions, (answers.length : Int) + 1 ≤ limit)
    (hanswer : (Responder.execute query).run before = .ok a after) :
    (client.options command).advance (pendingAfter command answers (some before))
        (.answer Status.interrupted query) =
      .pending (pendingAfter command (answers ++ [a]) (some after)) := by
  have hexceeds : (client.options command).exceeds (answers.length + 1) = false := by
    rw [exceeds_eq_false]
    simpa using hlimit
  have hexecute : Responder.execute query before = .ok a after := hanswer
  have hstatus : Status.interrupted ≠ Status.success := by decide
  simp [RequestOptions.advance, RequestOptions.answer, pendingAfter, hstatus, hexceeds, hexecute]

/-- A reply that ends the request ends the run with the same result. -/
theorem advance_of_ends {before after : Option Responder} {reply : Reply}
    {result : Except Failure (Bytes × Option Responder)}
    (h : Ends client command answers before reply result after) :
    ∃ outcome, (client.options command).advance (pendingAfter command answers before) reply =
        .ended outcome ∧ outcome.result command = result ∧ outcome.responder = after := by
  have hinterrupted : Status.interrupted ≠ Status.success := by decide
  cases h with
  | done => exact ⟨_, rfl, rfl, rfl⟩
  | refused hstatus hother hkind =>
      rename_i status data kind
      obtain rfl := Refusal.isFor_iff.mp hkind
      refine ⟨(pendingAfter command answers before).outcome (.refused status), ?_, rfl, rfl⟩
      rcases hother with hother | rfl
      · simp [RequestOptions.advance, hstatus, hother]
      · simp [RequestOptions.advance, pendingAfter, hstatus]
  | broken => exact ⟨_, rfl, rfl, rfl⟩
  -- The limit is checked before the responder is asked, so the responder stays as it is.
  | tooMany hlimit habove =>
      rename_i responder query limit
      have hexceeds : (client.options command).exceeds (answers.length + 1) = true :=
        exceeds_eq_true hlimit (by exact_mod_cast habove)
      have hoption : (client.options command).maxInterruptions.getD 0 = limit := by
        show client.maxInterruptions.getD 0 = limit
        rw [hlimit, Option.getD_some]
      refine ⟨⟨.failed (.protocol (.tooManyInterruptions command.instruction limit)),
        some responder, answers.length + 1⟩, ?_, rfl, rfl⟩
      have hinstruction : (client.options command).instruction = command.instruction := rfl
      simp [RequestOptions.advance, RequestOptions.answer, pendingAfter, hinterrupted, hexceeds,
        hoption, hinstruction, Pending.outcome]
  | unanswered hlimit hanswer =>
      rename_i responder remaining query failure
      have hexceeds : (client.options command).exceeds (answers.length + 1) = false := by
        rw [exceeds_eq_false]
        simpa using hlimit
      have hexecute : Responder.execute query responder = .error failure remaining := hanswer
      refine ⟨⟨.failed failure, some remaining, answers.length + 1⟩, ?_, rfl, rfl⟩
      simp [RequestOptions.advance, RequestOptions.answer, pendingAfter, hinterrupted, hexceeds,
        hexecute]

/-- A reply either is an interruption that is answered, or ends the request.  A reply is never
both, since an answer lets the request go on. -/
theorem answered_or_ends (client : Client) (command : Command) (answers : List Bytes)
    (before : Option Responder) (reply : Reply) :
    (∃ responder query a after, before = some responder ∧
      reply = .answer Status.interrupted query ∧
      (∀ limit ∈ client.maxInterruptions, (answers.length : Int) + 1 ≤ limit) ∧
      (Responder.execute query).run responder = .ok a after) ∨
    ∃ result after, Ends client command answers before reply result after := by
  cases reply with
  | fault f => exact .inr ⟨_, _, .broken⟩
  | answer status data =>
      by_cases hsuccess : status = Status.success
      · subst hsuccess
        exact .inr ⟨_, _, .done⟩
      by_cases hinterrupted : status = Status.interrupted
      · subst hinterrupted
        cases before with
        | none => exact .inr ⟨_, _, .refused hsuccess (.inr rfl) (Refusal.isFor_iff.mpr rfl)⟩
        | some responder =>
            -- The limit is checked before the query is executed.
            by_cases hlimit : ∀ limit ∈ client.maxInterruptions,
                (answers.length : Int) + 1 ≤ limit
            · cases hanswer : (Responder.execute data).run responder with
              | ok a after => exact .inl ⟨responder, data, a, after, rfl, rfl, hlimit, hanswer⟩
              | error failure after => exact .inr ⟨_, _, .unanswered hlimit hanswer⟩
            · push Not at hlimit
              obtain ⟨limit, hmem, habove⟩ := hlimit
              exact .inr ⟨_, _, .tooMany hmem habove⟩
      · exact .inr ⟨_, _, .refused hsuccess (.inl hinterrupted) (Refusal.isFor_iff.mpr rfl)⟩

end Reply

/-! ## Runs -/

namespace Run

/-- A run with some events in front. -/
def after (events : List Event) (run : Run) : Run := { run with events := events ++ run.events }

theorem after_after (events further : List Event) (run : Run) :
    (run.after further).after events = run.after (events ++ further) := by
  simp [after]

theorem sentCommands_after (events : List Event) (run : Run) :
    sentCommands (run.after events).events = sentCommands events ++ sentCommands run.events :=
  sentCommands_append events run.events

end Run

section Course

variable {client : Client} {command : Command} {device : List Command → Reply}
  {responder : Option Responder}

/-- One exchange that is answered. -/
theorem run_cons_of_advance {o : RequestOptions} {afterwards : Command → Except ChannelFault Bytes}
    {reply : Reply} {p next : Pending} (h : o.advance p reply = .pending next)
    (rest : List Reply) :
    o.run afterwards (reply :: rest) p =
      (o.run afterwards rest next).after (o.sending p ++ o.receiving p reply) := by
  rw [RequestOptions.run, h]
  rfl

/-- One exchange that ends the request. -/
theorem run_cons_of_ended {o : RequestOptions} {afterwards : Command → Except ChannelFault Bytes}
    {reply : Reply} {p : Pending} {outcome : Outcome} (h : o.advance p reply = .ended outcome)
    (rest : List Reply) :
    o.run afterwards (reply :: rest) p =
      { outcome, events := o.sending p ++ o.receiving p reply, rest } := by
  rw [RequestOptions.run, h]

/-! What a run sends, one reply at a time. -/

section Sent

variable {o : RequestOptions} {afterwards : Command → Except ChannelFault Bytes} {p : Pending}
  {reply : Reply}

theorem sentCommands_run_nil :
    sentCommands (o.run afterwards [] p).events = [p.command] := by
  rw [RequestOptions.run, sentCommands_append, RequestOptions.sentCommands_sending,
    RequestOptions.sentCommands_receivingLast]
  rfl

theorem sentCommands_run_of_advance {next : Pending} (h : o.advance p reply = .pending next)
    (rest : List Reply) :
    sentCommands (o.run afterwards (reply :: rest) p).events =
      p.command :: sentCommands (o.run afterwards rest next).events := by
  rw [run_cons_of_advance h, Run.sentCommands_after, RequestOptions.sentCommands_exchange]
  rfl

theorem sentCommands_run_of_ended {outcome : Outcome} (h : o.advance p reply = .ended outcome)
    (rest : List Reply) :
    sentCommands (o.run afterwards (reply :: rest) p).events = [p.command] := by
  rw [run_cons_of_ended h]
  exact RequestOptions.sentCommands_exchange o p reply

end Sent

/-- A run goes through all answered interruptions, one exchange for each, and on from there.  The
induction is on the answers, from the last one back. -/
theorem run_answered {answers : List Bytes} {before : Option Responder}
    (h : Answered client command device responder answers before) :
    ∃ events, sentCommands events = (commandsOf command answers).dropLast ∧
      ∀ afterwards rest,
        (client.options command).run afterwards
          (repliesTo device (commandsOf command answers).dropLast ++ rest)
          (pendingAfter command [] responder) =
        ((client.options command).run afterwards rest
          (pendingAfter command answers before)).after events := by
  induction h with
  | start => exact ⟨[], rfl, fun _ _ => rfl⟩
  | next h hquery hlimit hanswer ih =>
      rename_i answers before after query a
      obtain ⟨events, hsent, hrun⟩ := ih
      have hadvance := advance_of_answer command hlimit hanswer
      have hdrop : (commandsOf command (answers ++ [a])).dropLast = commandsOf command answers := by
        rw [commandsOf_append, List.dropLast_concat]
      -- One exchange more: the command that waited, its reply, and no other command.
      refine ⟨events ++
        ((client.options command).sending (pendingAfter command answers (some before)) ++
          (client.options command).receiving (pendingAfter command answers (some before))
            (.answer Status.interrupted query)), ?_, fun afterwards rest => ?_⟩
      rotate_left
      · rw [hdrop, repliesTo_commandsOf, hquery, List.append_assoc, hrun, List.singleton_append,
          run_cons_of_advance hadvance]
        exact Run.after_after events _ _
      · rw [hdrop, sentCommands_append, hsent, RequestOptions.sentCommands_exchange]
        exact (commandsOf_eq command answers).symm

/-- A limit bounds the number of answers.  Without one they may be as many as the device likes. -/
theorem Answered.length_le {answers : List Bytes} {before : Option Responder}
    (h : Answered client command device responder answers before) {limit : Int}
    (hlimit : client.maxInterruptions = some limit) :
    answers = [] ∨ (answers.length : Int) ≤ limit := by
  cases h with
  | start => exact .inl rfl
  | next h hquery hwithin hanswer =>
      right
      rw [List.length_append, List.length_singleton]
      exact_mod_cast hwithin limit hlimit

/-- For every number of answers, either a device is answered that often, or the request ends
before. -/
theorem exists_answered_or_ends (client : Client) (command : Command)
    (device : List Command → Reply) (responder : Option Responder) (n : Nat) :
    (∃ answers before, Answered client command device responder answers before ∧
      answers.length = n) ∨
    ∃ answers before result after, Answered client command device responder answers before ∧
      Ends client command answers before (device (commandsOf command answers)) result after := by
  induction n with
  | zero => exact .inl ⟨[], responder, .start, rfl⟩
  | succ n ih =>
      rcases ih with ⟨answers, before, hanswered, hlength⟩ | hends
      · rcases answered_or_ends client command answers before (device (commandsOf command answers))
          with ⟨r, query, a, after, rfl, hquery, hlimit, hanswer⟩ | ⟨result, after, hends⟩
        · refine .inl ⟨answers ++ [a], some after, hanswered.next hquery hlimit hanswer, ?_⟩
          rw [List.length_append, hlength, List.length_singleton]
        · exact .inr ⟨answers, before, result, after, hanswered, hends⟩
      · exact .inr hends

/-- A request on a link is its run.  Its events go into the link, in a session if the link has
sessions, and behind them what is logged in the end. -/
theorem run_request_eq (link : Link) {run : Run}
    (h : (client.options command).run link.afterwards link.replies
      (pendingAfter command [] responder) = run) :
    (client.request command responder).run link =
      (MonadExcept.ofExcept (run.outcome.result command) : Host _).run
        { link with
          replies := run.rest
          events := link.events ++ (Client.inSession link.hasSessions run.events ++
            (client.options command).concluding run.outcome) } := by
  have hrun : (client.options command).run link.afterwards link.replies
      { command, responder, interruptions := 0 } = run := h
  show client.request command responder link = _
  unfold Client.request Outcome.result
  simp only [hrun]
  cases run.outcome.ending with
  | done data => rfl
  | refused status => rfl
  | failed failure => rfl

/-- The commands that a request sends are those of its run. -/
theorem run_request (link : Link) {run : Run}
    (h : (client.options command).run link.afterwards link.replies
      (pendingAfter command [] responder) = run) :
    ∃ events, (client.request command responder).run link =
        (MonadExcept.ofExcept (run.outcome.result command) : Host _).run
          { link with replies := run.rest, events := link.events ++ events } ∧
      sentCommands events = sentCommands run.events := by
  refine ⟨_, run_request_eq link h, ?_⟩
  rw [sentCommands_append, sentCommands_inSession, RequestOptions.sentCommands_concluding,
    List.append_nil]

/-- A request ends as its run does, and leaves what its run leaves on the link.  The session and
what is logged at the end are all that it adds. -/
theorem request_eq_run (client : Client) (command : Command) (responder : Option Responder)
    (link : Link) :
    let run := (client.options command).run link.afterwards link.replies
      (pendingAfter command [] responder)
    result (client.request command responder) link = run.outcome.result command ∧
      ∃ events, after (client.request command responder) link =
          { link with replies := run.rest, events := link.events ++ events } ∧
        sentCommands events = sentCommands run.events := by
  intro run
  have hcourse : (client.options command).run link.afterwards link.replies
    (pendingAfter command [] responder) = run := rfl
  obtain ⟨events, hrun, hsent⟩ := run_request link hcourse
  rw [result, after, hrun]
  refine ⟨?_, events, ?_, hsent⟩
  · cases run.outcome.result command <;> rfl
  · cases run.outcome.result command <;> rfl

/-- A request that ends behind some answers makes one exchange more than there are answers.  It
leaves the replies that it did not need on the link. -/
theorem run_request_of_ends {answers : List Bytes} {before after : Option Responder}
    {result : Except Failure (Bytes × Option Responder)}
    (hanswered : Answered client command device responder answers before)
    (hends : Ends client command answers before (device (commandsOf command answers)) result after)
    (link : Link) (rest : List Reply) :
    ((client.options command).run link.afterwards
      (repliesTo device (commandsOf command answers) ++ rest)
      (pendingAfter command [] responder)).outcome.responder = after ∧
    ∃ events,
      (client.request command responder).run
          { link with replies := repliesTo device (commandsOf command answers) ++ rest } =
        (MonadExcept.ofExcept result : Host _).run
          { link with replies := rest, events := link.events ++ events } ∧
      sentCommands events = commandsOf command answers := by
  obtain ⟨outcome, hadvance, rfl, rfl⟩ := advance_of_ends hends
  obtain ⟨events, hsent, hrun⟩ := run_answered hanswered
  -- The last reply is taken off the others, since the run stops at it.
  have hreplies : repliesTo device (commandsOf command answers) ++ rest =
      repliesTo device (commandsOf command answers).dropLast ++
        device (commandsOf command answers) :: rest := by
    rw [repliesTo_commandsOf, List.append_assoc, List.singleton_append]
  have hrun := hrun link.afterwards (device (commandsOf command answers) :: rest)
  rw [run_cons_of_ended hadvance, ← hreplies] at hrun
  obtain ⟨further, hrequest, hsame⟩ := run_request
    { link with replies := repliesTo device (commandsOf command answers) ++ rest }
    hrun
  refine ⟨congrArg (fun run => run.outcome.responder) hrun, further, hrequest, ?_⟩
  rw [hsame, Run.sentCommands_after, hsent, RequestOptions.sentCommands_exchange]
  exact (commandsOf_eq command answers).symm

/-- A request that is still interrupted when the replies of the link are used up has sent its
command and all answers. -/
theorem run_request_of_answered {answers : List Bytes} {before : Option Responder}
    (hanswered : Answered client command device responder answers before) (link : Link) :
    ∃ result events,
      (client.request command responder).run
          { link with replies := repliesTo device (commandsOf command answers).dropLast } =
        (MonadExcept.ofExcept result : Host _).run
          { link with replies := [], events := link.events ++ events } ∧
      sentCommands events = commandsOf command answers := by
  obtain ⟨events, hsent, hrun⟩ := run_answered hanswered
  have hrun := hrun link.afterwards []
  rw [List.append_nil] at hrun
  obtain ⟨further, hrequest, hsame⟩ := run_request
    { link with replies := repliesTo device (commandsOf command answers).dropLast }
    hrun
  refine ⟨_, further, hrequest, ?_⟩
  rw [hsame, Run.sentCommands_after, hsent, sentCommands_run_nil]
  exact (commandsOf_eq command answers).symm

/-- Under a limit, a device cannot be answered any number of times: one answer more than the limit
allows is too many. -/
theorem no_limit_of_answered
    (h : ∀ n, ∃ answers before, Answered client command device responder answers before ∧
      answers.length = n) :
    client.maxInterruptions = none := by
  cases hlimit : client.maxInterruptions with
  | none => rfl
  | some limit =>
      obtain ⟨answers, before, hanswered, hlength⟩ := h (limit.toNat + 1)
      rcases hanswered.length_le hlimit with rfl | hle
      · cases hlength
      · omega

end Course

/-- For every device, a request sends its command and then one answer for each interruption.  Either
it ends after some answers, with one exchange more than there are answers and with the result that
`Ends` gives, or there is no limit and it is interrupted forever. -/
theorem request_course (client : Client) (command : Command) (device : List Command → Reply)
    (responder : Option Responder) :
    (∃ answers before result after,
      Answered client command device responder answers before ∧
      Ends client command answers before (device (commandsOf command answers)) result after ∧
      (∀ c ∈ (commandsOf command answers).tail,
        c.cla = 0xF8 ∧ c.instruction.code = 0x01 ∧ c.p1 = 0 ∧ c.p2 = 1) ∧
      (∀ limit ∈ client.maxInterruptions, 0 ≤ limit → (answers.length : Int) ≤ limit) ∧
      ∀ (link : Link) (rest : List Reply),
        ((client.options command).run link.afterwards
          (repliesTo device (commandsOf command answers) ++ rest)
          { command, responder, interruptions := 0 }).outcome.responder = after ∧
        ∃ events,
          (client.request command responder).run
              { link with replies := repliesTo device (commandsOf command answers) ++ rest } =
            (MonadExcept.ofExcept result : Host _).run
              { link with replies := rest, events := link.events ++ events } ∧
          sentCommands events = commandsOf command answers) ∨
    (client.maxInterruptions = none ∧
      ∀ n, ∃ answers before,
        Answered client command device responder answers before ∧ answers.length = n ∧
        ∀ link : Link, ∃ result events,
          (client.request command responder).run
              { link with replies := repliesTo device (commandsOf command answers).dropLast } =
            (MonadExcept.ofExcept result : Host _).run
              { link with replies := [], events := link.events ++ events } ∧
          sentCommands events = commandsOf command answers) := by
  -- If no number of answers leads to an end, any number of them is given.
  by_cases hends : ∃ answers before result after,
      Answered client command device responder answers before ∧
      Ends client command answers before (device (commandsOf command answers)) result after
  · left
    obtain ⟨answers, before, result, after, hanswered, hends⟩ := hends
    refine ⟨answers, before, result, after, hanswered, hends, ?_, ?_, ?_⟩
    · intro c hc
      exact header_of_mem_tail hc
    · intro limit hlimit hnonneg
      rcases hanswered.length_le hlimit with rfl | hle
      · exact hnonneg
      · exact hle
    · intro link rest
      exact run_request_of_ends hanswered hends link rest
  · right
    have hforever : ∀ n, ∃ answers before,
        Answered client command device responder answers before ∧ answers.length = n :=
      fun n => (exists_answered_or_ends client command device responder n).resolve_right hends
    refine ⟨no_limit_of_answered hforever, fun n => ?_⟩
    obtain ⟨answers, before, hanswered, hlength⟩ := hforever n
    exact ⟨answers, before, hanswered, hlength, run_request_of_answered hanswered⟩

end SignerHost
