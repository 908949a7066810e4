import SignerHost.Proofs.Client.Transcript
import SignerHost.Proofs.Responder.Fragments

/-!
# The course of a request

How a request ends is known from what it exchanges and from the responder it started with.

* `Completes` says by commands and replies alone that a request came to its end with some data.
* `Course` says the same of every end, with the responder: one interruption after another is
  answered, and the first reply that is not answered ends the request.
* `course_run` is the induction over the replies: every run takes its course.  What follows is by
  induction on a course.
* `Course.completes_iff` says that a course gives data exactly if the request completes with them,
  and `Course.yielded` that the responder then holds all fragments that came back.
* `Starts` is the judgement for an operation that starts with a request, and `Asks` says when such
  an operation gives a value.
-/

namespace SignerHost

open Step

/-! ## Requests that complete -/

/-- A request that starts with a command comes to its end with some data: every reply before the
last one is an interruption, the command after an interruption carries an answer back, and the last
reply is a success with the data. -/
inductive Completes : Command → List (Command × Reply) → Bytes → Prop
  | success (command : Command) (data : Bytes) :
      Completes command [(command, .answer Status.success data)] data
  | interrupted {command : Command} {query answer data : Bytes} {exchanges : List (Command × Reply)}
      (h : Completes (.continueInterrupted answer) exchanges data) :
      Completes command ((command, .answer Status.interrupted query) :: exchanges) data

theorem Status.interrupted_ne_success : Status.interrupted ≠ Status.success := by decide

namespace Completes

variable {command : Command} {reply : Reply} {exchanges : List (Command × Reply)}
  {query answer data : Bytes}

theorem not_nil : ¬ Completes command [] data := by
  rintro ⟨⟩

theorem singleton_iff :
    Completes command [(command, reply)] data ↔ reply = .answer Status.success data := by
  constructor
  · intro h
    cases h with
    | success => rfl
    | interrupted h => exact absurd h not_nil
  · rintro rfl
    exact .success command data

/-- What comes behind an interruption starts with the command that carries the answer back. -/
theorem interrupted_iff
    (hnext : ∀ exchange ∈ exchanges.head?, exchange.1 = .continueInterrupted answer) :
    Completes command ((command, .answer Status.interrupted query) :: exchanges) data ↔
      Completes (.continueInterrupted answer) exchanges data := by
  constructor
  · intro h
    generalize hreply : Reply.answer Status.interrupted query = reply at h
    cases h with
    | success => exact absurd (Reply.answer.inj hreply).1 Status.interrupted_ne_success
    | @interrupted _ _ answer' _ _ h =>
        have hanswer : Command.continueInterrupted answer' = .continueInterrupted answer := by
          cases h with
          | success => exact hnext _ rfl
          | interrupted => exact hnext _ rfl
        rwa [hanswer] at h
  · exact .interrupted

/-- A list of exchanges has at most one beginning that completes a request, with one data.  The
replies inside it are interruptions and the last one is not, so the place where it ends can be
seen. -/
theorem append_inj {command' : Command} {first second more rest : List (Command × Reply)}
    {data' : Bytes} (hfirst : Completes command first data)
    (hsecond : Completes command' second data') (h : first ++ more = second ++ rest) :
    first = second ∧ data = data' ∧ more = rest := by
  -- The first reply that is no interruption ends both, so neither can go on longer.
  induction hfirst generalizing command' second with
  | success command data =>
      cases hsecond with
      | success =>
          obtain ⟨hexchange, hmore⟩ := List.cons.inj h
          cases hexchange
          exact ⟨rfl, rfl, hmore⟩
      | interrupted hsecond =>
          have hreply := congrArg Prod.snd (List.cons.inj h).1
          exact absurd (Reply.answer.inj hreply).1.symm Status.interrupted_ne_success
  | interrupted hfirst ih =>
      cases hsecond with
      | success =>
          have hreply := congrArg Prod.snd (List.cons.inj h).1
          exact absurd (Reply.answer.inj hreply).1 Status.interrupted_ne_success
      | interrupted hsecond =>
          obtain ⟨hexchange, hbehind⟩ := List.cons.inj h
          obtain ⟨rfl, hdata, hmore⟩ := ih hsecond hbehind
          exact ⟨by rw [hexchange], hdata, hmore⟩

end Completes

/-! ## Fragments in replies -/

namespace Reply

/-- The fragment that the device hands over with a reply.  Only an interruption has one, and only
if its query is the one that hands over. -/
def fragment? : Reply → Option Bytes
  | .answer status data => if status = Status.interrupted then Query.fragmentOf? data else none
  | .fault _ => none

theorem fragment?_interrupted (query : Bytes) :
    (Reply.answer Status.interrupted query).fragment? = Query.fragmentOf? query := rfl

end Reply

/-- The fragments that the device hands over, in order.  They are what the responder has
collected once the request is over. -/
def fragments (exchanges : List (Command × Reply)) : List Bytes :=
  exchanges.filterMap fun exchange => exchange.2.fragment?

/-! ## Courses -/

/-- The course of a request behind some answers, with the responder that they left: the commands and
replies from there on, and the result.  An interruption that is answered goes on with the answer as
the next command; every other reply ends the request. -/
inductive Course (client : Client) (command : Command) :
    List Bytes → Option Responder → List (Command × Reply) →
      Except Failure (Bytes × Option Responder) → Prop
  | ends {answers : List Bytes} {before after : Option Responder} {reply : Reply}
      {result : Except Failure (Bytes × Option Responder)}
      (h : Ends client command answers before reply result after) :
      Course client command answers before [(lastCommand command answers, reply)] result
  | answered {answers : List Bytes} {before after : Responder} {query a : Bytes}
      {exchanges : List (Command × Reply)} {result : Except Failure (Bytes × Option Responder)}
      (hlimit : ∀ limit ∈ client.maxInterruptions, (answers.length : Int) + 1 ≤ limit)
      (hanswer : (Responder.execute query).run before = .ok a after)
      (h : Course client command (answers ++ [a]) (some after) exchanges result) :
      Course client command answers (some before)
        ((lastCommand command answers, .answer Status.interrupted query) :: exchanges) result

namespace RequestOptions

variable {client : Client} {command : Command} {answers : List Bytes} {before : Option Responder}

/-- A link without replies ends a request like a reply. -/
theorem advance_last (o : RequestOptions) (p : Pending) (last : Except ChannelFault Bytes) :
    o.advance p (.last last) = .ended (p.conclude last) := by
  cases last <;> rfl

theorem last_ne_interrupted (last : Except ChannelFault Bytes) (query : Bytes) :
    Reply.last last ≠ .answer Status.interrupted query := by
  intro h
  cases last with
  | ok data => exact Status.interrupted_ne_success (Reply.answer.inj h).1.symm
  | error f => cases h

/-- Every run takes its course.  The induction is on the replies. -/
theorem course_run (client : Client) (command : Command)
    (afterwards : Command → Except ChannelFault Bytes) (replies : List Reply)
    (answers : List Bytes) (before : Option Responder) :
    Course client command answers before
      ((client.options command).exchanges afterwards replies (pendingAfter command answers before))
      (((client.options command).run afterwards replies
        (pendingAfter command answers before)).outcome.result command) := by
  -- Each reply that is answered adds an answer and changes the responder for the replies behind it.
  induction replies generalizing answers before with
  | nil =>
      rw [exchanges_nil]
      -- What the link has in the end is no interruption, so the request ends there.
      rcases answered_or_ends client command answers before
          (.last (afterwards (lastCommand command answers))) with
        ⟨_, query, _, _, -, hquery, -⟩ | ⟨result, after, hends⟩
      · exact absurd hquery (last_ne_interrupted _ query)
      · obtain ⟨outcome, hadvance, rfl, -⟩ := advance_of_ends hends
        rw [advance_last] at hadvance
        cases hadvance
        exact .ends hends
  | cons reply replies ih =>
      rcases answered_or_ends client command answers before reply with
        ⟨r, query, a, after, rfl, rfl, hlimit, hanswer⟩ | ⟨result, after, hends⟩
      · have hadvance := advance_of_answer command hlimit hanswer
        rw [exchanges_of_advance hadvance, run_cons_of_advance hadvance]
        exact .answered hlimit hanswer (ih (answers ++ [a]) (some after))
      · obtain ⟨outcome, hadvance, rfl, -⟩ := advance_of_ends hends
        rw [exchanges_of_ended hadvance, run_cons_of_ended hadvance]
        exact .ends hends

end RequestOptions

namespace Course

variable {client : Client} {command : Command} {answers : List Bytes} {before : Option Responder}
  {exchanges : List (Command × Reply)} {result : Except Failure (Bytes × Option Responder)}

/-- A course starts with the command that waits. -/
theorem head (h : Course client command answers before exchanges result) :
    ∀ exchange ∈ exchanges.head?, exchange.1 = lastCommand command answers := by
  cases h
  all_goals
    rintro exchange ⟨⟩
    rfl

/-- A course gives data exactly if the request completes with them. -/
theorem completes_iff (h : Course client command answers before exchanges result) {data : Bytes} :
    Completes (lastCommand command answers) exchanges data ↔ ∃ s, result = .ok (data, s) := by
  induction h with
  | ends h =>
      rw [Completes.singleton_iff]
      cases h with
      | done => simp
      | refused hstatus => simp [hstatus]
      | broken => simp
      | tooMany => simp [Status.interrupted_ne_success]
      | unanswered => simp [Status.interrupted_ne_success]
  | answered _ _ h ih =>
      have hhead := h.head
      rw [lastCommand_append] at hhead ih
      rw [Completes.interrupted_iff hhead]
      exact ih

/-- A request that starts with a responder gives it back with all the fragments that came back. -/
theorem yielded {r : Responder} {data : Bytes} {s : Option Responder}
    (h : Course client command answers (some r) exchanges (.ok (data, s))) :
    ∃ r', s = some r' ∧ r'.yielded = r.yielded ++ fragments exchanges := by
  -- The responder changes along the course, so it has to be a variable of the induction.
  generalize hbefore : some r = before, hresult : Except.ok (data, s) = result at h
  induction h generalizing r with
  | ends h =>
      cases h with
      | done =>
          cases hresult
          exact ⟨r, hbefore.symm, (List.append_nil _).symm⟩
      | _ => cases hresult
  | @answered _ _ after query _ exchanges _ _ hanswer _ ih =>
      cases hbefore
      obtain ⟨r', hs, hyielded⟩ := ih rfl hresult
      rw [Responder.yielded_of_execute hanswer] at hyielded
      refine ⟨r', hs, ?_⟩
      rw [hyielded, List.append_assoc, fragments, fragments, List.filterMap_cons,
        Reply.fragment?_interrupted]
      cases Query.fragmentOf? query <;> rfl

/-- A course that begins with what completes a request is over then.  Nothing is sent behind the
success, so nothing can be exchanged behind it. -/
theorem rest_eq_nil {command' : Command} {first rest : List (Command × Reply)} {data : Bytes}
    (hcompletes : Completes command' first data)
    (h : Course client command answers before (first ++ rest) result) : rest = [] := by
  -- Both go through the same exchanges; where the one is complete, the other has its last one.
  induction hcompletes generalizing answers before with
  | success command' data =>
      generalize hexchanges : [(command', Reply.answer Status.success data)] ++ rest = exchanges at h
      cases h with
      | ends => exact (List.cons.inj hexchanges).2
      | answered =>
          have hreply := congrArg Prod.snd (List.cons.inj hexchanges).1
          exact absurd (Reply.answer.inj hreply).1.symm Status.interrupted_ne_success
  | @interrupted command' query answer data first hcompletes ih =>
      generalize hexchanges :
        (command', Reply.answer Status.interrupted query) :: first ++ rest = exchanges at h
      cases h with
      | ends => exact (List.append_eq_nil_iff.mp (List.cons.inj hexchanges).2).2
      | answered _ _ h =>
          obtain ⟨-, rfl⟩ := List.cons.inj hexchanges
          exact ih h

end Course

namespace Transcribes

/-- What a request exchanges and its result are a course. -/
theorem course_of_request (client : Client) (command : Command) (responder : Option Responder) :
    Transcribes (client.request command responder) (Course client command [] responder) :=
  .request_of_run fun link =>
    RequestOptions.course_run client command link.afterwards link.replies [] responder

/-- A request gives data exactly if it completes with them, and it does not go on then. -/
theorem request (client : Client) (command : Command) (responder : Option Responder) :
    Transcribes (client.request command responder) fun exchanges r =>
      (∀ data, Completes command exchanges data ↔ ∃ s, r = .ok (data, s)) ∧
      ∀ first rest data, Completes command first data → exchanges = first ++ rest → rest = [] := by
  refine (course_of_request client command responder).mono ?_
  rintro exchanges r hcourse
  refine ⟨fun data => hcourse.completes_iff, ?_⟩
  rintro first rest data hcompletes rfl
  exact hcourse.rest_eq_nil hcompletes

end Transcribes

/-! ## Operations that start with a request -/

/-- An operation that starts with a request.  Arguments that are refused are refused before anything
is sent; otherwise what is exchanged and the end go with the command that the arguments make. -/
abbrev Starts {α : Type} (x : Host α) (opening : Except Failure Command)
    (R : Command → List (Command × Reply) → Except Failure α → Prop) : Prop :=
  Transcribes x fun exchanges r =>
    match opening with
    | .error failure => exchanges = [] ∧ r = .error failure
    | .ok command => R command exchanges r

namespace Starts

variable {α β : Type} {R : Command → List (Command × Reply) → Except Failure α → Prop}

theorem refused (failure : Failure) :
    Starts (MonadExcept.ofExcept (.error failure) : Host α) (.error failure) R :=
  .ofExcept ⟨rfl, rfl⟩

/-- An argument is checked, and what comes of it decides the command. -/
theorem check {e : Except Failure β} {f : β → Host α} {o : β → Except Failure Command}
    (h : ∀ b, e = .ok b → Starts (f b) (o b) R) :
    Starts (MonadExcept.ofExcept e >>= f) (e >>= o) R := by
  cases e with
  | ok b => exact h b rfl
  | error failure => exact refused failure

theorem require {c : Prop} [Decidable c] {failure : Failure} {f : Unit → Host α}
    {o : Unit → Except Failure Command} (h : ¬ c → Starts (f ()) (o ()) R) :
    Starts (if c then MonadExcept.throw failure >>= f else f ())
      (if c then MonadExcept.throw failure >>= o else o ()) R := by
  by_cases hc : c
  · rw [if_pos hc, if_pos hc]
    exact refused failure
  · rw [if_neg hc, if_neg hc]
    exact h hc

/-- What is only logged goes before the command. -/
theorem logged {events : List Event} {f : Unit → Host α} {opening : Except Failure Command}
    (hsilent : sentCommands events = []) (h : Starts (f ()) opening R) :
    Starts (Host.emit events >>= f) opening R := by
  refine .bind (Q := fun exchanges r => exchanges = [] ∧ r = .ok ()) (.emit hsilent ⟨rfl, rfl⟩) ?_ ?_
  · rintro exchanges a ⟨rfl, -⟩
    exact h
  · rintro exchanges failure ⟨-, hfailure⟩
    cases hfailure

/-- The command that all arguments make, and what is done with it. -/
theorem build {e : Except Failure Command} {f : Command → Host α}
    (h : ∀ command, e = .ok command → Transcribes (f command) (R command)) :
    Starts (MonadExcept.ofExcept e >>= f) e R := by
  cases e with
  | ok command => exact h command rfl
  | error failure => exact refused failure

end Starts

/-- An operation gives a value exactly if its arguments make a command, the request that starts with
the command completes with some data, and the value goes with the data and with what is exchanged
behind the request. -/
abbrev Asks {α : Type} (x : Host α) (opening : Except Failure Command)
    (gives : Bytes → List (Command × Reply) → α → Prop) : Prop :=
  Starts x opening fun command exchanges r => ∀ a, r = .ok a ↔
    ∃ first rest data, exchanges = first ++ rest ∧ Completes command first data ∧ gives data rest a

namespace Asks

variable {α : Type} {gives : Bytes → List (Command × Reply) → α → Prop} {x : Host α}
  {opening : Except Failure Command}

theorem congr {gives' : Bytes → List (Command × Reply) → α → Prop} (h : Asks x opening gives)
    (hgives : ∀ data rest a, gives data rest a ↔ gives' data rest a) : Asks x opening gives' := by
  simpa only [Asks, hgives] using h

/-- The request itself, and what comes behind it. -/
theorem request {client : Client} {e : Except Failure Command} {responder : Option Responder}
    {f : Command → Bytes × Option Responder → Host α}
    (h : ∀ command data s, Transcribes (f command (data, s)) fun rest r =>
      ∀ a, r = .ok a ↔ gives data rest a) :
    Asks (MonadExcept.ofExcept e >>= fun command => client.request command responder >>= f command)
      e gives := by
  refine .build fun command _ => .bind (.request client command responder) ?_ ?_
  · rintro first ⟨data, s⟩ ⟨hrequest, -⟩
    have hfirst : Completes command first data := (hrequest data).mpr ⟨s, rfl⟩
    refine (h command data s).mono ?_
    intro rest r hbehind a
    rw [hbehind]
    constructor
    · intro ha
      exact ⟨first, rest, data, rfl, hfirst, ha⟩
    · -- A complete course is split off in one way, so it is the one that the request went through.
      rintro ⟨first', rest', data', hsplit, hcompletes, ha⟩
      obtain ⟨rfl, rfl, rfl⟩ := hfirst.append_inj hcompletes hsplit
      exact ha
  · -- Where the request fails, nothing is exchanged behind it, so no part of it was complete.
    rintro exchanges failure ⟨hrequest, hover⟩ a
    refine error_eq_ok_iff ?_
    rintro ⟨first, rest, data, hsplit, hcompletes, -⟩
    obtain rfl := hover first rest data hcompletes hsplit
    rw [List.append_nil] at hsplit
    obtain ⟨s, hdata⟩ := (hrequest data).mp (hsplit ▸ hcompletes)
    cases hdata

/-- A value that is given tells that the arguments made a command. -/
theorem transcribes (h : Asks x opening gives) :
    Transcribes x fun exchanges r => ∀ a, r = .ok a ↔
      ∃ command first rest data, opening = .ok command ∧ exchanges = first ++ rest ∧
        Completes command first data ∧ gives data rest a := by
  cases opening with
  | ok command =>
      refine h.mono fun exchanges r hr a => (hr a).trans ?_
      simp only [Except.ok.injEq, exists_and_left, exists_eq_left']
  | error failure =>
      refine h.mono ?_
      rintro exchanges r ⟨-, rfl⟩ a
      simp

/-- The exchanges of an operation that makes no other request are those of its request. -/
theorem alone {reads : Bytes → α → Prop}
    (h : Asks x opening fun data rest a => rest = [] ∧ reads data a) :
    Transcribes x fun exchanges r => ∀ a, r = .ok a ↔
      ∃ command data, opening = .ok command ∧ Completes command exchanges data ∧ reads data a := by
  refine h.transcribes.mono fun exchanges r hr a => ?_
  rw [hr]
  constructor
  · rintro ⟨command, first, _, data, hopening, rfl, hcompletes, rfl, hreads⟩
    rw [List.append_nil]
    exact ⟨command, data, hopening, hcompletes, hreads⟩
  · rintro ⟨command, data, hopening, hcompletes, hreads⟩
    exact ⟨command, exchanges, [], data, hopening, (List.append_nil _).symm, hcompletes, rfl, hreads⟩

end Asks

end SignerHost
