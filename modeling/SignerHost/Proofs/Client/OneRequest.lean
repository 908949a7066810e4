import SignerHost.Proofs.Client.Conduct

/-!
# Operations of one request

Almost every operation has the same three parts: it checks its arguments, makes one request, and
reads what came back.

* `Reads` is the last part.  It computes and does nothing else, and the only thing that it refuses
  is the result.
* `OneRequest` has one case for each way to get to the request.  An argument may be refused, and
  something may be logged; nothing else happens before.
* `OneRequest.opens` is the conduct of such an operation.
-/

namespace SignerHost

open Step

/-- Whether a failure says that the result of a command is invalid.  Such a failure comes after
the command was sent and completed. -/
def Failure.isResult : Failure → Bool
  | result .. => true
  | _ => false

theorem Failure.isClientError_of_isResult {failure : Failure} (h : failure.isResult = true) :
    failure.isClientError = true := by
  cases failure <;> first | rfl | cases h

/-- Whether an event is only logged. -/
def Event.isLogged : Event → Bool
  | logged .. => true
  | _ => false

theorem sentCommands_eq_nil {events : List Event} (h : ∀ e ∈ events, e.isLogged = true) :
    sentCommands events = [] := by
  refine List.filterMap_eq_nil_iff.mpr fun e he => ?_
  cases e with
  | sent command => cases h _ he
  | _ => rfl

/-! ## Reading a result -/

/-- A step that only computes.  Its value has a property, and its failure is an invalid result.
Nothing is sent or logged in it. -/
def Reads {α : Type} (x : Host α) (Q : α → Prop) : Prop :=
  ∃ e : Except Failure α, x = MonadExcept.ofExcept e ∧ (∀ a, e = .ok a → Q a) ∧
    FailsOnly (fun failure => failure.isResult = true) e

namespace Reads

variable {α β : Type} {Q : α → Prop} {R : β → Prop}

theorem ofExcept {e : Except Failure α} (hok : ∀ a, e = .ok a → Q a)
    (herror : ∀ failure, e = .error failure → failure.isResult = true) :
    Reads (MonadExcept.ofExcept e) Q := ⟨e, rfl, hok, herror⟩

theorem pure {a : α} (h : Q a) : Reads (Pure.pure a) Q :=
  ofExcept (e := .ok a) (fun _ heq => Except.ok.inj heq ▸ h) fun _ heq => by cases heq

theorem throw {failure : Failure} (h : failure.isResult = true) :
    Reads (MonadExcept.throw failure) Q :=
  ofExcept (e := .error failure) (fun _ heq => by cases heq) fun _ heq => Except.error.inj heq ▸ h

theorem bind {x : Host α} {f : α → Host β} (hx : Reads x Q) (hf : ∀ a, Q a → Reads (f a) R) :
    Reads (x >>= f) R := by
  obtain ⟨e, rfl, hok, herror⟩ := hx
  cases e with
  | ok a => exact hf a (hok a rfl)
  | error failure => exact throw (herror failure rfl)

theorem ite {c : Prop} [Decidable c] {x y : Host α} (hx : c → Reads x Q) (hy : ¬ c → Reads y Q) :
    Reads (if c then x else y) Q := by
  split
  · exact hx ‹_›
  · exact hy ‹_›

/-- A check that refuses a result, before what follows. -/
theorem guard {c : Prop} [Decidable c] {failure : Failure} {f : Unit → Host α}
    (h : failure.isResult = true) (hf : ¬ c → Reads (f ()) Q) :
    Reads (if c then MonadExcept.throw failure >>= f else f ()) Q :=
  ite (fun _ => throw h) hf

theorem follows {x : Host α} (h : Reads x Q) : Follows x := by
  obtain ⟨e, rfl, -, herror⟩ := h
  exact .ofExcept fun failure hfailure =>
    failure.isClientError_of_isResult (herror failure hfailure)

end Reads

/-! ## Getting to the request -/

/-- An operation that is refused for a given reason, or makes one request with a given command and
reads what came back.  If it gives a value, this has a property. -/
inductive OneRequest (client : Client) {α : Type} (Q : α → Prop) :
    Host α → Except Failure Command → Prop
  | refused (failure : Failure) : OneRequest client Q (MonadExcept.throw failure) (.error failure)
  | logged {events : List Event} {f : Unit → Host α} {first : Except Failure Command}
      (hlogged : ∀ e ∈ events, e.isLogged = true) (h : OneRequest client Q (f ()) first) :
      OneRequest client Q (Host.emit events >>= f) first
  | request {command : Command} {responder : Option Responder}
      {f : Bytes × Option Responder → Host α} (horderly : ∀ r ∈ responder, r.Orderly)
      (hf : ∀ reply, Reads (f reply) Q) :
      OneRequest client Q (client.request command responder >>= f) (.ok command)

namespace OneRequest

variable {client : Client} {α β : Type} {Q : α → Prop} {R : β → Prop}

/-- An argument is checked. -/
theorem check {e : Except Failure β} {f : β → Host α} {first : β → Except Failure Command}
    (h : ∀ b, e = .ok b → OneRequest client Q (f b) (first b)) :
    OneRequest client Q (MonadExcept.ofExcept e >>= f) (e >>= first) := by
  cases e with
  | ok b => exact h b rfl
  | error failure => exact .refused failure

/-- The command is built. -/
theorem build {e : Except Failure Command} {f : Command → Host α}
    (h : ∀ command, e = .ok command → OneRequest client Q (f command) (.ok command)) :
    OneRequest client Q (MonadExcept.ofExcept e >>= f) e := by
  cases e with
  | ok command => exact h command rfl
  | error failure => exact .refused failure

/-- An argument is refused under a condition. -/
theorem require {c : Prop} [Decidable c] {failure : Failure} {f : Unit → Host α}
    {first : Unit → Except Failure Command} (h : ¬ c → OneRequest client Q (f ()) (first ())) :
    OneRequest client Q (if c then MonadExcept.throw failure >>= f else f ())
      (if c then MonadExcept.throw failure >>= first else first ()) := by
  split
  · exact .refused failure
  · exact h ‹_›

theorem request_alone (command : Command) {f : Bytes × Option Responder → Host α}
    (hf : ∀ reply, Reads (f reply) Q) :
    OneRequest client Q (client.request command none >>= f) (.ok command) :=
  .request (fun r hr => by cases hr) hf

theorem request_with {command : Command} {responder : Responder} (horderly : responder.Orderly)
    {f : Bytes × Option Responder → Host α} (hf : ∀ reply, Reads (f reply) Q) :
    OneRequest client Q (client.request command (some responder) >>= f) (.ok command) :=
  .request (fun r hr => by cases hr; exact horderly) hf

/-- What was read is read on. -/
theorem bind {x : Host α} {first : Except Failure Command} (h : OneRequest client Q x first)
    {f : α → Host β} (hf : ∀ a, Q a → Reads (f a) R) : OneRequest client R (x >>= f) first := by
  induction h with
  | refused failure => exact .refused failure
  | logged hlogged _ ih =>
      rw [bind_assoc]
      exact .logged hlogged ih
  | request horderly hread =>
      rw [bind_assoc]
      exact .request horderly fun reply => (hread reply).bind hf

/-- The conduct of an operation of one request, and of its value. -/
theorem opens {x : Host α} {first : Except Failure Command} (h : OneRequest client Q x first) :
    Opens x first := by
  induction h with
  | refused failure => exact .ofExcept (e := .error failure) ⟨rfl, rfl⟩
  | logged hlogged _ ih => exact .emit (sentCommands_eq_nil hlogged) ih
  | request horderly hread =>
      exact (Opens.request client _ horderly).follow fun reply => (hread reply).follows

/-- If there is a value, it has the property. -/
theorem ensures {x : Host α} {first : Except Failure Command} (h : OneRequest client Q x first) :
    Ensures x Q fun _ => True := by
  induction h with
  | refused failure => exact .throw trivial
  | logged _ _ ih => exact (Ensures.anything _).bind fun _ _ => ih
  | request _ hread =>
      refine (Ensures.anything _).bind fun reply _ => ?_
      obtain ⟨e, he, hok, -⟩ := hread reply
      rw [he]
      exact .ofExcept hok fun _ _ => trivial

/-- An operation that gives a value was not refused. -/
theorem exists_first {x : Host α} {first : Except Failure Command} (h : OneRequest client Q x first)
    {link after : Link} {a : α} (hrun : x.run link = .ok a after) :
    ∃ command, first = .ok command := by
  obtain ⟨events, -, hend⟩ := h.opens.run link
  cases first with
  | ok command => exact ⟨command, rfl⟩
  | error failure =>
      rw [result_of_ok hrun] at hend
      cases hend.2

end OneRequest
end SignerHost
