import SignerHost.Proofs.Client.Course
import SignerHost.Proofs.Client.Operation

/-!
# Operations that take turns

Operations run one after another on one link.  Every operation takes one reply for each command
that it sends, whatever becomes of it, so the next one starts at the first reply that is left.

* The judgement `Exchanges` is `Transcribes` without a word about the end, and has the same rules.
* `OneRequest.exchanges` has it for an operation of one request, and so has every operation
  (`Operation.exchanges_perform`).
* `Link.exchanged_inTurn` is the induction on the operations.
-/

namespace SignerHost

open Step

/-- Commands are exchanged for replies, and nothing is said about the end. -/
abbrev Exchanges {α : Type} (x : Host α) : Prop := Transcribes x fun _ _ => True

namespace Exchanges

variable {α β : Type}

theorem ofExcept (e : Except Failure α) : Exchanges (MonadExcept.ofExcept e) :=
  Transcribes.ofExcept trivial

theorem bind {x : Host α} {f : α → Host β} (hx : Exchanges x) (hf : ∀ a, Exchanges (f a)) :
    Exchanges (x >>= f) :=
  Transcribes.bind hx (fun _ a _ => hf a) fun _ _ _ => trivial

theorem discard {x : Host α} (hx : Exchanges x) : Exchanges (Functor.discard x) :=
  bind (f := fun _ => Pure.pure ()) hx fun _ => ofExcept (.ok ())

theorem request (client : Client) (command : Command) (responder : Option Responder) :
    Exchanges (client.request command responder) :=
  Transcribes.request_of_run fun _ => trivial

end Exchanges

theorem OneRequest.exchanges {client : Client} {α : Type} {Q : α → Prop} {x : Host α}
    {first : Except Failure Command} (h : OneRequest client Q x first) : Exchanges x := by
  induction h with
  | refused failure => exact .ofExcept (.error failure)
  | logged hlogged _ ih =>
      exact .bind (Transcribes.emit (sentCommands_eq_nil hlogged) trivial) fun _ => ih
  | request _ hread =>
      refine .bind (.request client _ _) fun reply => ?_
      obtain ⟨e, he, -⟩ := hread reply
      rw [he]
      exact .ofExcept e

theorem Operation.exchanges_perform (client : Client) (op : Operation) :
    Exchanges (op.perform client) := by
  rcases op.oneRequest_or_verified client with ⟨Q, hone⟩ | ⟨wallet, rfl, hverify⟩
  · exact hone.exchanges
  · show Exchanges (client.registerWallet wallet)
    rw [client.registerWallet_eq wallet hverify]
    refine .bind (client.withoutVerification.oneRequest_registerWallet wallet rfl).exchanges ?_
    rintro ⟨id, hmac⟩
    have haddress := client.oneRequest_getWalletAddress wallet (some hmac) 0 0 false
    exact .bind haddress.exchanges.discard fun _ => .ofExcept (.ok _)

/-- The next operation runs on the link that the one before leaves. -/
theorem Host.inTurn_cons {α : Type} (x : Host α) (rest : List (Host α)) (link : Link) :
    (Host.inTurn (x :: rest) link).2 = (Host.inTurn rest (after x link)).2 := by
  rw [Host.inTurn]
  cases hrun : x link with
  | ok a next => rw [after_of_ok (x := x) hrun]
  | error failure next => rw [after_of_error (x := x) hrun]

/-- Operations that run one after another exchange commands for replies, whether they fail or
not. -/
theorem Link.exchanged_inTurn {α : Type} {operations : List (Host α)}
    (h : ∀ x ∈ operations, Exchanges x) (link : Link) :
    ∃ sent, link.Exchanged (Host.inTurn operations link).2 sent := by
  induction operations generalizing link with
  | nil => exact ⟨[], .refl link⟩
  | cons x rest ih =>
      obtain ⟨hx, hrest⟩ := List.forall_mem_cons.mp h
      obtain ⟨sent, hsent, -⟩ := hx.run link
      obtain ⟨more, hmore⟩ := ih hrest (after x link)
      refine ⟨sent ++ more, hsent.trans ?_⟩
      rw [Host.inTurn_cons]
      exact hmore

end SignerHost
