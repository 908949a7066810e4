import SignerHost.Proofs.Client.Turns
import SignerHost.Proofs.Signature.Input

/-!
# Signing is all or nothing

Signing gives the signatures that the device handed over during the call: all of them, in order, and
only if the device ended with success.

* `Completed` says by commands and replies that the request of a call completed, and `Readies` is
  what the client made ready before it.
* `Signs` relates what a call exchanged to how it ended: for arguments that are refused, for a
  request that takes its course, and for the fragments that came back.
* `transcribes_signPsbt` says so for one call on any link.
* `signs_of_turns` says so for a call after any other operations on the same link: what these
  received, and what became of them, does not matter.
-/

namespace SignerHost

open Step

/-! ## How a call ends -/

/-- What is made ready for signing: the transaction, and the responder that learned the wallet and
then the transaction. -/
structure Readies (source : PsbtSource) (wallet : Wallet) (hmac : Option Bytes) (psbt : Psbt)
    (responder : Responder) : Prop where
  normalize : source.normalize = .ok psbt
  learned : ∃ policy learned commitments, Client.usablePolicy wallet hmac = .ok policy ∧
    Client.prepared (Client.learnWallet policy) {} = .ok ((), learned) ∧
    Client.prepared psbt.register learned = .ok (commitments, responder)

/-- The arguments of a call make a command and a transaction, and the request that starts with the
command came to its end with success. -/
def Completed (source : PsbtSource) (wallet : Wallet) (hmac : Option Bytes)
    (exchanges : List (Command × Reply)) (psbt : Psbt) : Prop :=
  ∃ command data, (Operation.signPsbt source wallet hmac).opening = .ok command ∧
    source.normalize = .ok psbt ∧ Completes command exchanges data

/-- How a call ends, given what it exchanged.  The fields say what is sent, when the device has
completed the request, and which signatures are given then. -/
structure Signs (client : Client) (source : PsbtSource) (wallet : Wallet) (hmac : Option Bytes)
    (exchanges : List (Command × Reply))
    (r : Except Failure (List (Nat × PartialSignature))) : Prop where
  /-- Arguments that are refused are refused before anything is sent. -/
  refused : ∀ failure, (Operation.signPsbt source wallet hmac).opening = .error failure →
    exchanges = [] ∧ r = .error failure
  /-- Otherwise the call sends the command of its arguments and the request takes its course.  If
  the request fails, the call fails in the same way. -/
  course : ∀ command, (Operation.signPsbt source wallet hmac).opening = .ok command →
    ∃ psbt responder result, Readies source wallet hmac psbt responder ∧
      Course client command [] (some responder) exchanges result ∧
      ∀ failure, result = .error failure → r = .error failure
  /-- The result is a list exactly if the request completed and every fragment signs an input.  It
  then has one entry for each fragment, in order. -/
  ok_iff : ∀ entries, r = .ok entries ↔ ∃ psbt, Completed source wallet hmac exchanges psbt ∧
    List.Forall₂ (SignsInput client.primitives.isSignature psbt.inputs.length)
      (fragments exchanges) entries
  /-- A fragment of at most one byte makes the result an invalid one, with the data of all
  fragments. -/
  of_short : ∀ psbt, Completed source wallet hmac exchanges psbt →
    (∃ f ∈ fragments exchanges, f.length ≤ 1) →
    r = .error (.result .unexpected (some .signPsbt) (fragments exchanges).flatten .fragment)
  /-- Otherwise the first fragment that signs no input does so, with its own data. -/
  of_unreadable : ∀ psbt, Completed source wallet hmac exchanges psbt →
    (∀ f ∈ fragments exchanges, 1 < f.length) →
    ∀ front fragment rest, fragments exchanges = front ++ fragment :: rest →
      (∀ f ∈ front, ∃ entry,
        SignsInput client.primitives.isSignature psbt.inputs.length f entry) →
      (¬ ∃ entry, SignsInput client.primitives.isSignature psbt.inputs.length fragment entry) →
      ∃ cause, r =
        .error (.result .unexpected (some .signPsbt) fragment (.partialSignature cause))
  /-- Indices that are written and signatures behind them come back as they are. -/
  of_written : ∀ psbt, Completed source wallet hmac exchanges psbt → ∀ entries,
    List.Forall₂ (fun fragment (entry : Nat × PartialSignature) =>
      entry.1 < psbt.inputs.length ∧ entry.2.WellFormed client.primitives.isSignature ∧
        ∃ index, CompactSize.write entry.1 = .ok index ∧ fragment = index ++ entry.2.bytes)
      (fragments exchanges) entries →
    r = .ok entries

namespace Signs

variable {client : Client} {source : PsbtSource} {wallet : Wallet} {hmac : Option Bytes}
  {exchanges : List (Command × Reply)} {command : Command} {psbt : Psbt} {responder : Responder}

theorem of_refused {failure : Failure}
    (hopening : (Operation.signPsbt source wallet hmac).opening = .error failure) :
    Signs client source wallet hmac [] (.error failure) := by
  have hcompleted : ∀ psbt, ¬ Completed source wallet hmac [] psbt := by
    rintro psbt ⟨command, data, h, -⟩
    cases hopening.symm.trans h
  exact {
    refused := fun failure' h => ⟨rfl, by cases hopening.symm.trans h; rfl⟩
    course := fun command h => by cases hopening.symm.trans h
    ok_iff := fun entries => error_eq_ok_iff fun ⟨psbt, h, _⟩ => hcompleted psbt h
    of_short := fun psbt h => absurd h (hcompleted psbt)
    of_unreadable := fun psbt h => absurd h (hcompleted psbt)
    of_written := fun psbt h => absurd h (hcompleted psbt) }

/-- A request that fails makes the call fail. -/
theorem of_failed {failure : Failure}
    (hopening : (Operation.signPsbt source wallet hmac).opening = .ok command)
    (hready : Readies source wallet hmac psbt responder)
    (hcourse : Course client command [] (some responder) exchanges (.error failure)) :
    Signs client source wallet hmac exchanges (.error failure) := by
  -- A request that failed was not completed, so nothing is claimed about its fragments.
  have hcompleted : ∀ psbt, ¬ Completed source wallet hmac exchanges psbt := by
    rintro psbt ⟨command', data, h, -, hcompletes⟩
    cases hopening.symm.trans h
    obtain ⟨s, hs⟩ := hcourse.completes_iff.mp hcompletes
    cases hs
  exact {
    refused := fun failure' h => by cases hopening.symm.trans h
    course := by
      intro command' h
      cases hopening.symm.trans h
      exact ⟨psbt, responder, _, hready, hcourse, fun failure' h => by cases h; rfl⟩
    ok_iff := fun entries => error_eq_ok_iff fun ⟨psbt, h, _⟩ => hcompleted psbt h
    of_short := fun psbt h => absurd h (hcompleted psbt)
    of_unreadable := fun psbt h => absurd h (hcompleted psbt)
    of_written := fun psbt h => absurd h (hcompleted psbt) }

/-- A call whose request completed reads the fragments.  Whether a list comes of them is decided
fragment by fragment. -/
theorem of_completed {data : Bytes} {after : Option Responder}
    (hopening : (Operation.signPsbt source wallet hmac).opening = .ok command)
    (hready : Readies source wallet hmac psbt responder)
    (hcourse : Course client command [] (some responder) exchanges (.ok (data, after)))
    (hinstruction : command.instruction = .signPsbt) :
    Signs client source wallet hmac exchanges
      (Client.readSignatures client.primitives.isSignature command psbt.inputs.length
        (fragments exchanges)) := by
  -- The source is read in one way, so the fragments are judged by its own number of inputs.
  have hpsbt : ∀ psbt', Completed source wallet hmac exchanges psbt' → psbt' = psbt := by
    rintro psbt' ⟨_, _, -, hnormalize, -⟩
    cases hready.normalize.symm.trans hnormalize
    rfl
  exact {
    refused := fun failure h => by cases hopening.symm.trans h
    course := by
      intro command' h
      cases hopening.symm.trans h
      exact ⟨psbt, responder, _, hready, hcourse, fun failure h => by cases h⟩
    ok_iff := by
      intro entries
      rw [Client.readSignatures_eq_ok]
      constructor
      · intro hentries
        refine ⟨psbt, ⟨command, data, hopening, hready.normalize, ?_⟩, hentries⟩
        exact hcourse.completes_iff.mpr ⟨after, rfl⟩
      · rintro ⟨psbt', hcompleted, hentries⟩
        rwa [hpsbt psbt' hcompleted] at hentries
    of_short := by
      intro _ _ hshort
      rw [Client.readSignatures_of_short hshort, Client.unexpected, hinstruction]
    of_unreadable := by
      intro psbt' hcompleted hlong front fragment rest hsplit hfront hfragment
      rw [hpsbt psbt' hcompleted] at hfront hfragment
      rw [hsplit] at hlong ⊢
      obtain ⟨cause, hread⟩ :=
        Client.readSignatures_of_unreadable command hlong hfront hfragment
      exact ⟨_, by rw [hread, Client.unexpected, hinstruction]⟩
    of_written := by
      intro psbt' hcompleted entries hwritten
      rw [hpsbt psbt' hcompleted] at hwritten
      refine Client.readSignatures_eq_ok.mpr (hwritten.imp ?_)
      rintro fragment entry ⟨hbound, hformed, index, hindex, rfl⟩
      exact .of_write hbound hindex hformed }

end Signs

namespace Client

/-! ## Before the request -/

/-- What is learned of a policy is no fragment. -/
theorem yielded_of_learnWallet {policy : Policy} {u : Unit} {r : Responder}
    (h : prepared (learnWallet policy) {} = .ok (u, r)) : r.yielded = [] := by
  have hkeeps : Keeps Responder.yielded (learnWallet policy) := by
    unfold learnWallet
    refine .bind (.ofExcept _) fun bs => .bind (Responder.keeps_addPreimage bs).discard fun _ => ?_
    refine .bind (Responder.keeps_addKeyList policy.keys).discard fun _ => ?_
    exact (Responder.keeps_addPreimage _).discard
  have hyielded := hkeeps {}
  rwa [after_of_ok (prepared_eq_ok.mp h)] at hyielded

/-- Neither is a transaction, and its inputs are counted. -/
theorem of_prepared_register {psbt : Psbt} {c : PsbtCommitments} {r r' : Responder}
    (h : prepared psbt.register r = .ok (c, r')) :
    c.inputCount = psbt.inputs.length ∧ r'.yielded = r.yielded := by
  obtain ⟨f, hflatten, -, rfl, rfl⟩ := Psbt.run_register_eq_ok.mp (prepared_eq_ok.mp h)
  obtain ⟨-, hinputs, -⟩ := Psbt.flatten_eq_ok.mp hflatten
  exact ⟨congrArg Int.ofNat (Psbt.exists_of_mapM_zipIdx hinputs).1, Responder.yielded_withLists r _⟩

theorem instruction_of_signPsbt {c : PsbtCommitments} {wallet : Wallet} {hmac : Option Bytes}
    {command : Command} (h : Command.signPsbt c wallet hmac = .ok command) :
    command.instruction = .signPsbt := by
  unfold Command.signPsbt at h
  obtain ⟨inputs, -, h⟩ := bind_eq_ok.mp h
  obtain ⟨outputs, -, h⟩ := bind_eq_ok.mp h
  obtain ⟨id, -, h⟩ := bind_eq_ok.mp h
  cases h
  rfl

/-! ## The call -/

/-- What a call exchanges and how it ends, once the arguments made a command.  It is put together
from the arguments, the course of the request and the reading of the fragments. -/
theorem starts_signPsbt (client : Client) (source : PsbtSource) (wallet : Wallet)
    (hmac : Option Bytes) :
    Starts (client.signPsbt source wallet hmac) (Operation.signPsbt source wallet hmac).opening
      fun command exchanges r =>
        command.instruction = .signPsbt ∧ ∃ psbt responder result,
          Readies source wallet hmac psbt responder ∧
          Course client command [] (some responder) exchanges result ∧
          r = result.bind fun _ => readSignatures client.primitives.isSignature command
            psbt.inputs.length (fragments exchanges) := by
  simp only [signPsbt, Operation.opening, prepare_eq]
  refine .check fun policy hpolicy => .check fun psbt hnormalize => ?_
  refine .check ?_
  rintro ⟨_, learned⟩ hlearned
  refine .check ?_
  rintro ⟨commitments, responder⟩ hregister
  have hready : Readies source wallet hmac psbt responder :=
    ⟨hnormalize, policy, learned, commitments, hpolicy, hlearned, hregister⟩
  -- Preparing hands over no fragment, so the responder starts with none.
  obtain ⟨hcount, hyielded⟩ := of_prepared_register hregister
  rw [yielded_of_learnWallet hlearned] at hyielded
  refine .logged rfl (.build fun command hcommand => ?_)
  have hinstruction := instruction_of_signPsbt hcommand
  refine .bind (.course_of_request client command (some responder)) ?_ ?_
  · rintro exchanges ⟨data, after⟩ hcourse
    obtain ⟨s, rfl, hfragments⟩ := hcourse.yielded
    rw [hyielded, List.nil_append] at hfragments
    refine .ofExcept ?_
    rw [List.append_nil]
    refine ⟨hinstruction, psbt, responder, _, hready, hcourse, ?_⟩
    rw [hcount, ← hfragments]
    rfl
  · intro exchanges failure hcourse
    exact ⟨hinstruction, psbt, responder, _, hready, hcourse, rfl⟩

/-- Whatever the arguments are and whatever the device does, a call of signing ends as what it
exchanged says. -/
theorem transcribes_signPsbt (client : Client) (source : PsbtSource) (wallet : Wallet)
    (hmac : Option Bytes) :
    Transcribes (client.signPsbt source wallet hmac) (Signs client source wallet hmac) := by
  refine (client.starts_signPsbt source wallet hmac).mono fun exchanges r h => ?_
  split at h
  · obtain ⟨rfl, rfl⟩ := h
    exact .of_refused ‹_›
  · obtain ⟨hinstruction, psbt, responder, result, hready, hcourse, rfl⟩ := h
    cases result with
    | error failure => exact .of_failed ‹_› hready hcourse
    | ok value => exact .of_completed ‹_› hready hcourse hinstruction

/-- Operations ran one after another on a link, by any clients and with any end, and then a call of
signing.  The call ends as its own commands and the replies to them say, which are those behind the
replies to the commands before. -/
theorem signs_of_turns (earlier : List (Client × Operation)) (client : Client)
    (source : PsbtSource) (wallet : Wallet) (hmac : Option Bytes) (link : Link) :
    let start :=
      (Host.inTurn (earlier.map fun turn => discard (turn.2.perform turn.1)) link).2
    ∃ before sent : List Command,
      sentCommands start.events = sentCommands link.events ++ before ∧
      sentCommands (after (client.signPsbt source wallet hmac) start).events =
        sentCommands link.events ++ before ++ sent ∧
      Signs client source wallet hmac ((link.transcript (before ++ sent)).drop before.length)
        (result (client.signPsbt source wallet hmac) start) := by
  intro start
  -- What the earlier operations exchanged is a prefix of the transcript and is dropped from it.
  have hearlier : ∀ x ∈ earlier.map fun turn => discard (turn.2.perform turn.1), Exchanges x := by
    intro x hx
    obtain ⟨turn, -, rfl⟩ := List.mem_map.mp hx
    exact (turn.2.exchanges_perform turn.1).discard
  obtain ⟨before, hbefore⟩ := link.exchanged_inTurn hearlier
  obtain ⟨sent, hsent, hsigns⟩ := (client.transcribes_signPsbt source wallet hmac).run start
  refine ⟨before, sent, hbefore.sent, (hbefore.trans hsent).sent.trans ?_, ?_⟩
  · rw [List.append_assoc]
  · rw [hbefore.transcript_append, ← link.length_transcript before, List.drop_left]
    exact hsigns

/-- A transaction with one input and no output. -/
def oneInput : PsbtSource :=
  .parsed {
    version := some 2
    txVersion := some 2
    lockTime := none
    inputs := [{ txid := some (List.replicate 32 7), vout := some 1, sequence := none }]
    outputs := []
    xpubs := []
    unknown := [] }

/-- A wallet with one key, whose text is no key at all. -/
def oneKey : Wallet := .policy { name := "", version := .v2, template := "wpkh(@0)", keys := ["k"] }

/-- A device hands over a signature and denies the request, and hands over another signature at the
next one, which succeeds. -/
def denyingLink : Link where
  replies := [.answer Status.interrupted (0x10 :: 0 :: List.replicate 64 5), .answer 0x6985 [],
    .answer Status.interrupted (0x10 :: 0 :: List.replicate 64 7), .answer Status.success []]
  afterwards := fun _ => .error { kind := .timeout, text := "" }
  hasSessions := true

/-- The second call gives the signature of its own request, and not the one that was handed over
in the request that was denied. -/
theorem signs_of_turns_of_denied :
    let client : Client := {}
    let entry : Nat × PartialSignature := (0, ⟨.schnorr, List.replicate 64 7⟩)
    let call := client.signPsbt oneInput oneKey none
    let start := (Host.inTurn [discard call] denyingLink).2
    result call start = .ok [entry] ∧
      ∃ exchanges psbt, Completed oneInput oneKey none exchanges psbt ∧
        List.Forall₂ (SignsInput Der.isSignature psbt.inputs.length) (fragments exchanges)
          [entry] := by
  intro client entry call start
  have hreturned : result call start = .ok [entry] := by decide +kernel
  obtain ⟨before, sent, -, -, hsigns⟩ := signs_of_turns
    [(client, .signPsbt oneInput oneKey none)] client oneInput oneKey none denyingLink
  obtain ⟨psbt, hcompleted, hentries⟩ := (hsigns.ok_iff _).mp hreturned
  exact ⟨hreturned, _, psbt, hcompleted, hentries⟩

end Client
end SignerHost
