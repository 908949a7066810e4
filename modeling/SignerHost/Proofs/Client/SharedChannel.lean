import SignerHost.Client.Shared
import SignerHost.Proofs.Client.Transcript

/-!
# Requests on a shared channel

Requests that run at the same time take the session in some order, and any of them may be given up.
Whatever the schedule is, the commands pass over the channel in one block after another, and the
block of a request that came to its end is what it exchanges when it has a channel to itself.

The device is not always asked one thing at a time, though.  A request that is given up during its
exchange gives back both locks, and the next request may send while that exchange goes on.

* `Reaches` is what a request has exchanged and how far that has taken it; `Reaches.whole` compares
  it with a run of the request alone.
* `Makes` is the one inversion of a step.
* `Holds` says what the block of the request in the session has to do with its stage, and `Over`
  what a request leaves behind.
* `Ordered` is the invariant, with the blocks as witnesses; `Ordered.step` is the step, and
  `Ordered.run` the induction over the moves.
* `keepsToOne_iff` says which schedules keep to one exchange at a time.
* `blocks_of_run` is what follows for the channel, and `exists_step_of_unfinished` says that no
  schedule ends in a deadlock.
-/

namespace SignerHost

/-! ## How far a request gets -/

/-- What a request has exchanged, and how far that has taken it.  The exchanges are those of the
request alone, in their order. -/
inductive Reaches (o : RequestOptions) (p : Pending) : List (Command × Reply) → Progress → Prop
  | start : Reaches o p [] (.pending p)
  | next {exchanges : List (Command × Reply)} {q : Pending} {progress : Progress}
      (h : Reaches o p exchanges (.pending q)) (reply : Reply)
      (hadvance : o.advance q reply = progress) :
      Reaches o p (exchanges ++ [(q.command, reply)]) progress

/-- A request that is alone with a device, and gets these replies, exchanges just this and comes to
just this end, whatever the channel would do afterwards. -/
structure Whole (o : RequestOptions) (p : Pending) (exchanges : List (Command × Reply))
    (outcome : Outcome) : Prop where
  commands : ∃ answers, exchanges.map Prod.fst = commandsOf p.command answers
  alone : ∀ afterwards,
    (o.run afterwards (exchanges.map Prod.snd) p).outcome = outcome ∧
    (o.run afterwards (exchanges.map Prod.snd) p).rest = [] ∧
    sentCommands (o.run afterwards (exchanges.map Prod.snd) p).events = exchanges.map Prod.fst

namespace Reaches

variable {o : RequestOptions} {p q : Pending} {exchanges : List (Command × Reply)}
  {progress : Progress}

/-- The command that is due carries on the commands before it. -/
theorem commands_of_pending (h : Reaches o p exchanges (.pending q)) :
    ∃ answers, exchanges.map Prod.fst ++ [q.command] = commandsOf p.command answers := by
  -- The progress has to be a variable, so that the induction can go through the earlier ones.
  generalize hprogress : Progress.pending q = progress at h
  induction h generalizing q with
  | start =>
      cases hprogress
      exact ⟨[], rfl⟩
  | @next exchanges q' progress h reply hadvance ih =>
      obtain ⟨answers, hanswers⟩ := ih rfl
      subst hprogress
      rcases o.advance_cases q' reply with ⟨_, -, hended⟩ | ⟨_, r, _, a, -, -, -, hnext⟩ |
        ⟨_, -, hended, -⟩
      · cases hadvance.symm.trans hended
      · cases hadvance.symm.trans hnext
        refine ⟨answers ++ [a], ?_⟩
        rw [List.map_append, List.map_singleton, hanswers, commandsOf_append]
        rfl
      · cases hadvance.symm.trans hended

/-- A run of the request alone goes through the same exchanges, and on from there. -/
theorem run_of_pending (h : Reaches o p exchanges (.pending q)) :
    ∃ events, sentCommands events = exchanges.map Prod.fst ∧ ∀ afterwards rest,
      o.run afterwards (exchanges.map Prod.snd ++ rest) p =
        (o.run afterwards rest q).after events := by
  -- The replies that come later are arbitrary, so that the run before can be cut at any exchange.
  generalize hprogress : Progress.pending q = progress at h
  induction h generalizing q with
  | start =>
      cases hprogress
      exact ⟨[], rfl, fun _ _ => rfl⟩
  | @next exchanges q' progress h reply hadvance ih =>
      obtain ⟨events, hsent, hrun⟩ := ih rfl
      subst hprogress
      refine ⟨events ++ (o.sending q' ++ o.receiving q' reply), ?_, fun afterwards rest => ?_⟩
      · simp [sentCommands_append, hsent]
      · rw [List.map_append, List.map_singleton, List.append_assoc, hrun, List.singleton_append,
          run_cons_of_advance hadvance, Run.after_after]

theorem exists_last {outcome : Outcome} (h : Reaches o p exchanges (.ended outcome)) :
    ∃ before q reply, Reaches o p before (.pending q) ∧
      exchanges = before ++ [(q.command, reply)] ∧ o.advance q reply = .ended outcome := by
  cases h with
  | next h reply hadvance => exact ⟨_, _, reply, h, rfl, hadvance⟩

theorem whole {outcome : Outcome} (h : Reaches o p exchanges (.ended outcome)) :
    Whole o p exchanges outcome := by
  obtain ⟨before, q, reply, hbefore, rfl, hended⟩ := h.exists_last
  obtain ⟨events, hsent, hrun⟩ := hbefore.run_of_pending
  obtain ⟨answers, hanswers⟩ := hbefore.commands_of_pending
  refine ⟨⟨answers, by rw [List.map_append]; exact hanswers⟩, fun afterwards => ?_⟩
  rw [List.map_append, List.map_singleton, hrun, run_cons_of_ended hended]
  refine ⟨rfl, rfl, ?_⟩
  simp [Run.after, sentCommands_append, hsent]

end Reaches

/-! ## Steps -/

namespace SharedChannel

/-- The moves that are possible, each with what it leads to.  It is the relation of `step`, with
one case for each way to make a move. -/
inductive Makes (c : SharedChannel) : Move → SharedChannel → Prop
  | enter {i : Nat} {o : RequestOptions} {p : Pending}
      (hr : c.requests[i]? = some ⟨o, .waiting p⟩) (hfree : c.session = none) :
      Makes c (.enter i) { c.put i ⟨o, .waiting p⟩ (.ready p) with session := some i }
  | send {i : Nat} {o : RequestOptions} {p : Pending}
      (hr : c.requests[i]? = some ⟨o, .ready p⟩) (hfree : c.exchange = none) :
      Makes c (.send i) { c.put i ⟨o, .ready p⟩ (.underWay p) with
        exchange := some i, passages := c.passages ++ [.sent i p.command] }
  | reply {i : Nat} {o : RequestOptions} {p : Pending}
      (hr : c.requests[i]? = some ⟨o, .underWay p⟩) (reply : Reply) :
      Makes c (.reply i reply) { c.put i ⟨o, .underWay p⟩ (.replied p reply) with
        exchange := none, passages := c.passages ++ [.received i reply] }
  | answer {i : Nat} {o : RequestOptions} {p : Pending} {reply : Reply}
      (hr : c.requests[i]? = some ⟨o, .replied p reply⟩) :
      Makes c (.answer i) (c.put i ⟨o, .replied p reply⟩ (.ofProgress (o.advance p reply)))
  | leave {i : Nat} {o : RequestOptions} {outcome : Outcome}
      (hr : c.requests[i]? = some ⟨o, .leaving outcome⟩) :
      Makes c (.leave i) { c.put i ⟨o, .leaving outcome⟩ (.finished outcome) with session := none }
  | abandonWaiting {i : Nat} {o : RequestOptions} {p : Pending}
      (hr : c.requests[i]? = some ⟨o, .waiting p⟩) :
      Makes c (.abandon i) (c.put i ⟨o, .waiting p⟩ .abandoned)
  | abandonReady {i : Nat} {o : RequestOptions} {p : Pending}
      (hr : c.requests[i]? = some ⟨o, .ready p⟩) :
      Makes c (.abandon i) { c.put i ⟨o, .ready p⟩ .abandoned with session := none }
  | abandonUnderWay {i : Nat} {o : RequestOptions} {p : Pending}
      (hr : c.requests[i]? = some ⟨o, .underWay p⟩) :
      Makes c (.abandon i) { c.put i ⟨o, .underWay p⟩ .abandoned with
        session := none, exchange := none, orphans := i :: c.orphans }
  | abandonReplied {i : Nat} {o : RequestOptions} {p : Pending} {reply : Reply}
      (hr : c.requests[i]? = some ⟨o, .replied p reply⟩) :
      Makes c (.abandon i) { c.put i ⟨o, .replied p reply⟩ .abandoned with session := none }
  | drop {i : Nat} (hi : i ∈ c.orphans) (reply : Reply) :
      Makes c (.drop i reply) { c with
        orphans := c.orphans.erase i, passages := c.passages ++ [.dropped i reply] }

theorem step_eq_some {c c' : SharedChannel} {move : Move} :
    c.step move = some c' ↔ c.Makes move c' := by
  constructor
  · intro h
    -- A move is possible at one stage only, apart from being given up.
    cases move with
    | enter i =>
        obtain ⟨⟨o, stage⟩, hr, h⟩ := Option.bind_eq_some_iff.mp h
        cases stage <;> cases hsession : c.session <;> rw [hsession] at h <;> cases h
        exact .enter hr hsession
    | send i =>
        obtain ⟨⟨o, stage⟩, hr, h⟩ := Option.bind_eq_some_iff.mp h
        cases stage <;> cases hexchange : c.exchange <;> rw [hexchange] at h <;> cases h
        exact .send hr hexchange
    | reply i reply =>
        obtain ⟨⟨o, stage⟩, hr, h⟩ := Option.bind_eq_some_iff.mp h
        cases stage <;> cases h
        exact .reply hr reply
    | answer i =>
        obtain ⟨⟨o, stage⟩, hr, h⟩ := Option.bind_eq_some_iff.mp h
        cases stage <;> cases h
        exact .answer hr
    | leave i =>
        obtain ⟨⟨o, stage⟩, hr, h⟩ := Option.bind_eq_some_iff.mp h
        cases stage <;> cases h
        exact .leave hr
    | abandon i =>
        obtain ⟨⟨o, stage⟩, hr, h⟩ := Option.bind_eq_some_iff.mp h
        cases stage with
        | waiting p =>
            cases h
            exact .abandonWaiting hr
        | ready p =>
            cases h
            exact .abandonReady hr
        | underWay p =>
            cases h
            exact .abandonUnderWay hr
        | replied p reply =>
            cases h
            exact .abandonReplied hr
        | _ => cases h
    | drop i reply =>
        rw [step] at h
        split at h
        · cases h
          exact .drop ‹_› reply
        · cases h
  · intro h
    cases h with
    | enter hr hfree => simp [step, hr, hfree]
    | send hr hfree => simp [step, hr, hfree]
    | reply hr reply => simp [step, hr]
    | answer hr => simp [step, hr]
    | leave hr => simp [step, hr]
    | abandonWaiting hr => simp [step, hr]
    | abandonReady hr => simp [step, hr]
    | abandonUnderWay hr => simp [step, hr]
    | abandonReplied hr => simp [step, hr]
    | drop hi reply => simp [step, hi]

end SharedChannel

/-! ## Blocks -/

/-- Whether what passes goes to a request: a command comes from one, and a reply that is dropped
goes to none. -/
def Passage.isHeard : Passage → Bool
  | .dropped _ _ => false
  | _ => true

/-- What one request exchanges while it holds the session.  The last command may be without a
reply, if the request was given up or is still under way. -/
structure Block where
  request : Nat
  exchanges : List (Command × Reply)
  /-- A command to which the request has no reply. -/
  outstanding : Option Command := none

namespace Block

/-- Each reply comes to the request whose command it follows. -/
def passages (b : Block) : List Passage :=
  b.exchanges.flatMap (fun e => [.sent b.request e.1, .received b.request e.2]) ++
    b.outstanding.toList.map (.sent b.request)

/-- The commands of a block, the one without a reply last. -/
def commands (b : Block) : List Command := b.exchanges.map Prod.fst ++ b.outstanding.toList

theorem isHeard_of_mem_passages {b : Block} {x : Passage} (h : x ∈ b.passages) :
    x.isHeard = true := by
  rcases List.mem_append.mp h with h | h
  · obtain ⟨e, -, he⟩ := List.mem_flatMap.mp h
    rcases List.mem_cons.mp he with rfl | he
    · rfl
    · rw [List.mem_singleton.mp he]
      rfl
  · obtain ⟨command, -, rfl⟩ := List.mem_map.mp h
    rfl

end Block

/-- The block of the request in the session, by the stage of that.  A command that is under way
has no reply in the block yet. -/
inductive Holds (o : RequestOptions) (p : Pending) (b : Block) : Stage → Prop
  | ready {q : Pending} (h : Reaches o p b.exchanges (.pending q)) (hnone : b.outstanding = none) :
      Holds o p b (.ready q)
  | underWay {q : Pending} (h : Reaches o p b.exchanges (.pending q))
      (hsome : b.outstanding = some q.command) : Holds o p b (.underWay q)
  | replied {q : Pending} {before : List (Command × Reply)} {reply : Reply}
      (h : Reaches o p before (.pending q)) (hlast : b.exchanges = before ++ [(q.command, reply)])
      (hnone : b.outstanding = none) : Holds o p b (.replied q reply)
  | leaving {outcome : Outcome} (h : Reaches o p b.exchanges (.ended outcome))
      (hnone : b.outstanding = none) : Holds o p b (.leaving outcome)

/-- What the request in the session has sent is the beginning of what it sends. -/
theorem Holds.commands_isPrefix {o : RequestOptions} {p : Pending} {b : Block} {stage : Stage}
    (h : Holds o p b stage) : ∃ answers, b.commands <+: commandsOf p.command answers := by
  cases h with
  | ready hreaches hnone =>
      obtain ⟨answers, hanswers⟩ := hreaches.commands_of_pending
      exact ⟨answers, by simp [Block.commands, hnone, ← hanswers]⟩
  | underWay hreaches hsome =>
      obtain ⟨answers, hanswers⟩ := hreaches.commands_of_pending
      exact ⟨answers, by simp [Block.commands, hsome, ← hanswers]⟩
  | replied hreaches hlast hnone =>
      obtain ⟨answers, hanswers⟩ := hreaches.commands_of_pending
      exact ⟨answers, by simp [Block.commands, hlast, hnone, ← hanswers]⟩
  | leaving hreaches hnone =>
      obtain ⟨answers, hanswers⟩ := hreaches.whole.commands
      exact ⟨answers, by simp [Block.commands, hnone, ← hanswers]⟩

/-- Looking at a reply takes the course one exchange further.  If the reply ends the request, the
block is complete. -/
theorem Holds.answer {o : RequestOptions} {p q : Pending} {b : Block} {reply : Reply}
    (h : Holds o p b (.replied q reply)) : Holds o p b (.ofProgress (o.advance q reply)) := by
  cases h with
  | replied hreaches hlast hnone =>
      have hnext : Reaches o p b.exchanges (o.advance q reply) := hlast ▸ hreaches.next reply rfl
      cases hadvance : o.advance q reply with
      | pending next => exact .ready (hadvance ▸ hnext) hnone
      | ended outcome => exact .leaving (hadvance ▸ hnext) hnone

/-- The block of a request that is over: it came to its end, or it was given up somewhere. -/
inductive Over (o : RequestOptions) (p : Pending) (b : Block) : Stage → Prop
  | finished {outcome : Outcome} (h : Reaches o p b.exchanges (.ended outcome))
      (hnone : b.outstanding = none) : Over o p b (.finished outcome)
  | abandoned {answers : List Bytes} (h : b.commands <+: commandsOf p.command answers) :
      Over o p b .abandoned

/-- A request has a command without a reply in one of some blocks.  Such a request was given up
while its exchange was under way. -/
def Unheard (blocks : List Block) (i : Nat) : Prop :=
  ∃ b ∈ blocks, b.request = i ∧ b.outstanding.isSome = true

theorem Unheard.append {blocks : List Block} {i : Nat} (h : Unheard blocks i) (more : List Block) :
    Unheard (blocks ++ more) i := by
  obtain ⟨b, hb, hi⟩ := h
  exact ⟨b, List.mem_append_left more hb, hi⟩

namespace SharedChannel

/-- The blocks of the requests that are over, and the one of the request in the session, are all
that passed and was heard.  Any other request has not begun. -/
structure Ordered (requests : List (RequestOptions × Pending)) (c : SharedChannel)
    (blocks : List Block) (current : Option Block) : Prop where
  passages : c.passages.filter Passage.isHeard = (blocks ++ current.toList).flatMap Block.passages
  apart : ((blocks ++ current.toList).map Block.request).Nodup
  session : c.session = current.map Block.request
  exchange : c.exchange = current.bind fun b => b.outstanding.map fun _ => b.request
  past : ∀ b ∈ blocks, ∃ o p stage, requests[b.request]? = some (o, p) ∧
    c.requests[b.request]? = some ⟨o, stage⟩ ∧ Over o p b stage
  present : ∀ b ∈ current, ∃ o p stage, requests[b.request]? = some (o, p) ∧
    c.requests[b.request]? = some ⟨o, stage⟩ ∧ Holds o p b stage
  future : ∀ i, i ∉ (blocks ++ current.toList).map Block.request →
    ∀ o stage, c.requests[i]? = some ⟨o, stage⟩ →
      ∃ p, requests[i]? = some (o, p) ∧ (stage = .waiting p ∨ stage = .abandoned)
  /-- An exchange that goes on without its request belongs to a request that is over. -/
  orphans : ∀ i ∈ c.orphans, Unheard blocks i
  dropped : ∀ i reply, .dropped i reply ∈ c.passages → Unheard blocks i

namespace Ordered

theorem start (requests : List (RequestOptions × Pending)) :
    Ordered requests (start requests) [] none where
  passages := rfl
  apart := List.nodup_nil
  session := rfl
  exchange := rfl
  past := by simp
  present := by simp
  future := by
    intro i _ o stage hr
    have hmap : requests[i]?.map (fun e => SharedRequest.mk e.1 (.waiting e.2)) = some ⟨o, stage⟩ :=
      List.getElem?_map.symm.trans hr
    obtain ⟨⟨o', p⟩, hp, heq⟩ := Option.map_eq_some_iff.mp hmap
    cases heq
    exact ⟨p, hp, .inl rfl⟩
  orphans := by simp [SharedChannel.start]
  dropped := by simp [SharedChannel.start]

variable {requests : List (RequestOptions × Pending)} {c : SharedChannel} {blocks : List Block}
  {current : Option Block} (h : Ordered requests c blocks current)

include h

/-- A request is over, or in the session, or has not begun.  The blocks say which of the three it
is. -/
theorem request_cases {i : Nat} {o : RequestOptions} {stage : Stage}
    (hr : c.requests[i]? = some ⟨o, stage⟩) :
    (stage = .abandoned ∨ ∃ outcome, stage = .finished outcome) ∨
    (∃ b p, current = some b ∧ b.request = i ∧ requests[i]? = some (o, p) ∧ Holds o p b stage) ∨
    ∃ p, stage = .waiting p ∧ requests[i]? = some (o, p) ∧
      i ∉ (blocks ++ current.toList).map Block.request := by
  -- A request with a block is over or in the session; one without has not begun.
  by_cases hi : i ∈ (blocks ++ current.toList).map Block.request
  · obtain ⟨b, hb, rfl⟩ := List.mem_map.mp hi
    rcases List.mem_append.mp hb with hpast | hpresent
    · obtain ⟨o', p, stage', -, hstage, hover⟩ := h.past b hpast
      cases hr.symm.trans hstage
      cases hover with
      | @finished outcome => exact .inl (.inr ⟨outcome, rfl⟩)
      | abandoned => exact .inl (.inl rfl)
    · have hcurrent : current = some b := Option.mem_toList.mp hpresent
      obtain ⟨o', p, stage', hp, hstage, hholds⟩ := h.present b hcurrent
      cases hr.symm.trans hstage
      exact .inr (.inl ⟨b, p, hcurrent, rfl, hp, hholds⟩)
  · obtain ⟨p, hp, rfl | rfl⟩ := h.future i hi o stage hr
    · exact .inr (.inr ⟨p, rfl, hp, hi⟩)
    · exact .inl (.inl rfl)

/-- A request that is neither waiting nor over is in the session. -/
theorem holds_of_holdsSession {i : Nat} {o : RequestOptions} {stage : Stage}
    (hr : c.requests[i]? = some ⟨o, stage⟩) (hstage : stage.holdsSession = true) :
    ∃ b p, current = some b ∧ b.request = i ∧ requests[i]? = some (o, p) ∧ Holds o p b stage := by
  rcases h.request_cases hr with (rfl | ⟨outcome, rfl⟩) | hholds | ⟨p, rfl, -, -⟩
  · cases hstage
  · cases hstage
  · exact hholds
  · cases hstage

theorem ne_of_mem {b b₀ : Block} (hcurrent : current = some b) (hb₀ : b₀ ∈ blocks) :
    b₀.request ≠ b.request := by
  have hapart := h.apart
  rw [hcurrent, List.map_append] at hapart
  exact (List.nodup_append.mp hapart).2.2 _ (List.mem_map_of_mem hb₀) _ (by simp)

/-- A request moves to another stage, and the others stay where they are. -/
theorem past_set {requests' : List SharedRequest} {i : Nat} {r : SharedRequest}
    (hrequests : requests' = c.requests.set i r) (hi : ∀ b ∈ blocks, b.request ≠ i) :
    ∀ b ∈ blocks, ∃ o p stage, requests[b.request]? = some (o, p) ∧
      requests'[b.request]? = some ⟨o, stage⟩ ∧ Over o p b stage := by
  intro b hb
  rw [hrequests, List.getElem?_set_ne (hi b hb).symm]
  exact h.past b hb

end Ordered

theorem getElem?_set_of_some {α : Type} {xs : List α} {i : Nat} {x y : α} (h : xs[i]? = some x) :
    (xs.set i y)[i]? = some y := by
  rw [List.getElem?_set_self (List.getElem?_eq_some_iff.mp h).1]

/-- The request in the session goes on to another stage, which may add to its block.  Everything
about the other requests carries over, because only the one that holds the session can move so. -/
theorem Ordered.proceed {requests : List (RequestOptions × Pending)} {c c' : SharedChannel}
    {blocks : List Block} {b b' : Block} (h : Ordered requests c blocks (some b))
    {o : RequestOptions} {p : Pending} {old new : Stage} {added : List Passage}
    (hp : requests[b.request]? = some (o, p)) (hr : c.requests[b.request]? = some ⟨o, old⟩)
    (hrequest : b'.request = b.request) (hholds : Holds o p b' new)
    (hrequests : c'.requests = c.requests.set b.request ⟨o, new⟩)
    (hsession : c'.session = c.session)
    (hexchange : c'.exchange = b'.outstanding.map fun _ => b.request)
    (horphans : c'.orphans = c.orphans)
    (hpassages : c'.passages = c.passages ++ added) (hadded : b'.passages = b.passages ++ added) :
    Ordered requests c' blocks (some b') := by
  -- What the move adds belongs to the request in the session, so none of it was dropped.
  have hheard : ∀ x ∈ added, x.isHeard = true := fun x hx =>
    Block.isHeard_of_mem_passages (b := b') (hadded ▸ List.mem_append_right _ hx)
  exact {
    passages := by
      rw [hpassages, List.filter_append, h.passages, List.filter_eq_self.mpr hheard]
      simp [hadded]
    apart := by simpa [hrequest] using h.apart
    session := by simp [hsession, h.session, hrequest]
    exchange := by simp [hexchange, hrequest]
    past := h.past_set hrequests fun _ hb₀ => h.ne_of_mem rfl hb₀
    present := by
      rintro _ ⟨⟩
      rw [hrequest, hrequests, getElem?_set_of_some hr]
      exact ⟨o, p, new, hp, rfl, hholds⟩
    future := by
      intro i hi
      have hne : b.request ≠ i := by
        rintro rfl
        simp [hrequest] at hi
      rw [hrequests, List.getElem?_set_ne hne]
      apply h.future
      simpa [hrequest] using hi
    orphans := by
      rw [horphans]
      exact h.orphans
    dropped := by
      intro i reply hmem
      rw [hpassages] at hmem
      rcases List.mem_append.mp hmem with hmem | hmem
      · exact h.dropped i reply hmem
      · cases hheard _ hmem }

/-- The request in the session gives it back, and its block is over.  If a command of it has no
reply, the exchange may go on. -/
theorem Ordered.close {requests : List (RequestOptions × Pending)} {c c' : SharedChannel}
    {blocks : List Block} {b : Block} (h : Ordered requests c blocks (some b)) {o : RequestOptions}
    {p : Pending} {old new : Stage} (hp : requests[b.request]? = some (o, p))
    (hr : c.requests[b.request]? = some ⟨o, old⟩) (hover : Over o p b new)
    (hrequests : c'.requests = c.requests.set b.request ⟨o, new⟩) (hsession : c'.session = none)
    (hexchange : c'.exchange = none) (hpassages : c'.passages = c.passages)
    (horphans : ∀ i ∈ c'.orphans, i ∈ c.orphans ∨ i = b.request ∧ b.outstanding.isSome = true) :
    Ordered requests c' (blocks ++ [b]) none where
  passages := by simpa [hpassages] using h.passages
  apart := by simpa using h.apart
  session := hsession
  exchange := hexchange
  past := by
    intro b₀ hb₀
    -- The earlier blocks belong to other requests, whose stages did not change.
    rcases List.mem_append.mp hb₀ with hb₀ | hb₀
    · exact h.past_set hrequests (fun _ hb => h.ne_of_mem rfl hb) b₀ hb₀
    · cases List.mem_singleton.mp hb₀
      rw [hrequests, getElem?_set_of_some hr]
      exact ⟨o, p, new, hp, rfl, hover⟩
  present := by simp
  future := by
    intro j hj
    have hne : b.request ≠ j := by
      rintro rfl
      simp at hj
    rw [hrequests, List.getElem?_set_ne hne]
    apply h.future
    simpa using hj
  orphans := by
    intro i hi
    rcases horphans i hi with hi | ⟨rfl, hsome⟩
    · exact (h.orphans i hi).append [b]
    · exact ⟨b, List.mem_append_right blocks (List.mem_singleton_self b), rfl, hsome⟩
  dropped := by
    intro i reply hmem
    rw [hpassages] at hmem
    exact (h.dropped i reply hmem).append [b]

namespace Ordered

variable {requests : List (RequestOptions × Pending)} {c c' : SharedChannel} {blocks : List Block}
  {current : Option Block}

/-- A request gets the session and begins a block. -/
theorem enter (h : Ordered requests c blocks none) {i : Nat} {o : RequestOptions} {p : Pending}
    (hr : c.requests[i]? = some ⟨o, .waiting p⟩) :
    Ordered requests { c.put i ⟨o, .waiting p⟩ (.ready p) with session := some i } blocks
      (some ⟨i, [], none⟩) := by
  obtain ⟨hstage | ⟨_, hstage⟩⟩ | ⟨_, _, hcurrent, -⟩ | ⟨p', hstage, hp, hnew⟩ := h.request_cases hr
  · cases hstage
  · cases hstage
  · cases hcurrent
  cases hstage
  -- A request that waits has no block yet, so the new one stands apart from all others.
  have hnew : ∀ b ∈ blocks, b.request ≠ i := by simpa using hnew
  exact
    { passages := by simpa [put, Block.passages] using h.passages
      apart := by
        have hapart : (blocks.map Block.request).Nodup := by simpa using h.apart
        simpa [List.nodup_append] using ⟨hapart, hnew⟩
      session := rfl
      exchange := h.exchange
      past := h.past_set rfl hnew
      present := by
        rintro _ ⟨⟩
        exact ⟨o, p, .ready p, hp, getElem?_set_of_some hr, .ready .start rfl⟩
      future := by
        intro j hj
        have hne : i ≠ j := by
          rintro rfl
          simp at hj
        show ∀ o' stage, (c.requests.set i _)[j]? = some ⟨o', stage⟩ → _
        rw [List.getElem?_set_ne hne]
        apply h.future
        simp at hj ⊢
        exact hj.1
      orphans := h.orphans
      dropped := h.dropped }

/-- A request that waits for the session is given up and never begins a block. -/
theorem abandonWaiting (h : Ordered requests c blocks current) {i : Nat} {o : RequestOptions}
    {p : Pending} (hr : c.requests[i]? = some ⟨o, .waiting p⟩) :
    Ordered requests (c.put i ⟨o, .waiting p⟩ .abandoned) blocks current := by
  obtain ⟨hstage | ⟨_, hstage⟩⟩ | ⟨_, _, -, -, -, hholds⟩ | ⟨p', hstage, hp, hnew⟩ :=
    h.request_cases hr
  · cases hstage
  · cases hstage
  · cases hholds
  cases hstage
  -- It has no block, so what the blocks say about the other requests stays true.
  have hother : ∀ b ∈ blocks ++ current.toList, b.request ≠ i :=
    fun b hb heq => hnew (heq ▸ List.mem_map_of_mem hb)
  exact
    { passages := h.passages
      apart := h.apart
      session := h.session
      exchange := h.exchange
      past := h.past_set rfl fun b hb => hother b (List.mem_append_left _ hb)
      present := by
        intro b hb
        have hne := hother b (List.mem_append_right _ (Option.mem_toList.mpr hb))
        show ∃ o' p' stage, _ ∧ (c.requests.set i _)[b.request]? = some _ ∧ _
        rw [List.getElem?_set_ne hne.symm]
        exact h.present b hb
      future := by
        intro j hj o' stage hstage
        by_cases hij : i = j
        · subst hij
          cases (getElem?_set_of_some hr).symm.trans hstage
          exact ⟨p, hp, .inr rfl⟩
        · rw [put, List.getElem?_set_ne hij] at hstage
          exact h.future j hj o' stage hstage
      orphans := h.orphans
      dropped := h.dropped }

/-- What comes back for a request that was given up is not heard. -/
theorem drop (h : Ordered requests c blocks current) {i : Nat} (hi : i ∈ c.orphans)
    (reply : Reply) :
    Ordered requests
      { c with orphans := c.orphans.erase i, passages := c.passages ++ [.dropped i reply] }
      blocks current :=
  { h with
    passages := by
      rw [List.filter_append, h.passages]
      exact List.append_nil _
    orphans := fun j hj => h.orphans j (List.mem_of_mem_erase hj)
    dropped := by
      intro j reply' hmem
      rcases List.mem_append.mp hmem with hmem | hmem
      · exact h.dropped j reply' hmem
      · cases List.mem_singleton.mp hmem
        exact h.orphans i hi }

/-- Every move keeps the channel in order: a request that gets the session begins a block, one that
leaves or is given up ends it, and the moves between add to it. -/
theorem step (h : Ordered requests c blocks current) {move : Move} (hmove : c.Makes move c') :
    ∃ blocks' current', Ordered requests c' blocks' current' := by
  cases hmove with
  | enter hr hfree =>
      -- The session is free, so there is no block to go on with.
      have hnone : current = none := by simpa [hfree] using h.session.symm
      subst hnone
      exact ⟨_, _, h.enter hr⟩
  | @send i o q hr hfree =>
      -- Only the request in the session is at a stage from which a command is sent.
      obtain ⟨b, p, rfl, rfl, hp, hholds⟩ := h.holds_of_holdsSession hr rfl
      cases hholds with
      | ready hreaches hnone =>
          exact ⟨blocks, some { b with outstanding := some q.command },
            h.proceed hp hr rfl (.underWay hreaches rfl) rfl rfl rfl rfl rfl
              (by simp [Block.passages, hnone])⟩
  | @reply i o q hr reply =>
      obtain ⟨b, p, rfl, rfl, hp, hholds⟩ := h.holds_of_holdsSession hr rfl
      cases hholds with
      | underWay hreaches hsome =>
          exact ⟨blocks, some ⟨b.request, b.exchanges ++ [(q.command, reply)], none⟩,
            h.proceed hp hr rfl (.replied hreaches rfl rfl) rfl rfl rfl rfl rfl
              (by simp [Block.passages, hsome])⟩
  | answer hr =>
      obtain ⟨b, p, rfl, rfl, hp, hholds⟩ := h.holds_of_holdsSession hr rfl
      exact ⟨blocks, some b, h.proceed hp hr rfl hholds.answer rfl rfl h.exchange rfl
        (List.append_nil _).symm (List.append_nil _).symm⟩
  | leave hr =>
      obtain ⟨b, p, rfl, rfl, hp, hholds⟩ := h.holds_of_holdsSession hr rfl
      cases hholds with
      | leaving hreaches hnone =>
          exact ⟨_, _, h.close hp hr (.finished hreaches hnone) rfl rfl
            (by simp [put, h.exchange, hnone]) rfl fun i hi => .inl hi⟩
  | abandonWaiting hr => exact ⟨_, _, h.abandonWaiting hr⟩
  | abandonReady hr =>
      obtain ⟨b, p, rfl, rfl, hp, hholds⟩ := h.holds_of_holdsSession hr rfl
      obtain ⟨answers, hprefix⟩ := hholds.commands_isPrefix
      cases hholds with
      | ready hreaches hnone =>
          exact ⟨_, _, h.close hp hr (.abandoned hprefix) rfl rfl
            (by simp [put, h.exchange, hnone]) rfl fun i hi => .inl hi⟩
  | abandonUnderWay hr =>
      -- The exchange goes on, and the block keeps its last command without a reply.
      obtain ⟨b, p, rfl, rfl, hp, hholds⟩ := h.holds_of_holdsSession hr rfl
      obtain ⟨answers, hprefix⟩ := hholds.commands_isPrefix
      cases hholds with
      | underWay hreaches hsome =>
          refine ⟨_, _, h.close hp hr (.abandoned hprefix) rfl rfl rfl rfl fun i hi => ?_⟩
          rcases List.mem_cons.mp hi with rfl | hi
          · exact .inr ⟨rfl, by rw [hsome, Option.isSome_some]⟩
          · exact .inl hi
  | abandonReplied hr =>
      obtain ⟨b, p, rfl, rfl, hp, hholds⟩ := h.holds_of_holdsSession hr rfl
      obtain ⟨answers, hprefix⟩ := hholds.commands_isPrefix
      cases hholds with
      | replied hreaches hlast hnone =>
          exact ⟨_, _, h.close hp hr (.abandoned hprefix) rfl rfl
            (by simp [put, h.exchange, hnone]) rfl fun i hi => .inl hi⟩
  | drop hi reply => exact ⟨_, _, h.drop hi reply⟩

/-- Whatever the schedule is, the channel is in order.  The induction is on the moves of the
schedule. -/
theorem run (h : Ordered requests c blocks current) {moves : List Move}
    (hrun : c.run moves = some c') : ∃ blocks' current', Ordered requests c' blocks' current' := by
  induction moves generalizing c blocks current with
  | nil =>
      cases hrun
      exact ⟨blocks, current, h⟩
  | cons move moves ih =>
      obtain ⟨middle, hstep, hrest⟩ := Option.bind_eq_some_iff.mp hrun
      obtain ⟨_, _, hmiddle⟩ := h.step (step_eq_some.mp hstep)
      exact ih hmiddle hrest

end Ordered

/-! ## Any schedule -/

/-- No schedule ends in a deadlock: as long as some request is not over, there is a move that
gives up none. -/
theorem exists_step_of_unfinished {requests : List (RequestOptions × Pending)} {moves : List Move}
    {c : SharedChannel} (h : (start requests).run moves = some c) {r : SharedRequest}
    (hr : r ∈ c.requests) (hunfinished : ∀ outcome, r.stage ≠ .finished outcome)
    (hkept : r.stage ≠ .abandoned) :
    ∃ move c', (∀ i, move ≠ .abandon i) ∧ c.step move = some c' := by
  obtain ⟨blocks, current, hordered⟩ := (Ordered.start requests).run h
  cases hcurrent : current with
  | none =>
      -- The session is free, so a request that is not over waits for it.
      obtain ⟨i, hi, hget⟩ := List.getElem_of_mem hr
      have hat : c.requests[i]? = some ⟨r.options, r.stage⟩ := List.getElem?_eq_some_iff.mpr ⟨hi, hget⟩
      rcases hordered.request_cases hat with
        (habandoned | ⟨outcome, hover⟩) | ⟨b, _, hb, -⟩ | ⟨p, hwaiting, -, -⟩
      · exact absurd habandoned hkept
      · exact absurd hover (hunfinished outcome)
      · cases hcurrent.symm.trans hb
      · rw [hwaiting] at hat
        have hfree : c.session = none := by rw [hordered.session, hcurrent]; rfl
        exact ⟨.enter i, _, nofun, step_eq_some.mpr (.enter hat hfree)⟩
  | some b =>
      -- The request in the session can go on at every stage, whatever the others do.
      obtain ⟨o, p, stage, -, hat, hholds⟩ := hordered.present b hcurrent
      cases hholds with
      | ready _ hnone =>
          have hfree : c.exchange = none := by simp [hordered.exchange, hcurrent, hnone]
          exact ⟨.send b.request, _, nofun, step_eq_some.mpr (.send hat hfree)⟩
      | underWay =>
          exact ⟨.reply b.request (.answer Status.success []), _, nofun,
            step_eq_some.mpr (.reply hat _)⟩
      | replied => exact ⟨.answer b.request, _, nofun, step_eq_some.mpr (.answer hat)⟩
      | leaving => exact ⟨.leave b.request, _, nofun, step_eq_some.mpr (.leave hat)⟩

end SharedChannel
end SignerHost
