import SignerHost.Client.Operations
import SignerHost.Proofs.Client.OneRequest
import SignerHost.Proofs.Psbt.Registered

/-!
# All operations

`Operation` lists what a caller may ask of a client, with any arguments, and `opening` is what the
arguments alone decide: the first command, or the reason for which they are refused.

* The rest of an operation checks what the device sent.  A check that reads the data of the device
  can fail in one way only, which the operation turns into an invalid result.
* `oneRequest_or_verified` says that an operation makes one request; the only other one is a
  registration by a client that verifies addresses, and `run_registerWallet_cases` takes it apart.
* `opens_perform` says that the opening is what every operation starts with, for every client and on
  every link, and that it then conducts itself.
-/

namespace SignerHost

open Step

/-! ## Operations and their first commands -/

/-- The operations that a caller can ask a client for, each with its arguments. -/
inductive Operation
  /-- Checks the app on the device. -/
  | connect
  | getVersion
  | getMasterFingerprint
  | getExtendedPubkey (path : String) (display : Bool)
  | registerWallet (wallet : Wallet)
  | getWalletAddress (wallet : Wallet) (hmac : Option Bytes) (change index : Int) (display : Bool)
  | signPsbt (source : PsbtSource) (wallet : Wallet) (hmac : Option Bytes)
  | signMessage (message : Bytes) (path : String)

namespace Client

/-- What a responder learns before a request.  An operation whose request has no responder
prepares nothing. -/
def prepared {α : Type} (step : Dialogue α) (responder : Responder) :
    Except Failure (α × Responder) :=
  match step responder with
  | .ok a after => .ok (a, after)
  | .error failure _ => .error failure

theorem prepare_eq {α : Type} (step : Dialogue α) (responder : Responder) :
    prepare step responder = MonadExcept.ofExcept (prepared step responder) := by
  unfold prepare prepared
  cases step responder <;> rfl

theorem prepared_eq_ok {α : Type} {step : Dialogue α} {r r' : Responder} {a : α} :
    prepared step r = .ok (a, r') ↔ step.run r = .ok a r' := by
  unfold prepared
  show _ ↔ step r = _
  cases step r <;> simp

end Client

namespace Operation

/-- What an operation gives if it succeeds. -/
def Value : Operation → Type
  | connect => Client
  | getVersion => AppInfo
  | getMasterFingerprint => Bytes
  | getExtendedPubkey .. => ExtendedKey
  | registerWallet _ => Bytes × Bytes
  | getWalletAddress .. => String
  | signPsbt .. => List (Nat × PartialSignature)
  | signMessage .. => MessageSignature

/-- Runs an operation.  What it gives depends on the operation. -/
def perform (client : Client) : (op : Operation) → Host op.Value
  | connect => client.connect
  | getVersion => client.getVersion
  | getMasterFingerprint => client.getMasterFingerprint
  | getExtendedPubkey path display => client.getExtendedPubkey path display
  | registerWallet wallet => client.registerWallet wallet
  | getWalletAddress wallet hmac change index display =>
      client.getWalletAddress wallet hmac change index display
  | signPsbt source wallet hmac => client.signPsbt source wallet hmac
  | signMessage message path => client.signMessage message path

/-- The first command of an operation, or the reason to refuse its arguments.  It depends on the
operation alone, and not on the client or the link. -/
def opening : Operation → Except Failure Command
  | connect | getVersion => .ok Command.getVersion
  | getMasterFingerprint => .ok Command.getMasterFingerprint
  | getExtendedPubkey path display => Command.getExtendedPubkey path display
  | registerWallet wallet => do
      let policy ← Client.usablePolicy wallet none
      let _ ← Client.prepared (Client.learnWallet policy) {}
      Command.registerWallet (.policy policy)
  | getWalletAddress wallet hmac change index display => do
      let policy ← Client.usablePolicy wallet hmac
      if change ≠ 0 ∧ change ≠ 1 then throw (.input .changeBranch)
      if index < 0 ∨ Client.maxAddressIndex < index then throw (.input (.addressIndex index))
      let _ ← Client.prepared (Client.learnWallet policy) {}
      Command.getWalletAddress (.policy policy) hmac index (change = 1) display
  | signPsbt source wallet hmac => do
      let policy ← Client.usablePolicy wallet hmac
      let psbt ← source.normalize
      let (_, responder) ← Client.prepared (Client.learnWallet policy) {}
      let (commitments, _) ← Client.prepared psbt.register responder
      Command.signPsbt commitments (.policy policy) hmac
  | signMessage message path => do
      let (root, _) ← Client.prepared (Responder.addList (chunks message)) {}
      Command.signMessage message.length root path

end Operation

/-! ## Reading what the device sent -/

theorem Text.isMalformed_of_ofAscii {bs : Bytes} {failure : Failure}
    (h : ofAscii bs = .error failure) : failure.IsMalformed := by
  unfold ofAscii at h
  split_ifs at h
  cases h
  exact ⟨_, rfl⟩

theorem AppInfo.ensures_readText :
    Ensures readText (fun _ => True) Failure.IsMalformed := by
  unfold readText
  refine .bind (Field.ensures_uint (n := 1) (by decide) .big) fun length hlength => ?_
  refine .bind (Field.ensures_bytes (hlength.trans (by decide))) fun bs _ => ?_
  exact .ofExcept (fun _ _ => trivial) fun _ => Text.isMalformed_of_ofAscii

theorem AppInfo.ensures_read : Ensures AppInfo.read (fun _ => True) Failure.IsMalformed := by
  have hbyte := Field.ensures_uint (n := 1) (by decide) .big
  unfold AppInfo.read
  refine .bind hbyte fun format _ => .guard ⟨_, rfl⟩ fun _ => ?_
  refine .bind ensures_readText fun name _ => .bind ensures_readText fun version _ => ?_
  refine .bind hbyte fun length hlength => ?_
  exact .bind (Field.ensures_bytes (hlength.trans (by decide))) fun flags _ => .pure trivial

theorem ensures_readInputSignature (isSignature : Bytes → Bool) (inputCount : Int) :
    Ensures (readInputSignature isSignature inputCount) (fun _ => True) Failure.IsMalformed := by
  have hremaining : Ensures Reader.remaining (fun _ => True) Failure.IsMalformed :=
    { ok := fun _ => trivial
      error := fun h => by cases h }
  unfold readInputSignature
  refine .bind (CompactSize.ensures_readAfter []) fun index _ => .guard ⟨_, rfl⟩ fun _ => ?_
  refine .bind hremaining fun bs _ => .bind (Q := fun _ => True) (.ofExcept ?_ ?_) ?_
  · exact fun _ _ => trivial
  · intro failure h
    unfold PartialSignature.ofBytes at h
    split_ifs at h
    cases h
    exact ⟨_, rfl⟩
  · exact fun signature _ => .pure trivial

namespace Client

theorem isResult_of_readSignatures {isSignature : Bytes → Bool} {command : Command}
    {inputCount : Int} {fragments : List Bytes} {failure : Failure}
    (h : readSignatures isSignature command inputCount fragments = .error failure) :
    failure.isResult = true := by
  unfold readSignatures at h
  split_ifs at h
  · cases h
    rfl
  · -- The failure is the one of the first fragment that cannot be read.
    obtain ⟨fragment, -, hread⟩ := exists_of_mapM_eq_error h
    cases hrun : readInputSignature isSignature inputCount fragment with
    | ok signature rest =>
        rw [hrun] at hread
        cases hread
    | error failure' rest =>
        obtain ⟨cause, rfl⟩ := (ensures_readInputSignature _ inputCount).error hrun
        rw [hrun] at hread
        cases hread
        rfl

theorem isResult_of_checkApp {info : AppInfo} {failure : Failure}
    (h : checkApp info = .error failure) : failure.isResult = true := by
  unfold checkApp at h
  split at h
  · cases h
    rfl
  · split_ifs at h
    cases h
    rfl

theorem isResult_of_verify {verifier : AddressVerifier} {wallet : Wallet} {change : Bool}
    {index : Int} {address : String} {failure : Failure}
    (h : verifier.verify wallet change index address = .error failure) :
    failure.isResult = true := by
  unfold AddressVerifier.verify at h
  split at h
  · cases h
  · cases h
    rfl

/-! ## Wallets and responders before a request -/

theorem usablePolicy_eq_ok {wallet : Wallet} {hmac : Option Bytes} {policy : Policy} :
    usablePolicy wallet hmac = .ok policy ↔
      wallet.checked = .ok policy ∧ ∀ code ∈ hmac, code.length = 32 := by
  have hany : ¬ (hmac.any fun code => decide (code.length ≠ 32)) = true ↔
      ∀ code ∈ hmac, code.length = 32 := by
    cases hmac <;> simp
  rw [usablePolicy, bind_eq_ok, ← hany]
  constructor
  · rintro ⟨policy', hchecked, h⟩
    obtain ⟨hlength, h⟩ := guard_eq_ok.mp h
    cases h
    exact ⟨hchecked, hlength⟩
  · rintro ⟨hchecked, hlength⟩
    exact ⟨policy, hchecked, guard_eq_ok.mpr ⟨hlength, rfl⟩⟩

theorem eq_policy_of_usablePolicy {wallet : Wallet} {hmac : Option Bytes} {policy : Policy}
    (h : usablePolicy wallet hmac = .ok policy) : wallet = .policy policy := by
  have hchecked := (usablePolicy_eq_ok.mp h).1
  unfold Wallet.checked at hchecked
  split at hchecked
  · split_ifs at hchecked
    cases hchecked
    rfl
  · cases hchecked

/-- What is learned of a policy needs its serialization and nothing else. -/
theorem exists_run_learnWallet {policy : Policy} {bs : Bytes}
    (hserialize : policy.serialize = .ok bs) {r : Responder} (hr : r.Orderly) :
    ∃ r', (learnWallet policy).run r = .ok () r' ∧ r'.Orderly := by
  rw [learnWallet, hserialize, run_bind_of_ok (run_ofExcept_ok bs r),
    run_bind_of_ok (by rw [run_discard, Responder.run_addPreimage]),
    run_bind_of_ok (by rw [run_discard, Responder.run_addKeyList]), run_discard,
    Responder.run_addPreimage]
  -- Lists of keys and byte strings do not matter for order.
  have hlist := (hr.withPreimage bs).withList (policy.keys.map Text.utf8)
  exact ⟨_, rfl, hlist.built, hlist.queued⟩

/-- A policy that was learned can be serialized, and the responder is orderly. -/
theorem of_learnWallet {policy : Policy} {u : Unit} {r : Responder}
    (h : prepared (learnWallet policy) {} = .ok (u, r)) :
    (∃ bs, policy.serialize = .ok bs) ∧ r.Orderly := by
  have hrun := prepared_eq_ok.mp h
  have hlearn := hrun
  unfold learnWallet at hlearn
  obtain ⟨bs, r₀, hserialize, -⟩ := run_bind_eq_ok.mp hlearn
  obtain ⟨hbs, -⟩ := run_ofExcept_eq_ok.mp hserialize
  obtain ⟨r', hrun', horderly⟩ := exists_run_learnWallet hbs .new
  rw [hrun'] at hrun
  cases hrun
  exact ⟨⟨bs, hbs⟩, horderly⟩

theorem of_addList {elements : List Bytes} {root : Bytes} {r r' : Responder}
    (h : prepared (Responder.addList elements) r = .ok (root, r')) :
    root = merkleRoot elements ∧ r' = r.withList elements := by
  have hrun := prepared_eq_ok.mp h
  rw [Responder.run_addList] at hrun
  cases hrun
  exact ⟨rfl, rfl⟩

theorem orderly_of_register {p : Psbt} {c : PsbtCommitments} {r r' : Responder} (hr : r.Orderly)
    (h : prepared p.register r = .ok (c, r')) : r'.Orderly := by
  obtain ⟨f, -, -, -, rfl⟩ := Psbt.run_register_eq_ok.mp (prepared_eq_ok.mp h)
  exact hr.withLists f.lists

/-! ## Every operation -/

section Operations

variable (client : Client)

theorem oneRequest_getVersion :
    OneRequest client (fun _ => True) client.getVersion (.ok Command.getVersion) := by
  unfold getVersion
  refine .request_alone _ fun ⟨response, _⟩ => ?_
  cases hread : AppInfo.read response with
  | ok info rest =>
      simp only [hread]
      exact .pure trivial
  | error failure rest =>
      -- The response can only be malformed, and that makes it an invalid result.
      obtain ⟨cause, rfl⟩ := AppInfo.ensures_read.error hread
      simp only [hread]
      exact .throw rfl

theorem oneRequest_connect :
    OneRequest client (fun _ => True) client.connect (.ok Command.getVersion) := by
  unfold connect
  refine client.oneRequest_getVersion.bind fun info _ => ?_
  exact .bind (.ofExcept (fun _ _ => trivial) fun _ => isResult_of_checkApp) fun _ _ =>
    .pure trivial

theorem oneRequest_getMasterFingerprint :
    OneRequest client (fun _ => True) client.getMasterFingerprint
      (.ok Command.getMasterFingerprint) := by
  unfold getMasterFingerprint
  exact .request_alone _ fun ⟨response, _⟩ => .guard rfl fun _ => .pure trivial

theorem oneRequest_getExtendedPubkey (path : String) (display : Bool) :
    OneRequest client (fun _ => True) (client.getExtendedPubkey path display)
      (Command.getExtendedPubkey path display) := by
  unfold getExtendedPubkey
  refine .build fun command _ => .request_alone command fun ⟨response, _⟩ => ?_
  cases hkey : extendedKey? response with
  | none =>
      simp only [hkey]
      exact .throw rfl
  | some key =>
      simp only [hkey]
      exact .guard rfl fun _ => .pure trivial

theorem oneRequest_getWalletAddress (wallet : Wallet) (hmac : Option Bytes) (change index : Int)
    (display : Bool) :
    OneRequest client (fun _ => True) (client.getWalletAddress wallet hmac change index display)
      (Operation.getWalletAddress wallet hmac change index display).opening := by
  simp only [getWalletAddress, Operation.opening, prepare_eq]
  refine .check fun policy _ => .require fun _ => .require fun _ => ?_
  refine .check fun ⟨_, responder⟩ hlearned => .build fun command _ => ?_
  refine .request_with (of_learnWallet hlearned).2 fun ⟨response, _⟩ => ?_
  cases haddress : client.address? response with
  | none => exact .throw rfl
  | some address =>
      exact .ite (fun _ => .bind (.ofExcept (fun _ _ => trivial) fun _ => isResult_of_verify)
        fun _ _ => .pure trivial) fun _ => .pure trivial

/-- The registration code of a client that does not verify the first address. -/
theorem oneRequest_registerWallet (wallet : Wallet) (hverify : client.verifyAddresses = false) :
    OneRequest client (fun value => value.2.length = 32) (client.registerWallet wallet)
      (Operation.registerWallet wallet).opening := by
  simp only [registerWallet, Operation.opening, prepare_eq]
  refine .check fun policy _ => .check fun ⟨_, responder⟩ hlearned => .build fun command _ => ?_
  obtain ⟨⟨bs, hserialize⟩, horderly⟩ := of_learnWallet hlearned
  refine .request_with horderly fun ⟨response, _⟩ => .guard rfl fun hlength => ?_
  refine .bind (.ofExcept (fun _ _ => trivial) fun failure h => ?_) fun id _ =>
    .guard rfl fun _ => ?_
  · rw [Policy.id_of_serialize hserialize] at h
    cases h
  · refine .ite (fun h => ?_) fun _ => .pure ?_
    · rw [hverify] at h
      cases h
    · show (response.drop 32).length = 32
      rw [List.length_drop]
      exact congrArg (· - 32) (not_not.mp hlength)

theorem oneRequest_signPsbt (source : PsbtSource) (wallet : Wallet) (hmac : Option Bytes) :
    OneRequest client (fun _ => True) (client.signPsbt source wallet hmac)
      (Operation.signPsbt source wallet hmac).opening := by
  simp only [signPsbt, Operation.opening, prepare_eq]
  refine .check fun policy _ => .check fun psbt _ => ?_
  refine .check fun ⟨_, responder⟩ hlearned => .check fun ⟨commitments, registered⟩ hregister => ?_
  refine .logged (by simp [Event.isLogged]) (.build fun command _ => ?_)
  exact .request_with (orderly_of_register (of_learnWallet hlearned).2 hregister) fun ⟨_, after⟩ =>
    .ofExcept (fun _ _ => trivial) fun _ => isResult_of_readSignatures

theorem oneRequest_signMessage (message : Bytes) (path : String) :
    OneRequest client (fun _ => True) (client.signMessage message path)
      (Operation.signMessage message path).opening := by
  simp only [signMessage, Operation.opening, prepare_eq]
  refine .check fun ⟨root, responder⟩ hlearned => .build fun command _ => ?_
  obtain ⟨rfl, rfl⟩ := of_addList hlearned
  refine .request_with (Responder.Orderly.new.withList (chunks message)) fun ⟨response, _⟩ => ?_
  cases response with
  | nil => exact .throw rfl
  | cons header signature => exact .guard rfl fun _ => .guard rfl fun _ => .pure trivial

/-! ## Registrations that are verified -/

/-- A client that does everything but verify addresses. -/
def withoutVerification : Client := { client with verifyAddresses := false }

/-- A registration that is verified is that of a client that does not verify addresses, with the
question for the first address behind it. -/
theorem registerWallet_eq (wallet : Wallet) (hverify : client.verifyAddresses = true) :
    client.registerWallet wallet = (do
      let (id, hmac) ← client.withoutVerification.registerWallet wallet
      discard (client.getWalletAddress wallet (some hmac) 0 0 false)
      return (id, hmac)) := by
  have hrequest : client.withoutVerification.request = client.request := rfl
  have hfalse : client.withoutVerification.verifyAddresses = false := rfl
  simp only [registerWallet, bind_assoc, hrequest, hfalse, hverify, Bool.false_eq_true, if_false,
    if_true]
  -- Both do the same up to the checks of the response, and differ only behind them.
  refine bind_congr fun policy => bind_congr fun ⟨_, responder⟩ => bind_congr fun command => ?_
  refine bind_congr fun ⟨response, _⟩ => ?_
  by_cases hlength : response.length ≠ 64
  · simp only [if_pos hlength]
    rfl
  · simp only [if_neg hlength, bind_assoc]
    refine bind_congr fun id => ?_
    by_cases hid : response.take 32 ≠ id
    · simp only [if_pos hid]
      rfl
    · simp only [if_neg hid, pure_bind]

/-- The first address of a policy that was just registered is asked for with a command that fits. -/
theorem exists_opening_getWalletAddress {wallet : Wallet} {policy : Policy} {u : Unit}
    {r : Responder} {hmac : Bytes} (hpolicy : usablePolicy wallet none = .ok policy)
    (hlearned : prepared (learnWallet policy) {} = .ok (u, r)) (hhmac : hmac.length = 32) :
    ∃ command, (Operation.getWalletAddress wallet (some hmac) 0 0 false).opening = .ok command ∧
      command.Fits := by
  obtain ⟨⟨bs, hserialize⟩, -⟩ := of_learnWallet hlearned
  have hhmac : ∀ code ∈ some hmac, code.length = 32 := by
    rintro code ⟨⟩
    exact hhmac
  have husable : usablePolicy wallet (some hmac) = .ok policy :=
    usablePolicy_eq_ok.mpr ⟨(usablePolicy_eq_ok.mp hpolicy).1, hhmac⟩
  -- The wallet has an id, since it could be serialized when it was learned.
  obtain ⟨command, hcommand⟩ : ∃ command,
      Command.getWalletAddress (.policy policy) (some hmac) 0 false false = .ok command := by
    have hid : (Wallet.policy policy).id = .ok (sha256 bs) := Policy.id_of_serialize hserialize
    exact ⟨_, by rw [Command.getWalletAddress, hid]; rfl⟩
  refine ⟨command, ?_, Command.fits_of_getWalletAddress hhmac hcommand⟩
  simp only [Operation.opening, husable]
  show (do
    let _ ← prepared (learnWallet policy) {}
    Command.getWalletAddress (.policy policy) (some hmac) 0 false false) = _
  rw [hlearned]
  exact hcommand

/-- The question for the first address of a wallet that was registered is not refused. -/
theorem exists_opening_of_registered {wallet : Wallet} {command : Command} {hmac : Bytes}
    (h : (Operation.registerWallet wallet).opening = .ok command) (hhmac : hmac.length = 32) :
    ∃ question, (Operation.getWalletAddress wallet (some hmac) 0 0 false).opening = .ok question ∧
      question.Fits := by
  obtain ⟨policy, hpolicy, h⟩ := bind_eq_ok.mp h
  obtain ⟨⟨_, responder⟩, hlearned, -⟩ := bind_eq_ok.mp h
  exact exists_opening_getWalletAddress hpolicy hlearned hhmac

/-- A registration that is verified fails where one without verification fails.  If that succeeds,
neither of them was refused, and what follows is the question for the first address. -/
theorem run_registerWallet_cases (wallet : Wallet) (hverify : client.verifyAddresses = true)
    (link : Link) :
    (∃ failure next,
        (client.withoutVerification.registerWallet wallet).run link = .error failure next ∧
        (client.registerWallet wallet).run link = .error failure next) ∨
      ∃ id hmac next,
        (client.withoutVerification.registerWallet wallet).run link = .ok (id, hmac) next ∧
        (∃ command, (Operation.registerWallet wallet).opening = .ok command) ∧
        (∃ question,
          (Operation.getWalletAddress wallet (some hmac) 0 0 false).opening = .ok question) ∧
        (client.registerWallet wallet).run link =
          ((fun _ => (id, hmac)) <$>
            client.getWalletAddress wallet (some hmac) 0 0 false).run next := by
  have hregister := client.withoutVerification.oneRequest_registerWallet wallet rfl
  rw [client.registerWallet_eq wallet hverify]
  cases hrun : (client.withoutVerification.registerWallet wallet).run link with
  | error failure next => exact .inl ⟨failure, next, rfl, run_bind_of_error hrun⟩
  | ok value next =>
      obtain ⟨id, hmac⟩ := value
      obtain ⟨command, hcommand⟩ := hregister.exists_first hrun
      obtain ⟨question, hquestion, -⟩ :=
        exists_opening_of_registered hcommand (hregister.ensures.ok hrun)
      refine .inr ⟨id, hmac, next, rfl, ⟨command, hcommand⟩, ⟨question, hquestion⟩, ?_⟩
      -- What the question returns is dropped; only whether it fails matters.
      rw [run_bind_of_ok hrun, EStateM.run_bind, run_discard, run_map]
      cases (client.getWalletAddress wallet (some hmac) 0 0 false).run next with
      | ok address last => rfl
      | error failure last => rfl

end Operations

end Client

namespace Operation

/-- An operation makes one request, unless it is a registration whose first address is verified.
That registration makes its second request only after the first one has succeeded. -/
theorem oneRequest_or_verified (client : Client) (op : Operation) :
    (∃ Q, OneRequest client Q (op.perform client) op.opening) ∨
      ∃ wallet, op = .registerWallet wallet ∧ client.verifyAddresses = true := by
  cases op with
  | connect => exact .inl ⟨_, client.oneRequest_connect⟩
  | getVersion => exact .inl ⟨_, client.oneRequest_getVersion⟩
  | getMasterFingerprint => exact .inl ⟨_, client.oneRequest_getMasterFingerprint⟩
  | getExtendedPubkey path display =>
      exact .inl ⟨_, client.oneRequest_getExtendedPubkey path display⟩
  | registerWallet wallet =>
      cases hverify : client.verifyAddresses with
      | true => exact .inr ⟨wallet, rfl, rfl⟩
      | false => exact .inl ⟨_, client.oneRequest_registerWallet wallet hverify⟩
  | getWalletAddress wallet hmac change index display =>
      exact .inl ⟨_, client.oneRequest_getWalletAddress wallet hmac change index display⟩
  | signPsbt source wallet hmac => exact .inl ⟨_, client.oneRequest_signPsbt source wallet hmac⟩
  | signMessage message path => exact .inl ⟨_, client.oneRequest_signMessage message path⟩

/-- What the arguments of an operation decide is decided for every client and on every link.
What is left open is what the device answers, and what follows from that. -/
theorem opens_perform (client : Client) (op : Operation) :
    Opens (op.perform client) op.opening := by
  rcases op.oneRequest_or_verified client with ⟨Q, hone⟩ | ⟨wallet, rfl, hverify⟩
  · exact hone.opens
  · have hregister := client.withoutVerification.oneRequest_registerWallet wallet rfl
    show Opens (client.registerWallet wallet) _
    rw [client.registerWallet_eq wallet hverify]
    refine hregister.opens.bind hregister.ensures ?_
    rintro ⟨id, hmac⟩ command hcommand hhmac
    obtain ⟨question, hquestion, hfits⟩ := Client.exists_opening_of_registered hcommand hhmac
    have haddress := (client.oneRequest_getWalletAddress wallet (some hmac) 0 0 false).opens
    rw [hquestion] at haddress
    exact .bind (haddress.follows hfits).discard fun _ => .pure _

end Operation
end SignerHost
