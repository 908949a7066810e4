import SignerHost.Proofs.Client.Course
import SignerHost.Proofs.Client.Operation

/-!
# Addresses that were verified

A client that verifies addresses derives every address itself before it hands it over.  The device
decides what it sends and when, but not what the client returns.

* `asks_getWalletAddress` says for every verifier when an address is returned.
* `Registered` is what goes with a registration that is returned: behind it the client asked for the
  first address of the wallet, with the same id and the same code.
* `asks_registerWallet` says when a registration is returned.
* `addresses_verified` has both for a client that derives addresses from the descriptor of a wallet,
  whatever the derivation is.
-/

namespace SignerHost

open Step

namespace AddressVerifier

variable {verifier : AddressVerifier} {chain : Chain} {derive : AddressDerivation}
  {wallet : Wallet} {change : Bool} {index : Int} {address : String}

theorem verify_eq_ok :
    verifier.verify wallet change index address = .ok () ↔
      verifier.verdict wallet change index address = none := by
  rw [verify]
  cases verifier.verdict wallet change index address <;> simp

/-- An address that cannot be derived is not accepted.  So an address is accepted only if one is
derived and it is the same. -/
theorem verdict_descriptor_eq_none :
    (descriptor chain derive).verdict wallet change index address = none ↔
      wallet.address? derive chain change index = some address := by
  rw [verdict]
  cases wallet.address? derive chain change index <;> simp

end AddressVerifier

namespace Client

/-- The address that a client derives for a wallet on its own chain, if its library derives one. -/
def derived? (client : Client) (wallet : Wallet) (change : Bool) (index : Int) : Option String :=
  wallet.address? client.primitives.derive client.chain change index

/-- An address is returned exactly if the device sent it at the end of the request, and a client
that verifies addresses accepts it for the branch and the index of the request. -/
theorem asks_getWalletAddress (client : Client) (wallet : Wallet) (hmac : Option Bytes)
    (change index : Int) (display : Bool) :
    Asks (client.getWalletAddress wallet hmac change index display)
      (Operation.getWalletAddress wallet hmac change index display).opening fun data rest address =>
        rest = [] ∧ client.address? data = some address ∧ (client.verifyAddresses = true →
          client.verifier.verdict wallet (change = 1) index address = none) := by
  simp only [getWalletAddress, Operation.opening, prepare_eq]
  refine .check fun policy hpolicy => .require fun _ => .require fun _ => ?_
  obtain rfl := eq_policy_of_usablePolicy hpolicy
  refine .check ?_
  rintro ⟨_, responder⟩ hlearned
  refine Asks.request fun command data s => ?_
  cases haddress : client.address? data with
  | none => exact .ofExcept (e := .error _) (by simp)
  | some address =>
      cases hverify : client.verifyAddresses with
      | false => exact .ofExcept (e := .ok address) (by simp)
      | true =>
          -- The failure of the verifier is the failure of the call.
          refine .check (fun _ hverified => ?_) fun failure hfailure => ?_
          · have hverdict := AddressVerifier.verify_eq_ok.mp hverified
            refine .ofExcept (e := .ok address) fun a => ⟨?_, ?_⟩
            · rintro ⟨⟩
              exact ⟨rfl, rfl, fun _ => hverdict⟩
            · rintro ⟨-, ⟨⟩, -⟩
              rfl
          · refine fun a => error_eq_ok_iff ?_
            rintro ⟨-, ⟨⟩, hverdict⟩
            rw [AddressVerifier.verify_eq_ok.mpr (hverdict rfl)] at hfailure
            cases hfailure

/-! ## Registrations -/

/-- The question for the first address of a wallet: it is not displayed, and behind the id and the
registration code stand the receive branch and the index 0. -/
def firstAddress (id hmac : Bytes) : Command :=
  .bitcoin .getWalletAddress (0 :: (id ++ hmac ++ 0 :: [0, 0, 0, 0]))

theorem eq_firstAddress_of_opening {wallet : Wallet} {id hmac : Bytes} {command : Command}
    (hid : wallet.id = .ok id)
    (h : (Operation.getWalletAddress wallet (some hmac) 0 0 false).opening = .ok command) :
    command = firstAddress id hmac := by
  simp only [Operation.opening] at h
  obtain ⟨policy, hpolicy, hrest⟩ := bind_eq_ok.mp h
  obtain rfl := eq_policy_of_usablePolicy hpolicy
  obtain ⟨-, hrest⟩ := guard_eq_ok.mp hrest
  obtain ⟨-, hrest⟩ := guard_eq_ok.mp hrest
  obtain ⟨_, -, hbuild⟩ := bind_eq_ok.mp hrest
  rw [Command.getWalletAddress, hid] at hbuild
  cases hbuild
  rfl

/-- An id and a registration code for a wallet, the response to its registration, and what was
exchanged behind that: the question for the first address of the wallet, which carries the id and
the code, and completed with the address that is derived on the chain of the client. -/
structure Registered (client : Client) (wallet : Wallet) (response : Bytes)
    (question : List (Command × Reply)) (id hmac : Bytes) : Prop where
  digest : ∃ bs, wallet.serialize = .ok bs ∧ id = sha256 bs
  length : hmac.length = 32
  response : response = id ++ hmac
  question : ∃ data address, Completes (firstAddress id hmac) question data ∧
    client.address? data = some address ∧ client.derived? wallet false 0 = some address

namespace Registered

variable {client : Client} {wallet : Wallet} {response id hmac : Bytes}
  {question : List (Command × Reply)} (h : Registered client wallet response question id hmac)

include h

theorem length_id : id.length = 32 := by
  obtain ⟨bs, -, rfl⟩ := h.digest
  exact length_sha256 bs

theorem length_response : response.length = 64 := by
  rw [h.response, List.length_append, h.length_id, h.length]

theorem take_response : response.take 32 = id := by
  rw [h.response, ← h.length_id, List.take_left]

theorem drop_response : response.drop 32 = hmac := by
  rw [h.response, ← h.length_id, List.drop_left]

theorem id_eq {bs : Bytes} (hserialize : wallet.serialize = .ok bs) : id = sha256 bs := by
  obtain ⟨bs', hserialize', rfl⟩ := h.digest
  cases hserialize.symm.trans hserialize'
  rfl

omit h

/-- A response of the right length that starts with the id of the wallet is split in one way. -/
theorem iff_of_take {bs : Bytes} (hserialize : wallet.serialize = .ok bs)
    (hid : response.take 32 = sha256 bs) (hcode : (response.drop 32).length = 32) :
    Registered client wallet response question id hmac ↔
      (response.take 32, response.drop 32) = (id, hmac) ∧
        ∃ data address,
          Completes (firstAddress (response.take 32) (response.drop 32)) question data ∧
            client.address? data = some address ∧
            client.derived? wallet false 0 = some address := by
  constructor
  · intro h
    rw [h.take_response, h.drop_response]
    exact ⟨rfl, h.question⟩
  · rintro ⟨⟨⟩, hquestion⟩
    exact {
      digest := ⟨bs, hserialize, hid⟩
      length := hcode
      response := (List.take_append_drop 32 response).symm
      question := hquestion }

end Registered

section Verifying

variable {client : Client} (hverify : client.verifyAddresses = true)
  (hverifier : client.verifier = .descriptor client.chain client.primitives.derive)

include hverify hverifier

theorem transcribes_getWalletAddress (wallet : Wallet) (hmac : Option Bytes) (change index : Int)
    (display : Bool) :
    Transcribes (client.getWalletAddress wallet hmac change index display) fun exchanges r =>
      ∀ address, r = .ok address ↔ ∃ command data,
        (Operation.getWalletAddress wallet hmac change index display).opening = .ok command ∧
          Completes command exchanges data ∧ client.address? data = some address ∧
          client.derived? wallet (change = 1) index = some address := by
  refine ((client.asks_getWalletAddress wallet hmac change index display).congr ?_).alone
  intro data rest address
  rw [hverify, hverifier, AddressVerifier.verdict_descriptor_eq_none, eq_self, true_implies,
    derived?]

/-- Only whether the question for the first address fails matters to a registration. -/
theorem transcribes_firstAddress {wallet : Wallet} {id hmac : Bytes}
    (hopening : (Operation.getWalletAddress wallet (some hmac) 0 0 false).opening =
      .ok (firstAddress id hmac)) :
    Transcribes (discard (client.getWalletAddress wallet (some hmac) 0 0 false)) fun question r =>
      r = .ok () ↔ ∃ data address, Completes (firstAddress id hmac) question data ∧
        client.address? data = some address ∧
        client.derived? wallet false 0 = some address := by
  have hasks := transcribes_getWalletAddress hverify hverifier wallet (some hmac) 0 0 false
  rw [hopening] at hasks
  -- The address itself is dropped, so what is left is whether there was one.
  refine .bind (f := fun _ => pure ()) hasks ?_ ?_
  · intro question address hreturned
    obtain ⟨_, data, ⟨⟩, hverified⟩ := (hreturned address).mp rfl
    refine .ofExcept (e := .ok ()) ⟨fun _ => ?_, fun _ => rfl⟩
    rw [List.append_nil]
    exact ⟨data, address, hverified⟩
  · intro question failure hfailed
    refine error_eq_ok_iff ?_
    rintro ⟨data, address, hverified⟩
    cases (hfailed address).mpr ⟨_, data, rfl, hverified⟩

theorem asks_registerWallet (wallet : Wallet) :
    Asks (client.registerWallet wallet) (Operation.registerWallet wallet).opening
      fun response question registration =>
        Registered client wallet response question registration.1 registration.2 := by
  simp only [registerWallet, Operation.opening, prepare_eq, hverify, if_true]
  refine .check fun policy hpolicy => ?_
  obtain rfl := eq_policy_of_usablePolicy hpolicy
  refine .check ?_
  rintro ⟨_, responder⟩ hlearned
  obtain ⟨⟨bs, hserialize⟩, -⟩ := of_learnWallet hlearned
  have hid : policy.id = .ok (sha256 bs) := Policy.id_of_serialize hserialize
  have hserialize : (Wallet.policy policy).serialize = .ok bs := hserialize
  refine Asks.request fun register response s => ?_
  refine .guard (fun hlength a => ?_) fun hlength => ?_
  · exact error_eq_ok_iff fun h => hlength h.length_response
  refine .check (fun id hchecked => ?_) fun failure hfailure => ?_
  rotate_left
  · rw [hid] at hfailure
    cases hfailure
  cases hid.symm.trans hchecked
  refine .guard (fun hother a => ?_) fun hsame => ?_
  · exact error_eq_ok_iff fun h => hother (h.take_response.trans (h.id_eq hserialize))
  -- The response is the id of the wallet and a code, and the first address is asked for with them.
  have hsame : response.take 32 = sha256 bs := not_not.mp hsame
  have hcode : (response.drop 32).length = 32 := by rw [List.length_drop, not_not.mp hlength]
  have hwallet : (Wallet.policy policy).id = .ok (response.take 32) := by
    rw [hsame]
    exact hid
  obtain ⟨command, hopening, -⟩ := exists_opening_getWalletAddress hpolicy hlearned hcode
  obtain rfl := eq_firstAddress_of_opening hwallet hopening
  refine .bind (transcribes_firstAddress hverify hverifier hopening) ?_ ?_
  · intro question _ hquestion
    refine .ofExcept (e := .ok _) fun registration => ?_
    rw [List.append_nil, Registered.iff_of_take hserialize hsame hcode, Except.ok.injEq]
    exact (and_iff_left (hquestion.mp rfl)).symm
  · intro question failure hquestion registration
    rw [Registered.iff_of_take hserialize hsame hcode]
    refine error_eq_ok_iff ?_
    rintro ⟨-, hasked⟩
    cases hquestion.mpr hasked

end Verifying

/-- A client that verifies addresses with the descriptor of the wallet, with any library behind
it.  Whatever the device does and whatever the library derives, an address is returned exactly if
the device sent it at the end of the request and it is the one that is derived, so nothing is
returned where the derivation fails; and a registration is returned exactly if the device
registered the wallet under its id, the first address was asked for with this id and the code of
the device, and was the one that is derived. -/
theorem addresses_verified (client : Client) (hverify : client.verifyAddresses = true)
    (hverifier : client.verifier = .descriptor client.chain client.primitives.derive)
    (wallet : Wallet) (link : Link) :
    (∀ hmac change index display,
      let call := client.getWalletAddress wallet hmac change index display
      ∃ sent, link.Exchanged (after call link) sent ∧
        ∀ address, result call link = .ok address ↔
          ∃ command data,
            (Operation.getWalletAddress wallet hmac change index display).opening = .ok command ∧
              Completes command (link.transcript sent) data ∧
              client.address? data = some address ∧
              client.derived? wallet (change = 1) index = some address) ∧
    let call := client.registerWallet wallet
    ∃ sent, link.Exchanged (after call link) sent ∧
      ∀ id hmac, result call link = .ok (id, hmac) ↔
        ∃ register registration question response,
          (Operation.registerWallet wallet).opening = .ok register ∧
            link.transcript sent = registration ++ question ∧
            Completes register registration response ∧
            Registered client wallet response question id hmac := by
  constructor
  · intro hmac change index display
    exact (transcribes_getWalletAddress hverify hverifier wallet hmac change index display).run link
  · obtain ⟨sent, hsent, hasks⟩ := (asks_registerWallet hverify hverifier wallet).transcribes.run link
    exact ⟨sent, hsent, fun id hmac => hasks (id, hmac)⟩

/-- A wallet of one public key, the generator of the curve. -/
def generatorWallet : Wallet :=
  .policy {
    name := ""
    version := .v2
    template := "wpkh(@0)"
    keys := ["0279be667ef9dcbbac55a06295ce870b07029bfcdb2dce28d959f2815b16f81798"] }

/-- The id under which the device registers it. -/
def generatorId : Bytes := generatorWallet.id.toOption.getD []

/-- A device registers the wallet, and interrupts the question for its first address once. -/
def generatorLink (hmac : Bytes) : Link where
  replies := [.answer Status.success (generatorId ++ hmac),
    .answer Status.interrupted [0x10, 0x01],
    .answer Status.success (Text.utf8 "bc1qw508d6qejxtdg4y5r3zarvary0c5xw7kv8f3t4")]
  afterwards := fun _ => .error { kind := .timeout, text := "" }
  hasSessions := true

/-- The registration is returned: the address that the device sends is the one that is derived
from the key. -/
theorem addresses_verified_of_generator :
    let client : Client := { verifyAddresses := true }
    let hmac : Bytes := List.replicate 32 7
    let link := generatorLink hmac
    result (client.registerWallet generatorWallet) link = .ok (generatorId, hmac) ∧
      ∃ question response,
        Registered client generatorWallet response question generatorId hmac := by
  have hreturned : result (Client.registerWallet { verifyAddresses := true } generatorWallet)
      (generatorLink (List.replicate 32 7)) = .ok (generatorId, List.replicate 32 7) := by
    decide +kernel
  intro client hmac link
  obtain ⟨sent, -, hiff⟩ := (addresses_verified client rfl rfl generatorWallet link).2
  obtain ⟨register, registration, question, response, -, -, -, hregistered⟩ :=
    (hiff _ _).mp hreturned
  exact ⟨hreturned, question, response, hregistered⟩

end Client
end SignerHost
