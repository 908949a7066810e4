import SignerHost.Command
import SignerHost.Responder
import SignerHost.Proofs.KeyPath

/-!
# Commands that can be written

A command can be written if the fields of its header are bytes and its data has at most 255 bytes.
The header is always right.  So is the length of the data, except when a wallet is registered:
there the data holds the whole serialization of the wallet, behind its length.

* `fits_iff` relates `Fits` to the serialization of commands.
* There is one lemma for each builder; `fits_registerWallet_iff` has the exact bound.
-/

namespace SignerHost

open Step

/-! ## Parts of the data -/

theorem Policy.id_of_serialize {p : Policy} {bs : Bytes} (h : p.serialize = .ok bs) :
    p.id = .ok (sha256 bs) := by
  rw [id, h]
  rfl

theorem Wallet.length_of_id {wallet : Wallet} {id : Bytes} (h : wallet.id = .ok id) :
    id.length = 32 := by
  obtain ⟨bs, -, h⟩ := bind_eq_ok.mp h
  cases h
  exact length_sha256 bs

namespace Command

theorem length_hmacField {hmac : Option Bytes} (h : ∀ code ∈ hmac, code.length = 32) :
    (hmacField hmac).length = 32 := by
  cases hmac with
  | none => rfl
  | some code => exact h code rfl

theorem length_of_indexField {index : Int} {bs : Bytes} (h : indexField index = .ok bs) :
    bs.length = 4 := by
  unfold indexField at h
  split_ifs at h
  cases h
  exact Bytes.length_ofNatBE 4 _

/-! ## Fitting -/

/-- The fields of the header are bytes. -/
def HeaderFits (c : Command) : Prop :=
  ∀ n ∈ [c.cla, c.instruction.code, c.p1, c.p2], 0 ≤ n ∧ n ≤ 255

/-- The command can be written.  Its header fields are bytes, and its data has at most 255. -/
structure Fits (c : Command) : Prop where
  header : c.HeaderFits
  data : c.data.length ≤ maxData

theorem headerFits_iff {c : Command} :
    c.HeaderFits ↔ [c.cla, c.instruction.code, c.p1, c.p2].all (Bytes.fits 1) = true := by
  rw [List.all_eq_true, HeaderFits]
  refine forall₂_congr fun n _ => ?_
  rw [Bytes.fits_iff]
  omega

theorem fits_iff {c : Command} : c.Fits ↔ ∃ bs, c.serialize = .ok bs := by
  constructor
  · rintro ⟨hheader, hdata⟩
    rw [serialize, if_neg (Nat.not_lt.mpr hdata)]
    exact ⟨_, if_pos (headerFits_iff.mp hheader)⟩
  · rintro ⟨bs, h⟩
    unfold serialize at h
    simp only [] at h
    split_ifs at h with hdata hheader
    exact ⟨headerFits_iff.mpr hheader, Nat.not_lt.mp hdata⟩

/-- Nothing but the length of the data can be wrong below a good header. -/
theorem serialize_of_not_fits {c : Command} (hheader : c.HeaderFits) (h : ¬ c.Fits) :
    c.serialize = .error (.input (.commandLength c.data.length)) := by
  rw [serialize, if_pos]
  by_contra hdata
  exact h ⟨hheader, Nat.not_lt.mp hdata⟩

/-! ## The builders -/

theorem fits_continueInterrupted {answer : Bytes} (h : answer.length ≤ Responder.maxAnswer) :
    (continueInterrupted answer).Fits where
  header := by
    show ∀ n ∈ [(0xF8 : Int), 0x01, 0, 1], 0 ≤ n ∧ n ≤ 255
    decide
  data := h

theorem fits_getVersion : getVersion.Fits where
  header := by
    show ∀ n ∈ [(0xB0 : Int), 0x01, 0, 0], 0 ≤ n ∧ n ≤ 255
    decide
  data := Nat.zero_le _

/-- The instructions of the app have codes of one byte. -/
theorem headerFits_bitcoin {instruction : Instruction} (h : instruction ∈ Instruction.named)
    (data : Bytes) : (bitcoin instruction data).HeaderFits := by
  have hcode : ∀ i ∈ Instruction.named, 0 ≤ i.code ∧ i.code ≤ 255 := by decide
  intro n hn
  simp only [bitcoin, claBitcoin, List.mem_cons, List.not_mem_nil, or_false] at hn
  rcases hn with rfl | rfl | rfl | rfl
  · decide
  · exact hcode instruction h
  · decide
  · decide

theorem fits_getMasterFingerprint : getMasterFingerprint.Fits where
  header := headerFits_bitcoin (by decide) _
  data := Nat.zero_le _

theorem fits_of_getExtendedPubkey {path : String} {display : Bool} {c : Command}
    (h : getExtendedPubkey path display = .ok c) : c.Fits := by
  obtain ⟨steps, hsteps, h⟩ := bind_eq_ok.mp h
  cases h
  refine ⟨headerFits_bitcoin (by decide) _, ?_⟩
  have hlength := KeyPath.length_le_of_parse hsteps
  show (flag display :: KeyPath.encode steps).length ≤ maxData
  rw [List.length_cons, KeyPath.length_encode]
  unfold KeyPath.maxSteps at hlength
  unfold maxData
  omega

theorem fits_of_getWalletAddress {wallet : Wallet} {hmac : Option Bytes} {index : Int}
    {change display : Bool} {c : Command} (hhmac : ∀ code ∈ hmac, code.length = 32)
    (h : getWalletAddress wallet hmac index change display = .ok c) : c.Fits := by
  obtain ⟨id, hid, h⟩ := bind_eq_ok.mp h
  obtain ⟨position, hposition, h⟩ := bind_eq_ok.mp h
  cases h
  refine ⟨headerFits_bitcoin (by decide) _, ?_⟩
  show (flag display :: (id ++ hmacField hmac ++ flag change :: position)).length ≤ maxData
  rw [List.length_cons, List.length_append, List.length_append, List.length_cons,
    Wallet.length_of_id hid, length_hmacField hhmac, length_of_indexField hposition]
  decide

theorem fits_of_signPsbt {commitments : PsbtCommitments} {wallet : Wallet} {hmac : Option Bytes}
    {c : Command} (hglobal : commitments.globalMap.length ≤ 73)
    (hinputs : commitments.inputsRoot.length = 32) (houtputs : commitments.outputsRoot.length = 32)
    (hhmac : ∀ code ∈ hmac, code.length = 32) (h : signPsbt commitments wallet hmac = .ok c) :
    c.Fits := by
  obtain ⟨inputs, hinputCount, h⟩ := bind_eq_ok.mp h
  obtain ⟨outputs, houtputCount, h⟩ := bind_eq_ok.mp h
  obtain ⟨id, hid, h⟩ := bind_eq_ok.mp h
  cases h
  refine ⟨headerFits_bitcoin (by decide) _, ?_⟩
  have hinputsLe := CompactSize.length_le_of_write hinputCount
  have houtputsLe := CompactSize.length_le_of_write houtputCount
  show (commitments.globalMap ++ inputs ++ commitments.inputsRoot ++ outputs
    ++ commitments.outputsRoot ++ id ++ hmacField hmac).length ≤ maxData
  -- All parts but the three counts have one length, and a count takes at most nine bytes.
  simp only [List.length_append, Wallet.length_of_id hid, length_hmacField hhmac, hinputs,
    houtputs]
  unfold maxData
  omega

theorem fits_of_signMessage {length : Int} {root : Bytes} {path : String} {c : Command}
    (hroot : root.length = 32) (h : signMessage length root path = .ok c) : c.Fits := by
  obtain ⟨steps, hsteps, h⟩ := bind_eq_ok.mp h
  obtain ⟨size, hsize, h⟩ := bind_eq_ok.mp h
  cases h
  refine ⟨headerFits_bitcoin (by decide) _, ?_⟩
  have hlength := KeyPath.length_le_of_parse hsteps
  have hsizeLe := CompactSize.length_le_of_write hsize
  show (KeyPath.encode steps ++ size ++ root).length ≤ maxData
  rw [List.length_append, List.length_append, KeyPath.length_encode, hroot]
  unfold KeyPath.maxSteps at hlength
  unfold maxData
  omega

/-- Registering a wallet sends its serialization behind the length of that. -/
theorem registerWallet_eq_ok {wallet : Wallet} {c : Command} :
    registerWallet wallet = .ok c ↔ ∃ serialized, wallet.serialize = .ok serialized ∧
      serialized.length < 2 ^ 64 ∧
      c = bitcoin .registerWallet (CompactSize.encode serialized.length ++ serialized) := by
  constructor
  · intro h
    obtain ⟨serialized, hserialized, h⟩ := bind_eq_ok.mp h
    obtain ⟨length, hlength, h⟩ := bind_eq_ok.mp h
    obtain ⟨hlt, rfl⟩ := CompactSize.write_ofNat_eq_ok.mp hlength
    cases h
    exact ⟨serialized, hserialized, hlt, rfl⟩
  · rintro ⟨serialized, hserialized, hlt, rfl⟩
    exact bind_eq_ok.mpr ⟨serialized, hserialized,
      bind_eq_ok.mpr ⟨_, CompactSize.write_ofNat hlt, rfl⟩⟩

theorem headerFits_of_registerWallet {wallet : Wallet} {c : Command}
    (h : registerWallet wallet = .ok c) : c.HeaderFits := by
  obtain ⟨serialized, -, -, rfl⟩ := registerWallet_eq_ok.mp h
  exact headerFits_bitcoin (by decide) _

/-- With 253 bytes the length takes three bytes, and there is no room for them.  This is where
the bound on a registration comes from. -/
theorem fits_registerWallet_iff {wallet : Wallet} {c : Command} {serialized : Bytes}
    (hserialized : wallet.serialize = .ok serialized) (h : registerWallet wallet = .ok c) :
    c.Fits ↔ serialized.length ≤ 252 := by
  have hheader := headerFits_of_registerWallet h
  obtain ⟨serialized', hserialized', -, rfl⟩ := registerWallet_eq_ok.mp h
  obtain rfl : serialized = serialized' := Except.ok.inj (hserialized.symm.trans hserialized')
  have hlength : (CompactSize.encode serialized.length ++ serialized).length =
      (CompactSize.encode serialized.length).length + serialized.length := List.length_append
  -- Up to 252 bytes the length in front takes one byte, and more than that at least three.
  constructor
  · rintro ⟨-, hdata⟩
    by_contra hlong
    have hencode := CompactSize.three_le_length_encode (Nat.not_le.mp hlong)
    have hdata : (CompactSize.encode serialized.length ++ serialized).length ≤ 255 := hdata
    omega
  · intro hshort
    have hencode := CompactSize.length_encode_of_le hshort
    refine ⟨hheader, ?_⟩
    show (CompactSize.encode serialized.length ++ serialized).length ≤ 255
    omega

end Command
end SignerHost
