import SignerHost.Proofs.Step
import SignerHost.Psbt.Basic

/-!
# Where the fields go

Each field of a map goes to one place of what is known.  Here stands once which place that is for
each kind of field, and what the field has to be for that.

* `InputScope.Puts`, `OutputScope.Puts` and `Psbt.Outline.Puts` have one case for each kind, in the
  order in which the kinds are told apart.
* What holds of fields that were accepted is shown by cases of these.  Why a field is refused is
  not said here.
-/

namespace SignerHost

open Step

namespace InputScope

/-- A field with a key and a value makes another scope of a scope.  The previous transaction is
not among the fields, since it is read before its value is known. -/
inductive Puts (s : InputScope) (value : Bytes) : Bytes → InputScope → Prop
  | spent {rest : Bytes} {spent : Option TxOutput}
      (h : Scope.once rest s.spent (Wire.whole TxOutput.read value) = .ok spent) :
      Puts s value (0x01 :: rest) { s with spent }
  | partialSignatures {rest : Bytes} {partialSignatures : List (PublicKey × Bytes)}
      (h : Scope.addNew s.partialSignatures (Scope.publicKey rest) (.ok value) =
        .ok partialSignatures) :
      Puts s value (0x02 :: rest) { s with partialSignatures }
  | signatureHash {rest : Bytes} {signatureHash : Option Int}
      (h : Scope.once rest s.signatureHash (signatureHashOf value) = .ok signatureHash) :
      Puts s value (0x03 :: rest) { s with signatureHash }
  | redeemScript {rest : Bytes} {redeemScript : Option Bytes}
      (h : Scope.once rest s.redeemScript (.ok value) = .ok redeemScript) :
      Puts s value (0x04 :: rest) { s with redeemScript }
  | witnessScript {rest : Bytes} {witnessScript : Option Bytes}
      (h : Scope.once rest s.witnessScript (.ok value) = .ok witnessScript) :
      Puts s value (0x05 :: rest) { s with witnessScript }
  | origins {rest : Bytes} {origins : List (PublicKey × KeyOrigin)}
      (h : Scope.addNew s.origins (Scope.publicKey rest) (KeyOrigin.ofBytes value) = .ok origins) :
      Puts s value (0x06 :: rest) { s with origins }
  | finalScript {rest : Bytes} {finalScript : Option Bytes}
      (h : Scope.once rest s.finalScript (.ok value) = .ok finalScript) :
      Puts s value (0x07 :: rest) { s with finalScript }
  | finalWitness {rest : Bytes} {finalWitness : Option (List Bytes)}
      (h : Scope.once rest s.finalWitness (Wire.whole Witness.read value) = .ok finalWitness) :
      Puts s value (0x08 :: rest) { s with finalWitness }
  | leafSignatures {rest : Bytes} {leafSignatures : List ((PublicKey × Bytes) × Bytes)}
      (h : Scope.addNew s.leafSignatures (leafKey rest) (.ok value) = .ok leafSignatures) :
      Puts s value (0x14 :: rest) { s with leafSignatures }
  | leafScripts {rest : Bytes} {leafScripts : List (Bytes × Bytes)}
      (h : Scope.addNew s.leafScripts (.ok rest) (.ok value) = .ok leafScripts) :
      Puts s value (0x15 :: rest) { s with leafScripts }
  | leafOrigins {rest : Bytes} {leafOrigins : List (PublicKey × LeafOrigin)}
      (h : Scope.addLeafOrigin s.leafOrigins rest value = .ok leafOrigins) :
      Puts s value (0x16 :: rest) { s with leafOrigins }
  | internalKey {rest : Bytes} {internalKey : PublicKey}
      (h : Scope.xOnlyKey value = .ok internalKey) :
      Puts s value (0x17 :: rest) { s with internalKey := some internalKey }
  | scriptRoot {rest : Bytes} : Puts s value (0x18 :: rest) { s with scriptRoot := some value }
  | txid : Puts s value [0x0E] { s with txid := some value }
  | vout : Puts s value [0x0F] { s with vout := some (Bytes.toNatLE value : Int) }
  | sequence : Puts s value [0x10] { s with sequence := some (Bytes.toNatLE value : Int) }
  | unknown {key : Bytes} {unknown : List (Bytes × Bytes)}
      (hkey : key ≠ [0x0E] ∧ key ≠ [0x0F] ∧ key ≠ [0x10])
      (h : Scope.addNew s.unknown (.ok key) (.ok value) = .ok unknown) :
      Puts s value key { s with unknown }

/-- A field that is accepted goes to the place of its kind. -/
theorem puts_of_set {s s' : InputScope} {kind : UInt8} {rest value : Bytes}
    (h : s.set kind rest value = .ok s') : s.Puts value (kind :: rest) s' := by
  unfold set at h
  -- The first twelve kinds have a place that may refuse the field.
  iterate 12
    rcases ite_eq_ok.mp h with ⟨rfl, h⟩ | ⟨-, h⟩
    · obtain ⟨_, hplace, ⟨⟩⟩ := bind_eq_ok.mp h
      constructor
      exact hplace
  rcases ite_eq_ok.mp h with ⟨rfl, h⟩ | ⟨-, h⟩
  · cases h
    exact .scriptRoot
  rcases ite_eq_ok.mp h with ⟨⟨rfl, rfl⟩, h⟩ | ⟨htxid, h⟩
  · cases h
    exact .txid
  rcases ite_eq_ok.mp h with ⟨⟨rfl, rfl⟩, h⟩ | ⟨hvout, h⟩
  · cases h
    exact .vout
  rcases ite_eq_ok.mp h with ⟨⟨rfl, rfl⟩, h⟩ | ⟨hsequence, h⟩
  · cases h
    exact .sequence
  obtain ⟨_, hplace, ⟨⟩⟩ := bind_eq_ok.mp h
  exact .unknown (by simp [htxid, hvout, hsequence]) hplace

/-- A previous transaction is read behind a length that does not matter, and every other field is
read as a string and set. -/
theorem run_readField_cons {s s' : InputScope} {kind : UInt8} {tail data rest : Bytes}
    (h : (readField s (kind :: tail)).run data = .ok s' rest) :
    (kind = 0x00 ∧ ∃ u s₁ t, (discard Wire.compactSize : Reader Unit).run data = .ok u s₁ ∧
      Transaction.read.run s₁ = .ok t rest ∧ s' = { s with previous := some t }) ∨
    (kind ≠ 0x00 ∧ ∃ value, Wire.string.run data = .ok value rest ∧
      s.set kind tail value = .ok s') := by
  by_cases hkind : kind = 0x00
  · left
    by_cases hrefused : tail ≠ [] ∨ s.previous.isSome = true
    · rw [readField, if_pos hkind, if_pos hrefused] at h
      cases h
    · rw [readField, if_pos hkind, if_neg hrefused] at h
      obtain ⟨u, s₁, hlength, h⟩ := run_bind_eq_ok.mp h
      obtain ⟨t, s₂, htransaction, h⟩ := run_bind_eq_ok.mp h
      cases h
      exact ⟨hkind, u, s₁, t, hlength, htransaction, rfl⟩
  · right
    rw [readField, if_neg hkind] at h
    obtain ⟨value, s₁, hstring, h⟩ := run_bind_eq_ok.mp h
    obtain ⟨hset, rfl⟩ := run_ofExcept_eq_ok.mp h
    exact ⟨hkind, value, hstring, hset⟩

end InputScope

namespace OutputScope

/-- A field with a key and a value makes another scope of a scope. -/
inductive Puts (s : OutputScope) (value : Bytes) : Bytes → OutputScope → Prop
  | redeemScript {rest : Bytes} {redeemScript : Option Bytes}
      (h : Scope.once rest s.redeemScript (.ok value) = .ok redeemScript) :
      Puts s value (0x00 :: rest) { s with redeemScript }
  | witnessScript {rest : Bytes} {witnessScript : Option Bytes}
      (h : Scope.once rest s.witnessScript (.ok value) = .ok witnessScript) :
      Puts s value (0x01 :: rest) { s with witnessScript }
  | origins {rest : Bytes} {origins : List (PublicKey × KeyOrigin)}
      (h : Scope.addNew s.origins (Scope.publicKey rest) (KeyOrigin.ofBytes value) = .ok origins) :
      Puts s value (0x02 :: rest) { s with origins }
  | amount : Puts s value [0x03] { s with value := some (Bytes.toNatLE value : Int) }
  | script : Puts s value [0x04] { s with script := some value }
  | internalKey {rest : Bytes} {internalKey : PublicKey}
      (h : Scope.xOnlyKey value = .ok internalKey) :
      Puts s value (0x05 :: rest) { s with internalKey := some internalKey }
  | leafOrigins {rest : Bytes} {leafOrigins : List (PublicKey × LeafOrigin)}
      (h : Scope.addLeafOrigin s.leafOrigins rest value = .ok leafOrigins) :
      Puts s value (0x07 :: rest) { s with leafOrigins }
  | unknown {key : Bytes} {unknown : List (Bytes × Bytes)} (hkey : key ≠ [0x03] ∧ key ≠ [0x04])
      (h : Scope.addNew s.unknown (.ok key) (.ok value) = .ok unknown) :
      Puts s value key { s with unknown }

theorem puts_of_set {s s' : OutputScope} {kind : UInt8} {rest value : Bytes}
    (h : s.set kind rest value = .ok s') : s.Puts value (kind :: rest) s' := by
  unfold set at h
  iterate 3
    rcases ite_eq_ok.mp h with ⟨rfl, h⟩ | ⟨-, h⟩
    · obtain ⟨_, hplace, ⟨⟩⟩ := bind_eq_ok.mp h
      constructor
      exact hplace
  rcases ite_eq_ok.mp h with ⟨⟨rfl, rfl⟩, h⟩ | ⟨hamount, h⟩
  · cases h
    exact .amount
  rcases ite_eq_ok.mp h with ⟨⟨rfl, rfl⟩, h⟩ | ⟨hscript, h⟩
  · cases h
    exact .script
  iterate 2
    rcases ite_eq_ok.mp h with ⟨rfl, h⟩ | ⟨-, h⟩
    · obtain ⟨_, hplace, ⟨⟩⟩ := bind_eq_ok.mp h
      constructor
      exact hplace
  obtain ⟨_, hplace, ⟨⟩⟩ := bind_eq_ok.mp h
  exact .unknown (by simp [hamount, hscript]) hplace

end OutputScope

namespace Psbt.Outline

/-- A pair of the global map makes another outline of an outline.  The transaction is not among the
pairs, since the outline starts from it. -/
inductive Puts (o : Outline) (value : Bytes) : Bytes → Outline → Prop
  | xpub {rest : Bytes} {k : ExtendedKey} {origin : KeyOrigin} (hkey : xpub rest = .ok k)
      (horigin : KeyOrigin.ofBytes value = .ok origin) :
      Puts o value (0x01 :: rest) { o with xpubs := o.xpubs ++ [(k, origin)] }
  | txVersion : Puts o value [0x02] { o with txVersion := some (Bytes.toNatLE value : Int) }
  | lockTime : Puts o value [0x03] { o with lockTime := some (Bytes.toNatLE value : Int) }
  | inputCount {inputCount : Nat} (h : count o.txInputs value = .ok inputCount) :
      Puts o value [0x04] { o with inputCount }
  | outputCount {outputCount : Nat} (h : count o.txOutputs value = .ok outputCount) :
      Puts o value [0x05] { o with outputCount }
  | unknown {key : Bytes} (hkey : key ≠ [0x02] ∧ key ≠ [0x03]) :
      Puts o value key { o with unknown := o.unknown ++ [(key, value)] }

theorem puts_of_add {o o' : Outline} {key value : Bytes} (h : o.add (key, value) = .ok o') :
    o.Puts value key o' := by
  unfold add at h
  -- Only the first byte of an extended key's field is fixed; the key itself stands behind it.
  rcases ite_eq_ok.mp h with ⟨hkind, h⟩ | ⟨-, h⟩
  · obtain ⟨rest, rfl⟩ := List.head?_eq_some_iff.mp hkind
    obtain ⟨k, hkey, h⟩ := bind_eq_ok.mp h
    obtain ⟨origin, horigin, ⟨⟩⟩ := bind_eq_ok.mp h
    exact .xpub hkey horigin
  rcases ite_eq_ok.mp h with ⟨rfl, h⟩ | ⟨hversion, h⟩
  · cases h
    exact .txVersion
  rcases ite_eq_ok.mp h with ⟨rfl, h⟩ | ⟨hlockTime, h⟩
  · cases h
    exact .lockTime
  rcases ite_eq_ok.mp h with ⟨rfl, h⟩ | ⟨-, h⟩
  · obtain ⟨n, hcount, ⟨⟩⟩ := bind_eq_ok.mp h
    exact .inputCount hcount
  rcases ite_eq_ok.mp h with ⟨rfl, h⟩ | ⟨-, h⟩
  · obtain ⟨n, hcount, ⟨⟩⟩ := bind_eq_ok.mp h
    exact .outputCount hcount
  cases h
  exact .unknown ⟨hversion, hlockTime⟩

end Psbt.Outline

end SignerHost
